import PaxosCpp.ProtocolFrame

/-! What `protocol` does with the commands it reads and writes: `new_connection` arms a reader
whose callback is `handle_command`, which passes a command of the three types it knows to its
handler and arms the next `read_command`, and throws `protocol_error` on any other;
`initiate_request` writes a `request_initiate` command. -/
namespace PaxosCpp.Protocol
open TcpConnection

/-- Modelled from the spec: the type discriminator of `command`. -/
inductive CommandType
  | handshakeStart | handshakeResponse | leaderClaim | leaderAnnounce | requestInitiate
  | prepare | promise | accept | accepted | requestResponse | error
  deriving DecidableEq, Repr

/-- The `switch` of `handle_command`: a handler takes the command, or `default` throws
`protocol_error`. -/
def CommandType.handled : CommandType → Bool
  | .handshakeStart | .leaderClaim | .leaderAnnounce => true
  | _ => false

section
variable (cv : Conversion) {Cmd : Type} (toString : Cmd → Bytes) (fromString : Bytes → Cmd)
  (type : Cmd → CommandType)

/-- The reader of `new_connection` on `stream`: the commands `handle_command` passes to a
handler, in order, and the command it throws `protocol_error` on, if any, after which no
`read_command` is armed. -/
def newConnection (stream : Bytes) : List Cmd × Option Cmd :=
  match h : readCommand cv fromString stream with
  | none => ([], none)
  | some (command, rest) =>
    if (type command).handled then
      let later := newConnection rest
      (command :: later.1, later.2)
    else ([], some command)
termination_by stream.length
decreasing_by have := readCommand_length cv fromString h; omega

/-- `handle_command` takes the commands the reader hands over up to the first it has no
handler for. -/
theorem newConnection_eq (stream : Bytes) :
    newConnection cv fromString type stream =
      ((readCommands cv fromString stream).takeWhile (fun c => (type c).handled),
        (readCommands cv fromString stream).find? (fun c => !(type c).handled)) := by
  induction stream using newConnection.induct cv fromString type with
  | case1 stream h =>
    rw [newConnection, readCommands_of_none cv fromString h]
    split <;> simp_all
  | case2 stream command rest h hc ih =>
    rw [newConnection, readCommands_of_some cv fromString h]
    split <;> simp_all
  | case3 stream command rest h hc =>
    rw [newConnection, readCommands_of_some cv fromString h]
    split <;> simp_all

/-- On a stream of frames, the handlers get the commands written, in order, up to the first
of a type `handle_command` has no handler for; `protocol_error` is thrown on that one, and no
later command of the connection reaches a handler. -/
theorem handlers_get_commands_until_unknown {commands : List Cmd}
    (h : ∀ c ∈ commands, (toString c).length < 2 ^ 32) :
    newConnection cv fromString type (frames cv toString commands) =
      ((commands.map (fromString ∘ toString)).takeWhile (fun c => (type c).handled),
        (commands.map (fromString ∘ toString)).find? (fun c => !(type c).handled)) := by
  rw [newConnection_eq, readCommands_of_frames cv toString fromString h]

end

/-- A leader claim, then a `prepare`, which `handle_command` has no handler for, then a
leader announcement. -/
def claimPrepareAnnounce : Bytes → CommandType
  | [1] => .leaderClaim
  | [2] => .prepare
  | _ => .leaderAnnounce

theorem handlers_get_commands_until_unknown_three :
    (∀ c ∈ [[1], [2], [3]], (id c : Bytes).length < 2 ^ 32) ∧
      newConnection littleEndian id claimPrepareAnnounce (frames littleEndian id [[1], [2], [3]]) =
        (([[1], [2], [3]].map (id ∘ id)).takeWhile (fun c => (claimPrepareAnnounce c).handled),
          ([[1], [2], [3]].map (id ∘ id)).find? (fun c => !(claimPrepareAnnounce c).handled)) :=
  have h : ∀ c ∈ [[1], [2], [3]], (id c : Bytes).length < 2 ^ 32 := by simp
  ⟨h, handlers_get_commands_until_unknown littleEndian id id claimPrepareAnnounce h⟩

/-- Modelled from the spec: the two fields of `command` that `initiate_request` sets. -/
structure Command where
  type : CommandType
  workload : Bytes
  deriving DecidableEq, Repr

/-- The `command` of `initiate_request`: type `request_initiate`, workload `byte_array`. -/
def initiateCommand (byteArray : Bytes) : Command := ⟨.requestInitiate, byteArray⟩

/-- `moves`: whether `connection->write` moves `write_buffer_`'s storage. -/
def initiateRequest (cv : Conversion) (toString : Command → Bytes) (connection : Conn)
    (byteArray : Bytes) (moves : Bool) : Option Conn :=
  writeCommand cv toString (initiateCommand byteArray) moves connection

end PaxosCpp.Protocol
