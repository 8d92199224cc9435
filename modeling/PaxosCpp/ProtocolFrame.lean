import PaxosCpp.TcpConnection

/-! Framing in `protocol` (`detail/protocol/protocol.cpp`). `write_command` puts the size of
the serialized command, held in a `uint32_t`, in front of it; `read_command` reads four
bytes, decodes them with `from_byte_array <uint32_t>`, then reads that many bytes and hands
`command::from_string` of them to its callback. `util::conversion` and the command
serialization are not among the sources; they are parameters here, the conversion with the
two facts framing rests on. A reader whose callbacks arm the next `read_command`, as
`handle_command` does, hands over the commands of a stream of frames in order and keeps
every frame boundary, as long as every body is shorter than `2 ^ 32` bytes; a longer
body's size wraps, and the reader cuts it there. -/
namespace PaxosCpp.Protocol
open TcpConnection

/-- `util::conversion::to_byte_array` and `from_byte_array <uint32_t>`: the four bytes of a
`uint32_t`, and back. -/
structure Conversion where
  toByteArray : UInt32 → Bytes
  fromByteArray : Bytes → UInt32
  length_toByteArray : ∀ v, (toByteArray v).length = 4
  fromByteArray_toByteArray : ∀ v, fromByteArray (toByteArray v) = v

section
variable (cv : Conversion) {Cmd : Type} (toString : Cmd → Bytes) (fromString : Bytes → Cmd)

/-- The `buffer` of `write_command`. -/
def frame (command : Cmd) : Bytes :=
  let binaryString := toString command
  let size : UInt32 := UInt32.ofNat binaryString.length
  cv.toByteArray size ++ binaryString

/-- `moves`: whether `destination->write` moves `write_buffer_`'s storage. -/
def writeCommand (command : Cmd) (moves : Bool) (destination : Conn) : Option Conn :=
  write (frame cv toString command) moves destination

/-- `boost::asio::async_read` of `n` bytes from a reliable stream: it completes with them once
they have arrived, and is pending until then. -/
def asyncRead (n : Nat) (stream : Bytes) : Option (Bytes × Bytes) :=
  if n ≤ stream.length then some (stream.take n, stream.drop n) else none

def readCommandParseCommand (buffer : Bytes) : Cmd := fromString buffer

def readCommandParseSize (bytesBuffer stream : Bytes) : Option (Cmd × Bytes) :=
  let bytes := cv.fromByteArray bytesBuffer
  (asyncRead bytes.toNat stream).map fun (buffer, rest) =>
    (readCommandParseCommand fromString buffer, rest)

/-- The command the callback of one `read_command` gets, and what is left of the stream. -/
def readCommand (stream : Bytes) : Option (Cmd × Bytes) :=
  (asyncRead 4 stream).bind fun (bytesBuffer, rest) =>
    readCommandParseSize cv fromString bytesBuffer rest

theorem readCommand_length {stream rest : Bytes} {command : Cmd}
    (h : readCommand cv fromString stream = some (command, rest)) : rest.length + 4 ≤ stream.length := by
  simp only [readCommand, readCommandParseSize, asyncRead] at h
  split_ifs at h with h4 <;> simp at h
  obtain ⟨-, -, rfl⟩ := h
  simp only [List.length_drop]
  omega

/-- The commands a reader started on `stream` hands to its callbacks, each callback arming one
new `read_command`; it stops at the first read the stream cannot complete. -/
def readCommands (stream : Bytes) : List Cmd :=
  match h : readCommand cv fromString stream with
  | none => []
  | some (command, rest) => command :: readCommands rest
termination_by stream.length
decreasing_by have := readCommand_length cv fromString h; omega

theorem readCommands_of_some {stream rest : Bytes} {command : Cmd}
    (h : readCommand cv fromString stream = some (command, rest)) :
    readCommands cv fromString stream = command :: readCommands cv fromString rest := by
  rw [readCommands]; split <;> simp_all

theorem readCommands_of_none {stream : Bytes} (h : readCommand cv fromString stream = none) :
    readCommands cv fromString stream = [] := by
  rw [readCommands]; split <;> simp_all

theorem toNat_size (binaryString : Bytes) :
    (UInt32.ofNat binaryString.length).toNat = binaryString.length % 2 ^ 32 := rfl

/-- A frame decodes to the first `length % 2 ^ 32` bytes of its body, whatever follows it. -/
theorem readCommand_frame (command : Cmd) (rest : Bytes) :
    readCommand cv fromString (frame cv toString command ++ rest) =
      some (fromString ((toString command).take ((toString command).length % 2 ^ 32)),
        (toString command).drop ((toString command).length % 2 ^ 32) ++ rest) := by
  have hl := cv.length_toByteArray (UInt32.ofNat (toString command).length)
  have hm := Nat.mod_le (toString command).length (2 ^ 32)
  simp only [readCommand, frame, asyncRead, List.length_append, hl, Nat.le_add_right, ite_true,
    List.append_assoc, List.take_left' hl, List.drop_left' hl, Option.some_bind,
    readCommandParseSize, cv.fromByteArray_toByteArray, toNat_size]
  generalize (toString command).length % 2 ^ 32 = n at hm ⊢
  simp [readCommandParseCommand, List.take_append_of_le_length hm, List.drop_append_of_le_length hm,
    show n ≤ (toString command).length + rest.length by omega]

/-- The stream of the frames of `commands`. -/
def frames (commands : List Cmd) : Bytes := (commands.map (frame cv toString)).flatten

theorem readCommands_frames_append {commands : List Cmd}
    (h : ∀ c ∈ commands, (toString c).length < 2 ^ 32) (rest : Bytes) :
    readCommands cv fromString (frames cv toString commands ++ rest) =
      commands.map (fromString ∘ toString) ++ readCommands cv fromString rest := by
  induction commands with
  | nil => rfl
  | cons c cs ih =>
    have hc := Nat.mod_eq_of_lt (h c (List.mem_cons_self c cs))
    simp only [frames, List.map_cons, List.flatten_cons, List.append_assoc] at ih ⊢
    rw [readCommands_of_some cv fromString (readCommand_frame cv toString fromString c _), hc,
      List.take_length, List.drop_length, List.nil_append,
      ih fun c' hc' => h c' (List.mem_cons_of_mem c hc')]
    rfl

theorem readCommands_nil : readCommands cv fromString [] = [] :=
  readCommands_of_none cv fromString (by simp [readCommand, asyncRead])

theorem readCommands_of_frames {commands : List Cmd} (h : ∀ c ∈ commands, (toString c).length < 2 ^ 32) :
    readCommands cv fromString (frames cv toString commands) = commands.map (fromString ∘ toString) := by
  simpa [readCommands_nil] using readCommands_frames_append cv toString fromString h []

/-- The reader hands over each command of a stream of frames once, in order, and each read
ends on a frame boundary, so what follows the frames is read as if on its own. -/
theorem readCommands_frames {commands : List Cmd} (h : ∀ c ∈ commands, (toString c).length < 2 ^ 32) :
    readCommands cv fromString (frames cv toString commands) = commands.map (fromString ∘ toString) ∧
      ∀ rest, readCommands cv fromString (frames cv toString commands ++ rest) =
        commands.map (fromString ∘ toString) ++ readCommands cv fromString rest :=
  ⟨readCommands_of_frames cv toString fromString h, readCommands_frames_append cv toString fromString h⟩

/-- A body of `2 ^ 32` bytes is framed with size 0: the reader hands over the command of an
empty body, then reads the body itself as frames. -/
theorem readCommands_wrapped_frame {command : Cmd} (h : (toString command).length = 2 ^ 32) :
    readCommands cv fromString (frames cv toString [command]) =
      fromString [] :: readCommands cv fromString (toString command) := by
  have hr := readCommand_frame cv toString fromString command []
  simp only [h, Nat.mod_self, List.take_zero, List.drop_zero, List.append_nil] at hr
  rw [frames, List.map_singleton, List.flatten_singleton, readCommands_of_some cv fromString hr]

end

/-- The four bytes of a `uint32_t`, least significant first, and back. -/
def littleEndian : Conversion where
  toByteArray v := [(v.toNat % 256).toUInt8, (v.toNat / 256 % 256).toUInt8,
    (v.toNat / 65536 % 256).toUInt8, (v.toNat / 16777216 % 256).toUInt8]
  fromByteArray b := UInt32.ofNat (b.foldr (fun x acc => x.toNat + 256 * acc) 0)
  length_toByteArray _ := rfl
  fromByteArray_toByteArray v := by
    apply UInt32.ext
    have hv := v.toNat_lt
    change (_ % 256 + 256 * (_ % 256 + 256 * (_ % 256 + 256 * (_ % 256 + 256 * 0)))) % 2 ^ 32 = _
    omega

theorem readCommands_frames_one :
    (∀ c ∈ [[7, 8]], (id c : Bytes).length < 2 ^ 32) ∧
      (readCommands littleEndian id (frames littleEndian id [[7, 8]]) = [[7, 8]].map (id ∘ id) ∧
        ∀ rest, readCommands littleEndian id (frames littleEndian id [[7, 8]] ++ rest) =
          [[7, 8]].map (id ∘ id) ++ readCommands littleEndian id rest) :=
  have h : ∀ c ∈ [[7, 8]], (id c : Bytes).length < 2 ^ 32 := by simp
  ⟨h, readCommands_frames littleEndian id id h⟩

theorem readCommands_wraps :
    readCommands littleEndian id (frames littleEndian id [List.replicate (2 ^ 32) (0 : UInt8)]) ≠
      [List.replicate (2 ^ 32) (0 : UInt8)].map (id ∘ id) := by
  have key : ∀ body : Bytes, body.length = 2 ^ 32 →
      readCommands littleEndian id (frames littleEndian id [body]) ≠ [body].map (id ∘ id) := by
    intro body hb
    have hne : body ≠ [] := by rintro rfl; simp at hb
    rw [readCommands_wrapped_frame littleEndian id id hb]
    simp [hne.symm]
  exact key _ (List.length_replicate _ _)

end PaxosCpp.Protocol
