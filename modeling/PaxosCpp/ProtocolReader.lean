import PaxosCpp.ProtocolFrame

/-! The reader `read_command` runs on a connection, driven by what arrives on the socket. Its
outstanding `async_read` is of the four bytes of a size (`read_command`) or of the body they
give (`read_command_parse_size`); asio fills it by `read_some` calls that take any number of
the bytes waiting, and once it is full, calls its handler. `read_command_parse_command` hands
the command to the callback, which arms the next `read_command`; a read that fails makes its
handler return, and the reader stops. However the bytes arrive and however asio splits the
reads, the reader has handed over the first commands of the whole stream read at once
(`readCommands`), and all of them once no byte waits on the socket. -/
namespace PaxosCpp.Protocol

section
variable (cv : Conversion) {Cmd : Type} (fromString : Bytes → Cmd)

theorem asyncRead_append {n : Nat} {stream bytes rest : Bytes}
    (h : asyncRead n stream = some (bytes, rest)) (more : Bytes) :
    asyncRead n (stream ++ more) = some (bytes, rest ++ more) := by
  simp only [asyncRead] at h ⊢
  split_ifs at h with hn
  obtain ⟨rfl, rfl⟩ := Prod.mk.inj (Option.some.inj h)
  simp [Nat.le_add_right_of_le hn, List.take_append_of_le_length hn, List.drop_append_of_le_length hn]

/-- Bytes that arrive later do not change a command already read. -/
theorem readCommand_append {stream rest : Bytes} {command : Cmd}
    (h : readCommand cv fromString stream = some (command, rest)) (more : Bytes) :
    readCommand cv fromString (stream ++ more) = some (command, rest ++ more) := by
  simp only [readCommand, readCommandParseSize, Option.bind_eq_some, Option.map_eq_some'] at h
  obtain ⟨⟨bytesBuffer, rest₄⟩, h₄, ⟨buffer, rest'⟩, hb, hc⟩ := h
  obtain ⟨rfl, rfl⟩ := Prod.mk.inj hc
  simp [readCommand, readCommandParseSize, asyncRead_append h₄, asyncRead_append hb]

/-- The commands of a stream are the first commands of any longer stream. -/
theorem readCommands_isPrefix_append (stream more : Bytes) :
    readCommands cv fromString stream <+: readCommands cv fromString (stream ++ more) := by
  induction stream using readCommands.induct cv fromString with
  | case1 stream h =>
    rw [readCommands_of_none cv fromString h]
    exact List.nil_prefix
  | case2 stream command rest h ih =>
    rw [readCommands_of_some cv fromString h,
      readCommands_of_some cv fromString (readCommand_append cv fromString h more)]
    exact (List.prefix_cons_inj command).mpr ih

/-- A full size read: the reader goes on as if the size had been written by `to_byte_array`. -/
theorem readCommands_size {bytesBuffer : Bytes} (hb : bytesBuffer.length = 4) (rest : Bytes) :
    readCommands cv fromString (bytesBuffer ++ rest) =
      readCommands cv fromString (cv.toByteArray (cv.fromByteArray bytesBuffer) ++ rest) := by
  have h4 := cv.length_toByteArray (cv.fromByteArray bytesBuffer)
  have hr : ∀ b : Bytes, b.length = 4 →
      readCommand cv fromString (b ++ rest) = readCommandParseSize cv fromString b rest := by
    intro b hb
    simp [readCommand, asyncRead, hb, List.take_left' hb, List.drop_left' hb]
  have heq : readCommand cv fromString (bytesBuffer ++ rest) =
      readCommand cv fromString (cv.toByteArray (cv.fromByteArray bytesBuffer) ++ rest) := by
    rw [hr _ hb, hr _ h4]
    simp [readCommandParseSize, cv.fromByteArray_toByteArray]
  cases hc : readCommand cv fromString (bytesBuffer ++ rest) with
  | none => rw [readCommands_of_none cv fromString hc, readCommands_of_none cv fromString (heq.symm.trans hc)]
  | some cr =>
    obtain ⟨command, rest'⟩ := cr
    rw [readCommands_of_some cv fromString hc, readCommands_of_some cv fromString (heq.symm.trans hc)]

/-- A full body read: the command, then what follows it. -/
theorem readCommands_body {bytes : UInt32} {commandBuffer : Bytes}
    (hc : commandBuffer.length = bytes.toNat) (rest : Bytes) :
    readCommands cv fromString (cv.toByteArray bytes ++ (commandBuffer ++ rest)) =
      readCommandParseCommand fromString commandBuffer :: readCommands cv fromString rest := by
  have h4 := cv.length_toByteArray bytes
  apply readCommands_of_some
  simp [readCommand, asyncRead, h4, List.take_left' h4, List.drop_left' h4, readCommandParseSize,
    cv.fromByteArray_toByteArray, ← hc, List.take_left, List.drop_left]

end

/-- The `async_read` outstanding: of the four bytes of a size into `bytes_buffer`, or of the
`bytes` bytes of a body into `command_buffer`, with what it has read so far. -/
inductive PendingRead
  | size (bytesBuffer : Bytes)
  | command (bytes : UInt32) (commandBuffer : Bytes)
  deriving DecidableEq, Repr

namespace PendingRead

/-- The number of bytes the read waits for. -/
def length : PendingRead → Nat
  | .size _ => 4
  | .command bytes _ => bytes.toNat

def buffer : PendingRead → Bytes
  | .size bytesBuffer => bytesBuffer
  | .command _ commandBuffer => commandBuffer

/-- One `read_some` into the read's buffer. -/
def fill (more : Bytes) : PendingRead → PendingRead
  | .size bytesBuffer => .size (bytesBuffer ++ more)
  | .command bytes commandBuffer => .command bytes (commandBuffer ++ more)

@[simp] theorem fill_length (more : Bytes) (p : PendingRead) : (p.fill more).length = p.length := by
  cases p <;> rfl

@[simp] theorem fill_buffer (more : Bytes) (p : PendingRead) : (p.fill more).buffer = p.buffer ++ more := by
  cases p <;> rfl

/-- The bytes the read has taken and not turned into a command yet: a size read's buffer, or
a size that decodes to the body's length, then the body read's buffer. -/
def taken (cv : Conversion) : PendingRead → Bytes
  | .size bytesBuffer => bytesBuffer
  | .command bytes commandBuffer => cv.toByteArray bytes ++ commandBuffer

@[simp] theorem taken_fill (cv : Conversion) (more : Bytes) (p : PendingRead) :
    (p.fill more).taken cv = p.taken cv ++ more := by
  cases p <;> simp [taken, fill]

/-- A read that lacks some of its bytes holds no command of the whole-stream reader. -/
theorem readCommands_taken (cv : Conversion) {Cmd : Type} (fromString : Bytes → Cmd)
    {p : PendingRead} (hp : p.buffer.length < p.length) : readCommands cv fromString (p.taken cv) = [] := by
  apply readCommands_of_none
  cases p with
  | size bytesBuffer =>
    simp only [buffer, length] at hp
    simp [readCommand, asyncRead, taken, Nat.not_le.mpr hp]
  | command bytes commandBuffer =>
    simp only [buffer, length] at hp
    have h4 := cv.length_toByteArray bytes
    simp [readCommand, asyncRead, taken, h4, List.take_left' h4, List.drop_left' h4,
      readCommandParseSize, cv.fromByteArray_toByteArray, Nat.not_le.mpr hp]

end PendingRead

structure Reader (Cmd : Type) where
  /-- the bytes that arrived and no read has taken yet -/
  socket : Bytes
  /-- the outstanding read; `none` once a read failed and its handler returned -/
  pendingRead : Option PendingRead
  /-- the commands handed to the callback, in order -/
  handed : List Cmd
  deriving DecidableEq, Repr

namespace Reader

section
variable (cv : Conversion) {Cmd : Type} (fromString : Bytes → Cmd)

/-- `read_command`, as `new_connection` arms it on a new connection. -/
def start : Reader Cmd := ⟨[], some (.size []), []⟩

/-- `read_command_parse_command` once the body read is full: the command goes to the
callback, which arms a new `read_command`. -/
def parseCommand (bytes : UInt32) (commandBuffer : Bytes) (r : Reader Cmd) : Reader Cmd :=
  if commandBuffer.length = bytes.toNat then
    { r with
      pendingRead := some (.size [])
      handed := r.handed ++ [readCommandParseCommand fromString commandBuffer] }
  else { r with pendingRead := some (.command bytes commandBuffer) }

/-- `read_command_parse_size` once the size read is full: decode the size and read the body;
asio completes a read of no bytes at once. -/
def parseSize (bytesBuffer : Bytes) (r : Reader Cmd) : Reader Cmd :=
  if bytesBuffer.length = 4 then parseCommand fromString (cv.fromByteArray bytesBuffer) [] r
  else { r with pendingRead := some (.size bytesBuffer) }

/-- The read after a `read_some`: its handler runs once it is full. -/
def settle : PendingRead → Reader Cmd → Reader Cmd
  | .size bytesBuffer => parseSize cv fromString bytesBuffer
  | .command bytes commandBuffer => parseCommand fromString bytes commandBuffer

/-- The outstanding read takes the next `k` bytes waiting on the socket. -/
def readSome (k : Nat) (r : Reader Cmd) : Option (Reader Cmd) :=
  r.pendingRead.map fun p => settle cv fromString (p.fill (r.socket.take k)) { r with socket := r.socket.drop k }

inductive Event
  | arrive (chunk : Bytes)
  | readSome (k : Nat)
  | fail
  deriving DecidableEq, Repr

/-- `fail`: the outstanding read completes with an error, and its handler returns. -/
def step (r : Reader Cmd) : Event → Option (Reader Cmd)
  | .arrive chunk => some { r with socket := r.socket ++ chunk }
  | .readSome k => readSome cv fromString k r
  | .fail => r.pendingRead.map fun _ => { r with pendingRead := none }

/-- A `read_some` takes at least one of the bytes waiting, and no more than the read lacks. -/
def Admissible (r : Reader Cmd) : Event → Prop
  | .readSome k => ∃ p, r.pendingRead = some p ∧ 0 < k ∧ k ≤ r.socket.length ∧
      k ≤ p.length - p.buffer.length
  | _ => True

def Event.arrived : Event → Bytes
  | .arrive chunk => chunk
  | _ => []

/-- The states of a reader started on a new connection, with the bytes arrived so far. -/
inductive Reachable : Bytes → Reader Cmd → Prop
  | start : Reachable [] start
  | step {arrived : Bytes} {r r' : Reader Cmd} {e : Event} :
      Reachable arrived r → Admissible r e → step cv fromString r e = some r' →
        Reachable (arrived ++ e.arrived) r'

/-- Admissible steps, one after another. -/
inductive Steps : Reader Cmd → List Event → Reader Cmd → Prop
  | nil (r : Reader Cmd) : Steps r [] r
  | cons {r r₁ r' : Reader Cmd} {e : Event} {es : List Event} :
      Admissible r e → step cv fromString r e = some r₁ → Steps r₁ es r' → Steps r (e :: es) r'

theorem Steps.reachable {r r' : Reader Cmd} {es : List Event} (h : Steps cv fromString r es r')
    {arrived : Bytes} (hr : Reachable cv fromString arrived r) :
    Reachable cv fromString (arrived ++ (es.map Event.arrived).flatten) r' := by
  induction h generalizing arrived with
  | nil => simpa using hr
  | cons ha hs _ ih => simpa using ih (hr.step ha hs)

/-- The reader has handed over the first commands of the bytes `arrived`, and hands over next
what the whole-stream reader reads from the bytes its read has taken, then the socket's. -/
structure Agrees (arrived : Bytes) (r : Reader Cmd) : Prop where
  handedFirst : r.handed <+: readCommands cv fromString arrived
  pending : ∀ p, r.pendingRead = some p → p.buffer.length < p.length ∧
    ∀ more, readCommands cv fromString (arrived ++ more) =
      r.handed ++ readCommands cv fromString (p.taken cv ++ (r.socket ++ more))

theorem agrees_start : Agrees cv fromString [] (start : Reader Cmd) :=
  ⟨List.nil_prefix, fun p hp => by cases hp; exact ⟨by decide, fun more => rfl⟩⟩

theorem agrees_of_pending {arrived : Bytes} {r : Reader Cmd} {p : PendingRead}
    (hp : r.pendingRead = some p) (hlt : p.buffer.length < p.length)
    (hr : ∀ more, readCommands cv fromString (arrived ++ more) =
      r.handed ++ readCommands cv fromString (p.taken cv ++ (r.socket ++ more))) :
    Agrees cv fromString arrived r :=
  ⟨⟨_, by simpa using (hr []).symm⟩, fun p' hp' => by cases hp.symm.trans hp'; exact ⟨hlt, hr⟩⟩

/-- Whatever a `read_some` completed, the handlers leave a read that agrees. -/
theorem settle_agrees {arrived : Bytes} {r : Reader Cmd} {p : PendingRead}
    (hp : p.buffer.length ≤ p.length)
    (hr : ∀ more, readCommands cv fromString (arrived ++ more) =
      r.handed ++ readCommands cv fromString (p.taken cv ++ (r.socket ++ more))) :
    Agrees cv fromString arrived (settle cv fromString p r) := by
  cases p with
  | size bytesBuffer =>
    simp only [PendingRead.buffer, PendingRead.length] at hp
    simp only [settle, parseSize, parseCommand]
    split_ifs with h4 h0
    · refine agrees_of_pending cv fromString rfl (by decide) fun more => ?_
      rw [hr]
      simp only [PendingRead.taken]
      rw [readCommands_size cv fromString h4, ← List.nil_append (r.socket ++ more),
        readCommands_body cv fromString h0]
      simp
    · refine agrees_of_pending cv fromString rfl
        (by simp only [PendingRead.buffer, PendingRead.length, List.length_nil] at h0 ⊢; omega) fun more => ?_
      rw [hr]
      simp only [PendingRead.taken]
      rw [readCommands_size cv fromString h4, List.append_nil]
    · exact agrees_of_pending cv fromString rfl (by simp [PendingRead.buffer, PendingRead.length]; omega) hr
  | command bytes commandBuffer =>
    simp only [PendingRead.buffer, PendingRead.length] at hp
    simp only [settle, parseCommand]
    split_ifs with hc
    · refine agrees_of_pending cv fromString rfl (by decide) fun more => ?_
      rw [hr]
      simp only [PendingRead.taken, List.append_assoc]
      rw [readCommands_body cv fromString hc]
      simp
    · exact agrees_of_pending cv fromString rfl (by simp [PendingRead.buffer, PendingRead.length]; omega) hr

theorem agrees_readSome {arrived : Bytes} {r r' : Reader Cmd} {k : Nat}
    (h : Agrees cv fromString arrived r) (ha : Admissible r (.readSome k))
    (hs : readSome cv fromString k r = some r') : Agrees cv fromString arrived r' := by
  obtain ⟨p, hp, -, hk, hkp⟩ := ha
  simp only [readSome, hp, Option.map_some', Option.some.injEq] at hs
  subst hs
  obtain ⟨hlt, hr⟩ := h.pending p hp
  have hsplit (more : Bytes) : r.socket.take k ++ (r.socket.drop k ++ more) = r.socket ++ more := by
    rw [← List.append_assoc, List.take_append_drop]
  refine settle_agrees cv fromString (by simp [List.length_take]; omega) fun more => ?_
  rw [hr]
  simp only [PendingRead.taken_fill, List.append_assoc, hsplit]

theorem agrees_step {arrived : Bytes} {r r' : Reader Cmd} {e : Event}
    (h : Agrees cv fromString arrived r) (ha : Admissible r e) (hs : step cv fromString r e = some r') :
    Agrees cv fromString (arrived ++ e.arrived) r' := by
  cases e with
  | arrive chunk =>
    cases hs
    refine ⟨h.handedFirst.trans (readCommands_isPrefix_append cv fromString _ _), fun p hp => ?_⟩
    obtain ⟨hlt, hr⟩ := h.pending p hp
    exact ⟨hlt, fun more => by simpa [Event.arrived] using hr (chunk ++ more)⟩
  | readSome k => simpa [Event.arrived] using agrees_readSome cv fromString h ha hs
  | fail =>
    simp only [step, Option.map_eq_some'] at hs
    obtain ⟨_, -, rfl⟩ := hs
    exact ⟨by simpa [Event.arrived] using h.handedFirst, fun p hp => by cases hp⟩

/-- With no byte waiting and a read outstanding, the reader has handed over every command of
the bytes arrived. -/
theorem Agrees.handed_eq {arrived : Bytes} {r : Reader Cmd} (h : Agrees cv fromString arrived r)
    (hs : r.socket = []) (hp : r.pendingRead.isSome) : r.handed = readCommands cv fromString arrived := by
  obtain ⟨p, hp⟩ := Option.isSome_iff_exists.mp hp
  obtain ⟨hlt, hr⟩ := h.pending p hp
  simpa [hs, PendingRead.readCommands_taken cv fromString hlt] using (hr []).symm

theorem reachable_agrees {arrived : Bytes} {r : Reader Cmd} (h : Reachable cv fromString arrived r) :
    Agrees cv fromString arrived r := by
  induction h with
  | start => exact agrees_start cv fromString
  | step _ ha hs ih => exact agrees_step cv fromString ih ha hs

/-- However the bytes arrive and asio splits the reads, the reader has handed over the first
commands of the bytes arrived; all of them once none waits, unless a read failed; and while
bytes wait, the outstanding read can take one. -/
theorem reader_follows_stream {arrived : Bytes} {r : Reader Cmd} (h : Reachable cv fromString arrived r) :
    r.handed <+: readCommands cv fromString arrived ∧
      (r.socket = [] → r.pendingRead.isSome → r.handed = readCommands cv fromString arrived) ∧
      (r.socket ≠ [] → r.pendingRead.isSome →
        Admissible r (.readSome 1) ∧ (step cv fromString r (.readSome 1)).isSome) := by
  have ha := reachable_agrees cv fromString h
  refine ⟨ha.handedFirst, ha.handed_eq cv fromString, fun hs hp => ?_⟩
  obtain ⟨p, hp⟩ := Option.isSome_iff_exists.mp hp
  obtain ⟨hlt, -⟩ := ha.pending p hp
  refine ⟨⟨p, hp, Nat.one_pos, List.length_pos.mpr hs, by omega⟩, ?_⟩
  simp [step, readSome, hp]

end

theorem reader_follows_stream_partial :
    Reachable littleEndian id [1, 0, 0, 0, 7, 1, 0] (⟨[], some (.size [1, 0]), [[7]]⟩ : Reader Bytes) ∧
      (([[7]] : List Bytes) <+: readCommands littleEndian id [1, 0, 0, 0, 7, 1, 0] ∧
        (([] : Bytes) = [] → (some (PendingRead.size [1, 0])).isSome →
          ([[7]] : List Bytes) = readCommands littleEndian id [1, 0, 0, 0, 7, 1, 0]) ∧
        (([] : Bytes) ≠ [] → (some (PendingRead.size [1, 0])).isSome →
          Admissible (⟨[], some (.size [1, 0]), [[7]]⟩ : Reader Bytes) (.readSome 1) ∧
            (step littleEndian id (⟨[], some (.size [1, 0]), [[7]]⟩ : Reader Bytes) (.readSome 1)).isSome)) :=
  have h : Reachable littleEndian id [1, 0, 0, 0, 7, 1, 0] (⟨[], some (.size [1, 0]), [[7]]⟩ : Reader Bytes) :=
    (Steps.cons trivial rfl <| .cons ⟨_, rfl, by decide, by decide, by decide⟩ rfl <|
      .cons ⟨_, rfl, by decide, by decide, by decide⟩ rfl <|
      .cons ⟨_, rfl, by decide, by decide, by decide⟩ rfl <| .nil _ :
        Steps littleEndian id start [.arrive [1, 0, 0, 0, 7, 1, 0], .readSome 4, .readSome 1, .readSome 2]
          ⟨[], some (.size [1, 0]), [[7]]⟩).reachable littleEndian id .start
  ⟨h, reader_follows_stream littleEndian id h⟩

/-! Reading on with no new bytes: each `read_some` takes a waiting byte, a failed read ends the
reader, so it stops; and one byte at a time it takes them all. -/
section
variable (cv : Conversion) {Cmd : Type} (fromString : Bytes → Cmd)

@[simp] theorem settle_socket (p : PendingRead) (r : Reader Cmd) :
    (settle cv fromString p r).socket = r.socket := by
  cases p <;> simp only [settle, parseSize, parseCommand] <;> split_ifs <;> rfl

@[simp] theorem settle_pendingRead_isSome (p : PendingRead) (r : Reader Cmd) :
    (settle cv fromString p r).pendingRead.isSome := by
  cases p <;> simp only [settle, parseSize, parseCommand] <;> split_ifs <;> rfl

def Event.isArrive : Event → Bool
  | .arrive _ => true
  | _ => false

/-- What the reader can do with no new bytes: take the bytes waiting, and fail once. -/
def work (r : Reader Cmd) : Nat := r.socket.length + if r.pendingRead.isSome then 1 else 0

theorem work_step {r r' : Reader Cmd} {e : Event} (ha : Admissible r e)
    (hs : step cv fromString r e = some r') (he : e.isArrive = false) : work r' < work r := by
  cases e with
  | arrive => cases he
  | readSome k =>
    obtain ⟨p, hp, hk, hks, -⟩ := ha
    simp only [step, readSome, hp, Option.map_some', Option.some.injEq] at hs
    subst hs
    simp only [work, settle_socket, settle_pendingRead_isSome, hp, Option.isSome_some, List.length_drop]
    omega
  | fail =>
    simp only [step, Option.map_eq_some'] at hs
    obtain ⟨_, hp, rfl⟩ := hs
    simp [work, hp]

theorem steps_work {r r' : Reader Cmd} {es : List Event} (h : Steps cv fromString r es r')
    (he : ∀ e ∈ es, e.isArrive = false) : es.length + work r' ≤ work r := by
  induction h with
  | nil => simp
  | cons ha hs _ ih =>
    have := work_step cv fromString ha hs (he _ (List.mem_cons_self _ _))
    have := ih fun e he' => he e (List.mem_cons_of_mem _ he')
    simp only [List.length_cons]
    omega

/-- An agreeing reader with a read outstanding takes the waiting bytes one at a time, and still
agrees, with a read outstanding, once none waits. -/
theorem agrees_drain {arrived : Bytes} :
    ∀ (r : Reader Cmd), Agrees cv fromString arrived r → r.pendingRead.isSome →
      ∃ r', Steps cv fromString r (List.replicate r.socket.length (.readSome 1)) r' ∧
        r'.socket = [] ∧ r'.pendingRead.isSome ∧ Agrees cv fromString arrived r'
  | ⟨[], pendingRead, handed⟩, h, hp => ⟨_, .nil _, rfl, hp, h⟩
  | ⟨b :: socket, pendingRead, handed⟩, h, hp => by
    obtain ⟨p, rfl⟩ := Option.isSome_iff_exists.mp hp
    obtain ⟨hlt, -⟩ := h.pending p rfl
    have ha : Admissible ⟨b :: socket, some p, handed⟩ (.readSome 1) :=
      ⟨p, rfl, Nat.one_pos, by simp, by omega⟩
    have hs : step cv fromString ⟨b :: socket, some p, handed⟩ (.readSome 1) =
        some (settle cv fromString (p.fill [b]) ⟨socket, some p, handed⟩) := rfl
    obtain ⟨r', hs', h'⟩ := agrees_drain _ (agrees_readSome cv fromString h ha hs)
      (settle_pendingRead_isSome cv fromString _ _)
    exact ⟨r', .cons ha hs (by simpa using hs'), h'⟩
termination_by r => r.socket.length

/-- With no new bytes the reader stops: after at most one step more than the bytes waiting.
With a read outstanding it can take them one at a time, and then it has handed over every
command of the bytes arrived. -/
theorem reader_drains {arrived : Bytes} {r : Reader Cmd} (h : Reachable cv fromString arrived r) :
    (∀ es r', Steps cv fromString r es r' → (∀ e ∈ es, e.isArrive = false) →
      es.length ≤ r.socket.length + 1) ∧
    (r.pendingRead.isSome → ∃ r', Steps cv fromString r (List.replicate r.socket.length (.readSome 1)) r' ∧
      r'.socket = [] ∧ r'.handed = readCommands cv fromString arrived) := by
  refine ⟨fun es r' hs he => ?_, fun hp => ?_⟩
  · have := steps_work cv fromString hs he
    simp only [work] at this
    split_ifs at this <;> omega
  · obtain ⟨r', hs, hsock, hp', ha⟩ := agrees_drain cv fromString r (reachable_agrees cv fromString h) hp
    exact ⟨r', hs, hsock, ha.handed_eq cv fromString hsock hp'⟩

end

theorem reader_drains_frame :
    Reachable littleEndian id [1, 0, 0, 0, 7] (⟨[1, 0, 0, 0, 7], some (.size []), []⟩ : Reader Bytes) ∧
      ((∀ es r', Steps littleEndian id ⟨[1, 0, 0, 0, 7], some (.size []), []⟩ es r' →
          (∀ e ∈ es, e.isArrive = false) → es.length ≤ [1, 0, 0, 0, 7].length + 1) ∧
        ((some (PendingRead.size [])).isSome → ∃ r', Steps littleEndian id ⟨[1, 0, 0, 0, 7], some (.size []), []⟩
          (List.replicate [1, 0, 0, 0, 7].length (.readSome 1)) r' ∧
            r'.socket = [] ∧ r'.handed = readCommands littleEndian id [1, 0, 0, 0, 7])) := by
  have hr : Reachable littleEndian id [1, 0, 0, 0, 7] (⟨[1, 0, 0, 0, 7], some (.size []), []⟩ : Reader Bytes) :=
    .step .start (show Admissible (start : Reader Bytes) (.arrive [1, 0, 0, 0, 7]) from trivial) rfl
  exact ⟨hr, reader_drains littleEndian id hr⟩

end Reader
end PaxosCpp.Protocol
