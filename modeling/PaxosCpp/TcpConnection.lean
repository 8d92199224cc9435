import Mathlib

/-! The write path of `tcp_connection` (`detail/tcp_connection.cpp`). `start_write` hands
`async_write` `boost::asio::buffer (write_buffer_)`, a view of the string's storage, which asio
sends by `write_some` calls, while `write` may append to `write_buffer_`. -/
namespace PaxosCpp

/-- A `std::string`, as the bytes it holds. -/
abbrev Bytes := List UInt8

namespace TcpConnection

/-- The buffer of an outstanding `async_write`: the first `size` bytes of `write_buffer_`'s
storage, `taken` of them sent so far; `live` until that storage is freed. -/
structure View where
  size : Nat
  taken : Nat
  live : Bool
  deriving DecidableEq, Repr

structure Conn where
  writeBuffer : Bytes
  /-- the `async_write` calls issued and not completed yet -/
  pending : List View
  /-- the bytes the socket has taken, in order -/
  sent : Bytes
  deriving DecidableEq, Repr

/-- `tcp_connection::create`. -/
def create : Conn := ⟨[], [], []⟩

/-- `std::string::substr (pos)`, which throws `std::out_of_range` past the end. -/
def substr (s : Bytes) (pos : Nat) : Option Bytes :=
  if pos ≤ s.length then some (s.drop pos) else none

/-- `PAXOS_ASSERT` on a non-empty buffer, then one `async_write` of a view of all of it. -/
def startWrite (c : Conn) : Option Conn :=
  if c.writeBuffer.isEmpty then none
  else some { c with pending := c.pending ++ [⟨c.writeBuffer.length, 0, true⟩] }

/-- A view after an assignment to `write_buffer_` that `moves` the string to new storage. -/
def View.moved (moves : Bool) (v : View) : View := { v with live := v.live && !moves }

/-- `moves`: whether the assignment or the `+=` moves `write_buffer_` to new storage, as the
string does when the new size passes its `capacity ()`. -/
def write (message : Bytes) (moves : Bool) (c : Conn) : Option Conn :=
  if c.writeBuffer.isEmpty then
    startWrite { c with writeBuffer := message, pending := c.pending.map (View.moved moves) }
  else some { c with writeBuffer := c.writeBuffer ++ message, pending := c.pending.map (View.moved moves) }

/-- `error` is not read. -/
def handleWrite (error bytesTransferred : Nat) (c : Conn) : Option Conn :=
  (substr c.writeBuffer bytesTransferred).bind fun rest =>
    if rest.isEmpty = false then startWrite { c with writeBuffer := rest }
    else some { c with writeBuffer := rest }

/-- What the next `write_some` of a view reads: the `k` bytes of `write_buffer_` after those
taken while the storage is live, and what the freed storage holds once it is not. -/
def View.read (v : View) (writeBuffer : Bytes) (k : Nat) (freed : Bytes) : Bytes :=
  if v.live then (writeBuffer.drop v.taken).take k else freed

/-- One `write_some` of the `i`-th outstanding `async_write`: the socket takes `k` bytes. -/
def writeSome (i k : Nat) (freed : Bytes) (c : Conn) : Option Conn :=
  c.pending[i]?.map fun v =>
    { c with
      pending := c.pending.set i { v with taken := v.taken + k }
      sent := c.sent ++ v.read c.writeBuffer k freed }

/-- The `i`-th `async_write` completes, and asio calls `handle_write (error, taken)`. -/
def complete (i error : Nat) (c : Conn) : Option Conn :=
  c.pending[i]?.bind fun v => handleWrite error v.taken { c with pending := c.pending.eraseIdx i }

inductive Event
  | write (message : Bytes) (moves : Bool)
  | writeSome (i k : Nat) (freed : Bytes)
  | complete (i error : Nat)
  deriving DecidableEq, Repr

def step (c : Conn) : Event → Option Conn
  | .write message moves => write message moves c
  | .writeSome i k freed => writeSome i k freed c
  | .complete i error => complete i error c

/-- What callers, the socket and asio do: no caller writes an empty message (`write_command`
prepends four bytes); a `write_some` takes at least one byte its view has left; the composed
write completes without an error exactly when it has sent all of its view. -/
def Admissible (c : Conn) : Event → Prop
  | .write message _ => message ≠ []
  | .writeSome i k freed => ∃ v, c.pending[i]? = some v ∧ 0 < k ∧ v.taken + k ≤ v.size ∧ freed.length = k
  | .complete i error => ∃ v, c.pending[i]? = some v ∧ (error = 0 ↔ v.taken = v.size)

/-- The messages an event passes to `write`. -/
def Event.messages : Event → List Bytes
  | .write message _ => [message]
  | _ => []

/-- Whether the event is a `write_some` reading freed storage. -/
def Event.readsFreed (c : Conn) : Event → Bool
  | .writeSome i _ _ => match c.pending[i]? with
    | some v => !v.live
    | none => false
  | _ => false

/-- The states a new connection reaches, with the messages passed to `write` so far, and
whether every `write_some` so far read live storage. -/
inductive Reachable : List Bytes → Bool → Conn → Prop
  | create : Reachable [] true create
  | step {log : List Bytes} {intact : Bool} {c c' : Conn} {e : Event} :
      Reachable log intact c → Admissible c e → step c e = some c' →
        Reachable (log ++ e.messages) (intact && !e.readsFreed c) c'

/-- Run events in order, stopping at the first fault. -/
def run (c : Conn) : List Event → Option Conn
  | [] => some c
  | e :: es => (step c e).bind (run · es)

theorem run_append (c : Conn) (es es' : List Event) :
    run c (es ++ es') = (run c es).bind (run · es') := by
  induction es generalizing c with
  | nil => rfl
  | cons e es ih => cases h : step c e <;> simp [run, h, ih]

/-- `c` reaches `c'` by the admissible events `es`. -/
inductive Steps : Conn → List Event → Conn → Prop
  | nil (c : Conn) : Steps c [] c
  | cons {c c₁ c' : Conn} {e : Event} {es : List Event} :
      Admissible c e → step c e = some c₁ → Steps c₁ es c' → Steps c (e :: es) c'

/-! ### One lemma per function -/

theorem startWrite_eq {c : Conn} (h : c.writeBuffer ≠ []) :
    startWrite c = some { c with pending := c.pending ++ [⟨c.writeBuffer.length, 0, true⟩] } := by
  simp [startWrite, h]

theorem write_of_empty {c : Conn} {message : Bytes} (moves : Bool) (h : c.writeBuffer = [])
    (hm : message ≠ []) :
    write message moves c = some
      { c with
        writeBuffer := message
        pending := c.pending.map (View.moved moves) ++ [⟨message.length, 0, true⟩] } := by
  simp [write, h, startWrite, hm]

theorem write_of_ne {c : Conn} {message : Bytes} (moves : Bool) (h : c.writeBuffer ≠ []) :
    write message moves c = some
      { c with writeBuffer := c.writeBuffer ++ message, pending := c.pending.map (View.moved moves) } := by
  simp [write, h]

/-- `handle_write` keeps what the socket did not take, and issues a new `async_write` for it
when that is not empty. -/
theorem handleWrite_eq {c : Conn} {error k : Nat} (hk : k ≤ c.writeBuffer.length) :
    handleWrite error k c = some
      { c with
        writeBuffer := c.writeBuffer.drop k
        pending := if c.writeBuffer.drop k = [] then c.pending
          else c.pending ++ [⟨(c.writeBuffer.drop k).length, 0, true⟩] } := by
  by_cases hd : c.writeBuffer.drop k = [] <;> simp [handleWrite, substr, hk, hd, startWrite]

theorem handleWrite_past_end {c : Conn} {error k : Nat} (hk : c.writeBuffer.length < k) :
    handleWrite error k c = none := by
  simp [handleWrite, substr, Nat.not_le.mpr hk]

end TcpConnection
end PaxosCpp
