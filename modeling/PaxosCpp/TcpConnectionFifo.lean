import PaxosCpp.TcpConnection

/-! What `write` and `handle_write` keep: at most one `async_write` outstanding, exactly while
`write_buffer_` holds bytes, its view inside the buffer. The bytes not sent yet are always the
rest of what was written; the bytes the socket took are its start only while no `write_some`
has read freed storage, and `write_buffer_ +=` during a write can free it. -/
namespace PaxosCpp.TcpConnection

/-- The bytes of `write_buffer_` the outstanding `async_write` has sent. -/
def Conn.taken (c : Conn) : Nat := (c.pending.map View.taken).sum

/-- The bytes written and not taken by the socket yet. -/
def Conn.unsent (c : Conn) : Bytes := c.writeBuffer.drop c.taken

structure Inv (c : Conn) : Prop where
  atMostOne : c.pending.length ≤ 1
  pending_iff : c.pending ≠ [] ↔ c.writeBuffer ≠ []
  within : ∀ v ∈ c.pending, v.taken ≤ v.size ∧ v.size ≤ c.writeBuffer.length

/-- What a connection holds of the messages `log` written to it: what waits is the rest of
them, and what the socket took is their start while every `write_some` read live storage. -/
structure Written (log : List Bytes) (intact : Bool) (c : Conn) : Prop where
  unsent_eq : c.unsent = log.flatten.drop c.sent.length
  sent_le : c.sent.length ≤ log.flatten.length
  fifo : intact = true → c.sent ++ c.unsent = log.flatten

theorem inv_create : Inv create := ⟨by simp [create], by simp [create], by simp [create]⟩

/-- Under `Inv` a connection is idle, or has one write in flight inside `write_buffer_`. -/
theorem Inv.cases {c : Conn} (h : Inv c) :
    (c.pending = [] ∧ c.writeBuffer = []) ∨
      ∃ v, c.pending = [v] ∧ v.taken ≤ v.size ∧ v.size ≤ c.writeBuffer.length ∧ c.writeBuffer ≠ [] := by
  match hp : c.pending, h.atMostOne with
  | [], _ => exact .inl ⟨rfl, by simpa [hp] using h.pending_iff⟩
  | [v], _ =>
    obtain ⟨ht, hs⟩ := h.within v (by simp [hp])
    exact .inr ⟨v, rfl, ht, hs, h.pending_iff.mp (by simp [hp])⟩
  | _ :: _ :: _, hl => simp at hl

theorem unsent_of_pending {c : Conn} {v : View} (hp : c.pending = [v]) :
    c.unsent = c.writeBuffer.drop v.taken := by
  simp [Conn.unsent, Conn.taken, hp]

/-- The view an admissible `write_some` or completion names is the one in flight. -/
theorem Inv.pending_eq {c : Conn} (hi : Inv c) {i : Nat} {v : View} (hv : c.pending[i]? = some v) :
    i = 0 ∧ c.pending = [v] ∧ v.taken ≤ v.size ∧ v.size ≤ c.writeBuffer.length := by
  rcases hi.cases with ⟨hp, -⟩ | ⟨w, hp, ht, hs, -⟩
  · simp [hp] at hv
  · obtain ⟨rfl, rfl⟩ : i = 0 ∧ w = v := by
      rcases i with _ | i <;> simp_all
    exact ⟨rfl, hp, ht, hs⟩

theorem step_write {c c' : Conn} {message : Bytes} {moves : Bool} (hi : Inv c) (hm : message ≠ [])
    (hs : write message moves c = some c') :
    Inv c' ∧ c'.sent = c.sent ∧ c'.unsent = c.unsent ++ message := by
  rcases hi.cases with ⟨hp, hw⟩ | ⟨v, hp, ht, hsz, hw⟩
  · rw [write_of_empty moves hw hm, Option.some.injEq] at hs
    subst hs
    refine ⟨⟨by simp [hp], by simp [hp, hm], by simp [hp]⟩, rfl, ?_⟩
    simp [Conn.unsent, Conn.taken, hp, hw]
  · rw [write_of_ne moves hw, Option.some.injEq] at hs
    subst hs
    refine ⟨⟨by simp [hp], by simp [hp, hw], ?_⟩, rfl, ?_⟩
    · simp only [hp, List.map_cons, List.map_nil, List.mem_singleton, List.length_append]
      rintro _ rfl
      exact ⟨ht, by simp [View.moved]; omega⟩
    · simp [Conn.unsent, Conn.taken, hp, View.moved, List.drop_append_of_le_length (ht.trans hsz)]

/-- A `write_some` takes the next `k` bytes not sent: the right ones unless it reads freed
storage, then `freed`. -/
theorem step_writeSome {c c' : Conn} {i k : Nat} {freed : Bytes} (hi : Inv c)
    (ha : Admissible c (.writeSome i k freed)) (hs : writeSome i k freed c = some c') :
    Inv c' ∧ k ≤ c.unsent.length ∧ c'.unsent = c.unsent.drop k ∧
      c'.sent = c.sent ++ if (Event.writeSome i k freed).readsFreed c then freed else c.unsent.take k := by
  obtain ⟨v, hv, hk, hks, hf⟩ := ha
  obtain ⟨rfl, hp, ht, hsz⟩ := hi.pending_eq hv
  simp only [writeSome, hp, List.getElem?_cons_zero, Option.map_some', Option.some.injEq] at hs
  subst hs
  have hu := unsent_of_pending hp
  refine ⟨⟨by simp, by simpa [hp] using hi.pending_iff.mp (by simp [hp]), by simp; omega⟩,
    by simp [hu]; omega, ?_, ?_⟩
  · simp [Conn.unsent, Conn.taken, hp, List.drop_drop, Nat.add_comm]
  · cases hl : v.live <;> simp [Event.readsFreed, View.read, hp, hl, hu]

/-- A completion sends nothing and keeps what waits; `handle_write` re-issues it, if any. -/
theorem step_complete {c c' : Conn} {i error : Nat} (hi : Inv c)
    (ha : Admissible c (.complete i error)) (hs : complete i error c = some c') :
    Inv c' ∧ c'.sent = c.sent ∧ c'.unsent = c.unsent ∧ c'.writeBuffer = c.unsent ∧
      c'.pending = if c.unsent = [] then [] else [⟨c.unsent.length, 0, true⟩] := by
  obtain ⟨v, hv, -⟩ := ha
  obtain ⟨rfl, hp, ht, hsz⟩ := hi.pending_eq hv
  have hu := unsent_of_pending hp
  simp only [complete, hp, List.getElem?_cons_zero, Option.some_bind, List.eraseIdx_cons_zero] at hs
  rw [handleWrite_eq (by simpa using ht.trans hsz), Option.some.injEq] at hs
  have hc' : c' =
      { c with
        writeBuffer := c.unsent
        pending := if c.unsent = [] then [] else [⟨c.unsent.length, 0, true⟩] } := by
    rw [← hs, hu]
    by_cases h0 : c.writeBuffer.drop v.taken = [] <;> simp [h0]
  subst hc'
  refine ⟨⟨by split <;> simp, by split <;> simp_all, by split <;> simp⟩, rfl, ?_, rfl, rfl⟩
  split <;> simp [Conn.unsent, Conn.taken]

theorem step_inv {c c' : Conn} {e : Event} (hi : Inv c) (ha : Admissible c e)
    (hs : step c e = some c') : Inv c' := by
  cases e with
  | write message moves => exact (step_write hi ha hs).1
  | writeSome i k freed => exact (step_writeSome hi ha hs).1
  | complete i error => exact (step_complete hi ha hs).1

/-- Under `Inv`, every admissible event runs: `start_write`'s `PAXOS_ASSERT` holds and
`substr` never runs past the end. -/
theorem step_some {c : Conn} {e : Event} (hi : Inv c) (ha : Admissible c e) :
    ∃ c', step c e = some c' := by
  cases e with
  | write message moves =>
    rcases hi.cases with ⟨-, hw⟩ | ⟨-, -, -, -, hw⟩
    · exact ⟨_, write_of_empty moves hw ha⟩
    · exact ⟨_, write_of_ne moves hw⟩
  | writeSome i k freed =>
    obtain ⟨v, hv, -⟩ := ha
    simp only [step, writeSome, hv, Option.map_some']
    exact ⟨_, rfl⟩
  | complete i error =>
    obtain ⟨v, hv, -⟩ := ha
    obtain ⟨rfl, hp, ht, hsz⟩ := hi.pending_eq hv
    simp only [step, complete, hp, List.getElem?_cons_zero, Option.some_bind]
    exact ⟨_, handleWrite_eq (by simpa using ht.trans hsz)⟩

theorem written_create : Written [] true create := ⟨rfl, le_rfl, fun _ => rfl⟩

theorem written_step {log : List Bytes} {intact : Bool} {c c' : Conn} {e : Event}
    (hi : Inv c) (hw : Written log intact c) (ha : Admissible c e) (hs : step c e = some c') :
    Written (log ++ e.messages) (intact && !e.readsFreed c) c' := by
  obtain ⟨hu, hl, hf⟩ := hw
  cases e with
  | write message moves =>
    obtain ⟨-, hs', hu'⟩ := step_write hi ha hs
    simp only [Event.messages, Event.readsFreed, Bool.not_false, Bool.and_true]
    refine ⟨?_, ?_, fun h => ?_⟩ <;> rw [List.flatten_append, List.flatten_singleton]
    · rw [hu', hs', hu, List.drop_append_of_le_length hl]
    · rw [hs', List.length_append]; omega
    · rw [hs', hu', ← List.append_assoc, hf h]
  | writeSome i k freed =>
    obtain ⟨-, hk, hu', hs'⟩ := step_writeSome hi ha hs
    obtain ⟨v, -, -, -, hfl⟩ := ha
    have hlen : c'.sent.length = c.sent.length + k := by
      rw [hs']; split <;> simp [hfl, Nat.min_eq_left hk]
    rw [hu, List.length_drop] at hk
    simp only [Event.messages, List.append_nil]
    refine ⟨?_, by omega, fun h => ?_⟩
    · rw [hu', hlen, hu, List.drop_drop, Nat.add_comm]
    · simp only [Bool.and_eq_true, Bool.not_eq_true'] at h
      rw [hs', if_neg (by simp [h.2]), hu', List.append_assoc, List.take_append_drop, hf h.1]
  | complete i error =>
    obtain ⟨-, hs', hu', -, -⟩ := step_complete hi ha hs
    simp only [Event.messages, Event.readsFreed, List.append_nil, Bool.not_false, Bool.and_true]
    exact ⟨by rw [hu', hs', hu], by rw [hs']; exact hl, fun h => by rw [hs', hu', hf h]⟩

theorem reachable_inv {log : List Bytes} {intact : Bool} {c : Conn} (h : Reachable log intact c) :
    Inv c ∧ Written log intact c := by
  induction h with
  | create => exact ⟨inv_create, written_create⟩
  | step _ ha hs ih => exact ⟨step_inv ih.1 ha hs, written_step ih.1 ih.2 ha hs⟩

/-- Two writes, the second after the socket took one byte of the first. -/
theorem reachable_partly_sent : Reachable [[1, 2], [3]] true ⟨[1, 2, 3], [⟨2, 1, true⟩], [1]⟩ :=
  .step (.step (.step .create (show Admissible create (.write [1, 2] false) by simp [Admissible]) rfl)
    (show Admissible ⟨[1, 2], [⟨2, 0, true⟩], []⟩ (.writeSome 0 1 [0]) from ⟨_, rfl, by decide, by decide, rfl⟩) rfl)
    (show Admissible ⟨[1, 2], [⟨2, 1, true⟩], [1]⟩ (.write [3] false) by simp [Admissible]) rfl

/-- For every interleaving of writes, `write_some` calls and completions: at most one
`async_write` is outstanding, exactly while `write_buffer_` holds bytes; no admissible step
faults; the bytes not sent are the rest of those written; and while no `write_some` has read
freed storage, the socket has taken the start of them, in order. -/
theorem write_queue_invariant {log : List Bytes} {intact : Bool} {c : Conn} (h : Reachable log intact c) :
    c.pending.length ≤ 1 ∧ (c.pending ≠ [] ↔ c.writeBuffer ≠ []) ∧
      (∀ e, Admissible c e → ∃ c', step c e = some c') ∧
      c.unsent = log.flatten.drop c.sent.length ∧ (intact = true → c.sent ++ c.unsent = log.flatten) :=
  have ⟨hi, hw⟩ := reachable_inv h
  ⟨hi.atMostOne, hi.pending_iff, fun _ => step_some hi, hw.unsent_eq, hw.fifo⟩

theorem write_queue_invariant_append :
    Reachable [[1, 2], [3]] true ⟨[1, 2, 3], [⟨2, 1, true⟩], [1]⟩ ∧
      ((⟨[1, 2, 3], [⟨2, 1, true⟩], [1]⟩ : Conn).pending.length ≤ 1 ∧
        ((⟨[1, 2, 3], [⟨2, 1, true⟩], [1]⟩ : Conn).pending ≠ [] ↔
          (⟨[1, 2, 3], [⟨2, 1, true⟩], [1]⟩ : Conn).writeBuffer ≠ []) ∧
        (∀ e, Admissible ⟨[1, 2, 3], [⟨2, 1, true⟩], [1]⟩ e → ∃ c', step ⟨[1, 2, 3], [⟨2, 1, true⟩], [1]⟩ e = some c') ∧
        (⟨[1, 2, 3], [⟨2, 1, true⟩], [1]⟩ : Conn).unsent =
          [[1, 2], [3]].flatten.drop (⟨[1, 2, 3], [⟨2, 1, true⟩], [1]⟩ : Conn).sent.length ∧
        (true = true → (⟨[1, 2, 3], [⟨2, 1, true⟩], [1]⟩ : Conn).sent ++
          (⟨[1, 2, 3], [⟨2, 1, true⟩], [1]⟩ : Conn).unsent = [[1, 2], [3]].flatten)) :=
  ⟨reachable_partly_sent, write_queue_invariant reachable_partly_sent⟩

/-- `write` appends to `write_buffer_` after the socket took part of the write in flight: when
the append moves the string, the rest of that write is sent from freed storage, and the peer
gets a byte that was never written. -/
theorem append_in_flight_sends_freed_bytes :
    Reachable [[1, 2], [3]] false ⟨[3], [⟨1, 0, true⟩], [1, 0]⟩ ∧ ¬ ([1, 0] : Bytes) <+: [[1, 2], [3]].flatten := by
  refine ⟨?_, by decide⟩
  have h : Reachable [[1, 2], [3]] true ⟨[1, 2, 3], [⟨2, 1, false⟩], [1]⟩ :=
    .step (.step (.step .create (show Admissible create (.write [1, 2] false) by simp [Admissible]) rfl)
      (show Admissible ⟨[1, 2], [⟨2, 0, true⟩], []⟩ (.writeSome 0 1 [0]) from ⟨_, rfl, by decide, by decide, rfl⟩) rfl)
      (show Admissible ⟨[1, 2], [⟨2, 1, true⟩], [1]⟩ (.write [3] true) by simp [Admissible]) rfl
  exact .step (.step h (show Admissible _ (.writeSome 0 1 [0]) from ⟨_, rfl, by decide, by decide, rfl⟩) rfl)
    (show Admissible ⟨[1, 2, 3], [⟨2, 2, false⟩], [1, 0]⟩ (.complete 0 0) from ⟨_, rfl, by decide⟩) rfl

end PaxosCpp.TcpConnection
