import PaxosCpp.TcpConnectionFifo

/-! `handle_write` does not read its error code: after a failed `async_write` it issues another
for what the socket did not take, so on a socket that fails every write the loop
`start_write → handle_write → start_write` never ends. On a socket that takes every byte, the
queue empties. -/
namespace PaxosCpp.TcpConnection

/-- `write_buffer_` cut to the bytes not sent, with a fresh `async_write` of all of them. -/
def reissued (c : Conn) : Conn :=
  { c with writeBuffer := c.unsent, pending := [⟨c.unsent.length, 0, true⟩] }

@[simp] theorem reissued_unsent (c : Conn) : (reissued c).unsent = c.unsent := by
  simp [reissued, Conn.unsent, Conn.taken]

/-- Whatever its error, a completion re-issues what the socket did not take. -/
theorem complete_reissues {c : Conn} (hi : Inv c) (hu : c.unsent ≠ []) (error : Nat) :
    step c (.complete 0 error) = some (reissued c) := by
  have hw : c.writeBuffer ≠ [] := fun hw => hu (by simp [Conn.unsent, hw])
  rcases hi.cases with ⟨-, hw'⟩ | ⟨v, hp, ht, hsz, -⟩
  · exact absurd hw' hw
  · have hu' := unsent_of_pending hp
    rw [hu'] at hu
    simp only [step, complete, hp, List.getElem?_cons_zero, Option.some_bind, List.eraseIdx_cons_zero]
    rw [handleWrite_eq (by simpa using ht.trans hsz)]
    simp [hu, reissued, hu']

/-- A connection with a fresh `async_write` of all it holds: every completion, failed or
not, brings it back to itself. -/
theorem run_reissued {c : Conn} (hi : Inv c) (hc : reissued c = c) (hu : c.unsent ≠ []) (error : Nat) :
    ∀ n, run c (List.replicate n (.complete 0 error)) = some c
  | 0 => rfl
  | n + 1 => by
    simp only [List.replicate_succ, run, complete_reissues hi hu, hc, Option.some_bind]
    exact run_reissued hi hc hu error n

/-- A socket that fails every write: after `write ("\x01")`, each completion with an error and
no byte re-issues the same `async_write`, however many come. -/
theorem failed_write_keeps_writing (n : Nat) :
    run create (.write [1] false :: List.replicate (n + 1) (.complete 0 1)) =
        some ⟨[1], [⟨1, 0, true⟩], []⟩ ∧
      Reachable [[1]] true ⟨[1], [⟨1, 0, true⟩], []⟩ := by
  have h : Reachable [[1]] true ⟨[1], [⟨1, 0, true⟩], []⟩ :=
    .step .create (show Admissible create (.write [1] false) by simp [Admissible]) rfl
  refine ⟨?_, h⟩
  simp only [run, show step create (.write [1] false) = some ⟨[1], [⟨1, 0, true⟩], []⟩ from rfl,
    Option.some_bind]
  exact run_reissued (reachable_inv h).1 rfl (by decide) 1 (n + 1)

/-! ### After `close`

Once the socket takes no more bytes, no `write_some` runs, and the outstanding `async_write`
completes with whatever it had sent. Nothing more reaches the peer, `write_buffer_` keeps
every byte not sent, and a connection with such bytes never stops issuing `async_write`. -/

/-- What a socket that takes no more bytes lets happen: writes, and completions. -/
def Event.Offline : Event → Prop
  | .writeSome .. => False
  | _ => True

/-- Offline events keep `Inv`, move no byte to the peer, and append what is written. -/
theorem steps_offline {c c' : Conn} {es : List Event} (hi : Inv c) (hs : Steps c es c')
    (ho : ∀ e ∈ es, e.Offline) :
    Inv c' ∧ c'.sent = c.sent ∧ c'.unsent = c.unsent ++ (es.map Event.messages).flatten.flatten := by
  induction hs with
  | nil c => exact ⟨hi, rfl, by simp⟩
  | @cons c c₁ c' e es ha hst _ ih =>
    have h₁ : Inv c₁ ∧ c₁.sent = c.sent ∧ c₁.unsent = c.unsent ++ e.messages.flatten := by
      cases e with
      | write message moves =>
        obtain ⟨hi₁, hs₁, hu₁⟩ := step_write hi ha hst
        exact ⟨hi₁, hs₁, by simpa [Event.messages] using hu₁⟩
      | writeSome => exact absurd (ho _ (List.mem_cons_self _ _)) id
      | complete i error =>
        obtain ⟨hi₁, hs₁, hu₁, -, -⟩ := step_complete hi ha hst
        exact ⟨hi₁, hs₁, by simpa [Event.messages] using hu₁⟩
    obtain ⟨hi', hs', hu'⟩ := ih h₁.1 fun e he => ho e (List.mem_cons_of_mem _ he)
    exact ⟨hi', hs'.trans h₁.2.1, by simp [hu', h₁.2.2]⟩

/-- On a socket that takes no more bytes, as after `close`: nothing more reaches the peer, and
`write_buffer_` keeps every byte written and not sent; while it holds any, a completion can
come, and every completion re-issues an `async_write` of all of them. -/
theorem closed_connection_keeps_writing {log : List Bytes} {intact : Bool} {c c' : Conn}
    {es : List Event} (h : Reachable log intact c) (hs : Steps c es c') (ho : ∀ e ∈ es, e.Offline) :
    c'.sent = c.sent ∧ c'.unsent = c.unsent ++ (es.map Event.messages).flatten.flatten ∧
      (c'.unsent ≠ [] → (∃ error, Admissible c' (.complete 0 error)) ∧
        ∀ error, step c' (.complete 0 error) = some (reissued c')) := by
  obtain ⟨hi', hs', hu'⟩ := steps_offline (reachable_inv h).1 hs ho
  refine ⟨hs', hu', fun hu => ⟨?_, complete_reissues hi' hu⟩⟩
  rcases hi'.cases with ⟨-, hw⟩ | ⟨v, hp, -, -, -⟩
  · exact absurd (by simp [Conn.unsent, hw]) hu
  · exact ⟨if v.taken = v.size then 0 else 1, v, by simp [hp], by split <;> simp_all⟩

theorem closed_connection_keeps_writing_create :
    Reachable [] true create ∧ Steps create [.write [1] false, .complete 0 1] ⟨[1], [⟨1, 0, true⟩], []⟩ ∧
      (∀ e ∈ [Event.write [1] false, .complete 0 1], e.Offline) ∧
      ((⟨[1], [⟨1, 0, true⟩], []⟩ : Conn).sent = create.sent ∧
        (⟨[1], [⟨1, 0, true⟩], []⟩ : Conn).unsent =
          create.unsent ++ ([Event.write [1] false, .complete 0 1].map Event.messages).flatten.flatten ∧
        ((⟨[1], [⟨1, 0, true⟩], []⟩ : Conn).unsent ≠ [] →
          (∃ error, Admissible ⟨[1], [⟨1, 0, true⟩], []⟩ (.complete 0 error)) ∧
          ∀ error, step ⟨[1], [⟨1, 0, true⟩], []⟩ (.complete 0 error) =
            some (reissued ⟨[1], [⟨1, 0, true⟩], []⟩))) := by
  have hs : Steps create [.write [1] false, .complete 0 1] ⟨[1], [⟨1, 0, true⟩], []⟩ :=
    .cons (show Admissible create (.write [1] false) by simp [Admissible]) rfl
      (.cons ⟨_, rfl, by decide⟩ rfl (.nil _))
  have ho : ∀ e ∈ [Event.write [1] false, .complete 0 1], e.Offline := by simp [Event.Offline]
  exact ⟨.create, hs, ho, closed_connection_keeps_writing .create hs ho⟩

/-! ### Without errors

A socket that takes every byte completes each `async_write` once it has sent its view. The
queue then empties: each `write_some` takes a byte not sent, and a completion is left for the
write in flight and for one more when it does not cover `write_buffer_`. -/

/-- What a socket that takes every byte lets happen: `write_some` calls, and completions
without an error. -/
def Event.Succeeded : Event → Prop
  | .write .. => False
  | .writeSome .. => True
  | .complete _ error => error = 0

/-- The completions an error-free run can still see: of the write in flight, and of one more
when it does not cover `write_buffer_`. -/
def Conn.completions (c : Conn) : Nat :=
  match c.pending with
  | [] => 0
  | v :: _ => if v.size < c.writeBuffer.length then 2 else 1

/-- The steps an error-free run can still take. -/
def flushWork (c : Conn) : Nat := c.unsent.length + c.completions

theorem flushWork_le (c : Conn) : flushWork c ≤ c.unsent.length + 2 := by
  simp only [flushWork, Conn.completions]
  split
  · omega
  · split <;> omega

theorem step_succeeded {c c' : Conn} {e : Event} (hi : Inv c) (ha : Admissible c e)
    (hs : step c e = some c') (he : e.Succeeded) :
    flushWork c' < flushWork c ∧ e.messages = [] ∧
      ((∀ v ∈ c.pending, v.live) → e.readsFreed c = false ∧ ∀ v ∈ c'.pending, v.live) := by
  cases e with
  | write => cases he
  | writeSome i k freed =>
    obtain ⟨-, hk, hu', -⟩ := step_writeSome hi ha hs
    obtain ⟨v, hv, hk0, -, -⟩ := ha
    obtain ⟨rfl, hp, -, -⟩ := hi.pending_eq hv
    simp only [step, writeSome, hp, List.getElem?_cons_zero, Option.map_some', Option.some.injEq] at hs
    subst hs
    refine ⟨?_, rfl, fun hl => ?_⟩
    · simp only [flushWork, Conn.completions, hu', List.length_drop, hp]
      simp
      omega
    · simp [Event.readsFreed, hp, hl v (by simp [hp])]
  | complete i error =>
    obtain ⟨-, -, hu', hw', hp'⟩ := step_complete hi ha hs
    obtain ⟨v, hv, hfull⟩ := ha
    obtain ⟨rfl, hp, -, -⟩ := hi.pending_eq hv
    have hu := unsent_of_pending hp
    rw [hfull.mp he] at hu
    refine ⟨?_, rfl, fun _ => ⟨rfl, by rw [hp']; split <;> simp⟩⟩
    simp only [flushWork, Conn.completions, hu', hw', hp', hp]
    by_cases h0 : c.unsent = []
    · simp only [h0, if_true]
      split <;> simp
    · have : v.size < c.writeBuffer.length := by rw [hu] at h0; simpa using h0
      simp [h0, this]

theorem steps_succeeded {log : List Bytes} {intact : Bool} {c c' : Conn} {es : List Event}
    (h : Reachable log intact c) (hs : Steps c es c') (he : ∀ e ∈ es, e.Succeeded) :
    es.length + flushWork c' ≤ flushWork c ∧ ∃ intact', Reachable log intact' c' ∧
      (intact = true → (∀ v ∈ c.pending, v.live) → intact' = true) := by
  induction hs generalizing intact with
  | nil c => exact ⟨by simp, intact, h, fun hi _ => hi⟩
  | @cons c c₁ c' e es ha hst _ ih =>
    obtain ⟨hw, hm, hl⟩ := step_succeeded (reachable_inv h).1 ha hst (he _ (List.mem_cons_self _ _))
    have h₁ := h.step ha hst
    rw [hm, List.append_nil] at h₁
    obtain ⟨hlen, intact', h', hi'⟩ := ih h₁ fun e he' => he e (List.mem_cons_of_mem _ he')
    refine ⟨by simp only [List.length_cons]; omega, intact', h', fun hi hv => ?_⟩
    obtain ⟨hf, hv₁⟩ := hl hv
    exact hi' (by simp [hi, hf]) hv₁

/-- On a socket that takes every byte, every error-free run from a reachable state is short:
at most one step per byte not sent, and two completions. While `write_buffer_` holds bytes the
run can go on; once it is empty nothing is in flight, and the socket has taken as many bytes as
were written: exactly those, in order, unless a `write_some` read freed storage. -/
theorem writes_flushed {log : List Bytes} {intact : Bool} {c c' : Conn} {es : List Event}
    (h : Reachable log intact c) (hs : Steps c es c') (he : ∀ e ∈ es, e.Succeeded) :
    es.length ≤ c.unsent.length + 2 ∧
      (c'.writeBuffer ≠ [] → ∃ e, e.Succeeded ∧ Admissible c' e) ∧
      (c'.writeBuffer = [] → c'.pending = [] ∧ c'.sent.length = log.flatten.length ∧
        (intact = true → (∀ v ∈ c.pending, v.live) → c'.sent = log.flatten)) := by
  obtain ⟨hlen, intact', h', hi'⟩ := steps_succeeded h hs he
  obtain ⟨hinv, hw⟩ := reachable_inv h'
  refine ⟨by have := flushWork_le c; omega, fun hne => ?_, fun hnil => ?_⟩
  · rcases hinv.cases with ⟨-, hw'⟩ | ⟨v, hp, ht, -, -⟩
    · exact absurd hw' hne
    · by_cases hts : v.taken < v.size
      · exact ⟨.writeSome 0 1 [0], trivial, v, by simp [hp], Nat.one_pos, by omega, rfl⟩
      · exact ⟨.complete 0 0, rfl, v, by simp [hp], by simp; omega⟩
  · have hu : c'.unsent = [] := by simp [Conn.unsent, hnil]
    have hl := hw.sent_le
    have heq := hw.unsent_eq
    rw [hu, eq_comm, List.drop_eq_nil_iff] at heq
    refine ⟨by simpa [hnil] using hinv.pending_iff, by omega, fun hi hv => ?_⟩
    simpa [hu] using hw.fifo (hi' hi hv)

theorem writes_flushed_append :
    Reachable [[1, 2], [3]] true ⟨[1, 2, 3], [⟨2, 1, true⟩], [1]⟩ ∧
      Steps ⟨[1, 2, 3], [⟨2, 1, true⟩], [1]⟩
        [.writeSome 0 1 [0], .complete 0 0, .writeSome 0 1 [0], .complete 0 0] ⟨[], [], [1, 2, 3]⟩ ∧
      (∀ e ∈ [Event.writeSome 0 1 [0], .complete 0 0, .writeSome 0 1 [0], .complete 0 0], e.Succeeded) ∧
      ([Event.writeSome 0 1 [0], .complete 0 0, .writeSome 0 1 [0], .complete 0 0].length ≤
          (⟨[1, 2, 3], [⟨2, 1, true⟩], [1]⟩ : Conn).unsent.length + 2 ∧
        ((⟨[], [], [1, 2, 3]⟩ : Conn).writeBuffer ≠ [] →
          ∃ e, e.Succeeded ∧ Admissible ⟨[], [], [1, 2, 3]⟩ e) ∧
        ((⟨[], [], [1, 2, 3]⟩ : Conn).writeBuffer = [] → (⟨[], [], [1, 2, 3]⟩ : Conn).pending = [] ∧
          (⟨[], [], [1, 2, 3]⟩ : Conn).sent.length = [[1, 2], [3]].flatten.length ∧
          (true = true → (∀ v ∈ (⟨[1, 2, 3], [⟨2, 1, true⟩], [1]⟩ : Conn).pending, v.live) →
            (⟨[], [], [1, 2, 3]⟩ : Conn).sent = [[1, 2], [3]].flatten))) := by
  have hs : Steps ⟨[1, 2, 3], [⟨2, 1, true⟩], [1]⟩
      [.writeSome 0 1 [0], .complete 0 0, .writeSome 0 1 [0], .complete 0 0] ⟨[], [], [1, 2, 3]⟩ :=
    .cons ⟨_, rfl, by decide, by decide, rfl⟩ rfl (.cons ⟨_, rfl, by decide⟩ rfl
      (.cons ⟨_, rfl, by decide, by decide, rfl⟩ rfl (.cons ⟨_, rfl, by decide⟩ rfl (.nil _))))
  have he : ∀ e ∈ [Event.writeSome 0 1 [0], .complete 0 0, .writeSome 0 1 [0], .complete 0 0], e.Succeeded := by
    simp [Event.Succeeded]
  exact ⟨reachable_partly_sent, hs, he, writes_flushed reachable_partly_sent hs he⟩

end PaxosCpp.TcpConnection
