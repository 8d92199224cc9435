import PaxosCpp.Client

/-! The life of one request in the retry layer. `phases c p` lists where the attempts of
promise `p` wait (in the queue, holding the guard, on a backoff timer) and whether it was
fulfilled; `Inv` says each promise `send` made has exactly one phase, consistent with the
request `send` pushed and the outcomes its attempts got, and that a promise not made yet has
none. -/
namespace PaxosCpp.Client

@[simp] def Obs.request : Obs → Request
  | .push q => q
  | .release q => q
  | .respond q _ _ => q
  | .fulfil q _ => q
  | .wait q => q

inductive Phase
  | queued (q : Request)
  | dispatched (q : Request)
  | backoff (q : Request)
  | fulfilled (outcome : Outcome)
  deriving DecidableEq, Repr

@[simp] def Obs.ending : Obs → Option Phase
  | .fulfil _ outcome => some (.fulfilled outcome)
  | _ => none

@[simp] def Obs.outcome : Obs → Option (Option Nat × Bytes)
  | .respond _ error response => some (error, response)
  | _ => none

@[simp] def Obs.released : Obs → Option Request
  | .release q => some q
  | _ => none

@[simp] def Obs.fulfilment : Obs → Option Outcome
  | .fulfil _ outcome => some outcome
  | _ => none

/-- The observation is of an attempt of promise `p`. -/
@[simp] def Obs.about (p : Nat) (o : Obs) : Bool := o.request.promise = p

/-- What happened to promise `p`, in order. -/
def history (c : State) (p : Nat) : List Obs := c.trace.filter (Obs.about p)

def phases (c : State) (p : Nat) : List Phase :=
  (c.requestQueue.filter (·.promise = p)).map .queued ++
    (c.guard.toList.filter (·.promise = p)).map .dispatched ++
    (c.timers.filter (·.promise = p)).map .backoff ++
    (history c p).filterMap Obs.ending

/-- The outcomes `step1` gave the attempts of promise `p`, in order. -/
def outcomes (c : State) (p : Nat) : List (Option Nat × Bytes) := (history c p).filterMap Obs.outcome

/-- The attempts of promise `p` the queue released. -/
def attempts (c : State) (p : Nat) : List Request := (history c p).filterMap Obs.released

def fulfilments (c : State) (p : Nat) : List Outcome := (history c p).filterMap Obs.fulfilment

/-- Every attempt so far failed. -/
def AllFailed (os : List (Option Nat × Bytes)) : Prop := ∀ o ∈ os, o.1.isSome

/-- A phase of the request `sent`, after its attempts got `os` and `n` were released. -/
def Phase.Consistent (sent : Request) (os : List (Option Nat × Bytes)) (n : Nat) : Phase → Prop
  | .queued q => q.byteArray = sent.byteArray ∧ os.length + q.retries.toNat = sent.retries.toNat ∧
      AllFailed os ∧ n = os.length
  | .dispatched q => q.byteArray = sent.byteArray ∧
      os.length + q.retries.toNat = sent.retries.toNat ∧ AllFailed os ∧ n = os.length + 1
  | .backoff q => q.byteArray = sent.byteArray ∧
      os.length + q.retries.toNat = sent.retries.toNat + 1 ∧ 0 < q.retries.toNat ∧ AllFailed os ∧
      n = os.length
  | .fulfilled (.value v) => (∃ errs, os = errs ++ [(none, v)] ∧ AllFailed errs) ∧
      os.length ≤ sent.retries.toNat + 1 ∧ n = os.length
  | .fulfilled .requestError => os.length = sent.retries.toNat + 1 ∧ AllFailed os ∧ n = os.length

/-- Promise `p` was made by `send` pushing `sent`, and now has the one phase `ph`. -/
structure Tracked (c : State) (p : Nat) (sent : Request) (ph : Phase) : Prop where
  promise : sent.promise = p
  origin : (history c p).head? = some (.push sent)
  carries : ∀ o ∈ history c p, o.request.byteArray = sent.byteArray
  single : phases c p = [ph]
  consistent : ph.Consistent sent (outcomes c p) (attempts c p).length

structure Inv (c : State) : Prop where
  made : ∀ p < c.promises, ∃ sent ph, Tracked c p sent ph
  unmade : ∀ p, c.promises ≤ p → history c p = [] ∧ phases c p = []

@[simp] theorem history_mk (requestQueue : List Request) (guard : Option Request)
    (timers : List Request) (promises : Nat) (trace : List Obs) (p : Nat) :
    history ⟨requestQueue, guard, timers, promises, trace⟩ p = trace.filter (Obs.about p) :=
  rfl

@[simp] theorem filter_trace (c : State) (p : Nat) :
    c.trace.filter (Obs.about p) = history c p := rfl

theorem inv_create : Inv create :=
  ⟨fun p hp => absurd hp (Nat.not_lt_zero p), fun p _ => by simp [history, phases, create]⟩

theorem eq_singleton_of_mem {ph' : Phase} {l : List Phase} (hl : l.length = 1) (h : ph' ∈ l) :
    l = [ph'] := by
  obtain ⟨a, rfl⟩ := List.length_eq_one.mp hl
  simp_all

theorem toNat_pos {r : UInt16} : 0 < r ↔ 0 < r.toNat := by rw [UInt16.lt_def]; rfl

theorem toNat_pred {r : UInt16} (h : 0 < r.toNat) : (r - 1).toNat = r.toNat - 1 :=
  UInt16.toNat_sub_of_le _ _ (by rw [UInt16.le_def]; exact h)

theorem Tracked.congr {c c' : State} {p : Nat} {sent : Request} {ph : Phase}
    (h : Tracked c p sent ph) (hh : history c' p = history c p) (hp : phases c' p = phases c p) :
    Tracked c' p sent ph := by
  have ho : outcomes c' p = outcomes c p := by simp only [outcomes, hh]
  have ha : attempts c' p = attempts c p := by simp only [attempts, hh]
  exact ⟨h.promise, hh ▸ h.origin, hh ▸ h.carries, hp ▸ h.single, ho ▸ ha ▸ h.consistent⟩

/-- A step that adds `new` to the history of `p` and moves it to phase `ph'`. -/
theorem Tracked.extend {c c' : State} {p : Nat} {sent : Request} {ph ph' : Phase}
    (h : Tracked c p sent ph) (new : List Obs) (hh : history c' p = history c p ++ new)
    (hnew : ∀ o ∈ new, o.request.byteArray = sent.byteArray) (hp : phases c' p = [ph'])
    (hc : ph'.Consistent sent (outcomes c p ++ new.filterMap Obs.outcome)
      (attempts c p ++ new.filterMap Obs.released).length) : Tracked c' p sent ph' := by
  refine ⟨h.promise, ?_, ?_, hp, ?_⟩
  · rw [hh, List.head?_append, h.origin]; rfl
  · intro o ho
    rw [hh, List.mem_append] at ho
    exact ho.elim (h.carries o) (hnew o)
  · simpa only [outcomes, attempts, hh, List.filterMap_append] using hc

theorem inv_send {c : State} (hi : Inv c) (byteArray : Bytes) (retries : UInt16) :
    Inv (send byteArray retries c) := by
  have hh (p : Nat) : history (send byteArray retries c) p =
      history c p ++ [Obs.push ⟨byteArray, c.promises, retries⟩].filter (Obs.about p) := by
    simp only [history, send_trace, List.filter_append]
  constructor
  · intro p hp
    rw [send_promises] at hp
    by_cases hpc : p = c.promises
    · subst hpc
      obtain ⟨hh0, hph⟩ := hi.unmade _ le_rfl
      simp only [phases, List.append_eq_nil, List.map_eq_nil_iff] at hph
      refine ⟨⟨byteArray, c.promises, retries⟩, .queued ⟨byteArray, c.promises, retries⟩, rfl,
        ?_, ?_, ?_, ?_⟩ <;> simp [Phase.Consistent, outcomes, attempts, phases, hh, hh0, hph, AllFailed]
    · obtain ⟨sent, ph, ht⟩ := hi.made p (by omega)
      exact ⟨sent, ph, ht.congr (by simp [hh, Ne.symm hpc]) (by simp [phases, hh, Ne.symm hpc])⟩
  · intro p hp
    rw [send_promises] at hp
    obtain ⟨hh0, hph⟩ := hi.unmade p (by omega)
    have hpc : c.promises ≠ p := by omega
    simp only [phases, List.append_eq_nil, List.map_eq_nil_iff] at hph
    refine ⟨by simp [hh, hh0, hpc], ?_⟩
    simp [phases, hh, hh0, hph, hpc]

/-- A step that moves the one live attempt of `q.promise` from phase `old` to `ph'` (so the
promise keeps its number of phases, `ph'` among them), adding `new` to its history and leaving
every other promise alone, keeps `Inv`. -/
theorem Inv.move {c c' : State} (hi : Inv c) (q : Request) (old ph' : Phase) (new : List Obs)
    (hold : old ∈ phases c q.promise) (hprom : c'.promises = c.promises)
    (hframe : ∀ p, p ≠ q.promise → history c' p = history c p ∧ phases c' p = phases c p)
    (hh : history c' q.promise = history c q.promise ++ new)
    (hnew : ∀ o ∈ new, o.request.byteArray = q.byteArray)
    (hlen : (phases c' q.promise).length = (phases c q.promise).length)
    (hmem : ph' ∈ phases c' q.promise)
    (hc : ∀ sent os n, old.Consistent sent os n → q.byteArray = sent.byteArray ∧
      ph'.Consistent sent (os ++ new.filterMap Obs.outcome) (n + (new.filterMap Obs.released).length)) :
    Inv c' := by
  have hlt : q.promise < c.promises :=
    Nat.lt_of_not_le fun hge => by simp [(hi.unmade _ hge).2] at hold
  constructor
  · intro p hp
    rw [hprom] at hp
    by_cases hpq : p = q.promise
    · subst hpq
      obtain ⟨sent, ph, ht⟩ := hi.made _ hp
      obtain rfl : old = ph := by simpa [ht.single] using hold
      obtain ⟨hb, hc'⟩ := hc sent _ _ ht.consistent
      have hph : phases c' q.promise = [ph'] := eq_singleton_of_mem (by rw [hlen, ht.single]; rfl) hmem
      refine ⟨sent, ph', ht.extend new hh (fun o ho => (hnew o ho).trans hb) hph ?_⟩
      simpa using hc'
    · obtain ⟨sent, ph, ht⟩ := hi.made p hp
      exact ⟨sent, ph, ht.congr (hframe p hpq).1 (hframe p hpq).2⟩
  · intro p hp
    rw [hprom] at hp
    have hpq : p ≠ q.promise := by omega
    rw [(hframe p hpq).1, (hframe p hpq).2]
    exact hi.unmade p hp

@[simp] theorem allFailed_append_singleton {os : List (Option Nat × Bytes)} {error : Option Nat}
    {response : Bytes} : AllFailed (os ++ [(error, response)]) ↔ AllFailed os ∧ error.isSome := by
  simp [AllFailed, or_imp, forall_and]

theorem inv_release {c c' : State} (hi : Inv c) (h : release c = some c') : Inv c' := by
  obtain ⟨q, rest, hg, hq, rfl⟩ := release_eq_some h
  refine hi.move q (.queued q) (.dispatched q) [.release q] (by simp [phases, hq]) rfl
    (fun p hp => by simp [phases, hq, hg, Ne.symm hp]) (by simp) (by simp)
    (by simp [phases, hq, hg]; omega) (by simp [phases]) ?_
  rintro sent os n ⟨hb, hr, hf, rfl⟩
  exact ⟨hb, by simp [Phase.Consistent, hb, hr, hf]⟩

theorem inv_respond {c c' : State} {error : Option Nat} {response : Bytes} (hi : Inv c)
    (h : respond error response c = some c') : Inv c' := by
  obtain ⟨q, hg, rfl⟩ := respond_eq_some h
  have hold : Phase.dispatched q ∈ phases c q.promise := by simp [phases, hg]
  by_cases harm : error.isSome ∧ 0 < q.retries
  · rw [onResponse_armed _ _ _ _ harm]
    refine hi.move q (.dispatched q) (.backoff q) [.respond q error response] hold rfl
      (fun p hp => by simp [phases, hg, Ne.symm hp]) (by simp) (by simp)
      (by simp [phases, hg]; omega) (by simp [phases]) ?_
    · rintro sent os n ⟨hb, hr, hf, rfl⟩
      simp only [Phase.Consistent, List.filterMap_cons, Obs.outcome, Obs.released,
        List.filterMap_nil, allFailed_append_singleton, List.length_append, List.length_singleton]
      exact ⟨hb, hb, by omega, toNat_pos.mp harm.2, ⟨hf, harm.1⟩, by simp⟩
  · rw [onResponse_fulfils _ _ _ _ harm]
    set o : Outcome := if error.isSome then .requestError else .value response with ho
    refine hi.move q (.dispatched q) (.fulfilled o) [.respond q error response, .fulfil q o] hold rfl
      (fun p hp => by simp [phases, hg, Ne.symm hp, fulfil]) (by simp [fulfil]) (by simp)
      (by simp [phases, hg, fulfil]; omega) (by simp [phases, fulfil]) ?_
    · rintro sent os n ⟨hb, hr, hf, rfl⟩
      refine ⟨hb, ?_⟩
      simp only [List.filterMap_cons, Obs.outcome, Obs.released, List.filterMap_nil, List.length_append,
        List.length_singleton]
      cases error with
      | none => exact ⟨⟨os, rfl, hf⟩, by simp; omega, by simp⟩
      | some e =>
        have hr0 : ¬ 0 < q.retries.toNat := fun hp => harm ⟨rfl, toNat_pos.mpr hp⟩
        exact ⟨by simp; omega, by simpa using hf, by simp⟩

theorem inv_wait {c c' : State} {i : Nat} (hi : Inv c) (h : wait i c = some c') : Inv c' := by
  obtain ⟨q, before, after, ht, rfl⟩ := wait_eq_some h
  refine hi.move q (.backoff q) (.queued ⟨q.byteArray, q.promise, q.retries - 1⟩)
    [.wait q, .push ⟨q.byteArray, q.promise, q.retries - 1⟩] (by simp [phases, ht]) rfl
    (fun p hp => by simp [phases, ht, Ne.symm hp, push]) (by simp [push]) (by simp)
    (by simp [phases, ht, push]; omega) (by simp [phases, push]) ?_
  rintro sent os n ⟨hb, hr, hpos, hf, rfl⟩
  refine ⟨hb, hb, ?_, by simpa using hf, by simp⟩
  simp only [List.filterMap_cons, Obs.outcome, List.filterMap_nil, List.append_nil, toNat_pred hpos]
  omega

theorem inv_step {c c' : State} {e : Event} (hi : Inv c) (h : step c e = some c') : Inv c' := by
  cases e with
  | send byteArray retries => cases h; exact inv_send hi byteArray retries
  | release => exact inv_release hi h
  | respond error response => exact inv_respond hi h
  | wait i => exact inv_wait hi h

theorem reachable_inv {c : State} (h : Reachable c) : Inv c := by
  induction h with
  | create => exact inv_create
  | step _ hs ih => exact inv_step ih hs

/-- Each promise `send` made is in exactly one place at any time: waiting in the queue,
holding the guard, waiting on a backoff timer, or fulfilled. A promise not made yet is nowhere. -/
theorem promise_in_one_phase {c : State} (hc : Reachable c) (p : Nat) :
    (p < c.promises → ∃ ph, phases c p = [ph]) ∧ (c.promises ≤ p → phases c p = []) := by
  have hi := reachable_inv hc
  refine ⟨fun hp => ?_, fun hp => (hi.unmade p hp).2⟩
  obtain ⟨_, ph, ht⟩ := hi.made p hp
  exact ⟨ph, ht.single⟩

theorem promise_in_one_phase_retried :
    Reachable retried ∧ ((0 < retried.promises → ∃ ph, phases retried 0 = [ph]) ∧
      (retried.promises ≤ 0 → phases retried 0 = [])) :=
  ⟨reachable_retried, promise_in_one_phase reachable_retried 0⟩

end PaxosCpp.Client
