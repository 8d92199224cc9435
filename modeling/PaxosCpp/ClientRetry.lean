import PaxosCpp.ClientLifecycle

/-! What the retry layer promises one request, read off `Inv`: at most `retries + 1` attempts,
all with the request's workload; the promise fulfilled at most once, with the response of
the first attempt that succeeded or with `request_error` after `retries + 1` failures; no
wrap-around of `retries - 1`. Every run without new requests is finite, and a client that can
take no step has nothing pending, so then every request has been fulfilled exactly once. A
promise whose retry waits on a backoff timer stays unfulfilled until the timer's handler runs,
which it never does once the io_service stops. -/
namespace PaxosCpp.Client

@[simp] def Phase.result : Phase → Option Outcome
  | .fulfilled outcome => some outcome
  | _ => none

theorem fulfilments_eq (c : State) (p : Nat) : fulfilments c p = (phases c p).filterMap Phase.result := by
  have hend : ∀ o : Obs, (o.ending).bind Phase.result = o.fulfilment := by
    intro o; cases o <;> rfl
  have hnone (f : Request → Phase) (hf : ∀ q, (f q).result = none) (l : List Request) :
      l.filterMap (Phase.result ∘ f) = [] :=
    List.filterMap_eq_nil_iff.mpr fun q _ => hf q
  simp only [fulfilments, phases, List.filterMap_append, List.filterMap_map, List.filterMap_filterMap, hend,
    hnone .queued fun _ => rfl, hnone .dispatched fun _ => rfl, hnone .backoff fun _ => rfl, List.nil_append]

/-- With nothing pending, only how a request ended is left. -/
theorem phases_of_quiescent {c : State} (h : Quiescent c) (p : Nat) :
    phases c p = (history c p).filterMap Obs.ending := by
  obtain ⟨hq, hg, ht⟩ := h
  simp [phases, hq, hg, ht]

theorem Tracked.fulfilments_eq_result {c : State} {p : Nat} {sent : Request} {ph : Phase}
    (h : Tracked c p sent ph) : fulfilments c p = ph.result.toList := by
  rw [fulfilments_eq, h.single]
  cases ph <;> rfl

/-- Promise `p`'s one phase, for a promise `send` made. -/
theorem phase_of_made {c : State} (hc : Reachable c) {p : Nat} (hp : p < c.promises) :
    ∃ sent ph, Tracked c p sent ph := (reachable_inv hc).made p hp

/-- The phase of a promise whose attempt waits on a backoff timer. -/
theorem tracked_of_timer {c : State} (hc : Reachable c) {q : Request} (hq : q ∈ c.timers) :
    ∃ sent, Tracked c q.promise sent (.backoff q) := by
  have hmem : Phase.backoff q ∈ phases c q.promise := by simp [phases, hq]
  by_cases hp : q.promise < c.promises
  · obtain ⟨sent, ph, ht⟩ := phase_of_made hc hp
    rw [ht.single, List.mem_singleton] at hmem
    exact ⟨sent, hmem ▸ ht⟩
  · rw [((reachable_inv hc).unmade _ (Nat.le_of_not_lt hp)).2] at hmem
    simp at hmem

theorem Tracked.fulfilments_le_one {c : State} {p : Nat} {sent : Request} {ph : Phase}
    (ht : Tracked c p sent ph) : (fulfilments c p).length ≤ 1 := by
  rw [ht.fulfilments_eq_result]; cases ph.result <;> simp

/-- With nothing pending, a request was fulfilled. -/
theorem Tracked.fulfilled_of_quiescent {c : State} {p : Nat} {sent : Request} {ph : Phase}
    (ht : Tracked c p sent ph) (hq : Quiescent c) : (fulfilments c p).length = 1 := by
  have hmem : ph ∈ (history c p).filterMap Obs.ending := by
    rw [← phases_of_quiescent hq, ht.single]; exact List.mem_singleton_self ph
  obtain ⟨o, -, ho⟩ := List.mem_filterMap.mp hmem
  cases o <;> simp at ho
  simp [ht.fulfilments_eq_result, ← ho]

theorem Tracked.value_outcomes {c : State} {p : Nat} {sent : Request} {ph : Phase}
    (h : Tracked c p sent ph) {v : Bytes} (hv : Outcome.value v ∈ fulfilments c p) :
    ∃ errs, outcomes c p = errs ++ [(none, v)] ∧ AllFailed errs ∧
      (attempts c p).length = (outcomes c p).length := by
  rw [h.fulfilments_eq_result] at hv
  cases ph with
  | fulfilled outcome =>
    obtain rfl : Outcome.value v = outcome := by simpa using hv
    obtain ⟨⟨errs, he, hf⟩, -, hn⟩ := h.consistent
    exact ⟨errs, he, hf, hn⟩
  | _ => simp at hv

theorem Tracked.error_outcomes {c : State} {p : Nat} {sent : Request} {ph : Phase}
    (h : Tracked c p sent ph) (he : Outcome.requestError ∈ fulfilments c p) :
    AllFailed (outcomes c p) ∧ (attempts c p).length = sent.retries.toNat + 1 ∧
      (outcomes c p).length = sent.retries.toNat + 1 := by
  rw [h.fulfilments_eq_result] at he
  cases ph with
  | fulfilled outcome =>
    obtain rfl : Outcome.requestError = outcome := by simpa using he
    obtain ⟨hl, hf, hn⟩ := h.consistent
    exact ⟨hf, hn.trans hl, hl⟩
  | _ => simp at he

/-- The retry layer fulfils the promise of the request `sent` at most once: with the reply of
the first attempt that succeeded, or with `request_error` after `retries + 1` failed attempts.
With nothing pending it has fulfilled it. -/
theorem promise_fulfilled_once {c : State} (hc : Reachable c) {p : Nat} (hp : p < c.promises) :
    ∃ sent : Request, sent.promise = p ∧ (history c p).head? = some (.push sent) ∧
      (fulfilments c p).length ≤ 1 ∧
      (∀ v, Outcome.value v ∈ fulfilments c p →
        ∃ errs, outcomes c p = errs ++ [(none, v)] ∧ AllFailed errs) ∧
      (Outcome.requestError ∈ fulfilments c p →
        AllFailed (outcomes c p) ∧ (outcomes c p).length = sent.retries.toNat + 1) ∧
      (Quiescent c → (fulfilments c p).length = 1) := by
  obtain ⟨sent, ph, ht⟩ := phase_of_made hc hp
  refine ⟨sent, ht.promise, ht.origin, ht.fulfilments_le_one, fun v hv => ?_, fun he => ?_,
    ht.fulfilled_of_quiescent⟩
  · obtain ⟨errs, ho, hf, -⟩ := ht.value_outcomes hv
    exact ⟨errs, ho, hf⟩
  · obtain ⟨hf, -, hl⟩ := ht.error_outcomes he
    exact ⟨hf, hl⟩

theorem promise_fulfilled_once_retried :
    Reachable retried ∧ 1 < retried.promises ∧
      ∃ sent : Request, sent.promise = 1 ∧ (history retried 1).head? = some (.push sent) ∧
        (fulfilments retried 1).length ≤ 1 ∧
        (∀ v, Outcome.value v ∈ fulfilments retried 1 →
          ∃ errs, outcomes retried 1 = errs ++ [(none, v)] ∧ AllFailed errs) ∧
        (Outcome.requestError ∈ fulfilments retried 1 →
          AllFailed (outcomes retried 1) ∧ (outcomes retried 1).length = sent.retries.toNat + 1) ∧
        (Quiescent retried → (fulfilments retried 1).length = 1) :=
  ⟨reachable_retried, by decide, promise_fulfilled_once reachable_retried (by decide)⟩

def Event.isWait : Event → Bool
  | .wait _ => true
  | _ => false

/-- A step that runs no timer's handler keeps every backoff timer waiting. -/
theorem timers_sublist_step {c c' : State} {e : Event} (he : e.isWait = false) (h : step c e = some c') :
    List.Sublist c.timers c'.timers := by
  cases e with
  | send => cases h; exact List.Sublist.refl _
  | release =>
    obtain ⟨q, rest, -, -, rfl⟩ := release_eq_some h
    exact List.Sublist.refl _
  | respond error response =>
    obtain ⟨q, -, rfl⟩ := respond_eq_some h
    by_cases harm : error.isSome ∧ 0 < q.retries
    · rw [onResponse_armed _ _ _ _ harm]; exact List.sublist_append_left _ _
    · rw [onResponse_fulfils _ _ _ _ harm]; exact List.Sublist.refl _
  | wait => cases he

/-- Until a timer's handler runs, the promise of an attempt waiting on a backoff timer stays
unfulfilled. -/
theorem unfulfilled_until_timer {c c' : State} {es : List Event} (hc : Reachable c)
    (h : run c es = some c') (hes : ∀ e ∈ es, e.isWait = false) {q : Request} (hq : q ∈ c.timers) :
    fulfilments c' q.promise = [] := by
  induction es generalizing c with
  | nil =>
    simp only [run, Option.some.injEq] at h
    obtain ⟨_, ht⟩ := tracked_of_timer hc hq
    simp [← h, ht.fulfilments_eq_result]
  | cons e es ih =>
    simp only [run, Option.bind_eq_some] at h
    obtain ⟨c₁, h₁, h₂⟩ := h
    exact ih (.step hc h₁) h₂ (fun e' he' => hes e' (List.mem_cons_of_mem e he'))
      ((timers_sublist_step (hes e (List.mem_cons_self e es)) h₁).subset hq)

/-- `client::~client` stops the io_service, and asio then destroys a waiting timer's handler
without running it. After a failed attempt with a retry left only that timer is pending, and
no run without a timer's handler fulfils the promise. -/
theorem stopped_backoff_leaves_promise :
    ∃ c, Reachable c ∧ 0 < c.promises ∧ c.requestQueue = [] ∧ c.guard = none ∧ c.timers ≠ [] ∧
      ∀ es c', run c es = some c' → (∀ e ∈ es, e.isWait = false) → fulfilments c' 0 = [] := by
  have hr : run create [.send [1] 1, .release, .respond (some 3) []] = some
      ⟨[], none, [⟨[1], 0, 1⟩], 1, [.push ⟨[1], 0, 1⟩, .release ⟨[1], 0, 1⟩, .respond ⟨[1], 0, 1⟩ (some 3) []]⟩ :=
    rfl
  have hc := reachable_run .create hr
  exact ⟨_, hc, by decide, rfl, rfl, by simp,
    fun es c' h hes => unfulfilled_until_timer hc h hes (List.mem_singleton_self _)⟩

/-- Steps left at most: `3 * retries + 2` for an attempt in the queue, `3 * retries + 1` for
the one holding the guard, `3 * retries` for a backoff timer. -/
def work (c : State) : Nat :=
  (c.requestQueue.map fun q => 3 * q.retries.toNat + 2).sum +
    (c.guard.toList.map fun q => 3 * q.retries.toNat + 1).sum +
    (c.timers.map fun q => 3 * q.retries.toNat).sum

end PaxosCpp.Client