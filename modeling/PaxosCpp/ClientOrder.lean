import PaxosCpp.ClientLifecycle

/-! The order in which the client dispatches requests. `request_queue_` releases the requests
`do_request` pushed, first in first out and one at a time; each promise is fulfilled in the
callback of a released attempt, in callback order; and before any attempt of a request stands
one of every request sent before it. A retry is pushed again at the back of the queue when its
backoff timer expires, so a request sent later can overtake it. -/
namespace PaxosCpp.Client

def Obs.pushed : Obs → Option Request
  | .push q => some q
  | _ => none

def Obs.answered : Obs → Option Request
  | .respond q _ _ => some q
  | _ => none

def Obs.fulfilled : Obs → Option Request
  | .fulfil q _ => some q
  | _ => none

/-- The requests that the observations picked by `f` name, in trace order. -/
def requests (f : Obs → Option Request) (c : State) : List Request := c.trace.filterMap f

@[simp] theorem requests_mk (f : Obs → Option Request) (requestQueue : List Request)
    (guard : Option Request) (timers : List Request) (promises : Nat) (trace : List Obs) :
    requests f ⟨requestQueue, guard, timers, promises, trace⟩ = trace.filterMap f := rfl

@[simp] theorem filterMap_trace (f : Obs → Option Request) (c : State) :
    c.trace.filterMap f = requests f c := rfl

/-- Before each request of `l` stands a request of every promise made before its own. -/
def InSendOrder (l : List Request) : Prop :=
  ∀ k (hk : k < l.length), ∀ p < l[k].promise, ∃ q ∈ l.take k, q.promise = p

theorem InSendOrder.append_singleton {l : List Request} {x : Request} (h : InSendOrder l)
    (hx : ∀ p < x.promise, ∃ q ∈ l, q.promise = p) : InSendOrder (l ++ [x]) := by
  intro k hk p hp
  rw [List.length_append, List.length_singleton] at hk
  rcases Nat.lt_succ_iff_lt_or_eq.mp hk with hk | rfl
  · rw [List.getElem_append_left hk] at hp
    rw [List.take_append_of_le_length hk.le]
    exact h k hk p hp
  · simp only [List.getElem_concat_length] at hp
    simpa using hx p hp

theorem InSendOrder.of_append {l₁ l₂ : List Request} (h : InSendOrder (l₁ ++ l₂)) :
    InSendOrder l₁ := by
  intro k hk p hp
  have hk' : k < (l₁ ++ l₂).length := by rw [List.length_append]; omega
  have := h k hk' p (by rwa [List.getElem_append_left hk])
  rwa [List.take_append_of_le_length hk.le] at this

theorem InSendOrder.mem {l : List Request} {q : Request} (h : InSendOrder l) (hq : q ∈ l) :
    ∀ p < q.promise, ∃ r ∈ l, r.promise = p := by
  obtain ⟨k, hk, rfl⟩ := List.getElem_of_mem hq
  intro p hp
  obtain ⟨r, hr, hrp⟩ := h k hk p hp
  exact ⟨r, List.mem_of_mem_take hr, hrp⟩

/-- The queue holds what was pushed and not yet released; the released attempts not answered
yet are at most the one holding the guard; fulfilments follow the callbacks; pushes come in
send order; every promise made was pushed; every backoff timer is for a pushed request. -/
structure Order (c : State) : Prop where
  fifo : requests Obs.released c ++ c.requestQueue = requests Obs.pushed c
  oneAtATime : requests Obs.answered c ++ c.guard.toList = requests Obs.released c
  inTurn : List.Sublist (requests Obs.fulfilled c) (requests Obs.answered c)
  sendOrder : InSendOrder (requests Obs.pushed c)
  made : ∀ p < c.promises, ∃ q ∈ requests Obs.pushed c, q.promise = p
  armed : ∀ q ∈ c.timers, q ∈ requests Obs.pushed c

theorem order_create : Order create :=
  ⟨rfl, rfl, .slnil, fun _ hk => absurd hk (Nat.not_lt_zero _), fun _ hp => absurd hp (Nat.not_lt_zero _),
    fun _ hq => absurd hq (List.not_mem_nil _)⟩

/-- A push of `x` at the back of the queue, once every promise below `x`'s was pushed. -/
theorem order_push {c : State} (ho : Order c) (x : Request)
    (hx : ∀ p < x.promise, ∃ q ∈ requests Obs.pushed c, q.promise = p) : Order (push x c) := by
  have hp : requests Obs.pushed (push x c) = requests Obs.pushed c ++ [x] := by
    simp [push, Obs.pushed]
  have hgrow : ∀ q ∈ requests Obs.pushed c, q ∈ requests Obs.pushed (push x c) := fun q hq => by
    simp [hp, hq]
  refine ⟨?_, ?_, ?_, hp ▸ ho.sendOrder.append_singleton hx, fun p hp' => ?_, fun q hq => hgrow q (ho.armed q hq)⟩
  · simp [push, Obs.released, Obs.pushed, ← ho.fifo]
  · simpa [push, Obs.answered, Obs.released] using ho.oneAtATime
  · simpa [push, Obs.fulfilled, Obs.answered] using ho.inTurn
  · obtain ⟨q, hq, rfl⟩ := ho.made p hp'
    exact ⟨q, hgrow q hq, rfl⟩

theorem order_send {c : State} (ho : Order c) (byteArray : Bytes) (retries : UInt16) :
    Order (send byteArray retries c) := by
  have h := order_push ho ⟨byteArray, c.promises, retries⟩ ho.made
  refine ⟨h.fifo, h.oneAtATime, h.inTurn, h.sendOrder, fun p hp => ?_, h.armed⟩
  rcases Nat.lt_succ_iff_lt_or_eq.mp hp with hp | rfl
  · exact h.made p hp
  · exact ⟨⟨byteArray, c.promises, retries⟩, by simp [send, doRequest, push, Obs.pushed], rfl⟩

theorem order_release {c c' : State} (ho : Order c) (h : release c = some c') : Order c' := by
  obtain ⟨q, rest, hg, hq, rfl⟩ := release_eq_some h
  refine ⟨?_, ?_, by simpa [Obs.fulfilled, Obs.answered] using ho.inTurn,
    by simpa [Obs.pushed] using ho.sendOrder, by simpa [Obs.pushed] using ho.made,
    by simpa [Obs.pushed] using ho.armed⟩
  · simp [Obs.released, Obs.pushed, ← ho.fifo, hq]
  · simpa [Obs.answered, Obs.released, hg] using ho.oneAtATime

theorem order_respond {c c' : State} {error : Option Nat} {response : Bytes} (ho : Order c)
    (h : respond error response c = some c') : Order c' := by
  obtain ⟨q, hg, rfl⟩ := respond_eq_some h
  have hq : q ∈ requests Obs.pushed c := by
    rw [← ho.fifo, ← ho.oneAtATime, hg]
    simp
  have hans : requests Obs.answered c ++ [q] = requests Obs.released c := by
    simpa [hg] using ho.oneAtATime
  by_cases harm : error.isSome ∧ 0 < q.retries
  · rw [onResponse_armed _ _ _ _ harm]
    refine ⟨by simpa [Obs.released, Obs.pushed] using ho.fifo, by simpa [Obs.answered, Obs.released] using hans,
      by simpa [Obs.fulfilled, Obs.answered] using ho.inTurn.trans (List.sublist_append_left _ [q]),
      by simpa [Obs.pushed] using ho.sendOrder, by simpa [Obs.pushed] using ho.made, ?_⟩
    simpa [Obs.pushed, or_imp, forall_and, hq] using ho.armed
  · rw [onResponse_fulfils _ _ _ _ harm]
    refine ⟨by simpa [fulfil, Obs.released, Obs.pushed] using ho.fifo,
      by simpa [fulfil, Obs.answered, Obs.released] using hans,
      by simpa [fulfil, Obs.fulfilled, Obs.answered] using ho.inTurn.append (List.Sublist.refl [q]),
      by simpa [fulfil, Obs.pushed] using ho.sendOrder, by simpa [fulfil, Obs.pushed] using ho.made,
      by simpa [fulfil, Obs.pushed] using ho.armed⟩

theorem order_wait {c c' : State} {i : Nat} (ho : Order c) (h : wait i c = some c') : Order c' := by
  obtain ⟨q, before, after, ht, rfl⟩ := wait_eq_some h
  have hq : q ∈ requests Obs.pushed c := ho.armed q (by simp [ht])
  have h₁ : Order { c with timers := before ++ after, trace := c.trace ++ [.wait q] } :=
    ⟨by simpa [Obs.released, Obs.pushed] using ho.fifo, by simpa [Obs.answered, Obs.released] using ho.oneAtATime,
      by simpa [Obs.fulfilled, Obs.answered] using ho.inTurn, by simpa [Obs.pushed] using ho.sendOrder,
      by simpa [Obs.pushed] using ho.made,
      fun r hr => by
        simpa [Obs.pushed] using ho.armed r (ht ▸ ((List.sublist_cons_self q after).append_left before).subset hr)⟩
  exact order_push h₁ _ fun p hp => by simpa [Obs.pushed] using ho.sendOrder.mem hq p hp

theorem order_step {c c' : State} {e : Event} (ho : Order c) (h : step c e = some c') : Order c' := by
  cases e with
  | send byteArray retries => cases h; exact order_send ho byteArray retries
  | release => exact order_release ho h
  | respond error response => exact order_respond ho h
  | wait i => exact order_wait ho h

theorem reachable_order {c : State} (h : Reachable c) : Order c := by
  induction h with
  | create => exact order_create
  | step _ hs ih => exact order_step ih hs

/-- `request_queue_` releases what `do_request` pushed in order, one at a time; promises are
fulfilled in callback order; and each attempt of a request is released after an attempt of each
request sent before it. -/
theorem requests_dispatched_in_order {c : State} (hc : Reachable c) :
    requests Obs.released c ++ c.requestQueue = requests Obs.pushed c ∧
      requests Obs.answered c ++ c.guard.toList = requests Obs.released c ∧
      List.Sublist (requests Obs.fulfilled c) (requests Obs.answered c) ∧
      InSendOrder (requests Obs.released c) := by
  have ho := reachable_order hc
  have hsend : InSendOrder (requests Obs.released c ++ c.requestQueue) := ho.fifo ▸ ho.sendOrder
  exact ⟨ho.fifo, ho.oneAtATime, ho.inTurn, hsend.of_append⟩

theorem requests_dispatched_in_order_retried :
    Reachable retried ∧
      (requests Obs.released retried ++ retried.requestQueue = requests Obs.pushed retried ∧
        requests Obs.answered retried ++ retried.guard.toList = requests Obs.released retried ∧
        List.Sublist (requests Obs.fulfilled retried) (requests Obs.answered retried) ∧
        InSendOrder (requests Obs.released retried)) :=
  ⟨reachable_retried, requests_dispatched_in_order reachable_retried⟩

/-- Promise 0 is sent with one retry, then promise 1 with none. The first attempt of 0 fails;
1 is released and succeeds; the retry of 0, pushed behind it when the backoff timer expires, is
released after it, and 1 is fulfilled before 0. -/
theorem retry_released_after_later_request :
    ∃ c, Reachable c ∧ (requests Obs.pushed c).map (·.promise) = [0, 1, 0] ∧
      (requests Obs.released c).map (·.promise) = [0, 1, 0] ∧
      (requests Obs.fulfilled c).map (·.promise) = [1, 0] := by
  obtain ⟨c, hc, hp⟩ := reach_of_run
    [.send [1] 1, .send [2] 0, .release, .respond (some 3) [], .release, .respond none [9], .wait 0,
      .release, .respond none [8]]
    (fun c => decide ((requests Obs.pushed c).map (·.promise) = [0, 1, 0] ∧
      (requests Obs.released c).map (·.promise) = [0, 1, 0] ∧
      (requests Obs.fulfilled c).map (·.promise) = [1, 0])) (by decide)
  exact ⟨c, hc, of_decide_eq_true hp⟩

end PaxosCpp.Client
