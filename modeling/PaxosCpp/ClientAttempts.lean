import PaxosCpp.ClientRetry

/-! The retry counter along the attempts of one request. `client::send (w, r)` pushes
`⟨w, r⟩`; each backoff timer's handler calls `do_request (promise, byte_array, retries - 1)`
with the `retries` its callback captured. So the `i`-th attempt the queue releases carries the
workload `w` and `retries = r - i`, and there are at most `r + 1` of them. -/
namespace PaxosCpp.Client

/-- The `i`-th attempt of the request `sent`. -/
def attempt (sent : Request) (i : Nat) : Request :=
  ⟨sent.byteArray, sent.promise, UInt16.ofNat (sent.retries.toNat - i)⟩

/-- The attempts released for every promise follow the request `send` pushed for it. -/
def Chained (c : State) : Prop :=
  ∀ p sent, (history c p).head? = some (.push sent) →
    attempts c p = (List.range (attempts c p).length).map (attempt sent)

/-- A step that appends `new` to the trace, releasing nothing for promise `p`, keeps the
attempts of `p`. -/
theorem Chained.extend {c c' : State} (h : Chained c) (new : List Obs) (ht : c'.trace = c.trace ++ new)
    {p : Nat} (hnew : ∀ o ∈ new, o.request.promise = p → o.released = none) (sent : Request)
    (hs : (history c' p).head? = some (.push sent)) :
    attempts c' p = (List.range (attempts c' p).length).map (attempt sent) := by
  have hh : history c' p = history c p ++ new.filter (Obs.about p) := by
    rw [history, ht, List.filter_append]; rfl
  have ha : attempts c' p = attempts c p := by
    have : (new.filter (Obs.about p)).filterMap Obs.released = [] :=
      List.filterMap_eq_nil_iff.mpr fun o ho =>
        hnew o (List.mem_of_mem_filter ho) (of_decide_eq_true (List.mem_filter.mp ho).2)
    rw [attempts, attempts, hh, List.filterMap_append, this, List.append_nil]
  rw [ha]
  by_cases h0 : history c p = []
  · simp [attempts, h0]
  · rw [hh, List.head?_append_of_ne_nil _ h0] at hs
    exact h p sent hs

end PaxosCpp.Client
