import PaxosCpp.TcpConnection

/-! The retry layer of `client` (`client.cpp`): `send`, `do_request`, the response callback
it gives each request, and the handler of the backoff timer. `request_queue_` and
`initiate_request::step1` are not among the sources: the queue is modelled from the spec,
and `step1` is the environment, which runs the released request's callback once with any
outcome. The trace records what happened, in order: pushes onto the queue, admissions,
responses, fulfilments of promises and timer handlers. Nothing in `client.cpp` cancels a
backoff timer, and when the io_service stops asio destroys the handlers still waiting without
running them: so a timer's handler runs only on expiry, and a stop is the end of the run. -/
namespace PaxosCpp.Client

/-- `detail::client::protocol::request` as `do_request` pushes it: the workload, and what its
callback captures: the promise, by its number among those `send` made, and `retries`. -/
structure Request where
  byteArray : Bytes
  promise : Nat
  retries : UInt16
  deriving DecidableEq, Repr

/-- `promise->set_value (response)`, or `promise->set_exception (request_error)`. -/
inductive Outcome
  | value (response : Bytes)
  | requestError
  deriving DecidableEq, Repr

inductive Obs
  | push (q : Request)
  | release (q : Request)
  | respond (q : Request) (error : Option Nat) (response : Bytes)
  | fulfil (q : Request) (outcome : Outcome)
  | wait (q : Request)
  deriving DecidableEq, Repr

structure State where
  requestQueue : List Request
  /-- the request the queue has released, whose guard is held -/
  guard : Option Request
  /-- the backoff timers waiting, with what their handlers capture -/
  timers : List Request
  /-- the number of promises `send` has made -/
  promises : Nat
  trace : List Obs
  deriving DecidableEq, Repr

def create : State := ⟨[], none, [], 0, []⟩

/-- Modelled from the spec: `request_queue_.push` appends. -/
def push (q : Request) (c : State) : State :=
  { c with requestQueue := c.requestQueue ++ [q], trace := c.trace ++ [.push q] }

def doRequest (promise : Nat) (byteArray : Bytes) (retries : UInt16) (c : State) : State :=
  push ⟨byteArray, promise, retries⟩ c

def send (byteArray : Bytes) (retries : UInt16) (c : State) : State :=
  doRequest c.promises byteArray retries { c with promises := c.promises + 1 }

section
variable (byteArray : Bytes) (retries : UInt16) (c : State)
@[simp] theorem send_requestQueue :
    (send byteArray retries c).requestQueue = c.requestQueue ++ [⟨byteArray, c.promises, retries⟩] := rfl
@[simp] theorem send_guard : (send byteArray retries c).guard = c.guard := rfl
@[simp] theorem send_timers : (send byteArray retries c).timers = c.timers := rfl
@[simp] theorem send_promises : (send byteArray retries c).promises = c.promises + 1 := rfl
@[simp] theorem send_trace :
    (send byteArray retries c).trace = c.trace ++ [.push ⟨byteArray, c.promises, retries⟩] := rfl
end

def fulfil (q : Request) (outcome : Outcome) (c : State) : State :=
  { c with trace := c.trace ++ [.fulfil q outcome] }

/-- The response callback of `do_request`, for request `q`. -/
def onResponse (q : Request) (error : Option Nat) (response : Bytes) (c : State) : State :=
  match error with
  | some _ => if q.retries > 0 then { c with timers := c.timers ++ [q] } else fulfil q .requestError c
  | none => fulfil q (.value response) c

section
variable (q : Request) (error : Option Nat) (response : Bytes) (c : State)
theorem onResponse_armed (h : error.isSome ∧ 0 < q.retries) :
    onResponse q error response c = { c with timers := c.timers ++ [q] } := by
  obtain ⟨e, rfl⟩ := Option.isSome_iff_exists.mp h.1
  simp [onResponse, h.2]
theorem onResponse_fulfils (h : ¬ (error.isSome ∧ 0 < q.retries)) :
    onResponse q error response c =
      fulfil q (if error.isSome then .requestError else .value response) c := by
  cases error <;> simp_all [onResponse]
end

/-- The handler of the backoff timer armed for request `q`. -/
def onTimer (q : Request) (error : Nat) (c : State) : State :=
  if error = 0 then doRequest q.promise q.byteArray (q.retries - 1) c else c

theorem onTimer_expired (q : Request) (c : State) :
    onTimer q 0 c = push ⟨q.byteArray, q.promise, q.retries - 1⟩ c := rfl

/-- Modelled from the spec: with no guard held, the queue releases its front request and hands
it, with a guard, to the dispatch lambda of `client::client`. -/
def release (c : State) : Option State :=
  match c.guard, c.requestQueue with
  | none, q :: rest => some { c with requestQueue := rest, guard := some q, trace := c.trace ++ [.release q] }
  | _, _ => none

/-- `initiate_request::step1` runs the callback of the released request, then drops its guard. -/
def respond (error : Option Nat) (response : Bytes) (c : State) : Option State :=
  c.guard.map fun q =>
    onResponse q error response { c with guard := none, trace := c.trace ++ [.respond q error response] }

/-- The `i`-th backoff timer expires, and its handler runs with no error. -/
def wait (i : Nat) (c : State) : Option State :=
  c.timers[i]?.map fun q =>
    onTimer q 0 { c with timers := c.timers.eraseIdx i, trace := c.trace ++ [.wait q] }

inductive Event
  | send (byteArray : Bytes) (retries : UInt16)
  | release
  | respond (error : Option Nat) (response : Bytes)
  | wait (i : Nat)
  deriving DecidableEq, Repr

def step (c : State) : Event → Option State
  | .send byteArray retries => some (send byteArray retries c)
  | .release => release c
  | .respond error response => respond error response c
  | .wait i => wait i c

inductive Reachable : State → Prop
  | create : Reachable create
  | step {c c' : State} {e : Event} : Reachable c → step c e = some c' → Reachable c'

/-- `client::send` is always enabled. -/
theorem reachable_send {c : State} (hc : Reachable c) (byteArray : Bytes) (retries : UInt16) :
    Reachable (send byteArray retries c) :=
  .step hc (show step c (.send byteArray retries) = _ from rfl)

def run (c : State) : List Event → Option State
  | [] => some c
  | e :: es => (step c e).bind (run · es)

theorem reachable_run {c c' : State} {es : List Event} (hc : Reachable c) (h : run c es = some c') :
    Reachable c' := by
  induction es generalizing c with
  | nil => simp only [run, Option.some.injEq] at h; exact h ▸ hc
  | cons e es ih =>
    simp only [run, Option.bind_eq_some] at h
    obtain ⟨c₁, h₁, h₂⟩ := h
    exact ih (.step hc h₁) h₂

/-- A run from `create` that ends in a state where `P` holds. -/
theorem reach_of_run (es : List Event) (P : State → Bool) (h : (run create es).map P = some true) :
    ∃ c, Reachable c ∧ P c = true := by
  cases hr : run create es with
  | none => simp [hr] at h
  | some c =>
    simp only [hr, Option.map_some', Option.some.injEq] at h
    exact ⟨c, reachable_run .create hr, h⟩

theorem release_eq_some {c c' : State} (h : release c = some c') :
    ∃ q rest, c.guard = none ∧ c.requestQueue = q :: rest ∧
      c' = { c with requestQueue := rest, guard := some q, trace := c.trace ++ [.release q] } := by
  unfold release at h
  split at h
  · next q rest hg hq => exact ⟨q, rest, hg, hq, (Option.some.inj h).symm⟩
  · cases h

theorem respond_eq_some {c c' : State} {error : Option Nat} {response : Bytes}
    (h : respond error response c = some c') :
    ∃ q, c.guard = some q ∧ c' = onResponse q error response
      { c with guard := none, trace := c.trace ++ [.respond q error response] } := by
  simp only [respond, Option.map_eq_some'] at h
  obtain ⟨q, hq, rfl⟩ := h
  exact ⟨q, hq, rfl⟩

/-- The timers other than the `i`-th stay, in order, and the retry goes to the back of the
queue. -/
theorem wait_eq_some {c c' : State} {i : Nat} (h : wait i c = some c') :
    ∃ q before after, c.timers = before ++ q :: after ∧ c' = push ⟨q.byteArray, q.promise, q.retries - 1⟩
      { c with timers := before ++ after, trace := c.trace ++ [.wait q] } := by
  simp only [wait, Option.map_eq_some', List.getElem?_eq_some_iff] at h
  obtain ⟨q, ⟨hi, rfl⟩, rfl⟩ := h
  refine ⟨_, c.timers.take i, c.timers.drop (i + 1), ?_, by rw [List.eraseIdx_eq_take_drop_succ]; rfl⟩
  simp [List.getElem_cons_drop]

/-- Nothing waits in the queue, holds the guard or waits on a timer. -/
def Quiescent (c : State) : Prop := c.requestQueue = [] ∧ c.guard = none ∧ c.timers = []

instance (c : State) : Decidable (Quiescent c) := inferInstanceAs (Decidable (_ ∧ _ ∧ _))

/-- Promise 0 is sent with one retry and promise 1 with none. Both first attempts fail; the
retry of 0 succeeds with `[7]`, and 1 gets `request_error`. -/
def retriedEvents : List Event :=
  [.send [1] 1, .send [2] 0, .release, .respond (some 3) [], .release, .respond (some 4) [], .wait 0,
    .release, .respond none [7]]

def retried : State := (run create retriedEvents).getD create

theorem reachable_retried : Reachable retried :=
  reachable_run .create (show run create retriedEvents = some retried from rfl)

end PaxosCpp.Client
