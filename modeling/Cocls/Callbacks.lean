import Cocls.Future.Resolve

/-!
# Cocls.Callbacks

The adapters that run a callback when a future is resolved: `callback_await`,
`future_with_cb` (behind `make_promise`), `call_fn_future_awaiter` and
`discard`, whose callback releases the future it holds.

The adapter is awaiter 0 of the future; other awaiters may subscribe and any
number of calls of the promise race for it (`Future.Race`).  What differs is how
the adapter comes to be resumed: `future_with_cb` is in the collector from its
construction on, `callback_await` tests whether the future is ready and
subscribes then, the others subscribe and resume themselves when they are
refused.

Only the callback of `callback_await` may throw; the resume functions of the
others are `noexcept`.
-/

namespace Cocls

namespace Callbacks

open Future (Race)

inductive Adapter where
  | callbackAwait
  | futureWithCb
  | callFnFutureAwaiter
  | discard
deriving DecidableEq, Repr

/-- How far the adapter is. -/
inductive Place where
  /-- at `await_ready` -/
  | testing
  /-- in `subscribe_check_ready` -/
  | subscribing
  | waiting
  /-- resumed, or about to call `resume()` itself -/
  | due
  | done
deriving DecidableEq, Repr

/-- One execution of the callback. -/
structure Execution (T E : Type*) where
  ready : Bool
  /-- what the future held -/
  stored : Stored T E
  /-- what was in the `await_result` -/
  result : Option T

/-- An adapter and its future. -/
structure Registration (T E : Type*) where
  adapter : Adapter
  race : Race T E
  place : Place
  /-- history: the executions of the callback -/
  runs : List (Execution T E) := []

/-- The value of an outcome, where there is one. -/
def valueOf {T E : Type*} : Stored T E → Option T
  | .value v => some v
  | .notValue | .exception _ => none

namespace Registration

variable {T E : Type*}

/-- `this->_awaiter = this`. -/
def preset : Race T E :=
  { awaiter := some (.object 0), linked := [0]
    sub := Function.update (fun _ => .trying) 0 .subscribed }

/-- The adapter is made. -/
def start : Adapter → Registration T E
  | .callbackAwait => { adapter := .callbackAwait, race := {}, place := .testing }
  | .futureWithCb => { adapter := .futureWithCb, race := preset, place := .waiting }
  | .callFnFutureAwaiter => { adapter := .callFnFutureAwaiter, race := {}, place := .subscribing }
  | .discard => { adapter := .discard, race := {}, place := .subscribing }

inductive Action where
  /-- call `k` of the promise makes its next step -/
  | call (k : Nat)
  /-- another awaiter makes its next attempt to subscribe -/
  | subscribe (i : Nat) (spurious : Bool)
  /-- the adapter goes on; the callback may throw when it is given a value -/
  | go (spurious throws : Bool)
  /-- `operator<<` of a `future_with_cb` -/
  | capture
deriving DecidableEq, Repr

section Steps

variable (arg : Nat → PromiseArg T E) (s : Registration T E)

/-- The future made a step; the adapter may have been resumed by it. -/
def ofRace (r : Race T E) : Registration T E :=
  { s with race := r
           place := if s.place = .waiting ∧ 0 ∈ r.resumes.map Prod.fst then .due else s.place }

/-- `fn(await_result{&co_await awt})`, and `fn(await_result{})` in the `catch (...)` around it. -/
def callbackAwait (throws : Bool) : List (Execution T E) :=
  let x := { ready := s.race.ready, stored := s.race.stored, result := valueOf s.race.stored }
  if throws ∧ x.result.isSome then [x, { x with result := none }] else [x]

/-- The callback is executed. -/
def execute (throws : Bool) : Option (Registration T E) :=
  match s.adapter, throws with
  | .callbackAwait, throws =>
      some { s with place := .done, runs := s.runs ++ s.callbackAwait throws }
  | _, false =>
      some { s with place := .done
                    runs := s.runs ++ [{ ready := s.race.ready, stored := s.race.stored
                                         result := none }] }
  | _, true => none

/-- The adapter goes on. -/
def go (spurious throws : Bool) : Option (Registration T E) :=
  match s.place with
  | .testing => some { s with place := if s.race.ready then .due else .subscribing }
  | .subscribing =>
      (s.race.subscribeStep 0 spurious).map fun r =>
        { s with race := r
                 place := match r.sub 0 with
                   | .trying => .subscribing
                   | .subscribed => .waiting
                   | .refused => .due }
  | .due => s.execute throws
  | .waiting | .done => none

/-- One step.  `operator<<` destroys the base class and constructs it anew from the result of the
factory; an assertion that the future is not pending would stop it. -/
def step : Action → Option (Registration T E)
  | .call k => (s.race.callStep (arg k) k).map s.ofRace
  | .subscribe i spurious =>
      if i = 0 then none else (s.race.subscribeStep i spurious).map s.ofRace
  | .go spurious throws => s.go spurious throws
  | .capture =>
      if s.adapter = .futureWithCb ∧ s.place = .waiting ∧ s.race.owner = true then
        some { s with race := {} }
      else none

/-- The callback is executed exactly once. -/
structure ExecutedOnce : Prop where
  /-- not more than once -/
  once : s.runs.length ≤ 1
  /-- with the outcome there -/
  after : ∀ x ∈ s.runs, x.ready = true ∧ ∃ k, Race.Won (s.race.call k) ∧ x.stored = (arg k).stored
  /-- `callback_await` passes the value exactly when the await succeeded -/
  passes : s.adapter = .callbackAwait → ∀ x ∈ s.runs, x.result = valueOf x.stored
  /-- when the promise has been called, what is left to do is up to the adapter -/
  comes : ∀ k, s.race.call k = .done true → ∃ m,
    (Run.exec (step arg) s (List.replicate m (.go false false))).runs.length = 1
  /-- and it can still be called -/
  possible : ∃ k n m, (Run.exec (step arg) s
    (List.replicate n (.call k) ++ List.replicate m (.go false false))).runs.length = 1

/-- What the code relies on: the callback of `callback_await` does not throw when it is given a
value, and no `future_with_cb` is assigned with `operator<<`. -/
def Catches : Action → Prop
  | .go _ throws => s.adapter = .callbackAwait → s.place = .due →
      (valueOf s.race.stored).isSome → throws = false
  | .capture => False
  | .call _ | .subscribe _ _ => True

end Steps

end Registration

end Callbacks

end Cocls
