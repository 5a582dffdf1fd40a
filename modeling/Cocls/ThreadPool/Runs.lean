import Cocls.Future
import Cocls.ThreadPool.Stopped

/-!
# Cocls.ThreadPool.Runs

`pool.run(fn)`: functions that run in the pool, and their futures.

The closure that `run` enqueues holds the function and the promise of the future.
A worker that calls it calls the function, and then the promise with the value or
the exception.  A closure that is destroyed without having been called drops its
promise: it has a deleter, as the closure of `co_await pool` has, and goes the
same ways through the pool.

To store the value may throw, once the promise is claimed.  The exception is
caught, but the promise is empty by then: the future is orphaned.

Calls of `run` have numbers.  A function may take any steps while it runs, such as
to call `run` or `stop`; a worker goes on when its function has returned.
-/

namespace Cocls

namespace ThreadPool

/-- A pool in which functions run. -/
structure Runs (T E : Type*) where
  sys : Sys
  /-- the function that the worker is in -/
  inside : Nat → Option Nat := fun _ => none
  /-- history: the functions that were called -/
  called : List Nat := []
  /-- history: what functions came to -/
  ended : List (Nat × Except E T) := []
  /-- history: the futures that were resolved, with what -/
  resolved : List (Nat × PromiseArg T E) := []
  /-- history: the futures whose promise was claimed by a call that threw -/
  orphaned : List Nat := []

namespace Runs

variable {T E : Type*}

inductive Action (T E : Type*) where
  /-- a thread that is not one of the pool's calls `worker()` -/
  | enter (w : Nat)
  | worker (w : Nat)
  /-- the function that worker `w` is in returns or throws; `throws`: to store what it returned
  throws -/
  | ends (w : Nat) (r : Except E T) (throws : Bool)
  /-- call `i` of `run(fn)` -/
  | run (i : Nat)
  | goOn (i : Nat)
  | stop (k : Nat) (me : Option Nat)
  | goOnStop (k : Nat)

/-- `promise(fn())` or `promise(std::current_exception())`. -/
def promiseArg : Except E T → PromiseArg T E
  | .ok v => .value v
  | .error e => .exception e

section Ops

variable (s : Runs T E)

/-- The closures go through the pool. -/
def ofSys (a : ThreadPool.Action) : Option (Runs T E) :=
  (s.sys.step a).map fun sys => { s with sys := sys }

def resolve (i : Nat) (r : PromiseArg T E) : Runs T E :=
  { s with resolved := s.resolved ++ [(i, r)] }

/-- A closure is destroyed, and its promise with it. -/
def drop (q : Option QItem) : Runs T E :=
  match q with
  | none => s
  | some q => s.resolve q.handle .drop

/-- A worker calls the function of its closure. -/
def call (w : Nat) (q : QItem) : Runs T E :=
  { s with inside := Function.update s.inside w (some q.handle), called := s.called ++ [q.handle] }

/-- The promise is called with what the function came to. -/
def settle (i : Nat) : Except E T → Bool → Runs T E
  -- `promise(std::current_exception())` finds the promise claimed
  | .ok _, true => { s with orphaned := s.orphaned ++ [i] }
  | r, _ => s.resolve i (promiseArg r)

/-- The function that the worker is in is over. -/
def finish (w i : Nat) (r : Except E T) (throws : Bool) : Runs T E :=
  { s.settle i r throws with
    inside := Function.update s.inside w none
    ended := s.ended ++ [(i, r)] }

/-- The closure that call `k` of `stop()` destroys next. -/
def nextOfStop (k : Nat) : Option QItem :=
  (s.sys.stop k).bind fun st => if st.tmp = [] then st.q.head? else none

/-- The closure that was refused by `enqueue`. -/
def refused (i : Nat) : Option QItem := (s.sys.handOver i).bind HandOver.refused

/-- The closure that the worker took. -/
def took (w : Nat) : Option QItem :=
  (s.sys.worker w).bind fun wk =>
    match wk.stage with
    | .took q => some q
    | _ => none

def step : Action T E → Option (Runs T E)
  | .enter w => s.ofSys (.enter w false)
  | .worker w =>
      if s.inside w = none then
        match s.took w with
        | some q => (s.ofSys (.worker w)).map fun s => s.call w q
        | none => s.ofSys (.worker w)
      else none
  | .ends w r throws => (s.inside w).map fun i => s.finish w i r throws
  | .run i => s.ofSys (.handOver i (.coAwait i) false)
  | .goOn i => (s.ofSys (.goOn i)).map fun s' => s'.drop (s.refused i)
  | .stop k me => s.ofSys (.stop k me false)
  | .goOnStop k => (s.ofSys (.goOnStop k)).map fun s' => s'.drop (s.nextOfStop k)

end Ops

/-- A pool with `threads` threads. -/
def init (threads : Nat) : Runs T E := { sys := Sys.init threads }

/-- The function of call `i` was not called, and its closure is where it comes to be called or
destroyed. -/
def Waits (s : Runs T E) (i : Nat) : Prop :=
  ∃ p, p ≠ .resumed ∧ p ≠ .lost ∧ (∀ a, p ≠ .ready a) ∧ i ∈ s.sys.handlesAt p ∧
    ∀ q, i ∈ s.sys.handlesAt q → q = p

/-- Worker `v` took the closure of call `i`, or is in its function. -/
def HeldBy (s : Runs T E) (v i : Nat) : Prop :=
  (s.took v).map QItem.handle = some i ∨ s.inside v = some i

/-- The steps of worker `v`, whose functions come to `x`, and the hand-over of call `i`. -/
def Brings (v i : Nat) (x : Except E T) (a : Action T E) : Prop :=
  a = .worker v ∨ a = .ends v x false ∨ a = .goOn i

/-- Every future of `run` gets what its function comes to, or nothing. -/
structure ResolvedRight (s : Runs T E) : Prop where
  /-- no future is resolved twice -/
  once : (s.resolved.map Prod.fst).Nodup
  /-- no function is called twice -/
  called : s.called.Nodup
  /-- a future gets what its function came to; it gets nothing when the pool was stopped before
  the function was called -/
  outcome : ∀ i r, (i, r) ∈ s.resolved →
    (∃ x, r = promiseArg x ∧ (i, x) ∈ s.ended ∧ i ∈ s.called) ∨
      (r = .drop ∧ i ∉ s.called ∧ s.sys.pool.exit = true)
  /-- what a function comes to gets to its future, unless it could not be stored -/
  ended : ∀ i x, (i, x) ∈ s.ended → (i, promiseArg x) ∈ s.resolved ∨ i ∈ s.orphaned
  /-- a future is orphaned when its function returned a value, and is never resolved then -/
  orphaned : ∀ i ∈ s.orphaned, i ∉ s.resolved.map Prod.fst ∧ ∃ v, (i, .ok v) ∈ s.ended
  /-- a future that is pending waits for its closure, or for its function to return, or is
  orphaned -/
  pending : ∀ i ∈ s.sys.handed, i ∉ s.resolved.map Prod.fst →
    (s.Waits i ∧ i ∉ s.called) ∨ (i ∈ s.called ∧ ∃ w, s.inside w = some i ∧
      ∀ v, s.inside v = some i → v = w) ∨ i ∈ s.orphaned
  /-- a call of `stop()` that has returned has resolved those that it took -/
  stopped : ∀ k st, s.sys.stop k = some st → st.returned = true → st.q = []
  /-- while the pool is not stopped, each worker of it comes to call the function of every closure
  that no worker has yet, by steps of its own, and then the future gets what that comes to; a
  worker that has the closure or is in its function does so -/
  served : s.sys.pool.exit = false → ∀ w wk, s.sys.worker w = some wk → wk.stage ≠ .gone →
    ∀ i ∈ s.sys.handed, i ∉ s.resolved.map Prod.fst → i ∉ s.orphaned → ∀ x,
      ∃ v, (v = w ∨ s.HeldBy v i) ∧
        Run.Leads step (Brings v i x) s fun s' => (i, promiseArg x) ∈ s'.resolved

end Runs

end ThreadPool

end Cocls
