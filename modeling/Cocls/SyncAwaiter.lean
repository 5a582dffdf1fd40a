import Cocls.Future

/-!
# Cocls.SyncAwaiter

`wait()` and `sync()`: threads that block until a future is ready.

The thread puts a `sync_awaiter` on its stack, subscribes it, and waits for its
flag.  The call that resolves the future walks the chain of awaiters; the
resumption of a `sync_awaiter` stores `true` into the flag and then notifies, two
steps, between which the thread may go on.

A thread that is blocked in `flag.wait(false)` goes on when the flag is notified,
and may also do so without cause; it then loads the flag again.
-/

namespace Cocls

namespace SyncAwaiter

open Future (Race)

/-- Where a thread is in `wait()`. -/
inductive Place where
  /-- about to call `await_ready` -/
  | testing
  /-- in `subscribe`, with the awaiter on its stack -/
  | subscribing
  /-- about to load the flag in `flag.wait(false)` -/
  | loading
  | blocked
  /-- `wait()` has returned, and the awaiter is gone -/
  | returned
deriving DecidableEq, Repr

/-- A future and the threads that wait for it; thread `i` has awaiter `i`. -/
structure Waits (T E : Type*) where
  race : Race T E := {}
  /-- `flag` -/
  flag : Nat → Bool := fun _ => false
  place : Nat → Place := fun _ => .testing
  /-- the awaiter that the call is about to notify -/
  notify : Nat → Option Nat := fun _ => none
  /-- history: what `await_resume` gave to the threads that returned -/
  result : Nat → Option (Stored T E) := fun _ => none
  /-- history: the awaiters that were notified, and whether they were there -/
  notified : List (Nat × Bool) := []

namespace Waits

variable {T E : Type*}

inductive Action where
  /-- call `k` of the promise makes its next step -/
  | call (k : Nat)
  /-- thread `i` makes its next step -/
  | go (i : Nat) (spurious : Bool)
deriving DecidableEq, Repr

section Steps

variable (arg : Nat → PromiseArg T E) (s : Waits T E)

def setPlace (i : Nat) (p : Place) : Waits T E := { s with place := Function.update s.place i p }

/-- The end of `wait()`. -/
def leave (i : Nat) : Waits T E :=
  { s.setPlace i .returned with result := Function.update s.result i (some s.race.stored) }

/-- `flag.notify_all()` of the awaiter `i`. -/
def notifyAll (k i : Nat) : Waits T E :=
  { s with notify := Function.update s.notify k none
           place := if s.place i = .blocked then Function.update s.place i .loading else s.place
           notified := s.notified ++ [(i, decide (s.place i ≠ .returned))] }

/-- The next step of a call.  It stores `true` into the flag of the awaiter that it resumes. -/
def callStep (k : Nat) : Option (Waits T E) :=
  match s.notify k with
  | some i => some (s.notifyAll k i)
  | none =>
      (s.race.callStep (arg k) k).map fun r =>
        match s.race.call k with
        | .walking (some (.object i)) =>
            { s with race := r, flag := Function.update s.flag i true
                     notify := Function.update s.notify k (some i) }
        | _ => { s with race := r }

/-- The next step of a thread. -/
def go (i : Nat) (spurious : Bool) : Option (Waits T E) :=
  match s.place i with
  | .testing => some (if s.race.ready then s.leave i else s.setPlace i .subscribing)
  | .subscribing =>
      (s.race.subscribeStep i spurious).map fun r =>
        let s := { s with race := r }
        match r.sub i with
        | .trying => s
        | .subscribed => s.setPlace i .loading
        | .refused => s.leave i
  | .loading => some (if s.flag i then s.leave i else s.setPlace i .blocked)
  | .blocked => if spurious then some (s.setPlace i .loading) else none
  | .returned => none

def step : Action → Option (Waits T E)
  | .call k => s.callStep arg k
  | .go i spurious => s.go i spurious

/-- Threads wait as long as they have to, and no longer. -/
structure WaitsRight : Prop where
  /-- a thread returns when the future is ready, with the outcome of the call that won -/
  result : ∀ i v, s.result i = some v →
    s.race.ready = true ∧ ∃ k, Race.Won (s.race.call k) ∧ v = (arg k).stored
  returned : ∀ i, s.place i = .returned → (s.result i).isSome
  /-- a call that has won returns, whatever the threads do -/
  resolves : ∀ k, Race.Won (s.race.call k) →
    ∃ n, (Run.exec (step arg) s (List.replicate n (.call k))).race.call k = .done true
  /-- when it has returned, no thread is blocked -/
  woken : ∀ k, s.race.call k = .done true → ∀ i, s.place i ≠ .blocked
  /-- every thread then returns by steps of its own -/
  returns : ∀ k, s.race.call k = .done true → ∀ i,
    ∃ n, (Run.exec (step arg) s (List.replicate n (.go i false))).place i = .returned
  /-- nobody is notified twice -/
  once : (s.notified.map Prod.fst).Nodup

/-- No awaiter was notified, or is about to be, that is gone. -/
def TouchesLive : Prop :=
  (∀ p ∈ s.notified, p.2 = true) ∧ ∀ k i, s.notify k = some i → s.place i ≠ .returned

/-- The thread does not leave `flag.wait` between the store into the flag and its notification. -/
def Lingers : Action → Prop
  | .call _ => True
  | .go i _ => s.place i = .loading → s.flag i = true → ∀ k, s.notify k ≠ some i

end Steps

end Waits

end SyncAwaiter

end Cocls
