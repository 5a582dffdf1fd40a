import Cocls.Mutex
import Cocls.Owners
import Cocls.Run

/-!
# Cocls.Mutex.Ownership

`mutex::ownership`: who may unlock.

`try_lock`, and the end of a wait for `lock()`, give an object that owns the
mutex, as a `std::unique_ptr` whose deleter unlocks.  It can be moved, released
and destroyed; to assign to it unlocks what it owned.

A wait for `lock()` has a number, and so has its awaiter; it is made for one
acquisition.  Between its resumption and `await_resume` the mutex belongs to the
wait.
-/

namespace Cocls

namespace Mutex

/-- A mutex, with its history: the waits that subscribed, and those that an `unlock` resumed. -/
structure Lock where
  mx : Mutex := ⟨none, none, fun _ => none⟩
  subscribed : List Nat := []
  resumed : List Nat := []

namespace Lock

/-- Fuel for the loops of one call. -/
def fuel (l : Lock) : Nat := l.subscribed.length + 2

/-- `ready()` -/
def ready (l : Lock) : Lock × Bool :=
  let r := Mutex.ready l.mx
  ({ l with mx := r.1 }, r.2)

/-- `subscribe` of the awaiter of wait `p`. -/
def subscribe (l : Lock) (p : Nat) : Option (Lock × Bool) :=
  (Mutex.subscribe l.fuel (.object p) l.mx).map fun r =>
    ({ l with mx := r.1, subscribed := if r.2 then l.subscribed ++ [p] else l.subscribed }, r.2)

/-- `unlock`, with the wait that it resumes. -/
def unlock (l : Lock) : Option (Lock × Option Nat) :=
  (Mutex.unlock l.fuel l.mx).map fun r =>
    match r.2 with
    | some (.object q) => ({ l with mx := r.1, resumed := l.resumed ++ [q] }, some q)
    | _ => ({ l with mx := r.1 }, none)

end Lock

/-- Where a wait for `lock()` of a mutex is. -/
inductive WaitAt where
  | fresh
  /-- `await_ready` was false -/
  | refused (m : Nat)
  | waiting (m : Nat)
  /-- it got the mutex, and `await_resume` is next -/
  | granted (m : Nat)
  | done
deriving DecidableEq, Repr

structure Ownerships where
  lock : Nat → Lock := fun _ => {}
  /-- the `ownership` objects that exist, with their `_ptr` -/
  ptr : Nat → Option (Option Nat) := fun _ => none
  wait : Nat → WaitAt := fun _ => .fresh
  /-- history: how often each mutex was acquired, and unlocked -/
  acquired : Nat → Nat := fun _ => 0
  unlocked : Nat → Nat := fun _ => 0
  /-- a call did not return -/
  hung : Bool := false

namespace Ownerships

inductive Action where
  /-- `ownership o;` -/
  | empty (o : Nat)
  /-- `ownership o = m.try_lock();` -/
  | tryLock (m o : Nat)
  /-- `co_await m.lock()` or `m.lock().wait()`: `await_ready` -/
  | awaitReady (m p : Nat)
  | subscribe (p : Nat)
  /-- `ownership o = ` what `await_resume` returns -/
  | awaitResume (p o : Nat)
  | release (o : Nat)
  | destroy (o : Nat)
  | moveConstruct (o o' : Nat)
  | moveAssign (o o' : Nat)
deriving DecidableEq, Repr

section Ops

variable (s : Ownerships)

def setLock (m : Nat) (l : Lock) : Ownerships := { s with lock := Function.update s.lock m l }

def setPtr (o : Nat) (p : Option (Option Nat)) : Ownerships :=
  { s with ptr := Function.update s.ptr o p }

def setWait (p : Nat) (w : WaitAt) : Ownerships := { s with wait := Function.update s.wait p w }

/-- One more acquisition of the mutex. -/
def acquire (m : Nat) : Ownerships :=
  { s with acquired := Function.update s.acquired m (s.acquired m + 1) }

/-- `mx->unlock(..)`, if `p` is not null: the deleter, and the end of `release()`. -/
def unlock (p : Option Nat) : Ownerships :=
  match p with
  | none => s
  | some m =>
      match (s.lock m).unlock with
      | none => { s with hung := true }
      | some (l, next) =>
          let s := { s.setLock m l with
            unlocked := Function.update s.unlocked m (s.unlocked m + 1) }
          match next with
          | none => s
          | some q => (s.setWait q (.granted m)).acquire m

def step : Action → Option Ownerships
  | .empty o => if s.ptr o = none then some (s.setPtr o (some none)) else none
  | .tryLock m o =>
      if s.ptr o = none then
        match (s.lock m).ready with
        | (l, true) => some (((s.setLock m l).setPtr o (some (some m))).acquire m)
        | (l, false) => some ((s.setLock m l).setPtr o (some none))
      else none
  | .awaitReady m p =>
      if s.wait p = .fresh then
        match (s.lock m).ready with
        | (l, true) => some (((s.setLock m l).setWait p (.granted m)).acquire m)
        | (l, false) => some ((s.setLock m l).setWait p (.refused m))
      else none
  | .subscribe p =>
      match s.wait p with
      | .refused m =>
          match (s.lock m).subscribe p with
          | none => some { s with hung := true }
          | some (l, true) => some ((s.setLock m l).setWait p (.waiting m))
          | some (l, false) => some (((s.setLock m l).setWait p (.granted m)).acquire m)
      | _ => none
  | .awaitResume p o =>
      match s.wait p with
      | .granted m =>
          if s.ptr o = none then some ((s.setWait p .done).setPtr o (some (some m))) else none
      | _ => none
  | .release o =>
      match s.ptr o with
      | some p => some ((s.setPtr o (some none)).unlock p)
      | none => none
  | .destroy o =>
      match s.ptr o with
      | some p => some ((s.setPtr o none).unlock p)
      | none => none
  | .moveConstruct o o' =>
      match s.ptr o, s.ptr o' with
      | none, some p => some ((s.setPtr o' (some none)).setPtr o (some p))
      | _, _ => none
  | .moveAssign o o' =>
      match s.ptr o, s.ptr o' with
      -- `reset(u.release())`
      | some q, some p =>
          let s := s.setPtr o' (some none)
          some ((s.setPtr o (some p)).unlock (if o = o' then none else q))
      | _, _ => none

/-- The waits that subscribed to the mutex and were not resumed. -/
def line (m : Nat) : List Nat := (s.lock m).subscribed.drop (s.lock m).resumed.length

/-- Who owns a mutex. -/
inductive Holder where
  | ownership (o : Nat)
  | wait (p : Nat)

def Holds : Holder → Nat → Prop
  | .ownership o, m => s.ptr o = some (some m)
  | .wait p, m => s.wait p = .granted m

/-- A step of whoever owns the mutex: the mutex is released, or taken over from the wait that
got it. -/
def OfHolder (m : Nat) (s : Ownerships) : Action → Prop
  | .release o => s.Holds (.ownership o) m
  | .awaitResume p _ => s.Holds (.wait p) m
  | _ => False

/-- A mutex is locked exactly as long as somebody owns it, and has one owner then. -/
structure OneOwner : Prop where
  returns : s.hung = false
  /-- a mutex that is locked has one holder, and nobody holds one that is not -/
  owned : Owners.Owned s.Holds fun m => (s.lock m).mx.requests ≠ none
  /-- each acquisition is given up once, unless the mutex is held -/
  balanced : ∀ m, s.acquired m =
    s.unlocked m + if (s.lock m).mx.requests = none then 0 else 1
  /-- waits get the mutex in the order in which they subscribed -/
  in_order : ∀ m, (s.lock m).subscribed = (s.lock m).resumed ++ s.line m
  waiting : ∀ m p, p ∈ s.line m ↔ s.wait p = .waiting m
  /-- nobody waits for a mutex that nobody holds -/
  nobody : ∀ m, (s.lock m).mx.requests = none → s.line m = []
  /-- whoever waits gets the mutex by steps of those alone that hold it, one after the other -/
  served : ∀ m p, s.wait p = .waiting m →
    ∃ as, Run.Meets step (OfHolder m) s as ∧ (Run.exec step s as).wait p = .granted m

end Ops

end Ownerships

end Mutex

end Cocls
