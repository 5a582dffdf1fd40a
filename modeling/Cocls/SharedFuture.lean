import Cocls.Awaiter
import Cocls.Run
import Cocls.SharedPtr

/-!
# Cocls.SharedFuture

`shared_future`: handles of a state on the heap, `future_internal`, which is a
future with a `resolve_tracer`.

The tracer is an awaiter that owns the state it is a member of, from `charge` until
the future resolves.  Constructors and `get_promise` set a state up in steps (check
that it is pending, let the tracer own it, subscribe the tracer), which interleave with
the steps of the resolution (close the collector, resume the tracer it held) in any
order.  Awaiters of the users are left out; they are put on top of the tracer and own
nothing.
-/

namespace Cocls

namespace SharedFuture

/-- The shared pointers: `_ptr` of a handle, `_ptr` of the tracer in the state at `x`, and the
parameter of `charge` for that state. -/
inductive Owner where
  | handle (h : Nat)
  | tracer (x : Nat)
  | param (x : Nat)
deriving DecidableEq, Repr

/-- What is to be done next to set a state up. -/
inductive Setup where
  /-- `if (_ptr->pending())` -/
  | check
  /-- the call of `charge`, and its `_ptr = ptr` -/
  | charge
  /-- `subscribe`, in the loop of `subscribe_check_ready` -/
  | subscribe
  /-- it returned `false`: `_ptr = nullptr` -/
  | refused
deriving DecidableEq, Repr

/-- `future_internal`; the pointer of its tracer is in the store. -/
structure State where
  /-- `_awaiter`, the collector -/
  awaiter : Option Awaiter
  setup : Option Setup := none
deriving DecidableEq, Repr

namespace State

def pending (st : State) : Bool :=
  st.awaiter ≠ some .theInstance ∧ st.awaiter ≠ some .disabled

def ready (st : State) : Bool := st.awaiter = some .disabled

end State

/-- The future that a function returns. -/
inductive Made where
  /-- there is no promise -/
  | uninitialized
  | pending
  | resolved
deriving DecidableEq, Repr

def Made.awaiter : Made → Option Awaiter
  | .uninitialized => some .theInstance
  | .pending => none
  | .resolved => some .disabled

/-- Handles, states and promises. -/
structure Sys where
  store : SharedPtr.Store Nat Owner State := fun _ => none
  /-- `_ptr` of the handles that exist -/
  handle : Nat → Option (Option Nat) := fun _ => none
  /-- the address of the next state -/
  fresh : Nat := 0
  /-- a promise points to the state -/
  promise : Nat → Bool := fun _ => false
  /-- a resolution has still to resume the tracer of the state -/
  resuming : Nat → Bool := fun _ => false
  /-- `_next` of the awaiters -/
  next : Awaiter.Nexts := fun _ => none
  /-- a state that is not there was used -/
  fault : Bool := false
  /-- `init_if_needed` has taken a handle from its state -/
  detached : Bool := false

inductive Action where
  /-- default construction -/
  | construct (h : Nat)
  /-- from a function of a promise; `early` when it resolves the promise itself -/
  | fromPromise (h : Nat) (early : Bool)
  /-- from a function that returns a future -/
  | fromFuture (h : Nat) (made : Made)
  /-- `h'` is constructed from `h` -/
  | copy (h h' : Nat)
  | move (h h' : Nat)
  /-- `h = h'` -/
  | assign (h h' : Nat)
  | moveAssign (h h' : Nat)
  | destroy (h : Nat)
  | initIfNeeded (h : Nat)
  | getPromise (h : Nat)
  /-- `operator<<` of a function that returns a future -/
  | put (h : Nat) (made : Made)
  /-- the next step of `charge` for the state at `x` -/
  | setup (x : Nat) (spurious : Bool)
  /-- a promise of the state at `x` resolves: the exchange of the collector -/
  | resolve (x : Nat)
  /-- the resolution resumes the tracer -/
  | resume (x : Nat)
deriving DecidableEq, Repr

namespace Sys

variable (s : Sys)

def obj (x : Nat) : Option State := SharedPtr.obj s.store x

/-- The state at `x` is being set up. -/
def busy (x : Nat) : Bool := ((s.obj x).bind State.setup).isSome

/-- `_ptr` of handle `h`, if no constructor and no `get_promise` is at work on it. -/
def free (h : Nat) : Option (Option Nat) :=
  match s.handle h with
  | some (some x) => if s.busy x then none else some (some x)
  | p => p

/-- Handle `h` exists with a new `_ptr`, or it is destroyed. -/
def setHandle (h : Nat) (v : Option (Option Nat)) : Sys :=
  { s with
    store := SharedPtr.repoint s.store (.handle h) v.join
    handle := Function.update s.handle h v }

/-- `_ptr = make_shared<future_internal>(..)`; `promise` when a promise points to it. -/
def makeState (h : Nat) (st : State) (promise : Bool) : Sys :=
  let s := s.setHandle h (some none)
  { s with
    store := SharedPtr.make s.store s.fresh st (.handle h)
    handle := Function.update s.handle h (some (some s.fresh))
    promise := Function.update s.promise s.fresh promise
    fresh := s.fresh + 1 }

def setState (x : Nat) (st : State) : Sys :=
  { s with store := SharedPtr.modify s.store x fun _ => st }

def setPromise (x : Nat) (promise : Bool) : Sys :=
  { s with promise := Function.update s.promise x promise }

def initIfNeeded (h : Nat) : Sys :=
  match s.handle h with
  | some (some _) => { s.makeState h { awaiter := some .theInstance } false with detached := true }
  | _ => s

def getPromise (h : Nat) : Sys :=
  let s := s.initIfNeeded h
  match s.handle h with
  | some (some x) =>
      (s.setState x { awaiter := none, setup := some .charge }).setPromise x true
  | _ => { s with fault := true }

/-- The next step of a constructor or of `charge`. -/
def setupStep (x : Nat) (spurious : Bool) : Option Sys :=
  match s.obj x with
  | some { awaiter, setup := some .check } =>
      let st : State := { awaiter }
      some (s.setState x { st with setup := if st.pending then some .charge else none })
  | some { awaiter, setup := some .charge } =>
      let s := s.setState x { awaiter, setup := some .subscribe }
      let store := SharedPtr.repoint s.store (.param x) (some x)
      some { s with store := SharedPtr.repoint store (.tracer x) (some x) }
  | some { awaiter, setup := some .subscribe } =>
      match Awaiter.subscribeCheckReady .disabled awaiter s.next (.object x) spurious with
      | (awaiter, next, some true) =>
          let s := s.setState x { awaiter, setup := none }
          some { s with store := SharedPtr.repoint s.store (.param x) none, next := next }
      | (awaiter, next, some false) =>
          some { s.setState x { awaiter, setup := some .refused } with next := next }
      | (awaiter, next, none) =>
          some { s.setState x { awaiter, setup := some .subscribe } with next := next }
  | some { awaiter, setup := some .refused } =>
      let s := s.setState x { awaiter, setup := none }
      let store := SharedPtr.repoint s.store (.tracer x) none
      some { s with store := SharedPtr.repoint store (.param x) none }
  | _ => none

/-- `resolve` of the future of the state at `x`, to the exchange of the collector. -/
def resolve (x : Nat) : Sys :=
  let s := s.setPromise x false
  match s.obj x with
  | some st =>
      { s.setState x { st with awaiter := some .disabled } with
        resuming := Function.update s.resuming x (st.awaiter = some (.object x)) }
  | none => { s with fault := true }

/-- The resume function of the tracer, called by `resume_chain_lk`. -/
def resume (x : Nat) : Sys :=
  let s := { s with resuming := Function.update s.resuming x false }
  match s.obj x with
  | some _ =>
      { s with
        next := Function.update s.next (.object x) none
        store := SharedPtr.repoint s.store (.tracer x) none }
  | none => { s with fault := true }

def step : Action → Option Sys
  | .construct h => if s.handle h = none then some (s.setHandle h (some none)) else none
  | .fromPromise h early =>
      if s.handle h = none then
        let made : Made := if early then .resolved else .pending
        some (s.makeState h { awaiter := made.awaiter, setup := some .charge } (made = .pending))
      else none
  | .fromFuture h made =>
      if s.handle h = none then
        some (s.makeState h { awaiter := made.awaiter, setup := some .check } (made = .pending))
      else none
  | .copy h h' =>
      if s.handle h' = none then (s.free h).map fun p => s.setHandle h' (some p) else none
  | .move h h' =>
      if s.handle h' = none then
        (s.free h).map fun p => (s.setHandle h' (some p)).setHandle h (some none)
      else none
  | .assign h h' =>
      (s.free h).bind fun _ => (s.free h').map fun p => s.setHandle h (some p)
  | .moveAssign h h' =>
      if h = h' then (s.free h).map fun _ => s
      else
        (s.free h).bind fun _ => (s.free h').map fun p =>
          (s.setHandle h (some p)).setHandle h' (some none)
  | .destroy h => (s.free h).map fun _ => s.setHandle h none
  | .initIfNeeded h => (s.free h).map fun _ => s.initIfNeeded h
  | .getPromise h => (s.free h).map fun _ => s.getPromise h
  | .put h made =>
      match s.free h with
      | some (some x) =>
          match s.obj x with
          | some st =>
              if st.pending then none
              else
                some ((s.setState x { st with awaiter := made.awaiter }).setPromise x
                  (made = .pending))
          | none => some { s with fault := true }
      | _ => none
  | .setup x spurious => s.setupStep x spurious
  | .resolve x => if s.promise x then some (s.resolve x) else none
  | .resume x => if s.resuming x then some (s.resume x) else none

/-! ## What the parts of a step change -/

section Fields

variable {h x : Nat} {v : Option (Option Nat)} {st : State} {promise : Bool}

@[simp] theorem setHandle_handle_self : (s.setHandle h v).handle h = v := by
  rw [setHandle]
  exact Function.update_self ..

@[simp] theorem setHandle_handle_of_ne {h' : Nat} (hne : h' ≠ h) :
    (s.setHandle h v).handle h' = s.handle h' := by
  rw [setHandle]
  exact Function.update_of_ne hne ..

@[simp] theorem setHandle_fresh : (s.setHandle h v).fresh = s.fresh := rfl

theorem setHandle_promise : (s.setHandle h v).promise = s.promise := rfl

@[simp] theorem makeState_handle_self :
    (s.makeState h st promise).handle h = some (some s.fresh) := by
  rw [makeState]
  exact Function.update_self ..

@[simp] theorem makeState_handle_of_ne {h' : Nat} (hne : h' ≠ h) :
    (s.makeState h st promise).handle h' = s.handle h' := by
  simp [makeState, hne]

@[simp] theorem makeState_obj_self : (s.makeState h st promise).obj s.fresh = some st :=
  SharedPtr.obj_make_self

@[simp] theorem makeState_obj_of_ne {y : Nat} (hne : y ≠ s.fresh) :
    (s.makeState h st promise).obj y = (s.setHandle h (some none)).obj y :=
  SharedPtr.obj_make_of_ne hne

@[simp] theorem makeState_promise_self : (s.makeState h st promise).promise s.fresh = promise := by
  simp [makeState]

@[simp] theorem makeState_promise_of_ne {y : Nat} (hne : y ≠ s.fresh) :
    (s.makeState h st promise).promise y = s.promise y := by
  simp [makeState, setHandle_promise, hne]

@[simp] theorem setState_obj_self : (s.setState x st).obj x = (s.obj x).map fun _ => st := by
  simp [obj, setState]

@[simp] theorem setState_obj_of_ne {y : Nat} (hne : y ≠ x) :
    (s.setState x st).obj y = s.obj y := by
  simp [obj, setState, hne]

@[simp] theorem setState_owns {o : Owner} {y : Nat} :
    SharedPtr.Owns (s.setState x st).store o y ↔ SharedPtr.Owns s.store o y := by
  simp [setState]

@[simp] theorem setPromise_obj : (s.setPromise x promise).obj = s.obj := rfl

end Fields

end Sys

end SharedFuture

end Cocls
