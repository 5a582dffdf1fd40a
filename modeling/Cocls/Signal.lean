import Cocls.Awaiter
import Cocls.Run

/-!
# Cocls.Signal

`signal<T>`: a collector emits values, listeners receive them.

The listeners are callbacks, each an object of its own that deletes itself, and
coroutines that await the emitter.  A listener waits as a link of `_chain`.  An
emission takes the whole chain and resumes its links one by one: a callback is
called at once and puts itself back when it returns `true`; a coroutine goes to
the suspend point and is resumed when that is flushed, and it waits again when
it awaits the emitter again.

The functions of callbacks and the coroutines may connect new callbacks and
start new coroutines whenever they run.  The values themselves are passed by
reference and not changed here.
-/

namespace Cocls

namespace Signal

inductive Kind where
  /-- an `Awt` of `connect` -/
  | callback
  /-- the emitter in the frame of a coroutine -/
  | coroutine
deriving DecidableEq, Repr

/-- Where a listener is. -/
inductive Place where
  /-- subscribed, and not taken by an emission or by the destruction of the state since -/
  | waiting
  /-- taken and not resumed yet -/
  | taken
  /-- a callback whose function runs -/
  | inside
  /-- a coroutine that does not await the emitter -/
  | running
  | deleted
deriving DecidableEq, Repr

/-- A listener.  All but its kind is history; values have the number of their emission. -/
structure Listener (V : Type*) where
  kind : Kind
  place : Place := .waiting
  /-- how many values had been emitted when it was added -/
  joined : Nat
  /-- what was passed to the function, or was the result of `co_await` -/
  received : List (Nat × V) := []
  /-- the values emitted while it was waiting -/
  owed : List (Nat × V) := []
  /-- what the function returned -/
  answers : List Bool := []
  deletes : Nat := 0
  /-- how often `await_canceled_exception` was thrown to a coroutine that had waited -/
  cancels : Nat := 0
  /-- it was waiting when the state was destroyed -/
  atEnd : Bool := false
deriving DecidableEq, Repr

/-- Where `resume_chain_lk` stands. -/
inductive Walk where
  | idle
  /-- at `while (chain)` -/
  | loop (chain : Option Awaiter)
  /-- in the function of callback `i`, with the rest of the chain -/
  | inside (i : Nat) (chain : Option Awaiter)
deriving DecidableEq, Repr

/-- The chain that is left to walk. -/
def Walk.chain : Walk → Option Awaiter
  | .idle => none
  | .loop chain | .inside _ chain => chain

end Signal

/-- `signal<T>::state` with its listeners, by address. -/
structure Signal (V : Type*) where
  /-- `lock()` of a weak pointer to the state succeeds -/
  alive : Bool := true
  /-- what `_cur_val` points at -/
  curVal : Option V := none
  chain : Option Awaiter := none
  next : Awaiter.Nexts := fun _ => none
  walk : Signal.Walk := .idle
  /-- the coroutines in the suspend point -/
  ready : List Nat := []
  listener : Nat → Option (Signal.Listener V) := fun _ => none
  /-- history: the values emitted -/
  emitted : List V := []
  /-- history: a loop did not end, a deleted object was used, or an exception left a
  function that is `noexcept` -/
  fault : Bool := false

namespace Signal

variable {V : Type*}

inductive Action (V : Type*) where
  /-- `connect` of a new callback -/
  | connect (i : Nat)
  /-- coroutine `i` awaits the emitter -/
  | await (i : Nat)
  /-- the collector is called -/
  | emit (v : V)
  /-- one round of `resume_chain_lk`, up to the call of a callback -/
  | round
  /-- the function of the callback returns -/
  | answer (more : Bool)
  /-- the suspend point resumes coroutine `i` -/
  | resume (i : Nat)
  /-- the last reference to the state goes -/
  | destroy
deriving DecidableEq, Repr

section Steps

variable (s : Signal V)

/-- Listener `i` is `l` now. -/
def set (i : Nat) (l : Listener V) : Signal V :=
  { s with listener := Function.update s.listener i (some l) }

/-- `awaiter::subscribe` of listener `i` to the chain. -/
def subscribe (i : Nat) : Signal V :=
  match Awaiter.subscribe (.object i) 2 s.chain s.next with
  | none => { s with fault := true }
  | some (chain, next) => { s with chain := chain, next := next }

/-- `emitter::await_resume`; `none`: it throws `await_canceled_exception`. -/
def awaitResume : Option V := if s.alive then s.curVal else none

/-- A value with the number of its emission. -/
def numbered (v : V) : Nat × V := (s.emitted.length - 1, v)

/-- No emission is under way, and its suspend point is flushed. -/
def AtRest : Prop := s.walk = .idle ∧ s.ready = []

instance : Decidable s.AtRest := inferInstanceAs (Decidable (_ ∧ _))

/-- All listeners that wait are taken. -/
def takeAll (f : Listener V → Listener V) (i : Nat) : Option (Listener V) :=
  (s.listener i).map fun l => if l.place = .waiting then f { l with place := .taken } else l

/-- The chain is exchanged for an empty one, and the walk begins. -/
def resumeChain : Signal V := { s with chain := none, walk := .loop s.chain }

/-- `Awt::resume` of callback `i` up to the call of its function; `chain` is the rest of the
walk. -/
def resumeCallback (i : Nat) (l : Listener V) (chain : Option Awaiter) : Signal V :=
  if l.place = .deleted then { s with fault := true }
  else if s.alive then
    match s.awaitResume with
    | none => { s with fault := true }
    | some v =>
        { s.set i { l with place := .inside, received := l.received ++ [s.numbered v] } with
          walk := .inside i chain }
  else
    { s.set i { l with place := .deleted, deletes := l.deletes + 1 } with walk := .loop chain }

/-- One round of `resume_chain_lk` with link `y`. -/
def resumeLink (y : Awaiter) : Signal V :=
  let chain := s.next y
  let s' := { s with next := Function.update s.next y none, walk := .loop chain }
  match y with
  | .theInstance | .disabled => s'
  | .object i =>
      match s.listener i with
      | none => { s' with fault := true }
      | some l =>
          match l.kind with
          | .callback => s'.resumeCallback i l chain
          | .coroutine => { s' with ready := s.ready ++ [i] }

/-- Callback `i` goes on when its function returned. -/
def answered (i : Nat) (l : Listener V) (chain : Option Awaiter) (more : Bool) : Signal V :=
  let l' := { l with answers := l.answers ++ [more] }
  if more then ({ s.set i { l' with place := .waiting } with walk := .loop chain }).subscribe i
  else { s.set i { l' with place := .deleted, deletes := l.deletes + 1 } with walk := .loop chain }

/-- Coroutine `i` is resumed. -/
def resumed (i : Nat) (l : Listener V) : Signal V :=
  let s' := { s with ready := s.ready.erase i }
  match s.awaitResume with
  | some v => s'.set i { l with place := .running, received := l.received ++ [s.numbered v] }
  | none => s'.set i { l with place := .running, cancels := l.cancels + 1 }

/-- `emitter::await_suspend` of coroutine `i`.  When the state is gone it does not suspend
and `await_resume` throws at once. -/
def awaitSuspend (i : Nat) (l : Listener V) : Signal V :=
  if s.alive then (s.set i { l with place := .waiting }).subscribe i
  else s.set i { l with place := .running }

end Steps

/-- One step.  Emissions are not nested, and the suspend point of one is flushed before
the next; so it is before the state goes. -/
def step (s : Signal V) : Action V → Option (Signal V)
  | .connect i =>
      if s.alive = true ∧ s.listener i = none then
        some ((s.set i { kind := .callback, joined := s.emitted.length }).subscribe i)
      else none
  | .await i =>
      match s.listener i with
      | none => some (s.awaitSuspend i { kind := .coroutine, joined := s.emitted.length })
      | some l => if l.place = .running then some (s.awaitSuspend i l) else none
  | .emit v =>
      if s.alive = true ∧ s.AtRest then
        let listener := s.takeAll fun l => { l with owed := l.owed ++ [(s.emitted.length, v)] }
        some { s.resumeChain with
          listener := listener, curVal := some v, emitted := s.emitted ++ [v] }
      else none
  | .round =>
      match s.walk with
      | .loop none => some { s with walk := .idle }
      | .loop (some y) => some (s.resumeLink y)
      | .idle | .inside _ _ => none
  | .answer more =>
      match s.walk with
      | .inside i chain => (s.listener i).map fun l => s.answered i l chain more
      | .idle | .loop _ => none
  | .resume i =>
      if s.walk = .idle ∧ i ∈ s.ready then (s.listener i).map fun l => s.resumed i l else none
  | .destroy =>
      if s.alive = true ∧ s.AtRest then
        let listener := s.takeAll fun l => { l with atEnd := true }
        some { s.resumeChain with listener := listener, alive := false, curVal := none }
      else none

/-! ## What is asked of it -/

/-- What is asked of a listener. -/
structure Served (s : Signal V) (i : Nat) (l : Listener V) : Prop where
  /-- it receives what was emitted while it was waiting, in this order and nothing else -/
  inOrder : l.received <+: l.owed
  /-- and all of that before the emission is over -/
  all : s.AtRest → l.received = l.owed
  /-- these are values of different emissions, in the order of the emissions -/
  genuine : ∀ e ∈ l.owed, s.emitted[e.1]? = some e.2
  once : (l.owed.map Prod.fst).Pairwise (· < ·)
  /-- none of them was emitted, or being emitted, when the listener was added -/
  fromNext : ∀ e ∈ l.owed, l.joined ≤ e.1
  /-- a callback misses none, unless it returned `false` -/
  callbackAll : l.kind = .callback → false ∉ l.answers →
    l.owed.map Prod.fst = List.range' l.joined (s.emitted.length - l.joined)
  /-- a callback that returned `false` is not called again -/
  stopped : ∀ before after, l.answers = before ++ false :: after →
    after = [] ∧ l.received.length = before.length + 1 ∧ ∀ chain, s.walk ≠ .inside i chain
  /-- a callback is deleted once, when it returned `false` or the state is gone -/
  deletedOnce : l.deletes ≤ 1
  deletedAfter : l.deletes = 1 → l.kind = .callback ∧ (s.alive = false ∨ false ∈ l.answers)
  deletedAll : l.kind = .callback → s.alive = false → s.AtRest → l.deletes = 1
  /-- a coroutine that was waiting when the state went gets one exception, and no other does -/
  canceledOnce : l.cancels ≤ if l.kind = .coroutine ∧ l.atEnd = true then 1 else 0
  canceledAll : s.alive = false → s.AtRest →
    l.cancels = if l.kind = .coroutine ∧ l.atEnd = true then 1 else 0

/-- A step of an emission or of the destruction of the state; callbacks return `more`. -/
def Action.Continues (more : Bool) : Action V → Prop
  | .round | .resume _ => True
  | .answer more' => more' = more
  | .connect _ | .await _ | .emit _ | .destroy => False

/-- The signal serves its listeners. -/
structure Delivers (s : Signal V) : Prop where
  served : ∀ i l, s.listener i = some l → Served s i l
  /-- no listener is used when it is deleted, and no loop is endless -/
  noFault : s.fault = false
  /-- an emission that goes on comes to its end -/
  comesToRest : ∀ more, ∃ as : List (Action V),
    (∀ a ∈ as, a.Continues more) ∧ (Run.exec step s as).AtRest

end Signal

end Cocls
