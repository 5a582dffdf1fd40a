import Cocls.Future

/-!
# Cocls.Promise

Promise objects and the futures they point at, one whole operation at a time.

A promise object is empty or points at the future it will resolve.  `claim`
empties it; every operation that moves a promise or calls it begins with a
`claim`.  A call then constructs its outcome inside the future and resolves the
future, which resumes the awaiters subscribed to it.

The construction of a value may throw.  A call then leaves by the exception,
after the `claim` and before the `resolve`.
-/

namespace Cocls

/-- All promise objects and futures of a program, each known by its address. -/
structure Promises (T E : Type*) where
  /-- the live promise objects: empty, or pointing at a future -/
  promise : Nat → Option (Option Nat) := fun _ => none
  /-- history: a promise was made for the future -/
  given : Nat → Bool := fun _ => false
  /-- `_awaiter` of each future -/
  awaiter : Nat → Option Awaiter := fun _ => some .theInstance
  stored : Nat → Stored T E := fun _ => .notValue
  next : Awaiter.Nexts := fun _ => none
  /-- history: the awaiters subscribed to each future, newest first -/
  subs : Nat → List Nat := fun _ => []
  /-- history: all awaiters that were subscribed -/
  used : List Nat := []
  /-- history: the awaiters resumed -/
  resumed : List Nat := []
  /-- history: a loop did not come to its end -/
  hung : Bool := false

/-- How an operation leaves. -/
inductive Exit where
  | returned (won : Bool)
  | threw
deriving DecidableEq, Repr

/-- Whether `bind` throws while it builds its closure: the tuple of arguments is
constructed, or fails to be, before or after the promise has been moved into the
closure. -/
inductive Binding where
  | ok
  | throwsBeforeMove
  | throwsAfterMove
deriving DecidableEq, Repr

namespace Promises

variable {T E : Type*}

/-- The future a promise object points at. -/
def owner (s : Promises T E) (p : Nat) : Option Nat := (s.promise p).join

/-- `future::ready()`. -/
def ready (s : Promises T E) (f : Nat) : Bool := s.awaiter f = some .disabled

/-- `promise::claim()`: what the promise pointed at; it is empty now. -/
def claim (s : Promises T E) (p : Nat) : Promises T E × Option Nat :=
  ({ s with promise := Function.update s.promise p (some none) }, s.owner p)

/-- The addresses of awaiter objects; the markers resume nobody. -/
def addresses (ys : List Awaiter) : List Nat :=
  ys.filterMap fun
    | .object i => some i
    | .theInstance | .disabled => none

/-- `future::resolve()`: exchange the collector and resume the chain. -/
def resolve (s : Promises T E) (f : Nat) : Promises T E :=
  let collector := Function.update s.awaiter f (some .disabled)
  match Awaiter.resumeChainLk s.used.length (s.awaiter f) s.next with
  | none => { s with awaiter := collector, hung := true }
  | some (ys, next) =>
      { s with awaiter := collector, next := next, resumed := s.resumed ++ addresses ys }

/-- `promise::set_value(args...)`, also for an exception and for the tag `drop`.
`throws`: the construction of the value throws. -/
def setValue (s : Promises T E) (p : Nat) (arg : PromiseArg T E) (throws : Bool) :
    Promises T E × Exit :=
  match s.claim p with
  | (s, none) => (s, .returned false)
  | (s, some f) =>
      match arg, throws with
      | .value _, true => (s, .threw)
      | .value v, false =>
          ({ s with stored := Function.update s.stored f (.value v) }.resolve f, .returned true)
      | .exception e, _ =>
          ({ s with stored := Function.update s.stored f (.exception e) }.resolve f,
            .returned true)
      | .drop, _ => (s.resolve f, .returned true)

/-- `~promise()`: resolve the future it still points at. -/
def destroy (s : Promises T E) (p : Nat) : Promises T E :=
  let s' := match s.owner p with
    | none => s
    | some f => s.resolve f
  { s' with promise := Function.update s'.promise p none }

/-- `promise(future &)`, for a future that has no promise yet. -/
def construct (s : Promises T E) (f p : Nat) : Promises T E :=
  { s with promise := Function.update s.promise p (some (some f))
           given := Function.update s.given f true
           awaiter := Function.update s.awaiter f none
           stored := Function.update s.stored f .notValue }

/-- `promise(promise &&)`: a new promise `p` takes what `q` points at. -/
def moveConstruct (s : Promises T E) (p q : Nat) : Promises T E :=
  let r := s.claim q
  { r.1 with promise := Function.update r.1.promise p (some r.2) }

/-- `operator=(promise &&)`: drop what `p` points at, then take over from `q`. -/
def moveAssign (s : Promises T E) (p q : Nat) : Promises T E :=
  if p = q then s
  else
    let s := (s.setValue p .drop false).1
    let r := s.claim q
    { r.1 with promise := Function.update r.1.promise p (some r.2) }

/-- `bind(args...)`: a closure that holds the promise, moved into it as the new
object `p`.  When the construction of the closure throws after the move, what it
holds so far is destroyed. -/
def bind (s : Promises T E) (p q : Nat) : Binding → Promises T E
  | .ok => s.moveConstruct p q
  | .throwsBeforeMove => s
  | .throwsAfterMove => (s.moveConstruct p q).destroy p

/-- `future::subscribe(awt)`. -/
def subscribe (s : Promises T E) (f i : Nat) : Promises T E :=
  match Awaiter.subscribeCheckReadyLoop .disabled (.object i) 2 (s.awaiter f) s.next with
  | none => { s with hung := true }
  | some (top, next, true) =>
      { s with awaiter := Function.update s.awaiter f top, next := next
               subs := Function.update s.subs f (i :: s.subs f), used := i :: s.used }
  | some (top, next, false) =>
      { s with awaiter := Function.update s.awaiter f top, next := next }

/-- An operation on promises and futures. -/
inductive Op (T E : Type*) where
  | construct (f p : Nat)
  | create (p : Nat)
  | moveConstruct (p q : Nat)
  | moveAssign (p q : Nat)
  | bind (p q : Nat) (b : Binding)
  | call (p : Nat) (arg : PromiseArg T E) (throws : Bool)
  | destroy (p : Nat)
  | subscribe (f i : Nat)

/-- One operation.  Constructors need a free address, the other operations a live
object; a future is given a promise once (`get_promise` asserts it), and an
awaiter subscribes once. -/
def step (s : Promises T E) : Op T E → Option (Promises T E)
  | .construct f p =>
      if s.given f = false ∧ s.promise p = none then some (s.construct f p) else none
  | .create p =>
      if s.promise p = none then
        some { s with promise := Function.update s.promise p (some none) }
      else none
  | .moveConstruct p q =>
      if s.promise p = none ∧ (s.promise q).isSome then some (s.moveConstruct p q) else none
  | .moveAssign p q =>
      if (s.promise p).isSome ∧ (s.promise q).isSome then some (s.moveAssign p q) else none
  | .bind p q b =>
      if s.promise p = none ∧ (s.promise q).isSome then some (s.bind p q b) else none
  | .call p arg throws =>
      if (s.promise p).isSome then some (s.setValue p arg throws).1 else none
  | .destroy p => if (s.promise p).isSome then some (s.destroy p) else none
  | .subscribe f i =>
      if s.given f = true ∧ i ∉ s.used then some (s.subscribe f i) else none

/-- The body of the closure that `thread_pool::run` queues, and its destruction:
the promise is called with what the function returned; when the function throws
or that call does, `catch (...)` calls the promise with the current exception. -/
def runClosure (s : Promises T E) (p : Nat) (result : Except E (T × Bool)) (current : E) :
    Promises T E :=
  let s := match result with
    | .error e => (s.setValue p (.exception e) false).1
    | .ok (v, throws) =>
        match s.setValue p (.value v) throws with
        | (s, .returned _) => s
        | (s, .threw) => (s.setValue p (.exception current) false).1
  s.destroy p

/-- No future is orphaned. -/
structure NoOrphan (s : Promises T E) : Prop where
  /-- every future that was given a promise is resolved, or exactly one live promise
  points at it -/
  owned : ∀ f, s.given f = true → s.ready f = true ∨ ∃! p, s.promise p = some (some f)
  /-- once no promise points at it, it is resolved and its awaiters were resumed -/
  woken : ∀ f, s.given f = true → (∀ p, s.promise p ≠ some (some f)) →
    s.ready f = true ∧ ∀ i ∈ s.subs f, i ∈ s.resumed
  returns : s.hung = false

/-- An operation that does not lose a future: a call whose value throws while it
is constructed finds the promise empty. -/
def Keeps (s : Promises T E) : Op T E → Prop
  | .call p (.value _) true => s.owner p = none
  | _ => True

end Promises

end Cocls
