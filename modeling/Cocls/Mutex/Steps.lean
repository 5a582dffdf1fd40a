import Cocls.Mutex
import Cocls.Run

/-!
# Cocls.Mutex.Steps

The mutex, one shared access at a time.  A step is one atomic operation on
`_requests` (a compare-exchange or an exchange) or one read or write of a
`_next` field or of `_queue`; the steps of any number of parties interleave in
any order.

A party has two threads of control: the call of `try_lock`, or of `await_ready`
followed by `subscribe` (`CallPc`), and what it does with the ownership once it
has it (`OwnPc`).  They are separate because a waiting party can be resumed as
the owner, by the `unlock` of another party, while its `subscribe` still runs.
A party at rest starts again with a fresh awaiter, at the same address.
-/

namespace Cocls

namespace Mutex

/-- Where a `build_queue(stop)` stands.  `req` and `x` are the local variables of
its loop. -/
inductive Build where
  /-- about to exchange `_requests` for the doorman -/
  | exchange
  /-- at the head of the loop, about to read `req->_next` -/
  | loop (req : Option Awaiter)
  /-- about to read `_queue` -/
  | readQueue (x : Awaiter) (req : Option Awaiter)
  /-- about to write `x->_next` -/
  | writeNext (x : Awaiter) (req : Option Awaiter) (q : Option Awaiter)
  /-- about to write `_queue` -/
  | writeQueue (x : Awaiter) (req : Option Awaiter)
deriving DecidableEq, Repr

/-- Where the call of a party stands. -/
inductive CallPc where
  | idle
  /-- about to compare-exchange in `ready`; `tries`: this is `try_lock` -/
  | ready (tries : Bool)
  /-- in the loop of `awaiter::subscribe`, about to compare-exchange -/
  | exchange
  /-- published, about to re-read its own `_next`; `old` is history: what its
  `_next` held when the exchange published it -/
  | reread (old : Option Awaiter)
  /-- `subscribe` found its `_next` null and runs `build_queue(aw)` -/
  | build (b : Build)
  /-- `try_lock` failed -/
  | refused
  /-- `ready` succeeded -/
  | acquired
  /-- `subscribe` returned: `true`, it waits; `false`, it owns the mutex -/
  | returned (waits : Bool)
deriving DecidableEq, Repr

/-- What a party does with the ownership; from `testQueue` on it runs `unlock`. -/
inductive OwnPc where
  | none
  | owner
  /-- about to test `_queue` -/
  | testQueue
  /-- about to compare-exchange the doorman for null -/
  | exchange
  /-- in `build_queue(doorman())` -/
  | build (b : Build)
  /-- about to read `_queue` into `first` -/
  | readFirst
  /-- about to read `_queue` for `_queue->_next` -/
  | readQueue (first : Awaiter)
  /-- about to read `q->_next` -/
  | readNext (first q : Awaiter)
  /-- about to write `_queue` -/
  | writeQueue (first : Awaiter) (n : Option Awaiter)
  /-- about to write `first->_next` -/
  | writeNext (first : Awaiter)
  /-- about to resume `first` -/
  | resume (first : Awaiter)
  | released
  /-- a null `_queue` was dereferenced -/
  | fault
deriving DecidableEq, Repr

/-- A mutex and its parties.  `resumed` is history: an `unlock` has resumed the
party since its call began. -/
structure Parties where
  mx : Mutex := ⟨.none, .none, fun _ => .none⟩
  call : Nat → CallPc := fun _ => .idle
  own : Nat → OwnPc := fun _ => .none
  resumed : Nat → Bool := fun _ => false

/-! ## Steps -/

/-- One step of `build_queue(stop)`; no next position: it returns. -/
def buildStep (m : Mutex) (stop : Awaiter) : Build → Mutex × Option Build
  | .exchange => ({ m with requests := some doorman }, some (.loop m.requests))
  | .loop none => (m, none)
  | .loop (some x) => if x = stop then (m, none) else (m, some (.readQueue x (m.next x)))
  | .readQueue x req => (m, some (.writeNext x req m.queue))
  | .writeNext x req q =>
      ({ m with next := Function.update m.next x q }, some (.writeQueue x req))
  | .writeQueue x req => ({ m with queue := some x }, some (.loop req))

namespace Parties

/-- The party has no call running and no ownership: it may call again. -/
def AtRest (s : Parties) (p : Nat) : Prop :=
  match s.own p, s.call p with
  | .none, .idle | .none, .refused => True
  | .released, .acquired | .released, .returned _ => True
  | _, _ => False

instance (s : Parties) (p : Nat) : Decidable (s.AtRest p) := by
  unfold AtRest
  split <;> infer_instance

/-- A party at rest starts a call, with an awaiter whose `_next` is null. -/
def start (s : Parties) (p : Nat) (tries : Bool) : Option Parties :=
  if s.AtRest p then
    some { mx := { s.mx with next := Function.update s.mx.next (.object p) none }
           call := Function.update s.call p (.ready tries)
           own := Function.update s.own p .none
           resumed := Function.update s.resumed p false }
  else
    none

/-- One step of the call of a party.  `spurious`: a weak exchange fails without
reason. -/
def callStep (s : Parties) (p : Nat) (spurious : Bool) : Option Parties :=
  match s.call p with
  | .ready tries =>
      match ready s.mx with
      | (mx, true) =>
          some { s with mx := mx, call := Function.update s.call p .acquired,
                        own := Function.update s.own p .owner }
      | (mx, false) =>
          some { s with mx := mx,
                        call := Function.update s.call p (if tries then .refused else .exchange) }
  | .exchange =>
      match Awaiter.compareExchangeWeak s.mx.requests s.mx.next (.object p) spurious with
      | (requests, next, true) =>
          some { s with mx := { s.mx with requests := requests, next := next },
                        call := Function.update s.call p (.reread (s.mx.next (.object p))) }
      | (requests, next, false) =>
          some { s with mx := { s.mx with requests := requests, next := next } }
  | .reread _ =>
      some { s with call := Function.update s.call p
                      (if s.mx.next (.object p) = none then .build .exchange
                       else .returned true) }
  | .build b =>
      match buildStep s.mx (.object p) b with
      | (mx, some b) => some { s with mx := mx, call := Function.update s.call p (.build b) }
      | (mx, none) =>
          some { s with mx := mx, call := Function.update s.call p (.returned false),
                        own := Function.update s.own p .owner }
  | .idle | .refused | .acquired | .returned _ => none

/-- One step of the owner's `unlock`. -/
def ownStep (s : Parties) (p : Nat) : Option Parties :=
  match s.own p with
  | .testQueue =>
      some { s with own := Function.update s.own p
                      (if s.mx.queue = none then .exchange else .readFirst) }
  | .exchange =>
      if s.mx.requests = some doorman then
        some { s with mx := { s.mx with requests := none },
                      own := Function.update s.own p .released }
      else
        some { s with own := Function.update s.own p (.build .exchange) }
  | .build b =>
      match buildStep s.mx doorman b with
      | (mx, some b) => some { s with mx := mx, own := Function.update s.own p (.build b) }
      | (mx, none) => some { s with mx := mx, own := Function.update s.own p .readFirst }
  | .readFirst =>
      match s.mx.queue with
      | none => some { s with own := Function.update s.own p .fault }
      | some first => some { s with own := Function.update s.own p (.readQueue first) }
  | .readQueue first =>
      match s.mx.queue with
      | none => some { s with own := Function.update s.own p .fault }
      | some q => some { s with own := Function.update s.own p (.readNext first q) }
  | .readNext first q =>
      some { s with own := Function.update s.own p (.writeQueue first (s.mx.next q)) }
  | .writeQueue first n =>
      some { s with mx := { s.mx with queue := n },
                    own := Function.update s.own p (.writeNext first) }
  | .writeNext first =>
      some { s with mx := { s.mx with next := Function.update s.mx.next first none },
                    own := Function.update s.own p (.resume first) }
  | .resume (.object q) =>
      some { s with own := Function.update (Function.update s.own p .released) q .owner,
                    resumed := Function.update s.resumed q true }
  -- resuming a marker awaiter resumes nobody
  | .resume _ => some { s with own := Function.update s.own p .released }
  | .none | .owner | .released | .fault => none

/-- What a party, or the scheduler on its behalf, does next. -/
inductive Action where
  | lock (p : Nat)
  | tryLock (p : Nat)
  | call (p : Nat) (spurious : Bool)
  | release (p : Nat)
  | own (p : Nat)

/-- One step of the parties. -/
def step (s : Parties) : Action → Option Parties
  | .lock p => s.start p false
  | .tryLock p => s.start p true
  | .call p spurious => s.callStep p spurious
  | .release p =>
      if s.own p = .owner then some { s with own := Function.update s.own p .testQueue } else none
  | .own p => s.ownStep p

/-! ## Mutual exclusion -/

/-- The party holds the ownership: it acquired it, or was resumed with it, and
has not yet passed it on, or its `subscribe` has found that it owns the mutex. -/
def Holds (s : Parties) (p : Nat) : Prop :=
  (s.own p ≠ .none ∧ s.own p ≠ .released ∧ s.own p ≠ .fault) ∨ ∃ b, s.call p = .build b

/-- What mutual exclusion asks of a state. -/
structure Exclusive (s : Parties) : Prop where
  /-- at most one party holds the ownership -/
  one_owner : ∀ p q, s.Holds p → s.Holds q → p = q
  /-- nobody whose `subscribe` finds, or has found, that it owns the mutex is also
  resumed by an `unlock` -/
  not_both : ∀ p, s.resumed p = true → s.call p ≠ .returned false ∧ ∀ b, s.call p ≠ .build b
  /-- `_queue` is a chain of awaiters other than the doorman -/
  no_doorman : ∃ queue, Links s.mx.next s.mx.queue queue none ∧ doorman ∉ queue
  /-- no null `_queue` is dereferenced -/
  no_fault : ∀ p, s.own p ≠ .fault

/-- A step that does not go wrong: a party that re-reads its `_next` as null in
`subscribe` had it null already when it published its awaiter.  (Otherwise an
`unlock` has put the awaiter at the end of `_queue`, or has taken it out of
`_queue`, before the party looked.) -/
def Prompt (s : Parties) : Action → Prop
  | .call p _ => ∀ old, s.call p = .reread old → s.mx.next (.object p) = none → old = none
  | .lock _ | .tryLock _ | .release _ | .own _ => True

end Parties

end Mutex

end Cocls
