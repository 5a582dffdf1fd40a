import Cocls.Generator
import Cocls.Interleave
import Cocls.Queue.Pairing
import Mathlib.Logic.Function.Basic

/-!
# Cocls.Generator.Aggregator

`generator_aggregator`: one generator that yields the values of many.

The body of the aggregator is followed from one `co_await`, `co_yield` or call
to the next.  It charges every source, which runs the source up to its first
suspension, and then takes the sources from the queue one by one; a source that
completed a step puts itself there, from whatever thread it runs in.  The value
of a source is yielded, and when the aggregator is accessed again the source is
charged again.

The sources are numbered in the order of the list.  Modelled are generators
without an argument (`Arg` is `void`); the others take theirs from the access
that charges them.
-/

namespace Cocls

namespace Generator

variable {σ T E : Type*}

/-- Where the body of the aggregator is. -/
inductive Pc where
  /-- not accessed yet -/
  | fresh
  /-- in the loop over the list, before source `i` -/
  | chargeAll (i : Nat)
  /-- in `charge` of source `i`, which runs; in the loop over the list or after a `co_yield` -/
  | resuming (i : Nat) (first : Bool)
  /-- at `while (cnt)` -/
  | loop
  /-- in `co_await queue.pop()` -/
  | popping
  /-- with the source that `pop` gave -/
  | popped (i : Nat)
  /-- in `co_yield` of a value of source `i` -/
  | yielding (i : Nat)
  /-- back from this `co_yield` -/
  | charge (i : Nat)
  /-- at the end; whether an exception is rethrown is in `exp` -/
  | done
deriving DecidableEq, Repr

/-- The aggregator, its queue and the sources. -/
structure Aggregator (σ T E : Type*) where
  src : Nat → Coroutine σ T E
  queue : QueueOf (List Nat) := { queue := [] }
  /-- `_count` of the controller -/
  count : Nat
  /-- the exception in `exp`, as an access reports it -/
  exp : Option (Report T E) := none
  pc : Pc := .fresh
  pops : Nat := 0
  /-- how often the body of a source ran to a suspension -/
  steps : Nat → Nat := fun _ => 0
  /-- the steps that the sources completed, with what they came to -/
  completed : List (Nat × Report T E) := []
  /-- the sources in the order in which they were charged -/
  asked : List Nat := []
  /-- what was yielded, with the sources -/
  yields : List (Nat × T) := []
  /-- how many of these values were taken, that is how often `co_yield` returned -/
  taken : Nat := 0

namespace Aggregator

inductive Action where
  /-- the aggregator is accessed -/
  | access
  /-- the body of the aggregator goes on -/
  | go
  /-- the body of source `i` runs to its next suspension -/
  | body (i : Nat)
  /-- source `i` is resumed from its `co_await` -/
  | wake (i : Nat)
deriving DecidableEq, Repr

/-- The aggregator of `n` generators that start in the states `init`. -/
def start (n : Nat) (init : Nat → σ) : Aggregator σ T E :=
  { src := fun i => .fresh (init i), count := n }

section Steps

variable (s : Aggregator σ T E)

/-- `fin()`, and on with the loop. -/
def fin : Aggregator σ T E := { s with count := s.count - 1, pc := .loop }

/-- `charge` of source `i`. -/
def chargeStep (i : Nat) (first : Bool) : Option (Aggregator σ T E) :=
  ((s.src i).nextAsync i).map fun r =>
    let s' := { s with src := Function.update s.src i r.1 }
    if r.2 then { s' with pc := .resuming i first, asked := s.asked ++ [i] }
    -- `no_more_values_exception`: only the second `charge` is in the `try` block
    else if first then { s' with exp := some .noMoreValues, pc := .done }
    else ({ s' with exp := some .noMoreValues } : Aggregator σ T E).fin

/-- `queue.pop()`; the slot for the awaiter holds one promise. -/
def popStep : Option (Aggregator σ T E) :=
  let r : QueueOf (List Nat) × List (Queue.Event Nat E) := s.queue.pop s.pops
  let s' := { s with queue := r.1, pops := s.pops + 1 }
  match r.2 with
  | .popped _ i :: _ => some { s' with pc := .popped i }
  | _ => if s.queue.awaiters ≠ [] then none else some { s' with pc := .popping }

/-- The body of the aggregator goes on. -/
def go (n : Nat) : Option (Aggregator σ T E) :=
  match s.pc with
  | .chargeAll i => if i < n then s.chargeStep i true else some { s with pc := .loop }
  | .loop => if 0 < s.count then s.popStep else some { s with pc := .done }
  | .popped i =>
      let g := (s.src i).promise
      if g.done then some s.fin
      else
        match g.value with
        | .value v => some { s with yields := s.yields ++ [(i, v)], pc := .yielding i }
        | e => some ({ s with exp := some e } : Aggregator σ T E).fin
  | .charge i => s.chargeStep i false
  | .fresh | .resuming _ _ | .popping | .yielding _ | .done => none

/-- `h.resume()` of source `i` returns to `charge`. -/
def returns (i : Nat) : Aggregator σ T E :=
  match s.pc with
  | .resuming j first =>
      if j = i then { s with pc := if first then .chargeAll (i + 1) else .loop } else s
  | _ => s

/-- `GenCallback` of source `i` is resumed: it pushes itself to the queue. -/
def callback (i : Nat) : Aggregator σ T E :=
  let r : QueueOf (List Nat) × List (Queue.Event Nat E) × Bool := s.queue.push i
  let s' := { s with queue := r.1 }
  match r.2.1 with
  | .popped _ j :: _ => { s' with pc := .popped j }
  | _ => s'

/-- The body of source `i` runs to its next suspension. -/
def bodyStep (body : Nat → σ → BodyStep σ T E) (i : Nat) : Option (Aggregator σ T E) :=
  match (s.src i).runBody (body i) with
  | none => none
  | some (g, x) =>
      let s' := { s with src := Function.update s.src i g
                         steps := Function.update s.steps i (s.steps i + 1) }
      match x with
      | .awaits => some (s'.returns i)
      | .resumes (some (.awaiter j)) =>
          some ((({ s' with completed := s.completed ++ [(i, g.promise.readNext)] } :
            Aggregator σ T E).callback j).returns i)
      -- the sources are accessed by the aggregator only
      | .resumes _ => none

end Steps

/-- One step. -/
def step (n : Nat) (body : Nat → σ → BodyStep σ T E) (s : Aggregator σ T E) :
    Action → Option (Aggregator σ T E)
  | .access =>
      match s.pc with
      | .fresh => some { s with pc := .chargeAll 0 }
      | .yielding i => some { s with pc := .charge i, taken := s.taken + 1 }
      | _ => none
  | .go => s.go n
  | .body i => s.bodyStep body i
  | .wake i => (s.src i).wake.map fun g => { s with src := Function.update s.src i g }

/-! ## What the aggregator owes its sources -/

open Interleave (own rounds)

/-- The values of completed steps. -/
def values (c : List (Nat × Report T E)) : List (Nat × T) :=
  c.filterMap fun e => e.2.toValue.map fun v => (e.1, v)

/-- The exceptions of completed steps. -/
def failures (c : List (Nat × Report T E)) : List (Report T E) :=
  (c.map Prod.snd).filter fun
    | .failed _ => true
    | _ => false

/-- The aggregator merges the `n` sources with the bodies `body`, started in `init`. -/
structure Merges (n : Nat) (body : Nat → σ → BodyStep σ T E) (init : Nat → σ)
    (s : Aggregator σ T E) : Prop where
  /-- the steps of a source are completed in the order of its body, none of them twice -/
  ownOrder : ∀ i, own i s.completed = outcomes (body i) (init i) (s.steps i)
  /-- values are yielded in the order in which the steps were completed -/
  inOrder : s.yields <+: values s.completed
  /-- all of them are yielded before the aggregator waits or ends -/
  noneLeft : s.pc = .popping ∨ s.pc = .done → s.yields = values s.completed
  /-- a source is charged once for each of its steps -/
  chargedOnce : ∀ i, s.asked.count i =
    (own i s.completed).length + (s.src i).place.atWork.toNat
  /-- a source is charged again only after its last value was taken -/
  afterTaken : ∀ i, s.asked.count i ≤ (own i (s.yields.take s.taken)).length + 1
  /-- the aggregator goes on, or it waits for a source that is at work -/
  goesOn : s.pc ≠ .fresh → (∀ i, s.pc ≠ .yielding i) → s.pc ≠ .done →
    (s.step n body .go).isSome ∨
      ∃ i < n, (s.step n body (.body i)).isSome ∨ (s.step n body (.wake i)).isSome
  /-- by itself it goes on only finitely often -/
  settles : Run.Leads (step n body) (· = .go) s fun s' => s'.step n body .go = none
  /-- it ends after all sources, with an exception if one of them failed -/
  ended : s.pc = .done → (∀ i < n, Ended (outcomes (body i) (init i) (s.steps i))) ∧
    s.exp = (failures s.completed).getLast?
  /-- and it ends when all sources did, without another value -/
  ends : s.pc ≠ .fresh → (∀ i < n, Ended (outcomes (body i) (init i) (s.steps i))) →
    ∃ m, (Run.exec (step n body) s (List.replicate m .go)).pc = .done ∧
      (Run.exec (step n body) s (List.replicate m .go)).yields = s.yields
  /-- the values of synchronous sources are yielded round by round, up to the end -/
  roundRobin : (∀ i < n, Synchronous (body i) (init i)) →
    ∃ R, s.yields <+: rounds (fun i r => (outcome (body i) (init i) r).bind Report.toValue) n R ∧
      (s.pc = .done →
        s.yields = rounds (fun i r => (outcome (body i) (init i) r).bind Report.toValue) n R)

end Aggregator

end Generator

end Cocls
