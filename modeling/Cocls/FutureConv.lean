import Cocls.Future

/-!
# Cocls.FutureConv

`future_conv`: a convertor turns the outcome of a source future into the outcome
of a target future.

It is charged with a promise of the target and a function that begins the
source (`operator<<`, or `operator()` and `Hlp::operator<<`), and may be charged
again as soon as the source is resolved, also from inside the converter.  The
resume function takes the promise along; so each charge has a resume function
of its own, and those of several charges may be running at the same time.

Registration and resolution interleave in any order: the source may be resolved
when `fn` returns it, before `subscribe`, or after it.
-/

namespace Cocls

/-- What `value()` of a resolved future throws. -/
def Stored.thrown {T E : Type*} (canceled : E) : Stored T E → Option E
  | .notValue => some canceled
  | .value _ => none
  | .exception e => some e

namespace FutureConv

/-- The forms of `future_conv<fn>`, by the type of `fn`. -/
inductive Form where
  /-- `To (Context::*)(From &)` -/
  | member
  /-- `To (Context::*)()` -/
  | memberVoid
  /-- `suspend_point<void> (Context::*)(From &, promise<To> &)` -/
  | memberPromise
  /-- `suspend_point<void> (Context::*)(promise<To> &)` -/
  | memberVoidPromise
  /-- `To (*)(From &)` -/
  | free
  /-- `To (*)(From &, Context *)` -/
  | freeContext
deriving DecidableEq, Repr

/-- The form passes `*_fut` to the converter. -/
def Form.dereferences : Form → Bool
  | .member | .memberPromise | .free | .freeContext => true
  | .memberVoid | .memberVoidPromise => false

/-- The form passes the promise to the converter. -/
def Form.handsPromise : Form → Bool
  | .memberPromise | .memberVoidPromise => true
  | .member | .memberVoid | .free | .freeContext => false

/-- What `fn` of `_fut << fn` comes to. -/
inductive Begun (T E : Type*) where
  /-- it returns a future with a promise somewhere -/
  | pending
  /-- it returns a future that is resolved already -/
  | ready (r : Stored T E)
  | threw (e : E)

/-- `_fut` -/
inductive Source (T E : Type*) where
  | unused
  | pending (subscribed : Bool)
  | ready (r : Stored T E)

def Source.isPending {T E : Type*} : Source T E → Bool
  | .pending _ => true
  | .unused | .ready _ => false

/-- `result_of(fn)`; `_fut` holds the exception of `fn`. -/
def Begun.source {T E : Type*} : Begun T E → Source T E
  | .pending => .pending false
  | .ready r => .ready r
  | .threw e => .ready (.exception e)

/-- A future that a promise was made for. -/
inductive Target (U E : Type*) where
  | unused
  | pending
  | resolved (r : Stored U E)

/-- How far the resume function of a charge is. -/
inductive Place where
  | waiting
  /-- in the converter, with what `p` points at -/
  | inside (p : Option Nat)
  | returned
deriving DecidableEq, Repr

/-- What the converter did with the target: the first thing that settled it. -/
inductive Verdict (U E : Type*) where
  | nothing
  | gave (r : Stored U E)
  /-- the promise was moved away -/
  | passed
deriving DecidableEq

/-- The first verdict counts. -/
def Verdict.or {U E : Type*} : Verdict U E → Verdict U E → Verdict U E
  | .nothing, v => v
  | .gave r, _ => .gave r
  | .passed, _ => .passed

/-- A charge; all but `place` is history. -/
structure Charge (T U E : Type*) where
  place : Place := .waiting
  /-- what the promise pointed at -/
  target : Option Nat := none
  /-- what the source came to, when the resume function was called -/
  source : Option (Stored T E) := none
  /-- the calls of the converter, each with what the source held -/
  calls : List (Stored T E) := []
  verdict : Verdict U E := .nothing

/-- A convertor, and the futures that promises were made for. -/
structure Convertor (T U E : Type*) where
  prom : Option Nat := none
  fut : Source T E := .unused
  /-- between `_fut << fn` and the end of `subscribe` -/
  registering : Bool := false
  /-- `resume()` is to be called -/
  due : Bool := false
  target : Nat → Target U E := fun _ => .unused
  /-- the promise of the future is somewhere outside of the convertor -/
  outside : Nat → Bool := fun _ => false
  charges : Nat := 0
  charge : Nat → Charge T U E := fun _ => {}

namespace Convertor

inductive Action (T U E : Type*) where
  /-- a promise is made for a new future -/
  | make (t : Nat)
  /-- a promise outside of the convertor is called -/
  | call (t : Nat) (arg : PromiseArg U E)
  /-- `convertor << fn`; `t` is the new future -/
  | charge (t : Nat) (b : Begun T E)
  /-- `convertor(std::move(prom)) << fn`, with a promise from outside or an empty one -/
  | chargeWith (p : Option Nat) (b : Begun T E)
  /-- the same with the promise that the converter of charge `k` was given -/
  | recharge (k : Nat) (b : Begun T E)
  /-- the promise of the source is called or dropped -/
  | resolve (arg : PromiseArg T E)
  | subscribe
  | resume
  /-- the converter of charge `k` calls its promise -/
  | callPromise (k : Nat) (arg : PromiseArg U E)
  /-- it calls its promise with a value whose construction in the target throws -/
  | callThrows (k : Nat) (w : U)
  /-- it moves its promise away -/
  | movePromise (k : Nat)
  /-- it returns a value -/
  | ret (k : Nat) (w : U)
  /-- it returns a value whose construction in the target throws -/
  | retThrows (k : Nat) (w : U)
  /-- it returns, in the forms with a promise -/
  | finish (k : Nat)
  | throw (k : Nat) (e : E)

section Steps

variable {T U E : Type*} (s : Convertor T U E)

/-- `p(…)` or `~promise()`; nothing happens when it is empty. -/
def settle (p : Option Nat) (r : Stored U E) : Convertor T U E :=
  match p with
  | none => s
  | some t => { s with target := Function.update s.target t (.resolved r) }

def setCharge (k : Nat) (c : Charge T U E) : Convertor T U E :=
  { s with charge := Function.update s.charge k c }

/-- The convertor waits for the source, or for its own resume function. -/
def busy : Bool := s.fut.isPending || s.registering || s.due

/-- `_prom = std::move(prom); _fut << fn;`.  The assignment drops what `_prom` pointed at. -/
def start (p : Option Nat) (b : Begun T E) : Convertor T U E :=
  let s := s.settle s.prom .notValue
  { s with prom := p, fut := b.source, registering := true, charges := s.charges + 1
           charge := Function.update s.charge s.charges { target := p } }

/-- `if (!_fut.subscribe(this)) resume();` -/
def subscribe : Option (Convertor T U E) :=
  match s.registering, s.fut with
  | true, .pending _ => some { s with fut := .pending true, registering := false }
  | true, .ready _ => some { s with registering := false, due := true }
  | _, _ => none

/-- The source is resolved: its awaiter is resumed when there is one. -/
def resolve (arg : PromiseArg T E) : Option (Convertor T U E) :=
  match s.fut with
  | .pending subscribed => some { s with fut := .ready arg.stored, due := subscribed }
  | .unused | .ready _ => none

/-- The resume function up to the converter: `promise<To> p = std::move(_prom)`, and `*_fut` in
the forms that pass it.  What it throws goes to `p`. -/
def resume (f : Form) (canceled : E) : Option (Convertor T U E) :=
  match s.due, s.fut with
  | true, .ready r =>
      let k := s.charges - 1
      let c := s.charge k
      let s' := { s with prom := none, due := false }
      match f.dereferences, r.thrown canceled with
      | true, some e =>
          some ((s'.settle s.prom (.exception e)).setCharge k
            { c with source := some r, place := .returned })
      | _, _ =>
          some (s'.setCharge k
            { c with source := some r, place := .inside s.prom, calls := c.calls ++ [r] })
  | _, _ => none

/-- The converter of charge `k` gives `r` to the target. -/
def give (k : Nat) (p : Option Nat) (r : Stored U E) (place : Place) : Convertor T U E :=
  let c := s.charge k
  (s.settle p r).setCharge k { c with place := place, verdict := c.verdict.or (.gave r) }

/-- The same when the construction of the value in the target throws: `set_value` has claimed the
target, and `p(std::current_exception())` finds the promise empty. -/
def giveThrows (k : Nat) (w : U) (place : Place) : Convertor T U E :=
  let c := s.charge k
  s.setCharge k { c with place := place, verdict := c.verdict.or (.gave (.value w)) }

/-- The converter of charge `k` parts with its promise. -/
def part (k : Nat) : Convertor T U E :=
  let c := s.charge k
  s.setCharge k { c with place := .inside none, verdict := c.verdict.or .passed }

/-- One step. -/
def step (f : Form) (canceled : E) (s : Convertor T U E) : Action T U E → Option (Convertor T U E)
  | .make t =>
      match s.target t with
      | .unused => some { s with target := Function.update s.target t .pending
                                 outside := Function.update s.outside t true }
      | .pending | .resolved _ => none
  | .call t arg =>
      if s.outside t then
        some ({ s with outside := Function.update s.outside t false }.settle (some t) arg.stored)
      else none
  | .charge t b =>
      match s.busy, s.target t with
      | false, .unused =>
          some ({ s with target := Function.update s.target t .pending }.start (some t) b)
      | _, _ => none
  | .chargeWith none b => if s.busy then none else some (s.start none b)
  | .chargeWith (some t) b =>
      if ¬ s.busy ∧ s.outside t then
        some ({ s with outside := Function.update s.outside t false }.start (some t) b)
      else none
  | .recharge k b =>
      match s.busy, f.handsPromise, (s.charge k).place with
      | false, true, .inside p => some ((s.part k).start p b)
      | _, _, _ => none
  | .resolve arg => s.resolve arg
  | .subscribe => s.subscribe
  | .resume => s.resume f canceled
  | .callPromise k arg =>
      match f.handsPromise, (s.charge k).place with
      | true, .inside p => some (s.give k p arg.stored (.inside none))
      | _, _ => none
  | .callThrows k w =>
      match f.handsPromise, (s.charge k).place with
      | true, .inside _ => some (s.giveThrows k w (.inside none))
      | _, _ => none
  | .movePromise k =>
      match f.handsPromise, (s.charge k).place with
      | true, .inside none => some (s.part k)
      | true, .inside (some t) =>
          some { s.part k with outside := Function.update s.outside t true }
      | _, _ => none
  | .ret k w =>
      match f.handsPromise, (s.charge k).place with
      | false, .inside p => some (s.give k p (.value w) .returned)
      | _, _ => none
  | .retThrows k w =>
      match f.handsPromise, (s.charge k).place with
      | false, .inside _ => some (s.giveThrows k w .returned)
      | _, _ => none
  | .finish k =>
      match f.handsPromise, (s.charge k).place with
      | true, .inside p => some (s.give k p .notValue .returned)
      | _, _ => none
  | .throw k e =>
      match (s.charge k).place with
      | .inside p => some (s.give k p (.exception e) .returned)
      | .waiting | .returned => none

/-- The convertor will come back to `_prom`: it is about to, or the resolution of the source
resumes it. -/
def UnderWay : Prop :=
  s.due = true ∨ s.registering = true ∨ s.fut = .pending true

end Steps

/-- The convertor passes failures on. -/
structure PassesOn {T U E : Type*} (f : Form) (canceled : E) (s : Convertor T U E) : Prop where
  /-- a source that failed or was dropped: no call, and the target has the exception -/
  failed : ∀ k r e, (s.charge k).source = some r → r.thrown canceled = some e →
    (s.charge k).calls = [] ∧
      ∀ t, (s.charge k).target = some t → s.target t = .resolved (.exception e)
  /-- a source with a value: one call, with that value -/
  called : ∀ k v, (s.charge k).source = some (.value v) → (s.charge k).calls = [.value v]
  /-- no call before the source is resolved -/
  early : ∀ k, (s.charge k).source = none → (s.charge k).calls = []
  /-- the target has what the converter gave -/
  receives : ∀ k t r, (s.charge k).target = some t → (s.charge k).verdict = .gave r →
    s.target t = .resolved r
  /-- which is something when the resume function is over -/
  ends : ∀ k v, (s.charge k).place = .returned → (s.charge k).source = some (.value v) →
    (s.charge k).verdict ≠ .nothing
  /-- a target that is pending waits for the source, for the converter or for somebody outside -/
  pending : ∀ t, s.target t = .pending → s.outside t = true ∨
    (∃ k, (s.charge k).place = .inside (some t)) ∨ (s.prom = some t ∧ s.UnderWay)
  /-- the resolution of the source gets to the promise -/
  arrives : ∀ r, s.fut = .ready r →
    (Run.exec (step f canceled) s [.subscribe, .resume]).prom = none

/-- What the code relies on: the source has a value where the converter is called without it, and
the values of the target are constructed without an exception. -/
def Passes {T U E : Type*} (f : Form) (canceled : E) (s : Convertor T U E) : Action T U E → Prop
  | .resume => ∀ r, s.fut = .ready r → f.dereferences = true ∨ r.thrown canceled = none
  | .callThrows k _ | .retThrows k _ => ∀ t, (s.charge k).place ≠ .inside (some t)
  | _ => True

end Convertor

end FutureConv

end Cocls
