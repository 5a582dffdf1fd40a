import Mathlib.Data.List.Basic
import Mathlib.Data.List.Nodup
import Cocls.Async

/-!
# Cocls.Async.Lifecycle

The life of coroutine frames and of the futures they resolve.

The handle of a coroutine is in one place at any time: in the `async` object that
was not started, on its way to be resumed, with the thread that runs it, or in the
chain of the future it awaits.  A pending future likewise has one that will resolve
it, a promise or a coroutine.  `Moves` says what a step does, and each step hands
over, opens or closes one of these.
-/

namespace Cocls

namespace Asyncs

open Async
open Owners (Owned)

variable {σ T E : Type*} {body : σ → AsyncStep σ T E}

/-- Who has the handle of a coroutine. -/
inductive Holder where
  | async (x : Nat)
  /-- it is on its way to be resumed -/
  | handedOn
  /-- a thread runs it -/
  | thread
  | awaiters (r : FutureRef)
deriving DecidableEq

/-- Who will resolve a future. -/
inductive Resolver where
  | promise (p : Nat)
  | coroutine (h : Nat)
deriving DecidableEq

section Relations

variable (s : Asyncs σ T E)

def Holds : Holder → Nat → Prop
  | .async x, h => s.async x = some (some h)
  | .handedOn, h => h ∈ s.ready
  | .thread, h => ∃ fr, s.frame h = some fr ∧ (fr.place = .running ∨ fr.place = .final)
  | .awaiters r, h => ∃ c, s.future r = some c ∧ h ∈ c.chain

/-- The coroutine was not destroyed. -/
def Alive (h : Nat) : Prop := ∃ fr, s.frame h = some fr

def Resolves : Resolver → FutureRef → Prop
  | .promise p, r => ∃ f, s.promise p = some (some f) ∧ r = .object f
  | .coroutine h, r => ∃ fr, s.frame h = some fr ∧ fr.future = some r

def Pending (r : FutureRef) : Prop := ∃ c, s.future r = some c ∧ c.ready = false

/-- A coroutine that is held so is in such a place. -/
def At (fr : Frame σ) : Holder → Prop
  | .async _ => fr.place = .initial ∧ fr.future = none
  | .handedOn => fr.place = .initial ∨
      ∃ r c, fr.place = .awaiting r ∧ s.future r = some c ∧ c.ready = true
  | .thread => fr.place = .running ∨ fr.place = .final
  | .awaiters r => fr.place = .awaiting r

end Relations

/-- Every coroutine that is alive has one holder, and every pending future one resolver. -/
structure Orderly (s : Asyncs σ T E) : Prop where
  held : Owned s.Holds s.Alive
  /-- a coroutine is suspended where its holder expects it -/
  places : ∀ x h fr, s.Holds x h → s.frame h = some fr → s.At fr x
  resolver : Owned s.Resolves s.Pending
  /-- no handle is on its way twice, and none is subscribed twice -/
  readyOnce : s.ready.Nodup
  chainOnce : ∀ r c, s.future r = some c → c.chain.Nodup
  /-- every frame is destroyed once -/
  destroyed : ∀ h < s.count, s.destroyed h = if (s.frame h).isSome then 0 else 1

/-- What holds of the frames and futures one by one. -/
structure Local (body : σ → AsyncStep σ T E) (s : Asyncs σ T E) : Prop where
  unused : ∀ h, s.count ≤ h → s.frame h = none ∧ s.destroyed h = 0
  /-- the `co_awaiter` of a coroutine is there as long as it awaits it -/
  coAwaiter : ∀ h c, s.future (.coAwaiter h) = some c →
    ∃ fr, s.frame h = some fr ∧ fr.place = .awaiting (.coAwaiter h)
  awaited : ∀ h fr r, s.frame h = some fr → fr.place = .awaiting r → ∃ c, s.future r = some c
  called : ∀ h fr h', s.frame h = some fr → fr.place = .awaiting (.coAwaiter h') →
    h' = h ∧ ∃ c k, body fr.body = .coAwait c k
  waits : ∀ h fr f, s.frame h = some fr → fr.place = .awaiting (.object f) →
    ∃ k, body fr.body = .coAwaitFuture f k
  /-- a future that is ready has no awaiters any more -/
  done : ∀ r c, s.future r = some c → c.ready = true → c.chain = []

/-- The invariant. -/
structure Inv (body : σ → AsyncStep σ T E) (s : Asyncs σ T E) : Prop
  extends Orderly s, Local body s

/-! ## What a step does -/

/-- The coroutine is over, with this outcome. -/
def outcome : AsyncStep σ T E → Option (Stored T E)
  | .coReturn v => some (.value v)
  | .throws e => some (.exception e)
  | _ => none

/-- What is stored in a future when its promise is called. -/
def storedBy (c : Async.Future T E) : PromiseArg T E → Stored T E
  | .value v => .value v
  | .exception e => .exception e
  | .drop => c.stored

section Steps

variable (s : Asyncs σ T E)

@[simps] def setPromise (p : Nat) (v : Option (Option Nat)) : Asyncs σ T E :=
  { s with promise := Function.update s.promise p v }

@[simps] def setAsync (x : Nat) (v : Option (Option Nat)) : Asyncs σ T E :=
  { s with async := Function.update s.async x v }

/-- The coroutine is started for a future. -/
@[simps] def begin (x h : Nat) (fr : Frame σ) (f : Nat) : Asyncs σ T E :=
  { ((s.setFrame h { fr with future := some (.object f) }).setAsync x (some none)).handOn [h] with
    bound := Function.update s.bound f (some fr.start) }

/-- The future is resolved, and its awaiters are on their way. -/
@[simps] def release (r : FutureRef) (c : Async.Future T E) (v : Stored T E) : Asyncs σ T E :=
  { s with future := Function.update s.future r (some { ready := true, stored := v })
           ready := c.chain ++ s.ready }

/-- The handle is resumed. -/
@[simps] def take (h : Nat) : Asyncs σ T E := { s with ready := s.ready.erase h }

end Steps

/-- The steps, from states that meet the invariant. -/
inductive Moves (body : σ → AsyncStep σ T E) (s : Asyncs σ T E) :
    Action σ T E → Asyncs σ T E → Prop
  | create {x b} : s.async x = none →
      Moves body s (.create x b) ((s.newFrame b).setAsync x (some (some s.count)))
  | move {x y o} : s.async y = some o → s.async x = none →
      Moves body s (.move x y) ((s.setAsync y (some none)).setAsync x (some o))
  | destroyEmpty {x} : s.async x = some none →
      Moves body s (.destroyAsync x) (s.setAsync x none)
  | destroyAsync {x h} : s.async x = some (some h) →
      Moves body s (.destroyAsync x) ((s.destroyFrame h).setAsync x none)
  | start {x f h fr} : s.async x = some (some h) → s.frame h = some fr →
      s.future (.object f) = none →
      Moves body s (.start x f) ((s.setFuture (.object f) (some {})).begin x h fr f)
  | startPromise {x p h fr f} : s.async x = some (some h) → s.frame h = some fr →
      s.promise p = some (some f) →
      Moves body s (.startPromise x p) ((s.setPromise p (some none)).begin x h fr f)
  | startRefused {x p h fr} : s.async x = some (some h) → s.frame h = some fr →
      s.promise p = some none →
      Moves body s (.startPromise x p)
        ((s.setPromise p (some none)).setFrame h { fr with future := none })
  | detach {x h} : s.async x = some (some h) →
      Moves body s (.detach x) ((s.setAsync x (some none)).handOn [h])
  | getPromise {f p} : s.future (.object f) = none → s.promise p = none →
      Moves body s (.getPromise f p)
        ((s.setFuture (.object f) (some {})).setPromise p (some (some f)))
  | call {p arg f c} : s.promise p = some (some f) → s.future (.object f) = some c →
      Moves body s (.call p arg)
        ((s.setPromise p (some none)).release (.object f) c (storedBy c arg))
  | callEmpty {p arg} : s.promise p = some none →
      Moves body s (.call p arg) (s.setPromise p (some none))
  | destroyPromise {p f c} : s.promise p = some (some f) → s.future (.object f) = some c →
      Moves body s (.destroyPromise p) ((s.setPromise p none).release (.object f) c c.stored)
  | destroyEmptyPromise {p} : s.promise p = some none →
      Moves body s (.destroyPromise p) (s.setPromise p none)
  | resumeInitial {h fr} : s.frame h = some fr → h ∈ s.ready → fr.place = .initial →
      Moves body s (.resume h) ((s.take h).setFrame h { fr with place := .running })
  | resumeObject {h fr f c k} : s.frame h = some fr → h ∈ s.ready →
      fr.place = .awaiting (.object f) → s.future (.object f) = some c →
      body fr.body = .coAwaitFuture f k →
      Moves body s (.resume h)
        ((s.take h).setFrame h { fr with body := k c.stored, place := .running })
  | resumeCall {h fr c callee k} : s.frame h = some fr → h ∈ s.ready →
      fr.place = .awaiting (.coAwaiter h) → s.future (.coAwaiter h) = some c →
      body fr.body = .coAwait callee k →
      Moves body s (.resume h)
        (((s.take h).setFuture (.coAwaiter h) none).setFrame h
          { fr with body := k c.stored, place := .running })
  | ended {h fr v} : s.frame h = some fr → fr.place = .running →
      outcome (body fr.body) = some v → fr.future = none →
      Moves body s (.go h) (s.setFrame h { fr with place := .final })
  | endedFor {h fr v r c} : s.frame h = some fr → fr.place = .running →
      outcome (body fr.body) = some v → fr.future = some r → s.future r = some c →
      Moves body s (.go h)
        ((s.setFuture r (some { c with stored := v })).setFrame h { fr with place := .final })
  | goesOn {h fr b} : s.frame h = some fr → fr.place = .running → body fr.body = .goesOn b →
      Moves body s (.go h) (s.setFrame h { fr with body := b })
  | coAwait {h fr c k} : s.frame h = some fr → fr.place = .running →
      body fr.body = .coAwait c k → Moves body s (.go h) (s.awaitSuspend h fr c)
  | pass {h fr f k c} : s.frame h = some fr → fr.place = .running →
      body fr.body = .coAwaitFuture f k → s.future (.object f) = some c → c.ready = true →
      Moves body s (.go h) (s.setFrame h { fr with body := k c.stored })
  | subscribe {h fr f k c} : s.frame h = some fr → fr.place = .running →
      body fr.body = .coAwaitFuture f k → s.future (.object f) = some c → c.ready = false →
      Moves body s (.go h)
        ((s.setFuture (.object f) (some { c with chain := h :: c.chain })).setFrame h
          { fr with place := .awaiting (.object f) })
  | final {h fr} : s.frame h = some fr → fr.place = .final → fr.future = none →
      Moves body s (.finalSuspend h) (s.destroyFrame h)
  | finalFor {h fr r c} : s.frame h = some fr → fr.place = .final → fr.future = some r →
      s.future r = some c →
      Moves body s (.finalSuspend h) ((s.release r c c.stored).destroyFrame h)

section Fields

variable (s : Asyncs σ T E)

theorem set_eq {r : FutureRef} {c : Async.Future T E} (hc : s.future r = some c)
    (v : Stored T E) : s.set r v = s.setFuture r (some { c with stored := v }) := by
  rw [set, hc]

theorem resolve_eq {r : FutureRef} {c : Async.Future T E} (hc : s.future r = some c) :
    s.resolve r = (s.setFuture r (some { c with chain := [], ready := true }), c.chain) := by
  rw [resolve, hc]

theorem setFuture_setFuture (r : FutureRef) (v w : Option (Async.Future T E)) :
    (s.setFuture r v).setFuture r w = s.setFuture r w := by
  simp [setFuture]

theorem setValue_eq {f : Nat} {c : Async.Future T E} (hc : s.future (.object f) = some c)
    (arg : PromiseArg T E) :
    s.setValue arg (some f) = s.release (.object f) c (storedBy c arg) := by
  have hself : ∀ v, (s.setFuture (.object f) (some v)).future (.object f) = some v :=
    fun v => Function.update_self _ _ _
  cases arg with
  | value v | exception v =>
      simp only [setValue, set_eq s hc, resolve_eq _ (hself _), setFuture_setFuture]
      rfl
  | drop =>
      simp only [setValue, resolve_eq s hc]
      rfl

end Fields

section Inversion

variable {s s' : Asyncs σ T E}

/-- A promise that is not empty points at a future that is pending. -/
theorem Orderly.future_of_promise (hi : Orderly s) {p f : Nat} (hp : s.promise p = some (some f)) :
    ∃ c, s.future (.object f) = some c ∧ c.ready = false :=
  hi.resolver.only_open (.promise p) _ ⟨f, hp, rfl⟩

/-- So does the `_future` of a coroutine. -/
theorem Orderly.future_of_frame (hi : Orderly s) {h : Nat} {fr : Frame σ} {r : FutureRef}
    (hfr : s.frame h = some fr) (hr : fr.future = some r) :
    ∃ c, s.future r = some c ∧ c.ready = false :=
  hi.resolver.only_open (.coroutine h) r ⟨fr, hfr, hr⟩

/-- The coroutine is over: the outcome goes to the future, if there is one. -/
theorem Orderly.moves_ended (hi : Orderly s) {h : Nat} {fr : Frame σ} (hfr : s.frame h = some fr)
    (hp : fr.place = .running) {v : Stored T E} (ho : outcome (body fr.body) = some v) :
    Moves body s (.go h) ((match fr.future with
      | none => s
      | some r => s.set r v).setFrame h { fr with place := .final }) := by
  cases hr : fr.future with
  | none => simpa only [hr] using Moves.ended hfr hp ho hr
  | some r =>
      obtain ⟨c, hc, -⟩ := hi.future_of_frame hfr hr
      simpa only [hr, set_eq s hc] using Moves.endedFor hfr hp ho hr hc

theorem Inv.moves_go (hi : Inv body s) {h : Nat} {fr : Frame σ} (hfr : s.frame h = some fr)
    (hp : fr.place = .running) (hs : go body s h fr = some s') : Moves body s (.go h) s' := by
  simp only [go] at hs
  cases hb : body fr.body with
  | coReturn v =>
      simp only [hb, Option.some.injEq] at hs
      subst hs
      exact hi.moves_ended hfr hp (by rw [hb, outcome])
  | throws e =>
      simp only [hb, Option.some.injEq] at hs
      subst hs
      exact hi.moves_ended hfr hp (by rw [hb, outcome])
  | goesOn b =>
      simp only [hb, Option.some.injEq] at hs
      subst hs
      exact .goesOn hfr hp hb
  | coAwait c k =>
      simp only [hb, Option.some.injEq] at hs
      subst hs
      exact .coAwait hfr hp hb
  | coAwaitFuture f k =>
      simp only [hb] at hs
      cases hc : s.future (.object f) with
      | none => simp [hc] at hs
      | some c =>
          simp only [hc] at hs
          cases hready : c.ready with
          | true =>
              simp only [hready, if_true, Option.some.injEq] at hs
              subst hs
              exact .pass hfr hp hb hc hready
          | false =>
              rw [if_neg (by rw [hready]; exact Bool.false_ne_true), Option.some.injEq] at hs
              subst hs
              exact .subscribe hfr hp hb hc hready

theorem Inv.moves_resume (hi : Inv body s) {h : Nat} (hs : step body s (.resume h) = some s') :
    Moves body s (.resume h) s' := by
  simp only [step] at hs
  cases hfr : s.frame h with
  | none => simp [hfr] at hs
  | some fr =>
      simp only [hfr] at hs
      by_cases hready : h ∈ s.ready
      · rw [if_pos hready] at hs
        cases hp : fr.place with
        | initial =>
            simp only [hp, Option.some.injEq] at hs
            subst hs
            exact .resumeInitial hfr hready hp
        | awaiting r =>
            simp only [hp, awaitResume] at hs
            obtain ⟨c, hc⟩ := hi.awaited h fr r hfr hp
            cases r with
            | object f =>
                obtain ⟨k, hb⟩ := hi.waits h fr f hfr hp
                simp only [hc, hb, Option.some.injEq] at hs
                subst hs
                exact .resumeObject hfr hready hp hc hb
            | coAwaiter h' =>
                obtain ⟨rfl, callee, k, hb⟩ := hi.called h fr h' hfr hp
                simp only [hc, hb, Option.some.injEq] at hs
                subst hs
                exact .resumeCall hfr hready hp hc hb
        | running | final => simp [hp] at hs
      · simp [hready] at hs

theorem Inv.moves (hi : Inv body s) {a : Action σ T E} (hs : step body s a = some s') :
    Moves body s a s' := by
  cases a with
  | create x b =>
      obtain ⟨hx, rfl⟩ := Option.ite_some_none_eq_some.mp hs
      exact .create hx
  | move x y =>
      simp only [step] at hs
      cases hy : s.async y with
      | none => simp [hy] at hs
      | some o =>
          simp only [hy] at hs
          obtain ⟨hx, rfl⟩ := Option.ite_some_none_eq_some.mp hs
          exact .move hy hx
  | destroyAsync x =>
      simp only [step] at hs
      rcases hx : s.async x with _ | _ | h
      · simp [hx] at hs
      · simp only [hx, Option.some.injEq] at hs
        subst hs
        exact .destroyEmpty hx
      · simp only [hx, Option.some.injEq] at hs
        subst hs
        exact .destroyAsync hx
  | start x f =>
      simp only [step] at hs
      rcases hx : s.async x with _ | _ | h
      · simp [hx] at hs
      · simp [hx] at hs
      · simp only [hx] at hs
        cases hfr : s.frame h with
        | none => simp [hfr] at hs
        | some fr =>
            simp only [hfr] at hs
            obtain ⟨hf, rfl⟩ := Option.ite_some_none_eq_some.mp hs
            exact .start hx hfr hf
  | startPromise x p =>
      simp only [step] at hs
      rcases hx : s.async x with _ | _ | h
      · simp [hx] at hs
      · simp [hx] at hs
      · cases hp : s.promise p with
        | none => simp [hx, hp] at hs
        | some o =>
            simp only [hx, hp] at hs
            cases hfr : s.frame h with
            | none => simp [hfr] at hs
            | some fr =>
                simp only [hfr, Option.some.injEq] at hs
                subst hs
                cases o with
                | none => exact .startRefused hx hfr hp
                | some f => exact .startPromise hx hfr hp
  | detach x =>
      simp only [step] at hs
      rcases hx : s.async x with _ | _ | h
      · simp [hx] at hs
      · simp [hx] at hs
      · simp only [hx, Option.some.injEq] at hs
        subst hs
        exact .detach hx
  | getPromise f p =>
      obtain ⟨⟨hf, hp⟩, rfl⟩ := Option.ite_some_none_eq_some.mp hs
      exact .getPromise hf hp
  | call p arg =>
      simp only [step] at hs
      rcases hp : s.promise p with _ | _ | f
      · simp [hp] at hs
      · simp only [hp, Option.some.injEq] at hs
        subst hs
        exact .callEmpty hp
      · obtain ⟨c, hc, -⟩ := hi.future_of_promise hp
        simp only [hp, Option.some.injEq] at hs
        subst hs
        have heq := setValue_eq (s.setPromise p (some none)) hc arg
        exact heq ▸ .call hp hc
  | destroyPromise p =>
      simp only [step] at hs
      rcases hp : s.promise p with _ | _ | f
      · simp [hp] at hs
      · simp only [hp, Option.some.injEq] at hs
        subst hs
        exact .destroyEmptyPromise hp
      · obtain ⟨c, hc, -⟩ := hi.future_of_promise hp
        simp only [hp, Option.some.injEq] at hs
        subst hs
        have heq := setValue_eq (s.setPromise p none) hc .drop
        exact heq ▸ .destroyPromise hp hc
  | resume h => exact hi.moves_resume hs
  | go h =>
      simp only [step] at hs
      cases hfr : s.frame h with
      | none => simp [hfr] at hs
      | some fr =>
          simp only [hfr] at hs
          by_cases hp : fr.place = .running
          · rw [if_pos hp] at hs
            exact hi.moves_go hfr hp hs
          · rw [if_neg hp] at hs
            cases hs
  | finalSuspend h =>
      simp only [step] at hs
      cases hfr : s.frame h with
      | none => simp [hfr] at hs
      | some fr =>
          simp only [hfr] at hs
          by_cases hp : fr.place = .final
          · rw [if_pos hp] at hs
            cases hr : fr.future with
            | none =>
                simp only [hr, Option.some.injEq] at hs
                subst hs
                exact .final hfr hp hr
            | some r =>
                obtain ⟨c, hc, -⟩ := hi.future_of_frame hfr hr
                simp only [hr, resolve_eq s hc, Option.some.injEq] at hs
                subst hs
                exact .finalFor hfr hp hr hc
          · rw [if_neg hp] at hs
            cases hs

end Inversion

/-! ## Frames and futures -/

namespace Local

variable {s : Asyncs σ T E} {h : Nat} {fr : Frame σ}

/-- A coroutine goes on, or is suspended no longer. -/
theorem setFrame (hl : Local body s) (hfr : s.frame h = some fr) (fr' : Frame σ)
    (hp : ∀ r, fr'.place ≠ .awaiting r) (hc : s.future (.coAwaiter h) = none) :
    Local body (s.setFrame h fr') := by
  obtain ⟨hunused, hco, hawaited, hcalled, hwaits, hdone⟩ := hl
  constructor <;> simp only [Asyncs.setFrame, Function.update_apply] <;> grind

/-- A coroutine is created. -/
theorem newFrame (hl : Local body s) (b : σ) : Local body (s.newFrame b) := by
  have hnone : s.frame s.count = none := (hl.unused s.count (Nat.le_refl _)).1
  obtain ⟨hunused, hco, hawaited, hcalled, hwaits, hdone⟩ := hl
  constructor <;> simp only [Asyncs.newFrame, Asyncs.setFrame, Function.update_apply] <;> grind

/-- A coroutine that is not suspended is destroyed. -/
theorem destroyFrame (hl : Local body s) (hfr : s.frame h = some fr)
    (hp : ∀ r, fr.place ≠ .awaiting r) : Local body (s.destroyFrame h) := by
  obtain ⟨hunused, hco, hawaited, hcalled, hwaits, hdone⟩ := hl
  constructor <;> simp only [Asyncs.destroyFrame, Function.update_apply] <;> grind

/-- A future is there, and has no awaiters once it is ready. -/
theorem setFuture (hl : Local body s) {r : FutureRef} {c : Async.Future T E}
    (hr : ∀ h, r = .coAwaiter h →
      ∃ fr, s.frame h = some fr ∧ fr.place = .awaiting (.coAwaiter h))
    (hc : c.ready = true → c.chain = []) : Local body (s.setFuture r (some c)) := by
  obtain ⟨hunused, hco, hawaited, hcalled, hwaits, hdone⟩ := hl
  constructor <;> simp only [Asyncs.setFuture, Function.update_apply] <;> grind

/-- A coroutine awaits a future, which is there. -/
theorem await (hl : Local body s) (hfr : s.frame h = some fr) (hp : fr.place = .running)
    {f : Nat} {k : Stored T E → σ} {c : Async.Future T E} (hb : body fr.body = .coAwaitFuture f k)
    (hf : s.future (.object f) = some c) :
    Local body (s.setFrame h { fr with place := .awaiting (.object f) }) := by
  obtain ⟨hunused, hco, hawaited, hcalled, hwaits, hdone⟩ := hl
  constructor <;> simp only [Asyncs.setFrame, Function.update_apply] <;> grind

/-- Nothing but the objects and the handles on their way are different. -/
theorem congr {s' : Asyncs σ T E} (hl : Local body s) (hframe : s'.frame = s.frame)
    (hcount : s'.count = s.count) (hdestroyed : s'.destroyed = s.destroyed)
    (hfuture : s'.future = s.future) : Local body s' := by
  obtain ⟨hunused, hco, hawaited, hcalled, hwaits, hdone⟩ := hl
  constructor <;> simp only [hframe, hcount, hdestroyed, hfuture] <;> assumption

end Local

/-! ## The steps keep the invariant -/

theorem alive_iff {s : Asyncs σ T E} {h : Nat} : s.Alive h ↔ s.frame h ≠ none := by
  rw [Alive, Option.ne_none_iff_exists']

section Operations

variable {s : Asyncs σ T E} {x y h p f : Nat} {fr : Frame σ} {r : FutureRef}
  {c : Async.Future T E}

namespace Inv

theorem alive (hi : Inv body s) {z : Holder} (hz : s.Holds z h) : s.frame h ≠ none :=
  alive_iff.mp (hi.held.only_open z h hz)

theorem create (hi : Inv body s) {b : σ} (hx : s.async x = none) :
    Inv body ((s.newFrame b).setAsync x (some (some s.count))) where
  held := by
    have hnone : s.frame s.count = none := (hi.unused s.count (Nat.le_refl _)).1
    refine hi.held.add (p := some s.count) (fun h hh ho => ?_) (.async x) (fun y h => ?_)
      fun h => ?_
    · cases hh
      exact alive_iff.mp ho hnone
    · have := hi.alive (z := y) (h := s.count)
      cases y <;> simp only [Holds, newFrame, setAsync, setFrame, Function.update_apply] at * <;>
        grind
    · simp only [alive_iff, newFrame, setAsync, setFrame, Function.update_apply]
      grind
  places y h fr := by
    have := hi.places y h fr
    have := hi.alive (z := y) (h := h)
    have hnone : s.frame s.count = none := (hi.unused s.count (Nat.le_refl _)).1
    cases y <;> simp only [Holds, At, newFrame, setAsync, setFrame, Function.update_apply] at * <;>
      grind
  resolver := by
    have hnone : s.frame s.count = none := (hi.unused s.count (Nat.le_refl _)).1
    refine hi.resolver.congr (fun y r => ?_) fun r => Iff.rfl
    cases y <;> simp only [Resolves, newFrame, setAsync, setFrame, Function.update_apply]
    grind
  readyOnce := hi.readyOnce
  chainOnce := hi.chainOnce
  destroyed := by
    have := hi.unused s.count (Nat.le_refl _)
    have := hi.destroyed
    simp only [newFrame, setAsync, setFrame, Function.update_apply]
    grind
  toLocal := (hi.toLocal.newFrame b).congr rfl rfl rfl rfl

theorem move (hi : Inv body s) {o : Option Nat} (hy : s.async y = some o) (hx : s.async x = none) :
    Inv body ((s.setAsync y (some none)).setAsync x (some o)) where
  held := by
    refine hi.held.move (p := o) (y := .async y) (fun h hh => ?_) (.async x) (fun z h => ?_)
      fun h => Iff.rfl
    · subst hh
      exact hy
    · cases z <;> simp only [Holds, setAsync, Function.update_apply] <;> grind
  places z h fr := by
    have := hi.places z h fr
    have := hi.places (.async y) h fr
    cases z <;> simp only [Holds, At, setAsync, Function.update_apply] at * <;> grind
  resolver := hi.resolver
  readyOnce := hi.readyOnce
  chainOnce := hi.chainOnce
  destroyed := hi.destroyed
  toLocal := hi.toLocal.congr rfl rfl rfl rfl

theorem destroyEmpty (hi : Inv body s) (hx : s.async x = some none) :
    Inv body (s.setAsync x none) where
  held := by
    refine hi.held.congr (fun z h => ?_) fun h => Iff.rfl
    cases z <;> simp only [Holds, setAsync, Function.update_apply]
    grind
  places z h fr := by
    have := hi.places z h fr
    cases z <;> simp only [Holds, At, setAsync, Function.update_apply] at * <;> grind
  resolver := hi.resolver
  readyOnce := hi.readyOnce
  chainOnce := hi.chainOnce
  destroyed := hi.destroyed
  toLocal := hi.toLocal.congr rfl rfl rfl rfl

theorem destroyAsync (hi : Inv body s) (hx : s.async x = some (some h)) :
    Inv body ((s.destroyFrame h).setAsync x none) := by
  obtain ⟨fr, hfr⟩ := hi.held.only_open (.async x) h hx
  obtain ⟨hplace, hfuture⟩ := hi.places (.async x) h fr hx hfr
  constructor
  · constructor
    · refine hi.held.close (p := some h) (y := .async x) (fun _ hh => by cases hh; exact hx)
        (fun z h' => ?_) fun h' => ?_
      · have := hi.held.one (.async x) z h hx
        cases z <;> simp only [Holds, setAsync, destroyFrame, Function.update_apply] at * <;> grind
      · simp only [alive_iff, setAsync, destroyFrame, Function.update_apply]
        grind
    · intro z h' fr'
      have := hi.places z h' fr'
      cases z <;> simp only [Holds, At, setAsync, destroyFrame, Function.update_apply] at * <;>
        grind
    · refine hi.resolver.congr (fun y r => ?_) fun r => Iff.rfl
      cases y <;> simp only [Resolves, setAsync, destroyFrame, Function.update_apply]
      grind
    · exact hi.readyOnce
    · exact hi.chainOnce
    · have := hi.destroyed
      simp only [setAsync, destroyFrame, Function.update_apply]
      grind
  · exact (hi.toLocal.destroyFrame hfr (by simp [hplace])).congr rfl rfl rfl rfl

end Inv

/-- A coroutine that is not in `co_await` of a coroutine has no `co_awaiter`. -/
theorem Local.coAwaiter_eq_none (hl : Local body s) (hfr : s.frame h = some fr)
    (hp : fr.place ≠ .awaiting (.coAwaiter h)) : s.future (.coAwaiter h) = none := by
  rw [Option.eq_none_iff_forall_ne_some]
  intro c hc
  obtain ⟨fr', hfr', hp'⟩ := hl.coAwaiter h c hc
  obtain rfl : fr = fr' := Option.some.inj (hfr.symm.trans hfr')
  exact hp hp'

namespace Orderly

/-- The handle goes from the object to those on their way. -/
theorem held_begin (ho : Owned s.Holds s.Alive) (hx : s.async x = some (some h))
    (hfr : s.frame h = some fr) : Owned (s.begin x h fr f).Holds (s.begin x h fr f).Alive := by
  have hone : ∀ z, s.Holds z h → Holder.async x = z := fun z => ho.one (.async x) z h hx
  refine ho.move (p := some h) (y := .async x) (fun _ hh => by cases hh; exact hx) .handedOn
    (fun z g => ?_) fun g => ?_
  · have := hone z
    cases z <;> simp only [Holds, begin, handOn, setAsync, setFrame, Function.update_apply] at * <;>
      grind
  · simp only [alive_iff, begin, handOn, setAsync, setFrame, Function.update_apply]
    grind

theorem places_begin (hplaces : ∀ z g fr, s.Holds z g → s.frame g = some fr → s.At fr z)
    (ho : Owned s.Holds s.Alive) (hx : s.async x = some (some h)) (hfr : s.frame h = some fr)
    (z : Holder) (g : Nat) (fr' : Frame σ) (hz : (s.begin x h fr f).Holds z g)
    (hg : (s.begin x h fr f).frame g = some fr') : (s.begin x h fr f).At fr' z := by
  have := hplaces z g fr'
  have := hplaces (.async x) h fr hx hfr
  have := ho.one (.async x) z h hx
  cases z <;>
    simp only [Holds, At, begin, handOn, setAsync, setFrame, Function.update_apply] at * <;> grind

theorem destroyed_begin (hi : Orderly s) (hfr : s.frame h = some fr) :
    ∀ g < s.count, s.destroyed g = if ((s.begin x h fr f).frame g).isSome then 0 else 1 := by
  have := hi.destroyed
  simp only [begin, handOn, setAsync, setFrame, Function.update_apply]
  grind

end Orderly

theorem Local.begin (hl : Local body s) (hfr : s.frame h = some fr) (hp : fr.place = .initial) :
    Local body (s.begin x h fr f) :=
  (hl.setFrame hfr { fr with future := some (.object f) } (by simp [hp])
    (hl.coAwaiter_eq_none hfr (by simp [hp]))).congr rfl rfl rfl rfl

namespace Inv

theorem start (hi : Inv body s) (hx : s.async x = some (some h)) (hfr : s.frame h = some fr)
    (hf : s.future (.object f) = none) :
    Inv body ((s.setFuture (.object f) (some {})).begin x h fr f) := by
  obtain ⟨hplace, hfuture⟩ := hi.places (.async x) h fr hx hfr
  have hheld : Owned (s.setFuture (.object f) (some {})).Holds
      (s.setFuture (.object f) (some {})).Alive := by
    refine hi.held.congr (fun z g => ?_) fun g => Iff.rfl
    cases z <;> simp only [Holds, setFuture, Function.update_apply]
    grind
  constructor
  · constructor
    · exact Orderly.held_begin hheld hx hfr
    · refine Orderly.places_begin (fun z g fr' => ?_) hheld hx hfr
      have := hi.places z g fr'
      cases z <;> simp only [Holds, At, setFuture, Function.update_apply] at * <;> grind
    · refine hi.resolver.add (p := some (.object f)) (fun r hr ho => ?_) (.coroutine h)
        (fun y r => ?_) fun r => ?_
      · cases hr
        obtain ⟨c, hc, -⟩ := ho
        rw [hf] at hc
        cases hc
      · cases y <;> simp only [Resolves, begin, handOn, setAsync, setFuture, setFrame,
          Function.update_apply] <;> grind
      · simp only [Pending, begin, handOn, setAsync, setFuture, setFrame, Function.update_apply]
        grind
    · have := hi.places .handedOn h fr
      have hnot : h ∉ s.ready := fun hr => by
        cases hi.held.one (.async x) .handedOn h hx hr
      exact List.nodup_cons.mpr ⟨hnot, hi.readyOnce⟩
    · intro r c
      have := hi.chainOnce r c
      simp only [begin, handOn, setAsync, setFuture, setFrame, Function.update_apply]
      grind
    · exact Orderly.destroyed_begin (x := x) hi.toOrderly hfr
  · exact (hi.toLocal.setFuture (by simp) (by simp)).begin hfr hplace

theorem startPromise (hi : Inv body s) (hx : s.async x = some (some h)) (hfr : s.frame h = some fr)
    (hp : s.promise p = some (some f)) :
    Inv body ((s.setPromise p (some none)).begin x h fr f) := by
  obtain ⟨hplace, hfuture⟩ := hi.places (.async x) h fr hx hfr
  have hheld : Owned (s.setPromise p (some none)).Holds (s.setPromise p (some none)).Alive :=
    hi.held
  constructor
  · constructor
    · exact Orderly.held_begin hheld hx hfr
    · exact Orderly.places_begin hi.places hheld hx hfr
    · refine hi.resolver.move (p := some (.object f)) (y := .promise p) (fun r hr => ?_)
        (.coroutine h) (fun y r => ?_) fun r => Iff.rfl
      · cases hr
        exact ⟨f, hp, rfl⟩
      · cases y <;> simp only [Resolves, begin, handOn, setAsync, setPromise, setFrame,
          Function.update_apply] <;> grind
    · have hnot : h ∉ s.ready := fun hr => by
        cases hi.held.one (.async x) .handedOn h hx hr
      exact List.nodup_cons.mpr ⟨hnot, hi.readyOnce⟩
    · exact hi.chainOnce
    · exact Orderly.destroyed_begin (x := x) hi.toOrderly hfr
  · have hl : Local body (s.setPromise p (some none)) := hi.toLocal.congr rfl rfl rfl rfl
    exact hl.begin hfr hplace

/-- A start with an empty promise changes nothing. -/
theorem startRefused_eq (hi : Inv body s) (hx : s.async x = some (some h))
    (hfr : s.frame h = some fr) (hp : s.promise p = some none) :
    (s.setPromise p (some none)).setFrame h { fr with future := none } = s := by
  obtain ⟨-, hfuture⟩ := hi.places (.async x) h fr hx hfr
  have hsame : { fr with future := none } = fr := by rw [← hfuture]
  rw [hsame, setFrame, setPromise]
  simp only [← hp, ← hfr, Function.update_eq_self]

end Inv

theorem pending_setFuture {r' : FutureRef} : (s.setFuture r (some c)).Pending r' ↔
    r' = r ∧ c.ready = false ∨ r' ≠ r ∧ s.Pending r' := by
  by_cases hr : r' = r
  · subst hr
    simp [Pending, setFuture]
  · simp [Pending, setFuture, hr]

namespace Inv

theorem detach (hi : Inv body s) (hx : s.async x = some (some h)) :
    Inv body ((s.setAsync x (some none)).handOn [h]) where
  held := by
    refine hi.held.move (p := some h) (y := .async x) (fun _ hh => by cases hh; exact hx) .handedOn
      (fun z g => ?_) fun g => Iff.rfl
    have := hi.held.one (.async x) z h hx
    cases z <;> simp only [Holds, handOn, setAsync, Function.update_apply] at * <;> grind
  places z g fr := by
    have := hi.places z g fr
    have := hi.places (.async x) h fr hx
    cases z <;> simp only [Holds, At, handOn, setAsync, Function.update_apply] at * <;> grind
  resolver := hi.resolver
  readyOnce := by
    refine List.nodup_cons.mpr ⟨fun hr => ?_, hi.readyOnce⟩
    cases hi.held.one (.async x) .handedOn h hx hr
  chainOnce := hi.chainOnce
  destroyed := hi.destroyed
  toLocal := hi.toLocal.congr rfl rfl rfl rfl

theorem getPromise (hi : Inv body s) (hf : s.future (.object f) = none) (hp : s.promise p = none) :
    Inv body ((s.setFuture (.object f) (some {})).setPromise p (some (some f))) where
  held := by
    refine hi.held.congr (fun z g => ?_) fun g => Iff.rfl
    cases z <;> simp only [Holds, setPromise, setFuture, Function.update_apply]
    grind
  places z g fr := by
    have := hi.places z g fr
    cases z <;> simp only [Holds, At, setPromise, setFuture, Function.update_apply] at * <;> grind
  resolver := by
    refine hi.resolver.add (p := some (.object f)) (fun r hr ho => ?_) (.promise p) (fun y r => ?_)
      fun r => ?_
    · cases hr
      obtain ⟨c, hc, -⟩ := ho
      rw [hf] at hc
      cases hc
    · cases y <;> simp only [Resolves, setPromise, setFuture, Function.update_apply] <;> grind
    · exact pending_setFuture.trans (by simp [Pending]; grind)
  readyOnce := hi.readyOnce
  chainOnce := by
    have := hi.chainOnce
    simp only [setPromise, setFuture, Function.update_apply]
    grind
  destroyed := hi.destroyed
  toLocal := (hi.toLocal.setFuture (r := .object f) (by simp) (by simp)).congr rfl rfl rfl rfl

/-- An empty promise is called or destroyed. -/
theorem setPromise (hi : Inv body s) (hp : s.promise p = some none) {o : Option (Option Nat)}
    (ho : o.join = none) : Inv body (s.setPromise p o) where
  held := hi.held
  places := hi.places
  resolver := by
    refine hi.resolver.congr (fun y r => ?_) fun r => Iff.rfl
    cases y <;> simp only [Resolves, Asyncs.setPromise, Function.update_apply]
    grind
  readyOnce := hi.readyOnce
  chainOnce := hi.chainOnce
  destroyed := hi.destroyed
  toLocal := hi.toLocal.congr rfl rfl rfl rfl

/-! ### Resolving a future -/

/-- The awaiters go on their way together. -/
theorem held_release (hi : Inv body s) (hc : s.future r = some c) (v : Stored T E) :
    Owned (s.release r c v).Holds (s.release r c v).Alive := by
  refine hi.held.moveAll (P := (· ∈ c.chain)) (y := .awaiters r) (fun g hg => ⟨c, hc, hg⟩)
    .handedOn (fun z g => ?_) fun g => Iff.rfl
  have hone : g ∈ c.chain → s.Holds z g → Holder.awaiters r = z :=
    fun hg => hi.held.one (.awaiters r) z g ⟨c, hc, hg⟩
  cases z <;> simp only [Holds, release, Function.update_apply, List.mem_append] at * <;> grind

theorem places_release (hi : Inv body s) (hc : s.future r = some c) (v : Stored T E) (z : Holder)
    (g : Nat) (fr : Frame σ) (hz : (s.release r c v).Holds z g) (hg : s.frame g = some fr) :
    (s.release r c v).At fr z := by
  have := hi.places z g fr
  have : g ∈ c.chain → fr.place = .awaiting r :=
    fun hm => hi.places (.awaiters r) g fr ⟨c, hc, hm⟩ hg
  cases z <;> simp only [Holds, At, release, Function.update_apply, List.mem_append] at * <;> grind

/-- No awaiter is on its way already. -/
theorem readyOnce_release (hi : Inv body s) (hc : s.future r = some c) (v : Stored T E) :
    (s.release r c v).ready.Nodup := by
  refine List.nodup_append'.mpr ⟨hi.chainOnce r c hc, hi.readyOnce, fun g hg hready => ?_⟩
  cases hi.held.one (.awaiters r) .handedOn g ⟨c, hc, hg⟩ hready

theorem chainOnce_release (hi : Inv body s) (v : Stored T E) (r' : FutureRef)
    (c' : Async.Future T E) (hc' : (s.release r c v).future r' = some c') : c'.chain.Nodup := by
  have := hi.chainOnce r' c'
  simp only [release, Function.update_apply] at hc'
  grind

theorem local_release (hi : Inv body s) (hc : s.future r = some c) (v : Stored T E) :
    Local body (s.release r c v) :=
  (hi.toLocal.setFuture (c := { ready := true, stored := v })
    (fun h hr => hi.coAwaiter h c (hr ▸ hc)) (fun _ => rfl)).congr rfl rfl rfl rfl

/-- A promise resolves its future. -/
theorem release (hi : Inv body s) (hp : s.promise p = some (some f))
    (hc : s.future (.object f) = some c) {o : Option (Option Nat)} (ho : o.join = none)
    (v : Stored T E) : Inv body ((s.setPromise p o).release (.object f) c v) where
  held := hi.held_release hc v
  places := hi.places_release hc v
  resolver := by
    refine hi.resolver.close (p := some (.object f)) (y := .promise p)
      (fun r hr => by cases hr; exact ⟨f, hp, rfl⟩) (fun y r => ?_) fun r => ?_
    · have := hi.resolver.one (.promise p) y (.object f) ⟨f, hp, rfl⟩
      cases y <;>
        simp only [Resolves, Asyncs.release, Asyncs.setPromise, Function.update_apply] at * <;>
        grind
    · simp only [Pending, Asyncs.release, Asyncs.setPromise, Function.update_apply]
      grind
  readyOnce := hi.readyOnce_release hc v
  chainOnce := hi.chainOnce_release (c := c) v
  destroyed := hi.destroyed
  toLocal := (hi.local_release hc v).congr rfl rfl rfl rfl

end Inv

/-! ### Coroutines that run -/

namespace Inv

/-- A handle on its way, or in a chain, is not that of a running coroutine. -/
theorem holder_of_running (hi : Inv body s) (hfr : s.frame h = some fr)
    (hp : fr.place = .running ∨ fr.place = .final) {z : Holder} (hz : s.Holds z h) :
    z = .thread :=
  hi.held.one z .thread h hz ⟨fr, hfr, hp⟩

/-- A running coroutine goes on, and keeps its future. -/
theorem setFrame (hi : Inv body s) (hfr : s.frame h = some fr) (hp : fr.place = .running)
    {fr' : Frame σ} (hp' : fr'.place = .running ∨ fr'.place = .final)
    (hf : fr'.future = fr.future) : Inv body (s.setFrame h fr') where
  held := by
    refine hi.held.congr (fun z g => ?_) fun g => ?_
    · cases z <;> simp only [Holds, Asyncs.setFrame, Function.update_apply]
      grind
    · simp only [alive_iff, Asyncs.setFrame, Function.update_apply]
      grind
  places z g fr'' := by
    have := hi.places z g fr''
    have := hi.holder_of_running hfr (.inl hp) (z := z)
    cases z <;> simp only [Holds, At, Asyncs.setFrame, Function.update_apply] at * <;> grind
  resolver := by
    refine hi.resolver.congr (fun y r => ?_) fun r => Iff.rfl
    cases y <;> simp only [Resolves, Asyncs.setFrame, Function.update_apply]
    grind
  readyOnce := hi.readyOnce
  chainOnce := hi.chainOnce
  destroyed := by
    have := hi.destroyed
    simp only [Asyncs.setFrame, Function.update_apply]
    grind
  toLocal := hi.toLocal.setFrame hfr fr' (by grind) (hi.coAwaiter_eq_none hfr (by simp [hp]))

/-- The outcome is stored in a future. -/
theorem setStored (hi : Inv body s) (hc : s.future r = some c) (v : Stored T E) :
    Inv body (s.setFuture r (some { c with stored := v })) where
  held := by
    refine hi.held.congr (fun z g => ?_) fun g => Iff.rfl
    cases z <;> simp only [Holds, setFuture, Function.update_apply]
    grind
  places z g fr := by
    have := hi.places z g fr
    cases z <;> simp only [Holds, At, setFuture, Function.update_apply] at * <;> grind
  resolver := by
    refine hi.resolver.congr (fun y r => Iff.rfl) fun r' => ?_
    rw [pending_setFuture]
    simp only [Pending]
    grind
  readyOnce := hi.readyOnce
  chainOnce := by
    have := hi.chainOnce
    simp only [setFuture, Function.update_apply]
    grind
  destroyed := hi.destroyed
  toLocal := hi.toLocal.setFuture (fun h hr => hi.coAwaiter h c (hr ▸ hc)) (hi.done r c hc)

/-- The `co_awaiter` of a coroutine on its way is ready, and has no awaiters. -/
theorem coAwaiter_of_ready (hi : Inv body s) (hready : h ∈ s.ready) (hfr : s.frame h = some fr)
    (hc : s.future (.coAwaiter h) = some c) : c.ready = true ∧ c.chain = [] := by
  obtain ⟨fr', hfr', hp⟩ := hi.coAwaiter h c hc
  obtain rfl : fr = fr' := Option.some.inj (hfr.symm.trans hfr')
  obtain hp' | ⟨r, c', hp', hc', hready'⟩ := hi.places .handedOn h fr hready hfr
  · rw [hp] at hp'
    cases hp'
  · obtain rfl : FutureRef.coAwaiter h = r := Place.awaiting.inj (hp.symm.trans hp')
    obtain rfl : c = c' := Option.some.inj (hc.symm.trans hc')
    exact ⟨hready', hi.done _ c hc hready'⟩

/-- A thread resumes a coroutine. -/
theorem resume (hi : Inv body s) (hfr : s.frame h = some fr) (hready : h ∈ s.ready) (b : σ) :
    Inv body (((s.take h).setFuture (.coAwaiter h) none).setFrame h
      { fr with body := b, place := .running }) where
  held := by
    refine hi.held.move (p := some h) (y := .handedOn) (fun _ hh => by cases hh; exact hready)
      .thread (fun z g => ?_) fun g => ?_
    · have hone := hi.held.one .handedOn z h hready
      have hco := fun c => hi.coAwaiter_of_ready (c := c) hready hfr
      have hmem : g ∈ s.ready.erase h ↔ g ≠ h ∧ g ∈ s.ready := hi.readyOnce.mem_erase_iff
      cases z <;>
        simp only [Holds, Asyncs.setFrame, setFuture, take, Function.update_apply, hmem] at * <;>
        grind
    · simp only [alive_iff, Asyncs.setFrame, setFuture, take, Function.update_apply]
      grind
  places z g fr' := by
    have := hi.places z g fr'
    have hone := hi.held.one .handedOn z h hready
    have hcalled := hi.called g fr' h
    have hmem : g ∈ s.ready.erase h ↔ g ≠ h ∧ g ∈ s.ready := hi.readyOnce.mem_erase_iff
    cases z <;>
      simp only [Holds, At, Asyncs.setFrame, setFuture, take, Function.update_apply, hmem] at * <;>
      grind
  resolver := by
    have hco := fun c => hi.coAwaiter_of_ready (c := c) hready hfr
    refine hi.resolver.congr (fun y r => ?_) fun r => ?_
    · cases y <;> simp only [Resolves, Asyncs.setFrame, setFuture, take, Function.update_apply]
      grind
    · simp only [Pending, Asyncs.setFrame, setFuture, take, Function.update_apply]
      grind
  readyOnce := hi.readyOnce.erase h
  chainOnce := by
    have := hi.chainOnce
    simp only [Asyncs.setFrame, setFuture, take, Function.update_apply]
    grind
  destroyed := by
    have := hi.destroyed
    simp only [Asyncs.setFrame, setFuture, take, Function.update_apply]
    grind
  toLocal := by
    obtain ⟨hunused, hco, hawaited, hcalled, hwaits, hdone⟩ := hi.toLocal
    constructor <;>
      simp only [Asyncs.setFrame, setFuture, take, Function.update_apply] <;> grind

/-- A coroutine subscribes to a future that is not ready. -/
theorem subscribe (hi : Inv body s) (hfr : s.frame h = some fr) (hp : fr.place = .running)
    {k : Stored T E → σ} (hb : body fr.body = .coAwaitFuture f k)
    (hc : s.future (.object f) = some c) (hready : c.ready = false) :
    Inv body ((s.setFuture (.object f) (some { c with chain := h :: c.chain })).setFrame h
      { fr with place := .awaiting (.object f) }) where
  held := by
    have hone := fun z => hi.holder_of_running hfr (.inl hp) (z := z)
    refine hi.held.move (p := some h) (y := .thread)
      (fun _ hh => by cases hh; exact ⟨fr, hfr, .inl hp⟩) (.awaiters (.object f)) (fun z g => ?_)
      fun g => ?_
    · have := hone z
      cases z <;>
        simp only [Holds, Asyncs.setFrame, setFuture, Function.update_apply] at * <;> grind
    · simp only [alive_iff, Asyncs.setFrame, setFuture, Function.update_apply]
      grind
  places z g fr' := by
    have := hi.places z g fr'
    have := hi.holder_of_running hfr (.inl hp) (z := z)
    cases z <;>
      simp only [Holds, At, Asyncs.setFrame, setFuture, Function.update_apply] at * <;> grind
  resolver := by
    refine hi.resolver.congr (fun y r => ?_) fun r => ?_
    · cases y <;> simp only [Resolves, Asyncs.setFrame, setFuture, Function.update_apply]
      grind
    · refine pending_setFuture.trans ?_
      simp only [Pending]
      grind
  readyOnce := hi.readyOnce
  chainOnce := by
    have hnot : h ∉ c.chain := fun hm => by
      cases hi.holder_of_running hfr (.inl hp) (z := .awaiters (.object f)) ⟨c, hc, hm⟩
    have := hi.chainOnce
    simp only [Asyncs.setFrame, setFuture, Function.update_apply]
    grind
  destroyed := by
    have := hi.destroyed
    simp only [Asyncs.setFrame, setFuture, Function.update_apply]
    grind
  toLocal := (hi.toLocal.setFuture (r := .object f) (by simp) (by simp [hready])).await hfr hp hb
    (Function.update_self _ _ _)

end Inv

theorem holds_setFuture {r' : FutureRef} {g : Nat} :
    (s.setFuture r (some c)).Holds (.awaiters r') g ↔
      r' = r ∧ g ∈ c.chain ∨ r' ≠ r ∧ s.Holds (.awaiters r') g := by
  by_cases hr : r' = r
  · subst hr
    simp [Holds, setFuture]
  · simp [Holds, setFuture, hr]

namespace Inv

/-- `co_await`: the coroutine is suspended, and the one it called is on its way. -/
theorem awaitSuspend (hi : Inv body s) (hfr : s.frame h = some fr) (hp : fr.place = .running)
    {c : σ} {k : Stored T E → σ} (hb : body fr.body = .coAwait c k) :
    Inv body (s.awaitSuspend h fr c) := by
  have hnew : s.frame s.count = none := (hi.unused s.count (Nat.le_refl _)).1
  have hne : h ≠ s.count := fun hh => by rw [hh, hnew] at hfr; cases hfr
  have hco : s.future (.coAwaiter h) = none := hi.coAwaiter_eq_none hfr (by simp [hp])
  have hmid : Owned ((s.setFrame h { fr with place := .awaiting (.coAwaiter h) }).setFuture
      (.coAwaiter h) (some { chain := [h] })).Holds
      ((s.setFrame h { fr with place := .awaiting (.coAwaiter h) }).setFuture
      (.coAwaiter h) (some { chain := [h] })).Alive := by
    have hone := fun z => hi.holder_of_running hfr (.inl hp) (z := z)
    refine hi.held.move (p := some h) (y := .thread)
      (fun _ hh => by cases hh; exact ⟨fr, hfr, .inl hp⟩) (.awaiters (.coAwaiter h))
      (fun z g => ?_) fun g => ?_
    · have := hone z
      cases z with
      | async y | handedOn | thread =>
          simp only [Holds, Asyncs.setFrame, setFuture, Function.update_apply] at *
          grind
      | awaiters r =>
          refine holds_setFuture.trans ?_
          simp only [Holds, Asyncs.setFrame] at *
          grind
    · simp only [alive_iff, Asyncs.setFrame, setFuture, Function.update_apply]
      grind
  constructor
  · constructor
    · refine hmid.add (p := some s.count) (fun g hg ho => ?_) .handedOn (fun z g => ?_) fun g => ?_
      · cases hg
        rw [alive_iff] at ho
        simp only [setFuture, Asyncs.setFrame, Function.update_apply, if_neg (Ne.symm hne)] at ho
        exact ho hnew
      · have := hi.alive (z := z) (h := s.count)
        cases z <;>
          simp only [Holds, Asyncs.awaitSuspend, Asyncs.newFrame, handOn, Asyncs.setFrame,
            setFuture, Function.update_apply] at * <;> grind
      · simp only [alive_iff, Asyncs.awaitSuspend, Asyncs.newFrame, handOn, Asyncs.setFrame,
          setFuture, Function.update_apply]
        grind
    · intro z g fr'
      have := hi.places z g fr'
      have := hi.alive (z := z) (h := s.count)
      have := hi.holder_of_running hfr (.inl hp) (z := z)
      cases z <;>
        simp only [Holds, At, Asyncs.awaitSuspend, Asyncs.newFrame, handOn, Asyncs.setFrame,
          setFuture, Function.update_apply] at * <;> grind
    · refine hi.resolver.add (p := some (.coAwaiter h)) (fun r hr ho => ?_) (.coroutine s.count)
        (fun y r => ?_) fun r => ?_
      · cases hr
        obtain ⟨c, hc, -⟩ := ho
        rw [hco] at hc
        cases hc
      · cases y <;>
          simp only [Resolves, Asyncs.awaitSuspend, Asyncs.newFrame, handOn, Asyncs.setFrame,
            setFuture, Function.update_apply] <;> grind
      · refine pending_setFuture.trans ?_
        simp only [Pending, Asyncs.newFrame, Asyncs.setFrame]
        grind
    · have hnot : s.count ∉ s.ready := fun hr => hi.alive (z := .handedOn) hr hnew
      exact List.nodup_cons.mpr ⟨hnot, hi.readyOnce⟩
    · have := hi.chainOnce
      simp only [Asyncs.awaitSuspend, Asyncs.newFrame, handOn, Asyncs.setFrame, setFuture,
        Function.update_apply]
      grind
    · have := hi.unused s.count (Nat.le_refl _)
      have := hi.destroyed
      simp only [Asyncs.awaitSuspend, Asyncs.newFrame, handOn, Asyncs.setFrame, setFuture,
        Function.update_apply]
      grind
  · obtain ⟨hunused, hco, hawaited, hcalled, hwaits, hdone⟩ := hi.toLocal
    constructor <;>
      simp only [Asyncs.awaitSuspend, Asyncs.newFrame, handOn, Asyncs.setFrame, setFuture,
        Function.update_apply] <;> grind

/-- A detached coroutine comes to its end. -/
theorem destroyFrame (hi : Inv body s) (hfr : s.frame h = some fr) (hp : fr.place = .final)
    (hf : fr.future = none) : Inv body (s.destroyFrame h) where
  held := by
    refine hi.held.close (p := some h) (y := .thread)
      (fun _ hh => by cases hh; exact ⟨fr, hfr, .inr hp⟩) (fun z g => ?_) fun g => ?_
    · have := hi.holder_of_running hfr (.inr hp) (z := z)
      cases z <;> simp only [Holds, Asyncs.destroyFrame, Function.update_apply] at * <;> grind
    · simp only [alive_iff, Asyncs.destroyFrame, Function.update_apply]
      grind
  places z g fr' := by
    have := hi.places z g fr'
    cases z <;> simp only [Holds, At, Asyncs.destroyFrame, Function.update_apply] at * <;> grind
  resolver := by
    refine hi.resolver.congr (fun y r => ?_) fun r => Iff.rfl
    cases y <;> simp only [Resolves, Asyncs.destroyFrame, Function.update_apply]
    grind
  readyOnce := hi.readyOnce
  chainOnce := hi.chainOnce
  destroyed := by
    have := hi.destroyed
    simp only [Asyncs.destroyFrame, Function.update_apply]
    grind
  toLocal := hi.toLocal.destroyFrame hfr (by simp [hp])

/-- A coroutine that was started for a future comes to its end. -/
theorem finalFor (hi : Inv body s) (hfr : s.frame h = some fr) (hp : fr.place = .final)
    (hf : fr.future = some r) (hc : s.future r = some c) (v : Stored T E) :
    Inv body ((s.release r c v).destroyFrame h) where
  held := by
    have hrunning := fun z => hi.holder_of_running hfr (.inr hp) (z := z)
    refine (hi.held_release hc v).close (p := some h) (y := .thread)
      (fun _ hh => by cases hh; exact ⟨fr, hfr, .inr hp⟩) (fun z g => ?_) fun g => ?_
    · have := hrunning z
      have : h ∉ c.chain := fun hm => by cases hrunning (.awaiters r) ⟨c, hc, hm⟩
      cases z <;>
        simp only [Holds, Asyncs.destroyFrame, Asyncs.release, Function.update_apply,
          List.mem_append] at * <;> grind
    · simp only [alive_iff, Asyncs.destroyFrame, Asyncs.release, Function.update_apply]
      grind
  places z g fr' := by
    have := hi.places_release hc v z g fr'
    cases z <;>
      simp only [Holds, At, Asyncs.destroyFrame, Asyncs.release, Function.update_apply] at * <;>
      grind
  resolver := by
    refine hi.resolver.close (p := some r) (y := .coroutine h)
      (fun r hr => by cases hr; exact ⟨fr, hfr, hf⟩) (fun y r' => ?_) fun r' => ?_
    · have := hi.resolver.one (.coroutine h) y r ⟨fr, hfr, hf⟩
      cases y <;>
        simp only [Resolves, Asyncs.destroyFrame, Asyncs.release, Function.update_apply] at * <;>
        grind
    · simp only [Pending, Asyncs.destroyFrame, Asyncs.release, Function.update_apply]
      grind
  readyOnce := hi.readyOnce_release hc v
  chainOnce := hi.chainOnce_release (c := c) v
  destroyed := by
    have := hi.destroyed
    simp only [Asyncs.destroyFrame, Asyncs.release, Function.update_apply]
    grind
  toLocal := (hi.local_release hc v).destroyFrame hfr (by simp [hp])

/-- There is no `co_awaiter` to be destroyed. -/
theorem take_setFuture (hi : Inv body s) (hfr : s.frame h = some fr)
    (hp : fr.place ≠ .awaiting (.coAwaiter h)) :
    (s.take h).setFuture (.coAwaiter h) none = s.take h := by
  have hnone : none = (s.take h).future (.coAwaiter h) := (hi.coAwaiter_eq_none hfr hp).symm
  rw [setFuture, hnone, Function.update_eq_self]

/-- Every step keeps the invariant. -/
theorem step (hi : Inv body s) {a : Action σ T E} {s' : Asyncs σ T E}
    (hs : Asyncs.step body s a = some s') : Inv body s' := by
  cases hi.moves hs with
  | create hx => exact hi.create hx
  | move hy hx => exact hi.move hy hx
  | destroyEmpty hx => exact hi.destroyEmpty hx
  | destroyAsync hx => exact hi.destroyAsync hx
  | start hx hfr hf => exact hi.start hx hfr hf
  | startPromise hx hfr hp => exact hi.startPromise hx hfr hp
  | startRefused hx hfr hp => exact (hi.startRefused_eq hx hfr hp).symm ▸ hi
  | detach hx => exact hi.detach hx
  | getPromise hf hp => exact hi.getPromise hf hp
  | call hp hc => exact hi.release hp hc rfl _
  | callEmpty hp => exact hi.setPromise hp rfl
  | destroyPromise hp hc => exact hi.release hp hc rfl _
  | destroyEmptyPromise hp => exact hi.setPromise hp rfl
  | resumeInitial hfr hready hp =>
      have heq := hi.take_setFuture hfr (by simp [hp])
      exact heq ▸ hi.resume hfr hready _
  | resumeObject hfr hready hp hc hb =>
      have heq := hi.take_setFuture hfr (by simp [hp])
      exact heq ▸ hi.resume hfr hready _
  | resumeCall hfr hready hp hc hb => exact hi.resume hfr hready _
  | ended hfr hp ho hf => exact hi.setFrame hfr hp (.inr rfl) rfl
  | endedFor hfr hp ho hf hc => exact (hi.setStored hc _).setFrame hfr hp (.inr rfl) rfl
  | goesOn hfr hp hb => exact hi.setFrame hfr hp (.inl hp) rfl
  | coAwait hfr hp hb => exact hi.awaitSuspend hfr hp hb
  | pass hfr hp hb hc hready => exact hi.setFrame hfr hp (.inl hp) rfl
  | subscribe hfr hp hb hc hready => exact hi.subscribe hfr hp hb hc hready
  | final hfr hp hf => exact hi.destroyFrame hfr hp hf
  | finalFor hfr hp hf hc => exact hi.finalFor hfr hp hf hc _

end Inv

/-- A handle on its way is that of a coroutine suspended where it can go on. -/
theorem Inv.resumable (hi : Inv body s) (hready : h ∈ s.ready) :
    (Asyncs.step body s (.resume h)).isSome := by
  obtain ⟨fr, hfr⟩ := hi.held.only_open .handedOn h hready
  simp only [Asyncs.step, hfr, if_pos hready]
  obtain hp | ⟨r, c, hp, hc, -⟩ := hi.places .handedOn h fr hready hfr
  · simp only [hp, Option.isSome_some]
  · simp only [hp, awaitResume, hc]
    cases r with
    | object f =>
        obtain ⟨k, hb⟩ := hi.waits h fr f hfr hp
        simp only [hb, Option.isSome_some]
    | coAwaiter h' =>
        obtain ⟨-, callee, k, hb⟩ := hi.called h fr h' hfr hp
        simp only [hb, Option.isSome_some]

theorem inv_init : Inv body ({} : Asyncs σ T E) where
  held := .of_none (fun h ho => by simp [alive_iff] at ho) fun z h hz => by
    cases z <;> simp [Holds] at hz
  places z h fr _ hfr := by cases hfr
  resolver := .of_none (fun r ho => by simp [Pending] at ho) fun y r hy => by
    cases y <;> simp [Resolves] at hy
  readyOnce := List.nodup_nil
  chainOnce r c hc := by cases hc
  destroyed h hh := absurd hh (Nat.not_lt_zero h)
  unused h _ := ⟨rfl, rfl⟩
  coAwaiter h c hc := by cases hc
  awaited h fr r hfr := by cases hfr
  called h fr h' hfr := by cases hfr
  waits h fr f hfr := by cases hfr
  done r c hc := by cases hc

theorem inv_exec (as : List (Action σ T E)) : Inv body (Run.exec (step body) {} as) :=
  Run.exec_inv (fun _ _ _ hi hs => hi.step hs) inv_init as

/-- **The life of coroutines and futures**, in every run: a coroutine that is alive has one
holder, and is destroyed once; a pending future has one resolver; and a handle that is on its
way can be resumed, when what the coroutine awaits is ready. -/
theorem lifecycle_exec (body : σ → AsyncStep σ T E) (as : List (Action σ T E)) :
    Orderly (Run.exec (step body) {} as) ∧
      ∀ h ∈ (Run.exec (step body) {} as).ready,
        (step body (Run.exec (step body) {} as) (.resume h)).isSome := by
  have hi : Inv body (Run.exec (step body) {} as) := inv_exec as
  exact ⟨hi.toOrderly, fun h hh => hi.resumable hh⟩

end Operations

end Asyncs

end Cocls
