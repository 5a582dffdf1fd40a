import Mathlib.Logic.Relation
import Cocls.Async.Lifecycle

/-!
# Cocls.Async.Calls

`co_await` of a coroutine is a call.

In direct style (`procs`) a coroutine is a procedure: it calls the coroutines it
awaits, and what the futures have is given by the environment.  The frames, the
`co_awaiter`s and the handles that are on their way agree with it in every run:

* what a future gets from the coroutine that was started for it is what that one
  returns in direct style (`returns_exec`);
* whatever it returns in direct style it comes to return, however the run began
  (`completes_exec`).

`Course` is the invariant of the first.  The second leads one coroutine to its end
(`Ends`): by induction on the direct-style derivation for one that runs, and on
the calls that are under way for one that is suspended.
-/

namespace Cocls

namespace Asyncs

open Async
open Procedures (Returns Follows Gives)

variable {σ T E : Type*} {body : σ → AsyncStep σ T E} {s s' : Asyncs σ T E}

/-- The body of a coroutine in direct style: `co_await` of a coroutine is a call, and a future is
given by the environment. -/
def procs (body : σ → AsyncStep σ T E) (b : σ) : Procedures.Step σ Nat (Stored T E) :=
  match body b with
  | .coReturn v => .done (.value v)
  | .throws e => .done (.exception e)
  | .goesOn b => .goOn b
  | .coAwait c k => .call c k
  | .coAwaitFuture f k => .wait f k

/-- What the futures that are ready have. -/
def given (s : Asyncs σ T E) (f : Nat) : Option (Stored T E) :=
  match s.future (.object f) with
  | none => none
  | some c => if c.ready then some c.stored else none

theorem given_eq_some {f : Nat} {v : Stored T E} :
    s.given f = some v ↔ ∃ c, s.future (.object f) = some c ∧ c.ready = true ∧ c.stored = v := by
  rw [given]
  cases s.future (.object f) with
  | none => simp
  | some c => cases hc : c.ready <;> simp [hc]

section Bodies

variable {b : σ}

theorem procs_eq_done {v : Stored T E} : procs body b = .done v ↔ outcome (body b) = some v := by
  rw [procs]
  cases body b <;> simp [outcome]

theorem procs_eq_goOn {b' : σ} : procs body b = .goOn b' ↔ body b = .goesOn b' := by
  rw [procs]
  cases body b <;> simp

theorem procs_eq_call {c : σ} {k : Stored T E → σ} :
    procs body b = .call c k ↔ body b = .coAwait c k := by
  rw [procs]
  cases body b <;> simp

theorem procs_eq_wait {f : Nat} {k : Stored T E → σ} :
    procs body b = .wait f k ↔ body b = .coAwaitFuture f k := by
  rw [procs]
  cases body b <;> simp

end Bodies

/-- Where every coroutine and every future has come to, if the environment gives `env`. -/
structure Course (body : σ → AsyncStep σ T E) (env : Nat → Option (Stored T E))
    (s : Asyncs σ T E) : Prop where
  follows : ∀ h fr, s.frame h = some fr → fr.place ≠ .final →
    Follows (procs body) env fr.start fr.body
  /-- a pending future has no value, until the coroutine that resolves it is over -/
  unset : ∀ r c, s.future r = some c → c.ready = false →
    (∀ h fr, s.frame h = some fr → fr.future = some r → fr.place ≠ .final) → c.stored = .notValue
  ended : ∀ h fr r c, s.frame h = some fr → fr.place = .final → fr.future = some r →
    s.future r = some c → Returns (procs body) env fr.start c.stored
  callee : ∀ h fr h', s.frame h = some fr → fr.future = some (.coAwaiter h') →
    h' < h ∧ ∃ fr' k, s.frame h' = some fr' ∧ body fr'.body = .coAwait fr.start k
  answered : ∀ h fr c callee k, s.frame h = some fr → s.future (.coAwaiter h) = some c →
    c.ready = true → body fr.body = .coAwait callee k → Returns (procs body) env callee c.stored
  bound : ∀ h fr f, s.frame h = some fr → fr.future = some (.object f) →
    s.bound f = some fr.start
  owed : ∀ f b c, s.bound f = some b → s.future (.object f) = some c → c.ready = false →
    ∃ h fr, s.frame h = some fr ∧ fr.future = some (.object f)
  results : ∀ f b c, s.bound f = some b → s.future (.object f) = some c → c.ready = true →
    Returns (procs body) env b c.stored
  known : ∀ f b, s.bound f = some b → ∃ c, s.future (.object f) = some c

namespace Course

variable {env env' : Nat → Option (Stored T E)}

/-- The environment gives more. -/
theorem mono (hc : Course body env s) (hg : Gives env env') : Course body env' s where
  follows h fr hfr hp := (hc.follows h fr hfr hp).mono hg
  unset := hc.unset
  ended h fr r c hfr hp hf hc' := (hc.ended h fr r c hfr hp hf hc').mono hg
  callee := hc.callee
  answered h fr c callee k hfr hc' hready hb :=
    (hc.answered h fr c callee k hfr hc' hready hb).mono hg
  bound := hc.bound
  owed := hc.owed
  results f b c hb hc' hready := (hc.results f b c hb hc' hready).mono hg
  known := hc.known

/-- Nothing but the objects and the handles on their way are different. -/
theorem congr (hc : Course body env s) (hframe : s'.frame = s.frame)
    (hfuture : s'.future = s.future) (hbound : s'.bound = s.bound) : Course body env s' := by
  obtain ⟨hfollows, hunset, hended, hcallee, hanswered, hb, howed, hresults, hknown⟩ := hc
  constructor <;> simp only [hframe, hfuture, hbound] <;> assumption

end Course

/-! ## The steps keep the course -/

namespace Course

section Operations

variable {env : Nat → Option (Stored T E)} {x h p f : Nat} {fr : Frame σ} {r : FutureRef}
  {c : Async.Future T E}

theorem newFrame (hc : Course body env s) (hi : Inv body s) (b : σ) :
    Course body env (s.newFrame b) := by
  have hnew : s.frame s.count = none := (hi.unused s.count (Nat.le_refl _)).1
  obtain ⟨hfollows, hunset, hended, hcallee, hanswered, hb, howed, hresults, hknown⟩ := hc
  have hrefl : Follows (procs body) env b b := .refl b
  have hcoAwaiter := hi.coAwaiter
  constructor <;> simp only [Asyncs.newFrame, setFrame, Function.update_apply] <;> grind

/-- The `_future` of a coroutine is pending. -/
theorem pending (hi : Inv body s) (g : Nat) (fr : Frame σ) (r : FutureRef)
    (hfr : s.frame g = some fr) (hr : fr.future = some r) :
    ∃ c, s.future r = some c ∧ c.ready = false :=
  hi.toOrderly.future_of_frame hfr hr

/-- There is one coroutine with this `_future`. -/
theorem only_resolver (hi : Inv body s) (hfr : s.frame h = some fr) (hf : fr.future = some r)
    (g : Nat) (fr' : Frame σ) (hg : s.frame g = some fr') (hr : fr'.future = some r) : g = h :=
  (Resolver.coroutine.inj
    (hi.resolver.one (.coroutine g) (.coroutine h) r ⟨fr', hg, hr⟩ ⟨fr, hfr, hf⟩))

/-- A coroutine that has no future is destroyed. -/
theorem destroyFrame (hc : Course body env s) (hi : Inv body s) (hfr : s.frame h = some fr)
    (hp : ∀ r, fr.place ≠ .awaiting r) (hf : fr.future = none) :
    Course body env (s.destroyFrame h) := by
  have hcoAwaiter := hi.coAwaiter
  have hpending := pending hi
  obtain ⟨hfollows, hunset, hended, hcallee, hanswered, hb, howed, hresults, hknown⟩ := hc
  constructor <;> simp only [Asyncs.destroyFrame, Function.update_apply] <;> grind

/-- There is a new future. -/
theorem newFuture (hc : Course body env s) (hi : Inv body s) (hf : s.future (.object f) = none) :
    Course body env (s.setFuture (.object f) (some {})) := by
  have hpending := pending hi
  obtain ⟨hfollows, hunset, hended, hcallee, hanswered, hb, howed, hresults, hknown⟩ := hc
  constructor <;> simp only [setFuture, Function.update_apply] <;> grind

/-- A coroutine is started for a future that has no other resolver. -/
theorem begin (hc : Course body env s) (hco : s.future (.coAwaiter h) = none)
    (hpending : ∀ g fr r, s.frame g = some fr → fr.future = some r →
      ∃ c, s.future r = some c ∧ c.ready = false)
    (hfr : s.frame h = some fr)
    (hp : fr.place = .initial) (hf : fr.future = none) (hfuture : s.future (.object f) = some c)
    (hready : c.ready = false)
    (hnone : ∀ g fr, s.frame g = some fr → fr.future ≠ some (.object f)) :
    Course body env (s.begin x h fr f) := by
  have hstored : c.stored = .notValue := hc.unset _ c hfuture hready fun g fr hg hr =>
    absurd hr (hnone g fr hg)
  obtain ⟨hfollows, hunset, hended, hcallee, hanswered, hb, howed, hresults, hknown⟩ := hc
  constructor <;>
    simp only [Asyncs.begin, handOn, setAsync, setFrame, Function.update_apply] <;> grind

/-- A promise resolves its future. -/
theorem release (hc : Course body env s) (hi : Inv body s) (hp : s.promise p = some (some f))
    (hfuture : s.future (.object f) = some c) (v : Stored T E) :
    Course body env (s.release (.object f) c v) := by
  have hnone : ∀ g fr, s.frame g = some fr → fr.future ≠ some (.object f) := fun g fr hg hr => by
    cases hi.resolver.one (.promise p) (.coroutine g) _ ⟨f, hp, rfl⟩ ⟨fr, hg, hr⟩
  obtain ⟨c', hc', hready⟩ := hi.future_of_promise hp
  obtain rfl : c = c' := Option.some.inj (hfuture.symm.trans hc')
  obtain ⟨hfollows, hunset, hended, hcallee, hanswered, hb, howed, hresults, hknown⟩ := hc
  constructor <;> simp only [Asyncs.release, Function.update_apply] <;> grind

/-- A running coroutine goes on. -/
theorem setFrame (hc : Course body env s) (hi : Inv body s) (hfr : s.frame h = some fr)
    (fr' : Frame σ) (hp : fr.place ≠ .awaiting (.coAwaiter h)) (hp' : fr'.place = .running)
    (hplace : fr.place ≠ .final) (hstart : fr'.start = fr.start) (hfuture : fr'.future = fr.future)
    (hb : Follows (procs body) env fr.start fr'.body) : Course body env (s.setFrame h fr') := by
  have hco : s.future (.coAwaiter h) = none := hi.coAwaiter_eq_none hfr hp
  have hpending := pending hi
  obtain ⟨hfollows, hunset, hended, hcallee, hanswered, hb, howed, hresults, hknown⟩ := hc
  constructor <;> simp only [Asyncs.setFrame, Function.update_apply] <;> grind

/-- A coroutine is suspended for a future. -/
theorem subscribe (hc : Course body env s) (hfr : s.frame h = some fr)
    (hp : fr.place = .running) (hfuture : s.future (.object f) = some c)
    (hready : c.ready = false) :
    Course body env ((s.setFuture (.object f) (some { c with chain := h :: c.chain })).setFrame h
      { fr with place := .awaiting (.object f) }) := by
  obtain ⟨hfollows, hunset, hended, hcallee, hanswered, hb, howed, hresults, hknown⟩ := hc
  constructor <;> simp only [Asyncs.setFrame, setFuture, Function.update_apply] <;> grind

/-- The coroutine gets what the one it called returned. -/
theorem answer (hc : Course body env s) (hi : Inv body s) (hready : h ∈ s.ready)
    (hfr : s.frame h = some fr) (hp : fr.place = .awaiting (.coAwaiter h))
    (hfuture : s.future (.coAwaiter h) = some c) {callee : σ} {k : Stored T E → σ}
    (hb : body fr.body = .coAwait callee k) :
    Course body env (((s.take h).setFuture (.coAwaiter h) none).setFrame h
      { fr with body := k c.stored, place := .running }) := by
  have hpending := pending hi
  obtain ⟨hcready, -⟩ := hi.coAwaiter_of_ready hready hfr hfuture
  have hb' : Follows (procs body) env fr.start (k c.stored) :=
    (hc.follows h fr hfr (by simp [hp])).called (procs_eq_call.mpr hb)
      (hc.answered h fr c callee k hfr hfuture hcready hb)
  obtain ⟨hfollows, hunset, hended, hcallee, hanswered, hb, howed, hresults, hknown⟩ := hc
  constructor <;> simp only [Asyncs.setFrame, setFuture, take, Function.update_apply] <;> grind

/-- A coroutine calls another one. -/
theorem awaitSuspend (hc : Course body env s) (hi : Inv body s) (hfr : s.frame h = some fr)
    (hp : fr.place = .running) {callee : σ} {k : Stored T E → σ}
    (hb : body fr.body = .coAwait callee k) : Course body env (s.awaitSuspend h fr callee) := by
  have hnew : s.frame s.count = none := (hi.unused s.count (Nat.le_refl _)).1
  have hne : h < s.count := by
    by_contra hlt
    rw [(hi.unused h (Nat.le_of_not_lt hlt)).1] at hfr
    cases hfr
  have hco : s.future (.coAwaiter h) = none := hi.coAwaiter_eq_none hfr (by simp [hp])
  have hcoAwaiter := hi.coAwaiter
  have hpending := pending hi
  have hrefl : Follows (procs body) env callee callee := .refl callee
  obtain ⟨hfollows, hunset, hended, hcallee, hanswered, hb, howed, hresults, hknown⟩ := hc
  constructor <;> simp only [Asyncs.awaitSuspend, Asyncs.newFrame, handOn, Asyncs.setFrame,
    setFuture, Function.update_apply] <;> grind

/-- A coroutine is over, and its outcome is stored. -/
theorem endedFor (hc : Course body env s) (hi : Inv body s) (hfr : s.frame h = some fr)
    (hp : fr.place = .running) {v : Stored T E} (ho : outcome (body fr.body) = some v)
    (hf : fr.future = some r) (hfuture : s.future r = some c) :
    Course body env ((s.setFuture r (some { c with stored := v })).setFrame h
      { fr with place := .final }) := by
  have hv : Returns (procs body) env fr.start v :=
    (hc.follows h fr hfr (by simp [hp])).returns.mp (.done (procs_eq_done.mpr ho))
  have hpending := pending hi
  have hco : s.future (.coAwaiter h) = none := hi.coAwaiter_eq_none hfr (by simp [hp])
  have hone := only_resolver hi hfr hf
  obtain ⟨hfollows, hunset, hended, hcallee, hanswered, hb, howed, hresults, hknown⟩ := hc
  constructor <;> simp only [Asyncs.setFrame, setFuture, Function.update_apply] <;> grind

/-- A coroutine is over, and its outcome is nobody's. -/
theorem endedDetached (hc : Course body env s) (hi : Inv body s) (hfr : s.frame h = some fr)
    (hp : fr.place = .running) (hf : fr.future = none) :
    Course body env (s.setFrame h { fr with place := .final }) := by
  have hco : s.future (.coAwaiter h) = none := hi.coAwaiter_eq_none hfr (by simp [hp])
  have hpending := pending hi
  obtain ⟨hfollows, hunset, hended, hcallee, hanswered, hb, howed, hresults, hknown⟩ := hc
  constructor <;> simp only [Asyncs.setFrame, Function.update_apply] <;> grind

/-- A coroutine at its end resolves the future it was started for. -/
theorem finalFor (hc : Course body env s) (hi : Inv body s) (hfr : s.frame h = some fr)
    (hp : fr.place = .final) (hf : fr.future = some r) (hfuture : s.future r = some c) :
    Course body env ((s.release r c c.stored).destroyFrame h) := by
  have hpending := pending hi
  have hcoAwaiter := hi.coAwaiter
  have hone := only_resolver hi hfr hf
  obtain ⟨hfollows, hunset, hended, hcallee, hanswered, hb, howed, hresults, hknown⟩ := hc
  constructor <;> simp only [Asyncs.destroyFrame, Asyncs.release, Function.update_apply] <;> grind

end Operations

end Course

section Run

/-- What the futures have stays when another one is changed. -/
theorem gives_update {r : FutureRef} {v : Option (Async.Future T E)}
    (hf : s'.future = Function.update s.future r v) (hr : ∀ f, r = .object f → s.given f = none) :
    Gives s.given s'.given := by
  intro f o ho
  have hne : FutureRef.object f ≠ r := fun h => by rw [hr f h.symm] at ho; cases ho
  obtain ⟨c, hc, hready, hstored⟩ := given_eq_some.mp ho
  exact given_eq_some.mpr ⟨c, by rw [hf, Function.update_of_ne hne]; exact hc, hready, hstored⟩

theorem given_eq_none {f : Nat} {c : Async.Future T E} (hc : s.future (.object f) = some c)
    (hready : c.ready = false) : s.given f = none := by
  rw [given, hc]
  simp [hready]

theorem given_of_ready {f : Nat} {c : Async.Future T E} (hc : s.future (.object f) = some c)
    (hready : c.ready = true) : s.given f = some c.stored :=
  given_eq_some.mpr ⟨c, hc, hready, rfl⟩

/-- A pending future has given nothing. -/
theorem given_of_pending {r : FutureRef} {c : Async.Future T E} (hc : s.future r = some c)
    (hready : c.ready = false) (f : Nat) (hf : r = .object f) : s.given f = none := by
  subst hf
  exact given_eq_none hc hready

/-- Every step keeps the course of all coroutines, and takes back nothing. -/
theorem Course.step (hc : Course body s.given s) (hi : Inv body s) {a : Action σ T E}
    (hs : Asyncs.step body s a = some s') :
    Gives s.given s'.given ∧ Course body s'.given s' := by
  cases hi.moves hs with
  | create hx => exact ⟨.refl _, (hc.newFrame hi _).congr rfl rfl rfl⟩
  | move hy hx => exact ⟨.refl _, hc.congr rfl rfl rfl⟩
  | destroyEmpty hx => exact ⟨.refl _, hc.congr rfl rfl rfl⟩
  | @destroyAsync x h hx =>
      obtain ⟨fr, hfr⟩ := hi.held.only_open (.async x) h hx
      obtain ⟨hp, hf⟩ := hi.places (.async x) h fr hx hfr
      exact ⟨.refl _, (hc.destroyFrame hi hfr (by simp [hp]) hf).congr rfl rfl rfl⟩
  | @start x f h fr hx hfr hf =>
      obtain ⟨hp, hfuture⟩ := hi.places (.async x) h fr hx hfr
      have hg : Gives s.given (s.setFuture (.object f) (some {})).given :=
        gives_update rfl fun g hg => by cases hg; rw [given, hf]
      have hne : ∀ g fr r, s.frame g = some fr → fr.future = some r → r ≠ .object f :=
        fun g fr r hfr hr hrf => by
          obtain ⟨c, hc', -⟩ := hi.future_of_frame hfr hr
          rw [hrf, hf] at hc'
          cases hc'
      refine ⟨hg, ((hc.mono hg).newFuture hi hf).begin ?_ (fun g fr r hfr hr => ?_) hfr hp hfuture
        (Function.update_self _ _ _) rfl fun g fr hfr hr => hne g fr _ hfr hr rfl⟩
      · exact hi.coAwaiter_eq_none hfr (by simp [hp])
      · obtain ⟨c, hc', hready⟩ := hi.future_of_frame hfr hr
        refine ⟨c, ?_, hready⟩
        rw [setFuture_future, Function.update_of_ne (hne g fr r hfr hr)]
        exact hc'
  | @startPromise x p h fr f hx hfr hp =>
      obtain ⟨hplace, hfuture⟩ := hi.places (.async x) h fr hx hfr
      obtain ⟨c, hc', hready⟩ := hi.future_of_promise hp
      refine ⟨.refl _, Course.begin (s := s.setPromise p (some none)) (hc.congr rfl rfl rfl)
        (hi.coAwaiter_eq_none hfr (by simp [hplace])) (fun g fr r hg hr => hi.future_of_frame hg hr)
        hfr hplace hfuture hc' hready fun g fr hg hr => ?_⟩
      cases hi.resolver.one (.promise p) (.coroutine g) _ ⟨f, hp, rfl⟩ ⟨fr, hg, hr⟩
  | @startRefused x p h fr hx hfr hp =>
      rw [hi.startRefused_eq hx hfr hp]
      exact ⟨.refl _, hc⟩
  | detach hx => exact ⟨.refl _, hc.congr rfl rfl rfl⟩
  | @getPromise f p hf hp =>
      have hg : Gives s.given (s.setFuture (.object f) (some {})).given :=
        gives_update rfl fun g hg => by cases hg; rw [given, hf]
      exact ⟨hg, ((hc.mono hg).newFuture hi hf).congr rfl rfl rfl⟩
  | @call p arg f c hp hfuture =>
      obtain ⟨c', hc', hready⟩ := hi.future_of_promise hp
      obtain rfl : c = c' := Option.some.inj (hfuture.symm.trans hc')
      have hg : Gives s.given (s.release (.object f) c (storedBy c arg)).given :=
        gives_update rfl (given_of_pending hfuture hready)
      exact ⟨hg, ((hc.mono hg).release hi hp hfuture _).congr rfl rfl rfl⟩
  | callEmpty hp => exact ⟨.refl _, hc.congr rfl rfl rfl⟩
  | @destroyPromise p f c hp hfuture =>
      obtain ⟨c', hc', hready⟩ := hi.future_of_promise hp
      obtain rfl : c = c' := Option.some.inj (hfuture.symm.trans hc')
      have hg : Gives s.given (s.release (.object f) c c.stored).given :=
        gives_update rfl (given_of_pending hfuture hready)
      exact ⟨hg, ((hc.mono hg).release hi hp hfuture _).congr rfl rfl rfl⟩
  | destroyEmptyPromise hp => exact ⟨.refl _, hc.congr rfl rfl rfl⟩
  | @resumeInitial h fr hfr hready hp =>
      exact ⟨.refl _, (hc.setFrame hi hfr { fr with place := .running } (by simp [hp]) rfl
        (by simp [hp]) rfl rfl (hc.follows h fr hfr (by simp [hp]))).congr rfl rfl rfl⟩
  | @resumeObject h fr f c k hfr hready hp hfuture hb =>
      obtain hp' | ⟨r, c', hp', hc', hcready⟩ := hi.places .handedOn h fr hready hfr
      · rw [hp] at hp'
        cases hp'
      · obtain rfl : FutureRef.object f = r := Place.awaiting.inj (hp.symm.trans hp')
        obtain rfl : c = c' := Option.some.inj (hfuture.symm.trans hc')
        have hb' : Follows (procs body) s.given fr.start (k c.stored) :=
          (hc.follows h fr hfr (by simp [hp])).given (procs_eq_wait.mpr hb)
            (given_of_ready hfuture hcready)
        exact ⟨.refl _, (hc.setFrame hi hfr { fr with body := k c.stored, place := .running }
          (by simp [hp]) rfl (by simp [hp]) rfl rfl hb').congr rfl rfl rfl⟩
  | @resumeCall h fr c callee k hfr hready hp hfuture hb =>
      have hg : Gives s.given ((s.take h).setFuture (.coAwaiter h) none).given :=
        gives_update rfl fun f hf => by cases hf
      exact ⟨hg, (hc.mono hg).answer hi hready hfr hp hfuture hb⟩
  | ended hfr hp ho hf => exact ⟨.refl _, hc.endedDetached hi hfr hp hf⟩
  | @endedFor h fr v r c hfr hp ho hf hfuture =>
      obtain ⟨c', hc', hready⟩ := hi.future_of_frame hfr hf
      obtain rfl : c = c' := Option.some.inj (hfuture.symm.trans hc')
      have hg : Gives s.given ((s.setFuture r (some { c with stored := v })).setFrame h
          { fr with place := .final }).given :=
        gives_update rfl (given_of_pending hfuture hready)
      exact ⟨hg, (hc.mono hg).endedFor hi hfr hp ho hf hfuture⟩
  | @goesOn h fr b hfr hp hb =>
      exact ⟨.refl _, hc.setFrame hi hfr _ (by simp [hp]) hp (by simp [hp]) rfl rfl
        ((hc.follows h fr hfr (by simp [hp])).goOn (procs_eq_goOn.mpr hb))⟩
  | @coAwait h fr c k hfr hp hb =>
      have hg : Gives s.given (s.awaitSuspend h fr c).given :=
        gives_update rfl fun f hf => by cases hf
      exact ⟨hg, (hc.mono hg).awaitSuspend hi hfr hp hb⟩
  | @pass h fr f k c hfr hp hb hfuture hready =>
      exact ⟨.refl _, hc.setFrame hi hfr _ (by simp [hp]) hp (by simp [hp]) rfl rfl
        ((hc.follows h fr hfr (by simp [hp])).given (procs_eq_wait.mpr hb)
          (given_of_ready hfuture hready))⟩
  | @subscribe h fr f k c hfr hp hb hfuture hready =>
      have hg : Gives s.given
          ((s.setFuture (.object f) (some { c with chain := h :: c.chain })).setFrame h
            { fr with place := .awaiting (.object f) }).given :=
        gives_update rfl (given_of_pending hfuture hready)
      exact ⟨hg, (hc.mono hg).subscribe hfr hp hfuture hready⟩
  | final hfr hp hf => exact ⟨.refl _, hc.destroyFrame hi hfr (by simp [hp]) hf⟩
  | @finalFor h fr r c hfr hp hf hfuture =>
      obtain ⟨c', hc', hready⟩ := hi.future_of_frame hfr hf
      obtain rfl : c = c' := Option.some.inj (hfuture.symm.trans hc')
      have hg : Gives s.given ((s.release r c c.stored).destroyFrame h).given :=
        gives_update rfl (given_of_pending hfuture hready)
      exact ⟨hg, (hc.mono hg).finalFor hi hfr hp hf hfuture⟩

end Run

/-! ## The results -/

/-- A step of a coroutine, and of nobody else. -/
def Action.ofCoroutine : Action σ T E → Prop
  | .resume _ | .go _ | .finalSuspend _ => True
  | _ => False

theorem course_init : Course body ({} : Asyncs σ T E).given {} where
  follows h fr hfr := by cases hfr
  unset r c hc := by cases hc
  ended h fr r c hfr := by cases hfr
  callee h fr h' hfr := by cases hfr
  answered h fr c callee k hfr := by cases hfr
  bound h fr f hfr := by cases hfr
  owed f b c hb := by cases hb
  results f b c hb := by cases hb
  known f b hb := by cases hb

/-- The invariants of a run. -/
def Sound (body : σ → AsyncStep σ T E) (s : Asyncs σ T E) : Prop :=
  Inv body s ∧ Course body s.given s

theorem sound_exec (as : List (Action σ T E)) : Sound body (Run.exec (step body) {} as) :=
  Run.exec_inv (fun _ _ _ hi hs => ⟨hi.1.step hs, (hi.2.step hi.1 hs).2⟩) ⟨inv_init, course_init⟩ as

structure Good (body : σ → AsyncStep σ T E) (env : Nat → Option (Stored T E))
    (s : Asyncs σ T E) : Prop where
  inv : Inv body s
  course : Course body s.given s
  gives : Gives env s.given

/-- A coroutine does a step. -/
def Proceeds (body : σ → AsyncStep σ T E) (s s' : Asyncs σ T E) : Prop :=
  ∃ a : Action σ T E, a.ofCoroutine ∧ step body s a = some s'

abbrev Leads (body : σ → AsyncStep σ T E) : Asyncs σ T E → Asyncs σ T E → Prop :=
  Relation.ReflTransGen (Proceeds body)

variable {env : Nat → Option (Stored T E)}

theorem Good.bound (hg : Good body env s) (hp : Proceeds body s s') : s'.bound = s.bound := by
  obtain ⟨a, ha, hs⟩ := hp
  cases hg.inv.moves hs with
  | coAwait | resumeInitial | resumeObject | resumeCall | ended | endedFor | goesOn | pass | subscribe
  | final | finalFor => rfl
  | _ => exact absurd ha id

theorem Good.proceeds (hg : Good body env s) (hp : Proceeds body s s') : Good body env s' := by
  obtain ⟨a, -, hs⟩ := hp
  obtain ⟨hgives, hcourse⟩ := hg.course.step hg.inv hs
  exact ⟨hg.inv.step hs, hcourse, hg.gives.trans hgives⟩

theorem Good.leads (hg : Good body env s) (hl : Leads body s s') :
    Good body env s' ∧ s'.bound = s.bound := by
  induction hl with
  | refl => exact ⟨hg, rfl⟩
  | tail _ hp ih => exact ⟨ih.1.proceeds hp, (ih.1.bound hp).trans ih.2⟩

theorem exists_exec_of_leads (hl : Leads body s s') :
    ∃ bs : List (Action σ T E), (∀ a ∈ bs, a.ofCoroutine) ∧ Run.exec (step body) s bs = s' := by
  induction hl with
  | refl => exact ⟨[], by simp, rfl⟩
  | tail _ hp ih =>
      obtain ⟨bs, hbs, rfl⟩ := ih
      obtain ⟨a, ha, hs⟩ := hp
      refine ⟨bs ++ [a], by simpa [or_imp, forall_and] using ⟨hbs, ha⟩, ?_⟩
      rw [Run.exec_append, Run.exec_cons, Run.tryStep_of_some _ _ hs, Run.exec_nil]

/-! ## Coroutines come to their ends -/

/-- Coroutine `h` is led to its end; older ones are not touched. -/
def Ends (body : σ → AsyncStep σ T E) (s : Asyncs σ T E) (h : Nat) (r : FutureRef) : Prop :=
  ∃ s' fr, Leads body s s' ∧ s'.frame h = some fr ∧ fr.place = .final ∧ fr.future = some r ∧
    ∀ g < h, s'.frame g = s.frame g

theorem Inv.lt_count (hi : Inv body s) {h : Nat} {fr : Frame σ} (hfr : s.frame h = some fr) :
    h < s.count := by
  by_contra hlt
  rw [(hi.unused h (Nat.le_of_not_lt hlt)).1] at hfr
  cases hfr

section Ends

variable {h f : Nat} {fr : Frame σ} {r : FutureRef} {c : Async.Future T E}

theorem Ends.of_leads (hl : Leads body s s') (he : Ends body s' h r)
    (hsame : ∀ g < h, s'.frame g = s.frame g) : Ends body s h r := by
  obtain ⟨s'', fr, hl', hfr, hp, hf, hsame'⟩ := he
  exact ⟨s'', fr, hl.trans hl', hfr, hp, hf, fun g hg => (hsame' g hg).trans (hsame g hg)⟩

theorem setFrame_of_lt {g : Nat} (hg : g < h) : (s.setFrame h fr).frame g = s.frame g :=
  Function.update_of_ne (Nat.ne_of_lt hg) _ _

theorem setFrame_self : (s.setFrame h fr).frame h = some fr := Function.update_self _ _ _

/-- The handle of a coroutine that awaits what is ready is on its way. -/
theorem mem_ready (hi : Inv body s) (hfr : s.frame h = some fr) (hp : fr.place = .awaiting r)
    (hc : s.future r = some c) (hready : c.ready = true) : h ∈ s.ready := by
  obtain ⟨z, hz⟩ := hi.held.owner h ⟨fr, hfr⟩
  have hat := hi.places z h fr hz hfr
  cases z with
  | async x => simp [At, hp] at hat
  | handedOn => exact hz
  | thread => simp [At, hp] at hat
  | awaiters r' =>
      obtain ⟨c', hc', hm⟩ := hz
      obtain rfl : r = r' := Place.awaiting.inj (hp.symm.trans hat)
      obtain rfl : c = c' := Option.some.inj (hc.symm.trans hc')
      rw [hi.done r c hc hready] at hm
      cases hm

/-- So is that of a coroutine that was started and did not run yet. -/
theorem mem_ready_of_initial (hi : Inv body s) (hfr : s.frame h = some fr)
    (hp : fr.place = .initial) (hf : fr.future = some r) : h ∈ s.ready := by
  obtain ⟨z, hz⟩ := hi.held.owner h ⟨fr, hfr⟩
  have hat := hi.places z h fr hz hfr
  cases z with
  | async x => simp [At, hf] at hat
  | handedOn => exact hz
  | thread => simp [At, hp] at hat
  | awaiters r' => simp [At, hp] at hat

theorem proceeds_initial (body : σ → AsyncStep σ T E) (hfr : s.frame h = some fr)
    (hready : h ∈ s.ready) (hp : fr.place = .initial) :
    Proceeds body s ((s.take h).setFrame h { fr with place := .running }) :=
  ⟨.resume h, trivial, by simp only [step, hfr, if_pos hready, hp, take]⟩

theorem proceeds_given (hfr : s.frame h = some fr) (hready : h ∈ s.ready)
    (hp : fr.place = .awaiting (.object f)) (hc : s.future (.object f) = some c)
    {k : Stored T E → σ} (hb : body fr.body = .coAwaitFuture f k) :
    Proceeds body s ((s.take h).setFrame h { fr with body := k c.stored, place := .running }) :=
  ⟨.resume h, trivial, by simp only [step, hfr, if_pos hready, hp, awaitResume, hc, hb, take]⟩

theorem proceeds_answer (hfr : s.frame h = some fr) (hready : h ∈ s.ready)
    (hp : fr.place = .awaiting (.coAwaiter h)) (hc : s.future (.coAwaiter h) = some c)
    {callee : σ} {k : Stored T E → σ} (hb : body fr.body = .coAwait callee k) :
    Proceeds body s (((s.take h).setFuture (.coAwaiter h) none).setFrame h
      { fr with body := k c.stored, place := .running }) :=
  ⟨.resume h, trivial, by simp only [step, hfr, if_pos hready, hp, awaitResume, hc, hb, take]⟩

/-- A coroutine that has an outcome is led to its end. -/
theorem Good.ends_of_outcome (hg : Good body env s) (hfr : s.frame h = some fr)
    (hp : fr.place = .running) (hf : fr.future = some r) {v : Stored T E}
    (ho : outcome (body fr.body) = some v) : Ends body s h r := by
  obtain ⟨c, hc, -⟩ := hg.inv.future_of_frame hfr hf
  have hs : Proceeds body s ((s.setFuture r (some { c with stored := v })).setFrame h
      { fr with place := .final }) := by
    refine ⟨.go h, trivial, ?_⟩
    simp only [step, hfr, if_pos hp, go, hf]
    cases hb : body fr.body with
    | coReturn w | throws w =>
        rw [hb, outcome, Option.some.injEq] at ho
        simp only [← ho, set_eq s hc]
    | goesOn b | coAwait b k | coAwaitFuture f k => rw [hb] at ho; cases ho
  exact ⟨_, _, .single hs, setFrame_self, rfl, hf, fun g hg => setFrame_of_lt hg⟩

/-- A coroutine at its end resolves the future of the one that called it, which goes on with
its outcome. -/
theorem Good.answered (hg : Good body env s) {n : Nat} {fr' : Frame σ}
    (hn : s.frame n = some fr') (hp' : fr'.place = .final) (hf : fr'.future = some (.coAwaiter h))
    (hfr : s.frame h = some fr) :
    ∃ s' c, Proceeds body s s' ∧ s'.future (.coAwaiter h) = some c ∧ c.ready = true ∧
      s'.frame h = some fr ∧ ∀ g < n, s'.frame g = s.frame g := by
  obtain ⟨c, hc, -⟩ := hg.inv.future_of_frame hn hf
  obtain ⟨hlt, -⟩ := hg.course.callee n fr' h hn hf
  have hs : Proceeds body s ((s.release (.coAwaiter h) c c.stored).destroyFrame n) := by
    refine ⟨.finalSuspend n, trivial, ?_⟩
    simp only [step, hn, if_pos hp', hf, resolve_eq s hc]
    rfl
  refine ⟨_, _, hs, Function.update_self _ _ _, rfl, ?_, fun g hg => ?_⟩
  · exact (Function.update_of_ne (Nat.ne_of_lt hlt) _ _).trans hfr
  · exact Function.update_of_ne (Nat.ne_of_lt hg) _ _

/-- The coroutine that called goes on, with the only outcome there can be. -/
theorem Good.goesOn (hg : Good body env s) (hfr : s.frame h = some fr)
    (hp : fr.place = .awaiting (.coAwaiter h)) (hc : s.future (.coAwaiter h) = some c)
    (hready : c.ready = true) {callee : σ} {k : Stored T E → σ}
    (hb : body fr.body = .coAwait callee k) {o : Stored T E}
    (ho : Returns (procs body) env callee o) :
    ∃ s', Proceeds body s s' ∧ s'.frame h = some { fr with body := k o, place := .running } ∧
      ∀ g < h, s'.frame g = s.frame g := by
  obtain rfl : c.stored = o := (hg.course.answered h fr c callee k hfr hc hready hb).unique
    (ho.mono hg.gives)
  exact ⟨_, proceeds_answer hfr (mem_ready hg.inv hfr hp hc hready) hp hc hb, setFrame_self,
    fun g hg => setFrame_of_lt hg⟩

/-- A coroutine is led to its end when the one it called is. -/
theorem Good.ends_of_callee (hg : Good body env s) (hfr : s.frame h = some fr)
    (hp : fr.place = .awaiting (.coAwaiter h)) {callee : σ} {k : Stored T E → σ}
    (hb : body fr.body = .coAwait callee k) {o : Stored T E}
    (ho : Returns (procs body) env callee o) {n : Nat} (hn : h < n)
    (he : Ends body s n (.coAwaiter h))
    (hrest : ∀ s', Good body env s' →
      s'.frame h = some { fr with body := k o, place := .running } → Ends body s' h r) :
    Ends body s h r := by
  obtain ⟨s₁, fr', hl, hn₁, hp₁, hf₁, hsame₁⟩ := he
  have hg₁ : Good body env s₁ := (hg.leads hl).1
  have hfr₁ : s₁.frame h = some fr := (hsame₁ h hn).trans hfr
  obtain ⟨s₂, c, hs₂, hc, hready, hfr₂, hsame₂⟩ := hg₁.answered hn₁ hp₁ hf₁ hfr₁
  have hg₂ : Good body env s₂ := hg₁.proceeds hs₂
  obtain ⟨s₃, hs₃, hfr₃, hsame₃⟩ := hg₂.goesOn hfr₂ hp hc hready hb ho
  refine .of_leads ((hl.tail hs₂).tail hs₃) (hrest s₃ (hg₂.proceeds hs₃) hfr₃) fun g hlt => ?_
  rw [hsame₃ g hlt, hsame₂ g (Nat.lt_trans hlt hn), hsame₁ g (Nat.lt_trans hlt hn)]

/-- A coroutine that runs is led to its end, when there is a result in direct style. -/
theorem Good.ends_of_running {b : σ} {v : Stored T E} (hv : Returns (procs body) env b v)
    (hg : Good body env s) (hfr : s.frame h = some fr) (hp : fr.place = .running)
    (hb : fr.body = b) (hf : fr.future = some r) : Ends body s h r := by
  induction hv generalizing s h fr r with
  | done hs => exact hg.ends_of_outcome hfr hp hf (procs_eq_done.mp (hb ▸ hs))
  | @goOn b b' v hs _ ih =>
      have hbody : body fr.body = .goesOn b' := procs_eq_goOn.mp (hb ▸ hs)
      have hstep : Proceeds body s (s.setFrame h { fr with body := b' }) :=
        ⟨.go h, trivial, by simp only [step, hfr, if_pos hp, go, hbody]⟩
      exact .of_leads (.single hstep) (ih (hg.proceeds hstep) setFrame_self hp rfl hf)
        fun g hlt => setFrame_of_lt hlt
  | @call b callee k o v hs ho _ ihc ihr =>
      have hbody : body fr.body = .coAwait callee k := procs_eq_call.mp (hb ▸ hs)
      have hn : h < s.count := hg.inv.lt_count hfr
      have hstep : Proceeds body s (s.awaitSuspend h fr callee) :=
        ⟨.go h, trivial, by simp only [step, hfr, if_pos hp, go, hbody]⟩
      have hg₁ : Good body env (s.awaitSuspend h fr callee) := hg.proceeds hstep
      have hcallee : (s.awaitSuspend h fr callee).frame s.count =
          some { start := callee, body := callee, future := some (.coAwaiter h) } :=
        Function.update_self _ _ _
      have hcaller : (s.awaitSuspend h fr callee).frame h =
          some { fr with place := .awaiting (.coAwaiter h) } :=
        (Function.update_of_ne (Nat.ne_of_lt hn) _ _).trans (Function.update_self _ _ _)
      -- the coroutine that was called is resumed first
      have hresume := proceeds_initial body hcallee
        (mem_ready_of_initial hg₁.inv hcallee rfl rfl) rfl
      have he : Ends body (s.awaitSuspend h fr callee) s.count (.coAwaiter h) :=
        .of_leads (.single hresume) (ihc (hg₁.proceeds hresume) setFrame_self rfl rfl rfl)
          fun g hlt => setFrame_of_lt hlt
      refine .of_leads (.single hstep) (hg₁.ends_of_callee hcaller rfl hbody ho hn he
        fun s' hg' hfr' => ihr hg' hfr' rfl rfl hf) fun g hlt => ?_
      have hg' : g ≠ s.count := Nat.ne_of_lt (Nat.lt_trans hlt hn)
      exact ((Function.update_of_ne hg' _ _).trans (setFrame_of_lt hlt)).trans
        (Function.update_of_ne hg' _ _)
  | @wait b f k o v hs ho _ ih =>
      have hbody : body fr.body = .coAwaitFuture f k := procs_eq_wait.mp (hb ▸ hs)
      obtain ⟨c, hc, hready, rfl⟩ := given_eq_some.mp (hg.gives f o ho)
      have hstep : Proceeds body s (s.setFrame h { fr with body := k c.stored }) :=
        ⟨.go h, trivial, by simp only [step, hfr, if_pos hp, go, hbody, hc, hready, if_true]⟩
      exact .of_leads (.single hstep) (ih (hg.proceeds hstep) setFrame_self hp rfl hf)
        fun g hlt => setFrame_of_lt hlt

/-- A coroutine that was started is led to its end from wherever it is. -/
theorem Good.ends {v : Stored T E} (hg : Good body s.given s) (hfr : s.frame h = some fr)
    (hf : fr.future = some r) (hv : Returns (procs body) s.given fr.start v) :
    Ends body s h r := by
  -- the coroutines that were called by this one are younger
  induction hm : s.count - h using Nat.strongRecOn generalizing h fr r v with
  | ind m ih =>
      by_cases hfinal : fr.place = .final
      · exact ⟨s, fr, .refl, hfr, hfinal, hf, fun g _ => rfl⟩
      have hv' : Returns (procs body) s.given fr.body v :=
        (hg.course.follows h fr hfr hfinal).returns.mpr hv
      cases hp : fr.place with
      | final => exact absurd hp hfinal
      | running => exact hg.ends_of_running hv' hfr hp rfl hf
      | initial =>
          have hstep := proceeds_initial body hfr (mem_ready_of_initial hg.inv hfr hp hf) hp
          exact .of_leads (.single hstep) ((hg.proceeds hstep).ends_of_running hv' setFrame_self rfl
            rfl hf) fun g hlt => setFrame_of_lt hlt
      | awaiting q =>
          cases q with
          | object f =>
              obtain ⟨k, hb⟩ := hg.inv.waits h fr f hfr hp
              rw [Procedures.returns_iff, procs_eq_wait.mpr hb] at hv'
              obtain ⟨o, ho, hrest⟩ := hv'
              obtain ⟨c, hc, hready, rfl⟩ := given_eq_some.mp ho
              have hstep := proceeds_given hfr (mem_ready hg.inv hfr hp hc hready) hp
                hc hb
              exact .of_leads (.single hstep) ((hg.proceeds hstep).ends_of_running hrest
                setFrame_self rfl rfl hf) fun g hlt => setFrame_of_lt hlt
          | coAwaiter h' =>
              obtain ⟨rfl, callee, k, hb⟩ := hg.inv.called h fr h' hfr hp
              rw [Procedures.returns_iff, procs_eq_call.mpr hb] at hv'
              obtain ⟨o, ho, hrest⟩ := hv'
              obtain ⟨c, hc⟩ := hg.inv.awaited h' fr _ hfr hp
              have hgo : ∀ s', Good body s.given s' →
                  s'.frame h' = some { fr with body := k o, place := .running } →
                  Ends body s' h' r := fun s' hg' hfr' =>
                hg'.ends_of_running hrest hfr' rfl rfl hf
              cases hready : c.ready with
              | true =>
                  obtain ⟨s', hs', hfr', hsame⟩ := hg.goesOn hfr hp hc hready hb ho
                  exact .of_leads (.single hs') (hgo s' (hg.proceeds hs') hfr') hsame
              | false =>
                  obtain ⟨y, hy⟩ := hg.inv.resolver.owner (.coAwaiter h') ⟨c, hc, hready⟩
                  cases y with
                  | promise p =>
                      obtain ⟨f, -, hrf⟩ := hy
                      cases hrf
                  | coroutine n =>
                      obtain ⟨fr', hn, hfn⟩ := hy
                      obtain ⟨hlt, fr'', k', hfr'', hb'⟩ := hg.course.callee n fr' h' hn hfn
                      obtain rfl : fr = fr'' := Option.some.inj (hfr.symm.trans hfr'')
                      have hstart : callee = fr'.start := by
                        rw [hb] at hb'
                        exact (AsyncStep.coAwait.inj hb').1
                      have hcount : n < s.count := hg.inv.lt_count hn
                      exact hg.ends_of_callee hfr hp hb ho hlt
                        (ih (s.count - n) (by omega) hn hfn (hstart ▸ ho) rfl) hgo

end Ends

/-- **A future gets what the coroutine returns in direct style**, in every run. -/
theorem returns_exec (body : σ → AsyncStep σ T E) (as : List (Action σ T E)) (f : Nat) (b : σ)
    (r : Stored T E) (hb : (Run.exec (step body) {} as).bound f = some b)
    (hr : (Run.exec (step body) {} as).given f = some r) :
    Returns (procs body) (Run.exec (step body) {} as).given b r := by
  obtain ⟨c, hc, hready, rfl⟩ := given_eq_some.mp hr
  exact (sound_exec as).2.results f b c hb hc hready

/-- Coroutine `0` calls coroutine `1`, and returns ten more than it. -/
def tenMore : Nat → AsyncStep Nat Nat Nat
  | 0 => .coAwait 1 fun
      | .value v => v + 10
      | _ => 0
  | n => .coReturn n

/-- A start with a promise, both coroutines to their ends. -/
def tenMoreRun : List (Action Nat Nat Nat) :=
  [.create 0 0, .getPromise 7 0, .startPromise 0 0, .resume 0, .go 0, .resume 1, .go 1,
    .finalSuspend 1, .resume 0, .go 0, .finalSuspend 0]

theorem returns_tenMore :
    Returns (procs tenMore) (Run.exec (step tenMore) {} tenMoreRun).given 0 (.value 11) :=
  returns_exec tenMore tenMoreRun 7 0 (.value 11) rfl rfl

/-- **A coroutine that returns in direct style comes to its end**, from every state of every run,
by steps of coroutines alone. -/
theorem completes_exec (body : σ → AsyncStep σ T E) (as : List (Action σ T E)) (f : Nat) (b : σ)
    (r : Stored T E) (hb : (Run.exec (step body) {} as).bound f = some b)
    (hr : Returns (procs body) (Run.exec (step body) {} as).given b r) :
    ∃ bs : List (Action σ T E), (∀ a ∈ bs, a.ofCoroutine) ∧
      (Run.exec (step body) {} (as ++ bs)).given f = some r := by
  obtain ⟨hi, hc⟩ : Sound body (Run.exec (step body) {} as) := sound_exec as
  rw [exists_congr fun bs => and_congr_right fun _ => by rw [Run.exec_append]]
  generalize Run.exec (step body) {} as = s at *
  have hg : Good body s.given s := ⟨hi, hc, .refl _⟩
  -- what the future has, once it is ready, is the result
  have hdone : ∀ s', Leads body s s' → (∃ v, s'.given f = some v) →
      ∃ bs : List (Action σ T E), (∀ a ∈ bs, a.ofCoroutine) ∧
        (Run.exec (step body) s bs).given f = some r := by
    rintro s' hl ⟨v, hv⟩
    obtain ⟨hg', hbound⟩ := hg.leads hl
    obtain ⟨bs, hbs, rfl⟩ := exists_exec_of_leads hl
    obtain ⟨c, hc', hready, rfl⟩ := given_eq_some.mp hv
    have hstored := hg'.course.results f b c (by rw [hbound]; exact hb) hc' hready
    exact ⟨bs, hbs, by rw [hv, (hr.mono hg'.gives).unique hstored]⟩
  obtain ⟨c, hfuture⟩ := hc.known f b hb
  cases hready : c.ready with
  | true => exact hdone s .refl ⟨_, given_of_ready hfuture hready⟩
  | false =>
      obtain ⟨h, fr, hfr, hf⟩ := hc.owed f b c hb hfuture hready
      obtain rfl : fr.start = b := Option.some.inj ((hc.bound h fr f hfr hf).symm.trans hb)
      obtain ⟨s', fr', hl, hfr', hp, hf', -⟩ := hg.ends hfr hf hr
      obtain ⟨c', hc', -⟩ := (hg.leads hl).1.inv.future_of_frame hfr' hf'
      have hlast : Proceeds body s' ((s'.release (.object f) c' c'.stored).destroyFrame h) := by
        refine ⟨.finalSuspend h, trivial, ?_⟩
        simp only [step, hfr', if_pos hp, hf', resolve_eq s' hc']
        rfl
      exact hdone _ (hl.tail hlast) ⟨_, given_of_ready (Function.update_self _ _ _) rfl⟩

theorem completes_tenMore : ∃ bs : List (Action Nat Nat Nat), (∀ a ∈ bs, a.ofCoroutine) ∧
    (Run.exec (step tenMore) {} (tenMoreRun.take 3 ++ bs)).given 7 = some (.value 11) :=
  completes_exec tenMore (tenMoreRun.take 3) 7 0 (.value 11) rfl
    (.call rfl (.done rfl) (.done rfl))

end Asyncs

end Cocls
