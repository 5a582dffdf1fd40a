import Cocls.Generator.Access

/-!
# Cocls.Generator.Refused

Accesses of a generator that has ended.

A generator that returned has its done flag set, and `next_awt` reads the flag
before it goes to the promise.  One that ended by an exception has no flag set:
there the access functions find out from `h.done()`, and throw
`no_more_values_exception`.  `next_sync` and `next_future` do so before they
change anything; `next_async` stores the caller first, and nobody takes it back.

An access may come from anywhere, at any time: through an object that `next()`
returned earlier, from a coroutine, by `subscribe`, or by a call.  The argument
of a generator that takes one is read only by the body, and left out.
-/

namespace Cocls

namespace Generator

variable {σ T E : Type*}

/-- A way to access a generator. -/
inductive Way where
  /-- an object of `next()` with this `_state` is converted to `bool` -/
  | next (state : Bool)
  /-- the object `k` of `next()` is awaited in a coroutine -/
  | coAwaitNext (k : Nat)
  /-- the awaiter `k` is subscribed to `next()` -/
  | subscribe (k : Nat)
  /-- the generator is called for the future `k` -/
  | future (k : Nat)
deriving DecidableEq, Repr

/-- What an access comes to at once. -/
inductive Answer where
  /-- true, since `_state` was true -/
  | available
  /-- false, since the generator is done -/
  | ended
  /-- `no_more_values_exception` -/
  | refused
  /-- the body is resumed -/
  | resumed
deriving DecidableEq, Repr

namespace Coroutine

/-! ## The access functions -/

section Access

variable (g : Coroutine σ T E)

/-- What an access function of the promise returns, or that it throws. -/
def answerOf (r : Coroutine σ T E × Bool) : Coroutine σ T E × Answer :=
  (r.1, if r.2 then .resumed else .refused)

/-- `next_sync`, up to `h.resume()`; false if it throws. -/
def nextSync : Option (Coroutine σ T E × Bool) :=
  let p := g.promise
  if p.caller ≠ none then none
  else if g.place.isDone then some (g, false)
  else
    (g.resume { p with block := false, caller := some .internal
                       internal := some .sync }).map fun g' => (g', true)

/-- `next_future`, up to `h.resume()`; false if it throws. -/
def nextFuture (k : Nat) : Option (Coroutine σ T E × Bool) :=
  let p := g.promise
  if p.caller ≠ none then none
  else if g.place.isDone then some (g, false)
  else
    (g.resume { p with awaiting := some k, caller := some .internal
                       internal := some .future }).map fun g' => (g', true)

/-- An access; there is none if the check for a busy generator fires. -/
def access : Way → Option (Coroutine σ T E × Answer)
  -- `next_awt::operator bool`
  | .next state =>
      if state then some (g, .available)
      else if g.promise.done then some (g, .ended)
      else g.nextSync.map answerOf
  -- `await_ready`, `await_suspend`
  | .coAwaitNext k =>
      if g.promise.done then some (g, .ended) else (g.nextAsync k).map answerOf
  | .subscribe k => (g.nextAsync k).map answerOf
  | .future k => (g.nextFuture k).map answerOf

/-- What `caller->resume()` does to the promise. -/
def resumeCaller : Option Caller → Option (Coroutine σ T E)
  | none => none
  | some (.awaiter _) => some g
  | some .internal =>
      match g.promise.internal with
      | none => none
      | some .sync => some { g with promise := g.promise.unblockSync }
      | some .future => some { g with promise := { g.promise with awaiting := none } }

inductive Action where
  | access (w : Way)
  /-- the body runs to its next suspension -/
  | body
  /-- the body is resumed from its `co_await` -/
  | wake
deriving DecidableEq, Repr

/-- One step. -/
def step (body : σ → BodyStep σ T E) (g : Coroutine σ T E) : Action → Option (Coroutine σ T E)
  | .access w => (g.access w).map Prod.fst
  | .body =>
      match g.runBody body with
      | none => none
      | some (g', .awaits) => some g'
      | some (g', .resumes c) => g'.resumeCaller c
  | .wake => g.wake

/-- What a sequence of accesses is answered, up to the first one where the check fires. -/
def answers (g : Coroutine σ T E) : List Way → List (Option Answer)
  | [] => []
  | w :: ws =>
      match g.access w with
      | none => [none]
      | some (g', x) => some x :: g'.answers ws

end Access

/-! ## Refused accesses -/

/-- An access that is refused changes nothing that a later access can see. -/
structure Harmless (g : Coroutine σ T E) (w : Way) : Prop where
  /-- the check for a busy generator does not fire -/
  notBusy : g.access w ≠ none
  caller : ∀ g', g.access w = some (g', .refused) → g'.promise.caller = g.promise.caller
  awaiting : ∀ g', g.access w = some (g', .refused) → g'.promise.awaiting = g.promise.awaiting
  exp : ∀ g', g.access w = some (g', .refused) → g'.promise.exp = g.promise.exp
  done : ∀ g', g.access w = some (g', .refused) → g'.promise.done = g.promise.done
  /-- later accesses are answered as if there had been no refused one -/
  later : ∀ g', g.access w = some (g', .refused) → ∀ ws, g'.answers ws = g.answers ws

/-- In the run all accesses after the end of the generator are harmless. -/
def RefusesHarmlessly (body : σ → BodyStep σ T E) (g : Coroutine σ T E) (as : List Action) :
    Prop :=
  ∀ n w, as[n]? = some (.access w) → (Run.exec (step body) g (as.take n)).place.isDone = true →
    Harmless (Run.exec (step body) g (as.take n)) w

/-- The access is not one that reaches `next_async` after the end of the generator:
`subscribe`, or `co_await next()` when the body ended by an exception. -/
def Guarded (g : Coroutine σ T E) : Action → Prop
  | .access (.subscribe _) => g.place.isDone = false
  | .access (.coAwaitNext _) => g.place.isDone = true → g.promise.done = true
  | _ => True

instance (g : Coroutine σ T E) : ∀ a, Decidable (Guarded g a)
  | .access (.subscribe _) => inferInstanceAs (Decidable (_ = _))
  | .access (.coAwaitNext _) => inferInstanceAs (Decidable (_ → _))
  | .access (.next _) | .access (.future _) | .body | .wake => .isTrue trivial

/-- Where a generator is that is accessed from anywhere. -/
structure Inv (body : σ → BodyStep σ T E) (b : σ) (g : Coroutine σ T E) : Prop where
  course : ∃ n, g.place.At (position body b n) ∧ Shows g.promise (outcomes body b n)
  free : g.place.atWork = false → g.promise.caller = none

variable {body : σ → BodyStep σ T E} {b : σ} {g g' : Coroutine σ T E}

/-- An access that resumes the body leaves the promise as the body has set it. -/
theorem Inv.resume (h : Inv body b g) {p : PromiseType T E} (hd : p.done = g.promise.done)
    (he : p.exp = g.promise.exp) (hr : p.ret = g.promise.ret) (hs : g.resume p = some g') :
    Inv body b g' := by
  obtain ⟨n, hat, hsh⟩ := h.course
  rw [Coroutine.resume] at hs
  split at hs
  · next b' hpl =>
    cases hs
    rw [hpl] at hat
    exact ⟨⟨n, hat, hsh.congr hd he hr⟩, fun hw => by cases hw⟩
  · cases hs

/-- The end of the body: the promise shows how it ended, and nobody waits. -/
theorem Inv.ended (h : Inv body b g) (hdone : g.place.isDone = true) :
    g.promise.caller = none ∧
      (g.promise.done = true ∧ g.promise.exp = none ∨
        g.promise.done = false ∧ g.promise.exp ≠ none) := by
  have hpl : g.place = .done := by
    cases hp : g.place with
    | done => rfl
    | _ => rw [hp] at hdone; cases hdone
  refine ⟨h.free (by rw [hpl]; rfl), ?_⟩
  obtain ⟨n, hat, hsh⟩ := h.course
  rw [hpl] at hat
  have hend := values_or_ended body b n
  rw [show position body b n = none from hat] at hend
  obtain ⟨vs, r, hos, -, hr⟩ := hend
  rw [hos, shows_snoc] at hsh
  obtain rfl | ⟨e, rfl⟩ := hr
  · obtain ⟨hd, he, -⟩ := hsh
    exact .inl ⟨hd, he⟩
  · obtain ⟨hd, he, -⟩ := hsh
    exact .inr ⟨hd, by rw [he]; exact Option.some_ne_none e⟩

/-! ## One access of a generator that has ended -/

/-- The caller of the refused access `k` stays in the promise. -/
def leftBehind (g : Coroutine σ T E) (k : Nat) : Coroutine σ T E :=
  { g with promise := { g.promise with caller := some (.awaiter k) } }

theorem nextAsync_ended (hc : g.promise.caller = none) (hdone : g.place.isDone = true) (k : Nat) :
    g.nextAsync k = some (g.leftBehind k, false) := by
  simp [nextAsync, hc, hdone, leftBehind]

/-- Where the end is seen first, the promise keeps its state. -/
theorem access_of_guarded (hc : g.promise.caller = none) (hdone : g.place.isDone = true) {w : Way}
    (hg : Guarded g (.access w)) : ∃ x, g.access w = some (g, x) := by
  cases w with
  | next state =>
      cases state with
      | true => exact ⟨.available, rfl⟩
      | false =>
          by_cases hd : g.promise.done = true
          · exact ⟨.ended, by simp [access, hd]⟩
          · exact ⟨.refused, by simp [access, hd, nextSync, hc, hdone, answerOf]⟩
  | coAwaitNext k => exact ⟨.ended, by simp [access, hg hdone]⟩
  | subscribe k =>
      have hnot : g.place.isDone = false := hg
      rw [hdone] at hnot
      cases hnot
  | future k => exact ⟨.refused, by simp [access, nextFuture, hc, hdone, answerOf]⟩

/-- Where `next_async` sees the end, it has stored the caller. -/
theorem access_of_not_guarded (hc : g.promise.caller = none) {w : Way}
    (hg : ¬ Guarded g (.access w)) :
    g.place.isDone = true ∧ ∃ k, g.access w = some (g.leftBehind k, .refused) := by
  cases w with
  | next state => exact absurd trivial hg
  | future k => exact absurd trivial hg
  | subscribe k =>
      have hdone : g.place.isDone = true := by simpa [Guarded] using hg
      exact ⟨hdone, k, by simp [access, nextAsync_ended hc hdone, answerOf]⟩
  | coAwaitNext k =>
      obtain ⟨hdone, hd⟩ : g.place.isDone = true ∧ ¬ g.promise.done = true :=
        Classical.not_imp.1 hg
      exact ⟨hdone, k, by simp [access, hd, nextAsync_ended hc hdone, answerOf]⟩

/-- An access is harmless exactly when the end is seen first. -/
theorem Inv.harmless_iff (h : Inv body b g) (hdone : g.place.isDone = true) (w : Way) :
    Harmless g w ↔ Guarded g (.access w) := by
  have hc := (h.ended hdone).1
  constructor
  · intro hh
    by_contra hg
    obtain ⟨-, k, hk⟩ := access_of_not_guarded hc hg
    have hcaller : some (Caller.awaiter k) = g.promise.caller := hh.caller _ hk
    rw [hc] at hcaller
    cases hcaller
  · intro hg
    obtain ⟨x, hx⟩ := access_of_guarded hc hdone hg
    have hsame : ∀ g', g.access w = some (g', .refused) → g' = g := by
      intro g' hg'
      rw [hx] at hg'
      exact (congrArg Prod.fst (Option.some.inj hg')).symm
    exact
      { notBusy := by rw [hx]; exact Option.some_ne_none _
        caller := fun g' hg' => by rw [hsame g' hg']
        awaiting := fun g' hg' => by rw [hsame g' hg']
        exp := fun g' hg' => by rw [hsame g' hg']
        done := fun g' hg' => by rw [hsame g' hg']
        later := fun g' hg' ws => by rw [hsame g' hg'] }

/-! ## Every step -/

/-- The promise is as the body has left it, but for the fields that an access sets. -/
def SameCourse (p q : PromiseType T E) : Prop :=
  p.done = q.done ∧ p.exp = q.exp ∧ p.ret = q.ret

/-- The body is resumed with a promise as it has left it. -/
def ResumedFrom (g g' : Coroutine σ T E) : Prop :=
  ∃ p, SameCourse p g.promise ∧ g.resume p = some g'

/-- An access function that tests for the end before it stores anything. -/
theorem tested_cases {p : PromiseType T E} {r : Coroutine σ T E × Bool}
    (hs : (if g.promise.caller ≠ none then none
      else if g.place.isDone then some (g, false)
      else (g.resume p).map fun g' => (g', true)) = some r) (hp : SameCourse p g.promise) :
    r.1 = g ∨ ResumedFrom g r.1 := by
  split at hs
  · cases hs
  · split at hs
    · cases hs
      exact .inl rfl
    · obtain ⟨g', hg, rfl⟩ := Option.map_eq_some_iff.mp hs
      exact .inr ⟨p, hp, hg⟩

theorem nextSync_cases {r : Coroutine σ T E × Bool} (hs : g.nextSync = some r) :
    r.1 = g ∨ ResumedFrom g r.1 :=
  tested_cases hs ⟨rfl, rfl, rfl⟩

theorem nextFuture_cases {k : Nat} {r : Coroutine σ T E × Bool} (hs : g.nextFuture k = some r) :
    r.1 = g ∨ ResumedFrom g r.1 :=
  tested_cases hs ⟨rfl, rfl, rfl⟩

/-- `next_async` changes the promise also where it throws. -/
theorem nextAsync_resumed {k : Nat} {r : Coroutine σ T E × Bool} (hs : g.nextAsync k = some r)
    (hdone : g.place.isDone = false) : ResumedFrom g r.1 := by
  simp only [nextAsync, hdone] at hs
  split at hs
  · cases hs
  · obtain ⟨g', hg, rfl⟩ := Option.map_eq_some_iff.mp hs
    refine ⟨_, ?_, hg⟩
    exact ⟨rfl, rfl, rfl⟩

/-- What a guarded access comes to. -/
theorem access_cases {w : Way} {x : Answer} (hg : Guarded g (.access w))
    (hs : g.access w = some (g', x)) : g' = g ∨ ResumedFrom g g' := by
  cases w with
  | next state =>
      simp only [access] at hs
      split at hs
      · cases hs; exact .inl rfl
      · split at hs
        · cases hs; exact .inl rfl
        · obtain ⟨r, hr, hx⟩ := Option.map_eq_some_iff.mp hs
          cases hx
          exact nextSync_cases hr
  | coAwaitNext k =>
      simp only [access] at hs
      split at hs
      · cases hs; exact .inl rfl
      · next hd =>
        obtain ⟨r, hr, hx⟩ := Option.map_eq_some_iff.mp hs
        cases hx
        have hdone : g.place.isDone = false := by
          cases hdone : g.place.isDone with
          | false => rfl
          | true => exact absurd (hg hdone) hd
        exact .inr (nextAsync_resumed hr hdone)
  | subscribe k =>
      obtain ⟨r, hr, hx⟩ := Option.map_eq_some_iff.mp hs
      cases hx
      exact .inr (nextAsync_resumed hr hg)
  | future k =>
      obtain ⟨r, hr, hx⟩ := Option.map_eq_some_iff.mp hs
      cases hx
      exact nextFuture_cases hr

/-- **A guarded access** resumes the body or changes nothing. -/
theorem Inv.access (h : Inv body b g) {w : Way} (hg : Guarded g (.access w)) {x : Answer}
    (hs : g.access w = some (g', x)) : Inv body b g' := by
  obtain rfl | ⟨p, ⟨hd, he, hr⟩, hres⟩ := access_cases hg hs
  · exact h
  · exact h.resume hd he hr hres

/-- The caller of an access is resumed. -/
theorem Inv.resumeCaller (h : Inv body b g) {c : Option Caller}
    (hs : g.resumeCaller c = some g') : Inv body b g' := by
  have hset : ∀ p, SameCourse p g.promise → p.caller = g.promise.caller →
      Inv body b { g with promise := p } := by
    rintro p ⟨hd, he, hr⟩ hc
    obtain ⟨n, hat, hsh⟩ := h.course
    exact ⟨⟨n, hat, hsh.congr hd he hr⟩, fun hw => hc.trans (h.free hw)⟩
  simp only [Coroutine.resumeCaller] at hs
  split at hs
  · cases hs
  · cases hs; exact h
  · split at hs
    · cases hs
    · cases hs; exact hset _ ⟨rfl, rfl, rfl⟩ rfl
    · cases hs; exact hset _ ⟨rfl, rfl, rfl⟩ rfl

/-- **The body runs to its next suspension.** -/
theorem Inv.runBody (h : Inv body b g) (hs : g.step body .body = some g') : Inv body b g' := by
  obtain ⟨n, hat, hsh⟩ := h.course
  simp only [Coroutine.step] at hs
  split at hs
  · cases hs
  · next c hrun =>
    cases hs
    obtain ⟨-, hpr, hwork, hat', hos⟩ | ⟨r, hx, -⟩ := runBody_cases hrun hat hsh
    · refine ⟨⟨n + 1, hat', by rw [hos, hpr]; exact hsh⟩, fun hw => ?_⟩
      rw [hwork] at hw
      cases hw
    · cases hx
  · next c x hrun =>
    obtain ⟨hx, -⟩ | ⟨r, -, -, hat', hos, hsh', hpr⟩ := runBody_cases hrun hat hsh
    · cases hx
    · have hinv : Inv body b c :=
        ⟨⟨n + 1, hat', by rw [hos]; exact (shows_snoc _ _ _).mpr hsh'⟩, fun _ => by rw [hpr]⟩
      exact hinv.resumeCaller hs

theorem Inv.wake (h : Inv body b g) (hs : g.wake = some g') : Inv body b g' := by
  obtain ⟨n, hat, hsh⟩ := h.course
  simp only [Coroutine.wake] at hs
  split at hs
  · next b' hpl =>
    cases hs
    rw [hpl] at hat
    exact ⟨⟨n, hat, hsh⟩, fun hw => by cases hw⟩
  · cases hs

theorem Inv.step (h : Inv body b g) {a : Action} (hg : Guarded g a)
    (hs : g.step body a = some g') : Inv body b g' := by
  cases a with
  | access w =>
      obtain ⟨⟨g'', x⟩, hx, rfl⟩ := Option.map_eq_some_iff.mp hs
      exact h.access hg hx
  | body => exact h.runBody hs
  | wake => exact h.wake hs

theorem inv_fresh (body : σ → BodyStep σ T E) (b : σ) : Inv body b (.fresh b) :=
  ⟨⟨0, rfl, rfl, rfl, rfl⟩, fun _ => rfl⟩

/-! ## Every run -/

/-- The first access of a run, and the others. -/
theorem refusesHarmlessly_cons (a : Action) (as : List Action) :
    RefusesHarmlessly body g (a :: as) ↔
      (∀ w, a = .access w → g.place.isDone = true → Harmless g w) ∧
        RefusesHarmlessly body (Run.tryStep (Coroutine.step body) g a) as := by
  constructor
  · intro h
    exact ⟨fun w hw => h 0 w (congrArg some hw), fun n => h (n + 1)⟩
  · rintro ⟨h0, hs⟩ n w hw
    cases n with
    | zero => exact h0 w (Option.some.inj hw)
    | succ n => exact hs n w hw

/-- A step is harmless exactly when it is guarded. -/
theorem Inv.step_iff (h : Inv body b g) (a : Action) :
    (∀ w, a = .access w → g.place.isDone = true → Harmless g w) ↔
      ((g.step body a).isSome → Guarded g a) := by
  constructor
  · intro hh hsome
    cases a with
    | access w =>
        by_contra hg
        by_cases hdone : g.place.isDone = true
        · exact hg ((h.harmless_iff hdone w).mp (hh w rfl hdone))
        · cases w with
          | next state => exact hg trivial
          | future k => exact hg trivial
          | coAwaitNext k => exact hg fun hd => absurd hd hdone
          | subscribe k => exact hg (by simpa [Guarded] using hdone)
    | body => trivial
    | wake => trivial
  · rintro hg w rfl hdone
    rw [h.harmless_iff hdone]
    by_contra hn
    obtain ⟨-, k, hk⟩ := access_of_not_guarded (h.ended hdone).1 hn
    exact hn (hg (by simp [Coroutine.step, hk]))

/-- **Refused accesses are harmless exactly where the end is seen first**: in every run of
accesses in all ways, of every generator. -/
theorem refusesHarmlessly_iff (body : σ → BodyStep σ T E) (b : σ) (as : List Action) :
    RefusesHarmlessly body (.fresh b) as ↔
      Run.Meets (step body) Guarded (Coroutine.fresh b) as := by
  suffices h : ∀ g, Inv body b g →
      (RefusesHarmlessly body g as ↔ Run.Meets (step body) Guarded g as) from
    h _ (inv_fresh body b)
  induction as with
  | nil => exact fun g _ => ⟨fun _ => trivial, fun _ n w hw => by cases hw⟩
  | cons a as ih =>
      intro g hinv
      rw [refusesHarmlessly_cons, Run.meets_cons, hinv.step_iff a]
      refine and_congr_right fun hg => ih _ ?_
      cases hs : g.step body a with
      | none => rw [Run.tryStep_of_none (step body) g hs]; exact hinv
      | some g' =>
          rw [Run.tryStep_of_some (step body) g hs]
          exact hinv.step (hg (by rw [hs]; rfl)) hs

/-- A generator that ends by an exception: after the `co_await` that is refused, the check fires
in `next()`. -/
theorem refusesHarmlessly_fails :
    ¬ RefusesHarmlessly (fun _ : Unit => (.throw 7 : BodyStep Unit Nat Nat)) (.fresh ())
      [.access (.next false), .body, .access (.coAwaitNext 0), .access (.next false)] := by
  intro h
  exact (h 3 (.next false) rfl rfl).notBusy rfl

end Coroutine

namespace Client

/-! ## The accesses of a client -/

variable {s s' : Client σ T E}

/-- What an access of a client makes of the generator. -/
def went (s : Client σ T E) (m : Mode) (r : Coroutine σ T E × Bool) : Client σ T E :=
  if r.2 then s.resumedBody m r.1
  else ({ s with gen := r.1 } : Client σ T E).answered .noMoreValues

theorem went_gen (s : Client σ T E) (m : Mode) (r : Coroutine σ T E × Bool) :
    (went s m r).gen = r.1 := by
  rw [went]
  split <;> rfl

theorem nextSync_eq (s : Client σ T E) (m : Mode) :
    s.nextSync m = s.gen.nextSync.map (went s m) := by
  simp only [Client.nextSync, Coroutine.nextSync]
  split
  · rfl
  · split
    · rfl
    · rw [Option.map_map]; rfl

theorem nextFuture_eq (s : Client σ T E) (m : Mode) :
    s.nextFuture m = (s.gen.nextFuture s.count).map (went s m) := by
  simp only [Client.nextFuture, Coroutine.nextFuture]
  split
  · rfl
  · split
    · rfl
    · rw [Option.map_map]; rfl

/-- An access of a client is one of these. -/
theorem access_eq {m : Mode} (hs : s.access m = some s') :
    ∃ w x, s.gen.access w = some (s'.gen, x) := by
  have hran : ∀ {o : Option (Coroutine σ T E × Bool)}, o.map (went s m) = some s' →
      ∃ x, o.map Coroutine.answerOf = some (s'.gen, x) := by
    intro o ho
    obtain ⟨r, rfl, rfl⟩ := Option.map_eq_some_iff.mp ho
    exact ⟨_, by rw [went_gen]; rfl⟩
  simp only [Client.access] at hs
  split at hs
  · cases hs
  · cases m with
    | next | iterator =>
        simp only [nextSync_eq] at hs
        split at hs
        · next hd =>
          cases hs
          exact ⟨.next false, .ended, by simp [Coroutine.access, hd]; rfl⟩
        · next hd =>
          obtain ⟨x, hx⟩ := hran hs
          exact ⟨.next false, x, by simp [Coroutine.access, hd, hx]⟩
    | coAwaitNext =>
        simp only at hs
        split at hs
        · next hd =>
          cases hs
          exact ⟨.coAwaitNext s.count, .ended, by simp [Coroutine.access, hd]; rfl⟩
        · next hd =>
          obtain ⟨x, hx⟩ := hran hs
          exact ⟨.coAwaitNext s.count, x, by simp [Coroutine.access, hd, hx]⟩
    | future =>
        obtain ⟨x, hx⟩ := hran ((nextFuture_eq s .future).symm.trans hs)
        exact ⟨.future s.count, x, hx⟩

theorem resumeCaller_gen {c : Option Caller} (hs : s.resumeCaller c = some s') :
    s.gen.resumeCaller c = some s'.gen := by
  simp only [Client.resumeCaller] at hs
  split at hs
  · cases hs
  · cases hs; rfl
  · split at hs
    · cases hs
    · next hin => cases hs; simp only [Coroutine.resumeCaller, hin]
    · next hin =>
      simp only [Coroutine.resumeCaller, hin]
      split at hs
      · next haw => cases hs; rw [← haw, ← hin]
      · cases hs; rw [← hin]

theorem finish_gen {k : Nat} {m : Mode} (hs : s.finish k m = some s') : s'.gen = s.gen := by
  cases m <;>
  · simp only [Client.finish] at hs
    split at hs
    · cases hs; rfl
    · cases hs

/-- A step of a client takes its generator a step further, or leaves it. -/
theorem step_gen {body : σ → BodyStep σ T E} {a : Action}
    (hs : s.step body a = some s') :
    s'.gen = s.gen ∨ ∃ a', s.gen.step body a' = some s'.gen := by
  cases a with
  | access m =>
      obtain ⟨w, x, hw⟩ := access_eq hs
      exact .inr ⟨.access w, by simp [Coroutine.step, hw]⟩
  | body =>
      refine .inr ⟨.body, ?_⟩
      rcases hrun : Coroutine.runBody body s.gen with _ | ⟨g, _ | c⟩ <;>
        simp only [Client.step, hrun] at hs
      · cases hs
      · cases hs
        simp only [Coroutine.step, hrun]
      · simp only [Coroutine.step, hrun]
        exact resumeCaller_gen hs
  | wake =>
      obtain ⟨g, hg, rfl⟩ := Option.map_eq_some_iff.mp hs
      exact .inr ⟨.wake, hg⟩
  | finish =>
      left
      simp only [Client.step] at hs
      split at hs
      · cases hs
      · next k m hp => exact finish_gen hs

/-- **Every run of a client is a run of its generator.** -/
theorem exists_exec_gen (body : σ → BodyStep σ T E) (b : σ) (as : List Action) :
    ∃ as', Run.exec (Coroutine.step body) (.fresh b) as' =
      (Run.exec (step body) (start b) as).gen := by
  have hstep : ∀ (s : Client σ T E) (a : Action) (s' : Client σ T E),
      (∃ as', Run.exec (Coroutine.step body) (.fresh b) as' = s.gen) → s.step body a = some s' →
        ∃ as', Run.exec (Coroutine.step body) (.fresh b) as' = s'.gen := by
    rintro s a s' ⟨as', has⟩ hs
    obtain hgen | ⟨a', ha⟩ := step_gen hs
    · exact ⟨as', by rw [hgen, has]⟩
    · refine ⟨as' ++ [a'], ?_⟩
      rw [Run.exec_append, has, Run.exec_cons, Run.exec_nil,
        Run.tryStep_of_some (Coroutine.step body) s.gen ha]
  exact Run.exec_inv hstep ⟨[], rfl⟩ as

end Client

end Generator

end Cocls
