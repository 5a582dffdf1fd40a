import Cocls.SharedFuture

/-!
# Cocls.SharedFuture.Lifetime

How long the shared state of a `shared_future` lives.

A pending state is owned by its own tracer, a resolved one by its handles alone.
This holds for every order of steps that keeps away from three of them:
`get_promise`, which leaves a null `_ptr` null and replaces any other;
`init_if_needed` of a handle with a state, for the same reason; and `operator<<`
of a function whose future is still pending, which does not call `charge`
(`lifetime_iff`).
-/

namespace Cocls

namespace SharedFuture

open SharedPtr (Owns)

/-- What is asked of the shared states. -/
structure Lifetime (s : Sys) : Prop where
  /-- `get_promise` has found a state -/
  reached : s.fault = false
  /-- `init_if_needed` has left the states of the handles alone -/
  attached : s.detached = false
  /-- a state with a promise is there; once it is set up, its tracer owns it and waits for
  the resolution -/
  pending : ∀ x, s.promise x = true → ∃ st, s.obj x = some st ∧
    (st.setup ≠ none ∨ (Owns s.store (.tracer x) x ∧ st.awaiter = some (.object x)))
  /-- the tracer of a resolved state does not own it -/
  resolved : ∀ x st, s.obj x = some st → st.ready = true → st.setup = none →
    s.resuming x = false → ¬ Owns s.store (.tracer x) x
  /-- a state that nobody sets up or resolves is there as long as it has a handle -/
  released : ∀ x, s.promise x = false → s.resuming x = false → s.busy x = false →
    ((s.obj x).isSome ↔ ∃ h, s.handle h = some (some x))

/-- The steps that keep to it. -/
def Good (s : Sys) : Action → Prop
  | .getPromise _ => False
  | .initIfNeeded h => s.handle h = some none
  | .put _ made => made ≠ .pending
  | _ => True

/-! ## The invariant -/

/-- The promise has been used, or there was none. -/
def Settled (awaiter : Option Awaiter) : Prop :=
  awaiter = some .theInstance ∨ awaiter = some .disabled

/-- The collector before the tracer is subscribed. -/
def Unlinked (awaiter : Option Awaiter) (promise : Bool) : Prop :=
  (awaiter = none ∧ promise = true) ∨ (awaiter = some .disabled ∧ promise = false)

/-- What belongs together in the state at `x`: its collector, whether the tracer and the
parameter of `charge` own it, and what the resolution has still to do. -/
def Stage (x : Nat) (st : State) (tracer param : Prop) (promise resuming : Bool) : Prop :=
  match st.setup with
  | some .check =>
      ¬ tracer ∧ ¬ param ∧ resuming = false ∧
        (Unlinked st.awaiter promise ∨ (Settled st.awaiter ∧ promise = false))
  | some .charge => ¬ tracer ∧ ¬ param ∧ resuming = false ∧ Unlinked st.awaiter promise
  | some .subscribe => tracer ∧ param ∧ resuming = false ∧ Unlinked st.awaiter promise
  | some .refused =>
      tracer ∧ param ∧ resuming = false ∧ st.awaiter = some .disabled ∧ promise = false
  | none =>
      ¬ param ∧
        ((st.awaiter = some (.object x) ∧ tracer ∧ promise = true ∧ resuming = false) ∨
          (Settled st.awaiter ∧ promise = false ∧ (tracer ↔ resuming = true)))

theorem Unlinked.eq_none {awaiter : Option Awaiter} (h : Unlinked awaiter true) :
    awaiter = none := by
  rcases h with ⟨h, -⟩ | ⟨-, h⟩
  · exact h
  · cases h

/-- The resolution closes the collector of a state at any stage. -/
theorem Stage.resolve {x : Nat} {st : State} {tracer param : Prop} {resuming : Bool}
    (h : Stage x st tracer param true resuming) :
    Stage x { st with awaiter := some .disabled } tracer param false
      (st.awaiter = some (.object x)) := by
  obtain ⟨awaiter, setup⟩ := st
  have hclosed : Unlinked (some .disabled) false := .inr ⟨rfl, rfl⟩
  cases setup with
  | none =>
      obtain ⟨hparam, ⟨hawaiter, htracer, -⟩ | ⟨-, hfalse, -⟩⟩ := h
      · have hawaiter : awaiter = some (.object x) := hawaiter
        exact ⟨hparam, .inr ⟨.inr rfl, rfl, by simp [hawaiter, htracer]⟩⟩
      · cases hfalse
  | some setup =>
      cases setup with
      | check =>
          obtain ⟨htracer, hparam, -, hlinked | ⟨-, hfalse⟩⟩ := h
          · have hawaiter : awaiter = none := hlinked.eq_none
            exact ⟨htracer, hparam, by simp [hawaiter], .inl hclosed⟩
          · cases hfalse
      | charge =>
          obtain ⟨htracer, hparam, -, hlinked⟩ := h
          have hawaiter : awaiter = none := hlinked.eq_none
          exact ⟨htracer, hparam, by simp [hawaiter], hclosed⟩
      | subscribe =>
          obtain ⟨htracer, hparam, -, hlinked⟩ := h
          have hawaiter : awaiter = none := hlinked.eq_none
          exact ⟨htracer, hparam, by simp [hawaiter], hclosed⟩
      | refused =>
          obtain ⟨-, -, -, -, hfalse⟩ := h
          cases hfalse

/-- Only a state that is set up is resumed. -/
theorem Stage.resume {x : Nat} {st : State} {tracer param : Prop} {promise : Bool}
    (h : Stage x st tracer param promise true) :
    st.setup = none ∧ ¬ param ∧ promise = false ∧ Settled st.awaiter := by
  obtain ⟨awaiter, setup⟩ := st
  cases setup with
  | none =>
      obtain ⟨hparam, ⟨-, -, -, hfalse⟩ | ⟨hsettled, hpromise, -⟩⟩ := h
      · cases hfalse
      · exact ⟨rfl, hparam, hpromise, hsettled⟩
  | some setup =>
      cases setup with
      | check => obtain ⟨-, -, hfalse, -⟩ := h; cases hfalse
      | charge => obtain ⟨-, -, hfalse, -⟩ := h; cases hfalse
      | subscribe => obtain ⟨-, -, hfalse, -⟩ := h; cases hfalse
      | refused => obtain ⟨-, -, hfalse, -⟩ := h; cases hfalse

structure Inv (s : Sys) : Prop where
  reached : s.fault = false
  attached : s.detached = false
  next : ∀ x, s.next (.object x) = none
  handle : ∀ h x, Owns s.store (.handle h) x ↔ s.handle h = some (some x)
  tracer : ∀ x y, Owns s.store (.tracer x) y → y = x
  param : ∀ x y, Owns s.store (.param x) y → y = x
  fresh : ∀ x, s.fresh ≤ x → s.obj x = none
  gone : ∀ x, s.obj x = none → s.promise x = false ∧ s.resuming x = false
  stage : ∀ x st, s.obj x = some st →
    Stage x st (Owns s.store (.tracer x) x) (Owns s.store (.param x) x) (s.promise x)
      (s.resuming x)
  /-- the handle whose constructor or `get_promise` sets the state up -/
  held : ∀ x st, s.obj x = some st → st.setup ≠ none → ∃ h, s.handle h = some (some x)

theorem Inv.start : Inv {} where
  reached := rfl
  attached := rfl
  next _ := rfl
  handle h x := by simp [Owns]
  tracer x y h := by simp [Owns] at h
  param x y h := by simp [Owns] at h
  fresh _ _ := rfl
  gone _ _ := ⟨rfl, rfl⟩
  stage x st h := by simp [Sys.obj, SharedPtr.obj] at h
  held x st h := by simp [Sys.obj, SharedPtr.obj] at h

namespace Inv

variable {s : Sys}

theorem busy_iff {x : Nat} : s.busy x = true ↔ ∃ st, s.obj x = some st ∧ st.setup ≠ none := by
  unfold Sys.busy
  cases h : s.obj x with
  | none => simp
  | some st => simp [Option.isSome_iff_ne_none]

/-- A state that is not being set up is not busy. -/
theorem setup_eq_none {x : Nat} {st : State} (hst : s.obj x = some st) (hbusy : s.busy x = false) :
    st.setup = none := by
  by_contra hsetup
  rw [busy_iff.2 ⟨st, hst, hsetup⟩] at hbusy
  cases hbusy

/-- What nobody but the tracer can own is settled by the invariant. -/
theorem isSome_iff (hs : Inv s) {x : Nat} (hpromise : s.promise x = false)
    (hresuming : s.resuming x = false) (hbusy : s.busy x = false) :
    (s.obj x).isSome ↔ ∃ h, s.handle h = some (some x) := by
  constructor
  · intro hsome
    obtain ⟨st, hst⟩ := Option.isSome_iff_exists.1 hsome
    have hstage := hs.stage x st hst
    rw [Stage, setup_eq_none hst hbusy, hpromise, hresuming] at hstage
    obtain ⟨o, ho⟩ := SharedPtr.alive_iff.1 hsome
    cases o with
    | handle h => exact ⟨h, (hs.handle h x).1 ho⟩
    | tracer y =>
        obtain rfl := hs.tracer y x ho
        simp [ho] at hstage
    | param y =>
        obtain rfl := hs.param y x ho
        exact absurd ho hstage.1
  · rintro ⟨h, hh⟩
    exact ((hs.handle h x).2 hh).isSome

theorem lifetime (hs : Inv s) : Lifetime s where
  reached := hs.reached
  attached := hs.attached
  pending x hx := by
    cases hst : s.obj x with
    | none => rw [(hs.gone x hst).1] at hx; cases hx
    | some st =>
        refine ⟨st, rfl, ?_⟩
        by_cases hsetup : st.setup = none
        · have hstage := hs.stage x st hst
          rw [Stage, hsetup, hx] at hstage
          obtain ⟨-, ⟨hawaiter, htracer, -⟩ | ⟨-, hfalse, -⟩⟩ := hstage
          · exact .inr ⟨htracer, hawaiter⟩
          · cases hfalse
        · exact .inl hsetup
  resolved x st hst hready hsetup hresuming := by
    have hstage := hs.stage x st hst
    rw [Stage, hsetup, hresuming] at hstage
    obtain ⟨-, ⟨hawaiter, -⟩ | ⟨-, -, htracer⟩⟩ := hstage
    · simp [State.ready, hawaiter] at hready
    · simp [htracer]
  released x hpromise hresuming hbusy := hs.isSome_iff hpromise hresuming hbusy

/-! ### Handles -/

section Handles

variable {h : Nat} {v : Option (Option Nat)}

theorem owns_setHandle (hv : ∀ x, v = some (some x) → (s.obj x).isSome) {o : Owner} {y : Nat} :
    Owns (s.setHandle h v).store o y ↔
      if o = .handle h then v = some (some y) else Owns s.store o y := by
  have hjoin : ∀ x, v.join = some x ↔ v = some (some x) := by
    intro x
    cases v with
    | none => simp
    | some p => simp
  rw [Sys.setHandle, SharedPtr.owns_repoint fun x hx => hv x ((hjoin x).1 hx), hjoin]

theorem obj_of_setHandle {y : Nat} {st : State} (hy : (s.setHandle h v).obj y = some st) :
    s.obj y = some st :=
  SharedPtr.obj_of_repoint hy

/-- **Handles** come, go and change; no state that is being set up loses its handle. -/
theorem setHandle (hs : Inv s) (hfree : ∀ x, s.handle h = some (some x) → s.busy x = false)
    (hv : ∀ x, v = some (some x) → (s.obj x).isSome) : Inv (s.setHandle h v) := by
  have howns : ∀ o y, o ≠ .handle h → (Owns (s.setHandle h v).store o y ↔ Owns s.store o y) :=
    fun o y ho => by rw [owns_setHandle hv, if_neg ho]
  have hhandle : ∀ h' x, Owns (s.setHandle h v).store (.handle h') x ↔
      (s.setHandle h v).handle h' = some (some x) := by
    intro h' x
    by_cases hh : h' = h
    · rw [owns_setHandle hv, hh, if_pos rfl, Sys.setHandle_handle_self]
    · rw [howns _ _ (by simpa using hh), hs.handle, Sys.setHandle_handle_of_ne s hh]
  -- a state that is being set up has another handle
  have hheld : ∀ x st, s.obj x = some st → st.setup ≠ none →
      ∃ h', (s.setHandle h v).handle h' = some (some x) := by
    intro x st hst hsetup
    obtain ⟨h', hh'⟩ := hs.held x st hst hsetup
    have hne : h' ≠ h := by
      intro heq
      rw [heq] at hh'
      exact hsetup (setup_eq_none hst (hfree x hh'))
    exact ⟨h', by rwa [Sys.setHandle_handle_of_ne s hne]⟩
  have hfresh : ∀ x, s.obj x = none → (s.setHandle h v).obj x = none := by
    intro x hx
    cases hobj : (s.setHandle h v).obj x with
    | none => rfl
    | some st =>
        rw [obj_of_setHandle hobj] at hx
        cases hx
  have hgone : ∀ x, (s.setHandle h v).obj x = none →
      s.promise x = false ∧ s.resuming x = false := by
    intro x hx
    have hno : ∀ o, ¬ Owns (s.setHandle h v).store o x := by
      intro o ho
      have hsome : ((s.setHandle h v).obj x).isSome := ho.isSome
      rw [hx] at hsome
      cases hsome
    cases hst : s.obj x with
    | none => exact hs.gone x hst
    | some st =>
        have hsetup : st.setup = none := by
          by_contra hne
          obtain ⟨h', hh'⟩ := hheld x st hst hne
          exact hno _ ((hhandle h' x).2 hh')
        have htracer : ¬ Owns s.store (.tracer x) x :=
          fun ho => hno _ ((howns _ _ (by simp)).2 ho)
        have hstage := hs.stage x st hst
        rw [Stage, hsetup] at hstage
        obtain ⟨-, ⟨-, ho, -⟩ | ⟨-, hpromise, hresuming⟩⟩ := hstage
        · exact absurd ho htracer
        · exact ⟨hpromise, by simpa [htracer] using hresuming⟩
  refine ⟨hs.reached, hs.attached, hs.next, hhandle, fun x y h' => ?_, fun x y h' => ?_,
    fun x hx => hfresh x (hs.fresh x hx), hgone, fun x st hst => ?_,
    fun x st hst => hheld x st (obj_of_setHandle hst)⟩
  · exact hs.tracer x y ((howns _ _ (by simp)).1 h')
  · exact hs.param x y ((howns _ _ (by simp)).1 h')
  · have hstage := hs.stage x st (obj_of_setHandle hst)
    rwa [howns _ _ (by simp), howns _ _ (by simp)]

/-- `make_shared` for a handle. -/
theorem makeState (hs : Inv s) (hfree : ∀ x, s.handle h = some (some x) → s.busy x = false)
    {st : State} {promise : Bool} (hstage : Stage s.fresh st False False promise false) :
    Inv (s.makeState h st promise) := by
  have hs₁ : Inv (s.setHandle h (some none)) := hs.setHandle hfree (by simp)
  have hnone : (s.setHandle h (some none)).obj s.fresh = none := hs₁.fresh _ (Nat.le_refl _)
  have howns : ∀ o y, Owns (s.makeState h st promise).store o y ↔
      (o = .handle h ∧ y = s.fresh) ∨ Owns (s.setHandle h (some none)).store o y :=
    fun o y => SharedPtr.owns_make hnone
  have hold : ∀ o y, o ≠ .handle h →
      (Owns (s.makeState h st promise).store o y ↔ Owns (s.setHandle h (some none)).store o y) :=
    fun o y ho => by simp [howns, ho]
  have hnotFresh : ∀ o, ¬ Owns (s.setHandle h (some none)).store o s.fresh := by
    intro o ho
    have hsome : ((s.setHandle h (some none)).obj s.fresh).isSome := ho.isSome
    rw [hnone] at hsome
    cases hsome
  refine ⟨hs.reached, hs.attached, hs.next, fun h' x => ?_, fun x y h' => ?_, fun x y h' => ?_,
    fun x hx => ?_, fun x hx => ?_, fun x st' hst => ?_, fun x st' hst hsetup => ?_⟩
  · by_cases hh : h' = h
    · rw [howns, hh, hs₁.handle, Sys.setHandle_handle_self, Sys.makeState_handle_self]
      simp [eq_comm]
    · rw [hold _ _ (by simpa using hh), hs₁.handle, Sys.setHandle_handle_of_ne s hh,
        Sys.makeState_handle_of_ne s hh]
  · exact hs₁.tracer x y ((hold _ _ (by simp)).1 h')
  · exact hs₁.param x y ((hold _ _ (by simp)).1 h')
  · have hx' : s.fresh + 1 ≤ x := hx
    rw [Sys.makeState_obj_of_ne s (by omega)]
    exact hs₁.fresh x (by rw [Sys.setHandle_fresh]; omega)
  · by_cases hx' : x = s.fresh
    · rw [hx', Sys.makeState_obj_self] at hx
      cases hx
    · rw [Sys.makeState_obj_of_ne s hx'] at hx
      rw [Sys.makeState_promise_of_ne s hx']
      exact hs₁.gone x hx
  · rw [hold _ _ (by simp), hold _ _ (by simp)]
    by_cases hx' : x = s.fresh
    · subst hx'
      rw [Sys.makeState_obj_self] at hst
      cases hst
      have hresuming : (s.makeState h st promise).resuming s.fresh = false := (hs₁.gone _ hnone).2
      rw [Sys.makeState_promise_self, hresuming, eq_false (hnotFresh _), eq_false (hnotFresh _)]
      exact hstage
    · rw [Sys.makeState_obj_of_ne s hx'] at hst
      rw [Sys.makeState_promise_of_ne s hx']
      exact hs₁.stage x st' hst
  · by_cases hx' : x = s.fresh
    · exact ⟨h, by rw [hx', Sys.makeState_handle_self]⟩
    · rw [Sys.makeState_obj_of_ne s hx'] at hst
      obtain ⟨h', hh'⟩ := hs₁.held x st' hst hsetup
      have hne : h' ≠ h := by
        intro heq
        rw [heq, Sys.setHandle_handle_self] at hh'
        cases hh'
      rw [Sys.setHandle_handle_of_ne s hne] at hh'
      exact ⟨h', by rwa [Sys.makeState_handle_of_ne s hne]⟩

end Handles

end Inv

/-! ### Steps at one state -/

/-- A step from `s` to `s'` that only has to do with the state at `x`. -/
structure Local (x : Nat) (s s' : Sys) : Prop where
  handle : s'.handle = s.handle
  fresh : s'.fresh = s.fresh
  owns : ∀ o y, o ≠ .tracer x → o ≠ .param x → (Owns s'.store o y ↔ Owns s.store o y)
  tracer : ∀ y, Owns s'.store (.tracer x) y → y = x
  param : ∀ y, Owns s'.store (.param x) y → y = x
  obj : ∀ y, y ≠ x → s'.obj y = s.obj y
  promise : ∀ y, y ≠ x → s'.promise y = s.promise y
  resuming : ∀ y, y ≠ x → s'.resuming y = s.resuming y

namespace Local

variable {x : Nat} {s s' : Sys}

theorem refl (hs : Inv s) : Local x s s :=
  ⟨rfl, rfl, fun _ _ _ _ => Iff.rfl, hs.tracer x, hs.param x, fun _ _ => rfl, fun _ _ => rfl,
    fun _ _ => rfl⟩

theorem setState (hl : Local x s s') (st : State) : Local x s (s'.setState x st) where
  handle := hl.handle
  fresh := hl.fresh
  owns o y h₁ h₂ := by rw [Sys.setState_owns, hl.owns o y h₁ h₂]
  tracer y hy := hl.tracer y (by simpa using hy)
  param y hy := hl.param y (by simpa using hy)
  obj y hy := by rw [Sys.setState_obj_of_ne s' hy, hl.obj y hy]
  promise := hl.promise
  resuming := hl.resuming

theorem setPromise (hl : Local x s s') (b : Bool) : Local x s (s'.setPromise x b) where
  handle := hl.handle
  fresh := hl.fresh
  owns := hl.owns
  tracer := hl.tracer
  param := hl.param
  obj := hl.obj
  promise y hy := by
    rw [Sys.setPromise, ← hl.promise y hy]
    exact Function.update_of_ne hy ..
  resuming := hl.resuming

theorem setResuming (hl : Local x s s') (b : Bool) :
    Local x s { s' with resuming := Function.update s'.resuming x b } where
  handle := hl.handle
  fresh := hl.fresh
  owns := hl.owns
  tracer := hl.tracer
  param := hl.param
  obj := hl.obj
  promise := hl.promise
  resuming y hy := by
    rw [← hl.resuming y hy]
    exact Function.update_of_ne hy ..

theorem setNext (hl : Local x s s') (next : Awaiter.Nexts) :
    Local x s { s' with next := next } :=
  ⟨hl.handle, hl.fresh, hl.owns, hl.tracer, hl.param, hl.obj, hl.promise, hl.resuming⟩

/-- The tracer of the state at `x`, or the parameter of its `charge`, owns the state or not. -/
theorem repoint (hl : Local x s s') {o : Owner} (ho : o = .tracer x ∨ o = .param x)
    {p : Option Nat} (hp : ∀ y, p = some y → y = x ∧ (s'.obj y).isSome) :
    Local x s { s' with store := SharedPtr.repoint s'.store o p } := by
  have howns : ∀ o' y, Owns (SharedPtr.repoint s'.store o p) o' y ↔
      if o' = o then p = some y else Owns s'.store o' y :=
    fun o' y => SharedPtr.owns_repoint fun y hy => (hp y hy).2
  have honly : ∀ y, Owns s'.store o y → y = x := by
    rcases ho with rfl | rfl
    · exact hl.tracer
    · exact hl.param
  refine ⟨hl.handle, hl.fresh, fun o' y h₁ h₂ => ?_, fun y hy => ?_, fun y hy => ?_,
    fun y hy => ?_, hl.promise, hl.resuming⟩
  · have hne : o' ≠ o := by
      rintro rfl
      rcases ho with rfl | rfl
      · exact h₁ rfl
      · exact h₂ rfl
    rw [howns, if_neg hne]
    exact hl.owns o' y h₁ h₂
  · rw [howns] at hy
    split at hy
    · exact (hp y hy).1
    · exact hl.tracer y hy
  · rw [howns] at hy
    split at hy
    · exact (hp y hy).1
    · exact hl.param y hy
  · rw [← hl.obj y hy]
    cases hst : s'.obj y with
    | none =>
        cases hst' : SharedPtr.obj (SharedPtr.repoint s'.store o p) y with
        | none => exact hst'
        | some st => rw [Sys.obj, SharedPtr.obj_of_repoint hst'] at hst; cases hst
    | some st =>
        obtain ⟨o', ho'⟩ := SharedPtr.alive_iff.1 (Option.isSome_iff_exists.2 ⟨st, hst⟩)
        have hne : o' ≠ o := by
          rintro rfl
          exact hy (honly y ho')
        have hstill : Owns (SharedPtr.repoint s'.store o p) o' y := by
          rwa [howns, if_neg hne]
        exact (SharedPtr.obj_repoint hstill).trans hst

end Local

namespace Inv

variable {s s' : Sys} {x : Nat}

/-- A step at the state at `x` keeps the invariant if the parts of that state fit together. -/
theorem of_local (hs : Inv s) (hl : Local x s s') (hreached : s'.fault = false)
    (hattached : s'.detached = false) (hnext : ∀ y, s'.next (.object y) = none)
    (hx : (s.obj x).isSome)
    (hgone : s'.obj x = none → s'.promise x = false ∧ s'.resuming x = false)
    (hstage : ∀ st, s'.obj x = some st →
      Stage x st (Owns s'.store (.tracer x) x) (Owns s'.store (.param x) x) (s'.promise x)
        (s'.resuming x))
    (hheld : ∀ st, s'.obj x = some st → st.setup ≠ none → ∃ h, s.handle h = some (some x)) :
    Inv s' := by
  have howns : ∀ o y, y ≠ x → (Owns s'.store o y ↔ Owns s.store o y) := by
    intro o y hy
    by_cases ht : o = .tracer x
    · rw [ht]
      exact ⟨fun h => absurd (hl.tracer y h) hy, fun h => absurd (hs.tracer x y h) hy⟩
    · by_cases hp : o = .param x
      · rw [hp]
        exact ⟨fun h => absurd (hl.param y h) hy, fun h => absurd (hs.param x y h) hy⟩
      · exact hl.owns o y ht hp
  refine ⟨hreached, hattached, hnext, fun h y => ?_, fun y z h => ?_, fun y z h => ?_,
    fun y hy => ?_, fun y hy => ?_, fun y st hst => ?_, fun y st hst hsetup => ?_⟩
  · rw [hl.owns _ _ (by simp) (by simp), hl.handle]
    exact hs.handle h y
  · by_cases hyx : y = x
    · rw [hyx] at h ⊢
      exact hl.tracer z h
    · exact hs.tracer y z ((hl.owns _ _ (by simpa using hyx) (by simp)).1 h)
  · by_cases hyx : y = x
    · rw [hyx] at h ⊢
      exact hl.param z h
    · exact hs.param y z ((hl.owns _ _ (by simp) (by simpa using hyx)).1 h)
  · rw [hl.fresh] at hy
    have hne : y ≠ x := by
      rintro rfl
      rw [hs.fresh y hy] at hx
      cases hx
    rw [hl.obj y hne]
    exact hs.fresh y hy
  · by_cases hyx : y = x
    · rw [hyx] at hy ⊢
      exact hgone hy
    · rw [hl.obj y hyx] at hy
      rw [hl.promise y hyx, hl.resuming y hyx]
      exact hs.gone y hy
  · by_cases hyx : y = x
    · subst hyx
      exact hstage st hst
    · rw [hl.obj y hyx] at hst
      rw [hl.promise y hyx, hl.resuming y hyx, howns _ _ hyx, howns _ _ hyx]
      exact hs.stage y st hst
  · rw [hl.handle]
    by_cases hyx : y = x
    · subst hyx
      exact hheld st hst hsetup
    · rw [hl.obj y hyx] at hst
      exact hs.held y st hst hsetup

/-- The same for a step that keeps the state at `x` alive. -/
theorem of_local_obj (hs : Inv s) (hl : Local x s s') (hreached : s'.fault = false)
    (hattached : s'.detached = false) (hnext : ∀ y, s'.next (.object y) = none)
    (hx : (s.obj x).isSome) {st : State} (hobj : s'.obj x = some st)
    (hstage : Stage x st (Owns s'.store (.tracer x) x) (Owns s'.store (.param x) x) (s'.promise x)
      (s'.resuming x))
    (hheld : st.setup ≠ none → ∃ h, s.handle h = some (some x)) : Inv s' := by
  refine hs.of_local hl hreached hattached hnext hx (fun hnone => ?_) (fun st' h => ?_)
    (fun st' h hsetup => ?_)
  · rw [hobj] at hnone
    cases hnone
  · obtain rfl := Option.some.inj (hobj.symm.trans h)
    exact hstage
  · obtain rfl := Option.some.inj (hobj.symm.trans h)
    exact hheld hsetup

/-- A change of the object alone. -/
theorem setState (hs : Inv s) {st st' : State} (hst : s.obj x = some st)
    (hstage : Stage x st' (Owns s.store (.tracer x) x) (Owns s.store (.param x) x) (s.promise x)
      (s.resuming x))
    (hheld : st'.setup ≠ none → ∃ h, s.handle h = some (some x)) : Inv (s.setState x st') := by
  have hobj : (s.setState x st').obj x = some st' := by rw [Sys.setState_obj_self, hst]; rfl
  refine hs.of_local_obj ((Local.refl hs).setState st') hs.reached hs.attached hs.next
    (by rw [hst]; rfl) hobj ?_ hheld
  rw [Sys.setState_owns, Sys.setState_owns]
  exact hstage

/-- The collector of a state that is not pending is that of a settled promise. -/
theorem settled_of_not_pending {st : State} (h : st.pending = false) : Settled st.awaiter := by
  by_contra hnot
  obtain ⟨h₁, h₂⟩ := not_or.1 hnot
  simp [State.pending, h₁, h₂] at h

theorem check (hs : Inv s) {awaiter : Option Awaiter}
    (hst : s.obj x = some { awaiter, setup := some .check }) :
    Inv (s.setState x
      { awaiter, setup := if State.pending { awaiter } then some .charge else none }) := by
  obtain ⟨htracer, hparam, hresuming, hawaiter⟩ := hs.stage x _ hst
  refine hs.setState hst ?_ fun _ => hs.held x _ hst (by simp)
  by_cases hpending : State.pending { awaiter }
  · rw [if_pos hpending]
    refine ⟨htracer, hparam, hresuming, hawaiter.resolve_right ?_⟩
    rintro ⟨rfl | rfl, -⟩ <;> simp [State.pending] at hpending
  · rw [if_neg hpending]
    have hsettled := settled_of_not_pending (by simpa using hpending)
    have hpromise : s.promise x = false := by
      rcases hawaiter with (⟨rfl, -⟩ | ⟨-, h⟩) | ⟨-, h⟩
      · simp [State.pending] at hpending
      · exact h
      · exact h
    exact ⟨hparam, .inr ⟨hsettled, hpromise, by simp [htracer, hresuming]⟩⟩

/-- The parameter of `charge` and the tracer own the state. -/
theorem charge (hs : Inv s) {awaiter : Option Awaiter}
    (hst : s.obj x = some { awaiter, setup := some .charge }) :
    let s₁ := s.setState x { awaiter, setup := some .subscribe }
    let store := SharedPtr.repoint s₁.store (.param x) (some x)
    Inv { s₁ with store := SharedPtr.repoint store (.tracer x) (some x) } := by
  intro s₁ store
  obtain ⟨-, -, hresuming, hawaiter⟩ := hs.stage x _ hst
  have hobj₁ : s₁.obj x = some { awaiter, setup := some .subscribe } := by
    rw [Sys.setState_obj_self, hst]
    rfl
  have hsome₁ : (s₁.obj x).isSome := by rw [hobj₁]; rfl
  have hobj₂ : SharedPtr.obj store x = s₁.obj x := SharedPtr.obj_repoint_some hsome₁
  have hsome₂ : (SharedPtr.obj store x).isSome := by rw [hobj₂, hobj₁]; rfl
  have hobj₃ : SharedPtr.obj (SharedPtr.repoint store (.tracer x) (some x)) x =
      some { awaiter, setup := some .subscribe } := by
    rw [SharedPtr.obj_repoint_some hsome₂, hobj₂, hobj₁]
  have hl₁ : Local x s s₁ := (Local.refl hs).setState _
  have hl₂ : Local x s { s₁ with store := store } :=
    hl₁.repoint (.inr rfl) (by rintro y ⟨⟩; exact ⟨rfl, hsome₁⟩)
  have hl₃ : Local x s { s₁ with store := SharedPtr.repoint store (.tracer x) (some x) } :=
    hl₂.repoint (.inl rfl) (by rintro y ⟨⟩; exact ⟨rfl, hsome₂⟩)
  have htracer : Owns (SharedPtr.repoint store (.tracer x) (some x)) (.tracer x) x := by
    simp [SharedPtr.owns_repoint_some hsome₂]
  have hparam : Owns (SharedPtr.repoint store (.tracer x) (some x)) (.param x) x := by
    rw [SharedPtr.owns_repoint_some hsome₂, if_neg (by simp), SharedPtr.owns_repoint_some hsome₁]
    simp
  exact hs.of_local_obj hl₃ hs.reached hs.attached hs.next (by rw [hst]; rfl) hobj₃
    ⟨htracer, hparam, hresuming, hawaiter⟩ fun _ => hs.held x _ hst (by simp)

/-- The tracer is in the chain, and `charge` returns. -/
theorem subscribed (hs : Inv s) {awaiter : Option Awaiter}
    (hst : s.obj x = some { awaiter, setup := some .subscribe }) (hawaiter : awaiter = none) :
    let s₁ := s.setState x { awaiter := some (.object x), setup := none }
    Inv { s₁ with store := SharedPtr.repoint s₁.store (.param x) none } := by
  intro s₁
  obtain ⟨htracer, -, hresuming, hlinked⟩ := hs.stage x _ hst
  have hpromise : s.promise x = true := by
    rcases hlinked with ⟨-, h⟩ | ⟨h, -⟩
    · exact h
    · simp [hawaiter] at h
  have htracer₁ : Owns s₁.store (.tracer x) x := by rwa [Sys.setState_owns]
  have htracer₂ : Owns (SharedPtr.repoint s₁.store (.param x) none) (.tracer x) x :=
    SharedPtr.owns_repoint_none.2 ⟨by simp, htracer₁⟩
  have hparam₂ : ¬ Owns (SharedPtr.repoint s₁.store (.param x) none) (.param x) x :=
    fun h => (SharedPtr.owns_repoint_none.1 h).1 rfl
  have hobj₂ : SharedPtr.obj (SharedPtr.repoint s₁.store (.param x) none) x =
      some { awaiter := some (.object x), setup := none } := by
    rw [SharedPtr.obj_repoint htracer₂, ← Sys.obj, Sys.setState_obj_self, hst]
    rfl
  have hl : Local x s { s₁ with store := SharedPtr.repoint s₁.store (.param x) none } :=
    ((Local.refl hs).setState _).repoint (.inr rfl) (by simp)
  exact hs.of_local_obj hl hs.reached hs.attached hs.next (by rw [hst]; rfl) hobj₂
    ⟨hparam₂, .inl ⟨rfl, htracer₂, hpromise, hresuming⟩⟩ fun hsetup => absurd rfl hsetup

/-- The resolution was faster: the tracer gives the state up, and `charge` returns. -/
theorem refused (hs : Inv s) {awaiter : Option Awaiter}
    (hst : s.obj x = some { awaiter, setup := some .refused }) :
    let s₁ := s.setState x { awaiter, setup := none }
    let store := SharedPtr.repoint s₁.store (.tracer x) none
    Inv { s₁ with store := SharedPtr.repoint store (.param x) none } := by
  intro s₁ store
  obtain ⟨-, -, hresuming, hawaiter, hpromise⟩ := hs.stage x _ hst
  obtain ⟨h, hh⟩ := hs.held x _ hst (by simp)
  have hhandle₁ : Owns s₁.store (.handle h) x := by
    rw [Sys.setState_owns]
    exact (hs.handle h x).2 hh
  have hhandle₂ : Owns store (.handle h) x := SharedPtr.owns_repoint_none.2 ⟨by simp, hhandle₁⟩
  have hhandle₃ : Owns (SharedPtr.repoint store (.param x) none) (.handle h) x :=
    SharedPtr.owns_repoint_none.2 ⟨by simp, hhandle₂⟩
  have hobj₃ : SharedPtr.obj (SharedPtr.repoint store (.param x) none) x =
      some { awaiter, setup := none } := by
    rw [SharedPtr.obj_repoint hhandle₃, SharedPtr.obj_repoint hhandle₂, ← Sys.obj,
      Sys.setState_obj_self, hst]
    rfl
  have hl₂ : Local x s { s₁ with store := store } :=
    ((Local.refl hs).setState _).repoint (.inl rfl) (by simp)
  have hl₃ : Local x s { s₁ with store := SharedPtr.repoint store (.param x) none } :=
    hl₂.repoint (.inr rfl) (by simp)
  have htracer₃ : ¬ Owns (SharedPtr.repoint store (.param x) none) (.tracer x) x :=
    fun ho => (SharedPtr.owns_repoint_none.1 (SharedPtr.owns_repoint_none.1 ho).2).1 rfl
  have hparam₃ : ¬ Owns (SharedPtr.repoint store (.param x) none) (.param x) x :=
    fun ho => (SharedPtr.owns_repoint_none.1 ho).1 rfl
  refine hs.of_local_obj hl₃ hs.reached hs.attached hs.next (by rw [hst]; rfl) hobj₃
    ⟨hparam₃, .inr ⟨.inr hawaiter, hpromise, ?_⟩⟩ fun _ => ⟨h, hh⟩
  exact iff_of_false htracer₃ (by simp [s₁, Sys.setState, hresuming])

/-- One attempt to subscribe the tracer does not leave anything in its `_next`. -/
theorem setNext (hs : Inv s) {next : Awaiter.Nexts} (hnext : ∀ y, next (.object y) = none) :
    Inv { s with next := next } :=
  ⟨hs.reached, hs.attached, hnext, hs.handle, hs.tracer, hs.param, hs.fresh, hs.gone, hs.stage,
    hs.held⟩

/-- The next step to set a state up. -/
theorem setupStep (hs : Inv s) {spurious : Bool} (h : s.setupStep x spurious = some s') :
    Inv s' := by
  unfold Sys.setupStep at h
  split at h
  · next awaiter hst =>
      cases h
      exact hs.check hst
  · next awaiter hst =>
      cases h
      exact hs.charge hst
  · next awaiter hst =>
      obtain ⟨htracer, hparam, hresuming, hlinked⟩ := hs.stage x _ hst
      have hlinked : Unlinked awaiter (s.promise x) := hlinked
      by_cases hex : spurious = false ∧ awaiter = s.next (.object x)
      · rw [Awaiter.subscribeCheckReady_of_exchanged hex] at h
        cases h
        exact hs.subscribed hst (hex.2.trans (hs.next x))
      · rcases hlinked with ⟨hawaiter, hpromise⟩ | ⟨hawaiter, hpromise⟩
        · rw [Awaiter.subscribeCheckReady_of_retry hex (by rw [hawaiter]; simp)] at h
          cases h
          refine Inv.setNext (hs.setState hst ?_ fun _ => hs.held x _ hst (by simp)) fun y => ?_
          · exact ⟨htracer, hparam, hresuming, .inl ⟨hawaiter, hpromise⟩⟩
          · by_cases hy : y = x <;> simp [hy, hawaiter, hs.next]
        · rw [Awaiter.subscribeCheckReady_of_ready hex hawaiter] at h
          cases h
          refine Inv.setNext (hs.setState hst ?_ fun _ => hs.held x _ hst (by simp)) fun y => ?_
          · exact ⟨htracer, hparam, hresuming, hawaiter, hpromise⟩
          · by_cases hy : y = x <;> simp [hy, hs.next]
  · next awaiter hst =>
      cases h
      exact hs.refused hst
  · cases h

/-- The collector is closed, and the chain that is resumed has the tracer if it was linked. -/
theorem resolve (hs : Inv s) (hpromise : s.promise x = true) : Inv (s.resolve x) := by
  cases hst : s.obj x with
  | none => rw [(hs.gone x hst).1] at hpromise; cases hpromise
  | some st =>
      have hstep : s.resolve x =
          { (s.setPromise x false).setState x { st with awaiter := some .disabled } with
            resuming := Function.update s.resuming x (st.awaiter = some (.object x)) } := by
        simp only [Sys.resolve, Sys.setPromise_obj, hst]
        rfl
      have hl : Local x s (s.resolve x) := by
        rw [hstep]
        exact (((Local.refl hs).setPromise false).setState _).setResuming _
      have hobj : (s.resolve x).obj x = some { st with awaiter := some .disabled } := by
        have hself : ((s.setPromise x false).setState x { st with awaiter := some .disabled }).obj x
            = (s.obj x).map fun _ => { st with awaiter := some .disabled } :=
          Sys.setState_obj_self (s.setPromise x false)
        rw [hst] at hself
        rw [hstep]
        exact hself
      have hpromise' : (s.resolve x).promise x = false := by
        rw [hstep]
        exact Function.update_self ..
      have hresuming' : (s.resolve x).resuming x = (st.awaiter = some (.object x) : Bool) := by
        rw [hstep]
        exact Function.update_self ..
      have howns : ∀ o, Owns (s.resolve x).store o x ↔ Owns s.store o x := by
        intro o
        rw [hstep]
        exact Sys.setState_owns (s.setPromise x false)
      have hflags : (s.resolve x).fault = false ∧ (s.resolve x).detached = false ∧
          ∀ y, (s.resolve x).next (.object y) = none := by
        rw [hstep]
        exact ⟨hs.reached, hs.attached, hs.next⟩
      have hstage := hs.stage x st hst
      rw [hpromise] at hstage
      refine hs.of_local_obj hl hflags.1 hflags.2.1 hflags.2.2 (by rw [hst]; rfl) hobj ?_
        (hs.held x st hst)
      rw [howns, howns, hpromise', hresuming']
      exact hstage.resolve

/-- The tracer is resumed, and gives the state up. -/
theorem resume (hs : Inv s) (hresuming : s.resuming x = true) : Inv (s.resume x) := by
  cases hst : s.obj x with
  | none => rw [(hs.gone x hst).2] at hresuming; cases hresuming
  | some st =>
      have hst' : ({ s with resuming := Function.update s.resuming x false } : Sys).obj x =
          some st := hst
      have hstep : s.resume x =
          { s with
            resuming := Function.update s.resuming x false
            next := Function.update s.next (.object x) none
            store := SharedPtr.repoint s.store (.tracer x) none } := by
        simp only [Sys.resume, hst']
      have hl : Local x s (s.resume x) := by
        rw [hstep]
        exact (((Local.refl hs).setResuming false).setNext _).repoint (.inl rfl) (by simp)
      have hobj : ∀ st', (s.resume x).obj x = some st' → st' = st := by
        intro st' h'
        rw [hstep] at h'
        have hold : s.obj x = some st' := SharedPtr.obj_of_repoint h'
        rw [hst] at hold
        exact (Option.some.inj hold).symm
      have hpromise' : (s.resume x).promise = s.promise := by rw [hstep]
      have hresuming' : (s.resume x).resuming x = false := by
        rw [hstep]
        exact Function.update_self ..
      have howns : ∀ o, Owns (s.resume x).store o x ↔ o ≠ .tracer x ∧ Owns s.store o x := by
        intro o
        rw [hstep]
        exact SharedPtr.owns_repoint_none
      have hnext : ∀ y, (s.resume x).next (.object y) = none := by
        intro y
        rw [hstep]
        by_cases hy : y = x <;> simp [hy, hs.next]
      have hstage := hs.stage x st hst
      rw [hresuming] at hstage
      obtain ⟨hsetup, hparam, hpromise, hsettled⟩ := hstage.resume
      refine hs.of_local hl (by rw [hstep]; exact hs.reached) (by rw [hstep]; exact hs.attached)
        hnext (by rw [hst]; rfl) (fun _ => ?_) (fun st' h' => ?_) (fun st' h' hne => ?_)
      · exact ⟨by rw [hpromise', hpromise], hresuming'⟩
      · rw [hobj st' h', hpromise', hpromise, hresuming', Stage, hsetup]
        refine ⟨fun ho => hparam ((howns _).1 ho).2, .inr ⟨hsettled, rfl, ?_⟩⟩
        exact iff_of_false (fun ho => ((howns _).1 ho).1 rfl) (by simp)
      · rw [hobj st' h'] at hne
        exact absurd hsetup hne

/-- `operator<<` with a future that is not pending. -/
theorem put (hs : Inv s) {st : State} (hst : s.obj x = some st) (hbusy : s.busy x = false)
    (hpending : st.pending = false) {made : Made} (hmade : made ≠ .pending) :
    Inv ((s.setState x { st with awaiter := made.awaiter }).setPromise x (made = .pending)) := by
  have hsetup := setup_eq_none hst hbusy
  have hstage := hs.stage x st hst
  rw [Stage, hsetup] at hstage
  obtain ⟨hparam, ⟨hawaiter, -⟩ | ⟨-, hpromise, htracer⟩⟩ := hstage
  · simp [State.pending, hawaiter] at hpending
  · have hsettled : Settled made.awaiter := by
      cases made with
      | uninitialized => exact .inl rfl
      | pending => exact absurd rfl hmade
      | resolved => exact .inr rfl
    have hs' : Inv (s.setState x { st with awaiter := made.awaiter }) := by
      refine hs.setState hst ?_ fun h => absurd hsetup h
      simp only [Stage, hsetup]
      exact ⟨hparam, .inr ⟨hsettled, hpromise, htracer⟩⟩
    have hsame : (s.setState x { st with awaiter := made.awaiter }).setPromise x
        (made = .pending) = s.setState x { st with awaiter := made.awaiter } := by
      have hfalse : decide (made = Made.pending) = s.promise x := by simp [hmade, hpromise]
      rw [Sys.setPromise, hfalse]
      simp [Sys.setState]
    rw [hsame]
    exact hs'

/-! ### All steps -/

theorem free_spec {h : Nat} {p : Option Nat} (hp : s.free h = some p) :
    s.handle h = some p ∧ ∀ x, p = some x → s.busy x = false := by
  unfold Sys.free at hp
  split at hp
  · next x hx =>
      by_cases hbusy : s.busy x = true
      · rw [if_pos hbusy] at hp
        cases hp
      · rw [if_neg hbusy] at hp
        cases hp
        refine ⟨hx, ?_⟩
        rintro y ⟨⟩
        simpa using hbusy
  · next hnot =>
      refine ⟨hp, ?_⟩
      rintro y rfl
      exact absurd hp (hnot y)

theorem isSome_of_handle (hs : Inv s) {h : Nat} (hh : s.handle h = some (some x)) :
    (s.obj x).isSome :=
  ((hs.handle h x).2 hh).isSome

/-- A free handle with a state has one that is not busy. -/
theorem exists_state_of_free (hs : Inv s) {h : Nat} (hp : s.free h = some (some x)) :
    ∃ st, s.obj x = some st ∧ s.busy x = false := by
  obtain ⟨hhandle, hbusy⟩ := free_spec hp
  obtain ⟨st, hst⟩ := Option.isSome_iff_exists.1 (hs.isSome_of_handle hhandle)
  exact ⟨st, hst, hbusy x rfl⟩

theorem busy_setHandle {h : Nat} {v : Option (Option Nat)} (hbusy : s.busy x = false) :
    (s.setHandle h v).busy x = false := by
  by_contra hne
  obtain ⟨st, hst, hsetup⟩ := busy_iff.1 (by simpa using hne)
  rw [busy_iff.2 ⟨st, obj_of_setHandle hst, hsetup⟩] at hbusy
  cases hbusy

/-- A handle gets the pointer of another one. -/
theorem setHandle_of_free (hs : Inv s) {h h' : Nat} {p : Option Nat}
    (hfree : ∀ y, s.handle h = some (some y) → s.busy y = false) (hp : s.free h' = some p) :
    Inv (s.setHandle h (some p)) := by
  refine hs.setHandle hfree fun y hy => ?_
  cases hy
  exact hs.isSome_of_handle (free_spec hp).1

/-- A handle gets the pointer of another one, which is null afterwards. -/
theorem setHandle_move (hs : Inv s) {h h' : Nat} {p : Option Nat} (hne : h' ≠ h)
    (hfree : ∀ y, s.handle h = some (some y) → s.busy y = false) (hp : s.free h' = some p) :
    Inv ((s.setHandle h (some p)).setHandle h' (some none)) := by
  refine (hs.setHandle_of_free hfree hp).setHandle (fun y hy => ?_) (by simp)
  obtain ⟨hhandle, hbusy⟩ := free_spec hp
  rw [Sys.setHandle_handle_of_ne s hne, hhandle] at hy
  cases hy
  exact busy_setHandle (hbusy y rfl)

/-- The handle is free. -/
theorem busy_of_free {h : Nat} {p : Option Nat} (hp : s.free h = some p) (y : Nat)
    (hy : s.handle h = some (some y)) : s.busy y = false := by
  obtain ⟨hhandle, hbusy⟩ := free_spec hp
  rw [hhandle] at hy
  cases hy
  exact hbusy y rfl

theorem initIfNeeded_of_null {h : Nat} (hh : s.handle h = some none) : s.initIfNeeded h = s := by
  rw [Sys.initIfNeeded, hh]

/-- **Step lemma**: a good step keeps the invariant. -/
theorem step (hs : Inv s) {a : Action} (hgood : Good s a) (h : s.step a = some s') : Inv s' := by
  have hnew : ∀ h', s.handle h' = none → ∀ y, s.handle h' = some (some y) → s.busy y = false :=
    fun h' hnone y hy => by rw [hnone] at hy; cases hy
  cases a with
  | construct h' =>
      obtain ⟨hnone, h⟩ := Option.ite_none_right_eq_some.1 h
      cases h
      exact hs.setHandle (hnew h' hnone) (by simp)
  | fromPromise h' early =>
      obtain ⟨hnone, h⟩ := Option.ite_none_right_eq_some.1 h
      cases h
      refine hs.makeState (hnew h' hnone) ⟨not_false, not_false, rfl, ?_⟩
      cases early with
      | false => exact .inl ⟨rfl, rfl⟩
      | true => exact .inr ⟨rfl, rfl⟩
  | fromFuture h' made =>
      obtain ⟨hnone, h⟩ := Option.ite_none_right_eq_some.1 h
      cases h
      refine hs.makeState (hnew h' hnone) ⟨not_false, not_false, rfl, ?_⟩
      cases made with
      | uninitialized => exact .inr ⟨.inl rfl, rfl⟩
      | pending => exact .inl (.inl ⟨rfl, rfl⟩)
      | resolved => exact .inr ⟨.inr rfl, rfl⟩
  | copy h₁ h₂ =>
      obtain ⟨hnone, h⟩ := Option.ite_none_right_eq_some.1 h
      obtain ⟨p, hp, rfl⟩ := Option.map_eq_some_iff.1 h
      exact hs.setHandle_of_free (hnew h₂ hnone) hp
  | move h₁ h₂ =>
      obtain ⟨hnone, h⟩ := Option.ite_none_right_eq_some.1 h
      obtain ⟨p, hp, rfl⟩ := Option.map_eq_some_iff.1 h
      have hne : h₁ ≠ h₂ := by
        rintro rfl
        rw [(free_spec hp).1] at hnone
        cases hnone
      exact hs.setHandle_move hne (hnew h₂ hnone) hp
  | assign h₁ h₂ =>
      obtain ⟨p₁, hp₁, h⟩ := Option.bind_eq_some_iff.1 h
      obtain ⟨p, hp, rfl⟩ := Option.map_eq_some_iff.1 h
      exact hs.setHandle_of_free (busy_of_free hp₁) hp
  | moveAssign h₁ h₂ =>
      simp only [Sys.step] at h
      split at h
      · obtain ⟨p, -, rfl⟩ := Option.map_eq_some_iff.1 h
        exact hs
      · next hne =>
          obtain ⟨p₁, hp₁, h⟩ := Option.bind_eq_some_iff.1 h
          obtain ⟨p, hp, rfl⟩ := Option.map_eq_some_iff.1 h
          exact hs.setHandle_move (Ne.symm hne) (busy_of_free hp₁) hp
  | destroy h' =>
      obtain ⟨p, hp, rfl⟩ := Option.map_eq_some_iff.1 h
      exact hs.setHandle (busy_of_free hp) (by simp)
  | initIfNeeded h' =>
      obtain ⟨p, -, rfl⟩ := Option.map_eq_some_iff.1 h
      rw [initIfNeeded_of_null hgood]
      exact hs
  | getPromise h' => exact hgood.elim
  | put h' made =>
      simp only [Sys.step] at h
      split at h
      · next y hp =>
          obtain ⟨st, hst, hbusy⟩ := hs.exists_state_of_free hp
          rw [hst] at h
          obtain ⟨hpending, h⟩ := Option.ite_none_left_eq_some.1 h
          cases h
          exact hs.put hst hbusy (by simpa using hpending) hgood
      · cases h
  | setup y spurious => exact hs.setupStep h
  | resolve y =>
      obtain ⟨hpromise, h⟩ := Option.ite_none_right_eq_some.1 h
      cases h
      exact hs.resolve hpromise
  | resume y =>
      obtain ⟨hresuming, h⟩ := Option.ite_none_right_eq_some.1 h
      cases h
      exact hs.resume hresuming

end Inv

/-! ## The steps that break it -/

/-- `init_if_needed` replaces the state of the handle. -/
theorem detached_of_initIfNeeded {s : Sys} {h x : Nat} (hh : s.handle h = some (some x)) :
    (s.initIfNeeded h).detached = true := by
  rw [Sys.initIfNeeded, hh]

/-- `get_promise` does so as well, or finds no state. -/
theorem getPromise_bad {s : Sys} {h : Nat} {p : Option Nat} (hh : s.handle h = some p) :
    (s.getPromise h).fault = true ∨ (s.getPromise h).detached = true := by
  cases p with
  | none =>
      refine .inl ?_
      rw [Sys.getPromise, Inv.initIfNeeded_of_null hh, hh]
  | some x =>
      refine .inr ?_
      have hdetached := detached_of_initIfNeeded hh
      have hhandle : (s.initIfNeeded h).handle h = some (some s.fresh) := by
        have hself : (s.makeState h { awaiter := some .theInstance } false).handle h =
            some (some s.fresh) := Sys.makeState_handle_self s
        rw [Sys.initIfNeeded, hh]
        exact hself
      simp only [Sys.getPromise, hhandle]
      exact hdetached

/-- The future that `operator<<` takes over has no tracer in its chain. -/
theorem put_bad {s : Sys} {x : Nat} {st : State} (hst : s.obj x = some st)
    (hbusy : s.busy x = false) :
    ¬ Lifetime ((s.setState x { st with awaiter := Made.pending.awaiter }).setPromise x true) := by
  intro hl
  obtain ⟨st', hst', hcase⟩ := hl.pending x (Function.update_self ..)
  rw [Sys.setPromise_obj, Sys.setState_obj_self, hst] at hst'
  cases hst'
  rcases hcase with hsetup | ⟨-, hawaiter⟩
  · have hnone := Inv.setup_eq_none hst hbusy
    exact hsetup hnone
  · cases hawaiter

/-- **Bad steps show**: every other step breaks what is asked. -/
theorem not_lifetime_of_bad {s s' : Sys} (hs : Inv s) {a : Action} (hbad : ¬ Good s a)
    (h : s.step a = some s') : ¬ Lifetime s' := by
  cases a with
  | initIfNeeded h' =>
      obtain ⟨p, hp, rfl⟩ := Option.map_eq_some_iff.1 h
      have hhandle := (Inv.free_spec hp).1
      cases p with
      | none => exact absurd hhandle hbad
      | some x =>
          intro hl
          have hattached := hl.attached
          rw [detached_of_initIfNeeded hhandle] at hattached
          cases hattached
  | getPromise h' =>
      obtain ⟨p, hp, rfl⟩ := Option.map_eq_some_iff.1 h
      intro hl
      rcases getPromise_bad (Inv.free_spec hp).1 with hfault | hdetached
      · rw [hl.reached] at hfault
        cases hfault
      · rw [hl.attached] at hdetached
        cases hdetached
  | put h' made =>
      obtain rfl : made = .pending := by simpa [Good] using hbad
      simp only [Sys.step] at h
      split at h
      · next x hp =>
          obtain ⟨st, hst, hbusy⟩ := hs.exists_state_of_free hp
          rw [hst] at h
          obtain ⟨-, h⟩ := Option.ite_none_left_eq_some.1 h
          cases h
          exact put_bad hst hbusy
      · cases h
  | construct | fromPromise | fromFuture | copy | move | assign | moveAssign | destroy | setup
  | resolve | resume => exact absurd trivial hbad

/-- **Lifetime**: the states live as they should in every state of a run exactly if the run
keeps to the good steps. -/
theorem lifetime_iff (as : List Action) :
    (∀ n, Lifetime (Run.exec Sys.step {} (as.take n))) ↔ Run.Meets Sys.step Good {} as :=
  Run.safe_iff_meets (fun _ _ _ hs hgood h => hs.step hgood h)
    (fun _ _ _ hs hbad h => not_lifetime_of_bad hs hbad h) (fun _ hs => hs.lifetime) Inv.start as

/-- The promise of a default-constructed handle. -/
theorem lifetime_fails :
    ¬ ∀ n, Lifetime (Run.exec Sys.step {} ([Action.construct 0, .getPromise 0].take n)) := by
  intro hl
  have hreached := (hl 2).reached
  simp [Run.tryStep, Sys.step, Sys.free, Sys.getPromise, Sys.initIfNeeded] at hreached

end SharedFuture

end Cocls
