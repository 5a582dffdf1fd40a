import Cocls.Promise.NoOrphan

/-!
# Cocls.Future.Queries

`initialized()`, `pending()` and `ready()` of a future, over the whole of its life.

All three read one pointer: the marker `instance` before there is a promise, the
chain of awaiters until the future is resolved, the marker `disabled` from then
on.  `result_of` destroys the future and constructs it anew in its place, in any
of these states.

The value of a call is constructed without an exception here; `NoOrphan` has the
calls where it is not.
-/

namespace Cocls

/-- How the function given to `result_of` constructs the future, or that it throws. -/
inductive Captured (T E : Type*) where
  /-- by the default constructor -/
  | fresh
  /-- from a function, which receives the promise `p` -/
  | promise (p : Nat)
  /-- resolved: `set_value`, `set_exception`, `set_not_value` -/
  | resolved (r : Stored T E)
  /-- it throws; `p` is the temporary promise that resolves the future -/
  | throws (p : Nat) (e : E)
deriving DecidableEq, Repr

/-- Whether the future is resolved when it was captured. -/
def Captured.isResolved {T E : Type*} : Captured T E → Bool
  | .fresh | .promise _ => false
  | .resolved _ | .throws _ _ => true

namespace Promises

variable {T E : Type*}

section Definitions

variable (s : Promises T E) (f : Nat)

/-- `future_common::initialized()`. -/
def initialized : Bool := s.awaiter f = some .theInstance

/-- `future_common::pending()`. -/
def pending : Bool := s.awaiter f ≠ some .theInstance ∧ s.awaiter f ≠ some .disabled

/-- `~future()`, and a constructor in the same place. -/
def renew (given : Bool) (awaiter : Awaiter) (r : Stored T E) : Promises T E :=
  { s with given := Function.update s.given f given
           awaiter := Function.update s.awaiter f (some awaiter)
           stored := Function.update s.stored f r
           subs := Function.update s.subs f [] }

/-- `future()`. -/
def renewDefault : Promises T E := s.renew f false .theInstance .notValue

/-- `result_of`. -/
def resultOf : Captured T E → Promises T E
  | .fresh => s.renewDefault f
  | .promise p => (s.renewDefault f).construct f p
  | .resolved r => s.renew f true .disabled r
  | .throws p e =>
      ((((s.renewDefault f).construct f p).setValue p (.exception e) false).1).destroy p

/-- What the operation resolves. -/
def resolves : Op T E → Option Nat
  | .call p _ _ | .destroy p => s.owner p
  | .moveAssign p q => if p = q then none else s.owner p
  | .bind _ q .throwsAfterMove => s.owner q
  | _ => none

/-- It is a call, and the construction of its value throws. -/
def Op.throws : Op T E → Bool
  | .call _ _ throws => throws
  | _ => false

end Definitions

end Promises

/-- Futures through their lives: default construction, promises, and `result_of`.  A future is
`given` when a promise was obtained for it, or a result was captured. -/
structure Futures (T E : Type*) where
  base : Promises T E := {}
  /-- history: the future was resolved, or it was captured resolved -/
  resolved : Nat → Bool := fun _ => false

namespace Futures

variable {T E : Type*}

inductive Op (T E : Type*) where
  /-- `get_promise` or a constructor with a function makes the first promise of a future; what
  is done with promises; `subscribe` -/
  | promise (op : Promises.Op T E)
  | resultOf (f : Nat) (c : Captured T E)

/-- The future is resolved. -/
def markResolved (r : Nat → Bool) : Option Nat → Nat → Bool
  | none => r
  | some f => Function.update r f true

/-- The addresses that a capture needs are free. -/
def CanCapture (s : Promises T E) : Captured T E → Prop
  | .promise p | .throws p _ => s.promise p = none
  | .fresh | .resolved _ => True

instance (s : Promises T E) : DecidablePred (CanCapture s)
  | .promise p | .throws p _ => inferInstanceAs (Decidable (s.promise p = none))
  | .fresh | .resolved _ => .isTrue trivial

/-- One operation.  A pending future is not destroyed. -/
def step (s : Futures T E) : Op T E → Option (Futures T E)
  | .promise op =>
      if op.throws then none
      else (s.base.step op).map fun b => ⟨b, markResolved s.resolved (s.base.resolves op)⟩
  | .resultOf f c =>
      if s.base.pending f = false ∧ CanCapture s.base c then
        some ⟨s.base.resultOf f c, Function.update s.resolved f c.isResolved⟩
      else none

/-- The queries follow the life of the future. -/
structure FollowsLifeCycle (s : Futures T E) (f : Nat) : Prop where
  /-- from the first promise or captured result on -/
  initialized : s.base.initialized f = s.base.given f
  /-- as long as a promise points at the future -/
  pending : s.base.pending f = true ↔ ∃ p, s.base.promise p = some (some f)
  ready : s.base.ready f = s.resolved f
  /-- it is exactly one of not initialized, pending and ready -/
  one : [!s.base.initialized f, s.base.pending f, s.base.ready f].count true = 1

end Futures

namespace Promises

variable {T E : Type*} {s s' : Promises T E} {f p : Nat}

/-! ## What the operations do to the pointer -/

/-- The pointer of each future, after one was resolved. -/
def closed (a : Nat → Option Awaiter) : Option Nat → Nat → Option Awaiter
  | none => a
  | some f => Function.update a f (some .disabled)

theorem setValue_awaiter (p : Nat) (arg : PromiseArg T E) :
    (s.setValue p arg false).1.awaiter = closed s.awaiter (s.owner p) := by
  unfold setValue
  rw [claim_eq]
  cases s.owner p with
  | none => rfl
  | some f => cases arg <;> simp [closed, write]

theorem setValue_given (p : Nat) (arg : PromiseArg T E) :
    (s.setValue p arg false).1.given = s.given := by
  unfold setValue
  rw [claim_eq]
  cases s.owner p with
  | none => rfl
  | some f => cases arg <;> simp [write]

theorem setValue_owner (p : Nat) (arg : PromiseArg T E) :
    (s.setValue p arg false).1.owner p = none := by
  unfold setValue
  rw [claim_eq]
  cases s.owner p with
  | none => exact write_owner_self s p (some none)
  | some f =>
      cases arg <;> exact (resolve_owner _ p f).trans (write_owner_self s p (some none))

theorem destroy_awaiter (p : Nat) : (s.destroy p).awaiter = closed s.awaiter (s.owner p) := by
  rw [destroy_eq]
  cases s.owner p with
  | none => rfl
  | some f => exact resolve_awaiter s f

theorem destroy_given (p : Nat) : (s.destroy p).given = s.given := by
  rw [destroy_eq]
  cases s.owner p with
  | none => rfl
  | some f => exact resolve_given s f

/-- The operation resolves a future, or none, and that is all. -/
structure Settled (s s' : Promises T E) (o : Option Nat) : Prop where
  given : s'.given = s.given
  awaiter : s'.awaiter = closed s.awaiter o

theorem settled_moveAssign (p q : Nat) :
    Settled s (s.moveAssign p q) (if p = q then none else s.owner p) := by
  unfold moveAssign
  split
  · exact ⟨rfl, rfl⟩
  · exact ⟨setValue_given p .drop, setValue_awaiter p .drop⟩

theorem settled_bind (p q : Nat) (b : Binding) :
    Settled s (s.bind p q b) (s.resolves (.bind p q b)) := by
  cases b with
  | ok => exact ⟨rfl, rfl⟩
  | throwsBeforeMove => exact ⟨rfl, rfl⟩
  | throwsAfterMove =>
      have ho : (s.moveConstruct p q).owner p = s.owner q := by
        rw [moveConstruct_eq, write_owner_self]
        rfl
      refine ⟨destroy_given p, ?_⟩
      rw [bind, destroy_awaiter, ho]
      rfl

/-- An operation on promises that exist already. -/
theorem settled_of_step {op : Op T E} (ht : op.throws = false) (hs : s.step op = some s')
    (hc : ∀ f p, op ≠ .construct f p) (hsub : ∀ f i, op ≠ .subscribe f i) :
    Settled s s' (s.resolves op) := by
  cases op with
  | construct f p => exact absurd rfl (hc f p)
  | subscribe f i => exact absurd rfl (hsub f i)
  | create p =>
      obtain ⟨-, rfl⟩ := by simpa [step] using hs
      exact ⟨rfl, rfl⟩
  | moveConstruct p q =>
      obtain ⟨-, rfl⟩ := by simpa [step] using hs
      exact ⟨rfl, rfl⟩
  | moveAssign p q =>
      obtain ⟨-, rfl⟩ := by simpa [step] using hs
      exact settled_moveAssign p q
  | bind p q b =>
      obtain ⟨-, rfl⟩ := by simpa [step] using hs
      exact settled_bind p q b
  | call p arg throws =>
      obtain rfl : throws = false := ht
      obtain ⟨-, rfl⟩ := by simpa [step] using hs
      exact ⟨setValue_given p arg, setValue_awaiter p arg⟩
  | destroy p =>
      obtain ⟨-, rfl⟩ := by simpa [step] using hs
      exact ⟨destroy_given p, destroy_awaiter p⟩

/-- What an operation resolves has a promise. -/
theorem InvAt.given_of_resolves (hi : InvAt s none) {op : Op T E} (ho : s.resolves op = some f) :
    s.given f = true := by
  have hown : ∀ p, s.owner p = some f → s.given f = true := fun p hp =>
    (hi.live p f ((owner_eq_some_iff s p f).mp hp)).1
  unfold resolves at ho
  split at ho
  · exact hown _ ho
  · exact hown _ ho
  · split at ho
    · cases ho
    · exact hown _ ho
  · exact hown _ ho
  · cases ho

/-- A future that is not pending is destroyed and constructed anew. -/
theorem InvAt.renew (hi : InvAt s none) (hf : s.given f = true → s.ready f = true) {g : Bool}
    {a : Awaiter} (r : Stored T E) (hg : g = true → a = .disabled) :
    InvAt (s.renew f g a r) none := by
  have hne : ∀ {p f'}, s.promise p = some (some f') → f' ≠ f := by
    rintro p f' hp rfl
    obtain ⟨hgiven, hr, -⟩ := hi.live p f' hp
    rw [hf hgiven] at hr
    cases hr
  have hother : ∀ {f'}, f' ≠ f → (s.renew f g a r).given f' = s.given f' ∧
      (s.renew f g a r).ready f' = s.ready f' ∧ (s.renew f g a r).subs f' = s.subs f' := by
    intro f' hff
    simp [Promises.renew, ready, hff]
  have hself : (s.renew f g a r).given f = true → (s.renew f g a r).ready f = true := by
    intro hgiven
    simp [Promises.renew, ready, hg (by simpa [Promises.renew] using hgiven)]
  have hnil : (s.renew f g a r).subs f = [] := by simp [Promises.renew]
  have hsub : ∀ f', (s.renew f g a r).subs f' ⊆ s.subs f' := by
    intro f'
    by_cases hff : f' = f
    · rw [hff, hnil]
      exact List.nil_subset _
    · rw [(hother hff).2.2]
      exact List.Subset.refl _
  have hw := hi.woken
  refine ⟨fun f' hgiven => ?_, hi.unique, fun p f' hp => ?_, by simp, ?_⟩
  · by_cases hff : f' = f
    · subst hff
      exact .inl (hself hgiven)
    · rw [(hother hff).1] at hgiven
      rw [(hother hff).2.1]
      exact hi.owned f' hgiven
  · rw [(hother (hne hp)).1, (hother (hne hp)).2.1]
    exact hi.live p f' hp
  · exact
      { chain := fun f' hgiven hr => by
          by_cases hff : f' = f
          · subst hff
            rw [hself hgiven] at hr
            cases hr
          · rw [(hother hff).1] at hgiven
            rw [(hother hff).2.1] at hr
            have ha : (s.renew f g a r).awaiter f' = s.awaiter f' := by
              simp [Promises.renew, hff]
            rw [ha, (hother hff).2.2]
            exact hw.chain f' hgiven hr
        woken := fun f' hgiven hr i hmem => by
          by_cases hff : f' = f
          · subst hff
            rw [hnil] at hmem
            cases hmem
          · rw [(hother hff).1] at hgiven
            rw [(hother hff).2.1] at hr
            exact hw.woken f' hgiven hr i (hsub f' hmem)
        nodup := fun f' => by
          by_cases hff : f' = f
          · rw [hff, hnil]
            exact List.nodup_nil
          · rw [(hother hff).2.2]
            exact hw.nodup f'
        mem_used := fun f' i hmem => hw.mem_used f' i (hsub f' hmem)
        apart := fun f₁ f₂ i h₁ h₂ => hw.apart f₁ f₂ i (hsub f₁ h₁) (hsub f₂ h₂)
        not_given := fun f' hgiven => by
          by_cases hff : f' = f
          · rw [hff, hnil]
          · rw [(hother hff).1] at hgiven
            rw [(hother hff).2.2]
            exact hw.not_given f' hgiven
        fresh := hw.fresh
        returns := hw.returns }

section ResultOf

variable (s : Promises T E) (f : Nat)

/-- What `result_of` puts into the place of the future has a promise or a result, unless it was
constructed by default. -/
theorem resultOf_given (c : Captured T E) : (s.resultOf f c).given = Function.update s.given f
    (match c with
      | .fresh => false
      | _ => true) := by
  cases c with
  | fresh => rfl
  | promise p => simp [resultOf, construct, renewDefault, renew]
  | resolved r => rfl
  | throws p e =>
      rw [resultOf, destroy_given, setValue_given]
      simp [construct, renewDefault, renew]

/-- The temporary promise of `result_of` has resolved the future when it is destroyed. -/
theorem resultOf_awaiter (c : Captured T E) :
    (s.resultOf f c).awaiter = Function.update s.awaiter f
      (match c with
        | .fresh => some .theInstance
        | .promise _ => none
        | .resolved _ | .throws _ _ => some .disabled) := by
  cases c with
  | fresh => rfl
  | promise p => simp [resultOf, construct, renewDefault, renew]
  | resolved r => rfl
  | throws p e =>
      have ho : ((s.renewDefault f).construct f p).owner p = some f := by
        simp [construct, owner]
      rw [resultOf, destroy_awaiter, setValue_owner, closed, setValue_awaiter, ho]
      simp [closed, construct, renewDefault, renew]

end ResultOf

/-- `result_of` of a future that is not pending. -/
theorem InvAt.resultOf (hi : InvAt s none) (hf : s.given f = true → s.ready f = true)
    {c : Captured T E} (hc : Futures.CanCapture s c) : InvAt (s.resultOf f c) none := by
  have hdefault : InvAt (s.renewDefault f) none := hi.renew hf .notValue (by simp)
  have hgiven : (s.renewDefault f).given f = false := by simp [renewDefault, Promises.renew]
  cases c with
  | fresh => exact hdefault
  | promise p => exact hdefault.construct hgiven hc
  | resolved r => exact hi.renew hf r (by simp)
  | throws p e => exact ((hdefault.construct hgiven hc).setValue (by simp)).1.destroy

end Promises

namespace Futures

variable {T E : Type*} {s s' : Futures T E}

open Promises (InvAt Settled closed)

/-! ## Every run -/

/-- The invariant: besides that of the promises, what the pointer of a future is before its
first promise, and which futures were resolved. -/
structure Inv (s : Futures T E) : Prop where
  base : InvAt s.base none
  fresh : ∀ f, s.base.given f = false → s.base.awaiter f = some .theInstance
  resolved : ∀ f, s.resolved f = true ↔ s.base.given f = true ∧ s.base.ready f = true

/-- The pointer of a future that was given is not the marker of a fresh one. -/
theorem Inv.awaiter_ne (h : Inv s) {f : Nat} (hg : s.base.given f = true) :
    s.base.awaiter f ≠ some .theInstance := by
  cases hr : s.base.ready f with
  | true =>
      have ha : s.base.awaiter f = some .disabled := by simpa [Promises.ready] using hr
      rw [ha]
      decide
  | false =>
      have hlinks := h.base.woken.chain f hg hr
      intro ha
      rw [ha] at hlinks
      cases hs : s.base.subs f with
      | nil => rw [hs] at hlinks; cases hlinks
      | cons i is => rw [hs] at hlinks; cases hlinks.1

/-- A future without a promise, or with one that was not used yet. -/
theorem Inv.not_resolved (h : Inv s) {f : Nat}
    (hf : s.base.given f = false ∨ s.base.ready f = false) : s.resolved f = false := by
  cases hr : s.resolved f with
  | false => rfl
  | true =>
      obtain ⟨hgiven, hready⟩ := (h.resolved f).mp hr
      simp [hgiven, hready] at hf

/-- What the queries answer. -/
structure Answers (s : Futures T E) (f : Nat) : Prop where
  /-- the wrong way round -/
  initialized : s.base.initialized f = !s.base.given f
  pending : s.base.pending f = true ↔ ∃ p, s.base.promise p = some (some f)
  ready : s.base.ready f = s.resolved f

theorem Inv.answers (h : Inv s) (f : Nat) : Answers s f := by
  cases hg : s.base.given f with
  | false =>
      have ha := h.fresh f hg
      have hnot : ∀ p, s.base.promise p ≠ some (some f) := fun p hp => by
        have hgiven := (h.base.live p f hp).1
        rw [hg] at hgiven
        cases hgiven
      have hres := h.not_resolved (.inl hg)
      exact
        { initialized := by simp [Promises.initialized, ha, hg]
          pending := by simp [Promises.pending, ha, hnot]
          ready := by simp [Promises.ready, ha, hres] }
  | true =>
      have ha := h.awaiter_ne hg
      have hready : s.base.ready f = s.resolved f := by
        rw [Bool.eq_iff_iff, h.resolved f, hg]
        simp
      refine ⟨by simp [Promises.initialized, ha, hg], ?_, hready⟩
      have hpend : s.base.pending f = !s.base.ready f := by
        simp [Promises.pending, Promises.ready, ha]
      rw [hpend, Bool.not_eq_true']
      constructor
      · intro hr
        obtain hr' | hp | hheld := h.base.owned f hg
        · rw [hr] at hr'
          cases hr'
        · exact hp
        · cases hheld
      · rintro ⟨p, hp⟩
        exact (h.base.live p f hp).2.1

/-- Whatever the state of the future is, `initialized()` says the opposite. -/
theorem Answers.not_followsLifeCycle {f : Nat} (h : Answers s f) : ¬ FollowsLifeCycle s f := by
  intro hf
  have hi := hf.initialized
  rw [h.initialized] at hi
  cases hg : s.base.given f <;> rw [hg] at hi <;> cases hi

/-- One future changes. -/
theorem Inv.update (h : Inv s) {f : Nat} (hb : InvAt s'.base none)
    (hother : ∀ f', f' ≠ f → s'.base.given f' = s.base.given f' ∧
      s'.base.awaiter f' = s.base.awaiter f' ∧ s'.resolved f' = s.resolved f')
    (hfresh : s'.base.given f = false → s'.base.awaiter f = some .theInstance)
    (hres : s'.resolved f = true ↔ s'.base.given f = true ∧ s'.base.ready f = true) : Inv s' := by
  refine ⟨hb, fun f' => ?_, fun f' => ?_⟩
  · by_cases hff : f' = f
    · rw [hff]
      exact hfresh
    · obtain ⟨hg, ha, -⟩ := hother f' hff
      rw [hg, ha]
      exact h.fresh f'
  · by_cases hff : f' = f
    · rw [hff]
      exact hres
    · obtain ⟨hg, ha, hr⟩ := hother f' hff
      rw [hg, hr, Promises.ready, ha]
      exact h.resolved f'

/-- A future is resolved, or none. -/
theorem Inv.settled (h : Inv s) {b : Promises T E} {o : Option Nat} (hb : InvAt b none)
    (hs : Settled s.base b o) (ho : ∀ f, o = some f → s.base.given f = true) :
    Inv ⟨b, markResolved s.resolved o⟩ := by
  cases o with
  | none =>
      have hr : ∀ f, b.ready f = s.base.ready f := fun f => by
        rw [Promises.ready, hs.awaiter]
        rfl
      refine ⟨hb, fun f => ?_, fun f => ?_⟩
      · rw [hs.given, hs.awaiter]
        exact h.fresh f
      · rw [hs.given, hr]
        exact h.resolved f
  | some f =>
      have hg : b.given f = true := by rw [hs.given, ho f rfl]
      have ha : b.awaiter = Function.update s.base.awaiter f (some .disabled) := hs.awaiter
      refine h.update (f := f) hb (fun f' hff => ?_) (fun hfalse => ?_) ?_
      · simp [hs.given, ha, markResolved, hff]
      · rw [hg] at hfalse
        cases hfalse
      · simp [markResolved, hg, Promises.ready, ha]

/-- The first promise of a future. -/
theorem Inv.construct (h : Inv s) {f p : Nat} (hg : s.base.given f = false)
    (hp : s.base.promise p = none) : Inv ⟨s.base.construct f p, s.resolved⟩ := by
  have hres := h.not_resolved (.inl hg)
  refine h.update (f := f) (h.base.construct hg hp) (fun f' hff => ?_) (fun hfalse => ?_) ?_
  · simp [Promises.construct, hff]
  · simp [Promises.construct] at hfalse
  · simp [hres, Promises.ready, Promises.construct]

theorem Inv.subscribe (h : Inv s) {f i : Nat} (hg : s.base.given f = true)
    (hu : i ∉ s.base.used) : Inv ⟨s.base.subscribe f i, s.resolved⟩ := by
  have hb := h.base.subscribe hg hu
  cases hr : s.base.ready f with
  | true =>
      rw [Promises.subscribe_of_ready hr (h.base.woken.fresh i hu)] at hb ⊢
      exact ⟨hb, h.fresh, h.resolved⟩
  | false =>
      have hres := h.not_resolved (.inr hr)
      rw [Promises.subscribe_of_pending hr] at hb ⊢
      refine h.update (f := f) hb (fun f' hff => ?_) (fun hfalse => ?_) ?_
      · simp [hff]
      · rw [hg] at hfalse
        cases hfalse
      · simp [hres, Promises.ready]

/-- **A step keeps the invariant**: an operation on promises. -/
theorem Inv.promise (h : Inv s) {op : Promises.Op T E} (ht : op.throws = false)
    {b : Promises T E} (hs : s.base.step op = some b) :
    Inv ⟨b, markResolved s.resolved (s.base.resolves op)⟩ := by
  by_cases hc : ∃ f p, op = .construct f p
  · obtain ⟨f, p, rfl⟩ := hc
    obtain ⟨⟨hg, hp⟩, rfl⟩ := by simpa [Promises.step] using hs
    exact h.construct hg hp
  · by_cases hsub : ∃ f i, op = .subscribe f i
    · obtain ⟨f, i, rfl⟩ := hsub
      obtain ⟨⟨hg, hu⟩, rfl⟩ := by simpa [Promises.step] using hs
      exact h.subscribe hg hu
    · have hk : s.base.Keeps op := by
        unfold Promises.Keeps
        split
        · cases ht
        · trivial
      refine h.settled (Promises.inv_step h.base hk hs) (Promises.settled_of_step ht hs ?_ ?_)
        fun f ho => h.base.given_of_resolves ho
      · rintro f p rfl
        exact hc ⟨f, p, rfl⟩
      · rintro f i rfl
        exact hsub ⟨f, i, rfl⟩

/-- A future that is not pending has no promise. -/
theorem Inv.ready_of_not_pending (h : Inv s) {f : Nat} (hp : s.base.pending f = false)
    (hg : s.base.given f = true) : s.base.ready f = true := by
  have ha := h.awaiter_ne hg
  simpa [Promises.pending, Promises.ready, ha] using hp

theorem Inv.resultOf (h : Inv s) {f : Nat} {c : Captured T E}
    (hp : s.base.pending f = false) (hc : CanCapture s.base c) :
    Inv ⟨s.base.resultOf f c, Function.update s.resolved f c.isResolved⟩ := by
  have hready : s.base.given f = true → s.base.ready f = true := h.ready_of_not_pending hp
  have hb := h.base.resultOf hready hc
  have hgiven := Promises.resultOf_given s.base f c
  have hawaiter := Promises.resultOf_awaiter s.base f c
  refine h.update (f := f) hb (fun f' hff => ?_) ?_ ?_
  · simp [hgiven, hawaiter, hff]
  · simp only [hgiven, hawaiter, Function.update_self]
    cases c <;> simp
  · simp only [hgiven, Promises.ready, hawaiter, Function.update_self]
    cases c <;> simp [Captured.isResolved]

theorem Inv.step (h : Inv s) {op : Op T E} (hs : s.step op = some s') : Inv s' := by
  cases op with
  | promise op =>
      simp only [Futures.step] at hs
      split at hs
      · cases hs
      · next ht =>
        obtain ⟨b, hb, rfl⟩ := Option.map_eq_some_iff.mp hs
        exact h.promise (by simpa using ht) hb
  | resultOf f c =>
      simp only [Futures.step] at hs
      split at hs
      · next hcan =>
        cases hs
        exact h.resultOf hcan.1 hcan.2
      · cases hs

theorem inv_init : Inv ({} : Futures T E) :=
  ⟨Promises.inv_init, fun _ _ => rfl, by simp⟩

/-- In every run `pending()` and `ready()` are right, and `initialized()` is wrong. -/
theorem answers_exec (ops : List (Op T E)) (f : Nat) : Answers (Run.exec step {} ops) f := by
  have hstep : ∀ (s : Futures T E) op s', Inv s → s.step op = some s' → Inv s' :=
    fun _ _ _ h hs => h.step hs
  exact (Run.exec_inv hstep inv_init ops).answers f

/-- **`initialized()` is never right**: in no state that a run gets to do the queries follow the
life of any future. -/
theorem not_followsLifeCycle_exec (ops : List (Op T E)) (f : Nat) :
    ¬ FollowsLifeCycle (Run.exec step {} ops) f :=
  (answers_exec ops f).not_followsLifeCycle

/-- A future that was just constructed says that it is initialized. -/
theorem followsLifeCycle_fails : ¬ ∀ (ops : List (Op Nat Nat)) (f : Nat),
    FollowsLifeCycle (Run.exec step {} ops) f := by
  intro h
  exact absurd (h [] 0).initialized (by decide)

end Futures

end Cocls
