import Mathlib.Data.List.Nodup
import Mathlib.Data.List.Perm.Subperm
import Cocls.Promise

/-!
# Cocls.Promise.NoOrphan

No future is orphaned, except by a call that throws.

Between its `claim` and its `resolve`, or until it has put the pointer into
another promise object, an operation *holds* a future that no promise points at.
`InvAt` is the invariant with the future held; `claim` starts holding, `resolve`
and `put` end it.  An operation that returns holds nothing.  A call that throws
leaves its future behind: then, and only then, there is an orphan, and no later
operation can reach it.
-/

namespace Cocls

namespace Promises

variable {T E : Type*}

/-- Write a promise object: none, an empty one, or one that points at a future. -/
def write (s : Promises T E) (p : Nat) (v : Option (Option Nat)) : Promises T E :=
  { s with promise := Function.update s.promise p v }

section Fields

variable (s : Promises T E) (p f : Nat) (v : Option (Option Nat))

@[simp] theorem resolve_promise : (s.resolve f).promise = s.promise := by
  unfold resolve
  dsimp only
  split <;> rfl

@[simp] theorem resolve_given : (s.resolve f).given = s.given := by
  unfold resolve
  dsimp only
  split <;> rfl

@[simp] theorem resolve_awaiter :
    (s.resolve f).awaiter = Function.update s.awaiter f (some .disabled) := by
  unfold resolve
  dsimp only
  split <;> rfl

@[simp] theorem resolve_owner : (s.resolve f).owner p = s.owner p := by
  rw [owner, owner, resolve_promise]

theorem owner_eq_some_iff : s.owner p = some f ↔ s.promise p = some (some f) := by
  rw [owner]
  cases s.promise p <;> simp

theorem claim_eq : s.claim p = (s.write p (some none), s.owner p) := rfl

@[simp] theorem write_owner_self : (s.write p v).owner p = v.join := by
  simp [owner, write]

theorem write_owner_of_ne {q : Nat} (hq : q ≠ p) : (s.write p v).owner q = s.owner q := by
  simp [owner, write, hq]

/-- What `set_value` does to the state: it empties the promise; a future it
pointed at gets the outcome and is resolved, unless the construction throws. -/
theorem setValue_fst (arg : PromiseArg T E) (throws : Bool) :
    (∃ f v, s.owner p = some f ∧ arg = .value v ∧ throws = true ∧
      (s.setValue p arg throws).1 = s.write p (some none)) ∨
    (s.owner p = none ∧ (s.setValue p arg throws).1 = s.write p (some none)) ∨
    ∃ f stored, s.owner p = some f ∧ (s.setValue p arg throws).1 =
      { s.write p (some none) with stored := stored }.resolve f := by
  unfold setValue
  rw [claim_eq]
  cases ho : s.owner p with
  | none => exact .inr (.inl ⟨rfl, rfl⟩)
  | some f =>
      cases arg with
      | value v =>
          cases throws with
          | true => exact .inl ⟨f, v, rfl, rfl, rfl, rfl⟩
          | false => exact .inr (.inr ⟨f, _, rfl, rfl⟩)
      | exception e => exact .inr (.inr ⟨f, _, rfl, rfl⟩)
      | drop => exact .inr (.inr ⟨f, s.stored, rfl, rfl⟩)

theorem moveConstruct_eq (q : Nat) :
    s.moveConstruct p q = (s.write q (some none)).write p (some (s.owner q)) := rfl

theorem destroy_eq : s.destroy p =
    (match s.owner p with
      | none => s
      | some f => s.resolve f).write p none := rfl

theorem destroy_of_none (h : s.owner p = none) : s.destroy p = s.write p none := by
  rw [destroy_eq, h]

theorem destroy_of_some (h : s.owner p = some f) :
    s.destroy p = (s.resolve f).write p none := by
  rw [destroy_eq, h]

end Fields

/-! ## The invariant -/

/-- What holds of the awaiters and collectors of all futures. -/
structure Woken (s : Promises T E) : Prop where
  chain : ∀ f, s.given f = true → s.ready f = false →
    Links s.next (s.awaiter f) ((s.subs f).map .object) none
  woken : ∀ f, s.given f = true → s.ready f = true → ∀ i ∈ s.subs f, i ∈ s.resumed
  nodup : ∀ f, (s.subs f).Nodup
  mem_used : ∀ f, ∀ i ∈ s.subs f, i ∈ s.used
  apart : ∀ f f' i, i ∈ s.subs f → i ∈ s.subs f' → f = f'
  not_given : ∀ f, s.given f = false → s.subs f = []
  fresh : ∀ i, i ∉ s.used → s.next (.object i) = none
  returns : s.hung = false

/-- The invariant, while an operation holds the future `held`. -/
structure InvAt (s : Promises T E) (held : Option Nat) : Prop where
  owned : ∀ f, s.given f = true →
    s.ready f = true ∨ (∃ p, s.promise p = some (some f)) ∨ held = some f
  unique : ∀ p q f, s.promise p = some (some f) → s.promise q = some (some f) → p = q
  live : ∀ p f, s.promise p = some (some f) →
    s.given f = true ∧ s.ready f = false ∧ held ≠ some f
  holds : ∀ f, held = some f → s.given f = true ∧ s.ready f = false
  woken : Woken s

theorem inv_init : InvAt ({} : Promises T E) none where
  owned := by simp
  unique := by simp
  live := by simp
  holds := by simp
  woken := by constructor <;> simp [ready]

section Moves

variable {s : Promises T E} {held : Option Nat} {p f : Nat}

/-- Writing a promise object exchanges what it points at for what is held: a
`claim` writes null, a move writes what was claimed. -/
theorem InvAt.write (hi : InvAt s held) {v : Option (Option Nat)} (hv : v.join = held) :
    InvAt (s.write p v) (s.owner p) := by
  have hown : ∀ q f, (s.write p v).promise q = some (some f) ↔
      (q = p ∧ held = some f) ∨ (q ≠ p ∧ s.promise q = some (some f)) := by
    intro q f
    rw [← owner_eq_some_iff]
    by_cases hq : q = p
    · simp [hq, hv]
    · rw [write_owner_of_ne _ _ _ hq, owner_eq_some_iff]
      simp [hq]
  constructor
  · intro f hf
    rcases hi.owned f hf with hr | ⟨q, hq⟩ | hheld
    · exact .inl hr
    · by_cases hqp : q = p
      · exact .inr (.inr ((owner_eq_some_iff s p f).mpr (hqp ▸ hq)))
      · exact .inr (.inl ⟨q, (hown q f).mpr (.inr ⟨hqp, hq⟩)⟩)
    · exact .inr (.inl ⟨p, (hown p f).mpr (.inl ⟨rfl, hheld⟩)⟩)
  · intro q r f hq hr
    rcases (hown q f).mp hq with ⟨hqp, hheld⟩ | ⟨-, hq'⟩ <;>
      rcases (hown r f).mp hr with ⟨hrp, hheld'⟩ | ⟨-, hr'⟩
    · rw [hqp, hrp]
    · exact absurd hheld (hi.live r f hr').2.2
    · exact absurd hheld' (hi.live q f hq').2.2
    · exact hi.unique q r f hq' hr'
  · intro q f hq
    rcases (hown q f).mp hq with ⟨rfl, hheld⟩ | ⟨hqp, hq⟩
    · obtain ⟨hg, hr⟩ := hi.holds f hheld
      exact ⟨hg, hr, fun ho => (hi.live q f ((owner_eq_some_iff s q f).mp ho)).2.2 hheld⟩
    · obtain ⟨hg, hr, -⟩ := hi.live q f hq
      exact ⟨hg, hr, fun ho => hqp (hi.unique q p f hq ((owner_eq_some_iff s p f).mp ho))⟩
  · intro f ho
    obtain ⟨hg, hr, -⟩ := hi.live p f ((owner_eq_some_iff s p f).mp ho)
    exact ⟨hg, hr⟩
  · have hw := hi.woken
    exact ⟨hw.chain, hw.woken, hw.nodup, hw.mem_used, hw.apart, hw.not_given, hw.fresh, hw.returns⟩

/-- The addresses of awaiter objects. -/
theorem addresses_map (is : List Nat) : addresses (is.map .object) = is := by
  induction is with
  | nil => rfl
  | cons i is ih => simp [addresses]

/-- The chain of a pending future is resumed as a whole. -/
theorem Woken.resolve (hw : Woken s) (hg : s.given f = true) (hr : s.ready f = false) :
    Woken (s.resolve f) := by
  have hnd : ((s.subs f).map Awaiter.object).Nodup :=
    (hw.nodup f).map fun i j h => by simpa using h
  have hlen : ((s.subs f).map Awaiter.object).length ≤ s.used.length := by
    rw [List.length_map]
    exact ((hw.nodup f).subperm (hw.mem_used f)).length_le
  obtain ⟨next, hrun, hframe⟩ := Awaiter.resumeChainLk_spec (hw.chain f hg hr) hnd hlen
  have heq : s.resolve f =
      { s with awaiter := Function.update s.awaiter f (some .disabled), next := next
               resumed := s.resumed ++ s.subs f } := by
    simp only [Promises.resolve, hrun, addresses_map]
  have hready : ∀ f', (s.resolve f).ready f' = true ↔ f' = f ∨ s.ready f' = true := by
    intro f'
    by_cases hf : f' = f
    · simp [ready, hf]
    · simp [ready, hf]
  rw [heq] at hready ⊢
  refine ⟨?_, ?_, hw.nodup, hw.mem_used, hw.apart, hw.not_given, ?_, hw.returns⟩
  · intro f' hg' hr'
    have hf : f' ≠ f ∧ s.ready f' = false := by
      have hnot : ¬ (f' = f ∨ s.ready f' = true) := by
        rw [← hready f']
        simpa using hr'
      simpa [not_or] using hnot
    have hlinks := hw.chain f' hg' hf.2
    rw [← Function.update_of_ne hf.1 (some Awaiter.disabled) s.awaiter] at hlinks
    refine (Links.agree ?_).mp hlinks
    intro a ha
    obtain ⟨i, hi, rfl⟩ := List.mem_map.mp ha
    refine (hframe _ fun hmem => hf.1 ?_).symm
    obtain ⟨i', hi', heq⟩ := List.mem_map.mp hmem
    cases heq
    exact hw.apart f' f i hi hi'
  · intro f' hg' hr' i hi
    rcases (hready f').mp hr' with rfl | hr'
    · exact List.mem_append_right _ hi
    · exact List.mem_append_left _ (hw.woken f' hg' hr' i hi)
  · intro i hi
    rw [← hw.fresh i hi]
    refine hframe _ fun hmem => hi ?_
    obtain ⟨i', hi', heq⟩ := List.mem_map.mp hmem
    cases heq
    exact hw.mem_used f i hi'

/-- `resolve` ends the holding. -/
theorem InvAt.resolve (hi : InvAt s (some f)) : InvAt (s.resolve f) none where
  owned f' hf := by
    rw [resolve_given] at hf
    by_cases hff : f' = f
    · exact .inl (by simp [ready, hff])
    · rcases hi.owned f' hf with hr | ⟨q, hq⟩ | hheld
      · exact .inl (by simpa [ready, hff] using hr)
      · exact .inr (.inl ⟨q, by simpa using hq⟩)
      · exact absurd (Option.some.inj hheld).symm hff
  unique p q f' := by
    rw [resolve_promise]
    exact hi.unique p q f'
  live q f' hq := by
    rw [resolve_promise] at hq
    obtain ⟨hg, hr, hne⟩ := hi.live q f' hq
    have hff : f' ≠ f := fun h => hne (by rw [h])
    exact ⟨by simpa using hg, by simpa [ready, hff] using hr, by simp⟩
  holds f' h := by cases h
  woken := hi.woken.resolve (hi.holds f rfl).1 (hi.holds f rfl).2

/-- Storing an outcome concerns nobody else. -/
theorem InvAt.store (hi : InvAt s held) (stored : Nat → Stored T E) :
    InvAt { s with stored := stored } held :=
  ⟨hi.owned, hi.unique, hi.live, hi.holds,
    ⟨hi.woken.chain, hi.woken.woken, hi.woken.nodup, hi.woken.mem_used, hi.woken.apart,
      hi.woken.not_given, hi.woken.fresh, hi.woken.returns⟩⟩

/-- A first promise is made for a future. -/
theorem InvAt.construct (hi : InvAt s none) (hg : s.given f = false) (hp : s.promise p = none) :
    InvAt (s.construct f p) none := by
  have hpromise : ∀ q f', (s.construct f p).promise q = some (some f') ↔
      (q = p ∧ f' = f) ∨ (q ≠ p ∧ f' ≠ f ∧ s.promise q = some (some f')) := by
    intro q f'
    by_cases hq : q = p
    · simp [Promises.construct, hq, eq_comm]
    · have hff : s.promise q = some (some f') → f' ≠ f := by
        rintro h rfl
        rw [(hi.live q f' h).1] at hg
        cases hg
      simp only [Promises.construct, Function.update_of_ne hq]
      tauto
  have hgiven : ∀ f', f' ≠ f → (s.construct f p).given f' = s.given f' ∧
      (s.construct f p).ready f' = s.ready f' := by
    intro f' hff
    simp [Promises.construct, ready, hff]
  constructor
  · intro f' hf
    by_cases hff : f' = f
    · exact .inr (.inl ⟨p, (hpromise p f').mpr (.inl ⟨rfl, hff⟩)⟩)
    · rw [(hgiven f' hff).1] at hf
      rcases hi.owned f' hf with hr | ⟨q, hq⟩ | hheld
      · exact .inl (by rw [(hgiven f' hff).2]; exact hr)
      · refine .inr (.inl ⟨q, (hpromise q f').mpr (.inr ⟨?_, hff, hq⟩)⟩)
        rintro rfl
        rw [hp] at hq
        cases hq
      · cases hheld
  · intro q r f' hq hr
    rcases (hpromise q f').mp hq with ⟨hqp, hff⟩ | ⟨-, hff, hq'⟩ <;>
      rcases (hpromise r f').mp hr with ⟨hrp, hff'⟩ | ⟨-, hff', hr'⟩
    · rw [hqp, hrp]
    · exact absurd hff hff'
    · exact absurd hff' hff
    · exact hi.unique q r f' hq' hr'
  · intro q f' hq
    rcases (hpromise q f').mp hq with ⟨-, rfl⟩ | ⟨-, hff, hq'⟩
    · simp [Promises.construct, ready]
    · rw [(hgiven f' hff).1, (hgiven f' hff).2]
      exact hi.live q f' hq'
  · simp
  · have hw := hi.woken
    refine ⟨?_, ?_, hw.nodup, hw.mem_used, hw.apart, ?_, hw.fresh, hw.returns⟩
    · intro f' hf hr
      by_cases hff : f' = f
      · subst hff
        simp [Promises.construct, hw.not_given f' hg]
      · rw [(hgiven f' hff).1] at hf
        rw [(hgiven f' hff).2] at hr
        simpa [Promises.construct, hff] using hw.chain f' hf hr
    · intro f' hf hr
      by_cases hff : f' = f
      · subst hff
        simp [Promises.construct, ready] at hr
      · rw [(hgiven f' hff).1] at hf
        rw [(hgiven f' hff).2] at hr
        exact hw.woken f' hf hr
    · intro f' hf
      by_cases hff : f' = f
      · subst hff
        simp [Promises.construct] at hf
      · rw [(hgiven f' hff).1] at hf
        exact hw.not_given f' hf

/-- A ready future refuses an awaiter and is as before. -/
theorem subscribe_of_ready (hr : s.ready f = true) {i : Nat} (hn : s.next (.object i) = none) :
    s.subscribe f i = s := by
  have ha : s.awaiter f = some .disabled := by simpa [ready] using hr
  have hn' : s.next (.object i) ≠ some .disabled := by simp [hn]
  rw [subscribe, ha, Awaiter.subscribeCheckReadyLoop_of_ready 1 hn']
  simp [← ha, ← hn]

/-- A pending future takes the awaiter on top of its chain. -/
theorem subscribe_of_pending (hr : s.ready f = false) {i : Nat} :
    s.subscribe f i =
      { s with awaiter := Function.update s.awaiter f (some (.object i))
               next := Function.update s.next (.object i) (s.awaiter f)
               subs := Function.update s.subs f (i :: s.subs f), used := i :: s.used } := by
  have ha : s.awaiter f ≠ some .disabled := by simpa [ready] using hr
  rw [subscribe, Awaiter.subscribeCheckReadyLoop_of_open 0 ha]

/-- An awaiter on top of the chain of a pending future leaves the same futures resolved. -/
theorem disabled_push_iff (hr : s.ready f = false) (i f' : Nat) :
    Function.update s.awaiter f (some (.object i)) f' = some .disabled ↔
      s.awaiter f' = some .disabled := by
  by_cases hff : f' = f
  · have ha : s.awaiter f ≠ some .disabled := by simpa [ready] using hr
    simp [hff, ha]
  · simp [hff]

theorem Woken.subscribe (hw : Woken s) (hg : s.given f = true) (hr : s.ready f = false) {i : Nat}
    (hi : i ∉ s.used) : Woken (s.subscribe f i) := by
  rw [subscribe_of_pending hr]
  have hsubs : ∀ f', i ∉ s.subs f' := fun f' h => hi (hw.mem_used f' i h)
  have hready := disabled_push_iff hr i
  refine ⟨?_, ?_, ?_, ?_, ?_, ?_, ?_, hw.returns⟩
  · intro f' hf hr'
    have hlinks := hw.chain f' hf (by simpa [ready, hready f'] using hr')
    have hmem : Awaiter.object i ∉ (s.subs f').map Awaiter.object := by
      simpa using hsubs f'
    by_cases hff : f' = f
    · subst hff
      simpa using Links.push hmem hlinks
    · simpa [hff] using (Links.update_iff hmem).mpr hlinks
  · intro f' hf hr' j hj
    have hr'' : s.ready f' = true := by simpa [ready, hready f'] using hr'
    have hff : f' ≠ f := by
      rintro rfl
      rw [hr] at hr''
      cases hr''
    exact hw.woken f' hf hr'' j (by simpa [hff] using hj)
  · intro f'
    by_cases hff : f' = f
    · subst hff
      simpa using ⟨hsubs f', hw.nodup f'⟩
    · simpa [hff] using hw.nodup f'
  · intro f' j hj
    by_cases hff : f' = f
    · subst hff
      rcases List.mem_cons.mp (by simpa using hj) with rfl | hj
      · exact List.mem_cons_self
      · exact List.mem_cons_of_mem _ (hw.mem_used f' j hj)
    · exact List.mem_cons_of_mem _ (hw.mem_used f' j (by simpa [hff] using hj))
  · intro f₁ f₂ j h₁ h₂
    by_cases hj : j = i
    · subst hj
      have hf : ∀ f', j ∈ Function.update s.subs f (j :: s.subs f) f' → f' = f := by
        intro f' h
        by_contra hff
        exact hsubs f' (by simpa [hff] using h)
      rw [hf f₁ h₁, hf f₂ h₂]
    · have hmem : ∀ f', j ∈ Function.update s.subs f (i :: s.subs f) f' → j ∈ s.subs f' := by
        intro f' h
        by_cases hff : f' = f
        · subst hff
          simpa [hj] using h
        · simpa [hff] using h
      exact hw.apart f₁ f₂ j (hmem f₁ h₁) (hmem f₂ h₂)
  · intro f' hf
    have hff : f' ≠ f := by
      rintro rfl
      rw [hg] at hf
      cases hf
    simpa [hff] using hw.not_given f' hf
  · intro j hj
    obtain ⟨hji, hj⟩ := not_or.mp fun h => hj (List.mem_cons.mpr h)
    rw [← hw.fresh j hj]
    exact Function.update_of_ne (by simpa using hji) _ _

theorem InvAt.subscribe (hi : InvAt s none) (hg : s.given f = true) {i : Nat} (hu : i ∉ s.used) :
    InvAt (s.subscribe f i) none := by
  cases hr : s.ready f with
  | true =>
      rw [subscribe_of_ready hr (hi.woken.fresh i hu)]
      exact hi
  | false =>
      have hw := hi.woken.subscribe hg hr hu
      rw [subscribe_of_pending hr] at hw ⊢
      have hready := disabled_push_iff hr i
      refine ⟨?_, hi.unique, ?_, by simp, hw⟩
      · intro f' hf
        simpa [ready, hready f'] using hi.owned f' hf
      · intro q f' hq
        simpa [ready, hready f'] using hi.live q f' hq

end Moves

/-! ## The operations -/

section Operations

variable {s s' : Promises T E} {p q : Nat}

/-- A call that does not throw with a future in its hands holds nothing at the end. -/
theorem InvAt.setValue (hi : InvAt s none) {arg : PromiseArg T E} {throws : Bool}
    (hk : ∀ v, arg = .value v → throws = true → s.owner p = none) :
    InvAt (s.setValue p arg throws).1 none ∧ (s.setValue p arg throws).1.owner p = none := by
  have hclaim : InvAt (s.write p (some none)) (s.owner p) := hi.write rfl
  rcases setValue_fst s p arg throws with
    ⟨f, v, ho, harg, hthrows, -⟩ | ⟨ho, heq⟩ | ⟨f, stored, ho, heq⟩
  · rw [hk v harg hthrows] at ho
    cases ho
  · rw [heq]
    rw [ho] at hclaim
    exact ⟨hclaim, write_owner_self s p (some none)⟩
  · rw [heq]
    rw [ho] at hclaim
    refine ⟨(hclaim.store stored).resolve, ?_⟩
    rw [resolve_owner]
    exact write_owner_self s p (some none)

/-- An empty promise object, or a free address, takes over from another one. -/
theorem InvAt.takeOver (hi : InvAt s none) (hp : s.owner p = none) (hpq : p ≠ q) :
    InvAt (s.moveConstruct p q) none := by
  have hclaim : InvAt (s.write q (some none)) (s.owner q) := hi.write rfl
  have hput := hclaim.write (p := p) (v := some (s.owner q)) rfl
  rw [write_owner_of_ne s q _ hpq, hp] at hput
  exact hput

theorem InvAt.moveAssign (hi : InvAt s none) : InvAt (s.moveAssign p q) none := by
  unfold Promises.moveAssign
  split
  · exact hi
  · rename_i hpq
    have hdrop : InvAt (s.setValue p .drop false).1 none ∧
        (s.setValue p .drop false).1.owner p = none := hi.setValue (by simp)
    exact hdrop.1.takeOver hdrop.2 hpq

theorem resolve_write (s : Promises T E) (f p : Nat) (v : Option (Option Nat)) :
    (s.resolve f).write p v = (s.write p v).resolve f := by
  unfold resolve write
  dsimp only
  split <;> rfl

/-- A destroyed promise object resolves the future it still points at. -/
theorem InvAt.destroy (hi : InvAt s none) : InvAt (s.destroy p) none := by
  have hclaim : InvAt (s.write p none) (s.owner p) := hi.write rfl
  cases ho : s.owner p with
  | none =>
      rw [destroy_of_none s p ho, ← ho]
      exact hclaim
  | some f =>
      rw [destroy_of_some s p f ho, resolve_write]
      rw [ho] at hclaim
      exact hclaim.resolve

/-- **Step lemma**: an operation that keeps its future keeps the invariant. -/
theorem inv_step (hi : InvAt s none) {op : Op T E} (hk : s.Keeps op) (h : s.step op = some s') :
    InvAt s' none := by
  have howner : ∀ {p}, s.promise p = none → s.owner p = none := fun h => by simp [owner, h]
  cases op with
  | construct f p =>
      obtain ⟨⟨hg, hp⟩, rfl⟩ := by simpa [step] using h
      exact hi.construct hg hp
  | create p =>
      obtain ⟨hp, rfl⟩ := by simpa [step] using h
      have hnew := hi.write (p := p) (v := some none) rfl
      rw [howner hp] at hnew
      exact hnew
  | moveConstruct p q =>
      obtain ⟨⟨hp, hq⟩, rfl⟩ := by simpa [step] using h
      exact hi.takeOver (howner hp) (by rintro rfl; simp [hp] at hq)
  | moveAssign p q =>
      obtain ⟨-, rfl⟩ := by simpa [step] using h
      exact hi.moveAssign
  | bind p q b =>
      obtain ⟨⟨hp, hq⟩, rfl⟩ := by simpa [step] using h
      have hpq : p ≠ q := by
        rintro rfl
        simp [hp] at hq
      cases b with
      | ok => exact hi.takeOver (howner hp) hpq
      | throwsBeforeMove => exact hi
      | throwsAfterMove => exact (hi.takeOver (howner hp) hpq).destroy
  | call p arg throws =>
      obtain ⟨-, rfl⟩ := by simpa [step] using h
      refine (hi.setValue ?_).1
      rintro v rfl rfl
      exact hk
  | destroy p =>
      obtain ⟨-, rfl⟩ := by simpa [step] using h
      exact hi.destroy
  | subscribe f i =>
      obtain ⟨⟨hg, hu⟩, rfl⟩ := by simpa [step] using h
      exact hi.subscribe hg hu

end Operations

/-! ## Orphans -/

/-- The future was given a promise, is not resolved, and nothing points at it. -/
structure Orphan (s : Promises T E) (f : Nat) : Prop where
  given : s.given f = true
  pending : s.ready f = false
  nobody : ∀ p, s.promise p ≠ some (some f)

section Orphans

variable {s s' : Promises T E} {p q f : Nat}

theorem Orphan.owner_ne (h : s.Orphan f) (p : Nat) : s.owner p ≠ some f :=
  fun ho => h.nobody p ((owner_eq_some_iff s p f).mp ho)

/-- Nothing that is not an orphan is written over by one. -/
theorem Orphan.write (h : s.Orphan f) {v : Option (Option Nat)} (hv : v.join ≠ some f) :
    (s.write p v).Orphan f where
  given := h.given
  pending := h.pending
  nobody q hq := by
    rw [← owner_eq_some_iff] at hq
    by_cases hqp : q = p
    · rw [hqp, write_owner_self] at hq
      exact hv hq
    · rw [write_owner_of_ne s p v hqp] at hq
      exact h.owner_ne q hq

theorem Orphan.resolve (h : s.Orphan f) {f' : Nat} (hf : f' ≠ f) : (s.resolve f').Orphan f where
  given := by rw [resolve_given]; exact h.given
  pending := by simpa [ready, Ne.symm hf] using h.pending
  nobody q := by rw [resolve_promise]; exact h.nobody q

theorem Orphan.setValue (h : s.Orphan f) (arg : PromiseArg T E) (throws : Bool) :
    (s.setValue p arg throws).1.Orphan f := by
  have hclaim : (s.write p (some none)).Orphan f := h.write (by simp)
  rcases setValue_fst s p arg throws with ⟨_, _, _, _, _, heq⟩ | ⟨_, heq⟩ | ⟨f', stored, ho, heq⟩
  · rw [heq]
    exact hclaim
  · rw [heq]
    exact hclaim
  · rw [heq]
    have hstore : ({ s.write p (some none) with stored := stored } : Promises T E).Orphan f :=
      ⟨hclaim.given, hclaim.pending, hclaim.nobody⟩
    refine hstore.resolve ?_
    rintro rfl
    exact h.owner_ne p ho

theorem Orphan.moveConstruct (h : s.Orphan f) : (s.moveConstruct p q).Orphan f := by
  rw [moveConstruct_eq]
  exact (h.write (by simp)).write (h.owner_ne q)

theorem Orphan.destroy (h : s.Orphan f) : (s.destroy p).Orphan f := by
  cases ho : s.owner p with
  | none =>
      rw [destroy_of_none s p ho]
      exact h.write (by simp)
  | some f' =>
      rw [destroy_of_some s p f' ho]
      refine (h.resolve ?_).write (by simp)
      rintro rfl
      exact h.owner_ne p ho

/-- No operation reaches an orphan. -/
theorem Orphan.step (h : s.Orphan f) {op : Op T E} (hs : s.step op = some s') : s'.Orphan f := by
  cases op with
  | construct f' p =>
      obtain ⟨⟨hg, -⟩, rfl⟩ := by simpa [Promises.step] using hs
      have hff : f ≠ f' := by
        rintro rfl
        rw [h.given] at hg
        cases hg
      refine ⟨by simpa [construct, hff] using h.given,
        by simpa [construct, ready, hff] using h.pending, fun q hq => ?_⟩
      by_cases hqp : q = p
      · exact hff (by simpa [construct, hqp, eq_comm] using hq)
      · exact h.nobody q (by simpa [construct, hqp] using hq)
  | create p =>
      obtain ⟨-, rfl⟩ := by simpa [Promises.step] using hs
      exact h.write (p := p) (v := some none) (by simp)
  | moveConstruct p q =>
      obtain ⟨-, rfl⟩ := by simpa [Promises.step] using hs
      exact h.moveConstruct
  | moveAssign p q =>
      obtain ⟨-, rfl⟩ := by simpa [Promises.step] using hs
      unfold moveAssign
      split
      · exact h
      · exact (h.setValue .drop false).moveConstruct
  | bind p q b =>
      obtain ⟨-, rfl⟩ := by simpa [Promises.step] using hs
      cases b with
      | ok => exact h.moveConstruct
      | throwsBeforeMove => exact h
      | throwsAfterMove => exact h.moveConstruct.destroy
  | call p arg throws =>
      obtain ⟨-, rfl⟩ := by simpa [Promises.step] using hs
      exact h.setValue arg throws
  | destroy p =>
      obtain ⟨-, rfl⟩ := by simpa [Promises.step] using hs
      exact h.destroy
  | subscribe f' i =>
      obtain ⟨-, rfl⟩ := by simpa [Promises.step] using hs
      by_cases hff : f' = f
      · subst hff
        rw [subscribe_of_pending h.pending]
        exact ⟨h.given, by simp [ready], h.nobody⟩
      · unfold subscribe
        split
        · exact ⟨h.given, h.pending, h.nobody⟩
        · exact ⟨h.given, by simpa [ready, Ne.symm hff] using h.pending, h.nobody⟩
        · exact ⟨h.given, by simpa [ready, Ne.symm hff] using h.pending, h.nobody⟩

/-- What a `claim` took is an orphan for as long as nothing is done with it. -/
theorem InvAt.orphan_of_claim (hi : InvAt s none) (ho : s.owner p = some f) :
    (s.write p (some none)).Orphan f := by
  have hclaim : InvAt (s.write p (some none)) (s.owner p) := hi.write rfl
  obtain ⟨hg, hr⟩ := hclaim.holds f ho
  exact ⟨hg, hr, fun q hq => (hclaim.live q f hq).2.2 ho⟩

/-- The invariant says that no future is orphaned. -/
theorem InvAt.noOrphan (hi : InvAt s none) : s.NoOrphan where
  owned f hg := by
    rcases hi.owned f hg with hr | ⟨p, hp⟩ | hheld
    · exact .inl hr
    · exact .inr ⟨p, hp, fun q hq => hi.unique q p f hq hp⟩
    · cases hheld
  woken f hg hnone := by
    rcases hi.owned f hg with hr | ⟨p, hp⟩ | hheld
    · exact ⟨hr, hi.woken.woken f hg hr⟩
    · exact absurd hp (hnone p)
    · cases hheld
  returns := hi.woken.returns

theorem Orphan.not_noOrphan (h : s.Orphan f) : ¬ s.NoOrphan := by
  intro hno
  rcases hno.owned f h.given with hr | ⟨p, hp, -⟩
  · rw [h.pending] at hr
    cases hr
  · exact h.nobody p hp

end Orphans

/-- What `thread_pool::run` does with its promise: the construction of the value
throws, `catch (...)` calls the promise, which is empty by now, and the closure
destroys it.  The future has an awaiter. -/
def throwingRun : List (Op Nat Nat) :=
  [.construct 0 0, .subscribe 0 5, .call 0 (.value 1) true, .call 0 (.exception 2) false,
    .destroy 0]

/-- The closure of `thread_pool::run` orphans its future exactly when the
construction of the value throws while the promise points at it: the call in
`catch (...)` comes too late. -/
theorem runClosure_noOrphan_iff {s : Promises T E} (hi : InvAt s none) (p : Nat)
    (result : Except E (T × Bool)) (current : E) :
    NoOrphan (s.runClosure p result current) ↔
      ∀ v, result = .ok (v, true) → s.owner p = none := by
  have hset : ∀ (arg : PromiseArg T E) (throws : Bool),
      (∀ v, arg = .value v → throws = true → s.owner p = none) →
        NoOrphan ((s.setValue p arg throws).1.destroy p) :=
    fun arg throws hk => (hi.setValue hk).1.destroy.noOrphan
  cases result with
  | error e => simpa [runClosure] using hset (.exception e) false (by simp)
  | ok r =>
      obtain ⟨v, throws⟩ := r
      cases throws with
      | false =>
          have heq : s.runClosure p (.ok (v, false)) current =
              (s.setValue p (.value v) false).1.destroy p := by
            cases ho : s.owner p <;> simp [runClosure, setValue, claim_eq, ho]
          rw [heq]
          simpa using hset (.value v) false (by simp)
      | true =>
          cases ho : s.owner p with
          | none =>
              have heq : s.runClosure p (.ok (v, true)) current =
                  (s.setValue p (.value v) true).1.destroy p := by
                simp [runClosure, setValue, claim_eq, ho]
              rw [heq]
              simpa using hset (.value v) true fun _ _ _ => ho
          | some f =>
              have heq : s.runClosure p (.ok (v, true)) current =
                  ((s.write p (some none)).setValue p (.exception current) false).1.destroy p := by
                simp [runClosure, setValue, claim_eq, ho]
              rw [heq]
              simpa using
                ((hi.orphan_of_claim ho).setValue (.exception current) false).destroy.not_noOrphan

end Promises

end Cocls
