import Mathlib.Data.List.Basic
import Mathlib.Data.List.Perm.Basic
import Mathlib.Data.List.Nodup

/-!
# Spots

Items that are passed from spot to spot: `f p` lists the items at spot `p`.

In an `Exclusive` arrangement every item is at one spot at most, and there once.
`Moved` is the step that takes some items from one spot to another one, `Added`
the step that brings in new ones.  Both keep the arrangement exclusive, and
moving keeps the items present.
-/

namespace Spots

variable {P α : Type*} {f g : P → List α} {a b : P} {xs : List α} {x : α}

/-- Every item is at one spot at most, and there once. -/
structure Exclusive (f : P → List α) : Prop where
  nodup : ∀ p, (f p).Nodup
  unique : ∀ p q x, x ∈ f p → x ∈ f q → p = q

/-- The items `xs` are taken from spot `a` to spot `b`. -/
structure Moved (f g : P → List α) (a b : P) (xs : List α) : Prop where
  ne : a ≠ b
  source : (f a).Perm (xs ++ g a)
  target : (g b).Perm (xs ++ f b)
  other : ∀ p, p ≠ a → p ≠ b → g p = f p

/-- The items `xs` come to spot `b`. -/
structure Added (f g : P → List α) (b : P) (xs : List α) : Prop where
  target : (g b).Perm (xs ++ f b)
  other : ∀ p, p ≠ b → g p = f p

/-- No items anywhere. -/
theorem exclusive_nil : Exclusive fun _ : P => ([] : List α) :=
  ⟨fun _ => List.nodup_nil, fun _ _ x hx => (by simp at hx)⟩

theorem Exclusive.congr (h : Exclusive f) (heq : ∀ p, g p = f p) : Exclusive g := by
  rw [funext heq]
  exact h

/-- Where an item is after a move. -/
theorem Moved.mem_iff (h : Moved f g a b xs) (hf : Exclusive f) {p : P} :
    x ∈ g p ↔ (x ∈ xs ∧ p = b) ∨ (x ∉ xs ∧ x ∈ f p) := by
  have hsource : ∀ y, y ∈ f a ↔ y ∈ xs ∨ y ∈ g a := fun y => by
    rw [h.source.mem_iff, List.mem_append]
  have hdisj : ∀ y ∈ xs, y ∉ g a :=
    fun y hy hy' => (List.nodup_append.mp ((h.source.nodup_iff).mp (hf.nodup a))).2.2 y hy y hy' rfl
  by_cases hp : p = b
  · subst hp
    rw [h.target.mem_iff, List.mem_append]
    have := hsource x
    tauto
  · by_cases hpa : p = a
    · subst hpa
      have := hsource x
      have := hdisj x
      tauto
    · rw [h.other p hpa hp]
      constructor
      · intro hx
        refine .inr ⟨fun hxs => hpa (hf.unique p a x hx ?_), hx⟩
        exact (hsource x).mpr (.inl hxs)
      · rintro (⟨-, hpb⟩ | ⟨-, hx⟩)
        · exact absurd hpb hp
        · exact hx

/-- Moving keeps the arrangement exclusive. -/
theorem Moved.exclusive (h : Moved f g a b xs) (hf : Exclusive f) : Exclusive g := by
  have hfrom : ∀ y ∈ xs, y ∈ f a := fun y hy => h.source.mem_iff.mpr (List.mem_append_left _ hy)
  refine ⟨fun p => ?_, fun p q x hp hq => ?_⟩
  · have hnd := List.nodup_append.mp ((h.source.nodup_iff).mp (hf.nodup a))
    by_cases hp : p = b
    · subst hp
      rw [h.target.nodup_iff, List.nodup_append]
      refine ⟨hnd.1, hf.nodup p, fun y hy z hz heq => h.ne ?_⟩
      subst heq
      exact hf.unique a p y (hfrom y hy) hz
    · by_cases hpa : p = a
      · subst hpa
        exact hnd.2.1
      · rw [h.other p hpa hp]
        exact hf.nodup p
  · rw [h.mem_iff hf] at hp hq
    rcases hp with ⟨hx, rfl⟩ | ⟨hx, hp⟩
    · rcases hq with ⟨-, rfl⟩ | ⟨hx', -⟩
      · rfl
      · exact absurd hx hx'
    · rcases hq with ⟨hx', -⟩ | ⟨-, hq⟩
      · exact absurd hx' hx
      · exact hf.unique p q x hp hq

/-- Moving keeps the items present. -/
theorem Moved.exists_iff (h : Moved f g a b xs) (hf : Exclusive f) :
    (∃ p, x ∈ g p) ↔ ∃ p, x ∈ f p := by
  have hfrom : ∀ y ∈ xs, y ∈ f a := fun y hy => h.source.mem_iff.mpr (List.mem_append_left _ hy)
  constructor
  · rintro ⟨p, hp⟩
    rcases (h.mem_iff hf).mp hp with ⟨hx, -⟩ | ⟨-, hx⟩
    · exact ⟨a, hfrom x hx⟩
    · exact ⟨p, hx⟩
  · rintro ⟨p, hp⟩
    by_cases hx : x ∈ xs
    · exact ⟨b, (h.mem_iff hf).mpr (.inl ⟨hx, rfl⟩)⟩
    · exact ⟨p, (h.mem_iff hf).mpr (.inr ⟨hx, hp⟩)⟩

/-- Where an item is after new ones came. -/
theorem Added.mem_iff (h : Added f g b xs) {p : P} : x ∈ g p ↔ (x ∈ xs ∧ p = b) ∨ x ∈ f p := by
  by_cases hp : p = b
  · subst hp
    rw [h.target.mem_iff, List.mem_append]
    simp
  · rw [h.other p hp]
    simp [hp]

/-- New items keep the arrangement exclusive. -/
theorem Added.exclusive (h : Added f g b xs) (hf : Exclusive f) (hxs : xs.Nodup)
    (hnew : ∀ x ∈ xs, ∀ p, x ∉ f p) : Exclusive g := by
  refine ⟨fun p => ?_, fun p q x hp hq => ?_⟩
  · by_cases hp : p = b
    · subst hp
      rw [h.target.nodup_iff, List.nodup_append]
      refine ⟨hxs, hf.nodup p, fun y hy z hz heq => hnew y hy p ?_⟩
      exact heq ▸ hz
    · rw [h.other p hp]
      exact hf.nodup p
  · rw [h.mem_iff] at hp hq
    rcases hp with ⟨hx, rfl⟩ | hp
    · rcases hq with ⟨-, rfl⟩ | hq
      · rfl
      · exact absurd hq (hnew x hx q)
    · rcases hq with ⟨hx, rfl⟩ | hq
      · exact absurd hp (hnew x hx p)
      · exact hf.unique p q x hp hq

end Spots
