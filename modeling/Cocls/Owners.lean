import Mathlib.Logic.Basic

/-!
# Cocls.Owners

Things that have exactly one owner each as long as they are open.

`Owned` says it of a relation `owns`.  What an operation does to it is one of
three moves:

* `Owned.add` — a thing is opened, and somebody owns it;
* `Owned.move` — a thing goes from one owner to another;
* `Owned.moveAll` — several things of one owner go to another;
* `Owned.close` — a thing is closed, and its owner is rid of it.

The thing is given by an `Option`, as a pointer that may be empty gives it.
-/

namespace Owners

variable {ι κ : Type*}

/-- Every open thing has exactly one owner, and nothing else is owned. -/
structure Owned (owns : κ → ι → Prop) (isOpen : ι → Prop) : Prop where
  only_open : ∀ x t, owns x t → isOpen t
  one : ∀ x y t, owns x t → owns y t → x = y
  owner : ∀ t, isOpen t → ∃ x, owns x t

section Rules

variable {owns owns' : κ → ι → Prop} {isOpen isOpen' : ι → Prop}

/-- Nothing is open yet. -/
theorem Owned.of_none (h : ∀ t, ¬ isOpen t) (ho : ∀ x t, ¬ owns x t) : Owned owns isOpen :=
  ⟨fun x t hx => absurd hx (ho x t), fun x _ t hx => absurd hx (ho x t),
    fun t ht => absurd ht (h t)⟩

/-- Nothing changes hands. -/
theorem Owned.congr (h : Owned owns isOpen) (ho : ∀ x t, owns' x t ↔ owns x t)
    (hopen : ∀ t, isOpen' t ↔ isOpen t) : Owned owns' isOpen' := by
  obtain rfl : owns' = owns := funext fun x => funext fun t => propext (ho x t)
  obtain rfl : isOpen' = isOpen := funext fun t => propext (hopen t)
  exact h

/-- **Opening**: `y` owns the new thing. -/
theorem Owned.add (h : Owned owns isOpen) {p : Option ι} (hnew : ∀ t, p = some t → ¬ isOpen t)
    (y : κ) (ho : ∀ x t, owns' x t ↔ (x = y ∧ p = some t) ∨ owns x t)
    (hopen : ∀ t, isOpen' t ↔ p = some t ∨ isOpen t) : Owned owns' isOpen' := by
  refine ⟨fun x t hx => ?_, fun x z t hx hz => ?_, fun t ht => ?_⟩
  · rw [hopen]
    obtain ⟨-, hp⟩ | hx := (ho x t).mp hx
    · exact .inl hp
    · exact .inr (h.only_open x t hx)
  · obtain ⟨rfl, hp⟩ | hx := (ho x t).mp hx <;> obtain ⟨rfl, hp'⟩ | hz := (ho z t).mp hz
    · rfl
    · exact absurd (h.only_open z t hz) (hnew t hp)
    · exact absurd (h.only_open x t hx) (hnew t hp')
    · exact h.one x z t hx hz
  · obtain hp | ht := (hopen t).mp ht
    · exact ⟨y, (ho y t).mpr (.inl ⟨rfl, hp⟩)⟩
    · obtain ⟨x, hx⟩ := h.owner t ht
      exact ⟨x, (ho x t).mpr (.inr hx)⟩

/-- **Closing**: `y` is rid of what it owned. -/
theorem Owned.close (h : Owned owns isOpen) {p : Option ι} {y : κ}
    (hy : ∀ t, p = some t → owns y t)
    (ho : ∀ x t, owns' x t ↔ owns x t ∧ ¬ (x = y ∧ p = some t))
    (hopen : ∀ t, isOpen' t ↔ p ≠ some t ∧ isOpen t) : Owned owns' isOpen' := by
  refine ⟨fun x t hx => ?_, fun x z t hx hz => ?_, fun t ht => ?_⟩
  · obtain ⟨hx, hne⟩ := (ho x t).mp hx
    exact (hopen t).mpr ⟨fun hp => hne ⟨h.one x y t hx (hy t hp), hp⟩, h.only_open x t hx⟩
  · exact h.one x z t ((ho x t).mp hx).1 ((ho z t).mp hz).1
  · obtain ⟨hp, ht⟩ := (hopen t).mp ht
    obtain ⟨x, hx⟩ := h.owner t ht
    exact ⟨x, (ho x t).mpr ⟨hx, fun hxp => hp hxp.2⟩⟩

/-- **Handing over**: `z` owns what `y` owned. -/
theorem Owned.move (h : Owned owns isOpen) {p : Option ι} {y : κ}
    (hy : ∀ t, p = some t → owns y t) (z : κ)
    (ho : ∀ x t, owns' x t ↔ (x = z ∧ p = some t) ∨ (owns x t ∧ ¬ (x = y ∧ p = some t)))
    (hopen : ∀ t, isOpen' t ↔ isOpen t) : Owned owns' isOpen' := by
  have hclosed : Owned (fun x t => owns x t ∧ ¬ (x = y ∧ p = some t))
      fun t => p ≠ some t ∧ isOpen t := h.close hy (fun _ _ => Iff.rfl) fun _ => Iff.rfl
  refine hclosed.add (fun t hp ht => ht.1 hp) z ho fun t => ?_
  rw [hopen]
  constructor
  · exact fun ht => Classical.byCases .inl fun hp => .inr ⟨hp, ht⟩
  · rintro (hp | ⟨-, ht⟩)
    · exact h.only_open y t (hy t hp)
    · exact ht

/-- **Handing over everything of a kind**: `z` owns what `y` owned. -/
theorem Owned.moveAll (h : Owned owns isOpen) {P : ι → Prop} {y : κ} (hy : ∀ t, P t → owns y t)
    (z : κ) (ho : ∀ x t, owns' x t ↔ (x = z ∧ P t) ∨ (owns x t ∧ ¬ (x = y ∧ P t)))
    (hopen : ∀ t, isOpen' t ↔ isOpen t) : Owned owns' isOpen' := by
  have hkept : ∀ x t, P t → owns x t → x = y := fun x t hP hx => h.one x y t hx (hy t hP)
  refine ⟨fun x t hx => ?_, fun x w t hx hw => ?_, fun t ht => ?_⟩
  · rw [hopen]
    obtain ⟨-, hP⟩ | ⟨hx, -⟩ := (ho x t).mp hx
    · exact h.only_open y t (hy t hP)
    · exact h.only_open x t hx
  · obtain ⟨rfl, hP⟩ | ⟨hx, hxn⟩ := (ho x t).mp hx <;>
      obtain ⟨rfl, hP'⟩ | ⟨hw, hwn⟩ := (ho w t).mp hw
    · rfl
    · exact absurd ⟨hkept w t hP hw, hP⟩ hwn
    · exact absurd ⟨hkept x t hP' hx, hP'⟩ hxn
    · exact h.one x w t hx hw
  · obtain ⟨x, hx⟩ := h.owner t ((hopen t).mp ht)
    by_cases hP : P t
    · exact ⟨z, (ho z t).mpr (.inl ⟨rfl, hP⟩)⟩
    · exact ⟨x, (ho x t).mpr (.inr ⟨hx, fun hn => hP hn.2⟩)⟩

end Rules

end Owners
