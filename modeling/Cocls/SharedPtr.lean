import Mathlib.Data.Finset.Insert
import Mathlib.Data.Finset.Erase

/-!
# Cocls.SharedPtr

Objects that are owned by shared pointers.

A store maps addresses to blocks.  A block is an object with the pointers that own
it, of which there is at least one: the object of the last pointer that goes away is
destroyed (`alive_iff`).  Everything that can be done to a pointer is that it is made
to point somewhere else, or nowhere (`repoint`).
-/

namespace SharedPtr

variable {A O α : Type*}

/-- An object and its owners. -/
structure Block (O α : Type*) where
  obj : α
  owners : Finset O
  nonempty : owners.Nonempty

abbrev Store (A O α : Type*) := A → Option (Block O α)

/-- The object at `x`. -/
def obj (s : Store A O α) (x : A) : Option α := (s x).map Block.obj

/-- `o` owns the object at `x`. -/
def Owns (s : Store A O α) (o : O) (x : A) : Prop := ∃ b, s x = some b ∧ o ∈ b.owners

section Operations

variable [DecidableEq A]

/-- A new object at `x`, owned by `o`. -/
def make (s : Store A O α) (x : A) (a : α) (o : O) : Store A O α :=
  Function.update s x (some ⟨a, {o}, Finset.singleton_nonempty o⟩)

/-- The object at `x` is changed. -/
def modify (s : Store A O α) (x : A) (f : α → α) : Store A O α :=
  Function.update s x ((s x).map fun b => { b with obj := f b.obj })

variable [DecidableEq O]

/-- The block without the owner `o`, if there is another one. -/
def Block.drop (b : Block O α) (o : O) : Option (Block O α) :=
  if h : (b.owners.erase o).Nonempty then some ⟨b.obj, b.owners.erase o, h⟩ else none

def Block.take (b : Block O α) (o : O) : Block O α :=
  ⟨b.obj, insert o b.owners, Finset.insert_nonempty o b.owners⟩

/-- The pointer `o` is made to point to `p`; what it owned before is destroyed if it was the
last owner. -/
def repoint (s : Store A O α) (o : O) (p : Option A) : Store A O α := fun x =>
  (s x).bind fun b => if p = some x then some (b.take o) else b.drop o

end Operations

section Rules

variable {s : Store A O α} {o o' : O} {x y : A}

/-- **Lifetime**: an object is there as long as somebody owns it. -/
theorem alive_iff : (obj s x).isSome ↔ ∃ o, Owns s o x := by
  constructor
  · intro h
    obtain ⟨b, hb⟩ := Option.isSome_iff_exists.1 (by simpa [obj] using h)
    obtain ⟨o, ho⟩ := b.nonempty
    exact ⟨o, b, hb, ho⟩
  · rintro ⟨o, b, hb, -⟩
    rw [obj, hb]
    rfl

theorem Owns.isSome (h : Owns s o x) : (obj s x).isSome := alive_iff.2 ⟨o, h⟩

variable [DecidableEq A]

@[simp] theorem obj_make_self {a : α} : obj (make s x a o) x = some a := by simp [obj, make]

@[simp] theorem obj_make_of_ne {a : α} (hy : y ≠ x) : obj (make s x a o) y = obj s y := by
  simp [obj, make, hy]

@[simp] theorem obj_modify_self {f : α → α} : obj (modify s x f) x = (obj s x).map f := by
  cases h : s x <;> simp [obj, modify, h]

@[simp] theorem obj_modify_of_ne {f : α → α} (hy : y ≠ x) :
    obj (modify s x f) y = obj s y := by
  simp [obj, modify, hy]

theorem owns_make {a : α} (hx : obj s x = none) :
    Owns (make s x a o) o' y ↔ (o' = o ∧ y = x) ∨ Owns s o' y := by
  by_cases hy : y = x
  · subst hy
    have hs : s y = none := by simpa [obj] using hx
    simp [Owns, make, hs]
  · simp [Owns, make, hy]

@[simp] theorem owns_modify {f : α → α} : Owns (modify s x f) o' y ↔ Owns s o' y := by
  by_cases hy : y = x
  · subst hy
    cases h : s y <;> simp [Owns, modify, h]
  · simp [Owns, modify, hy]

variable [DecidableEq O] {p : Option A}

/-- A pointer owns what it points to, the others own what they owned. -/
theorem owns_repoint (hp : ∀ y, p = some y → (obj s y).isSome) :
    Owns (repoint s o p) o' y ↔ if o' = o then p = some y else Owns s o' y := by
  cases hs : s y with
  | none =>
      have hnot : p ≠ some y := fun h => by simpa [obj, hs] using hp y h
      simp [Owns, repoint, hs, hnot]
  | some b =>
      by_cases hpy : p = some y
      · by_cases ho : o' = o
        · simp [Owns, repoint, hs, hpy, ho, Block.take]
        · simp [Owns, repoint, hs, hpy, ho, Block.take]
      · by_cases hne : (b.owners.erase o).Nonempty
        · by_cases ho : o' = o
          · simp [Owns, repoint, hs, hpy, ho, Block.drop, hne]
          · simp [Owns, repoint, hs, hpy, ho, Block.drop, hne]
        · have hempty : ∀ o₁ ∈ b.owners, o₁ = o := by
            intro o₁ h₁
            by_contra h
            exact hne ⟨o₁, Finset.mem_erase.2 ⟨h, h₁⟩⟩
          by_cases ho : o' = o
          · simp [Owns, repoint, hs, hpy, ho, Block.drop, hne]
          · have hnot : o' ∉ b.owners := fun h => ho (hempty o' h)
            simp [Owns, repoint, hs, hpy, ho, Block.drop, hne, hnot]

/-- The objects that are left are what they were. -/
theorem obj_of_repoint {a : α} (h : obj (repoint s o p) y = some a) : obj s y = some a := by
  obtain ⟨b, hb, rfl⟩ := Option.map_eq_some_iff.1 h
  obtain ⟨b₀, hb₀, hb⟩ := Option.bind_eq_some_iff.1 hb
  have hobj : b.obj = b₀.obj := by
    split at hb
    · cases hb
      rfl
    · unfold Block.drop at hb
      split at hb
      · cases hb
        rfl
      · cases hb
  rw [obj, hb₀, hobj]
  rfl

/-- What has an owner afterwards is still there. -/
theorem obj_repoint (h : Owns (repoint s o p) o' y) : obj (repoint s o p) y = obj s y := by
  obtain ⟨a, ha⟩ := Option.isSome_iff_exists.1 h.isSome
  rw [ha, obj_of_repoint ha]

/-- A pointer to an object that is there. -/
theorem owns_repoint_some (hx : (obj s x).isSome) :
    Owns (repoint s o (some x)) o' y ↔ if o' = o then x = y else Owns s o' y := by
  rw [owns_repoint]
  · simp
  · rintro z ⟨⟩
    exact hx

/-- A pointer that is reset. -/
theorem owns_repoint_none : Owns (repoint s o none) o' y ↔ o' ≠ o ∧ Owns s o' y := by
  rw [owns_repoint (by simp)]
  by_cases ho : o' = o <;> simp [ho]

/-- Nothing is destroyed when a pointer comes to an object. -/
theorem obj_repoint_some (hx : (obj s x).isSome) :
    obj (repoint s o (some x)) x = obj s x := by
  have howns : Owns (repoint s o (some x)) o x := by simp [owns_repoint_some hx]
  exact obj_repoint howns

end Rules

end SharedPtr
