import Mathlib.Logic.Function.Basic
import Cocls.Owners

/-!
# Cocls.BlockHeap

A heap of blocks of bytes.

Every allocation makes a block with an identity of its own; a release is counted,
so that it shows when a block is released twice.  A pointer that is stored in a
block takes `width` bytes of it, and can be loaded again as long as none of them
is written over (`load_put`, `load_put_of_ne`, `load_write`).

`Kept` says that every block that is in use has exactly one holder and that no
block is released twice.  The holders are whatever the program has; what an
operation does to them is an allocation (`Kept.alloc`), a release
(`Kept.release`), or nothing but bytes (`Kept.withBytes`).
-/

open Owners

/-- A byte in memory; the pointers are of type `π`. -/
inductive BlockByte (π : Type*) where
  | data (n : Nat)
  /-- byte `i` of the pointer `p` -/
  | part (p : π) (i : Nat)
deriving DecidableEq, Repr

/-- The blocks are `0`, `1`, …, in the order in which they were allocated. -/
structure BlockHeap (π : Type*) where
  /-- the number of blocks that were allocated -/
  count : Nat := 0
  size : Nat → Nat := fun _ => 0
  /-- how many times each block was released -/
  released : Nat → Nat := fun _ => 0
  bytes : Nat → Nat → BlockByte π

namespace BlockHeap

variable {π κ : Type*}

section Operations

variable (h : BlockHeap π)

/-- A new block of `n` bytes, which is number `h.count`; nothing is stored in it yet. -/
def alloc (n : Nat) : BlockHeap π :=
  { h with count := h.count + 1, size := Function.update h.size h.count n }

/-- The null pointer is released without effect. -/
def release : Option Nat → BlockHeap π
  | none => h
  | some b => { h with released := Function.update h.released b (h.released b + 1) }

/-- The block was allocated and not released. -/
def InUse (b : Nat) : Prop := b < h.count ∧ h.released b = 0

instance : DecidablePred h.InUse := fun _ => inferInstanceAs (Decidable (_ ∧ _))

/-- The `n` bytes from `off` on belong to a block in use. -/
def Inside (b off n : Nat) : Prop := h.InUse b ∧ off + n ≤ h.size b

instance (b off n : Nat) : Decidable (h.Inside b off n) :=
  inferInstanceAs (Decidable (_ ∧ _))

/-- One byte is written. -/
def write (b off : Nat) (v : BlockByte π) : BlockHeap π :=
  { h with bytes := Function.update h.bytes b (Function.update (h.bytes b) off v) }

/-- The bytes of a pointer are written. -/
def put (width b off : Nat) (p : π) : BlockHeap π :=
  { h with bytes := Function.update h.bytes b fun j =>
      if off ≤ j ∧ j < off + width then .part p (j - off) else h.bytes b j }

/-- The pointer that the bytes make. -/
def get [DecidableEq π] (width b off : Nat) : Option π :=
  match h.bytes b off with
  | .part p _ => if ∀ i < width, h.bytes b (off + i) = .part p i then some p else none
  | .data _ => none

/-- A pointer is stored, if there is room for it in a block in use. -/
def store (width b off : Nat) (p : π) : Option (BlockHeap π) :=
  if h.Inside b off width then some (h.put width b off p) else none

/-- A pointer is loaded, if there is one in a block in use. -/
def load [DecidableEq π] (width b off : Nat) : Option π :=
  if h.Inside b off width then h.get width b off else none

end Operations

section Release

variable (h : BlockHeap π) (p : Option Nat)

@[simp] theorem release_count : (h.release p).count = h.count := by cases p <;> rfl

@[simp] theorem release_size : (h.release p).size = h.size := by cases p <;> rfl

@[simp] theorem release_bytes : (h.release p).bytes = h.bytes := by cases p <;> rfl

theorem release_released_of_ne {b : Nat} (hb : p ≠ some b) :
    (h.release p).released b = h.released b := by
  cases p with
  | none => rfl
  | some c => exact Function.update_of_ne (fun hbc => hb (by rw [hbc])) _ _

end Release

/-- The other blocks stay in use. -/
theorem InUse.release {h : BlockHeap π} {p : Option Nat} {b : Nat} (hu : h.InUse b)
    (hb : p ≠ some b) : (h.release p).InUse b :=
  ⟨by rw [release_count]; exact hu.1, by rw [release_released_of_ne h p hb]; exact hu.2⟩

/-- The blocks in use stay so, and keep their sizes, when another one is allocated. -/
theorem InUse.alloc {h : BlockHeap π} {b : Nat} (hu : h.InUse b) (n : Nat) :
    (h.alloc n).InUse b ∧ (h.alloc n).size b = h.size b :=
  ⟨⟨Nat.lt_succ_of_lt hu.1, hu.2⟩, Function.update_of_ne (Nat.ne_of_lt hu.1) _ _⟩

/-! ## Stored pointers -/

section Pointers

variable {h : BlockHeap π} {width b b' off off' : Nat} {p : π}

theorem store_eq (hin : h.Inside b off width) :
    h.store width b off p = some (h.put width b off p) :=
  if_pos hin

/-- A pointer that is stored is inside of a block in use. -/
theorem inside_of_store {h' : BlockHeap π} (hs : h.store width b off p = some h') :
    h.Inside b off width ∧ h' = h.put width b off p := by
  rw [store] at hs
  split at hs
  · next hin => exact ⟨hin, (Option.some.inj hs).symm⟩
  · cases hs

variable [DecidableEq π]

/-- The bytes of a pointer. -/
theorem get_eq_some (hw : 0 < width) :
    h.get width b off = some p ↔ ∀ i < width, h.bytes b (off + i) = .part p i := by
  constructor
  · intro hg
    simp only [get] at hg
    split at hg
    · next q i hq =>
      split at hg
      · next hall =>
        cases hg
        exact hall
      · cases hg
    · cases hg
  · intro hall
    have hfirst : h.bytes b off = .part p 0 := hall 0 hw
    simp only [get, hfirst]
    exact if_pos hall

theorem load_eq_some (hw : 0 < width) :
    h.load width b off = some p ↔
      h.Inside b off width ∧ ∀ i < width, h.bytes b (off + i) = .part p i := by
  rw [load]
  split
  · next hin => rw [get_eq_some hw]; simp [hin]
  · next hin => simp [hin]

/-- What was stored is loaded. -/
theorem load_put (hw : 0 < width) (hin : h.Inside b off width) :
    (h.put width b off p).load width b off = some p := by
  rw [load_eq_some hw]
  refine ⟨hin, fun i hi => ?_⟩
  simp only [put, Function.update_self]
  rw [if_pos ⟨Nat.le_add_right off i, Nat.add_lt_add_left hi off⟩, Nat.add_sub_cancel_left]

/-- A pointer is stored in another block. -/
theorem load_put_of_ne (hne : b' ≠ b) (q : π) :
    (h.put width b off q).load width b' off' = h.load width b' off' := by
  simp only [load, get, put, Function.update_of_ne hne]
  rfl

/-- A byte in front of the pointer, or in another block, is written. -/
theorem load_write (hw : 0 < width) (hp : h.load width b off = some p) {v : BlockByte π}
    (hfree : b' = b → off' < off) : (h.write b' off' v).load width b off = some p := by
  rw [load_eq_some hw] at hp ⊢
  refine ⟨hp.1, fun i hi => ?_⟩
  by_cases hb : b = b'
  · subst hb
    have hne : off + i ≠ off' := by have := hfree rfl; omega
    simp only [write, Function.update_self, Function.update_of_ne hne]
    exact hp.2 i hi
  · simp only [write, Function.update_of_ne hb]
    exact hp.2 i hi

/-- A block is allocated or released: the pointers in the blocks that stay in use are still
there. -/
theorem load_congr {h' : BlockHeap π} (hw : 0 < width) (hp : h.load width b off = some p)
    (huse : h'.InUse b) (hsize : h'.size b = h.size b) (hbytes : h'.bytes b = h.bytes b) :
    h'.load width b off = some p := by
  rw [load_eq_some hw] at hp ⊢
  rw [hbytes]
  exact ⟨⟨huse, by rw [hsize]; exact hp.1.2⟩, hp.2⟩

end Pointers

/-! ## Holders -/

/-- Every block in use has exactly one holder; no block is released twice. -/
structure Kept (holds : κ → Nat → Prop) (h : BlockHeap π) : Prop where
  owned : Owned holds h.InUse
  once : ∀ b, h.released b ≤ 1
  fresh : ∀ b, h.count ≤ b → h.released b = 0

section Rules

variable {h : BlockHeap π} {holds holds' : κ → Nat → Prop}

/-- Nothing was allocated yet. -/
theorem kept_empty {bytes : Nat → Nat → BlockByte π} (ho : ∀ x b, ¬ holds x b) :
    Kept holds ({ bytes := bytes } : BlockHeap π) :=
  ⟨.of_none (fun _ hb => absurd hb.1 (Nat.not_lt_zero _)) ho, fun _ => Nat.zero_le 1,
    fun _ _ => rfl⟩

/-- A held block is in use. -/
theorem Kept.inUse (hk : Kept holds h) {x : κ} {b : Nat} (hx : holds x b) : h.InUse b :=
  hk.owned.only_open x b hx

/-- The next block has no holder. -/
theorem Kept.ne_count (hk : Kept holds h) {x : κ} {b : Nat} (hx : holds x b) : b ≠ h.count :=
  Nat.ne_of_lt (hk.inUse hx).1

theorem Kept.congr (hk : Kept holds h) (ho : ∀ x b, holds' x b ↔ holds x b) : Kept holds' h :=
  ⟨hk.owned.congr ho fun _ => Iff.rfl, hk.once, hk.fresh⟩

/-- **Writing**: the blocks are the same. -/
theorem Kept.withBytes (hk : Kept holds h) (bytes : Nat → Nat → BlockByte π) :
    Kept holds { h with bytes := bytes } :=
  ⟨hk.owned, hk.once, hk.fresh⟩

/-- **Allocation**: `y` holds the new block. -/
theorem Kept.alloc (hk : Kept holds h) (y : κ)
    (ho : ∀ x b, holds' x b ↔ (x = y ∧ b = h.count) ∨ holds x b) (n : Nat) :
    Kept holds' (h.alloc n) where
  owned := by
    refine hk.owned.add (p := some h.count) (fun b hb hopen => ?_) y (fun x b => ?_) fun b => ?_
    · cases hb
      exact absurd hopen.1 (Nat.lt_irrefl _)
    · rw [ho, Option.some.injEq, eq_comm (a := b)]
    · rw [Option.some.injEq]
      constructor
      · rintro ⟨hlt, hrel⟩
        obtain hlt | rfl := Nat.lt_succ_iff_lt_or_eq.mp hlt
        · exact .inr ⟨hlt, hrel⟩
        · exact .inl rfl
      · rintro (rfl | ⟨hlt, hrel⟩)
        · exact ⟨Nat.lt_succ_self _, hk.fresh _ (Nat.le_refl _)⟩
        · exact ⟨Nat.lt_succ_of_lt hlt, hrel⟩
  once := hk.once
  fresh b hb := hk.fresh b (Nat.le_of_succ_le hb)

/-- **Release**: `y` is rid of what it held. -/
theorem Kept.release (hk : Kept holds h) {p : Option Nat} {y : κ}
    (hy : ∀ b, p = some b → holds y b)
    (ho : ∀ x b, holds' x b ↔ holds x b ∧ ¬ (x = y ∧ p = some b)) :
    Kept holds' (h.release p) := by
  cases p with
  | none => exact hk.congr fun x b => by simp [ho]
  | some c =>
      have hc : h.InUse c := hk.inUse (hy c rfl)
      refine ⟨hk.owned.close hy ho fun b => ?_, fun b => ?_, fun b hb => ?_⟩
      · by_cases hbc : b = c
        · subst hbc
          simp [InUse, BlockHeap.release]
        · simp [InUse, BlockHeap.release, hbc, Ne.symm hbc]
      · by_cases hbc : b = c
        · subst hbc
          simp [BlockHeap.release, hc.2]
        · rw [release_released_of_ne h _ (by simpa using Ne.symm hbc)]
          exact hk.once b
      · rw [release_count] at hb
        have hcb : c ≠ b := Nat.ne_of_lt (Nat.lt_of_lt_of_le hc.1 hb)
        rw [release_released_of_ne h _ (by simpa using hcb)]
        exact hk.fresh b hb

/-- **Every block is released exactly once**: as soon as nobody holds it, and not before. -/
theorem Kept.released_iff (hk : Kept holds h) {b : Nat} (hb : b < h.count) :
    (h.released b = 0 ↔ ∃ x, holds x b) ∧ (h.released b = 1 ↔ ¬ ∃ x, holds x b) := by
  have hheld : h.released b = 0 ↔ ∃ x, holds x b :=
    ⟨fun hrel => hk.owned.owner b ⟨hb, hrel⟩, fun ⟨_, hx⟩ => (hk.inUse hx).2⟩
  refine ⟨hheld, ?_⟩
  have hle := hk.once b
  rw [← hheld]
  omega

end Rules

end BlockHeap
