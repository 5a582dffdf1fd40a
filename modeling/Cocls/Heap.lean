import Mathlib.Data.List.Sort
import Mathlib.Order.Defs.LinearOrder

/-!
# Heap

Binary heaps in a vector, as the standard library keeps them: `std::push_heap`
and `std::pop_heap` rearrange a vector so that the item to be served next is
first.  Items are served by increasing `key`.

`Ordered` is the heap order.  `Ops` is what the two functions are specified to
do, and no more: which of the many heaps over the same items they produce is
left open.  `sorting` is one implementation, by keeping the whole vector
sorted.
-/

namespace Heap

variable {α κ : Type*} [LinearOrder κ]

/-- No item is to be served before the item at its parent position. -/
def Ordered (key : α → κ) (v : List α) : Prop :=
  ∀ i x y, 0 < i → v[(i - 1) / 2]? = some x → v[i]? = some y → key x ≤ key y

section Ordered

variable {key : α → κ} {v w : List α} {x : α}

theorem ordered_nil : Ordered key ([] : List α) := by simp [Ordered]

/-- The order depends on the keys only. -/
theorem Ordered.congr (h : Ordered key v) (hkey : w.map key = v.map key) : Ordered key w := by
  intro i x y hi hx hy
  have hget : ∀ (j : Nat) (z : α), w[j]? = some z → ∃ z', v[j]? = some z' ∧ key z' = key z := by
    intro j z hz
    have hmap : (v.map key)[j]? = some (key z) := by rw [← hkey, List.getElem?_map, hz]; rfl
    rw [List.getElem?_map, Option.map_eq_some_iff] at hmap
    exact hmap
  obtain ⟨x', hx', hkx⟩ := hget _ x hx
  obtain ⟨y', hy', hky⟩ := hget _ y hy
  rw [← hkx, ← hky]
  exact h i x' y' hi hx' hy'

/-- The first item is one to be served next. -/
theorem Ordered.root_le (h : Ordered key (x :: v)) : ∀ y ∈ v, key x ≤ key y := by
  have hall : ∀ (i : Nat) (y : α), (x :: v)[i]? = some y → key x ≤ key y := by
    intro i
    induction i using Nat.strongRecOn with
    | _ i ih =>
        intro y hy
        cases i with
        | zero =>
            obtain rfl : x = y := by simpa using hy
            exact le_refl _
        | succ i =>
            have hlt : (i + 1 - 1) / 2 < (x :: v).length := by
              have := (List.getElem?_eq_some_iff.mp hy).1
              omega
            have hparent := List.getElem?_eq_getElem hlt
            exact le_trans (ih _ (by omega) _ hparent) (h (i + 1) _ y (by omega) hparent hy)
  intro y hy
  obtain ⟨i, hi⟩ := List.mem_iff_getElem?.mp hy
  exact hall (i + 1) y (by simpa using hi)

/-- A sorted vector is a heap. -/
theorem ordered_of_sorted (h : v.Pairwise fun a b => key a ≤ key b) : Ordered key v := by
  intro i x y hi hx hy
  obtain ⟨hj, rfl⟩ := List.getElem?_eq_some_iff.mp hx
  obtain ⟨hi', rfl⟩ := List.getElem?_eq_some_iff.mp hy
  exact List.pairwise_iff_getElem.mp h _ _ hj hi' (by omega)

end Ordered

/-- `push_heap` and `pop_heap`, with what they are specified to do. -/
structure Ops (key : α → κ) where
  /-- `push_heap`: insert the last item into the heap before it -/
  push : List α → List α
  /-- `pop_heap`: move the first item to the end, and make a heap of the others -/
  pop : List α → List α
  push_perm : ∀ v, (push v).Perm v
  push_ordered : ∀ v x, Ordered key v → Ordered key (push (v ++ [x]))
  pop_spec : ∀ x v, Ordered key (x :: v) → ∃ w, pop (x :: v) = w ++ [x] ∧ w.Perm v ∧ Ordered key w

/-- Sort by key. -/
def sort (key : α → κ) (v : List α) : List α := v.insertionSort fun a b => key a ≤ key b

theorem sort_perm (key : α → κ) (v : List α) : (sort key v).Perm v := List.perm_insertionSort _ v

theorem sort_ordered (key : α → κ) (v : List α) : Ordered key (sort key v) := by
  have : IsTrans α fun a b => key a ≤ key b := ⟨fun _ _ _ => le_trans⟩
  have : Std.Total fun a b : α => key a ≤ key b := ⟨fun a b => le_total (key a) (key b)⟩
  exact ordered_of_sorted (List.pairwise_insertionSort _ v)

/-- Heap operations that keep the vector sorted. -/
def sorting (key : α → κ) : Ops key where
  push v := sort key v
  pop
    | [] => []
    | x :: v => sort key v ++ [x]
  push_perm v := sort_perm key v
  push_ordered v x _ := sort_ordered key (v ++ [x])
  pop_spec _ v _ := ⟨sort key v, rfl, sort_perm key v, sort_ordered key v⟩

end Heap
