import Mathlib.Logic.Function.Basic

/-!
# Links

Singly linked chains in a store of `next` pointers: `Links next a xs b` says
that following `next` from the pointer `a` visits exactly the nodes `xs`, in
this order, and then holds the pointer `b` (a null pointer, or a marker that
ends the chain).

The lemmas are what proofs about pointer programs need of it: how a chain
splits, that writing a node outside the chain leaves it alone, what pushing and
unlinking the first node do, and the step of the in-place reversal, which moves
the first node of one chain to the front of another.
-/

/-- Following `next` from `a` visits exactly `xs` and then holds `b`. -/
def Links {α : Type*} (next : α → Option α) : Option α → List α → Option α → Prop
  | a, [], b => a = b
  | a, x :: xs, b => a = some x ∧ Links next (next x) xs b

namespace Links

variable {α : Type*} {next : α → Option α} {a b c : Option α} {x : α} {xs ys : List α}

@[simp] theorem nil_iff : Links next a [] b ↔ a = b := Iff.rfl

@[simp] theorem cons_iff : Links next a (x :: xs) b ↔ a = some x ∧ Links next (next x) xs b :=
  Iff.rfl

/-- Only the `next` fields of the visited nodes matter. -/
theorem agree {next' : α → Option α} (h : ∀ x ∈ xs, next x = next' x) :
    Links next a xs b ↔ Links next' a xs b := by
  induction xs generalizing a with
  | nil => rfl
  | cons x xs ih =>
      rw [cons_iff, cons_iff, ← h x List.mem_cons_self,
        ih fun y hy => h y (List.mem_cons_of_mem x hy)]

/-- The empty chain is the only one that starts where it ends, as long as the
end is not one of the nodes. -/
theorem eq_end_iff (h : Links next a xs b) (hb : ∀ x ∈ xs, b ≠ some x) : a = b ↔ xs = [] := by
  cases xs with
  | nil => simpa using h
  | cons x xs =>
      have hne : a ≠ b := by
        rintro rfl
        exact hb x List.mem_cons_self h.1
      simp [hne]

/-- A chain that ends at null starts at its first node. -/
theorem start_eq_head? (h : Links next a xs none) : a = xs.head? := by
  cases xs with
  | nil => exact h
  | cons x xs => exact h.1

/-- A chain that ends at a node starts at one. -/
theorem start_ne_none {e : α} (h : Links next a xs (some e)) : a ≠ none := by
  cases xs with
  | nil => rw [nil_iff.mp h]; simp
  | cons x xs => rw [h.1]; simp

/-- In a chain that ends at a node, no visited node has a null `next`. -/
theorem next_ne_none {e : α} (h : Links next a xs (some e)) (hx : x ∈ xs) : next x ≠ none := by
  induction xs generalizing a with
  | nil => simp at hx
  | cons y ys ih =>
      rcases List.mem_cons.mp hx with rfl | hx
      · exact start_ne_none h.2
      · exact ih h.2 hx

variable [DecidableEq α]

/-- Writing the `next` field of a node outside the chain leaves the chain. -/
theorem update_iff (hx : x ∉ xs) {v : Option α} :
    Links (Function.update next x v) a xs b ↔ Links next a xs b :=
  agree fun y hy => Function.update_of_ne (fun hyx : y = x => hx (hyx ▸ hy)) v next

/-- Pushing a node that is not yet in the chain. -/
theorem push (hx : x ∉ xs) (h : Links next a xs b) :
    Links (Function.update next x a) (some x) (x :: xs) b := by
  refine ⟨rfl, ?_⟩
  rw [Function.update_self]
  exact (update_iff hx).mpr h

/-- One step of the in-place reversal: the first node of the chain `x :: xs` is
redirected to the front of the chain `ys`. -/
theorem reverse_step {d : Option α} (hxs : x ∉ xs) (hys : x ∉ ys)
    (h : Links next a (x :: xs) b) (hq : Links next c ys d) :
    Links (Function.update next x c) (next x) xs b ∧
      Links (Function.update next x c) (some x) (x :: ys) d :=
  ⟨(update_iff hxs).mpr h.2, push hys hq⟩

end Links
