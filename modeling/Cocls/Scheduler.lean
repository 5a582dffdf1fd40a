import Mathlib.Order.BoundedOrder.Basic
import Cocls.Heap
import Cocls.Run

/-!
# Cocls.Scheduler

The timer heap of the scheduler.  An item has a time, a promise and an
identifier; the vector of items is a heap by time.  `remove` takes the promise
out of its item and leaves the emptied item, with its time and identifier,
where it is; `get_expired` throws emptied items away when they come to the top.

`std::push_heap` and `std::pop_heap` are a parameter `H`, of which only the
specification is used.
-/

namespace Cocls

/-- `scheduler::SchItem`; `p = none` is an empty promise. -/
structure SchItem (τ ι π : Type*) where
  tp : τ
  p : Option π
  ident : ι
deriving DecidableEq, Repr

namespace Scheduler

variable {τ ι π E : Type*} [LinearOrder τ]

/-- `compare_item`: the comparison the heap functions are called with. -/
def compareItem (a b : SchItem τ ι π) : Bool := a.tp > b.tp

/-- In a heap by time no parent compares greater than its child. -/
theorem ordered_iff_compareItem {v : List (SchItem τ ι π)} :
    Heap.Ordered SchItem.tp v ↔ ∀ i x y, 0 < i → v[(i - 1) / 2]? = some x → v[i]? = some y →
      compareItem x y = false := by
  simp only [Heap.Ordered, compareItem, gt_iff_lt, decide_eq_false_iff_not, not_lt]

/-- What `get_expired` returns. -/
inductive Expired (τ π : Type*) where
  | time (tp : τ)
  | promise (p : π)
deriving DecidableEq, Repr

/-- `std::push_heap` and `std::pop_heap`, called with `compare_item`. -/
abbrev HeapOps (τ ι π : Type*) [LinearOrder τ] := Heap.Ops (SchItem.tp : SchItem τ ι π → τ)

section Functions

variable (H : HeapOps τ ι π)

/-- `schedule(id, p, tp)`: the vector, and whether the worker is notified. -/
def schedule (id : ι) (p : Option π) (tp : τ) (v : List (SchItem τ ι π)) :
    List (SchItem τ ι π) × Bool :=
  let ntf := match v with
    | [] => true
    | x :: _ => x.tp > tp
  (H.push (v ++ [⟨tp, p, id⟩]), ntf)

/-- `pop_item()`. -/
def popItem (v : List (SchItem τ ι π)) : List (SchItem τ ι π) := (H.pop v).dropLast

/-- Moving the promise out of the first item and popping the item. -/
def popTop (x : SchItem τ ι π) (xs : List (SchItem τ ι π)) : List (SchItem τ ι π) :=
  popItem H ({ x with p := none } :: xs)

/-- `get_expired_lk(now)`; `none` when `fuel` rounds were not enough. -/
def getExpiredLk [OrderTop τ] (now : τ) :
    (fuel : Nat) → List (SchItem τ ι π) → Option (List (SchItem τ ι π) × Expired τ π)
  | _, [] => some ([], .time ⊤)
  | 0, _ :: _ => none
  | fuel + 1, x :: xs =>
      if x.tp ≤ now ∨ x.p = none then
        match x.p with
        | some p => some (popTop H x xs, .promise p)
        | none => getExpiredLk now fuel (popTop H x xs)
      else
        some (x :: xs, .time x.tp)

variable [DecidableEq ι]

/-- The end of `remove`: `std::find_if` for the identifier, and moving the promise
out of the item found. -/
def moveOut (id : ι) : List (SchItem τ ι π) → List (SchItem τ ι π) × Option π
  | [] => ([], none)
  | x :: xs =>
      if x.ident = id then ({ x with p := none } :: xs, x.p)
      else
        let r := moveOut id xs
        (x :: r.1, r.2)

/-- The loop of `remove`; `none`: `_scheduled[0]` is read in an empty vector (or
`fuel` rounds were not enough). -/
def removeLoop (id : ι) :
    (fuel : Nat) → List (SchItem τ ι π) → Option (List (SchItem τ ι π) × Option π)
  | _, [] => none
  | 0, _ :: _ => none
  | fuel + 1, x :: xs =>
      if x.ident = id then
        match x.p with
        | some p => some (popTop H x xs, some p)
        | none => removeLoop id fuel (popTop H x xs)
      else
        some (moveOut id (x :: xs))

/-- `remove(id)`. -/
def remove (id : ι) (v : List (SchItem τ ι π)) : Option (List (SchItem τ ι π) × Option π) :=
  if v = [] then some ([], none) else removeLoop H id v.length v

/-- `cancel(id, e)`: the answer, and the promise that is called with the exception. -/
def cancel (id : ι) (e : E) (v : List (SchItem τ ι π)) :
    Option (List (SchItem τ ι π) × Bool × Option (π × E)) :=
  (remove H id v).map fun r => (r.1, r.2.isSome, r.2.map fun p => (p, e))

end Functions

end Scheduler

end Cocls
