import Cocls.Scheduler.Runs

/-!
# Cocls.Scheduler.Bounds

Every access of an element of `_scheduled`, as the index and the size of the
vector at that moment.  The loop of `get_expired` tests for the empty vector in
every round; the loop of `remove` tests once, before it, and pops every emptied
item of its identifier from the top.  When the vector holds nothing else it
reads the top of an empty one (`inside_iff`).
-/

namespace Cocls

namespace Scheduler

variable {τ ι π E : Type*}

/-- An access `_scheduled[index]` when there are `size` elements. -/
structure Access where
  index : Nat
  size : Nat
deriving DecidableEq, Repr

/-- The access is of an existing element. -/
def Access.Exists (a : Access) : Prop := a.index < a.size

instance : DecidablePred Access.Exists := fun a => inferInstanceAs (Decidable (a.index < a.size))

/-- `_scheduled[0]`. -/
def topAccess (v : List (SchItem τ ι π)) : Access := ⟨0, v.length⟩

/-- The accesses of `pop_item()`: the last element, which `pop_back` destroys. -/
def popItemAccesses (v : List (SchItem τ ι π)) : List Access := [⟨v.length - 1, v.length⟩]

/-- The accesses of `schedule`: the time of the top, when there is one. -/
def scheduleAccesses (v : List (SchItem τ ι π)) : List Access :=
  if v = [] then [] else [topAccess v]

section Functions

variable [LinearOrder τ] (H : HeapOps τ ι π)

/-- The accesses of `get_expired_lk(now)`; `none` when `fuel` rounds were not enough. -/
def getExpiredAccesses (now : τ) : (fuel : Nat) → List (SchItem τ ι π) → Option (List Access)
  | _, [] => some []
  | 0, _ :: _ => none
  | fuel + 1, x :: xs =>
      let top := topAccess (x :: xs)
      -- `||` reads the promise only when the time has not come
      let test := if x.tp ≤ now then [top] else [top, top]
      if x.tp ≤ now ∨ x.p = none then
        match x.p with
        | some _ => some (test ++ top :: popItemAccesses (x :: xs))
        | none =>
            (getExpiredAccesses now fuel (popTop H x xs)).map fun as =>
              test ++ top :: popItemAccesses (x :: xs) ++ as
      else
        some (test ++ [top])

variable [DecidableEq ι]

/-- The accesses of the end of `remove`: `std::find_if` reads up to the item it
finds, whose promise is moved out. -/
def findAccesses (id : ι) (v : List (SchItem τ ι π)) : List Access :=
  let i := v.findIdx fun x => x.ident = id
  (List.range (min (i + 1) v.length)).map (⟨·, v.length⟩) ++
    if i < v.length then [⟨i, v.length⟩] else []

/-- The accesses of the loop of `remove` and of what follows it.  Nothing is said
of a run that has read the top of an empty vector. -/
def removeLoopAccesses (id : ι) : (fuel : Nat) → List (SchItem τ ι π) → Option (List Access)
  | _, [] => some [topAccess ([] : List (SchItem τ ι π))]
  | 0, _ :: _ => none
  | fuel + 1, x :: xs =>
      let top := topAccess (x :: xs)
      if x.ident = id then
        match x.p with
        | some _ => some (top :: top :: popItemAccesses (x :: xs))
        | none =>
            (removeLoopAccesses id fuel (popTop H x xs)).map fun as =>
              top :: top :: popItemAccesses (x :: xs) ++ as
      else
        some (top :: findAccesses id (x :: xs))

/-- The accesses of `remove(id)`. -/
def removeAccesses (id : ι) (v : List (SchItem τ ι π)) : Option (List Access) :=
  if v = [] then some [] else removeLoopAccesses H id v.length v

end Functions

/-- The loops came to an end, and every access was of an existing element. -/
def Inside : Option (List Access) → Prop
  | none => False
  | some as => ∀ a ∈ as, a.Exists

instance Inside.decidable : DecidablePred Inside
  | none => .isFalse id
  | some as => inferInstanceAs (Decidable (∀ a ∈ as, a.Exists))

/-- There are items, and each is an emptied one of the identifier. -/
def Drained (id : ι) (v : List (SchItem τ ι π)) : Prop :=
  v ≠ [] ∧ ∀ x ∈ v, x.ident = id ∧ x.p = none

section Accesses

variable {v xs : List (SchItem τ ι π)} {x : SchItem τ ι π} {id : ι}

theorem topAccess_exists : (topAccess (x :: xs)).Exists := by
  simp [Access.Exists, topAccess]

theorem popItemAccesses_exist : ∀ a ∈ popItemAccesses (x :: xs), a.Exists := by
  simp [popItemAccesses, Access.Exists]

/-- What is read before more accesses are made does not matter when it exists. -/
theorem inside_map_append {as : List Access} (h : ∀ a ∈ as, a.Exists) (o : Option (List Access)) :
    Inside (o.map fun bs => as ++ bs) ↔ Inside o := by
  cases o with
  | none => rfl
  | some bs =>
      simp only [Option.map_some, Inside, List.mem_append]
      exact ⟨fun hall b hb => hall b (.inr hb), fun hall a ha => ha.elim (h a) (hall a)⟩

theorem scheduleAccesses_exist : ∀ a ∈ scheduleAccesses v, a.Exists := by
  cases v with
  | nil => simp [scheduleAccesses]
  | cons x xs => simp [scheduleAccesses, topAccess_exists]

/-- `std::find_if` stays in its range, and finds an element of it. -/
theorem findAccesses_exist [DecidableEq ι] : ∀ a ∈ findAccesses id v, a.Exists := by
  intro a ha
  rcases List.mem_append.mp ha with ha | ha
  · obtain ⟨j, hj, rfl⟩ := List.mem_map.mp ha
    have hlt := List.mem_range.mp hj
    exact lt_of_lt_of_le hlt (min_le_right _ _)
  · split at ha
    · next hlt =>
        obtain rfl := List.mem_singleton.mp ha
        exact hlt
    · exact absurd ha List.not_mem_nil

/-- An emptied item of the identifier on top is popped: the others decide. -/
theorem drained_cons {w : List (SchItem τ ι π)} (hid : x.ident = id) (hp : x.p = none)
    (hperm : w.Perm xs) :
    (∀ y ∈ x :: xs, y.ident = id ∧ y.p = none) ↔ ∀ y ∈ w, y.ident = id ∧ y.p = none := by
  simp only [List.mem_cons, forall_eq_or_imp, hid, hp, and_self, true_and, hperm.mem_iff]

/-- The accesses of a round of the loop of `remove` that pops. -/
theorem round_exists (x : SchItem τ ι π) (xs : List (SchItem τ ι π)) :
    ∀ a ∈ topAccess (x :: xs) :: topAccess (x :: xs) :: popItemAccesses (x :: xs), a.Exists := by
  intro a ha
  rcases List.mem_cons.mp ha with rfl | ha
  · exact topAccess_exists
  · rcases List.mem_cons.mp ha with rfl | ha
    · exact topAccess_exists
    · exact popItemAccesses_exist a ha

/-- The accesses of a round of the loop of `remove` that does not. -/
theorem search_exists [DecidableEq ι] :
    ∀ a ∈ topAccess (x :: xs) :: findAccesses id (x :: xs), a.Exists := by
  intro a ha
  rcases List.mem_cons.mp ha with rfl | ha
  · exact topAccess_exists
  · exact findAccesses_exist a ha

end Accesses

section Loops

variable [LinearOrder τ] (H : HeapOps τ ι π) {v : List (SchItem τ ι π)}

/-- The loop of `get_expired` ends, and stays inside. -/
theorem getExpiredAccesses_inside (now : τ) :
    ∀ (fuel : Nat) (v : List (SchItem τ ι π)), v.length ≤ fuel → Heap.Ordered SchItem.tp v →
      Inside (getExpiredAccesses H now fuel v) := by
  intro fuel
  induction fuel with
  | zero =>
      intro v hlen hv
      obtain rfl : v = [] := List.eq_nil_of_length_eq_zero (by omega)
      simp [getExpiredAccesses, Inside]
  | succ fuel ih =>
      intro v hlen hv
      cases v with
      | nil => simp [getExpiredAccesses, Inside]
      | cons x xs =>
          obtain ⟨hpop, hperm⟩ := popTop_spec H hv
          have htest : ∀ a ∈ (if x.tp ≤ now then [topAccess (x :: xs)]
              else [topAccess (x :: xs), topAccess (x :: xs)]), a.Exists := by
            split <;> simp [topAccess_exists]
          have hround : ∀ a ∈ (if x.tp ≤ now then [topAccess (x :: xs)]
              else [topAccess (x :: xs), topAccess (x :: xs)]) ++
                topAccess (x :: xs) :: popItemAccesses (x :: xs), a.Exists := by
            intro a ha
            rcases List.mem_append.mp ha with ha | ha
            · exact htest a ha
            · rcases List.mem_cons.mp ha with rfl | ha
              · exact topAccess_exists
              · exact popItemAccesses_exist a ha
          rw [getExpiredAccesses]
          split
          · cases hp : x.p with
            | some p => exact hround
            | none =>
                have hlen' : (popTop H x xs).length ≤ fuel := by
                  rw [hperm.length_eq]
                  simpa using hlen
                exact (inside_map_append hround _).mpr (ih _ hlen' hpop)
          · intro a ha
            rcases List.mem_append.mp ha with ha | ha
            · exact htest a ha
            · obtain rfl := List.mem_singleton.mp ha
              exact topAccess_exists

variable [DecidableEq ι] {id : ι}

/-- The loop of `remove` gives an answer exactly when it ends and stays inside. -/
theorem removeLoop_isSome_iff (id : ι) :
    ∀ (fuel : Nat) (v : List (SchItem τ ι π)),
      (removeLoop H id fuel v).isSome ↔ Inside (removeLoopAccesses H id fuel v) := by
  intro fuel
  induction fuel with
  | zero =>
      intro v
      cases v with
      | nil => simp [removeLoop, removeLoopAccesses, Inside, topAccess, Access.Exists]
      | cons x xs => simp [removeLoop, removeLoopAccesses, Inside]
  | succ fuel ih =>
      intro v
      cases v with
      | nil => simp [removeLoop, removeLoopAccesses, Inside, topAccess, Access.Exists]
      | cons x xs =>
          have hround := round_exists x xs
          by_cases hid : x.ident = id
          · cases hp : x.p with
            | some p =>
                simp only [removeLoop, removeLoopAccesses, hid, if_true, hp, Option.isSome_some]
                exact iff_of_true trivial hround
            | none =>
                simp only [removeLoop, removeLoopAccesses, hid, if_true, hp]
                rw [inside_map_append hround, ih]
          · simp only [removeLoop, removeLoopAccesses, hid, if_false, Option.isSome_some, true_iff]
            exact search_exists

/-- `remove` gives an answer exactly when it ends and stays inside. -/
theorem remove_isSome_iff (id : ι) (v : List (SchItem τ ι π)) :
    (remove H id v).isSome ↔ Inside (removeAccesses H id v) := by
  rw [remove, removeAccesses]
  split
  · simp [Inside]
  · exact removeLoop_isSome_iff H id v.length v

/-- Nothing is left exactly when all there is are emptied items of the identifier. -/
theorem dropEmptied_eq_nil_iff (id : ι) :
    ∀ (fuel : Nat) (v : List (SchItem τ ι π)), v.length ≤ fuel → Heap.Ordered SchItem.tp v →
      (dropEmptied H id fuel v = [] ↔ ∀ x ∈ v, x.ident = id ∧ x.p = none) := by
  intro fuel
  induction fuel with
  | zero =>
      intro v hlen hv
      obtain rfl : v = [] := List.eq_nil_of_length_eq_zero (by omega)
      simp [dropEmptied]
  | succ fuel ih =>
      intro v hlen hv
      cases v with
      | nil => simp [dropEmptied]
      | cons x xs =>
          obtain ⟨hpop, hperm⟩ := popTop_spec H hv
          rw [dropEmptied]
          split
          · next hx =>
            have hlen' : (popTop H x xs).length ≤ fuel := by
              rw [hperm.length_eq]
              simpa using hlen
            rw [ih _ hlen' hpop, drained_cons hx.1 hx.2 hperm]
          · next hx =>
            exact iff_of_false (List.cons_ne_nil x xs) fun hall => hx (hall x List.mem_cons_self)

/-- `remove` gives an answer exactly when it does not find its own emptied items only. -/
theorem remove_isSome_iff_not_drained (id : ι) (hv : Heap.Ordered SchItem.tp v) :
    (remove H id v).isSome ↔ ¬ Drained id v := by
  rw [remove, Drained]
  split
  · next h => simp [h]
  · next h =>
    obtain ⟨-, hnil, hne⟩ := removeLoop_spec H id v.length v (le_refl _) hv
    rw [← dropEmptied_eq_nil_iff H id v.length v (le_refl _) hv]
    by_cases hdrop : dropEmptied H id v.length v = []
    · simp [hnil hdrop, hdrop, h]
    · obtain ⟨v', hrun, -⟩ := hne hdrop
      simp [hrun, hdrop]

/-- `remove` ends and stays inside exactly when it does not find its own emptied items only. -/
theorem removeAccesses_inside_iff (id : ι) (hv : Heap.Ordered SchItem.tp v) :
    Inside (removeAccesses H id v) ↔ ¬ Drained id v :=
  (remove_isSome_iff H id v).symm.trans (remove_isSome_iff_not_drained H id hv)

end Loops

namespace Sys

section Runs

variable [LinearOrder τ] [OrderTop τ] [DecidableEq ι] (H : HeapOps τ ι Nat)

/-- The accesses of a call. -/
def accesses (s : Sys τ ι E) : Action τ ι E → Option (List Access)
  | .schedule _ _ _ => some (scheduleAccesses s.v)
  | .getExpired now => getExpiredAccesses H now s.v.length s.v
  | .remove id | .cancel id _ => removeAccesses H id s.v

/-- The loops of the call end, and it reads existing elements only. -/
def StaysInside (s : Sys τ ι E) (a : Action τ ι E) : Prop := Inside (s.accesses H a)

instance (s : Sys τ ι E) (a : Action τ ι E) : Decidable (s.StaysInside H a) :=
  inferInstanceAs (Decidable (Inside _))

/-- The call is not a `remove` or a `cancel` with nothing but emptied items of its
identifier in the vector. -/
def Undrained (s : Sys τ ι E) : Action τ ι E → Prop
  | .remove id | .cancel id _ => ¬ Drained id s.v
  | .schedule _ _ _ | .getExpired _ => True

variable {s : Sys τ ι E}

omit [OrderTop τ] in
/-- **Call lemma.** -/
theorem staysInside_iff (hi : Inv s) (a : Action τ ι E) : s.StaysInside H a ↔ s.Undrained a := by
  cases a with
  | schedule id tp full => exact iff_of_true scheduleAccesses_exist trivial
  | getExpired now =>
      exact iff_of_true (getExpiredAccesses_inside H now _ _ (le_refl _) hi.ordered) trivial
  | remove id => exact removeAccesses_inside_iff H id hi.ordered
  | cancel id e => exact removeAccesses_inside_iff H id hi.ordered

/-- **Staying inside the heap**: in every run, the calls all end and read existing
elements only exactly when no `remove` and no `cancel` finds nothing but emptied items
of its own identifier. -/
theorem inside_iff (acts : List (Action τ ι E)) :
    Run.Meets (step H) (StaysInside H) ({} : Sys τ ι E) acts ↔
      Run.Meets (step H) Undrained ({} : Sys τ ι E) acts := by
  have hstep : ∀ (good : Sys τ ι E → Action τ ι E → Prop) (s : Sys τ ι E) a s',
      Inv s → good s a → s.step H a = some s' → Inv s' :=
    fun _ _ _ _ hs _ h => inv_step H hs h
  constructor
  · exact Run.Meets.imp_of_inv (hstep _) (fun s a hs => (staysInside_iff H hs a).mp) inv_init
  · exact Run.Meets.imp_of_inv (hstep _) (fun s a hs => (staysInside_iff H hs a).mpr) inv_init

end Runs

/-- A sleeper is removed from below another one, which is then removed from the top:
its emptied item is all there is when its identifier is removed again. -/
def drainedRun : List (Action (Fin 5) Nat Nat) :=
  [.schedule 0 1 true, .schedule 7 2 true, .remove 7, .remove 0, .remove 7]

theorem inside_fails : ¬ ∀ (H : HeapOps (Fin 5) Nat Nat) acts,
    Run.Meets (step H) (StaysInside H) ({} : Sys (Fin 5) Nat Nat) acts := by
  intro h
  have hrun := h (Heap.sorting _) drainedRun
  revert hrun
  decide

end Sys

end Scheduler

end Cocls
