import Mathlib.Data.List.Perm.Basic
import Cocls.Scheduler

/-!
# Cocls.Scheduler.Live

What the functions of the scheduler do to the *live* entries: the items that
still hold their promise.  The emptied items are invisible here; they only
decide which item `remove` finds (`Answerable`).
-/

namespace Cocls

namespace Scheduler

variable {τ ι π E : Type*}

/-- A scheduled promise with its time and identifier. -/
structure Entry (τ ι π : Type*) where
  tp : τ
  ident : ι
  p : π
deriving DecidableEq, Repr

/-- The entry of an item that still holds its promise. -/
def liveEntry (x : SchItem τ ι π) : Option (Entry τ ι π) := x.p.map fun p => ⟨x.tp, x.ident, p⟩

/-- The live entries in a vector of items. -/
def liveIn (v : List (SchItem τ ι π)) : List (Entry τ ι π) := v.filterMap liveEntry

section LiveIn

variable {v w : List (SchItem τ ι π)} {x : SchItem τ ι π} {e : Entry τ ι π} {p : π}

theorem liveEntry_of_empty (h : x.p = none) : liveEntry x = none := by simp [liveEntry, h]

theorem liveEntry_of_some (h : x.p = some p) : liveEntry x = some ⟨x.tp, x.ident, p⟩ := by
  simp [liveEntry, h]

theorem liveIn_cons_of_empty (h : x.p = none) : liveIn (x :: v) = liveIn v :=
  List.filterMap_cons_none (liveEntry_of_empty h)

theorem liveIn_cons_of_some (h : x.p = some p) :
    liveIn (x :: v) = ⟨x.tp, x.ident, p⟩ :: liveIn v :=
  List.filterMap_cons_some (liveEntry_of_some h)

@[simp] theorem liveIn_nil : liveIn ([] : List (SchItem τ ι π)) = [] := rfl

theorem liveIn_cons (x : SchItem τ ι π) (v : List (SchItem τ ι π)) :
    liveIn (x :: v) = liveIn [x] ++ liveIn v := by
  rw [liveIn, liveIn, liveIn, ← List.filterMap_append]
  rfl

theorem liveIn_perm (h : v.Perm w) : (liveIn v).Perm (liveIn w) := h.filterMap _

theorem mem_liveIn : e ∈ liveIn v ↔ ∃ x ∈ v, x.tp = e.tp ∧ x.ident = e.ident ∧ x.p = some e.p := by
  simp only [liveIn, List.mem_filterMap, liveEntry, Option.map_eq_some_iff]
  constructor
  · rintro ⟨x, hx, p, hp, rfl⟩
    exact ⟨x, hx, rfl, rfl, hp⟩
  · rintro ⟨x, hx, htp, hid, hp⟩
    exact ⟨x, hx, e.p, hp, by rw [htp, hid]⟩

end LiveIn

/-- The live entries after `get_expired`. -/
def PollLeaves (before after : List (Entry τ ι π)) : Expired τ π → Prop
  | .promise p => ∃ e, e.p = p ∧ before.Perm (e :: after)
  | .time _ => before.Perm after

theorem PollLeaves.perm {l l' after : List (Entry τ ι π)} {r : Expired τ π}
    (h : PollLeaves l after r) (hp : l'.Perm l) : PollLeaves l' after r := by
  cases r with
  | promise p =>
      obtain ⟨e, hep, hperm⟩ := h
      exact ⟨e, hep, hp.trans hperm⟩
  | time t => exact hp.trans h

section Specs

variable [LinearOrder τ] (H : HeapOps τ ι π)
  {v xs : List (SchItem τ ι π)} {x : SchItem τ ι π}

/-- Popping removes the first item. -/
theorem popTop_spec (h : Heap.Ordered SchItem.tp (x :: xs)) :
    Heap.Ordered SchItem.tp (popTop H x xs) ∧ (popTop H x xs).Perm xs := by
  have h' : Heap.Ordered SchItem.tp ({ x with p := none } :: xs) := h.congr rfl
  obtain ⟨w, hpop, hperm, hw⟩ := H.pop_spec _ xs h'
  rw [popTop, popItem, hpop, List.dropLast_concat]
  exact ⟨hw, hperm⟩

/-- No live entry is due before the time of the first item. -/
theorem root_le_live (h : Heap.Ordered SchItem.tp (x :: xs)) :
    ∀ e ∈ liveIn (x :: xs), x.tp ≤ e.tp := by
  intro e he
  obtain ⟨y, hy, htp, -, -⟩ := mem_liveIn.mp he
  rw [← htp]
  rcases List.mem_cons.mp hy with rfl | hy
  · exact le_refl _
  · exact h.root_le y hy

theorem schedule_spec (id : ι) (p : Option π) (tp : τ) (h : Heap.Ordered SchItem.tp v) :
    Heap.Ordered SchItem.tp (schedule H id p tp v).1 ∧
      (liveIn (schedule H id p tp v).1).Perm (liveIn v ++ liveIn [⟨tp, p, id⟩]) := by
  refine ⟨H.push_ordered v _ h, ?_⟩
  rw [liveIn, liveIn, liveIn, ← List.filterMap_append]
  exact (H.push_perm _).filterMap _

/-- What `get_expired` answers, given the live entries. -/
def PollRight [OrderTop τ] (now : τ) (live : List (Entry τ ι π)) : Expired τ π → Prop
  | .promise p => ∃ e ∈ live, e.p = p ∧ e.tp ≤ now ∧ ∀ e' ∈ live, e.tp ≤ e'.tp
  | .time t =>
      (∀ e ∈ live, now < e.tp ∧ t ≤ e.tp) ∧ (live = [] → t = ⊤) ∧
        (live ≠ [] → ∃ e ∈ live, e.tp = t)

theorem PollRight.perm [OrderTop τ] {now : τ} {l l' : List (Entry τ ι π)} {r : Expired τ π}
    (h : PollRight now l r) (hp : l.Perm l') : PollRight now l' r := by
  cases r with
  | promise p =>
      obtain ⟨e, he, hep, hnow, hmin⟩ := h
      exact ⟨e, hp.mem_iff.mp he, hep, hnow, fun e' he' => hmin e' (hp.mem_iff.mpr he')⟩
  | time t =>
      obtain ⟨hlate, hnil, hsome⟩ := h
      refine ⟨fun e he => hlate e (hp.mem_iff.mpr he), fun hl => hnil ?_, fun hl => ?_⟩
      · subst hl
        exact hp.eq_nil
      · obtain ⟨e, he, het⟩ := hsome fun hl' => hl (by subst hl'; exact hp.symm.eq_nil)
        exact ⟨e, hp.mem_iff.mp he, het⟩

/-- `get_expired` returns the live entry of least time if it is due, and else that
time; nothing else leaves the vector. -/
theorem getExpiredLk_spec [OrderTop τ] (now : τ) :
    ∀ (fuel : Nat) (v : List (SchItem τ ι π)), v.length ≤ fuel → Heap.Ordered SchItem.tp v →
      ∃ v' r, getExpiredLk H now fuel v = some (v', r) ∧ Heap.Ordered SchItem.tp v' ∧
        PollRight now (liveIn v) r ∧ PollLeaves (liveIn v) (liveIn v') r := by
  intro fuel
  induction fuel with
  | zero =>
      intro v hlen hv
      obtain rfl : v = [] := List.eq_nil_of_length_eq_zero (by omega)
      exact ⟨[], .time ⊤, by simp [getExpiredLk], hv, by simp [PollRight, liveIn],
        List.Perm.refl _⟩
  | succ fuel ih =>
      intro v hlen hv
      cases v with
      | nil =>
          exact ⟨[], .time ⊤, by simp [getExpiredLk], hv, by simp [PollRight, liveIn],
            List.Perm.refl _⟩
      | cons x xs =>
          obtain ⟨hpop, hperm⟩ := popTop_spec H hv
          have hmin := root_le_live hv
          cases hp : x.p with
          | none =>
              -- an emptied item on top is thrown away
              have hlen' : (popTop H x xs).length ≤ fuel := by
                rw [hperm.length_eq]
                simpa using hlen
              obtain ⟨v', r, hrun, hv', hright, hleaves⟩ := ih _ hlen' hpop
              have hlive : (liveIn (popTop H x xs)).Perm (liveIn (x :: xs)) := by
                rw [liveIn_cons_of_empty hp]
                exact liveIn_perm hperm
              refine ⟨v', r, ?_, hv', hright.perm hlive, hleaves.perm hlive.symm⟩
              simp [getExpiredLk, hp, hrun]
          | some p =>
              rw [liveIn_cons_of_some hp] at hmin ⊢
              by_cases hdue : x.tp ≤ now
              · refine ⟨popTop H x xs, .promise p, by simp [getExpiredLk, hp, hdue], hpop, ?_, ?_⟩
                · exact ⟨_, List.mem_cons_self, rfl, hdue, hmin⟩
                · exact ⟨_, rfl, (liveIn_perm hperm).symm.cons _⟩
              · refine ⟨x :: xs, .time x.tp, by simp [getExpiredLk, hp, hdue], hv, ?_, ?_⟩
                · refine ⟨fun e he => ⟨lt_of_lt_of_le (not_le.mp hdue) (hmin e he), hmin e he⟩,
                    by simp, fun _ => ⟨_, List.mem_cons_self, rfl⟩⟩
                · rw [PollLeaves, liveIn_cons_of_some hp]

end Specs

/-! ## remove -/

/-- What `remove id` is to answer, given the live entries. -/
def RemoveRight (id : ι) (live : List (Entry τ ι π)) : Option π → Prop
  | some p => ∃ e ∈ live, e.ident = id ∧ e.p = p
  | none => ∀ e ∈ live, e.ident ≠ id

/-- The live entries after `remove`. -/
def RemoveLeaves (before after : List (Entry τ ι π)) : Option π → Prop
  | some p => ∃ e, e.p = p ∧ before.Perm (e :: after)
  | none => before.Perm after

theorem RemoveRight.perm {id : ι} {l l' : List (Entry τ ι π)} {r : Option π} (hp : l.Perm l') :
    RemoveRight id l r ↔ RemoveRight id l' r := by
  cases r with
  | some p => simp only [RemoveRight, hp.mem_iff]
  | none => simp only [RemoveRight, hp.mem_iff]

theorem RemoveLeaves.perm {l l' after : List (Entry τ ι π)} {r : Option π}
    (h : RemoveLeaves l after r) (hp : l'.Perm l) : RemoveLeaves l' after r := by
  cases r with
  | some p =>
      obtain ⟨e, hep, hperm⟩ := h
      exact ⟨e, hep, hp.trans hperm⟩
  | none => exact hp.trans h

theorem RemoveLeaves.append_left {l after : List (Entry τ ι π)} {r : Option π}
    (h : RemoveLeaves l after r) (l' : List (Entry τ ι π)) :
    RemoveLeaves (l' ++ l) (l' ++ after) r := by
  cases r with
  | some p =>
      obtain ⟨e, hep, hperm⟩ := h
      exact ⟨e, hep, (hperm.append_left l').trans List.perm_middle⟩
  | none => exact List.Perm.append_left l' h

section MoveOut

variable [DecidableEq ι] {xs : List (SchItem τ ι π)} {x : SchItem τ ι π} {id : ι}

theorem moveOut_of_eq (h : x.ident = id) :
    moveOut id (x :: xs) = ({ x with p := none } :: xs, x.p) := by
  rw [moveOut, if_pos h]

theorem moveOut_of_ne (h : x.ident ≠ id) :
    moveOut id (x :: xs) = (x :: (moveOut id xs).1, (moveOut id xs).2) := by
  rw [moveOut, if_neg h]

/-- The end of `remove` takes the promise of the first item of the identifier and
keeps all times. -/
theorem moveOut_spec (id : ι) (v : List (SchItem τ ι π)) :
    (moveOut id v).1.map SchItem.tp = v.map SchItem.tp ∧
      (moveOut id v).2 = (v.find? fun x => x.ident = id).bind SchItem.p ∧
      RemoveLeaves (liveIn v) (liveIn (moveOut id v).1) (moveOut id v).2 := by
  induction v with
  | nil => exact ⟨rfl, rfl, List.Perm.refl _⟩
  | cons x xs ih =>
      obtain ⟨htp, hp, hleaves⟩ := ih
      by_cases hid : x.ident = id
      · rw [moveOut_of_eq hid]
        refine ⟨rfl, by simp [hid], ?_⟩
        cases hxp : x.p with
        | none =>
            rw [liveIn_cons_of_empty hxp, liveIn_cons_of_empty rfl]
            exact List.Perm.refl _
        | some p =>
            rw [liveIn_cons_of_some hxp, liveIn_cons_of_empty rfl]
            exact ⟨_, rfl, List.Perm.refl _⟩
      · rw [moveOut_of_ne hid]
        refine ⟨by simp [htp], by simp [hid, hp], ?_⟩
        rw [liveIn_cons x xs, liveIn_cons x (moveOut id xs).1]
        exact hleaves.append_left (liveIn [x])

/-- The first item of an identifier answers rightly exactly when it is live, or none
of the identifier is. -/
theorem find?_right_iff (id : ι) (w : List (SchItem τ ι π)) :
    RemoveRight id (liveIn w) ((w.find? fun x => x.ident = id).bind SchItem.p) ↔
      ((∃ x ∈ w, x.ident = id ∧ x.p ≠ none) →
        ∃ x, w.find? (fun x => x.ident = id) = some x ∧ x.p ≠ none) := by
  have hlive : (∃ x ∈ w, x.ident = id ∧ x.p ≠ none) ↔ ∃ e ∈ liveIn w, e.ident = id := by
    constructor
    · rintro ⟨x, hx, hid, hp⟩
      obtain ⟨p, hp⟩ := Option.ne_none_iff_exists'.mp hp
      exact ⟨⟨x.tp, x.ident, p⟩, mem_liveIn.mpr ⟨x, hx, rfl, rfl, hp⟩, hid⟩
    · rintro ⟨e, he, hid⟩
      obtain ⟨x, hx, -, hxid, hp⟩ := mem_liveIn.mp he
      exact ⟨x, hx, by rw [hxid, hid], by simp [hp]⟩
  rw [hlive]
  cases hf : w.find? fun x => x.ident = id with
  | none =>
      -- no item of the identifier at all
      have hnone : ¬ ∃ e ∈ liveIn w, e.ident = id := by
        rw [← hlive]
        rintro ⟨x, hx, hid, -⟩
        simpa [hid] using List.find?_eq_none.mp hf x hx
      simp only [Option.bind_none, RemoveRight]
      constructor
      · exact fun _ h => absurd h hnone
      · exact fun _ e he hid => hnone ⟨e, he, hid⟩
  | some x =>
      have hx : x ∈ w := List.mem_of_find?_eq_some hf
      have hid : x.ident = id := by simpa using List.find?_some hf
      simp only [Option.bind_some, Option.some.injEq, exists_eq_left']
      cases hp : x.p with
      | none => simp [RemoveRight]
      | some p =>
          simp only [ne_eq, reduceCtorEq, not_false_eq_true, implies_true, iff_true]
          exact ⟨⟨x.tp, x.ident, p⟩, mem_liveIn.mpr ⟨x, hx, rfl, rfl, hp⟩, hid, rfl⟩

end MoveOut

section Remove

variable [LinearOrder τ] [DecidableEq ι] (H : HeapOps τ ι π)
  {v xs : List (SchItem τ ι π)} {x : SchItem τ ι π} {id : ι}

/-- The vector once the emptied items of the identifier have been popped from its
top, as the loop of `remove` does. -/
def dropEmptied (id : ι) : (fuel : Nat) → List (SchItem τ ι π) → List (SchItem τ ι π)
  | 0, v => v
  | _ + 1, [] => []
  | fuel + 1, x :: xs =>
      if x.ident = id ∧ x.p = none then dropEmptied id fuel (popTop H x xs) else x :: xs

/-- The state is one in which `remove id` can answer: there is an item that is not
an emptied one of the identifier to stop at; and once those on top are gone, the
first item of the identifier is live if any of them is. -/
def Answerable (id : ι) (v : List (SchItem τ ι π)) : Prop :=
  v = [] ∨ (dropEmptied H id v.length v ≠ [] ∧
    ((∃ x ∈ dropEmptied H id v.length v, x.ident = id ∧ x.p ≠ none) →
      ∃ x, (dropEmptied H id v.length v).find? (fun x => x.ident = id) = some x ∧ x.p ≠ none))

/-- The loop of `remove`, by the vector it stops at. -/
theorem removeLoop_spec (id : ι) :
    ∀ (fuel : Nat) (v : List (SchItem τ ι π)), v.length ≤ fuel → Heap.Ordered SchItem.tp v →
      (liveIn (dropEmptied H id fuel v)).Perm (liveIn v) ∧
      (dropEmptied H id fuel v = [] → removeLoop H id fuel v = none) ∧
      (dropEmptied H id fuel v ≠ [] → ∃ v', removeLoop H id fuel v =
          some (v', ((dropEmptied H id fuel v).find? fun x => x.ident = id).bind SchItem.p) ∧
        Heap.Ordered SchItem.tp v' ∧ RemoveLeaves (liveIn v) (liveIn v')
          (((dropEmptied H id fuel v).find? fun x => x.ident = id).bind SchItem.p)) := by
  intro fuel
  induction fuel with
  | zero =>
      intro v hlen hv
      obtain rfl : v = [] := List.eq_nil_of_length_eq_zero (by omega)
      exact ⟨List.Perm.refl _, fun _ => by simp [removeLoop], fun h => absurd rfl h⟩
  | succ fuel ih =>
      intro v hlen hv
      cases v with
      | nil => exact ⟨List.Perm.refl _, fun _ => by simp [removeLoop], fun h => absurd rfl h⟩
      | cons x xs =>
          obtain ⟨hpop, hperm⟩ := popTop_spec H hv
          by_cases hid : x.ident = id
          · cases hp : x.p with
            | none =>
                -- an emptied item of the identifier is popped
                have hlen' : (popTop H x xs).length ≤ fuel := by
                  rw [hperm.length_eq]
                  simpa using hlen
                have hdrop : dropEmptied H id (fuel + 1) (x :: xs) =
                    dropEmptied H id fuel (popTop H x xs) := by
                  simp [dropEmptied, hid, hp]
                have hloop : removeLoop H id (fuel + 1) (x :: xs) =
                    removeLoop H id fuel (popTop H x xs) := by
                  simp [removeLoop, hid, hp]
                have hlive : (liveIn (popTop H x xs)).Perm (liveIn (x :: xs)) := by
                  rw [liveIn_cons_of_empty hp]
                  exact liveIn_perm hperm
                obtain ⟨hl, hnil, hne⟩ := ih _ hlen' hpop
                rw [hdrop, hloop]
                refine ⟨hl.trans hlive, hnil, fun h => ?_⟩
                obtain ⟨v', hrun, hv', hleaves⟩ := hne h
                exact ⟨v', hrun, hv', hleaves.perm hlive.symm⟩
            | some p =>
                have hdrop : dropEmptied H id (fuel + 1) (x :: xs) = x :: xs := by
                  simp [dropEmptied, hp]
                rw [hdrop]
                refine ⟨List.Perm.refl _, by simp, fun _ => ⟨popTop H x xs, ?_, hpop, ?_⟩⟩
                · simp [removeLoop, hid, hp]
                · simp only [List.find?_cons, hid, decide_true, Option.bind_some, hp,
                    liveIn_cons_of_some hp]
                  exact ⟨_, rfl, ((liveIn_perm hperm).cons _).symm⟩
          · have hdrop : dropEmptied H id (fuel + 1) (x :: xs) = x :: xs := by
              simp [dropEmptied, hid]
            have hloop : removeLoop H id (fuel + 1) (x :: xs) = some (moveOut id (x :: xs)) := by
              simp [removeLoop, hid]
            obtain ⟨htp, hr, hleaves⟩ := moveOut_spec id (x :: xs)
            rw [hdrop, hloop, ← hr]
            exact ⟨List.Perm.refl _, by simp, fun _ => ⟨_, rfl, hv.congr htp, hleaves⟩⟩

/-- `remove` reads outside the vector, or takes at most one live entry out of it. -/
theorem remove_spec (id : ι) (hv : Heap.Ordered SchItem.tp v) :
    remove H id v = none ∨ ∃ v' r, remove H id v = some (v', r) ∧ Heap.Ordered SchItem.tp v' ∧
      RemoveLeaves (liveIn v) (liveIn v') r := by
  unfold remove
  split
  · rename_i h
    subst h
    exact .inr ⟨[], none, rfl, hv, List.Perm.refl _⟩
  · obtain ⟨-, hnil, hne⟩ := removeLoop_spec H id v.length v (le_refl _) hv
    by_cases h : dropEmptied H id v.length v = []
    · exact .inl (hnil h)
    · obtain ⟨v', hrun, hv', hleaves⟩ := hne h
      exact .inr ⟨v', _, hrun, hv', hleaves⟩

/-- **What `remove` finds**: it answers rightly exactly in an answerable state. -/
theorem remove_right_iff (id : ι) (hv : Heap.Ordered SchItem.tp v) :
    (∃ v' r, remove H id v = some (v', r) ∧ RemoveRight id (liveIn v) r) ↔ Answerable H id v := by
  by_cases hnil : v = []
  · subst hnil
    simp [remove, Answerable, RemoveRight, liveIn]
  · obtain ⟨hlive, hfault, hanswer⟩ := removeLoop_spec H id v.length v (le_refl _) hv
    rw [remove, if_neg hnil, Answerable, or_iff_right hnil]
    by_cases hdrop : dropEmptied H id v.length v = []
    · simp [hfault hdrop, hdrop]
    · obtain ⟨v', hrun, -, -⟩ := hanswer hdrop
      rw [hrun]
      simp only [Option.some.injEq, Prod.mk.injEq, hdrop, ne_eq, not_false_eq_true, true_and]
      rw [← find?_right_iff, RemoveRight.perm hlive]
      constructor
      · rintro ⟨_, _, ⟨rfl, rfl⟩, h⟩
        exact h
      · exact fun h => ⟨v', _, ⟨rfl, rfl⟩, h⟩

end Remove

end Scheduler

end Cocls
