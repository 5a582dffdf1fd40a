import Mathlib.Data.List.Induction

/-!
# Cocls.Interleave

Interleavings of numbered streams.

A stream is a function `Nat → Option α`; an interleaving is a list of entries,
each with the number of the stream it comes from.  `own i` is what an
interleaving has of stream `i`, and `Follows` says that this is a beginning of
the stream, for every `i`.  An interleaving is determined by the numbers of its
entries (`eq_of_keys`).

`rounds` takes the streams in turn: in every round one element of each stream
that has one left.  An interleaving that goes on with a stream only after its
last element, in the order of these elements, is a beginning of the rounds
(`snoc_prefix_rounds`).
-/

namespace Interleave

variable {α : Type*}

/-- The entries of stream `i`. -/
def own (i : Nat) (c : List (Nat × α)) : List α :=
  c.filterMap fun e => if e.1 = i then some e.2 else none

@[simp] theorem own_nil (i : Nat) : own i ([] : List (Nat × α)) = [] := rfl

@[simp] theorem own_append (i : Nat) (c d : List (Nat × α)) :
    own i (c ++ d) = own i c ++ own i d := List.filterMap_append

@[simp] theorem own_singleton_self (i : Nat) (x : α) : own i [(i, x)] = [x] := by
  simp [own]

theorem own_singleton_ne {i j : Nat} (h : j ≠ i) (x : α) : own i [(j, x)] = [] := by
  simp [own, h]

@[simp] theorem own_cons_self (i : Nat) (x : α) (c : List (Nat × α)) :
    own i ((i, x) :: c) = x :: own i c := by
  simp [own]

theorem own_cons_ne {i j : Nat} (h : j ≠ i) (x : α) (c : List (Nat × α)) :
    own i ((j, x) :: c) = own i c := by
  simp [own, h]

theorem own_mono {c d : List (Nat × α)} (h : c <+: d) (i : Nat) : own i c <+: own i d := by
  obtain ⟨e, rfl⟩ := h
  rw [own_append]
  exact List.prefix_append _ _

/-- The number of entries of stream `i`. -/
theorem length_own (i : Nat) (c : List (Nat × α)) :
    (own i c).length = (c.map Prod.fst).count i := by
  induction c with
  | nil => rfl
  | cons e c ih =>
      obtain ⟨j, x⟩ := e
      by_cases hj : j = i
      · subst hj
        simp [ih]
      · simp [own_cons_ne hj, hj, ih]

/-- A beginning that has no less of any stream is all. -/
theorem eq_of_own_le {c d : List (Nat × α)} (h : c <+: d)
    (hle : ∀ i, (own i d).length ≤ (own i c).length) : c = d := by
  obtain ⟨e, rfl⟩ := h
  cases e with
  | nil => rw [List.append_nil]
  | cons e es =>
      obtain ⟨i, x⟩ := e
      have hi := hle i
      rw [own_append, List.length_append, own_cons_self, List.length_cons] at hi
      omega

/-! ## Interleavings of given streams -/

/-- What `c` has of each stream is its beginning. -/
def Follows (out : Nat → Nat → Option α) (c : List (Nat × α)) : Prop :=
  ∀ i k x, (own i c)[k]? = some x → out i k = some x

theorem Follows.mono {out : Nat → Nat → Option α} {c d : List (Nat × α)} (h : Follows out d)
    (hp : c <+: d) : Follows out c := by
  intro i k x hx
  obtain ⟨e, he⟩ := own_mono hp i
  refine h i k x ?_
  rw [← he, List.getElem?_append_left (List.getElem?_eq_some_iff.mp hx).1]
  exact hx

/-- The entry that comes next of a stream. -/
theorem Follows.last {out : Nat → Nat → Option α} {c : List (Nat × α)} {i : Nat} {x : α}
    (h : Follows out (c ++ [(i, x)])) : out i (own i c).length = some x := by
  refine h i _ x ?_
  rw [own_append, own_singleton_self, List.getElem?_concat_length]

/-- **An interleaving is determined by the numbers of its entries.** -/
theorem eq_of_keys {out : Nat → Nat → Option α} {c d : List (Nat × α)} (hc : Follows out c)
    (hd : Follows out d) (h : c.map Prod.fst = d.map Prod.fst) : c = d := by
  induction c using List.reverseRecOn generalizing d with
  | nil => exact (List.map_eq_nil_iff.mp h.symm).symm
  | append_singleton c e ih =>
      obtain ⟨i, x⟩ := e
      cases d using List.reverseRecOn with
      | nil => simp at h
      | append_singleton d e' =>
          obtain ⟨j, y⟩ := e'
          simp only [List.map_append, List.map_cons, List.map_nil] at h
          obtain ⟨hkeys, hij⟩ := List.append_inj' h rfl
          obtain rfl : i = j := by simpa using hij
          obtain rfl := ih (hc.mono (List.prefix_append _ _))
            (hd.mono (List.prefix_append _ _)) hkeys
          have hxy : some x = some y := hc.last.symm.trans hd.last
          rw [Option.some.inj hxy]

/-! ## Rounds -/

/-- Round `r` of the streams `0, …, n - 1`: the `r`-th element of each stream that has one. -/
def round (out : Nat → Nat → Option α) (n r : Nat) : List (Nat × α) :=
  (List.range n).filterMap fun i => (out i r).map fun x => (i, x)

/-- The first `R` rounds. -/
def rounds (out : Nat → Nat → Option α) (n R : Nat) : List (Nat × α) :=
  (List.range R).flatMap (round out n)

theorem rounds_succ (out : Nat → Nat → Option α) (n R : Nat) :
    rounds out n (R + 1) = rounds out n R ++ round out n R := by
  simp [rounds, List.range_succ]

/-- A round has at most one entry of a stream. -/
theorem own_round (out : Nat → Nat → Option α) (i n r : Nat) :
    own i (round out n r) = if i < n then (out i r).toList else [] := by
  induction n with
  | zero => rfl
  | succ n ih =>
      have hsnoc : round out (n + 1) r =
          round out n r ++ ((out n r).map fun x => (n, x)).toList := by
        rw [round, List.range_succ, List.filterMap_append]
        cases hx : out n r <;> simp [round, hx]
      rw [hsnoc, own_append, ih]
      rcases Nat.lt_trichotomy i n with hi | rfl | hi
      · have hne : n ≠ i := Nat.ne_of_gt hi
        cases out n r with
        | none => simp [hi, Nat.lt_succ_of_lt hi]
        | some x => simp [hi, Nat.lt_succ_of_lt hi, own_singleton_ne hne]
      · cases out i r with
        | none => simp
        | some x => simp
      · have hne : n ≠ i := Nat.ne_of_lt hi
        have h1 : ¬ i < n := Nat.not_lt.mpr (Nat.le_of_lt hi)
        have h2 : ¬ i < n + 1 := Nat.not_lt.mpr hi
        cases out n r with
        | none => simp [h1, h2]
        | some x => simp [h1, h2, own_singleton_ne hne]

theorem own_rounds_of_not_lt (out : Nat → Nat → Option α) {i n : Nat} (hi : ¬ i < n) (R : Nat) :
    own i (rounds out n R) = [] := by
  induction R with
  | zero => rfl
  | succ R ih => rw [rounds_succ, own_append, ih, own_round, if_neg hi, List.append_nil]

/-- The streams that have an element for a round. -/
theorem keys_round (out : Nat → Nat → Option α) (n r : Nat) :
    (round out n r).map Prod.fst = (List.range n).filter fun i => (out i r).isSome := by
  rw [round]
  induction List.range n with
  | nil => rfl
  | cons i is ih =>
      cases hx : out i r with
      | none => simp [hx, ih]
      | some x => simp [hx, ih]

section Streams

variable {out : Nat → Nat → Option α} {more : α → Bool} {n : Nat}

/-- Each of the streams `0, …, n - 1` begins, and goes on exactly after an element with
`more`. -/
structure Streams (out : Nat → Nat → Option α) (more : α → Bool) (n : Nat) : Prop where
  begins : ∀ i < n, (out i 0).isSome
  goesOn : ∀ i < n, ∀ k, (out i (k + 1)).isSome ↔ ∃ x, out i k = some x ∧ more x = true

/-- A stream has no gaps. -/
theorem Streams.isSome_of_le (h : Streams out more n) {i k l : Nat} (hi : i < n) (hle : k ≤ l)
    (hl : (out i l).isSome) : (out i k).isSome := by
  induction hle with
  | refl => exact hl
  | step _ ih =>
      obtain ⟨x, hx, -⟩ := (h.goesOn i hi _).mp hl
      exact ih (by rw [hx]; rfl)

/-- The rounds have the elements of a stream in order. -/
theorem Streams.getElem?_own_rounds (h : Streams out more n) {i : Nat} (hi : i < n) (R k : Nat) :
    (own i (rounds out n R))[k]? = if k < R then out i k else none := by
  induction R generalizing k with
  | zero => simp [rounds]
  | succ R ih =>
      rw [rounds_succ, own_append, own_round, if_pos hi]
      cases hR : out i R with
      | none =>
          rw [Option.toList_none, List.append_nil, ih]
          rcases Nat.lt_trichotomy k R with hk | rfl | hk
          · rw [if_pos hk, if_pos (Nat.lt_succ_of_lt hk)]
          · rw [if_neg (Nat.lt_irrefl k), if_pos (Nat.lt_succ_self k), hR]
          · rw [if_neg (by omega), if_neg (by omega)]
      | some x =>
          have hlen : (own i (rounds out n R)).length = R := by
            apply Nat.le_antisymm
            · rw [← List.getElem?_eq_none_iff, ih, if_neg (Nat.lt_irrefl R)]
            · rcases Nat.eq_zero_or_pos R with rfl | hpos
              · exact Nat.zero_le _
              · have hprev : (out i (R - 1)).isSome :=
                  h.isSome_of_le hi (Nat.sub_le R 1) (by rw [hR]; rfl)
                obtain ⟨y, hy⟩ := Option.isSome_iff_exists.mp hprev
                have hget : (own i (rounds out n R))[R - 1]? = some y := by
                  rw [ih, if_pos (by omega), hy]
                have := (List.getElem?_eq_some_iff.mp hget).1
                omega
          rw [Option.toList_some]
          rcases Nat.lt_trichotomy k R with hk | rfl | hk
          · rw [List.getElem?_append_left (by rw [hlen]; exact hk), ih, if_pos hk,
              if_pos (Nat.lt_succ_of_lt hk)]
          · rw [List.getElem?_append_right (Nat.le_of_eq hlen), hlen, Nat.sub_self,
              if_pos (Nat.lt_succ_self k), hR]
            rfl
          · rw [List.getElem?_eq_none_iff.mpr, if_neg (by omega)]
            rw [List.length_append, hlen, List.length_singleton]
            omega

/-- The rounds are an interleaving of the streams. -/
theorem Streams.follows_rounds (h : Streams out more n) (R : Nat) :
    Follows out (rounds out n R) := by
  intro i k x hx
  by_cases hi : i < n
  · rw [h.getElem?_own_rounds hi] at hx
    split at hx
    · exact hx
    · cases hx
  · rw [own_rounds_of_not_lt out hi] at hx
    cases hx

/-- The streams of a round go on in the next one. -/
theorem Streams.keys_round_succ (h : Streams out more n) (r : Nat) :
    (round out n (r + 1)).map Prod.fst =
      ((round out n r).filter fun e => more e.2).map Prod.fst := by
  have hlt : ∀ i ∈ List.range n, i < n := fun i hi => List.mem_range.mp hi
  rw [keys_round, round]
  generalize List.range n = js at hlt
  induction js with
  | nil => rfl
  | cons i is ih =>
      have hi := h.goesOn i (hlt i List.mem_cons_self) r
      replace ih := ih fun j hj => hlt j (List.mem_cons_of_mem i hj)
      cases hx : out i r with
      | none =>
          have hnone : (out i (r + 1)).isSome = false := by
            rw [Bool.eq_false_iff]
            intro hs
            obtain ⟨x, hx', -⟩ := hi.mp hs
            rw [hx] at hx'
            cases hx'
          simp [hx, hnone, ih]
      | some x =>
          cases hm : more x with
          | true =>
              have hsome : (out i (r + 1)).isSome = true := hi.mpr ⟨x, hx, hm⟩
              simp [hx, hm, hsome, ih]
          | false =>
              have hnone : (out i (r + 1)).isSome = false := by
                rw [Bool.eq_false_iff]
                intro hs
                obtain ⟨y, hy, hmy⟩ := hi.mp hs
                rw [hx] at hy
                rw [← Option.some.inj hy, hm] at hmy
                cases hmy
              simp [hx, hm, hnone, ih]

/-- The rounds go on with a stream after each of its elements, in the order of these. -/
theorem Streams.keys_rounds_succ (h : Streams out more n) (R : Nat) :
    (rounds out n (R + 1)).map Prod.fst =
      List.range n ++ ((rounds out n R).filter fun e => more e.2).map Prod.fst := by
  induction R with
  | zero =>
      have hall : (List.range n).filter (fun i => (out i 0).isSome) = List.range n := by
        rw [List.filter_eq_self]
        exact fun i hi => h.begins i (List.mem_range.mp hi)
      rw [rounds_succ, List.map_append, keys_round, hall]
      simp [rounds]
  | succ R ih =>
      rw [rounds_succ out n (R + 1), List.map_append, ih, h.keys_round_succ,
        rounds_succ out n R, List.filter_append, List.map_append, List.append_assoc]

/-- **Round robin**: when the streams of an interleaving are those of the list and then those
of its elements with `more`, in their order, it is a beginning of the rounds; `d` are the
elements whose streams may have gone on. -/
theorem Streams.snoc_prefix_rounds (h : Streams out more n) {c d : List (Nat × α)} {R i : Nat}
    {x : α} (hc : c <+: rounds out n R) (hd : d <+: c) (hf : Follows out (c ++ [(i, x)]))
    (hkeys : c.map Prod.fst ++ [i] <+:
      List.range n ++ (d.filter fun e => more e.2).map Prod.fst) :
    c ++ [(i, x)] <+: rounds out n (R + 1) := by
  have hk : c.map Prod.fst ++ [i] <+: (rounds out n (R + 1)).map Prod.fst := by
    rw [h.keys_rounds_succ]
    refine hkeys.trans ?_
    rw [List.prefix_append_right_inj]
    exact ((hd.trans hc).filter _).map _
  have htake : (rounds out n (R + 1)).take (c.length + 1) <+: rounds out n (R + 1) :=
    List.take_prefix _ _
  have heq : c ++ [(i, x)] = (rounds out n (R + 1)).take (c.length + 1) := by
    refine eq_of_keys hf ((h.follows_rounds (R + 1)).mono htake) ?_
    rw [List.map_take, List.map_append, List.map_singleton, List.prefix_iff_eq_take.mp hk]
    simp
  rw [heq]
  exact htake

end Streams

end Interleave
