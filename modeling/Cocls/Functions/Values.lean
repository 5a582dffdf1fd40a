import Cocls.Functions

/-!
# Cocls.Functions.Values

Functions hold their targets as values, unless an assignment throws after it has
destroyed the target that was there.
-/

namespace Cocls

namespace Functions

variable {S A R : Type*} {n : Nat} {body : S → A → S × R} {s s' : Functions S R}

namespace Sound

variable {i j t : Nat} {x : Target S} {c : Closure S}

theorem exists_target (hs : Sound n s) (hp : s.ptr i = some (some t)) :
    ∃ x, s.target t = some x :=
  Option.isSome_iff_exists.mp (hs.owned.only_open i t hp)

theorem lt_count (hs : Sound n s) (hp : s.ptr i = some (some t)) : t < s.count :=
  hs.bound t (hs.owned.only_open i t hp)

theorem target_count (hs : Sound n s) : s.target s.count = none := by
  cases ht : s.target s.count with
  | none => rfl
  | some x => exact absurd (hs.bound s.count (by rw [ht]; rfl)) (Nat.lt_irrefl _)

/-- A function without a target comes or goes. -/
theorem setEmpty (hs : Sound n s) (hi : ∀ t, s.ptr i ≠ some (some t)) {p : Option (Option Nat)}
    (hp : ∀ t, p ≠ some (some t)) : Sound n (s.setPtr i p) := by
  obtain ⟨hdefined, howned, hstored, hbound, hdeleted, honce⟩ := hs
  refine ⟨hdefined, howned.congr (fun j t => ?_) fun t => Iff.rfl, fun j t x hj => ?_, hbound,
    hdeleted, honce⟩
  · simp only [Functions.setPtr, Function.update_apply]
    grind
  · simp only [Functions.setPtr, Function.update_apply] at hj
    exact hstored j t x (by grind)

/-- A new target for a function that has none. -/
theorem init (hs : Sound n s) (hi : ∀ t, s.ptr i ≠ some (some t)) : Sound n (s.init n i c) := by
  have hnew := hs.target_count
  have hlt := fun j t => hs.lt_count (i := j) (t := t)
  obtain ⟨hdefined, howned, hstored, hbound, hdeleted, honce⟩ := hs
  refine ⟨hdefined, howned.add (p := some s.count) (by grind) i (fun j t => ?_) fun t => ?_,
    fun j t x hj ht => ?_, fun t ht => ?_, fun t => ?_, honce⟩
  · simp only [Functions.init, Functions.setPtr, Functions.new, Function.update_apply]
    grind
  · simp only [Functions.init, Functions.setPtr, Functions.new, Function.update_apply]
    grind
  · simp only [Functions.init, Functions.setPtr, Functions.new, Function.update_apply] at hj ht
    grind
  · simp only [Functions.init, Functions.setPtr, Functions.new, Function.update_apply] at ht ⊢
    grind
  · simp only [Functions.init, Functions.setPtr, Functions.new, Function.update_apply]
    grind

/-- `delete` of the target of a function, which is rid of it. -/
theorem delete (hs : Sound n s) (hi : s.ptr i = some (some t)) {p : Option (Option Nat)}
    (hp : ∀ t, p ≠ some (some t)) : Sound n ((s.delete (some t)).setPtr i p) := by
  obtain ⟨x, hx⟩ := hs.exists_target hi
  obtain ⟨hdefined, howned, hstored, hbound, hdeleted, honce⟩ := hs
  simp only [Functions.delete, hx]
  refine ⟨hdefined, howned.close (p := some t) (y := i) (by grind) (fun j t' => ?_) fun t' => ?_,
    fun j t' x' hj ht => ?_, fun t' ht => ?_, fun t' => ?_, ?_⟩
  · simp only [Functions.setPtr, Function.update_apply]
    grind
  · simp only [Functions.setPtr, Function.update_apply]
    grind
  · simp only [Functions.setPtr, Function.update_apply] at hj ht
    grind
  · simp only [Functions.setPtr, Function.update_apply] at ht ⊢
    grind
  · simp only [Functions.setPtr, Function.update_apply]
    grind
  · simp only [Functions.setPtr]
    grind

/-- The state of a target changes. -/
theorem setState (hs : Sound n s) (state : S) : Sound n (s.setState t state) := by
  obtain ⟨hdefined, howned, hstored, hbound, hdeleted, honce⟩ := hs
  refine ⟨hdefined, howned.congr (fun j t' => Iff.rfl) fun t' => ?_, fun j t' x' hj ht => ?_,
    fun t' ht => ?_, fun t' => ?_, honce⟩
  · simp only [Functions.setState, Function.update_apply]
    split
    · next h => rw [h, Option.isSome_map]
    · exact Iff.rfl
  · simp only [Functions.setState, Function.update_apply] at hj ht
    split at ht
    · next h =>
      subst h
      obtain ⟨x, hx, rfl⟩ := Option.map_eq_some_iff.mp ht
      exact hstored j t' x hj hx
    · exact hstored j t' x' hj ht
  · simp only [Functions.setState, Function.update_apply] at ht
    refine hbound t' ?_
    split at ht
    · next h => rwa [h, ← Option.isSome_map]
    · exact ht
  · simp only [Functions.setState, Function.update_apply]
    rw [hdeleted]
    split
    · next h => rw [h, Option.map_eq_none_iff]
    · exact Iff.rfl

/-- A target on the heap goes to another function. -/
theorem pass (hs : Sound n s) (hj : s.ptr j = some (some t)) (hi : ∀ t, s.ptr i ≠ some (some t))
    (ht : s.target t = some x) (hx : x.storage = .heap) :
    Sound n ((s.setPtr i (some (some t))).setPtr j (some none)) := by
  obtain ⟨hdefined, howned, hstored, hbound, hdeleted, honce⟩ := hs
  have hfor : ∀ k l, storageFor n k x.closure = .heap → storageFor n l x.closure = .heap := by
    intro k l hk
    simp only [storageFor] at hk ⊢
    grind
  refine ⟨hdefined, howned.move (p := some t) (y := j) (by grind) i (fun k t' => ?_)
    fun t' => Iff.rfl, fun k t' x' hk ht' => ?_, hbound, hdeleted, honce⟩
  · simp only [Functions.setPtr, Function.update_apply]
    grind
  · simp only [Functions.setPtr, Function.update_apply] at hk ht'
    have hxj := hstored j t x hj ht
    rw [hx] at hxj
    have := hfor j i hxj.symm
    grind

end Sound

/-! ## What they hold -/

section Held

variable {i j t : Nat} {x : Target S} {c : Closure S} {p : Option (Option Nat)}

theorem holders_setEmpty (hp : ∀ t, p ≠ some (some t)) :
    (s.setPtr i p).holders = s.holders.setHeld i (p.map fun _ => none) := by
  refine Holders.ext (funext fun k => ?_) rfl
  simp only [holders, Functions.setPtr, Holders.setHeld, Function.update_apply]
  rcases p with _ | _ | t
  · grind
  · grind
  · exact absurd rfl (hp t)

theorem holders_init (hs : Sound n s) :
    (s.init n i c).holders = s.holders.setHeld i (some (some c)) := by
  have hlt := fun k t => hs.lt_count (i := k) (t := t)
  refine Holders.ext (funext fun k => ?_) rfl
  simp only [holders, Functions.init, Functions.new, Functions.setPtr, Holders.setHeld,
    Function.update_apply]
  by_cases hk : k = i
  · simp [hk]
  · rcases hp : s.ptr k with _ | _ | t
    · simp [hk]
    · simp [hk]
    · simp [hk, Nat.ne_of_lt (hlt k t hp)]

theorem holders_delete (hs : Sound n s) (hi : s.ptr i = some (some t))
    (hp : ∀ t, p ≠ some (some t)) :
    ((s.delete (some t)).setPtr i p).holders = s.holders.setHeld i (p.map fun _ => none) := by
  obtain ⟨x, hx⟩ := hs.exists_target hi
  simp only [Functions.delete, hx]
  refine Holders.ext (funext fun k => ?_) rfl
  simp only [holders, Functions.setPtr, Holders.setHeld, Function.update_apply]
  by_cases hk : k = i
  · rcases p with _ | _ | t'
    · simp [hk]
    · simp [hk]
    · exact absurd rfl (hp t')
  · rcases hp : s.ptr k with _ | _ | t'
    · simp [hk]
    · simp [hk]
    · have hne : t' ≠ t := by
        rintro rfl
        exact hk (hs.owned.one k i t' hp hi)
      simp [hk, hne]

theorem holders_setState (hs : Sound n s) (hj : s.ptr j = some (some t))
    (ht : s.target t = some x) (state : S) : (s.setState t state).holders =
      s.holders.setHeld j (some (some { x.closure with state := state })) := by
  refine Holders.ext (funext fun k => ?_) rfl
  simp only [holders, Functions.setState, Holders.setHeld, Function.update_apply]
  by_cases hk : k = j
  · simp [hk, hj, ht]
  · rcases hp : s.ptr k with _ | _ | t'
    · simp [hk]
    · simp [hk]
    · have hne : t' ≠ t := by
        rintro rfl
        exact hk (hs.owned.one k j t' hp hj)
      simp [hk, hne]

theorem holders_pass (ht : s.target t = some x) :
    ((s.setPtr i (some (some t))).setPtr j (some none)).holders =
      (s.holders.setHeld i (some (some x.closure))).setHeld j (some none) := by
  refine Holders.ext (funext fun k => ?_) rfl
  simp only [holders, Functions.setPtr, Holders.setHeld, Function.update_apply]
  grind

theorem holders_held (hj : s.ptr j = some (some t)) (ht : s.target t = some x) :
    s.holders.held j = some (some x.closure) := by
  simp [holders, hj, ht]

theorem holders_held_none (hj : s.ptr j = some none) : s.holders.held j = some none := by
  simp [holders, hj]

/-- A target in place is constructed anew, and then the old one is destroyed. -/
theorem takeOver_inPlace (hs : Sound n s) (hj : s.ptr j = some (some t))
    (hi : ∀ t, s.ptr i ≠ some (some t)) (ht : s.target t = some x)
    (hx : x.storage = .space j) : s.takeOver n i j (some t) none =
      ((s.init n i x.closure).delete (some t)).setPtr j (some none) := by
  have hij : j ≠ i := by rintro rfl; exact hi t hj
  have htc : t ≠ s.count := Nat.ne_of_lt (hs.lt_count hj)
  simp [Functions.takeOver, Functions.move, Functions.init, Functions.delete, Functions.new,
    Functions.setPtr, htc, ht, hx]

theorem takeOver_given {h : Holders S R} {q : Option (Closure S)} {throws : Option S}
    (hj : h.held j = some q)
    (hthrows : throws.isSome → ∀ c, q = some c → ¬ c.size ≤ n) :
    h.takeOver n i j throws = (h.setHeld i (some q)).setHeld j (some none) := by
  rcases q with _ | c <;> rcases throws with _ | state <;> simp only [Holders.takeOver, hj]
  rw [if_neg (hthrows rfl c rfl)]

theorem takeOver_throws {h : Holders S R} {state : S} (hj : h.held j = some (some c))
    (hc : c.size ≤ n) : h.takeOver n i j (some state) =
      h.setHeld j (some (some { c with state := state })) := by
  simp only [Holders.takeOver, hj, if_pos hc]

/-- A function that has no target takes the one of another function. -/
theorem takeOver_spec (hs : Sound n s) {q : Option Nat} (hj : s.ptr j = some q)
    (hi : ∀ t, s.ptr i ≠ some (some t)) (throws : Option S) :
    Sound n (s.takeOver n i j q throws) ∧
      (s.takeOver n i j q throws).holders = s.holders.takeOver n i j throws := by
  cases q with
  | none =>
      have hi' := hs.setEmpty (i := i) hi (p := some none) (by simp)
      refine ⟨hi'.setEmpty ?_ (by simp), ?_⟩
      · simp only [Functions.setPtr, Function.update_apply]
        grind
      · rw [Functions.takeOver, holders_setEmpty (by simp), holders_setEmpty (by simp),
          takeOver_given (holders_held_none hj) (by simp)]
        rfl
  | some t =>
      obtain ⟨x, ht⟩ := hs.exists_target hj
      have hheld := holders_held hj ht
      have hij : j ≠ i := by rintro rfl; exact hi t hj
      have hstored := hs.stored j t x hj ht
      simp only [storageFor] at hstored
      by_cases hc : x.closure.size ≤ n
      · rw [if_pos hc] at hstored
        cases throws with
        | none =>
            have hinit : Sound n (s.init n i x.closure) := hs.init hi
            have hptr : (s.init n i x.closure).ptr j = some (some t) := by
              simpa [Functions.init, Functions.setPtr, Functions.new, hij] using hj
            rw [takeOver_inPlace hs hj hi ht hstored, takeOver_given hheld (by simp),
              holders_delete hinit hptr (by simp), holders_init hs]
            exact ⟨hinit.delete hptr (by simp), rfl⟩
        | some state =>
            have heq : s.takeOver n i j (some t) (some state) = s.setState t state := by
              simp only [Functions.takeOver, Functions.move, ht, hstored]
            rw [heq, takeOver_throws hheld hc, holders_setState hs hj ht]
            exact ⟨hs.setState state, rfl⟩
      · rw [if_neg hc] at hstored
        have heq : s.takeOver n i j (some t) throws =
            (s.setPtr i (some (some t))).setPtr j (some none) := by
          simp only [Functions.takeOver, Functions.move, ht, hstored]
        rw [heq, takeOver_given hheld (by grind), holders_pass ht]
        exact ⟨hs.pass hj hi ht hstored, rfl⟩

/-- A call goes to the target, whatever became of it. -/
theorem call_spec (hs : Sound n s) {q : Option Nat} (hi : s.ptr i = some q) (a : A) :
    Sound n (s.call body i q a) ∧
      some (s.call body i q a).holders = (s.holders.held i).map (s.holders.call body i a) := by
  cases q with
  | none =>
      rw [holders_held_none hi]
      obtain ⟨hdefined, howned, hstored, hbound, hdeleted, honce⟩ := hs
      exact ⟨⟨hdefined, howned, hstored, hbound, hdeleted, honce⟩, rfl⟩
  | some t =>
      obtain ⟨x, ht⟩ := hs.exists_target hi
      rw [holders_held hi ht]
      simp only [Functions.call, ht, Option.map_some, Option.some.injEq, Holders.call]
      obtain ⟨hdefined, howned, hstored, hbound, hdeleted, honce⟩ :=
        hs.setState (t := t) (body x.closure.state a).1
      refine ⟨⟨hdefined, howned, hstored, hbound, hdeleted, honce⟩, ?_⟩
      rw [← holders_setState hs hi ht]
      rfl

end Held

/-! ## Runs -/

theorem holders_isSome (i : Nat) : s.holders.held i = none ↔ s.ptr i = none := by
  simp only [holders, Option.map_eq_none_iff]

/-- Whatever `_ptr` was, it is written, unless an exception is thrown. -/
theorem takeOver_setPtr {i j : Nat} {p : Option Nat} {r : Option (Option Nat)} {throws : Option S}
    (hthrows : throws.isSome → ∀ t x k, p = some t → s.target t = some x →
      x.storage ≠ .space k) (hp : ∀ t, p = some t → ∃ x, s.target t = some x)
    (hcount : ∀ t, p = some t → t ≠ s.count) :
    (s.setPtr i r).takeOver n i j p throws = s.takeOver n i j p throws := by
  cases p with
  | none => simp [Functions.takeOver, Functions.setPtr]
  | some t =>
      obtain ⟨x, hx⟩ := hp t rfl
      have ht := hcount t rfl
      cases hst : x.storage with
      | heap => simp [Functions.takeOver, Functions.setPtr, Functions.move, hx, hst]
      | space k =>
          cases throws with
          | none =>
              simp [Functions.takeOver, Functions.setPtr, Functions.move, Functions.new,
                Functions.delete, hx, hst, ht]
          | some state => exact absurd hst (hthrows rfl t x k rfl hx)

theorem delete_spec (hs : Sound n s) {i : Nat} {q : Option Nat} (hi : s.ptr i = some q)
    {r : Option (Option Nat)} (hr : ∀ t, r ≠ some (some t)) : Sound n ((s.delete q).setPtr i r) ∧
      ((s.delete q).setPtr i r).holders = s.holders.setHeld i (r.map fun _ => none) := by
  cases q with
  | none => exact ⟨hs.setEmpty (by simp [hi]) hr, holders_setEmpty hr⟩
  | some t => exact ⟨hs.delete hi hr, holders_delete hs hi hr⟩

theorem delete_ptr (q : Option Nat) : (s.delete q).ptr = s.ptr := by
  cases q with
  | none => rfl
  | some t =>
      simp only [Functions.delete]
      split <;> rfl

/-- An assignment that may throw only when nothing was there. -/
theorem moveAssign_spec (hs : Sound n s) {i j : Nat} (hij : i ≠ j) {q p : Option Nat}
    (hi : s.ptr i = some q) (hj : s.ptr j = some p) {throws : Option S}
    (hg : Spares (A := A) s (.moveAssign i j throws)) :
    Sound n ((s.delete q).takeOver n i j p throws) ∧
      ((s.delete q).takeOver n i j p throws).holders =
        (s.holders.setHeld i (some none)).takeOver n i j throws := by
  obtain ⟨hsound, hheld⟩ := delete_spec hs hi (r := some none) (by simp)
  have hj' : ((s.delete q).setPtr i (some none)).ptr j = some p := by
    simp only [Functions.setPtr, delete_ptr, Function.update_of_ne hij.symm, hj]
  have hspec := takeOver_spec hsound hj' (i := i) (by simp [Functions.setPtr]) throws
  rw [hheld] at hspec
  cases q with
  | none =>
      have heq : s.setPtr i (some none) = s := by
        simp only [Functions.setPtr, ← hi, Function.update_eq_self]
      simp only [Functions.delete, heq] at hspec ⊢
      exact hspec
  | some t =>
      have hqt : ∀ t', p = some t' → t' ≠ t := by
        rintro t' rfl rfl
        exact hij (hs.owned.one i j t' hi hj)
      obtain ⟨x, hx⟩ := hs.exists_target hi
      have hkeep : ∀ t', t' ≠ t → (s.delete (some t)).target t' = s.target t' := fun t' ht' => by
        simp only [Functions.delete, hx, Function.update_of_ne ht']
      have hcount : (s.delete (some t)).count = s.count := by simp only [Functions.delete, hx]
      rwa [takeOver_setPtr] at hspec
      · rintro hthrows t' x' k rfl hx'
        rw [hkeep t' (hqt t' rfl)] at hx'
        exact hg hij hthrows t hi t' x' k hj hx'
      · rintro t' rfl
        rw [hkeep t' (hqt t' rfl)]
        exact hs.exists_target hj
      · rintro t' rfl
        rw [hcount]
        exact Nat.ne_of_lt (hs.lt_count hj)

theorem step_spec {a : Action S A} (hs : Sound n s) (hg : Spares s a)
    (h : step n body s a = some s') :
    Sound n s' ∧ Holders.step n body s.holders a = some s'.holders := by
  have hdef := hs.defined
  cases a with
  | empty i =>
      obtain ⟨⟨-, hi⟩, rfl⟩ := Option.ite_some_none_eq_some.mp h
      rw [Holders.step, if_pos ((holders_isSome i).mpr hi), holders_setEmpty (by simp)]
      exact ⟨hs.setEmpty (by simp [hi]) (by simp), rfl⟩
  | construct i c throws =>
      obtain ⟨⟨-, hi⟩, rfl⟩ := Option.ite_some_none_eq_some.mp h
      rw [Holders.step, if_pos ((holders_isSome i).mpr hi)]
      cases throws with
      | true => exact ⟨hs, rfl⟩
      | false => exact ⟨hs.init (by simp [hi]), by rw [← holders_init hs]; rfl⟩
  | moveConstruct i j throws =>
      simp only [step] at h
      rcases hi : s.ptr i with _ | q <;> rcases hj : s.ptr j with _ | p <;>
        simp only [hi, hj, hdef, reduceIte, reduceCtorEq, Option.some.injEq] at h
      subst h
      obtain ⟨hsound, hheld⟩ := takeOver_spec hs hj (i := i) (by simp [hi]) throws
      refine ⟨hsound, ?_⟩
      rw [Holders.step, if_pos ⟨(holders_isSome i).mpr hi, by simp [holders_isSome, hj]⟩, hheld]
  | moveAssign i j throws =>
      simp only [step] at h
      rcases hi : s.ptr i with _ | q <;> rcases hj : s.ptr j with _ | p <;>
        simp only [hi, hj, hdef, reduceIte, reduceCtorEq] at h
      have hnone : ¬ (s.holders.held i = none ∨ s.holders.held j = none) := by
        simp [holders_isSome, hi, hj]
      rw [Holders.step, if_neg hnone]
      by_cases hij : i = j
      · simp only [if_pos hij, Option.some.injEq] at h ⊢
        subst h
        exact ⟨hs, rfl⟩
      · simp only [if_neg hij, Option.some.injEq] at h ⊢
        subst h
        obtain ⟨hsound, hheld⟩ := moveAssign_spec hs hij hi hj hg
        exact ⟨hsound, hheld.symm⟩
  | destroy i =>
      simp only [step] at h
      rcases hi : s.ptr i with _ | q <;>
        simp only [hi, hdef, reduceIte, reduceCtorEq, Option.some.injEq] at h
      subst h
      obtain ⟨hsound, hheld⟩ := delete_spec hs hi (r := none) (by simp)
      refine ⟨hsound, ?_⟩
      rw [Holders.step, if_neg (by simp [holders_isSome, hi]), hheld]
      rfl
  | call i a =>
      simp only [step] at h
      rcases hi : s.ptr i with _ | q <;>
        simp only [hi, hdef, reduceIte, reduceCtorEq, Option.some.injEq] at h
      subst h
      have hcall : Sound n (s.call body i q a) ∧ some (s.call body i q a).holders =
          (s.holders.held i).map (s.holders.call body i a) := call_spec hs hi a
      exact ⟨hcall.1, hcall.2.symm⟩

theorem step_none {a : Action S A} (hs : Sound n s) (h : step n body s a = none) :
    Holders.step n body s.holders a = none := by
  have hdef := hs.defined
  cases a with
  | empty i =>
      have hi : s.ptr i ≠ none := by simpa [step, hdef] using h
      rw [Holders.step, if_neg (by rwa [holders_isSome])]
  | construct i c throws =>
      have hi : s.ptr i ≠ none := by simpa [step, hdef] using h
      rw [Holders.step, if_neg (by rwa [holders_isSome])]
  | moveConstruct i j throws =>
      simp only [step] at h
      rcases hi : s.ptr i with _ | q <;> rcases hj : s.ptr j with _ | p <;>
        simp only [hi, hj, hdef, reduceIte, reduceCtorEq] at h <;>
        simp [Holders.step, holders_isSome, hi, hj]
  | moveAssign i j throws =>
      simp only [step] at h
      rcases hi : s.ptr i with _ | q <;> rcases hj : s.ptr j with _ | p <;>
        simp only [hi, hj, hdef, reduceIte] at h <;>
        simp [Holders.step, holders_isSome, hi, hj]
      by_cases hij : i = j <;> simp [hij] at h
  | destroy i =>
      simp only [step] at h
      rcases hi : s.ptr i with _ | q <;> simp only [hi, hdef, reduceIte, reduceCtorEq] at h
      simp [Holders.step, holders_isSome, hi]
  | call i a =>
      simp only [step] at h
      rcases hi : s.ptr i with _ | q <;> simp only [hi, hdef, reduceIte, reduceCtorEq] at h
      simp [Holders.step, holders, hi]

/-! ## A pointer to a target that is gone -/

/-- A target was used that does not exist, or will be: a function points to one. -/
def Dangling (s : Functions S R) : Prop :=
  s.undefined = true ∨ ∃ i t, s.ptr i = some (some t) ∧ s.target t = none ∧ t < s.count

/-- What is gone stays so. -/
structure Stays (s s' : Functions S R) : Prop where
  undefined : s.undefined = true → s'.undefined = true
  gone : ∀ t, t < s.count → s.target t = none → s'.target t = none
  count : s.count ≤ s'.count

theorem Stays.trans {s'' : Functions S R} (h : Stays s s') (h' : Stays s' s'') : Stays s s'' where
  undefined hu := h'.undefined (h.undefined hu)
  gone t ht hn := h'.gone t (Nat.lt_of_lt_of_le ht h.count) (h.gone t ht hn)
  count := Nat.le_trans h.count h'.count

theorem stays_setPtr (i : Nat) (p : Option (Option Nat)) : Stays s (s.setPtr i p) :=
  ⟨id, fun _ _ => id, Nat.le_refl _⟩

theorem stays_new (x : Target S) : Stays s (s.new x) where
  undefined := id
  gone _ ht hn := (Function.update_of_ne (Nat.ne_of_lt ht) _ _).trans hn
  count := Nat.le_succ _

theorem stays_delete (p : Option Nat) : Stays s (s.delete p) := by
  cases p with
  | none => exact ⟨id, fun _ _ => id, Nat.le_refl _⟩
  | some t =>
      simp only [Functions.delete]
      split
      · exact ⟨fun _ => rfl, fun _ _ => id, Nat.le_refl _⟩
      · refine ⟨id, fun t' _ hn => ?_, Nat.le_refl _⟩
        simp only [Function.update_apply, hn, ite_self]

theorem stays_setState (t : Nat) (state : S) : Stays s (s.setState t state) := by
  refine ⟨id, fun t' _ hn => ?_, Nat.le_refl _⟩
  simp only [Functions.setState, Function.update_apply]
  split
  · next h => rw [← h, hn, Option.map_none]
  · exact hn

theorem stays_move (t i : Nat) (throws : Option S) : Stays s (s.move n t i throws).1 := by
  simp only [Functions.move]
  split
  · exact ⟨fun _ => rfl, fun _ _ => id, Nat.le_refl _⟩
  · split
    · exact ⟨id, fun _ _ => id, Nat.le_refl _⟩
    · exact stays_setState _ _
    · exact Stays.trans (stays_new _) (stays_delete (some t))

theorem stays_takeOver (i j : Nat) (p : Option Nat) (throws : Option S) :
    Stays s (s.takeOver n i j p throws) := by
  cases p with
  | none => exact (stays_setPtr _ _).trans (stays_setPtr _ _)
  | some t =>
      have hmove : Stays s (s.move n t i throws).1 := stays_move t i throws
      simp only [Functions.takeOver]
      split
      · next h => rwa [h] at hmove
      · next h =>
        rw [h] at hmove
        exact hmove.trans ((stays_setPtr _ _).trans (stays_setPtr _ _))

theorem move_ptr (t i : Nat) (throws : Option S) : (s.move n t i throws).1.ptr = s.ptr := by
  simp only [Functions.move]
  split
  · rfl
  · split
    · rfl
    · rfl
    · exact delete_ptr _

theorem takeOver_ptr {i j k : Nat} (p : Option Nat) (throws : Option S) (hi : k ≠ i) (hj : k ≠ j) :
    (s.takeOver n i j p throws).ptr k = s.ptr k := by
  cases p with
  | none => simp [Functions.takeOver, Functions.setPtr, hi, hj]
  | some t =>
      have hmove : (s.move n t i throws).1.ptr = s.ptr := move_ptr t i throws
      simp only [Functions.takeOver]
      split
      · next h => rw [h] at hmove; exact congrFun hmove k
      · next h =>
        rw [h] at hmove
        simpa [Functions.setPtr, hi, hj] using congrFun hmove k

/-- The target is used. -/
theorem undefined_delete {t : Nat} (ht : s.target t = none) :
    (s.delete (some t)).undefined = true := by
  simp only [Functions.delete, ht]

theorem undefined_takeOver {i j t : Nat} {throws : Option S} (ht : s.target t = none) :
    (s.takeOver n i j (some t) throws).undefined = true := by
  simp only [Functions.takeOver, Functions.move, ht]

theorem defined_of_step {a : Action S A} (h : step n body s a = some s') :
    s.undefined = false := by
  by_contra hne
  cases a <;> simp only [step, hne] at h <;> grind

theorem Dangling.step {a : Action S A} (hd : Dangling s) (h : step n body s a = some s') :
    Dangling s' := by
  have hdef := defined_of_step h
  obtain hu | ⟨i, t, hi, ht, hlt⟩ := hd
  · rw [hdef] at hu; cases hu
  -- the pointer stays, unless it is used
  have hstays : ∀ w : Functions S R, Stays s w → w.ptr i = s.ptr i → Dangling w :=
    fun w hw hp => .inr ⟨i, t, hp.trans hi, hw.gone t hlt ht, Nat.lt_of_lt_of_le hlt hw.count⟩
  cases a with
  | empty k =>
      obtain ⟨⟨-, hk⟩, rfl⟩ := Option.ite_some_none_eq_some.mp h
      exact hstays _ (stays_setPtr _ _) (Function.update_of_ne (by rintro rfl; simp [hi] at hk) _ _)
  | construct k c throws =>
      obtain ⟨⟨-, hk⟩, rfl⟩ := Option.ite_some_none_eq_some.mp h
      cases throws with
      | true => exact hstays _ ⟨id, fun _ _ => id, Nat.le_refl _⟩ rfl
      | false =>
          exact hstays _ ((stays_new _).trans (stays_setPtr _ _))
            (Function.update_of_ne (by rintro rfl; simp [hi] at hk) _ _)
  | moveConstruct k j throws =>
      simp only [Functions.step] at h
      rcases hk : s.ptr k with _ | q <;> rcases hj : s.ptr j with _ | p <;>
        simp only [hk, hj, hdef, reduceIte, reduceCtorEq, Option.some.injEq] at h
      subst h
      by_cases hij : i = j
      · obtain rfl : p = some t := by rw [← hij, hi] at hj; exact (Option.some.inj hj).symm
        exact .inl (undefined_takeOver ht)
      · exact hstays _ (stays_takeOver _ _ _ _)
          (takeOver_ptr _ _ (by rintro rfl; simp [hi] at hk) hij)
  | moveAssign k j throws =>
      simp only [Functions.step] at h
      rcases hk : s.ptr k with _ | q <;> rcases hj : s.ptr j with _ | p <;>
        simp only [hk, hj, hdef, reduceIte, reduceCtorEq] at h
      by_cases hkj : k = j
      · simp only [if_pos hkj, Option.some.injEq] at h
        subst h
        exact .inr ⟨i, t, hi, ht, hlt⟩
      · simp only [if_neg hkj, Option.some.injEq] at h
        subst h
        by_cases hik : i = k
        · obtain rfl : q = some t := by rw [← hik, hi] at hk; exact (Option.some.inj hk).symm
          exact .inl ((stays_takeOver _ _ _ _).undefined (undefined_delete ht))
        · by_cases hij : i = j
          · obtain rfl : p = some t := by rw [← hij, hi] at hj; exact (Option.some.inj hj).symm
            exact .inl (undefined_takeOver ((stays_delete q).gone t hlt ht))
          · refine hstays _ ((stays_delete q).trans (stays_takeOver _ _ _ _)) ?_
            rw [takeOver_ptr _ _ hik hij, delete_ptr]
  | destroy k =>
      simp only [Functions.step] at h
      rcases hk : s.ptr k with _ | q <;>
        simp only [hk, hdef, reduceIte, reduceCtorEq, Option.some.injEq] at h
      subst h
      by_cases hik : i = k
      · obtain rfl : q = some t := by rw [← hik, hi] at hk; exact (Option.some.inj hk).symm
        exact .inl (undefined_delete ht)
      · refine hstays _ ((stays_delete q).trans (stays_setPtr _ _)) ?_
        simp only [Functions.setPtr, Function.update_of_ne hik, delete_ptr]
  | call k a =>
      simp only [Functions.step] at h
      rcases hk : s.ptr k with _ | q <;>
        simp only [hk, hdef, reduceIte, reduceCtorEq, Option.some.injEq] at h
      subst h
      cases q with
      | none => exact .inr ⟨i, t, hi, ht, hlt⟩
      | some t' =>
          simp only [Functions.call]
          cases ht' : s.target t' with
          | none => exact .inl rfl
          | some x =>
              exact .inr ⟨i, t, hi, (stays_setState t' _).gone t hlt ht, hlt⟩

theorem Dangling.not_sound (hd : Dangling s) : ¬ Sound n s := by
  intro hs
  obtain hu | ⟨i, t, hi, ht, -⟩ := hd
  · rw [hs.defined] at hu; cases hu
  · obtain ⟨x, hx⟩ := hs.exists_target hi
    rw [ht] at hx; cases hx

/-- An assignment that throws leaves a pointer to the target that it has destroyed. -/
theorem dangling_of_not_spares {a : Action S A} (hs : Sound n s) (hg : ¬ Spares s a)
    (h : step n body s a = some s') : Dangling s' := by
  cases a with
  | moveAssign i j throws =>
      simp only [Spares, not_forall, not_not] at hg
      obtain ⟨hij, hthrows, q, hi, t, x, k, hj, hx, hst⟩ := hg
      obtain ⟨state, rfl⟩ := Option.isSome_iff_exists.mp hthrows
      have htq : t ≠ q := by rintro rfl; exact hij (hs.owned.one i j t hi hj)
      obtain ⟨y, hy⟩ := hs.exists_target hi
      simp only [step, hi, hj, hs.defined, reduceIte, if_neg hij, Option.some.injEq] at h
      subst h
      refine .inr ⟨i, q, ?_, ?_, ?_⟩
      · simp [Functions.takeOver, Functions.move, Functions.delete, Functions.setState, hy, htq,
          hx, hst, hi]
      · simp [Functions.takeOver, Functions.move, Functions.delete, Functions.setState, hy, htq,
          htq.symm, hx, hst]
      · have hlt := hs.lt_count hi
        simpa [Functions.takeOver, Functions.move, Functions.delete, Functions.setState, hy, htq,
          hx, hst] using hlt
  | empty | construct | moveConstruct | destroy | call => exact absurd trivial hg

theorem sound_init : Sound n ({} : Functions S R) where
  defined := rfl
  owned := Owners.Owned.of_none (by simp) (by simp)
  stored i t x hi := by simp at hi
  bound t ht := by simp at ht
  deleted_iff t := by simp
  once := List.nodup_nil

/-- **Functions hold their targets as values**, wherever these are and however they are moved, and
destroy each once, in exactly the runs in which no assignment throws that has destroyed a
target. -/
theorem holdsValues_iff (n : Nat) (body : S → A → S × R) (as : List (Action S A)) :
    (Sound n (Run.exec (step n body) {} as) ∧
      (Run.exec (step n body) {} as).holders = Run.exec (Holders.step n body) {} as) ↔
    Run.Meets (step n body) Spares {} as := by
  have hiff : Sound n (Run.exec (step n body) {} as) ↔ Run.Meets (step n body) Spares {} as :=
    Run.exec_iff_meets (fun _ _ _ hs hg h => (step_spec hs hg h).1)
      (fun _ _ _ hs hg h => dangling_of_not_spares hs hg h) (fun _ _ _ hd h => hd.step h)
      (fun _ hs => hs) (fun _ hd => hd.not_sound) sound_init as
  refine ⟨fun h => hiff.mp h.1, fun hm => ⟨hiff.mpr hm, ?_⟩⟩
  exact Run.exec_sim_of_meets holders (fun _ _ _ => step_spec) (fun _ _ => step_none)
    sound_init hm

end Functions

end Cocls
