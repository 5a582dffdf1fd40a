import Mathlib.Data.List.Basic

/-!
# Cocls.SuspendPoint

`suspend_point`: up to three handles in the object, more in an array on the heap.

The two share a union, `_count_flag` holds the number of handles and, in bit 0, which
member is used.  A suspend point *holds* a list of handles (`Holds`); each operation is
described by what it does to that list.  The one thing a list does not do comes from
`_count_flag` being an `unsigned int`: the handle number `2 ^ 31` makes the count zero
(`grow`).

An operation gives `none` when it reads or writes outside of the array in use, reads a slot
that was not written or the wrong member of the union, or deletes an array twice.
-/

namespace Cocls

variable {H : Type*}

/-- The union.  A slot is `none` until a handle is stored in it. -/
inductive Storage (H : Type*) where
  /-- `_local` -/
  | locals (slots : List (Option H))
  /-- `_ext`: the array, and `_capacity` -/
  | ext (slots : List (Option H)) (capacity : Nat)
  /-- `_ext`, and the array is deleted or belongs to another suspend point -/
  | stale
deriving DecidableEq, Repr

namespace Storage

def inlineCount : Nat := 3

/-- `_local`, which starts anew when the union holds something else. -/
def localSlots : Storage H → List (Option H)
  | .locals slots => slots
  | _ => List.replicate inlineCount none

/-- `slots[i] = h`. -/
def write (slots : List (Option H)) (i : Nat) (h : H) : Option (List (Option H)) :=
  if i < slots.length then some (slots.set i (some h)) else none

/-- `nh = new Ptr[n]`, and `std::copy` of the first `k` slots. -/
def realloc (slots : List (Option H)) (k n : Nat) : Option (List (Option H)) :=
  if k ≤ slots.length ∧ k ≤ n then some (slots.take k ++ List.replicate (n - k) none) else none

/-- Storing behind the handles that are there. -/
theorem write_of_prefix {slots : List (Option H)} {l : List H} (hl : l.map some <+: slots)
    (hlt : l.length < slots.length) (h : H) :
    ∃ slots', write slots l.length h = some slots' ∧ slots'.length = slots.length ∧
      (l ++ [h]).map some <+: slots' := by
  refine ⟨_, if_pos hlt, List.length_set, ?_⟩
  obtain ⟨t, rfl⟩ := hl
  cases t with
  | nil => simp at hlt
  | cons x t =>
      rw [List.set_append_right _ _ (by simp)]
      exact ⟨t, by simp⟩

/-- A new array with the handles that are there. -/
theorem realloc_of_prefix {slots : List (Option H)} {l : List H} {n : Nat}
    (hl : l.map some <+: slots) (hn : l.length ≤ n) :
    ∃ slots', realloc slots l.length n = some slots' ∧ slots'.length = n ∧
      l.map some <+: slots' := by
  obtain ⟨t, rfl⟩ := hl
  refine ⟨_, if_pos ⟨by simp, hn⟩, ?_, ?_⟩
  · rw [List.length_append, List.length_take, List.length_replicate, List.length_append,
      List.length_map]
    omega
  · rw [List.take_left' (List.length_map some)]
    exact List.prefix_append _ _

end Storage

structure SuspendPoint (H : Type*) where
  storage : Storage H := .locals (List.replicate Storage.inlineCount none)
  /-- `_count_flag` -/
  countFlag : Nat := 0
deriving DecidableEq, Repr

namespace SuspendPoint

open Storage

/-! ## The source -/

section Operations

variable (p : SuspendPoint H)

/-- `_count_flag & 1`. -/
def flag : Bool := p.countFlag % 2 = 1

/-- `_count_flag >> 1`. -/
def size : Nat := p.countFlag / 2

/-- `_count_flag + n` in an `unsigned int`. -/
def countPlus (n : Nat) : Nat := (p.countFlag + n) % 0x100000000

/-- The constructor from one handle. -/
def ofHandle (h : H) : SuspendPoint H :=
  { storage := .locals ((List.replicate inlineCount none).set 0 (some h)), countFlag := 2 }

/-- `begin()[i]`. -/
def read (i : Nat) : Option H :=
  match p.flag, p.storage with
  | true, .ext slots _ | false, .locals slots => slots[i]?.join
  | _, _ => none

/-- `n` reads from index `i` on. -/
def readFrom : Nat → Nat → Option (List H)
  | _, 0 => some []
  | i, n + 1 => do
      let x ← p.read i
      let xs ← readFrom (i + 1) n
      some (x :: xs)

/-- `for (auto x: *this)`. -/
def handles : Option (List H) := p.readFrom 0 p.size

/-- `clear_internal`. -/
def clearInternal : Option (SuspendPoint H) :=
  match p.flag, p.storage with
  | true, .ext _ _ => some { storage := .stale, countFlag := 0 }
  | true, _ => none
  | false, _ => some { p with countFlag := 0 }

def add (h : H) : Option (SuspendPoint H) :=
  let count := p.size
  match p.flag, p.storage with
  | true, .ext slots capacity => do
      let (slots, capacity) ←
        if count = capacity then
          let n := count * 2 % 0x100000000
          (realloc slots count n).map (·, n)
        else some (slots, capacity)
      let slots ← write slots count h
      some { storage := .ext slots capacity, countFlag := p.countPlus 2 }
  | true, _ => none
  | false, storage =>
      if count < inlineCount then do
        let slots ← write storage.localSlots count h
        some { storage := .locals slots, countFlag := p.countPlus 2 }
      else
        match storage with
        | .locals slots => do
            let n := count * 2 % 0x100000000
            let slots ← realloc slots inlineCount n
            let slots ← write slots count h
            some { storage := .ext slots n, countFlag := p.countPlus 3 }
        | _ => none

/-- `operator<<` of another suspend point and the move assignment: what both are afterwards. -/
def merge (other : SuspendPoint H) : Option (SuspendPoint H × SuspendPoint H) := do
  let hs ← other.handles
  let p ← hs.foldlM add p
  -- the same two lines as `clear_internal`
  let other ← other.clearInternal
  some (p, other)

/-- The move constructor from `p`: the new object and what `p` is afterwards. -/
def move : Option (SuspendPoint H × SuspendPoint H) :=
  match p.flag, p.storage with
  | true, .ext slots capacity =>
      some ({ p with storage := .ext slots capacity }, { storage := .stale, countFlag := 0 })
  | true, _ => none
  | false, storage =>
      some ({ p with storage := .locals storage.localSlots }, { p with countFlag := 0 })

/-- `pop`; without a handle it returns `noop_coroutine`. -/
def pop : Option (SuspendPoint H × Option H) :=
  let idx := p.size
  if idx ≠ 0 then do
    let p := { p with countFlag := p.countFlag - 2 }
    let out ← p.read (idx - 1)
    some (p, some out)
  else some (p, none)

/-- `suspend_now`: what is left, and the handles in the order they are pushed or resumed. -/
def suspendNow : Option (SuspendPoint H × List H) := do
  let hs ← if p.size = 0 then some [] else p.handles
  let p ← p.clearInternal
  some (p, hs)

/-- The destructor. -/
def destroy : Option (List H) :=
  if p.countFlag ≠ 0 then p.suspendNow.map Prod.snd else some []

end Operations

/-! ## The list -/

/-- What an addition does: the count of `2 ^ 31` handles does not fit. -/
def grow (l : List H) (h : H) : List H := if l.length + 1 < 0x80000000 then l ++ [h] else []

/-- The list of handles in a suspend point. -/
inductive Holds : SuspendPoint H → List H → Prop where
  | locals {slots : List (Option H)} {l : List H} (hlen : slots.length = inlineCount)
      (hl : l.map some <+: slots) : Holds ⟨.locals slots, 2 * l.length⟩ l
  | ext {slots : List (Option H)} {l : List H} (hcap : 0 < slots.length)
      (hlt : l.length < 0x80000000) (hl : l.map some <+: slots) :
      Holds ⟨.ext slots slots.length, 2 * l.length + 1⟩ l
  /-- the array was given away or deleted -/
  | unused {storage : Storage H} (hlen : storage.localSlots.length = inlineCount) :
      Holds ⟨storage, 0⟩ []

section CountFlag

variable (storage : Storage H) (n : Nat)

@[simp] theorem flag_even : (⟨storage, 2 * n⟩ : SuspendPoint H).flag = false := by simp [flag]

@[simp] theorem flag_odd : (⟨storage, 2 * n + 1⟩ : SuspendPoint H).flag = true := by
  simp [flag]

theorem flag_zero : (⟨storage, 0⟩ : SuspendPoint H).flag = false := rfl

@[simp] theorem size_even : (⟨storage, 2 * n⟩ : SuspendPoint H).size = n := by simp [size]

@[simp] theorem size_odd : (⟨storage, 2 * n + 1⟩ : SuspendPoint H).size = n := by
  simp only [size]
  omega

@[simp] theorem size_zero : (⟨storage, 0⟩ : SuspendPoint H).size = 0 := by
  simp [size]

end CountFlag

namespace Holds

variable {p : SuspendPoint H} {l : List H}

theorem size_eq (hp : p.Holds l) : p.size = l.length := by
  cases hp with
  | locals hlen hl => exact size_even ..
  | ext hcap hlt hl => exact size_odd ..
  | unused hlen => exact size_zero _

theorem length_lt (hp : p.Holds l) : l.length < 0x80000000 := by
  cases hp with
  | locals hlen hl =>
      have hle := hl.length_le
      rw [List.length_map, hlen, inlineCount] at hle
      omega
  | ext hcap hlt hl => exact hlt
  | unused hlen => exact Nat.zero_lt_succ _

theorem empty : ({} : SuspendPoint H).Holds [] := .unused rfl

theorem ofHandle (h : H) : (ofHandle h).Holds [h] :=
  .locals (l := [h]) rfl ⟨[none, none], rfl⟩

/-- The slots below the size hold the handles. -/
theorem read (hp : p.Holds l) {i : Nat} (hi : i < l.length) : p.read i = some l[i] := by
  have hslot : ∀ slots : List (Option H), l.map some <+: slots → slots[i]?.join = some l[i] := by
    rintro slots ⟨t, rfl⟩
    rw [List.getElem?_append_left (by simpa using hi)]
    simp [hi]
  cases hp with
  | @locals slots l hlen hl =>
      simp only [SuspendPoint.read, flag_even]
      exact hslot slots hl
  | @ext slots l hcap hlt hl =>
      simp only [SuspendPoint.read, flag_odd]
      exact hslot slots hl
  | unused hlen => cases hi

/-- The loop reads the handles one by one. -/
theorem readFrom (hp : p.Holds l) {n i : Nat} (hn : i + n = l.length) :
    p.readFrom i n = some (l.drop i) := by
  induction n generalizing i with
  | zero => rw [SuspendPoint.readFrom, List.drop_of_length_le (by omega)]
  | succ n ih =>
      have hi : i < l.length := by omega
      rw [SuspendPoint.readFrom, hp.read hi, ih (by omega), List.drop_eq_getElem_cons hi]
      rfl

theorem handles (hp : p.Holds l) : p.handles = some l := by
  rw [SuspendPoint.handles, hp.readFrom (by rw [hp.size_eq, Nat.zero_add])]
  rfl

theorem clearInternal (hp : p.Holds l) : ∃ p', p.clearInternal = some p' ∧ p'.Holds [] := by
  cases hp with
  | @locals slots l hlen hl =>
      exact ⟨⟨.locals slots, 0⟩, by simp [SuspendPoint.clearInternal], .unused hlen⟩
  | @ext slots l hcap hlt hl =>
      exact ⟨⟨.stale, 0⟩, by simp [SuspendPoint.clearInternal], .unused rfl⟩
  | @unused storage hlen => exact ⟨⟨storage, 0⟩, rfl, .unused hlen⟩

/-- The count and the flag after an addition to the array. -/
theorem of_append {slots : List (Option H)} {h : H} (hcap : 0 < slots.length)
    (hlt : l.length < 0x80000000) (hl : (l ++ [h]).map some <+: slots) :
    (⟨.ext slots slots.length, (2 * l.length + 3) % 0x100000000⟩ : SuspendPoint H).Holds
      (grow l h) := by
  by_cases hfit : l.length + 1 < 0x80000000
  · have hcount : (2 * l.length + 3) % 0x100000000 = 2 * (l ++ [h]).length + 1 := by
      rw [List.length_append, List.length_singleton]
      omega
    rw [grow, if_pos hfit, hcount]
    exact .ext hcap (by simpa using hfit) hl
  · have hcount : (2 * l.length + 3) % 0x100000000 = 2 * ([] : List H).length + 1 := by
      rw [List.length_nil]
      omega
    rw [grow, if_neg hfit, hcount]
    exact .ext (l := []) hcap (by simp) (List.nil_prefix)

/-- An addition to the object. -/
theorem of_write {slots : List (Option H)} (hlen : slots.length = inlineCount)
    (hl : l.map some <+: slots) (hlt : l.length < inlineCount) (h : H) :
    ∃ slots', write slots l.length h = some slots' ∧
      (⟨.locals slots', (2 * l.length + 2) % 0x100000000⟩ : SuspendPoint H).Holds (grow l h) := by
  obtain ⟨slots', hwrite, hlen', hl'⟩ := write_of_prefix hl (hlen ▸ hlt) h
  refine ⟨slots', hwrite, ?_⟩
  rw [inlineCount] at hlt
  have hcount : (2 * l.length + 2) % 0x100000000 = 2 * (l ++ [h]).length := by
    rw [List.length_append, List.length_singleton]
    omega
  rw [grow, if_pos (by omega), hcount]
  exact .locals (hlen'.trans hlen) hl'

/-- A new array is twice as large, so there is room for one more. -/
theorem of_realloc {slots : List (Option H)} (hpos : 0 < l.length)
    (hlt : l.length < 0x80000000) (hl : l.map some <+: slots) (h : H) :
    ∃ slots₁ slots₂, realloc slots l.length (l.length * 2 % 0x100000000) = some slots₁ ∧
      write slots₁ l.length h = some slots₂ ∧
      (⟨.ext slots₂ (l.length * 2 % 0x100000000), (2 * l.length + 3) % 0x100000000⟩ :
        SuspendPoint H).Holds (grow l h) := by
  have hn : l.length * 2 % 0x100000000 = l.length * 2 := by omega
  rw [hn]
  obtain ⟨slots₁, hrealloc, hlen₁, hl₁⟩ := realloc_of_prefix (n := l.length * 2) hl (by omega)
  obtain ⟨slots₂, hwrite, hlen₂, hl₂⟩ := write_of_prefix hl₁ (by omega) h
  refine ⟨slots₁, slots₂, hrealloc, hwrite, ?_⟩
  have hlen : l.length * 2 = slots₂.length := by rw [hlen₂, hlen₁]
  rw [hlen]
  exact of_append (by omega) hlt hl₂

/-- **Addition**: the handle is the last one. -/
theorem add (hp : p.Holds l) (h : H) : ∃ p', p.add h = some p' ∧ p'.Holds (grow l h) := by
  cases hp with
  | @locals slots l hlen hl =>
      by_cases hlt : l.length < inlineCount
      · obtain ⟨slots', hwrite, hp'⟩ := of_write hlen hl hlt h
        refine ⟨_, ?_, hp'⟩
        simp only [SuspendPoint.add, flag_even, size_even, if_pos hlt, localSlots, hwrite]
        rfl
      · have hle := hl.length_le
        rw [List.length_map, hlen] at hle
        have hfull : inlineCount = l.length := by omega
        have hpos : 0 < l.length := by rw [← hfull]; decide
        obtain ⟨slots₁, slots₂, hrealloc, hwrite, hp'⟩ :=
          of_realloc hpos (Holds.locals hlen hl).length_lt hl h
        refine ⟨_, ?_, hp'⟩
        simp only [SuspendPoint.add, flag_even, size_even, if_neg hlt]
        rw [hfull, hrealloc]
        simp [hwrite, countPlus]
  | @ext slots l hcap hlt hl =>
      by_cases hfull : l.length = slots.length
      · obtain ⟨slots₁, slots₂, hrealloc, hwrite, hp'⟩ := of_realloc (hfull ▸ hcap) hlt hl h
        refine ⟨_, ?_, hp'⟩
        simp only [SuspendPoint.add, flag_odd, size_odd, if_pos hfull]
        rw [hrealloc]
        simp [hwrite, countPlus]
      · have hle := hl.length_le
        rw [List.length_map] at hle
        obtain ⟨slots', hwrite, hlen', hl'⟩ := write_of_prefix hl (by omega) h
        refine ⟨_, ?_, of_append (hlen' ▸ hcap) hlt hl'⟩
        simp only [SuspendPoint.add, flag_odd, size_odd, if_neg hfull]
        simp [hwrite, countPlus, hlen']
  | @unused storage hlen =>
      obtain ⟨slots', hwrite, hp'⟩ :=
        of_write (l := []) hlen (List.nil_prefix) (by simp [inlineCount]) h
      refine ⟨_, ?_, hp'⟩
      rw [List.length_nil] at hwrite
      simp [SuspendPoint.add, flag_zero, inlineCount, hwrite, countPlus]

theorem foldlM_add (hp : p.Holds l) (hs : List H) :
    ∃ p', hs.foldlM SuspendPoint.add p = some p' ∧ p'.Holds (hs.foldl grow l) := by
  induction hs generalizing p l with
  | nil => exact ⟨p, rfl, hp⟩
  | cons h hs ih =>
      obtain ⟨p₁, hadd, hp₁⟩ := hp.add h
      obtain ⟨p₂, hfold, hp₂⟩ := ih hp₁
      exact ⟨p₂, by rw [List.foldlM_cons, hadd]; exact hfold, hp₂⟩

/-- **Merge**: the handles of the other are added in order, and it is left empty. -/
theorem merge (hp : p.Holds l) {other : SuspendPoint H} {l' : List H} (ho : other.Holds l') :
    ∃ p' other', p.merge other = some (p', other') ∧ p'.Holds (l'.foldl grow l) ∧
      other'.Holds [] := by
  obtain ⟨p', hfold, hp'⟩ := hp.foldlM_add l'
  obtain ⟨other', hclear, ho'⟩ := ho.clearInternal
  exact ⟨p', other', by simp [SuspendPoint.merge, ho.handles, hfold, hclear], hp', ho'⟩

/-- **Move**: the new object takes the handles. -/
theorem move (hp : p.Holds l) :
    ∃ q p', p.move = some (q, p') ∧ q.Holds l ∧ p'.Holds [] := by
  cases hp with
  | @locals slots l hlen hl =>
      exact ⟨⟨.locals slots, 2 * l.length⟩, ⟨.locals slots, 0⟩,
        by simp [SuspendPoint.move, localSlots], .locals hlen hl, .unused hlen⟩
  | @ext slots l hcap hlt hl =>
      exact ⟨⟨.ext slots slots.length, 2 * l.length + 1⟩, ⟨.stale, 0⟩,
        by simp [SuspendPoint.move], .ext hcap hlt hl, .unused rfl⟩
  | @unused storage hlen => exact ⟨_, _, rfl, .unused hlen, .unused hlen⟩

/-- The last handle is gone from the list when the count is less by one. -/
theorem dropLast (hp : p.Holds l) (hne : l ≠ []) :
    ({ p with countFlag := p.countFlag - 2 } : SuspendPoint H).Holds l.dropLast := by
  have hpos : 0 < l.length := List.length_pos_of_ne_nil hne
  have hsub : l.dropLast.map some <+: l.map some := (List.dropLast_prefix l).map some
  cases hp with
  | @locals slots l hlen hl =>
      have hcount : 2 * l.length - 2 = 2 * l.dropLast.length := by
        rw [List.length_dropLast]
        omega
      simp only [hcount]
      exact .locals hlen (hsub.trans hl)
  | @ext slots l hcap hlt hl =>
      have hcount : 2 * l.length + 1 - 2 = 2 * l.dropLast.length + 1 := by
        rw [List.length_dropLast]
        omega
      simp only [hcount]
      exact .ext hcap (by rw [List.length_dropLast]; omega) (hsub.trans hl)
  | unused hlen => exact absurd rfl hne

/-- **Pop**: the last handle. -/
theorem pop (hp : p.Holds l) :
    ∃ p', p.pop = some (p', l.getLast?) ∧ p'.Holds l.dropLast := by
  by_cases hnil : l = []
  · have hsize : p.size = 0 := by rw [hp.size_eq, hnil, List.length_nil]
    refine ⟨p, ?_, by rw [hnil] at hp ⊢; exact hp⟩
    simp [SuspendPoint.pop, hsize, hnil]
  · have hpos : 0 < l.length := List.length_pos_of_ne_nil hnil
    have hsize : p.size ≠ 0 := by
      rw [hp.size_eq]
      omega
    have hflag : ({ p with countFlag := p.countFlag - 2 } : SuspendPoint H).flag = p.flag := by
      rw [size] at hsize
      simp only [flag]
      congr 2
      omega
    have hread : p.read (p.size - 1) = some (l.getLast hnil) := by
      rw [hp.size_eq, hp.read (by omega), List.getLast_eq_getElem]
    refine ⟨_, ?_, hp.dropLast hnil⟩
    -- the flag is still there, so the read is from the same array
    have hread' : ({ p with countFlag := p.countFlag - 2 } : SuspendPoint H).read (p.size - 1) =
        some (l.getLast hnil) := by
      rw [← hread]
      simp only [SuspendPoint.read, hflag]
    simp [SuspendPoint.pop, hsize, hread', List.getLast?_eq_some_getLast hnil]

/-- **Clear**: all handles in the order of the list. -/
theorem suspendNow (hp : p.Holds l) :
    ∃ p', p.suspendNow = some (p', l) ∧ p'.Holds [] := by
  obtain ⟨p', hclear, hp'⟩ := hp.clearInternal
  refine ⟨p', ?_, hp'⟩
  by_cases hnil : l = []
  · have hsize : p.size = 0 := by rw [hp.size_eq, hnil, List.length_nil]
    simp [SuspendPoint.suspendNow, hsize, hclear, hnil]
  · have hsize : p.size ≠ 0 := by
      rw [hp.size_eq]
      exact fun h => hnil (List.length_eq_zero_iff.1 h)
    simp [SuspendPoint.suspendNow, hsize, hclear, hp.handles]

theorem destroy (hp : p.Holds l) : p.destroy = some l := by
  obtain ⟨p', hsuspend, -⟩ := hp.suspendNow
  by_cases hzero : p.countFlag = 0
  · have hlen : l.length = 0 := by rw [← hp.size_eq, size, hzero]
    rw [SuspendPoint.destroy, if_neg (not_not_intro hzero), List.length_eq_zero_iff.1 hlen]
  · rw [SuspendPoint.destroy, if_pos hzero, hsuspend]
    rfl

end Holds

end SuspendPoint

end Cocls
