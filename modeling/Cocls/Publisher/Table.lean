import Mathlib.Data.List.Nodup
import Cocls.Publisher.Stream

/-!
# Cocls.Publisher.Table

The table of registrations, in every state of a publisher with its subscribers.

A registration in use belongs to exactly one subscriber, the others form a chain
from `_next_free`, and a subscriber is suspended exactly while its awaiter is
registered.  The queue holds the newest published values, newest first.

`Move` says, once and for all, what a step can do to one subscriber and to its
registration; the properties of subscribers are proved from it.
-/

namespace Cocls

namespace Publisher

/-! ## Free registrations -/

/-- Where the chain of free registrations goes on after `f`. -/
def freeNext (regs : List SubReg) (f : Nat) : Option Nat := (regs[f]?).map SubReg.pos

/-- The registrations not in use form a chain from `nextFree` that ends at the length
of the table. -/
def FreeList (regs : List SubReg) (nextFree : Nat) : Prop :=
  ∃ fs : List Nat, fs.Nodup ∧ Links (freeNext regs) (some nextFree) fs (some regs.length) ∧
    ∀ f ∈ fs, ∃ l, regs[f]? = some l ∧ l.used = false

/-- The registrations `fs` are not in use, and chained from `nextFree` to the end. -/
structure Chain (regs : List SubReg) (nextFree : Nat) (fs : List Nat) : Prop where
  nodup : fs.Nodup
  links : Links (freeNext regs) (some nextFree) fs (some regs.length)
  unused : ∀ f ∈ fs, ∃ l, regs[f]? = some l ∧ l.used = false

section Chain

variable {regs regs' : List SubReg} {nextFree : Nat} {fs : List Nat}

theorem Chain.freeList (h : Chain regs nextFree fs) : FreeList regs nextFree :=
  ⟨fs, h.nodup, h.links, h.unused⟩

theorem FreeList.chain (h : FreeList regs nextFree) : ∃ fs, Chain regs nextFree fs :=
  let ⟨fs, hnd, hlinks, hfree⟩ := h
  ⟨fs, hnd, hlinks, hfree⟩

theorem chain_nil : Chain [] 0 [] := ⟨List.nodup_nil, rfl, by simp⟩

/-- Changes of registrations in use leave the chain. -/
theorem Chain.agree (h : Chain regs nextFree fs) (hlen : regs'.length = regs.length)
    (hsame : ∀ (f : Nat) (l : SubReg), regs[f]? = some l → l.used = false → regs'[f]? = some l) :
    Chain regs' nextFree fs := by
  refine ⟨h.nodup, ?_, fun f hf => ?_⟩
  · rw [hlen]
    refine (Links.agree fun f hf => ?_).mp h.links
    obtain ⟨l, hl, hu⟩ := h.unused f hf
    rw [freeNext, freeNext, hl, hsame f l hl hu]
  · obtain ⟨l, hl, hu⟩ := h.unused f hf
    exact ⟨l, hsame f l hl hu, hu⟩

/-- A registration that is given up becomes the first of the chain. -/
theorem Chain.release (hc : Chain regs nextFree fs) {h : Nat} {l : SubReg}
    (hl : regs[h]? = some l) (hu : l.used = true) :
    Chain (regs.set h { l with pos := nextFree, used := false }) h (h :: fs) := by
  have hlt : h < regs.length := (List.getElem?_eq_some_iff.mp hl).1
  have hnot : h ∉ fs := by
    intro hmem
    obtain ⟨l', hl', hu'⟩ := hc.unused h hmem
    rw [hl] at hl'
    cases hl'
    rw [hu] at hu'
    cases hu'
  have hother : ∀ f ∈ fs,
      (regs.set h { l with pos := nextFree, used := false })[f]? = regs[f]? := by
    intro f hmem
    rw [List.getElem?_set_ne]
    rintro rfl
    exact hnot hmem
  refine ⟨List.nodup_cons.mpr ⟨hnot, hc.nodup⟩, ⟨rfl, ?_⟩, fun f hf => ?_⟩
  · rw [freeNext, List.getElem?_set_self hlt, List.length_set]
    refine (Links.agree fun f hmem => ?_).mp hc.links
    rw [freeNext, freeNext, hother f hmem]
  · rcases List.mem_cons.mp hf with rfl | hmem
    · exact ⟨_, List.getElem?_set_self hlt, rfl⟩
    · rw [hother f hmem]
      exact hc.unused f hmem

end Chain

theorem freeList_nil : FreeList [] 0 := chain_nil.freeList

theorem FreeList.agree {regs regs' : List SubReg} {nextFree : Nat} (h : FreeList regs nextFree)
    (hlen : regs'.length = regs.length)
    (hsame : ∀ (f : Nat) (l : SubReg), regs[f]? = some l → l.used = false → regs'[f]? = some l) :
    FreeList regs' nextFree := by
  obtain ⟨fs, hc⟩ := h.chain
  exact (hc.agree hlen hsame).freeList

theorem FreeList.release {regs : List SubReg} {nextFree h : Nat} {l : SubReg}
    (hf : FreeList regs nextFree) (hl : regs[h]? = some l) (hu : l.used = true) :
    FreeList (regs.set h { l with pos := nextFree, used := false }) h := by
  obtain ⟨fs, hc⟩ := hf.chain
  exact (hc.release hl hu).freeList

namespace Queue

variable {T : Type*} {s : Queue T} {pos : Nat}

/-- `subscribe_lk` takes the first registration of the chain, or a new one when there is none. -/
theorem chain_subscribeLk (sub pos : Nat) (given : Bool) {fs : List Nat}
    (hc : Chain s.regs s.nextFree fs) :
    ∃ regs nextFree h,
      s.subscribeLk sub pos given = ({ s with regs := regs, nextFree := nextFree }, h) ∧
      Chain regs nextFree fs.tail ∧ fs = (if h < s.regs.length then h :: fs.tail else []) ∧
      regs[h]? = some { pos := pos, sub := sub, given := given } ∧
      (∀ i, i ≠ h → regs[i]? = s.regs[i]?) ∧ ∀ l, s.regs[h]? = some l → l.used = false := by
  cases hl : s.regs[s.nextFree]? with
  | none =>
      -- the chain is empty: the table grows
      have hnil : fs = [] := by
        cases fs with
        | nil => rfl
        | cons f fs =>
            obtain ⟨l, hl', -⟩ := hc.unused f List.mem_cons_self
            rw [← Option.some.inj hc.links.1, hl] at hl'
            cases hl'
      subst hnil
      refine ⟨s.regs ++ [{ pos := pos, sub := sub, given := given }], s.regs.length + 1,
        s.regs.length, by rw [subscribeLk, hl], ⟨List.nodup_nil, by simp, by simp⟩, by simp,
        by simp, ?_, by simp⟩
      intro i hi
      rcases Nat.lt_or_ge i s.regs.length with hlt | hge
      · rw [List.getElem?_append_left hlt]
      · rw [List.getElem?_append_right hge, List.getElem?_eq_none hge,
          List.getElem?_eq_none (by simp; omega)]
  | some l =>
      have hlt : s.nextFree < s.regs.length := (List.getElem?_eq_some_iff.mp hl).1
      cases fs with
      | nil =>
          have heq : s.nextFree = s.regs.length := Option.some.inj hc.links
          omega
      | cons f fs =>
          obtain ⟨hfirst, hrest⟩ := hc.links
          obtain rfl : s.nextFree = f := Option.some.inj hfirst
          obtain ⟨hnot, hnd⟩ := List.nodup_cons.mp hc.nodup
          obtain ⟨l', hl', hu⟩ := hc.unused _ List.mem_cons_self
          rw [hl] at hl'
          cases hl'
          have hother : ∀ i, i ≠ s.nextFree →
              (s.regs.set s.nextFree { pos := pos, sub := sub, given := given })[i]? =
                s.regs[i]? :=
            fun i hi => List.getElem?_set_ne (Ne.symm hi)
          refine ⟨s.regs.set s.nextFree { pos := pos, sub := sub, given := given }, l.pos,
            s.nextFree, by rw [subscribeLk, hl], ⟨hnd, ?_, ?_⟩, by rw [if_pos hlt, List.tail_cons],
            List.getElem?_set_self hlt, hother, ?_⟩
          · rw [freeNext, hl] at hrest
            rw [List.length_set]
            refine (Links.agree fun i hi => ?_).mp hrest
            rw [freeNext, freeNext, hother i fun h => hnot (h ▸ hi)]
          · intro i hi
            have hmem : i ∈ fs := hi
            rw [hother i fun h => hnot (h ▸ hmem)]
            exact hc.unused i (List.mem_cons_of_mem _ hmem)
          · intro l'' hl''
            rw [hl] at hl''
            cases hl''
            exact hu

/-- `subscribe_lk` takes a registration that is not in use. -/
theorem subscribeLk_spec (sub pos : Nat) (given : Bool) (hf : FreeList s.regs s.nextFree) :
    ∃ regs nextFree h,
      s.subscribeLk sub pos given = ({ s with regs := regs, nextFree := nextFree }, h) ∧
      FreeList regs nextFree ∧ regs[h]? = some { pos := pos, sub := sub, given := given } ∧
      (∀ i, i ≠ h → regs[i]? = s.regs[i]?) ∧ ∀ l, s.regs[h]? = some l → l.used = false := by
  obtain ⟨fs, hc⟩ := hf.chain
  obtain ⟨regs, nextFree, h, heq, hc', -, hrest⟩ := s.chain_subscribeLk sub pos given hc
  exact ⟨regs, nextFree, h, heq, hc'.freeList, hrest⟩

/-! ## What `push_lk` keeps -/

section NeedLen

variable {regs : List SubReg} {n : Nat}

/-- The length that `push_lk` accumulates over a table. -/
def needFold (pos : Nat) (regs : List SubReg) (n : Nat) : Nat :=
  regs.foldl (fun n x => if x.used then max n (sizeSub pos x.pos) else n) n

theorem needFold_cons (x : SubReg) : needFold pos (x :: regs) n =
    needFold pos regs (if x.used then max n (sizeSub pos x.pos) else n) := rfl

/-- The accumulated length only grows. -/
theorem le_needFold : n ≤ needFold pos regs n := by
  induction regs generalizing n with
  | nil => exact Nat.le_refl n
  | cons x xs ih =>
      rw [needFold_cons]
      refine Nat.le_trans ?_ ih
      split
      · exact Nat.le_max_left _ _
      · exact Nat.le_refl n

/-- Every registration in use is accounted for. -/
theorem sizeSub_le_needFold {l : SubReg} (hl : l ∈ regs) (hu : l.used = true) :
    sizeSub pos l.pos ≤ needFold pos regs n := by
  induction regs generalizing n with
  | nil => simp at hl
  | cons x xs ih =>
      rw [needFold_cons]
      rcases List.mem_cons.mp hl with rfl | hmem
      · refine Nat.le_trans ?_ le_needFold
        rw [if_pos hu]
        exact Nat.le_max_right _ _
      · exact ih hmem

end NeedLen

theorem minQueueLen_le_needLen : s.limits.minQueueLen ≤ s.needLen pos := le_needFold

theorem sizeSub_le_needLen {l : SubReg} (hl : l ∈ s.regs) (hu : l.used = true) :
    sizeSub pos l.pos ≤ s.needLen pos := sizeSub_le_needFold hl hu

/-- `push_lk` resumes the awaiter of every registration in use. -/
theorem mem_wakeups {l : SubReg} {awt : Nat} (hl : l ∈ s.regs) (hu : l.used = true)
    (ha : l.awt = some awt) : awt ∈ s.wakeups :=
  List.mem_filterMap.mpr ⟨l, hl, by rw [if_pos hu, ha]⟩

/-- The registrations after `push_lk`. -/
theorem awakened_getElem? (h : Nat) :
    s.awakened[h]? = (s.regs[h]?).map fun x => if x.used then { x with awt := none } else x :=
  List.getElem?_map

end Queue

/-! ## The steps of one subscriber -/

/-- A subscriber whose awaiter was resumed. -/
def Reader.woken {T : Type*} (r : Reader T) : Reader T :=
  if r.phase = .suspended then { r with phase := .toGet } else r

section Woken

variable {T : Type*} (r : Reader T)

@[simp] theorem Reader.woken_handle : r.woken.handle = r.handle := by
  unfold Reader.woken; split <;> rfl

@[simp] theorem Reader.woken_type : r.woken.type = r.type := by
  unfold Reader.woken; split <;> rfl

@[simp] theorem Reader.woken_base : r.woken.base = r.base := by
  unfold Reader.woken; split <;> rfl

@[simp] theorem Reader.woken_received : r.woken.received = r.received := by
  unfold Reader.woken; split <;> rfl

@[simp] theorem Reader.woken_endInfo : r.woken.endInfo = r.endInfo := by
  unfold Reader.woken; split <;> rfl

theorem Reader.woken_phase :
    r.woken.phase = if r.phase = .suspended then .toGet else r.phase := by
  unfold Reader.woken; split <;> rfl

end Woken

namespace Stream

variable {T : Type*} {s s' : Stream T} {a : Action T} {p : Nat} {r r' : Reader T}
  {l l' : SubReg}

/-- Nothing was published and the queue holds what it held. -/
structure Still (s s' : Stream T) : Prop where
  published_eq : s'.published = s.published
  limits_eq : s'.que.limits = s.que.limits
  q_eq : s'.que.q = s.que.q
  pos_eq : s'.que.pos = s.que.pos
  closed_eq : s'.que.closed = s.que.closed

/-- `vals` were published (none when the queue was closed), and the queue was cut to
the needed length `need`. -/
structure Pushed (s s' : Stream T) (vals : List T) (need : Nat) : Prop where
  published_eq : s'.published = s.published ++ vals
  limits_eq : s'.que.limits = s.que.limits
  q_eq : s'.que.q = (vals.reverse ++ s.que.q).take
    (min need (min s.que.limits.maxQueueLen (vals.reverse ++ s.que.q).length))
  pos_eq : s'.que.pos = s.que.pos + vals.length
  closed_of : s.que.closed = true → s'.que.closed = true
  closed_of_nil : vals = [] → s'.que.closed = true

/-- What a step `a` can do to subscriber `p`, and to its registration. -/
inductive Move (s s' : Stream T) (a : Action T) (p : Nat) (r : Reader T) (l : SubReg) :
    Reader T → SubReg → Prop
  /-- a step of another subscriber -/
  | other (h : Still s s') : Move s s' a p r l r l
  | pushed (vals : List T) (need : Nat) (h : Pushed s s' vals need)
      (hneed : sizeSub s'.que.pos l.pos ≤ need) :
      Move s s' a p r l r.woken { l with awt := none }
  | kicked (h : Still s s') : Move s s' a p r l r.woken { l with awt := none, kicked := true }
  | ready (h : Still s s') (ha : a = .act p .ready) (hp : r.phase = .idle) :
      Move s s' a p r l
        { r with phase := if (s.que.advanceReg l r.type).2 then .toGet else .toSubscribe }
        (s.que.advanceReg l r.type).1
  | subscribe (h : Still s s') (ha : a = .act p .subscribe) (hp : r.phase = .toSubscribe) :
      Move s s' a p r l
        { r with phase := if (s.que.suspendReg l p).2 then .suspended else .toGet }
        (s.que.suspendReg l p).1
  | get (h : Still s s') (ha : a = .act p .get) (hp : r.phase = .toGet) :
      Move s s' a p r l (s.receive r l (s.que.readReg l r.type)) l
  | giveUp (h : Still s s') (hp : r.phase = .toSubscribe) :
      Move s s' a p r l { r with phase := .idle } l

/-- A subscriber and its registration agree. -/
structure Slot (p : Nat) (r : Reader T) (l : SubReg) : Prop where
  used : l.used = true
  sub_eq : l.sub = p
  awt_eq : l.awt = if r.phase = .suspended then some p else none

/-- A subscriber and its registration agree after every step. -/
theorem Move.slot (h : Move s s' a p r l r' l') (hs : Slot p r l) :
    r'.handle = r.handle ∧ Slot p r' l' := by
  obtain ⟨hu, hsub, hawt⟩ := hs
  have hwoken : r.woken.phase ≠ .suspended := by
    rw [Reader.woken_phase]
    split <;> simp_all
  cases h with
  | other => exact ⟨rfl, hu, hsub, hawt⟩
  | pushed => exact ⟨r.woken_handle, hu, hsub, by rw [if_neg hwoken]⟩
  | kicked => exact ⟨r.woken_handle, hu, hsub, by rw [if_neg hwoken]⟩
  | ready _ _ hp =>
      rw [hp, if_neg (by decide)] at hawt
      rcases s.que.advanceReg_cases l r.type with ⟨-, he⟩ | ⟨-, -, he⟩ | ⟨-, -, he⟩ <;>
        exact ⟨rfl, he ▸ ⟨hu, hsub, hawt⟩⟩
  | subscribe _ _ hp =>
      rw [hp, if_neg (by decide)] at hawt
      rcases s.que.suspendReg_cases l p with ⟨-, he⟩ | ⟨-, -, -, he⟩ | ⟨-, -, -, he⟩
      · exact ⟨rfl, he ▸ ⟨hu, hsub, hawt⟩⟩
      · exact ⟨rfl, he ▸ ⟨hu, hsub, rfl⟩⟩
      · exact ⟨rfl, he ▸ ⟨hu, hsub, hawt⟩⟩
  | get _ _ hp =>
      rw [hp, if_neg (by decide)] at hawt
      unfold receive
      split <;> exact ⟨rfl, hu, hsub, hawt⟩
  | giveUp _ hp =>
      rw [hp, if_neg (by decide)] at hawt
      exact ⟨rfl, hu, hsub, hawt⟩

/-- No step changes the mode of a subscriber or where it joined. -/
theorem Move.type_base (h : Move s s' a p r l r' l') : r'.type = r.type ∧ r'.base = r.base := by
  cases h with
  | other | ready | subscribe | giveUp => exact ⟨rfl, rfl⟩
  | pushed | kicked => exact ⟨r.woken_type, r.woken_base⟩
  | get =>
      unfold receive
      split <;> exact ⟨rfl, rfl⟩

/-! ## The table in every state -/

/-- What holds of the table of registrations and of the queue in every state. -/
structure Table (s : Stream T) : Prop where
  slots : ∀ p r, s.sub p = some r → ∃ l, s.que.regs[r.handle]? = some l ∧ Slot p r l
  owned : ∀ h l, s.que.regs[h]? = some l → l.used = true →
    ∃ r, s.sub l.sub = some r ∧ r.handle = h
  free : FreeList s.que.regs s.que.nextFree
  pos_eq : s.que.pos = s.published.length + 1
  q_eq : s.que.q = s.published.reverse.take s.que.q.length

/-- Every subscriber present moves. -/
def Moves (s s' : Stream T) (a : Action T) : Prop :=
  ∀ p r l, s.sub p = some r → s.que.regs[r.handle]? = some l → Slot p r l →
    ∃ r' l', s'.sub p = some r' ∧ s'.que.regs[r.handle]? = some l' ∧ Move s s' a p r l r' l'

/-- The parts of the table that a step without a new or a leaving subscriber keeps. -/
structure Frame (s s' : Stream T) : Prop where
  absent : ∀ p, s.sub p = none → s'.sub p = none
  length_eq : s'.que.regs.length = s.que.regs.length
  unused : ∀ (h : Nat) (l : SubReg), s.que.regs[h]? = some l → l.used = false →
    s'.que.regs[h]? = some l
  nextFree_eq : s'.que.nextFree = s.que.nextFree

/-- The queue keeps the newest values when it holds what it held. -/
theorem Table.still (hT : Table s) (h : Still s s') :
    s'.que.pos = s'.published.length + 1 ∧ s'.que.q = s'.published.reverse.take s'.que.q.length := by
  rw [h.pos_eq, h.published_eq, h.q_eq]
  exact ⟨hT.pos_eq, hT.q_eq⟩

/-- The queue keeps the newest values when values are put in front of it. -/
theorem Table.pushed {vals : List T} {need : Nat} (hT : Table s) (h : Pushed s s' vals need) :
    s'.que.pos = s'.published.length + 1 ∧ s'.que.q = s'.published.reverse.take s'.que.q.length := by
  refine ⟨?_, ?_⟩
  · rw [h.pos_eq, hT.pos_eq, h.published_eq, List.length_append]
    omega
  · have hpre : vals.reverse ++ s.que.q <+: s'.published.reverse := by
      rw [h.published_eq, List.reverse_append, hT.q_eq]
      exact List.prefix_append_right_inj _ |>.mpr (List.take_prefix _ _)
    exact List.prefix_iff_eq_take.mp (h.q_eq ▸ (List.take_prefix _ _).trans hpre)

/-- The value at an index of the queue. -/
theorem Table.q_getElem? (hT : Table s) {i : Nat} (hi : i < s.que.q.length) :
    s.que.q[i]? = s.published[s.published.length - 1 - i]? ∧ i < s.published.length := by
  have hlen : s.que.q.length ≤ s.published.length := by
    rw [hT.q_eq, List.length_take, List.length_reverse]
    exact Nat.min_le_right _ _
  have hlt : i < s.published.length := Nat.lt_of_lt_of_le hi hlen
  refine ⟨?_, hlt⟩
  rw [hT.q_eq, List.getElem?_take_of_lt hi, List.getElem?_reverse hlt]

/-- A step without a new or a leaving subscriber keeps the table. -/
theorem Table.of_moves (hT : Table s) (hm : Moves s s' a) (hf : Frame s s')
    (hq : Still s s' ∨ ∃ vals need, Pushed s s' vals need ∧ s.que.limits.minQueueLen ≤ need) :
    Table s' := by
  obtain ⟨hpos, hqueue⟩ : s'.que.pos = s'.published.length + 1 ∧
      s'.que.q = s'.published.reverse.take s'.que.q.length := by
    rcases hq with h | ⟨vals, need, h, -⟩
    · exact hT.still h
    · exact hT.pushed h
  have hslot : ∀ p r, s.sub p = some r → ∃ r' l', s'.sub p = some r' ∧
      s'.que.regs[r.handle]? = some l' ∧ r'.handle = r.handle ∧ Slot p r' l' := by
    intro p r hr
    obtain ⟨l, hl, hs⟩ := hT.slots p r hr
    obtain ⟨r', l', hr', hl', hmove⟩ := hm p r l hr hl hs
    exact ⟨r', l', hr', hl', hmove.slot hs⟩
  refine ⟨fun p r' hr' => ?_, fun h l' hl' hu' => ?_, ?_, hpos, hqueue⟩
  · cases hr : s.sub p with
    | none =>
        rw [hf.absent p hr] at hr'
        cases hr'
    | some r =>
        obtain ⟨r₁, l', hr₁, hl', hh, hs⟩ := hslot p r hr
        rw [hr₁] at hr'
        cases hr'
        exact ⟨l', hh ▸ hl', hs⟩
  · have hlt : h < s.que.regs.length := hf.length_eq ▸ (List.getElem?_eq_some_iff.mp hl').1
    obtain ⟨l, hl⟩ : ∃ l, s.que.regs[h]? = some l := ⟨_, List.getElem?_eq_getElem hlt⟩
    have hu : l.used = true := by
      by_contra hu
      rw [hf.unused h l hl (by simpa using hu)] at hl'
      cases hl'
      exact hu hu'
    obtain ⟨r, hr, rfl⟩ := hT.owned h l hl hu
    obtain ⟨r', l₁, hr', hl₁, hh, hs⟩ := hslot l.sub r hr
    rw [hl₁] at hl'
    cases hl'
    exact ⟨r', hs.sub_eq ▸ hr', hh⟩
  · rw [hf.nextFree_eq]
    exact hT.free.agree hf.length_eq hf.unused

/-! ## What each step does -/

/-- Two subscribers have two registrations. -/
theorem Table.handle_ne {p' : Nat} {r₁ : Reader T} (hT : Table s) (hr : s.sub p = some r)
    (hr₁ : s.sub p' = some r₁) (hne : p' ≠ p) : r₁.handle ≠ r.handle := by
  intro heq
  obtain ⟨l, hl, hs⟩ := hT.slots p r hr
  obtain ⟨l₁, hl₁, hs₁⟩ := hT.slots p' r₁ hr₁
  rw [heq, hl] at hl₁
  cases hl₁
  exact hne (hs₁.sub_eq.symm.trans hs.sub_eq)

/-- Resuming the awaiter of every suspended subscriber. -/
theorem resumeAll_woken {sub : Nat → Option (Reader T)} {wk : List Nat} (hr : sub p = some r)
    (hw : r.phase = .suspended → p ∈ wk) : resumeAll sub wk p = some r.woken := by
  rw [resumeAll, hr, Option.map_some, Reader.woken]
  by_cases hp : r.phase = .suspended
  · rw [if_pos ⟨hw hp, hp⟩, if_pos hp]
  · rw [if_neg fun h => hp h.2, if_neg hp]

/-- A subscriber whose awaiter is not resumed stays as it is. -/
theorem resumeAll_other {sub : Nat → Option (Reader T)} {wk : List Nat} (hr : sub p = some r)
    (hw : p ∉ wk) : resumeAll sub wk p = some r := by
  rw [resumeAll, hr, Option.map_some, if_neg fun h => hw h.1]

theorem resumeAll_none {sub : Nat → Option (Reader T)} {wk : List Nat} (hr : sub p = none) :
    resumeAll sub wk p = none := by
  rw [resumeAll, hr, Option.map_none]

/-- Nobody is resumed. -/
@[simp] theorem resumeAll_nil (sub : Nat → Option (Reader T)) : resumeAll sub [] = sub := by
  funext p
  cases hr : sub p with
  | none => exact resumeAll_none hr
  | some r => exact resumeAll_other hr (by simp)

theorem Still.refl (s : Stream T) : Still s s := ⟨rfl, rfl, rfl, rfl, rfl⟩

/-- A step that changes nothing. -/
theorem same_moves (h : s' = s) : Moves s s' a ∧ Frame s s' ∧ Still s s' := by
  subst h
  exact ⟨fun p r l hr hl _ => ⟨r, l, hr, hl, .other (Still.refl _)⟩,
    ⟨fun _ hp => hp, rfl, fun _ _ hl _ => hl, rfl⟩, Still.refl _⟩

/-- `push_lk` after `vals` were put in front of the queue, or after it was closed. -/
theorem pushLk_moves (vals : List T) {q₀ : Queue T} {c : Bool} (hc : s.que.closed = true → c = true)
    (hv : vals = [] → c = true) (hq₀ : q₀ = { s.que with q := vals.reverse ++ s.que.q, closed := c })
    (hs' : s' = { s with que := (q₀.pushLk vals.length).1
                         sub := resumeAll s.sub (q₀.pushLk vals.length).2
                         published := s.published ++ vals }) :
    Moves s s' a ∧ Frame s s' ∧
      ∃ need, Pushed s s' vals need ∧ s.que.limits.minQueueLen ≤ need := by
  subst hq₀
  have hpush : Pushed s s' vals (s.que.needLen (s.que.pos + vals.length)) := by
    subst hs'
    exact ⟨rfl, rfl, rfl, rfl, hc, hv⟩
  have hregs : ∀ h : Nat, s'.que.regs[h]? =
      (s.que.regs[h]?).map fun x => if x.used then { x with awt := none } else x := by
    subst hs'
    exact s.que.awakened_getElem?
  have hsub : s'.sub = resumeAll s.sub s.que.wakeups := by
    subst hs'
    rfl
  refine ⟨fun p r l hr hl hs => ?_, ⟨fun p hp => ?_, ?_, fun h l hl hu => ?_, ?_⟩, _, hpush,
    Queue.minQueueLen_le_needLen⟩
  · have hmem : l ∈ s.que.regs := List.mem_of_getElem? hl
    refine ⟨r.woken, { l with awt := none }, ?_, ?_, .pushed vals _ hpush ?_⟩
    · rw [hsub]
      refine resumeAll_woken hr fun hp => Queue.mem_wakeups hmem hs.used ?_
      rw [hs.awt_eq, if_pos hp]
    · rw [hregs, hl, Option.map_some, if_pos hs.used]
    · rw [hpush.pos_eq]
      exact Queue.sizeSub_le_needLen hmem hs.used
  · rw [hsub]
    exact resumeAll_none hp
  · subst hs'
    exact List.length_map _
  · rw [hregs, hl, Option.map_some, if_neg (by rw [hu]; decide)]
  · subst hs'
    rfl

/-- `kick` finds the registration of the subscriber. -/
theorem kick_eq (hT : Table s) (hr : s.sub p = some r) (hl : s.que.regs[r.handle]? = some l) :
    s.que.kick p = ({ s.que with
      regs := s.que.regs.modify r.handle fun x => { x with awt := none, kicked := true } },
      l.awt.toList) := by
  obtain ⟨l', hl', hs⟩ := hT.slots p r hr
  rw [hl] at hl'
  cases hl'
  have hlt : r.handle < s.que.regs.length := (List.getElem?_eq_some_iff.mp hl).1
  have hat : s.que.regs[r.handle] = l := (List.getElem?_eq_some_iff.mp hl).2
  have hfind : (s.que.regs.findIdx? fun x => x.used && x.sub = p) = some r.handle := by
    refine List.findIdx?_eq_some_iff_getElem.mpr ⟨hlt, by simp [hat, hs.used, hs.sub_eq], ?_⟩
    intro j hj
    -- an earlier registration in use belongs to another subscriber
    by_contra hne
    simp only [Bool.and_eq_true, decide_eq_true_eq] at hne
    obtain ⟨r', hr', hh⟩ := hT.owned j _ (List.getElem?_eq_getElem (by omega)) hne.1
    rw [hne.2, hr] at hr'
    cases hr'
    omega
  rw [Queue.kick, hfind]
  simp only [hl, Option.bind_some]

/-- `kick` of an address without a subscriber. -/
theorem kick_none (hT : Table s) (hr : s.sub p = none) : s.que.kick p = (s.que, []) := by
  have hfind : (s.que.regs.findIdx? fun x => x.used && x.sub = p) = none := by
    refine List.findIdx?_eq_none_iff.mpr fun x hx => ?_
    by_contra hne
    simp only [Bool.not_eq_false, Bool.and_eq_true, decide_eq_true_eq] at hne
    obtain ⟨h, hlt, hat⟩ := List.mem_iff_getElem.mp hx
    obtain ⟨r, hr', -⟩ := hT.owned h x (by rw [List.getElem?_eq_getElem hlt, hat]) hne.1
    rw [hne.2, hr] at hr'
    cases hr'
  rw [Queue.kick, hfind]

/-- `kick`. -/
theorem kick_moves (hT : Table s) {p₀ : Nat}
    (hs' : s' = { s with que := (s.que.kick p₀).1, sub := resumeAll s.sub (s.que.kick p₀).2 }) :
    Moves s s' a ∧ Frame s s' ∧ Still s s' := by
  cases hr₀ : s.sub p₀ with
  | none =>
      rw [kick_none hT hr₀, resumeAll_nil] at hs'
      exact same_moves hs'
  | some r₀ =>
      obtain ⟨l₀, hl₀, hs₀⟩ := hT.slots p₀ r₀ hr₀
      rw [kick_eq hT hr₀ hl₀] at hs'
      have hregs : ∀ h : Nat, s'.que.regs[h]? = (s.que.regs[h]?).map fun x =>
          if r₀.handle = h then { x with awt := none, kicked := true } else x := by
        subst hs'
        intro h
        exact List.getElem?_modify _ _ _ _
      have hsub : s'.sub = resumeAll s.sub l₀.awt.toList := by
        subst hs'
        rfl
      have hstill : Still s s' := by
        subst hs'
        exact ⟨rfl, rfl, rfl, rfl, rfl⟩
      refine ⟨fun p r l hr hl hs => ?_, ⟨fun p hp => ?_, ?_, fun h l hl hu => ?_, ?_⟩, hstill⟩
      · by_cases hp : p = p₀
        · rw [hp, hr₀] at hr
          cases hr
          rw [hl₀] at hl
          cases hl
          refine ⟨r₀.woken, _, ?_, ?_, .kicked hstill⟩
          · rw [hsub, hs₀.awt_eq]
            refine resumeAll_woken (hp ▸ hr₀) fun hsusp => ?_
            rw [if_pos hsusp, hp]
            simp
          · rw [hregs, hl₀, Option.map_some, if_pos rfl]
        · refine ⟨r, l, ?_, ?_, .other hstill⟩
          · rw [hsub]
            refine resumeAll_other hr fun hmem => hp ?_
            rw [hs₀.awt_eq] at hmem
            split at hmem <;> simp_all
          · rw [hregs, hl, Option.map_some, if_neg (hT.handle_ne hr₀ hr hp).symm]
      · rw [hsub]
        exact resumeAll_none hp
      · subst hs'
        exact List.length_modify _ _ _
      · rw [hregs, hl, Option.map_some, if_neg]
        rintro rfl
        rw [hl₀] at hl
        cases hl
        rw [hs₀.used] at hu
        cases hu
      · subst hs'
        rfl

/-- A step of subscriber `p` on its own registration. -/
theorem own_moves (hT : Table s) (hr : s.sub p = some r) (hl : s.que.regs[r.handle]? = some l)
    (hu : l.used = true)
    (hs' : s' = s.setReader p { s.que with regs := s.que.regs.set r.handle l' } r')
    (hmove : Still s s' → Move s s' a p r l r' l') : Moves s s' a ∧ Frame s s' ∧ Still s s' := by
  have hlt : r.handle < s.que.regs.length := (List.getElem?_eq_some_iff.mp hl).1
  have hstill : Still s s' := by
    subst hs'
    exact ⟨rfl, rfl, rfl, rfl, rfl⟩
  have hregs : s'.que.regs = s.que.regs.set r.handle l' := by
    subst hs'
    rfl
  have hsub : s'.sub = Function.update s.sub p (some r') := by
    subst hs'
    rfl
  refine ⟨fun p₁ r₁ l₁ hr₁ hl₁ hs₁ => ?_,
    ⟨fun p₁ hp₁ => ?_, ?_, fun h l₁ hl₁ hu₁ => ?_, ?_⟩, hstill⟩
  · by_cases hp : p₁ = p
    · subst hp
      rw [hr] at hr₁
      cases hr₁
      rw [hl] at hl₁
      cases hl₁
      refine ⟨r', l', ?_, ?_, hmove hstill⟩
      · rw [hsub, Function.update_self]
      · rw [hregs, List.getElem?_set_self hlt]
    · refine ⟨r₁, l₁, ?_, ?_, .other hstill⟩
      · rw [hsub, Function.update_of_ne hp, hr₁]
      · rw [hregs, List.getElem?_set_ne (hT.handle_ne hr hr₁ hp).symm, hl₁]
  · rw [hsub, Function.update_of_ne, hp₁]
    rintro rfl
    rw [hr] at hp₁
    cases hp₁
  · rw [hregs, List.length_set]
  · rw [hregs, List.getElem?_set_ne, hl₁]
    rintro rfl
    rw [hl] at hl₁
    cases hl₁
    rw [hu] at hu₁
    cases hu₁
  · subst hs'
    rfl

/-- A subscriber `r` was constructed at address `p`, with the reading position `pos`. -/
structure Entered (s s' : Stream T) (p : Nat) (r : Reader T) (pos : Nat) (given : Bool) :
    Prop where
  absent : s.sub p = none
  sub_eq : s'.sub = Function.update s.sub p (some r)
  slot : s'.que.regs[r.handle]? = some { pos := pos, sub := p, given := given }
  others : ∀ i, i ≠ r.handle → s'.que.regs[i]? = s.que.regs[i]?
  unused : ∀ l, s.que.regs[r.handle]? = some l → l.used = false
  free : FreeList s'.que.regs s'.que.nextFree
  still : Still s s'
  fresh : r.phase = .idle ∧ r.received = [] ∧ r.endInfo = none
  base : ∀ b, r.base = some b → b = s.published.length ∧ pos = sizeSub s.que.pos 1

/-- Where a new subscriber starts reading. -/
inductive Origin (s : Stream T) (p : Nat) : Action T → Nat → Bool → Prop
  | recent (t : SubscribtionType) : Origin s p (.join p t .recent) (sizeSub s.que.pos 1) false
  | «at» (t : SubscribtionType) (pos : UInt64) : Origin s p (.join p t (.at pos)) pos.toNat true
  | copy (q : Nat) (o : Reader T) (l : SubReg) (ho : s.sub q = some o)
      (hl : s.que.regs[o.handle]? = some l) : Origin s p (.copy p q) l.pos l.given

/-- Subscriber `p` was destroyed. -/
structure Left (s s' : Stream T) (p : Nat) (r : Reader T) : Prop where
  present : s.sub p = some r
  sub_eq : s'.sub = Function.update s.sub p none
  slot : ∀ l, s'.que.regs[r.handle]? = some l → l.used = false
  others : ∀ i, i ≠ r.handle → s'.que.regs[i]? = s.que.regs[i]?
  free : FreeList s'.que.regs s'.que.nextFree
  still : Still s s'

/-- `subscribe_lk` for a new subscriber. -/
theorem entered (hT : Table s) (ha : ¬ (s.sub p).isSome) {pos : Nat} {given : Bool}
    {type : SubscribtionType} {base : Option Nat}
    (hs' : s' = s.enter p (s.que.subscribeLk p pos given) type base)
    (hbase : ∀ b, base = some b → b = s.published.length ∧ pos = sizeSub s.que.pos 1) :
    ∃ r, Entered s s' p r pos given := by
  obtain ⟨regs, nextFree, h, heq, hfree, hslot, hothers, hunused⟩ :=
    s.que.subscribeLk_spec p pos given hT.free
  rw [heq] at hs'
  subst hs'
  exact ⟨_, by simpa using ha, rfl, hslot, hothers, hunused, hfree, ⟨rfl, rfl, rfl, rfl, rfl⟩,
    ⟨rfl, rfl, rfl⟩, hbase⟩

/-- `leave_lk` of a subscriber. -/
theorem left (hT : Table s) {que : Queue T} (hr : s.sub p = some r)
    (hq : s.que.leaveLk r.handle = some que)
    (hs' : s' = { s with que := que, sub := Function.update s.sub p none }) : Left s s' p r := by
  obtain ⟨l, hl, hs⟩ := hT.slots p r hr
  have hlt : r.handle < s.que.regs.length := (List.getElem?_eq_some_iff.mp hl).1
  rw [Queue.leaveLk, hl, Option.map_some, Option.some.injEq] at hq
  subst hq hs'
  refine ⟨hr, rfl, fun l' hl' => ?_, fun i hi => List.getElem?_set_ne (Ne.symm hi),
    hT.free.release hl hs.used, ⟨rfl, rfl, rfl, rfl, rfl⟩⟩
  have hset := List.getElem?_set_self (a := { l with pos := s.que.nextFree, used := false }) hlt
  rw [hset] at hl'
  cases hl'
  rfl

/-- A step of a subscriber other than leaving. -/
theorem readerStep_moves (hT : Table s) (hr : s.sub p = some r) {act : ReaderAct}
    (hact : act ≠ .leave) (h : s.readerStep p r act = some s') :
    Moves s s' (.act p act) ∧ Frame s s' ∧ Still s s' := by
  obtain ⟨l, hl, hs⟩ := hT.slots p r hr
  have hsame : { s.que with regs := s.que.regs.set r.handle l } = s.que := by
    rw [← (List.getElem?_eq_some_iff.mp hl).2, List.set_getElem_self]
  cases act with
  | ready =>
      simp only [readerStep, Queue.advanceLk, hl, Option.map_some, Option.ite_none_right_eq_some,
        Option.some.injEq] at h
      exact own_moves hT hr hl hs.used h.2.symm fun hst => .ready hst rfl h.1
  | subscribe =>
      simp only [readerStep, Queue.advanceSuspendLk, hl, Option.map_some,
        Option.ite_none_right_eq_some, Option.some.injEq] at h
      exact own_moves hT hr hl hs.used h.2.symm fun hst => .subscribe hst rfl h.1
  | get =>
      simp only [readerStep, Queue.getValueLk, hl, Option.map_some, Option.bind_some,
        Option.ite_none_right_eq_some, Option.some.injEq] at h
      refine own_moves hT hr hl hs.used ?_ fun hst => .get hst rfl h.1
      rw [hsame, h.2]
  | giveUp =>
      simp only [readerStep, Option.ite_none_right_eq_some, Option.some.injEq] at h
      refine own_moves hT hr hl hs.used ?_ fun hst => .giveUp hst h.1
      rw [hsame, h.2]
  | leave => exact absurd rfl hact

/-- **What a step can do**: every subscriber present moves, or one is constructed, or
one is destroyed. -/
theorem step_cases (hT : Table s) (h : step s a = some s') :
    (Moves s s' a ∧ Frame s s' ∧
        (Still s s' ∨ ∃ vals need, Pushed s s' vals need ∧ s.que.limits.minQueueLen ≤ need)) ∨
      (∃ p r pos given, Entered s s' p r pos given ∧ Origin s p a pos given) ∨
      ∃ p r, a = .act p .leave ∧ Left s s' p r := by
  cases a with
  | publish vals =>
      simp only [step, Option.some.injEq] at h
      left
      by_cases hv : vals.length = 0
      · have hsame : s' = s := by
          simp [← h, Queue.pushAll, List.eq_nil_of_length_eq_zero hv]
        obtain ⟨hm, hf, hst⟩ := same_moves (a := .publish vals) hsame
        exact ⟨hm, hf, .inl hst⟩
      · rw [Queue.pushAll, if_neg hv] at h
        obtain ⟨hm, hf, need, hp⟩ := pushLk_moves (a := .publish vals) vals (fun hc => hc)
          (fun h => absurd (congrArg List.length h) hv) rfl h.symm
        exact ⟨hm, hf, .inr ⟨vals, need, hp⟩⟩
  | close =>
      simp only [step, Option.some.injEq] at h
      left
      by_cases hc : s.que.closed = true
      · have hsame : s' = s := by
          simp [← h, Queue.close, hc]
        obtain ⟨hm, hf, hst⟩ := same_moves (a := .close) hsame
        exact ⟨hm, hf, .inl hst⟩
      · rw [Queue.close, if_neg hc] at h
        obtain ⟨hm, hf, need, hp⟩ :
            Moves s s' .close ∧ Frame s s' ∧
              ∃ need, Pushed s s' [] need ∧ s.que.limits.minQueueLen ≤ need :=
          pushLk_moves [] (fun _ => rfl) (fun _ => rfl) rfl (by rw [← h, List.append_nil]; rfl)
        exact ⟨hm, hf, .inr ⟨[], need, hp⟩⟩
  | kick p =>
      simp only [step, Option.some.injEq] at h
      obtain ⟨hm, hf, hst⟩ := kick_moves (a := .kick p) hT h.symm
      exact .inl ⟨hm, hf, .inl hst⟩
  | join p type start =>
      simp only [step, Option.ite_none_left_eq_some] at h
      obtain ⟨ha, h⟩ := h
      right; left
      cases start with
      | recent =>
          obtain ⟨r, he⟩ := entered hT ha (Option.some.inj h).symm (by simp)
          exact ⟨p, r, _, _, he, .recent type⟩
      | «at» pos =>
          obtain ⟨r, he⟩ := entered hT ha (Option.some.inj h).symm (by simp)
          exact ⟨p, r, _, _, he, .at type pos⟩
  | copy p r =>
      simp only [step, Option.ite_none_left_eq_some] at h
      obtain ⟨ha, h⟩ := h
      obtain ⟨o, ho, h⟩ := Option.bind_eq_some_iff.mp h
      obtain ⟨res, hres, h⟩ := Option.map_eq_some_iff.mp h
      obtain ⟨l, hl, heq⟩ := Option.map_eq_some_iff.mp hres
      subst heq
      obtain ⟨r', he⟩ := entered hT ha h.symm (by simp)
      exact .inr (.inl ⟨p, r', _, _, he, .copy r o l ho hl⟩)
  | act p act =>
      obtain ⟨r, hr, h⟩ := Option.bind_eq_some_iff.mp h
      by_cases hact : act = .leave
      · subst hact
        obtain ⟨que, hq, h⟩ := Option.map_eq_some_iff.mp h
        exact .inr (.inr ⟨p, r, rfl, left hT hr hq h.symm⟩)
      · obtain ⟨hm, hf, hst⟩ := readerStep_moves hT hr hact h
        exact .inl ⟨hm, hf, .inl hst⟩

/-- A new subscriber keeps the table. -/
theorem Entered.table {pos : Nat} {given : Bool} (he : Entered s s' p r pos given)
    (hT : Table s) : Table s' := by
  obtain ⟨hpos, hqueue⟩ := hT.still he.still
  -- the new registration is not that of a subscriber present
  have hne : ∀ p₁ r₁, s.sub p₁ = some r₁ → r₁.handle ≠ r.handle := by
    intro p₁ r₁ hr₁ heq
    obtain ⟨l, hl, hs⟩ := hT.slots p₁ r₁ hr₁
    have hu := he.unused l (heq ▸ hl)
    rw [hs.used] at hu
    cases hu
  refine ⟨fun p₁ r₁ hr₁ => ?_, fun h l hl hu => ?_, he.free, hpos, hqueue⟩
  · rw [he.sub_eq] at hr₁
    by_cases hp : p₁ = p
    · subst hp
      rw [Function.update_self] at hr₁
      cases hr₁
      refine ⟨_, he.slot, rfl, rfl, ?_⟩
      rw [he.fresh.1, if_neg (by decide)]
    · rw [Function.update_of_ne hp] at hr₁
      obtain ⟨l, hl, hs⟩ := hT.slots p₁ r₁ hr₁
      exact ⟨l, by rw [he.others _ (hne p₁ r₁ hr₁), hl], hs⟩
  · rw [he.sub_eq]
    by_cases hh : h = r.handle
    · subst hh
      rw [he.slot] at hl
      cases hl
      exact ⟨r, Function.update_self _ _ _, rfl⟩
    · rw [he.others h hh] at hl
      obtain ⟨r₁, hr₁, hh₁⟩ := hT.owned h l hl hu
      refine ⟨r₁, ?_, hh₁⟩
      rw [Function.update_of_ne, hr₁]
      intro hp
      rw [hp, he.absent] at hr₁
      cases hr₁

/-- A subscriber that leaves keeps the table. -/
theorem Left.table (hl : Left s s' p r) (hT : Table s) : Table s' := by
  obtain ⟨hpos, hqueue⟩ := hT.still hl.still
  refine ⟨fun p₁ r₁ hr₁ => ?_, fun h l hh hu => ?_, hl.free, hpos, hqueue⟩
  · rw [hl.sub_eq] at hr₁
    by_cases hp : p₁ = p
    · rw [hp, Function.update_self] at hr₁
      cases hr₁
    · rw [Function.update_of_ne hp] at hr₁
      obtain ⟨l, hl₁, hs⟩ := hT.slots p₁ r₁ hr₁
      exact ⟨l, by rw [hl.others _ (hT.handle_ne hl.present hr₁ hp), hl₁], hs⟩
  · have hne : h ≠ r.handle := by
      rintro rfl
      rw [hl.slot l hh] at hu
      cases hu
    rw [hl.others h hne] at hh
    obtain ⟨r₁, hr₁, rfl⟩ := hT.owned h l hh hu
    refine ⟨r₁, ?_, rfl⟩
    rw [hl.sub_eq, Function.update_of_ne, hr₁]
    intro hp
    rw [hp, hl.present] at hr₁
    cases hr₁
    exact hne rfl

/-- Every step keeps the table. -/
theorem Table.step (hT : Table s) (h : step s a = some s') : Table s' := by
  rcases step_cases hT h with ⟨hm, hf, hq⟩ | ⟨p, r, pos, given, he, -⟩ | ⟨p, r, -, hl⟩
  · exact hT.of_moves hm hf hq
  · exact he.table hT
  · exact hl.table hT

theorem table_init (limits : Limits) : Table (init (T := T) limits) :=
  ⟨fun p r hr => (by cases hr), fun h l hl => (by cases hl), freeList_nil, rfl, rfl⟩

/-- **The table of registrations is intact after every run.** -/
theorem table_exec (limits : Limits) (as : List (Action T)) :
    Table (Run.exec Stream.step (init limits) as) :=
  Run.exec_inv (fun _ _ _ hT h => hT.step h) (table_init limits) as

/-! ## Properties of one subscriber -/

/-- The registration of subscriber `p`. -/
def reg (s : Stream T) (p : Nat) : Option SubReg := (s.sub p).bind fun r => s.que.regs[r.handle]?

/-- An `advance_suspend_lk` of subscriber `p` does not find the queue closed, unless the
subscriber is kicked. -/
def SuspendsOpen (p : Nat) (s : Stream T) : Action T → Prop
  | .act q .subscribe => q = p → ∀ l ∈ s.reg p, s.que.closed = true → l.kicked = true
  | _ => True

/-- `I` holds of the subscriber at address `p`, when there is one, and of its
registration. -/
def Holds (I : Stream T → Reader T → SubReg → Prop) (p : Nat) (s : Stream T) : Prop :=
  ∀ r l, s.sub p = some r → s.que.regs[r.handle]? = some l → I s r l

/-- **The rule for properties of a subscriber**: what holds of a new subscriber and is
kept by every move of it holds after the step. -/
theorem Holds.step {I : Stream T → Reader T → SubReg → Prop} (hT : Table s)
    (hfresh : ∀ r pos given, Entered s s' p r pos given → Origin s p a pos given →
      I s' r { pos := pos, sub := p, given := given })
    (hmove : ∀ r l r' l', s.sub p = some r → s.que.regs[r.handle]? = some l →
      Slot p r l → I s r l → Move s s' a p r l r' l' → I s' r' l')
    (hI : Holds I p s) (h : Stream.step s a = some s') : Holds I p s' := by
  -- a subscriber that stays where it is while another one comes or goes
  have hother : ∀ r, s.sub p = some r → s'.que.regs[r.handle]? = s.que.regs[r.handle]? →
      Still s s' → ∀ l, s'.que.regs[r.handle]? = some l → I s' r l := by
    intro r hr hsame hst l hl
    obtain ⟨l₁, hl₁, hs⟩ := hT.slots p r hr
    rw [hsame, hl₁] at hl
    cases hl
    exact hmove r l r l hr hl₁ hs (hI r l hr hl₁) (.other hst)
  intro r' l' hr' hl'
  rcases step_cases hT h with ⟨hm, hf, -⟩ | ⟨q, r₁, pos, given, he, ho⟩ | ⟨q, r₁, -, hleft⟩
  · cases hr : s.sub p with
    | none =>
        rw [hf.absent p hr] at hr'
        cases hr'
    | some r =>
        obtain ⟨l, hl, hs⟩ := hT.slots p r hr
        obtain ⟨r₁, l₁, hr₁, hl₁, hmv⟩ := hm p r l hr hl hs
        rw [hr₁] at hr'
        cases hr'
        rw [(hmv.slot hs).1, hl₁] at hl'
        cases hl'
        exact hmove r l r' l' hr hl hs (hI r l hr hl) hmv
  · by_cases hp : p = q
    · subst hp
      rw [he.sub_eq, Function.update_self] at hr'
      cases hr'
      rw [he.slot] at hl'
      cases hl'
      exact hfresh r' pos given he ho
    · rw [he.sub_eq, Function.update_of_ne hp] at hr'
      refine hother r' hr' (he.others _ ?_) he.still l' hl'
      intro heq
      obtain ⟨l, hl, hs⟩ := hT.slots p r' hr'
      have hu := he.unused l (heq ▸ hl)
      rw [hs.used] at hu
      cases hu
  · by_cases hp : p = q
    · rw [hp, hleft.sub_eq, Function.update_self] at hr'
      cases hr'
    · rw [hleft.sub_eq, Function.update_of_ne hp] at hr'
      exact hother r' hr' (hleft.others _ (hT.handle_ne hleft.present hr' hp)) hleft.still l' hl'

/-- Every value received is the one that was published at its position. -/
def Genuine (s : Stream T) (r : Reader T) (_ : SubReg) : Prop :=
  ∀ x ∈ r.received, 0 < x.1 ∧ s.published[x.1 - 1]? = some x.2

/-- A value that was read is the one that was published at its position. -/
theorem readReg_value (hT : Table s) {t : SubscribtionType} {n : Nat} {v : T}
    (h : s.que.readReg l t = .value n v) : 0 < n ∧ s.published[n - 1]? = some v := by
  unfold Queue.readReg at h
  split at h
  · cases h
  · next i _ =>
      split at h
      · next w hw =>
          cases h
          have hlt : i < s.que.q.length := (List.getElem?_eq_some_iff.mp hw).1
          obtain ⟨hat, hin⟩ := hT.q_getElem? hlt
          have hpos := hT.pos_eq
          refine ⟨by omega, ?_⟩
          rw [← hw, hat]
          congr 1
          omega
      · cases h

/-- **Every value received was published at its position**, in every run and for every
mode. -/
theorem genuine_exec (limits : Limits) (p : Nat) (as : List (Action T)) :
    Holds Genuine p (Run.exec Stream.step (init limits) as) := by
  have hstep : ∀ (s : Stream T) a s', Table s ∧ Holds Genuine p s → Stream.step s a = some s' →
      Table s' ∧ Holds Genuine p s' := by
    intro s a s' hs h
    obtain ⟨hT, hG⟩ := hs
    refine ⟨hT.step h, Holds.step hT (fun r _ _ he _ => ?_) (fun r l r' l' _ _ _ hr hm => ?_) hG h⟩
    · intro x hx
      rw [he.fresh.2.1] at hx
      simp at hx
    · cases hm with
      | other hst | ready hst | subscribe hst | giveUp hst =>
          intro x hx
          rw [hst.published_eq]
          exact hr x hx
      | pushed vals need hp =>
          intro x hx
          obtain ⟨h0, hat⟩ := hr x (r.woken_received ▸ hx)
          rw [hp.published_eq, List.getElem?_append_left (List.getElem?_eq_some_iff.mp hat).1]
          exact ⟨h0, hat⟩
      | kicked hst =>
          intro x hx
          rw [hst.published_eq]
          exact hr x (r.woken_received ▸ hx)
      | get hst =>
          intro x hx
          rw [hst.published_eq]
          unfold receive at hx
          split at hx
          · next hread =>
              rcases List.mem_append.mp hx with hx | hx
              · exact hr x hx
              · rw [List.mem_singleton.mp hx]
                exact readReg_value hT hread
          · exact hr x hx
          · exact hr x hx
  exact (Run.exec_inv hstep ⟨table_init limits, fun r l hr => (by cases hr)⟩ as).2

end Stream

end Publisher

end Cocls
