import Cocls.Publisher.Table

/-!
# Cocls.Publisher.Slots

The slots of the table of registrations: who has one, and which are free.

A handle is the index of a slot.  It is given out by `subscribe_lk` and comes
back with `leave_lk`; here whoever holds one may do anything with it that the
queue offers, and the subscribers it is given out for need not be different.
`Stream` is a program that uses the queue so.
-/

namespace Cocls

namespace Publisher

/-- A queue, and the handles that were given out and did not come back. -/
structure Slots (T : Type*) where
  que : Queue T
  live : List Nat := []

namespace Slots

variable {T : Type*}

inductive Op (T : Type*) where
  /-- `subscribe_lk(sub)` -/
  | subscribe (sub : Nat)
  /-- `subscribe_lk(sub, pos)` -/
  | subscribeAt (sub pos : Nat)
  /-- `subscribe_lk(h, sub)` -/
  | subscribeCopy (h sub : Nat)
  | leave (h : Nat)
  /-- `advance_lk` -/
  | advance (h : Nat) (t : SubscribtionType)
  /-- `advance_suspend_lk` -/
  | suspend (h awt : Nat)
  | publish (vals : List T)
  | close
  | kick (sub : Nat)

/-- A handle is given out. -/
def give (s : Slots T) (r : Queue T × Nat) : Slots T := ⟨r.1, r.2 :: s.live⟩

/-- One operation, with a handle that is live. -/
def step (s : Slots T) : Op T → Option (Slots T)
  | .subscribe sub => some (s.give (s.que.subscribeRecentLk sub))
  | .subscribeAt sub pos => some (s.give (s.que.subscribeLk sub pos true))
  | .subscribeCopy h sub =>
      if h ∈ s.live then (s.que.subscribeCopyLk h sub).map s.give else none
  | .leave h =>
      if h ∈ s.live then (s.que.leaveLk h).map fun que => ⟨que, s.live.erase h⟩ else none
  | .advance h t =>
      if h ∈ s.live then (s.que.advanceLk h t).map fun r => { s with que := r.1 } else none
  | .suspend h awt =>
      if h ∈ s.live then (s.que.advanceSuspendLk h awt).map fun r => { s with que := r.1 } else none
  | .publish vals => some { s with que := (s.que.pushAll vals).1 }
  | .close => some { s with que := s.que.close.1 }
  | .kick sub => some { s with que := (s.que.kick sub).1 }

/-- The queue of a publisher before its first subscriber. -/
def init (limits : Limits) : Slots T := { que := { limits := limits } }

/-- The operation is a `subscribe_lk`. -/
def Op.subscribes : Op T → Bool
  | .subscribe _ | .subscribeAt _ _ | .subscribeCopy _ _ => true
  | _ => false

/-- Slots are not shared. -/
structure Apart (s : Slots T) : Prop where
  distinct : s.live.Nodup
  /-- the live handles are the indices of the slots in use -/
  held : ∀ h, h ∈ s.live ↔ ∃ l, s.que.regs[h]? = some l ∧ l.used = true
  /-- from `_next_free` the positions lead through every slot that is not in use, once, to the
  end of the table -/
  chain : ∃ fs : List Nat, fs.Nodup ∧
    Links (freeNext s.que.regs) (some s.que.nextFree) fs (some s.que.regs.length) ∧
    ∀ f, f ∈ fs ↔ ∃ l, s.que.regs[f]? = some l ∧ l.used = false
  /-- a new handle is not live yet, and its slot has nothing of a former owner; the slots of the
  others are as they were -/
  subscribed : ∀ op s', op.subscribes = true → s.step op = some s' →
    ∃ h l, h ∉ s.live ∧ s'.live = h :: s.live ∧ s'.que.regs[h]? = some l ∧ l.used = true ∧
      l.awt = none ∧ l.kicked = false ∧ ∀ i ∈ s.live, s'.que.regs[i]? = s.que.regs[i]?
  /-- the slots of the others are as they were when a handle comes back -/
  left : ∀ h s', s.step (.leave h) = some s' →
    ∀ i ∈ s.live, i ≠ h → i ∈ s'.live ∧ s'.que.regs[i]? = s.que.regs[i]?

/-! ## The chain is complete -/

/-- The slots that are not in use are chained, all of them. -/
structure FreeSlots (regs : List SubReg) (nextFree : Nat) (fs : List Nat) : Prop where
  chain : Chain regs nextFree fs
  complete : ∀ (f : Nat) (l : SubReg), regs[f]? = some l → l.used = false → f ∈ fs

/-- The same slots are in use, and the others are as they were. -/
structure SameUse (regs regs' : List SubReg) : Prop where
  length_eq : regs'.length = regs.length
  used : ∀ (f : Nat) (l : SubReg), regs[f]? = some l → l.used = true →
    ∃ l', regs'[f]? = some l' ∧ l'.used = true
  unused : ∀ (f : Nat) (l : SubReg), regs[f]? = some l → l.used = false → regs'[f]? = some l

section Tables

variable {regs regs' : List SubReg} {nextFree : Nat} {fs : List Nat}

theorem FreeSlots.agree (h : FreeSlots regs nextFree fs) (hs : SameUse regs regs') :
    FreeSlots regs' nextFree fs := by
  refine ⟨h.chain.agree hs.length_eq hs.unused, fun f l' hl' hu' => ?_⟩
  have hlt : f < regs.length := hs.length_eq ▸ (List.getElem?_eq_some_iff.mp hl').1
  have hl : regs[f]? = some regs[f] := List.getElem?_eq_getElem hlt
  refine h.complete f _ hl ?_
  by_contra hu
  obtain ⟨l'', hl'', hu''⟩ := hs.used f _ hl (by simpa using hu)
  rw [hl'] at hl''
  cases hl''
  rw [hu'] at hu''
  cases hu''

/-- A slot that comes back is the first of the chain. -/
theorem FreeSlots.release (hf : FreeSlots regs nextFree fs) {h : Nat} {l : SubReg}
    (hl : regs[h]? = some l) (hu : l.used = true) :
    FreeSlots (regs.set h { l with pos := nextFree, used := false }) h (h :: fs) := by
  refine ⟨hf.chain.release hl hu, fun f l' hl' hu' => ?_⟩
  by_cases hfh : f = h
  · exact hfh ▸ List.mem_cons_self
  · rw [List.getElem?_set_ne (Ne.symm hfh)] at hl'
    exact List.mem_cons_of_mem _ (hf.complete f l' hl' hu')

/-- A slot in use gets another content. -/
theorem sameUse_set {h : Nat} {l l' : SubReg} (hl : regs[h]? = some l) (hu : l.used = true)
    (hu' : l'.used = true) : SameUse regs (regs.set h l') := by
  have hlt : h < regs.length := (List.getElem?_eq_some_iff.mp hl).1
  refine ⟨List.length_set, fun f x hx hxu => ?_, fun f x hx hxu => ?_⟩
  · by_cases hf : f = h
    · subst hf
      exact ⟨l', List.getElem?_set_self hlt, hu'⟩
    · exact ⟨x, by rw [List.getElem?_set_ne (Ne.symm hf), hx], hxu⟩
  · rw [List.getElem?_set_ne, hx]
    rintro rfl
    rw [hl] at hx
    cases hx
    rw [hu] at hxu
    cases hxu

/-- A change of every slot that leaves it in use, or as it is. -/
theorem sameUse_map {g : SubReg → SubReg} (hused : ∀ x, (g x).used = x.used)
    (hsame : ∀ x : SubReg, x.used = false → g x = x) : SameUse regs (regs.map g) := by
  refine ⟨List.length_map _, fun f x hx hxu => ?_, fun f x hx hxu => ?_⟩
  · exact ⟨g x, by rw [List.getElem?_map, hx]; rfl, by rw [hused, hxu]⟩
  · rw [List.getElem?_map, hx, Option.map_some, hsame x hxu]

end Tables

/-! ## Every operation -/

/-- The invariant: the slots in use are those of the live handles, the others are chained. -/
structure Inv (s : Slots T) : Prop where
  nodup : s.live.Nodup
  mem_iff : ∀ h, h ∈ s.live ↔ ∃ l, s.que.regs[h]? = some l ∧ l.used = true
  free : ∃ fs, FreeSlots s.que.regs s.que.nextFree fs

variable {s s' : Slots T}

/-- What `subscribe_lk` does to the table, for whatever subscriber and position. -/
structure Given (s s' : Slots T) (h : Nat) (l : SubReg) : Prop where
  notLive : h ∉ s.live
  live_eq : s'.live = h :: s.live
  slot : s'.que.regs[h]? = some l
  fresh : l.used = true ∧ l.awt = none ∧ l.kicked = false
  others : ∀ i, i ≠ h → s'.que.regs[i]? = s.que.regs[i]?
  free : ∃ fs, FreeSlots s'.que.regs s'.que.nextFree fs

theorem Inv.given (hi : Inv s) (sub pos : Nat) (given : Bool) :
    ∃ h l, Given s (s.give (s.que.subscribeLk sub pos given)) h l := by
  obtain ⟨fs, hc, hcomplete⟩ := hi.free
  obtain ⟨regs, nextFree, h, heq, hc', hfs, hslot, hothers, hunused⟩ :=
    s.que.chain_subscribeLk sub pos given hc
  rw [heq]
  refine ⟨h, _, ?_, rfl, hslot, ⟨rfl, rfl, rfl⟩, hothers, fs.tail, hc', fun f l hl hu => ?_⟩
  · intro hmem
    obtain ⟨l, hl, hu⟩ := (hi.mem_iff h).mp hmem
    rw [hunused l hl] at hu
    cases hu
  · -- every other slot that is not in use was chained before
    have hne : f ≠ h := by
      rintro rfl
      have hl' : regs[f]? = some l := hl
      rw [hslot] at hl'
      cases hl'
      cases hu
    have hmem : f ∈ fs := hcomplete f l ((hothers f hne).symm.trans hl) hu
    rw [hfs] at hmem
    split at hmem
    · exact (List.mem_cons.mp hmem).resolve_left hne
    · cases hmem

theorem Inv.of_given (hi : Inv s) {h : Nat} {l : SubReg} (hg : Given s s' h l) : Inv s' := by
  refine ⟨?_, fun i => ?_, hg.free⟩
  · rw [hg.live_eq]
    exact List.nodup_cons.mpr ⟨hg.notLive, hi.nodup⟩
  · rw [hg.live_eq, List.mem_cons]
    by_cases hih : i = h
    · subst hih
      exact ⟨fun _ => ⟨l, hg.slot, hg.fresh.1⟩, fun _ => .inl rfl⟩
    · rw [hg.others i hih, ← hi.mem_iff i]
      exact ⟨fun hmem => hmem.resolve_left hih, .inr⟩

/-- An operation that gives out no handle and takes none back. -/
theorem Inv.sameUse (hi : Inv s) {que : Queue T} (hs : SameUse s.que.regs que.regs)
    (hn : que.nextFree = s.que.nextFree) : Inv { s with que := que } := by
  refine ⟨hi.nodup, fun h => ?_, ?_⟩
  · rw [hi.mem_iff h]
    constructor
    · rintro ⟨l, hl, hu⟩
      exact hs.used h l hl hu
    · rintro ⟨l', hl', hu'⟩
      have hlt : h < s.que.regs.length := hs.length_eq ▸ (List.getElem?_eq_some_iff.mp hl').1
      refine ⟨_, List.getElem?_eq_getElem hlt, ?_⟩
      by_contra hu
      have hsame := hs.unused h _ (List.getElem?_eq_getElem hlt) (by simpa using hu)
      rw [hsame] at hl'
      cases hl'
      exact hu hu'
  · obtain ⟨fs, hf⟩ := hi.free
    exact ⟨fs, by rw [hn]; exact hf.agree hs⟩

/-- `leave_lk`. -/
theorem Inv.leave (hi : Inv s) {h : Nat} (hs : s.step (.leave h) = some s') :
    Inv s' ∧ s'.live = s.live.erase h ∧ ∀ i, i ≠ h → s'.que.regs[i]? = s.que.regs[i]? := by
  simp only [Slots.step, Option.ite_none_right_eq_some, Option.map_eq_some_iff] at hs
  obtain ⟨hmem, que, hq, rfl⟩ := hs
  obtain ⟨l, hl, hu⟩ := (hi.mem_iff h).mp hmem
  rw [Queue.leaveLk, hl, Option.map_some, Option.some.injEq] at hq
  subst hq
  have hlt : h < s.que.regs.length := (List.getElem?_eq_some_iff.mp hl).1
  have hothers : ∀ i, i ≠ h →
      (s.que.regs.set h { l with pos := s.que.nextFree, used := false })[i]? = s.que.regs[i]? :=
    fun i hih => List.getElem?_set_ne (Ne.symm hih)
  refine ⟨⟨hi.nodup.erase h, fun i => ?_, ?_⟩, rfl, hothers⟩
  · rw [hi.nodup.mem_erase_iff]
    by_cases hih : i = h
    · subst hih
      have hset := List.getElem?_set_self (a := { l with pos := s.que.nextFree, used := false }) hlt
      simp [hset]
    · rw [hothers i hih, ← hi.mem_iff i]
      exact ⟨fun hmem => hmem.2, fun hmem => ⟨hih, hmem⟩⟩
  · obtain ⟨fs, hf⟩ := hi.free
    exact ⟨h :: fs, hf.release hl hu⟩

/-- `subscribe_lk`, in each of its forms. -/
theorem Inv.subscribe (hi : Inv s) {op : Op T} (hop : op.subscribes = true)
    (hs : s.step op = some s') : ∃ h l, Given s s' h l := by
  cases op with
  | subscribe sub => cases hs; exact hi.given sub _ _
  | subscribeAt sub pos => cases hs; exact hi.given sub pos _
  | subscribeCopy h sub =>
      simp only [Slots.step, Option.ite_none_right_eq_some, Option.map_eq_some_iff] at hs
      obtain ⟨-, r, hr, rfl⟩ := hs
      obtain ⟨l, -, rfl⟩ := Option.map_eq_some_iff.mp hr
      exact hi.given sub l.pos _
  | _ => cases hop

/-- `push_lk` only takes awaiters away. -/
theorem sameUse_awakened (que : Queue T) : SameUse que.regs que.awakened :=
  sameUse_map (fun x => by split <;> simp_all) fun x hx => by rw [if_neg (by rw [hx]; decide)]

/-- `kick` finds a slot in use. -/
theorem sameUse_kick (que : Queue T) (sub : Nat) :
    SameUse que.regs (que.kick sub).1.regs ∧ (que.kick sub).1.nextFree = que.nextFree := by
  rw [Queue.kick]
  split
  · exact ⟨⟨rfl, fun f l hl hu => ⟨l, hl, hu⟩, fun f l hl _ => hl⟩, rfl⟩
  · next i hfind =>
    obtain ⟨hlt, hp, -⟩ := List.findIdx?_eq_some_iff_getElem.mp hfind
    have hu : que.regs[i].used = true := by
      simp only [Bool.and_eq_true] at hp
      exact hp.1
    refine ⟨?_, rfl⟩
    rw [List.modify_eq_set_getElem?, List.getElem?_eq_getElem hlt]
    exact sameUse_set (List.getElem?_eq_getElem hlt) hu hu

/-- `push_lk` of whatever was put in front of the queue. -/
theorem Inv.pushLk (hi : Inv s) (que : Queue T) (n : Nat) (hr : que.regs = s.que.regs)
    (hn : que.nextFree = s.que.nextFree) : Inv { s with que := (que.pushLk n).1 } := by
  have hs := sameUse_awakened que
  rw [hr] at hs
  exact hi.sameUse hs hn

/-- An operation on the slot of a live handle. -/
theorem Inv.setSlot (hi : Inv s) {h : Nat} (hmem : h ∈ s.live) {que : Queue T}
    (hs : ∃ l l', s.que.regs[h]? = some l ∧ que = { s.que with regs := s.que.regs.set h l' } ∧
      l'.used = l.used) : Inv { s with que := que } := by
  obtain ⟨l, l', hl, rfl, hu'⟩ := hs
  obtain ⟨l₁, hl₁, hu⟩ := (hi.mem_iff h).mp hmem
  rw [hl] at hl₁
  cases hl₁
  exact hi.sameUse (sameUse_set hl hu (hu'.trans hu)) rfl

theorem Inv.step (hi : Inv s) {op : Op T} (hs : s.step op = some s') : Inv s' := by
  by_cases hop : op.subscribes = true
  · obtain ⟨h, l, hg⟩ := hi.subscribe hop hs
    exact hi.of_given hg
  · cases op with
    | subscribe | subscribeAt | subscribeCopy => exact absurd rfl hop
    | leave h => exact (hi.leave hs).1
    | advance h t =>
        simp only [Slots.step, Option.ite_none_right_eq_some, Option.map_eq_some_iff] at hs
        obtain ⟨hmem, r, hr, rfl⟩ := hs
        obtain ⟨l, hl, rfl⟩ := Option.map_eq_some_iff.mp hr
        refine hi.setSlot hmem ⟨l, _, hl, rfl, ?_⟩
        obtain ⟨-, heq⟩ | ⟨-, -, heq⟩ | ⟨-, -, heq⟩ := s.que.advanceReg_cases l t <;> rw [heq]
    | suspend h awt =>
        simp only [Slots.step, Option.ite_none_right_eq_some, Option.map_eq_some_iff] at hs
        obtain ⟨hmem, r, hr, rfl⟩ := hs
        obtain ⟨l, hl, rfl⟩ := Option.map_eq_some_iff.mp hr
        refine hi.setSlot hmem ⟨l, _, hl, rfl, ?_⟩
        obtain ⟨-, heq⟩ | ⟨-, -, -, heq⟩ | ⟨-, -, -, heq⟩ := s.que.suspendReg_cases l awt <;>
          rw [heq]
    | publish vals =>
        cases hs
        rw [Queue.pushAll]
        split
        · exact hi
        · exact hi.pushLk { s.que with q := vals.reverse ++ s.que.q } vals.length rfl rfl
    | close =>
        cases hs
        rw [Queue.close]
        split
        · exact hi
        · exact hi.pushLk { s.que with closed := true } 0 rfl rfl
    | kick sub =>
        cases hs
        obtain ⟨hsame, hn⟩ := sameUse_kick s.que sub
        exact hi.sameUse hsame hn

theorem inv_init (limits : Limits) : Inv (init limits : Slots T) :=
  ⟨List.nodup_nil, fun _ => by simp [init], [], chain_nil, fun _ _ hl => by cases hl⟩

theorem Inv.apart (hi : Inv s) : Apart s where
  distinct := hi.nodup
  held := hi.mem_iff
  chain := by
    obtain ⟨fs, hc, hcomplete⟩ := hi.free
    exact ⟨fs, hc.nodup, hc.links, fun f => ⟨hc.unused f, fun ⟨l, hl, hu⟩ => hcomplete f l hl hu⟩⟩
  subscribed op s' hop hs := by
    obtain ⟨h, l, hg⟩ := hi.subscribe hop hs
    refine ⟨h, l, hg.notLive, hg.live_eq, hg.slot, hg.fresh.1, hg.fresh.2.1, hg.fresh.2.2,
      fun i hmem => hg.others i ?_⟩
    rintro rfl
    exact hg.notLive hmem
  left h s' hs i hmem hne := by
    obtain ⟨-, hlive, hothers⟩ := hi.leave hs
    refine ⟨?_, hothers i hne⟩
    rw [hlive]
    exact (List.mem_erase_of_ne hne).mpr hmem

/-- **Slots are never shared**: in every state that any sequence of operations gets to. -/
theorem apart_exec (limits : Limits) (ops : List (Op T)) :
    Apart (Run.exec step (init limits) ops) := by
  have hstep : ∀ (s : Slots T) op s', Inv s → s.step op = some s' → Inv s' :=
    fun _ _ _ hi hs => hi.step hs
  exact (Run.exec_inv hstep (inv_init limits) ops).apart

/-! ## The queue of a publisher and its subscribers -/

section Streams

variable {st st' : Stream T}

/-- The handles of the subscribers of `st` are live. -/
structure Serves (s : Slots T) (st : Stream T) : Prop where
  que_eq : s.que = st.que
  live : ∀ p r, st.sub p = some r → r.handle ∈ s.live

/-- Awaiters are resumed: the handles stay. -/
theorem Serves.resumeAll {que : Queue T} (hlive : ∀ p r, st.sub p = some r → r.handle ∈ s.live)
    (wk : List Nat) (published : List T) :
    Serves { s with que := que } ⟨que, Stream.resumeAll st.sub wk, published⟩ := by
  refine ⟨rfl, fun p r hr => ?_⟩
  obtain ⟨r₀, hr₀, rfl⟩ := Option.map_eq_some_iff.mp hr
  have hmem := hlive p r₀ hr₀
  split <;> exact hmem

/-- A subscriber goes on with the handle it has. -/
theorem Serves.setReader {que : Queue T} (hlive : ∀ p r, st.sub p = some r → r.handle ∈ s.live)
    {p : Nat} {r r' : Reader T} (hr : st.sub p = some r) (hh : r'.handle = r.handle) :
    Serves { s with que := que } (st.setReader p que r') := by
  refine ⟨rfl, fun q r₁ hr₁ => ?_⟩
  by_cases hq : q = p
  · subst hq
    obtain rfl : r' = r₁ := by simpa [Stream.setReader] using hr₁
    rw [hh]
    exact hlive q r hr
  · exact hlive q r₁ (by simpa [Stream.setReader, hq] using hr₁)

/-- A new subscriber gets a handle. -/
theorem Serves.enter (hlive : ∀ p r, st.sub p = some r → r.handle ∈ s.live) (p : Nat)
    (res : Queue T × Nat) (type : SubscribtionType) (base : Option Nat) :
    Serves (s.give res) (st.enter p res type base) := by
  refine ⟨rfl, fun q r hr => ?_⟩
  by_cases hq : q = p
  · subst hq
    have hr' : some { handle := res.2, type := type, base := base } = some r := by
      simpa [Stream.enter] using hr
    cases hr'
    exact List.mem_cons_self
  · exact List.mem_cons_of_mem _ (hlive q r (by simpa [Stream.enter, hq] using hr))

/-- **A step of a publisher is one of the queue**, or leaves it as it is. -/
theorem Serves.step (hv : Serves s st) (hT : Stream.Table st) {a : Stream.Action T}
    (h : Stream.step st a = some st') : ∃ ops, Serves (Run.exec Slots.step s ops) st' := by
  obtain ⟨que, live⟩ := s
  obtain ⟨rfl, hlive⟩ := hv
  have hone : ∀ op {s'}, Slots.step ⟨st.que, live⟩ op = some s' → Serves s' st' →
      ∃ ops, Serves (Run.exec Slots.step ⟨st.que, live⟩ ops) st' := by
    intro op s₁ hs hv
    exact ⟨[op], by rw [Run.exec_cons, Run.exec_nil, Run.tryStep_of_some _ _ hs]; exact hv⟩
  cases a with
  | publish vals => cases h; exact hone (.publish vals) rfl (.resumeAll hlive _ _)
  | close => cases h; exact hone .close rfl (.resumeAll hlive _ _)
  | kick p => cases h; exact hone (.kick p) rfl (.resumeAll hlive _ _)
  | join p type start =>
      simp only [Stream.step, Option.ite_none_left_eq_some] at h
      obtain ⟨-, h⟩ := h
      cases start with
      | recent => cases h; exact hone (.subscribe p) rfl (.enter hlive p _ type _)
      | «at» pos => cases h; exact hone (.subscribeAt p pos.toNat) rfl (.enter hlive p _ type _)
  | copy p r =>
      simp only [Stream.step, Option.ite_none_left_eq_some] at h
      obtain ⟨-, h⟩ := h
      obtain ⟨o, ho, h⟩ := Option.bind_eq_some_iff.mp h
      obtain ⟨res, hres, rfl⟩ := Option.map_eq_some_iff.mp h
      exact hone (.subscribeCopy o.handle p) (by simp [Slots.step, hlive r o ho, hres])
        (.enter hlive p res o.type _)
  | act p act =>
      obtain ⟨r, hr, h⟩ := Option.bind_eq_some_iff.mp h
      have hmem := hlive p r hr
      cases act with
      | ready =>
          simp only [Stream.readerStep, Option.ite_none_right_eq_some] at h
          obtain ⟨res, hres, rfl⟩ := Option.map_eq_some_iff.mp h.2
          exact hone (.advance r.handle r.type) (by simp [Slots.step, hmem, hres])
            (.setReader hlive hr rfl)
      | subscribe =>
          simp only [Stream.readerStep, Option.ite_none_right_eq_some] at h
          obtain ⟨res, hres, rfl⟩ := Option.map_eq_some_iff.mp h.2
          exact hone (.suspend r.handle p) (by simp [Slots.step, hmem, hres])
            (.setReader hlive hr rfl)
      | get =>
          simp only [Stream.readerStep, Option.ite_none_right_eq_some] at h
          obtain ⟨l, -, h⟩ := Option.bind_eq_some_iff.mp h.2
          obtain ⟨res, -, rfl⟩ := Option.map_eq_some_iff.mp h
          exact ⟨[], .setReader hlive hr (by cases res <;> rfl)⟩
      | giveUp =>
          simp only [Stream.readerStep, Option.ite_none_right_eq_some] at h
          cases h.2
          exact ⟨[], .setReader hlive hr rfl⟩
      | leave =>
          obtain ⟨que, hq, rfl⟩ := Option.map_eq_some_iff.mp h
          refine hone (.leave r.handle) (by simp [Slots.step, hmem, hq]; rfl) ⟨rfl, ?_⟩
          -- the others have other handles
          intro q r₁ hr₁
          by_cases hqp : q = p
          · subst hqp
            simp at hr₁
          · have hr₁' : st.sub q = some r₁ := by simpa [hqp] using hr₁
            exact (List.mem_erase_of_ne (hT.handle_ne hr hr₁' hqp)).mpr (hlive q r₁ hr₁')

/-- **Every run of a publisher with its subscribers is a run of its queue.** -/
theorem exists_exec_que (limits : Limits) (as : List (Stream.Action T)) :
    ∃ ops, Serves (Run.exec Slots.step (init limits) ops)
      (Run.exec Stream.step (Stream.init limits) as) := by
  have hstep : ∀ (st : Stream T) a st', (Stream.Table st ∧
      ∃ ops, Serves (Run.exec Slots.step (init limits) ops) st) → Stream.step st a = some st' →
        Stream.Table st' ∧ ∃ ops, Serves (Run.exec Slots.step (init limits) ops) st' := by
    rintro st a st' ⟨hT, ops, hv⟩ h
    obtain ⟨ops', hv'⟩ := hv.step hT h
    exact ⟨hT.step h, ops ++ ops', by rw [Run.exec_append]; exact hv'⟩
  have hinit : Serves (Run.exec Slots.step (init limits) []) (Stream.init limits : Stream T) :=
    ⟨rfl, fun p r hr => by cases hr⟩
  exact (Run.exec_inv hstep ⟨Stream.table_init limits, [], hinit⟩ as).2

end Streams

end Slots

end Publisher

end Cocls
