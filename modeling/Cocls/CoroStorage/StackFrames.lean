import Mathlib.Data.List.Nodup
import Cocls.CoroStorage.StackStorage

/-!
# Cocls.CoroStorage.StackFrames

No memory in use is handed out by `stack_storage`, as long as each storage has one
frame at a time on the stack, and not longer than the function runs.

The blocks in use have one holder each, the stack frame of a function or a frame on
the heap; the byte behind a frame says which of the two.
-/

open Owners

namespace Cocls

namespace CoroStorage

namespace Stacks

variable {s s' : Stacks} {f : Frame} {b k : Nat} {st : StackStorage}

/-! ## The invariant -/

/-- Who has a block. -/
inductive Holder where
  | storage (k : Nat)
  | frame

/-- The block is there; `fs` are the frames. -/
def Holds (s : Stacks) (fs : List Frame) : Holder → Nat → Prop
  | .storage k, b => ∃ st, s.storage k = some st ∧ st.allocPtr = b
  | .frame, b => ∃ f ∈ fs, f.ptr = some b ∧ ¬ s.OnStack f

/-- The byte behind a frame says where it is. -/
def Recovered (s : Stacks) (f : Frame) : Prop :=
  (s.OnStack f ∧ s.flag f = some false) ∨ (¬ s.OnStack f ∧ s.flag f = some true)

/-- Memory is taken for the frames `fs`; behind those that were handed out is the byte that says
where they are. -/
structure InvAt (s : Stacks) (fs : List Frame) : Prop where
  defined : s.undefined = false
  kept : BlockHeap.Kept (s.Holds fs) s.heap
  distinct : (fs.map Frame.ptr).Nodup
  recovered : ∀ f ∈ s.frames, s.Recovered f
  sizes : ∀ k st, s.storage k = some st → s.heap.size st.allocPtr = st.allocSize
  range : ∀ b, s.heap.size b < sizeRange
  state : ∀ v, s.state v < sizeRange

/-- Between two calls. -/
def Inv (s : Stacks) : Prop := InvAt s s.frames

theorem inv_start (bytes : Nat → Nat → BlockByte Nat) (state : Nat → Fin sizeRange) :
    Inv (start bytes state) where
  defined := rfl
  kept := BlockHeap.kept_empty fun x b hx => by
    cases x with
    | storage k => obtain ⟨st, hst, -⟩ := hx; cases hst
    | frame => obtain ⟨f, hf, -⟩ := hx; cases hf
  distinct := List.nodup_nil
  recovered _ hf := by cases hf
  sizes _ _ hst := by cases hst
  range _ := Nat.two_pow_pos 64
  state v := (state v).isLt

/-- The byte behind a frame is in a block in use. -/
theorem flag_eq_some {v : Bool} : s.flag f = some v ↔
    ∃ b n, f.ptr = some b ∧ s.heap.Inside b f.size 1 ∧ s.heap.bytes b f.size = .data n ∧
      (n != 0) = v := by
  rw [flag]
  cases hp : f.ptr with
  | none => simp
  | some b =>
      by_cases hin : s.heap.Inside b f.size 1
      · cases hn : s.heap.bytes b f.size <;> simp [hin, hn]
      · simp [hin]

/-- Blocks come and go, but not that of the frame: the byte behind it is still there. -/
theorem flag_congr {v : Bool} (hv : s.flag f = some v)
    (h : ∀ b, f.ptr = some b → s'.heap.InUse b ∧ s'.heap.size b = s.heap.size b ∧
      s'.heap.bytes b f.size = s.heap.bytes b f.size) : s'.flag f = some v := by
  obtain ⟨b, n, hb, hin, hn, hnv⟩ := flag_eq_some.mp hv
  obtain ⟨huse, hsize, hbytes⟩ := h b hb
  exact flag_eq_some.mpr ⟨b, n, hb, ⟨huse, by rw [hsize]; exact hin.2⟩, by rw [hbytes, hn], hnv⟩

theorem Recovered.congr (hr : s.Recovered f) (ho : s'.OnStack f ↔ s.OnStack f)
    (h : ∀ b, f.ptr = some b → s'.heap.InUse b ∧ s'.heap.size b = s.heap.size b ∧
      s'.heap.bytes b f.size = s.heap.bytes b f.size) : s'.Recovered f := by
  obtain ⟨hon, hflag⟩ | ⟨hon, hflag⟩ := hr
  · exact .inl ⟨ho.mpr hon, flag_congr hflag h⟩
  · exact .inr ⟨fun hs => hon (ho.mp hs), flag_congr hflag h⟩

/-- A frame with the byte behind it is in a block in use. -/
theorem Recovered.inside (hr : s.Recovered f) :
    ∃ b, f.ptr = some b ∧ s.heap.Inside b f.size 1 := by
  obtain ⟨-, hflag⟩ | ⟨-, hflag⟩ := hr
  · obtain ⟨b, n, hb, hin, -⟩ := flag_eq_some.mp hflag
    exact ⟨b, hb, hin⟩
  · obtain ⟨b, n, hb, hin, -⟩ := flag_eq_some.mp hflag
    exact ⟨b, hb, hin⟩

theorem Inv.inUse (hi : Inv s) (hf : f ∈ s.frames) (hb : f.ptr = some b) : s.heap.InUse b := by
  obtain ⟨c, hc, hin⟩ := (hi.recovered f hf).inside
  obtain rfl : b = c := Option.some.inj (hb.symm.trans hc)
  exact hin.1

theorem Inv.eq_of_ptr (hi : Inv s) {g : Frame} (hf : f ∈ s.frames) (hg : g ∈ s.frames)
    (hp : f.ptr = g.ptr) : f = g :=
  List.inj_on_of_nodup_map hi.distinct hf hg hp

/-- The memory of a stack frame is in use. -/
theorem Inv.storage_inUse (hi : Inv s) (hk : s.storage k = some st) : s.heap.InUse st.allocPtr :=
  hi.kept.inUse (x := .storage k) ⟨st, hk, rfl⟩

/-! ## A function is called, and returns -/

theorem Inv.enter (hi : Inv s) {v : Nat} (hk : s.storage k = none) : Inv (s.enter k v) := by
  have hold : ∀ f ∈ s.frames, (s.enter k v).OnStack f ↔ s.OnStack f := by
    intro f hf
    have hne : f.ptr ≠ some s.heap.count := fun hp =>
      Nat.lt_irrefl _ (hi.inUse hf hp).1
    simp only [OnStack, Stacks.enter, Function.update_apply]
    grind
  refine ⟨hi.defined, ?_, hi.distinct, fun f hf => ?_, fun j sj hj => ?_, fun c => ?_, hi.state⟩
  · refine hi.kept.alloc (.storage k) (fun x c => ?_) _
    cases x with
    | storage j =>
        by_cases hjk : j = k
        · subst hjk
          simp [Holds, Stacks.enter, hk, eq_comm]
        · simp [Holds, Stacks.enter, hjk]
    | frame =>
        simp only [Holds]
        constructor
        · rintro ⟨f, hf, hfb, ho⟩
          exact .inr ⟨f, hf, hfb, (hold f hf).not.mp ho⟩
        · rintro (h | ⟨f, hf, hfb, ho⟩)
          · cases h.1
          · exact ⟨f, hf, hfb, (hold f hf).not.mpr ho⟩
  · refine (hi.recovered f hf).congr (hold f hf) fun c hc => ?_
    obtain ⟨huse, hsize⟩ := (hi.inUse hf hc).alloc (s.state v)
    exact ⟨huse, hsize, rfl⟩
  · simp only [Stacks.enter, Function.update_apply, BlockHeap.alloc] at hj ⊢
    by_cases hjk : j = k
    · simp only [hjk, if_true, Option.some.injEq] at hj
      subst hj
      simp
    · rw [if_neg hjk] at hj
      rw [if_neg (Nat.ne_of_lt (hi.storage_inUse hj).1)]
      exact hi.sizes j sj hj
  · simp only [Stacks.enter, BlockHeap.alloc, Function.update_apply]
    split
    · exact hi.state v
    · exact hi.range c

theorem Inv.leave (hi : Inv s) (hk : s.storage k = some st)
    (hgood : ∀ f ∈ s.frames, f.ptr ≠ some st.allocPtr) : Inv (s.leave k st) := by
  have hold : ∀ f ∈ s.frames, (s.leave k st).OnStack f ↔ s.OnStack f := by
    intro f hf
    have hne := hgood f hf
    simp only [OnStack, Stacks.leave, Function.update_apply]
    grind
  refine ⟨hi.defined, ?_, hi.distinct, fun f hf => ?_, fun j sj hj => ?_, hi.range, hi.state⟩
  · refine hi.kept.release (y := .storage k) (fun c hc => ⟨st, hk, Option.some.inj hc⟩)
      fun x c => ?_
    cases x with
    | storage j =>
        have hone : ∀ c, s.Holds s.frames (.storage j) c → s.Holds s.frames (.storage k) c →
            Holder.storage j = .storage k := fun c hj hk => hi.kept.owned.one _ _ c hj hk
        simp only [Holds, Stacks.leave, Function.update_apply] at hone ⊢
        grind
    | frame =>
        simp only [Holds, reduceCtorEq, false_and, not_false_eq_true, and_true]
        constructor
        · rintro ⟨f, hf, hfb, ho⟩
          exact ⟨f, hf, hfb, (hold f hf).not.mp ho⟩
        · rintro ⟨f, hf, hfb, ho⟩
          exact ⟨f, hf, hfb, (hold f hf).not.mpr ho⟩
  · refine (hi.recovered f hf).congr (hold f hf) fun c hc => ?_
    have hne : some st.allocPtr ≠ some c := fun h => hgood f hf (hc.trans h.symm)
    exact ⟨(hi.inUse hf hc).release hne, rfl, rfl⟩
  · simp only [Stacks.leave, Function.update_apply] at hj
    split at hj
    · cases hj
    · exact hi.sizes j sj hj

/-! ## Memory for a frame -/

/-- The byte behind the frame is set. -/
theorem InvAt.handOut {onHeap : Nat} (hi : InvAt s (f :: s.frames)) (hfb : f.ptr = some b)
    (hroom : s.heap.Inside b f.size 1)
    (hflag : (s.OnStack f ∧ onHeap = 0) ∨ (¬ s.OnStack f ∧ onHeap = 1)) :
    Inv (s.handOut f b onHeap) := by
  rw [Stacks.handOut, if_pos hroom]
  refine ⟨hi.defined, ?_, hi.distinct, fun g hg => ?_, hi.sizes, hi.range, hi.state⟩
  · exact (hi.kept.withBytes _).congr fun x c => by cases x <;> rfl
  · obtain rfl | hg := List.mem_cons.mp hg
    · have hset : ∀ onHeap, ({ s with heap := s.heap.write b g.size (.data onHeap)
                                      frames := g :: s.frames } : Stacks).flag g =
          some (onHeap != 0) := fun onHeap =>
        flag_eq_some.mpr ⟨b, onHeap, hfb, hroom, by simp [BlockHeap.write], rfl⟩
      obtain ⟨hon, rfl⟩ | ⟨hon, rfl⟩ := hflag
      · exact .inl ⟨hon, hset 0⟩
      · exact .inr ⟨hon, hset 1⟩
    · refine (hi.recovered g hg).congr Iff.rfl fun c hc => ?_
      have hne : c ≠ b := fun hcb => by
        have hmem := (List.nodup_cons.mp hi.distinct).1
        rw [hfb, ← hcb, ← hc] at hmem
        exact hmem (List.mem_map_of_mem hg)
      obtain ⟨d, hd, hin⟩ := (hi.recovered g hg).inside
      obtain rfl : c = d := Option.some.inj (hc.symm.trans hd)
      exact ⟨hin.1, rfl, by simp [BlockHeap.write, hne]⟩

theorem sizePlus_one {sz : Nat} (hsz : sz + 1 < sizeRange) : sizePlus sz 1 = sz + 1 :=
  Nat.mod_eq_of_lt hsz

/-- There is room in the stack frame, and nobody has it. -/
theorem Inv.lend (hi : Inv s) (hk : s.storage k = some st) {sz : Nat}
    (hroom : sz + 1 ≤ st.allocSize) (hfree : ∀ f ∈ s.frames, f.ptr ≠ some st.allocPtr) :
    Inv (s.handOut { ptr := some st.allocPtr, size := sz, storage := k } st.allocPtr 0) := by
  have hon : s.OnStack { ptr := some st.allocPtr, size := sz, storage := k } := ⟨k, st, hk, rfl⟩
  refine InvAt.handOut ⟨hi.defined, ?_, ?_, hi.recovered, hi.sizes, hi.range, hi.state⟩ rfl
    ⟨hi.storage_inUse hk, by rw [hi.sizes k st hk]; exact hroom⟩ (.inl ⟨hon, rfl⟩)
  · refine hi.kept.congr fun x c => ?_
    cases x with
    | storage j => rfl
    | frame => simp [Holds, hon]
  · refine List.nodup_cons.mpr ⟨fun hmem => ?_, hi.distinct⟩
    obtain ⟨f, hf, hfb⟩ := List.mem_map.mp hmem
    exact hfree f hf hfb

/-- The frame gets a block of the heap, and the state is set. -/
theorem Inv.overflow (hi : Inv s) {sz v : Nat} {news : List (Nat × Bool)}
    (hsz : sz + 1 < sizeRange) :
    Inv (({ s with heap := s.heap.alloc (sz + 1), state := Function.update s.state v (sz + 1)
                   news := news } : Stacks).handOut
      { ptr := some s.heap.count, size := sz, storage := k } s.heap.count 1) := by
  have hoff : ¬ s.OnStack { ptr := some s.heap.count, size := sz, storage := k } := by
    rintro ⟨j, sj, hj, hp⟩
    have hlt := (hi.storage_inUse hj).1
    rw [← Option.some.inj hp] at hlt
    exact Nat.lt_irrefl _ hlt
  have hframe : ∀ f ∈ s.frames, f.ptr ≠ some s.heap.count := fun f hf hfb =>
    Nat.lt_irrefl _ (hi.inUse hf hfb).1
  refine InvAt.handOut ⟨hi.defined, ?_, ?_, fun f hf => ?_, fun j sj hj => ?_, fun c => ?_,
    fun u => ?_⟩ rfl ⟨⟨Nat.lt_succ_self _, ?_⟩, ?_⟩ (.inr ⟨hoff, rfl⟩)
  · refine hi.kept.alloc .frame (fun x c => ?_) _
    cases x with
    | storage j => simp [Holds]
    | frame =>
        constructor
        · rintro ⟨g, hg, hgc, ho⟩
          obtain rfl | hg := List.mem_cons.mp hg
          · exact .inl ⟨rfl, (Option.some.inj hgc).symm⟩
          · exact .inr ⟨g, hg, hgc, ho⟩
        · rintro (⟨-, rfl⟩ | ⟨g, hg, hgc, ho⟩)
          · exact ⟨_, List.mem_cons_self, rfl, hoff⟩
          · exact ⟨g, List.mem_cons_of_mem _ hg, hgc, ho⟩
  · refine List.nodup_cons.mpr ⟨fun hmem => ?_, hi.distinct⟩
    obtain ⟨f, hf, hfb⟩ := List.mem_map.mp hmem
    exact hframe f hf hfb
  · refine (hi.recovered f hf).congr Iff.rfl fun c hc => ?_
    obtain ⟨huse, hsize⟩ := (hi.inUse hf hc).alloc (sz + 1)
    exact ⟨huse, hsize, rfl⟩
  · simp only [BlockHeap.alloc]
    rw [Function.update_of_ne (Nat.ne_of_lt (hi.storage_inUse hj).1)]
    exact hi.sizes j sj hj
  · simp only [BlockHeap.alloc, Function.update_apply]
    split
    · exact hsz
    · exact hi.range c
  · simp only [Function.update_apply]
    split
    · exact hsz
    · exact hi.state u
  · exact hi.kept.fresh _ (Nat.le_refl _)
  · simp [BlockHeap.alloc]

theorem Inv.alloc (hi : Inv s) (hk : s.storage k = some st) {sz : Nat} {throws : Bool}
    (hsz : sz + 1 < sizeRange)
    (hgood : sz + 1 ≤ st.allocSize → ∀ f ∈ s.frames, f.ptr ≠ some st.allocPtr) :
    Inv (s.alloc k st sz throws) := by
  rw [Stacks.alloc, sizePlus_one hsz]
  by_cases hroom : sz + 1 ≤ st.allocSize
  · rw [if_pos hroom]
    exact hi.lend hk hroom (hgood hroom)
  · rw [if_neg hroom]
    cases throws with
    | true => exact hi
    | false => exact hi.overflow hsz

/-! ## A frame is given back -/

theorem Inv.dealloc (hi : Inv s) (hf : f ∈ s.frames) : Inv (s.dealloc f) := by
  have hnd : s.frames.Nodup := List.Nodup.of_map _ hi.distinct
  have hmem : ∀ g, g ∈ s.frames.erase f ↔ g ≠ f ∧ g ∈ s.frames := fun g => hnd.mem_erase_iff
  have hdistinct : ((s.frames.erase f).map Frame.ptr).Nodup :=
    hi.distinct.sublist ((List.erase_sublist).map _)
  obtain ⟨hon, hflag⟩ | ⟨hon, hflag⟩ := hi.recovered f hf
  · simp only [Stacks.dealloc, hflag]
    refine ⟨hi.defined, ?_, hdistinct, fun g hg => ?_, hi.sizes, hi.range, hi.state⟩
    · refine hi.kept.congr fun x c => ?_
      cases x with
      | storage j => rfl
      | frame =>
          simp only [Holds, hmem]
          constructor
          · rintro ⟨g, hg, hgc, ho⟩
            exact ⟨g, hg.2, hgc, ho⟩
          · rintro ⟨g, hg, hgc, ho⟩
            exact ⟨g, ⟨fun h => ho (h ▸ hon), hg⟩, hgc, ho⟩
    · exact hi.recovered g ((hmem g).mp hg).2
  · simp only [Stacks.dealloc, hflag]
    refine ⟨hi.defined, ?_, hdistinct, fun g hg => ?_, by simpa using hi.sizes,
      by simpa using hi.range, hi.state⟩
    · refine hi.kept.release (y := .frame) (fun c hc => ⟨f, hf, hc, hon⟩) fun x c => ?_
      cases x with
      | storage j => simp [Holds]
      | frame =>
          simp only [Holds, hmem, true_and]
          constructor
          · rintro ⟨g, hg, hgc, ho⟩
            exact ⟨⟨g, hg.2, hgc, ho⟩, fun hfc => hg.1 (hi.eq_of_ptr hg.2 hf (hgc.trans hfc.symm))⟩
          · rintro ⟨⟨g, hg, hgc, ho⟩, hfc⟩
            exact ⟨g, ⟨fun h => hfc (h ▸ hgc), hg⟩, hgc, ho⟩
    · obtain ⟨hne, hg⟩ := (hmem g).mp hg
      refine (hi.recovered g hg).congr Iff.rfl fun c hc => ?_
      have hfc : f.ptr ≠ some c := fun h => hne (hi.eq_of_ptr hg hf (hc.trans h.symm))
      exact ⟨(hi.inUse hg hc).release hfc, by simp, by simp⟩

theorem Inv.write (hi : Inv s) (hf : f ∈ s.frames) {off : Nat} (hoff : off < f.size)
    (v : BlockByte Nat) : Inv (s.write f off v) := by
  obtain ⟨b, hb, hin⟩ := (hi.recovered f hf).inside
  simp only [Stacks.write, hb]
  refine ⟨hi.defined, hi.kept.withBytes _, hi.distinct, fun g hg => ?_, hi.sizes, hi.range,
    hi.state⟩
  refine (hi.recovered g hg).congr Iff.rfl fun c hc => ⟨hi.inUse hg hc, rfl, ?_⟩
  by_cases hcb : c = b
  · have hgf : g = f := hi.eq_of_ptr hg hf (by rw [hc, hb, hcb])
    have hne : g.size ≠ off := by rw [hgf]; omega
    simp [BlockHeap.write, hcb, hne]
  · simp [BlockHeap.write, hcb]

/-! ## Every run -/

theorem Inv.step (hi : Inv s) {a : Action} (hgood : Fits s a) (h : s.step a = some s') :
    Inv s' := by
  cases a with
  | enter k v =>
      simp only [Stacks.step, Option.ite_none_right_eq_some, Option.some.injEq] at h
      obtain ⟨hk, rfl⟩ := h
      exact hi.enter hk
  | alloc k sz throws =>
      simp only [Stacks.step, Option.ite_none_right_eq_some] at h
      obtain ⟨st, hk, rfl⟩ := Option.map_eq_some_iff.mp h.2
      exact hi.alloc hk hgood.1 (hgood.2 st hk)
  | dealloc f =>
      simp only [Stacks.step, Option.ite_none_right_eq_some, Option.some.injEq] at h
      obtain ⟨hf, rfl⟩ := h
      exact hi.dealloc hf
  | write f off v =>
      simp only [Stacks.step, Option.ite_none_right_eq_some, Option.some.injEq] at h
      obtain ⟨⟨hf, hoff⟩, rfl⟩ := h
      exact hi.write hf hoff v
  | leave k =>
      obtain ⟨st, hk, rfl⟩ := Option.map_eq_some_iff.mp h
      exact hi.leave hk (hgood st hk)

theorem Inv.memorySafe (hi : Inv s) : MemorySafe s where
  defined := hi.defined
  distinct := hi.distinct
  large f hf := by
    obtain ⟨b, hb, hin⟩ := (hi.recovered f hf).inside
    exact ⟨b, hb, hin.2⟩
  recovered := hi.recovered
  once b hb := by
    have hheld : (∃ x, s.Holds s.frames x b) ↔ s.InUse b := by
      constructor
      · rintro ⟨x, hx⟩
        cases x with
        | storage k => exact .inr ⟨k, hx⟩
        | frame =>
            obtain ⟨f, hf, hfb, -⟩ := hx
            exact .inl ⟨f, hf, hfb⟩
      · rintro (⟨f, hf, hfb⟩ | ⟨k, hk⟩)
        · by_cases hon : s.OnStack f
          · obtain ⟨k, st, hk, hp⟩ := hon
            exact ⟨.storage k, st, hk, Option.some.inj (hp.symm.trans hfb)⟩
          · exact ⟨.frame, f, hf, hfb, hon⟩
        · exact ⟨.storage k, hk⟩
    obtain ⟨hzero, hone⟩ := hi.kept.released_iff hb
    exact ⟨fun hu => hzero.mpr (hheld.mpr hu), fun hu => hone.mpr fun hx => hu (hheld.mp hx)⟩

/-- A step that does not fit shows at once. -/
theorem Inv.not_memorySafe (hi : Inv s) {a : Action} (hbad : ¬ Fits s a)
    (h : s.step a = some s') : ¬ MemorySafe s' := by
  intro hsafe
  cases a with
  | enter k v => exact hbad trivial
  | dealloc f => exact hbad trivial
  | write f off v => exact hbad trivial
  | alloc k sz throws =>
      simp only [Stacks.step, Option.ite_none_right_eq_some] at h
      obtain ⟨hlt, h⟩ := h
      obtain ⟨st, hk, rfl⟩ := Option.map_eq_some_iff.mp h
      by_cases hsz : sz + 1 < sizeRange
      · -- the memory of the stack frame is handed out again
        obtain ⟨sk, hsk, hroom, f, hf, hp⟩ : ∃ sk, s.storage k = some sk ∧ sz + 1 ≤ sk.allocSize ∧
            ∃ f ∈ s.frames, f.ptr = some sk.allocPtr := by
          simpa [Fits, hsz] using hbad
        obtain rfl : st = sk := Option.some.inj (hk.symm.trans hsk)
        have hdistinct := hsafe.distinct
        rw [Stacks.alloc, sizePlus_one hsz, if_pos hroom, handOut] at hdistinct
        have hmem : some st.allocPtr ∈ s.frames.map Frame.ptr := hp ▸ List.mem_map_of_mem hf
        split at hdistinct
        · exact (List.nodup_cons.mp hdistinct).1 hmem
        · exact (List.nodup_cons.mp hdistinct).1 hmem
      · -- the size behind the frame is zero
        have hzero : sizePlus sz 1 = 0 := by
          rw [sizePlus, show sz + 1 = sizeRange by omega, Nat.mod_self]
        have hout : ¬ s.heap.Inside st.allocPtr sz 1 := fun hin => by
          have := hi.range st.allocPtr
          have := hin.2
          omega
        have hdefined := hsafe.defined
        rw [Stacks.alloc, hzero, if_pos (Nat.zero_le _), handOut, if_neg hout] at hdefined
        cases hdefined
  | leave k =>
      obtain ⟨st, hk, rfl⟩ := Option.map_eq_some_iff.mp h
      obtain ⟨sk, hsk, f, hf, hp⟩ : ∃ sk, s.storage k = some sk ∧
          ∃ f ∈ s.frames, f.ptr = some sk.allocPtr := by
        simpa [Fits] using hbad
      obtain rfl : st = sk := Option.some.inj (hk.symm.trans hsk)
      obtain ⟨b, hb, hin⟩ := (show (s.leave k st).Recovered f from hsafe.recovered f hf).inside
      obtain rfl : st.allocPtr = b := Option.some.inj (hp.symm.trans hb)
      have hrel := hin.1.2
      simp [Stacks.leave, BlockHeap.release] at hrel

/-- **Frames on the stack**: no memory in use is handed out, in any state of a run, exactly if
each storage has one frame at a time on the stack, which is given back before the function
returns, and no size is at the end of its range. -/
theorem safe_iff_fits (bytes : Nat → Nat → BlockByte Nat) (state : Nat → Fin sizeRange)
    (as : List Action) :
    (∀ n, MemorySafe (Run.exec step (start bytes state) (as.take n))) ↔
      Run.Meets step Fits (start bytes state) as :=
  Run.safe_iff_meets (fun _ _ _ hi hgood h => hi.step hgood h)
    (fun _ _ _ hi hbad h => hi.not_memorySafe hbad h) (fun _ hi => hi.memorySafe)
    (inv_start bytes state) as

/-! ## The state learns -/

section Learns

variable {v n : Nat}

/-- Storages that are informed have room for the frame. -/
structure LearnInv (v n : Nat) (s : Stacks) : Prop where
  learns : Learns v n s
  room : ∀ k st, s.storage k = some st → st.state = v → st.informed = true →
    st.allocSize = n + 1

theorem handOut_learnInv (hi : LearnInv v n s) (onHeap : Nat) :
    LearnInv v n (s.handOut f b onHeap) := by
  rw [handOut]
  split
  · exact ⟨⟨hi.learns.state, hi.learns.onStack⟩, hi.room⟩
  · exact ⟨⟨hi.learns.state, hi.learns.onStack⟩, hi.room⟩

theorem LearnInv.alloc (hi : LearnInv v n s) (hk : s.storage k = some st) {sz : Nat}
    {throws : Bool} (hlt : sz < sizeRange) (hgood : st.state = v → sz = n) :
    LearnInv v n (s.alloc k st sz throws) := by
  rw [Stacks.alloc]
  split
  · exact handOut_learnInv hi 0
  · next hroom =>
    have hsize : sizePlus sz 1 = sz + 1 := by
      simp only [sizePlus, sizeRange] at hroom hlt ⊢
      omega
    cases throws with
    | true => exact ⟨⟨hi.learns.state, hi.learns.onStack⟩, hi.room⟩
    | false =>
        simp only [operatorNew, Bool.false_eq_true, if_false]
        apply handOut_learnInv
        refine ⟨⟨fun hmem => ?_, fun hmem => ?_⟩, hi.room⟩
        · by_cases hv : st.state = v
          · have hsz := hgood hv
            subst hsz
            simp only [hv, Function.update_self, hsize]
          · have hold : ∃ x ∈ s.news, x.1 = v := by simpa [hv] using hmem
            simp only [Function.update_of_ne (Ne.symm hv)]
            exact hi.learns.state hold
        · obtain hmem | hmem := List.mem_append.mp hmem
          · exact hi.learns.onStack hmem
          · -- an informed storage would have had room
            obtain ⟨hv, hinf⟩ := Prod.mk.inj (List.mem_singleton.mp hmem)
            have hsz := hgood hv.symm
            have := hi.room k st hk hv.symm hinf.symm
            omega

theorem LearnInv.step (hi : LearnInv v n s) {a : Action} (hgood : SameSize v n s a)
    (h : s.step a = some s') : LearnInv v n s' := by
  cases a with
  | enter k u =>
      simp only [Stacks.step, Option.ite_none_right_eq_some, Option.some.injEq] at h
      obtain ⟨-, rfl⟩ := h
      refine ⟨⟨hi.learns.state, hi.learns.onStack⟩, fun j sj hj hv hinf => ?_⟩
      simp only [enter, Function.update_apply] at hj
      split at hj
      · cases hj
        obtain ⟨x, hx, hxv⟩ := List.any_eq_true.mp hinf
        have hv : u = v := hv
        subst hv
        exact hi.learns.state ⟨x, hx, by simpa using hxv⟩
      · exact hi.room j sj hj hv hinf
  | alloc k sz throws =>
      simp only [Stacks.step, Option.ite_none_right_eq_some] at h
      obtain ⟨st, hk, rfl⟩ := Option.map_eq_some_iff.mp h.2
      exact hi.alloc hk h.1 (hgood st hk)
  | dealloc f =>
      simp only [Stacks.step, Option.ite_none_right_eq_some, Option.some.injEq] at h
      obtain ⟨-, rfl⟩ := h
      rw [Stacks.dealloc]
      split <;> exact ⟨⟨hi.learns.state, hi.learns.onStack⟩, hi.room⟩
  | write f off x =>
      simp only [Stacks.step, Option.ite_none_right_eq_some, Option.some.injEq] at h
      obtain ⟨-, rfl⟩ := h
      rw [Stacks.write]
      split <;> exact ⟨⟨hi.learns.state, hi.learns.onStack⟩, hi.room⟩
  | leave k =>
      obtain ⟨st, -, rfl⟩ := Option.map_eq_some_iff.mp h
      refine ⟨⟨hi.learns.state, hi.learns.onStack⟩, fun j sj hj => ?_⟩
      simp only [leave, Function.update_apply] at hj
      split at hj
      · cases hj
      · exact hi.room j sj hj

/-- **The state learns**: where all frames for a state have one size, a storage that is constructed
after the first of them went to the heap has its frames on the stack. -/
theorem learns_exec (bytes : Nat → Nat → BlockByte Nat) (state : Nat → Fin sizeRange)
    {as : List Action} (h : Run.Meets step (SameSize v n) (start bytes state) as) :
    Learns v n (Run.exec step (start bytes state) as) :=
  (Run.exec_inv_of_meets (fun _ _ _ hi hgood hs => LearnInv.step hi hgood hs)
    ⟨⟨fun ⟨_, hx, _⟩ => (by cases hx), List.not_mem_nil⟩, fun _ _ hk => (by cases hk)⟩ h).learns

/-- A function is called twice; its coroutine has a frame of `40` bytes. -/
def calledTwice : List Action :=
  [.enter 0 0, .alloc 0 40 false, .dealloc { ptr := some 1, size := 40, storage := 0 }, .leave 0,
    .enter 0 0, .alloc 0 40 false]

/-- The first frame is on the heap, the second one is on the stack. -/
theorem learns_calledTwice :
    Learns 0 40 (Run.exec step (start (fun _ _ => .data 0) fun _ => ⟨0, Nat.two_pow_pos 64⟩)
      calledTwice) ∧
    (Run.exec step (start (fun _ _ => .data 0) fun _ => ⟨0, Nat.two_pow_pos 64⟩)
      calledTwice).news = [(0, false)] := by
  refine ⟨learns_exec _ _ ⟨fun _ => trivial, fun _ => ?_, fun _ => trivial, fun _ => trivial,
    fun _ => trivial, fun _ => ?_, trivial⟩, by decide⟩
  · exact fun _ _ _ => rfl
  · exact fun _ _ _ => rfl

end Learns

end Stacks

end CoroStorage

end Cocls
