import Mathlib.Data.List.Nodup
import Cocls.CoroStorage

/-!
# Cocls.CoroStorage.Protection

How `reusable_storage_mtsafe` is protected: no memory in use is handed out.

The block of a storage is handed out only while nobody else has it, so it is only
then that it is replaced by a larger one (`Inv.grow`); `dealloc` tells the block
of the storage from the others by comparing pointers, which works because each
block in use has one holder: the storage it belongs to, or the frame that is in it.

There are two ways to break this (`memorySafe_iff`).  When `::operator new` throws
for the block of a storage, `_busy` stays `true`, and `_ptr` points to a block that
was deleted.  And when the size of the pointer behind the frame is added to a frame
size near the end of `std::size_t`, the sum is small, and so is the block.
-/

open Owners

namespace Cocls

namespace CoroStorage

namespace Storages

variable {s : Storages} {fs : List Frame} {this b n : Nat} {f : Frame}

/-- The frame is in the block of its storage. -/
def Own (s : Storages) (f : Frame) : Prop := f.ptr = (s.storage f.storage).ptr

/-- A frame is in the block, or it belongs to a storage. -/
def InUse (s : Storages) (b : Nat) : Prop :=
  (∃ f ∈ s.frames, f.ptr = some b) ∨ ∃ this, s.alive this = true ∧ (s.storage this).ptr = some b

/-- Memory in use is not handed out. -/
structure MemorySafe (s : Storages) : Prop where
  /-- every access was to a block in use -/
  defined : s.undefined = false
  distinct : (s.frames.map Frame.ptr).Nodup
  /-- there is room for the frame and the pointer behind it -/
  large : ∀ f ∈ s.frames, ∃ b, f.ptr = some b ∧ f.size + pointerSize ≤ s.heap.size b
  /-- `dealloc` would find the storage that was asked -/
  recovered : ∀ f ∈ s.frames, s.owner f = some f.storage
  /-- a block is released once, when it is not in use any more -/
  once : ∀ b < s.heap.count,
    (s.InUse b → s.heap.released b = 0) ∧ (¬ s.InUse b → s.heap.released b = 1)
  busy : ∀ this, s.alive this = true →
    ((s.storage this).busy = true ↔ ∃ f ∈ s.frames, f.storage = this ∧ s.Own f)

/-- `::operator new` does not throw for the block of a storage, and the size of the frame with the
pointer behind it is a `std::size_t` if the call returns. -/
def Fits (s : Storages) : Action → Prop
  | .alloc this sz throws =>
      ((s.storage this).busy = false →
        (s.storage this).capacity < sizePlus sz pointerSize → throws = false) ∧
      (((s.storage this).busy = true → throws = false) → sz + pointerSize < sizeRange)
  | .dealloc _ | .write _ _ _ | .destroy _ => True

/-! ## The invariant -/

/-- Who has a block. -/
inductive Holder where
  | storage (this : Nat)
  | frame

/-- The block is there; `fs` are the frames. -/
def Holds (s : Storages) (fs : List Frame) : Holder → Nat → Prop
  | .storage this, b => s.alive this = true ∧ (s.storage this).ptr = some b
  | .frame, b => ∃ f ∈ fs, f.ptr = some b ∧ ¬ s.Own f

/-- Memory is taken for the frames `fs`; those that were handed out have the pointer behind
them. -/
structure InvAt (s : Storages) (fs : List Frame) : Prop where
  defined : s.undefined = false
  kept : BlockHeap.Kept (s.Holds fs) s.heap
  distinct : (fs.map Frame.ptr).Nodup
  owner : ∀ f ∈ s.frames, s.owner f = some f.storage
  alive : ∀ f ∈ fs, s.alive f.storage = true
  busy : ∀ this, s.alive this = true →
    ((s.storage this).busy = true ↔ ∃ f ∈ fs, f.storage = this ∧ s.Own f)
  empty : ∀ this, (s.storage this).ptr = none → (s.storage this).capacity = 0
  capacity : ∀ this b, s.alive this = true → (s.storage this).ptr = some b →
    s.heap.size b = (s.storage this).capacity
  range : ∀ b, s.heap.size b < sizeRange

/-- Between two calls. -/
def Inv (s : Storages) : Prop := InvAt s s.frames

theorem inv_start (bytes : Nat → Nat → BlockByte Nat) : Inv (start bytes) where
  defined := rfl
  kept := BlockHeap.kept_empty fun x b hx => by
    cases x with
    | storage this => cases hx.2
    | frame => obtain ⟨f, hf, -⟩ := hx; cases hf
  distinct := List.nodup_nil
  owner _ hf := by cases hf
  alive _ hf := by cases hf
  busy _ _ := ⟨fun hb => (by cases hb), fun ⟨_, hf, _⟩ => by cases hf⟩
  empty _ _ := rfl
  capacity _ _ _ hp := by cases hp
  range _ := Nat.two_pow_pos 64

/-- A frame that was handed out is in a block in use, with the pointer behind it. -/
theorem owner_eq_some {me : Nat} : s.owner f = some me ↔
    ∃ b, f.ptr = some b ∧ s.heap.load pointerSize b f.size = some me := by
  rw [owner, Option.bind_eq_some_iff]

theorem InvAt.eq_of_ptr (hi : InvAt s fs) {g : Frame} (hf : f ∈ fs) (hg : g ∈ fs)
    (hp : f.ptr = g.ptr) : f = g :=
  List.inj_on_of_nodup_map hi.distinct hf hg hp

/-- A frame in the block of a storage came from there. -/
theorem InvAt.own_of_ptr (hi : InvAt s fs) (ha : s.alive this = true)
    (hp : (s.storage this).ptr = some b) (hf : f ∈ fs) (hfb : f.ptr = some b) :
    f.storage = this ∧ s.Own f := by
  have hthis : s.Holds fs (.storage this) b := ⟨ha, hp⟩
  by_cases hown : s.Own f
  · have hstorage : s.Holds fs (.storage f.storage) b := ⟨hi.alive f hf, hown ▸ hfb⟩
    cases hi.kept.owned.one _ _ b hstorage hthis
    exact ⟨rfl, hown⟩
  · cases hi.kept.owned.one .frame _ b ⟨f, hf, hfb, hown⟩ hthis

/-- Nobody has the block of a storage that is not busy. -/
theorem InvAt.not_own (hi : InvAt s fs) (ha : s.alive this = true)
    (hb : (s.storage this).busy = false) (hf : f ∈ fs) (hft : f.storage = this) : ¬ s.Own f := by
  intro hown
  have hbusy := (hi.busy this ha).mpr ⟨f, hf, hft, hown⟩
  rw [hb] at hbusy
  cases hbusy

theorem InvAt.ptr_ne (hi : InvAt s fs) (ha : s.alive this = true)
    (hb : (s.storage this).busy = false) (hp : (s.storage this).ptr = some b) (hf : f ∈ fs) :
    f.ptr ≠ some b := fun hfb =>
  have ⟨hft, hown⟩ := hi.own_of_ptr ha hp hf hfb
  hi.not_own ha hb hf hft hown

theorem Inv.inUse (hi : Inv s) (hf : f ∈ s.frames) (hfb : f.ptr = some b) : s.heap.InUse b := by
  obtain ⟨c, hc, hload⟩ := owner_eq_some.mp (hi.owner f hf)
  obtain rfl : b = c := Option.some.inj (hfb.symm.trans hc)
  exact ((BlockHeap.load_eq_some (by decide)).mp hload).1.1

/-- Blocks come and go, but not those of frames: the pointers behind the frames are still
there. -/
theorem owner_congr {s' : Storages} {me : Nat} (ho : s.owner f = some me)
    (h : ∀ b, f.ptr = some b → s'.heap.InUse b ∧ s'.heap.size b = s.heap.size b ∧
      s'.heap.bytes b = s.heap.bytes b) : s'.owner f = some me := by
  obtain ⟨b, hb, hload⟩ := owner_eq_some.mp ho
  obtain ⟨huse, hsize, hbytes⟩ := h b hb
  exact owner_eq_some.mpr ⟨b, hb, BlockHeap.load_congr (by decide) hload huse hsize hbytes⟩

/-! ## Memory for a frame -/

section Alloc

/-- `_busy.store(v)`. -/
def setBusy (s : Storages) (this : Nat) (v : Bool) : Storages :=
  { s with storage := Function.update s.storage this { s.storage this with busy := v } }

@[simp] theorem setBusy_heap (v : Bool) : (s.setBusy this v).heap = s.heap := rfl

@[simp] theorem setBusy_alive (v : Bool) : (s.setBusy this v).alive = s.alive := rfl

@[simp] theorem setBusy_ptr (v : Bool) (i : Nat) :
    ((s.setBusy this v).storage i).ptr = (s.storage i).ptr := by
  by_cases hi : i = this
  · subst hi
    simp [setBusy]
  · simp [setBusy, hi]

@[simp] theorem setBusy_capacity (v : Bool) (i : Nat) :
    ((s.setBusy this v).storage i).capacity = (s.storage i).capacity := by
  by_cases hi : i = this
  · subst hi
    simp [setBusy]
  · simp [setBusy, hi]

@[simp] theorem setBusy_busy_self (v : Bool) : ((s.setBusy this v).storage this).busy = v := by
  simp [setBusy]

theorem setBusy_busy_of_ne (v : Bool) {i : Nat} (hi : i ≠ this) :
    ((s.setBusy this v).storage i).busy = (s.storage i).busy := by
  simp [setBusy, hi]

@[simp] theorem setBusy_own (v : Bool) : (s.setBusy this v).Own f ↔ s.Own f := by
  simp [Own]

/-- The block of the storage is replaced. -/
def grow (s : Storages) (this n : Nat) : Storages :=
  { s with
    heap := (s.heap.release (s.storage this).ptr).alloc n
    storage := Function.update s.storage this
      { s.storage this with ptr := some s.heap.count, capacity := n } }

theorem grow_storage_self : (s.grow this n).storage this =
    { s.storage this with ptr := some s.heap.count, capacity := n } :=
  Function.update_self _ _ _

theorem grow_storage_of_ne {i : Nat} (hi : i ≠ this) :
    (s.grow this n).storage i = s.storage i :=
  Function.update_of_ne hi _ _

theorem le_grow_capacity : n ≤ ((s.grow this n).storage this).capacity :=
  Nat.le_of_eq (by rw [grow_storage_self])

theorem grow_busy (i : Nat) : ((s.grow this n).storage i).busy = (s.storage i).busy := by
  by_cases hi : i = this
  · subst hi
    rw [grow_storage_self]
  · rw [grow_storage_of_ne hi]

/-- The block of the storage is handed out. -/
theorem Inv.lend (hi : Inv s) (ha : s.alive this = true) (hb : (s.storage this).busy = false)
    (hp : (s.storage this).ptr = some b) (sz : Nat) :
    InvAt (s.setBusy this true)
      ({ ptr := some b, size := sz, storage := this } :: s.frames) where
  defined := hi.defined
  kept := by
    refine hi.kept.congr fun x c => ?_
    cases x with
    | storage i => simp [Holds]
    | frame => simp [Holds, Own, hp]
  distinct := by
    refine List.nodup_cons.mpr ⟨fun hmem => ?_, hi.distinct⟩
    obtain ⟨f, hf, hfb⟩ := List.mem_map.mp hmem
    exact hi.ptr_ne ha hb hp hf hfb
  owner := hi.owner
  alive f hf := by
    obtain rfl | hf := List.mem_cons.mp hf
    · exact ha
    · exact hi.alive f hf
  busy i hi' := by
    by_cases hit : i = this
    · subst hit
      simp [Own, hp]
    · rw [setBusy_busy_of_ne true hit, hi.busy i hi']
      simp [Ne.symm hit]
  empty i hpi := by simpa using hi.empty i (by simpa using hpi)
  capacity i c hi' hpi := by simpa using hi.capacity i c hi' (by simpa using hpi)
  range := hi.range

/-- A frame gets a block of the heap. -/
theorem Inv.overflow (hi : Inv s) (ha : s.alive this = true) (sz : Nat) (hn : n < sizeRange) :
    InvAt { s with heap := s.heap.alloc n }
      ({ ptr := some s.heap.count, size := sz, storage := this } :: s.frames) := by
  have hptr : ∀ i, s.alive i = true → (s.storage i).ptr ≠ some s.heap.count := fun i hi' hp =>
    hi.kept.ne_count (x := .storage i) ⟨hi', hp⟩ rfl
  have hframe : ∀ f ∈ s.frames, f.ptr ≠ some s.heap.count := fun f hf hfb =>
    absurd (hi.inUse hf hfb).1 (Nat.lt_irrefl _)
  exact {
    defined := hi.defined
    kept := by
      refine hi.kept.alloc .frame (fun x c => ?_) n
      cases x with
      | storage i => simp [Holds]
      | frame => simp [Holds, Own, Ne.symm (hptr this ha), eq_comm]
    distinct := by
      refine List.nodup_cons.mpr ⟨fun hmem => ?_, hi.distinct⟩
      obtain ⟨f, hf, hfb⟩ := List.mem_map.mp hmem
      exact hframe f hf hfb
    owner := fun f hf => by
      refine owner_congr (hi.owner f hf) fun c hc => ?_
      obtain ⟨huse, hsize⟩ := (hi.inUse hf hc).alloc n
      exact ⟨huse, hsize, rfl⟩
    alive := fun f hf => by
      obtain rfl | hf := List.mem_cons.mp hf
      · exact ha
      · exact hi.alive f hf
    busy := fun i hi' => by
      rw [hi.busy i hi']
      simp [Own, Ne.symm (hptr this ha)]
    empty := hi.empty
    capacity := fun i c hi' hpi => by
      have hne : c ≠ s.heap.count := fun hc => hptr i hi' (hc ▸ hpi)
      rw [← hi.capacity i c hi' hpi]
      exact Function.update_of_ne hne _ _
    range := fun c => by
      by_cases hc : c = s.heap.count
      · subst hc
        simpa [BlockHeap.alloc] using hn
      · simpa [BlockHeap.alloc, hc] using hi.range c }

/-- No frame is in the old block of the storage, nor in the new one. -/
theorem Inv.grow_own (hi : Inv s) (ha : s.alive this = true)
    (hb : (s.storage this).busy = false) (hf : f ∈ s.frames) :
    (s.grow this n).Own f ↔ s.Own f := by
  by_cases hft : f.storage = this
  · have hold : ¬ s.Own f := hi.not_own ha hb hf hft
    have hnew : f.ptr ≠ some s.heap.count := fun hfb =>
      absurd (hi.inUse hf hfb).1 (Nat.lt_irrefl _)
    simpa [Own, hft, grow_storage_self, hnew] using hold
  · rw [Own, grow_storage_of_ne hft, Own]

/-- The old block is released, and the storage has the new one. -/
theorem Inv.grow_kept (hi : Inv s) (ha : s.alive this = true)
    (hb : (s.storage this).busy = false) :
    BlockHeap.Kept ((s.grow this n).Holds s.frames) (s.grow this n).heap := by
  have hreleased := hi.kept.release (p := (s.storage this).ptr) (y := .storage this)
    (fun c hc => ⟨ha, hc⟩) fun _ _ => Iff.rfl
  refine hreleased.alloc (.storage this) (fun x c => ?_) n
  cases x with
  | storage i =>
      have halive : (s.grow this n).alive = s.alive := rfl
      by_cases hit : i = this
      · subst hit
        simp [Holds, grow_storage_self, halive, ha, eq_comm]
      · simp [Holds, grow_storage_of_ne hit, halive, hit]
  | frame =>
      simp only [Holds, reduceCtorEq, false_and, not_false_eq_true, and_true, false_or]
      constructor
      · rintro ⟨f, hf, hfb, ho⟩
        exact ⟨f, hf, hfb, (hi.grow_own ha hb hf).not.mp ho⟩
      · rintro ⟨f, hf, hfb, ho⟩
        exact ⟨f, hf, hfb, (hi.grow_own ha hb hf).not.mpr ho⟩

/-- The storage is not busy, and gets a larger block. -/
theorem Inv.grow (hi : Inv s) (ha : s.alive this = true) (hb : (s.storage this).busy = false)
    (hn : n < sizeRange) : Inv (s.grow this n) where
  defined := hi.defined
  kept := hi.grow_kept ha hb
  distinct := hi.distinct
  owner f hf := by
    refine owner_congr (hi.owner f hf) fun c hc => ?_
    have hne : (s.storage this).ptr ≠ some c := fun hp => hi.ptr_ne ha hb hp hf hc
    obtain ⟨huse, hsize⟩ := ((hi.inUse hf hc).release hne).alloc n
    exact ⟨huse, hsize.trans (by simp), by simp [Storages.grow, BlockHeap.alloc]⟩
  alive := hi.alive
  busy i hi' := by
    rw [grow_busy, hi.busy i hi']
    constructor
    · rintro ⟨f, hf, hfs, ho⟩
      exact ⟨f, hf, hfs, (hi.grow_own ha hb hf).mpr ho⟩
    · rintro ⟨f, hf, hfs, ho⟩
      exact ⟨f, hf, hfs, (hi.grow_own ha hb hf).mp ho⟩
  empty i hpi := by
    by_cases hit : i = this
    · subst hit
      rw [grow_storage_self] at hpi
      cases hpi
    · rw [grow_storage_of_ne hit] at hpi ⊢
      exact hi.empty i hpi
  capacity i c hi' hpi := by
    by_cases hit : i = this
    · subst hit
      rw [grow_storage_self] at hpi ⊢
      cases hpi
      simp [Storages.grow, BlockHeap.alloc]
    · rw [grow_storage_of_ne hit] at hpi ⊢
      have hne : c ≠ s.heap.count := hi.kept.ne_count (x := .storage i) ⟨hi', hpi⟩
      rw [← hi.capacity i c hi' hpi]
      simp [Storages.grow, BlockHeap.alloc, hne]
  range c := by
    by_cases hc : c = s.heap.count
    · subst hc
      simpa [Storages.grow, BlockHeap.alloc] using hn
    · simpa [Storages.grow, BlockHeap.alloc, hc] using hi.range c

/-- The pointer is stored behind the frame. -/
theorem InvAt.handOut (hi : InvAt s (f :: s.frames)) (hfb : f.ptr = some b)
    (hroom : s.heap.Inside b f.size pointerSize) : Inv (s.handOut f) := by
  have heq : s.handOut f =
      { s with heap := s.heap.put pointerSize b f.size f.storage, frames := f :: s.frames } := by
    rw [Storages.handOut, hfb, Option.bind_some, BlockHeap.store_eq hroom]
  rw [heq]
  exact {
    defined := hi.defined
    kept := (hi.kept.withBytes _).congr fun x c => by cases x <;> rfl
    distinct := hi.distinct
    owner := fun g hg => by
      obtain rfl | hgs := List.mem_cons.mp hg
      · exact owner_eq_some.mpr ⟨b, hfb, BlockHeap.load_put (by decide) hroom⟩
      · obtain ⟨c, hc, hload⟩ := owner_eq_some.mp (hi.owner g hgs)
        have hne : c ≠ b := fun hcb => by
          have hmem := (List.nodup_cons.mp hi.distinct).1
          rw [hfb, ← hcb, ← hc] at hmem
          exact hmem (List.mem_map_of_mem hgs)
        exact owner_eq_some.mpr ⟨c, hc, (BlockHeap.load_put_of_ne hne _).trans hload⟩
    alive := hi.alive
    busy := hi.busy
    empty := hi.empty
    capacity := hi.capacity
    range := hi.range }

/-! ### The cases of `alloc` -/

variable {sz : Nat} {throws : Bool}

theorem alloc_of_busy (hb : (s.storage this).busy = true) :
    s.alloc this sz false =
      ({ s with heap := s.heap.alloc (sizePlus sz pointerSize) } : Storages).handOut
        { ptr := some s.heap.count, size := sz, storage := this } := by
  have hst : ({ s.storage this with busy := true } : ReusableStorageMtsafe) = s.storage this := by
    rw [← hb]
  simp [Storages.alloc, ReusableStorageMtsafe.obtain, hb, operatorNew, Except.map, hst]

theorem alloc_of_busy_throws (hb : (s.storage this).busy = true) :
    s.alloc this sz true = s := by
  have hst : ({ s.storage this with busy := true } : ReusableStorageMtsafe) = s.storage this := by
    rw [← hb]
  simp [Storages.alloc, ReusableStorageMtsafe.obtain, hb, operatorNew, Except.map, hst]

theorem alloc_of_fits (hb : (s.storage this).busy = false)
    (hc : sizePlus sz pointerSize ≤ (s.storage this).capacity) :
    s.alloc this sz throws = (s.setBusy this true).handOut
      { ptr := (s.storage this).ptr, size := sz, storage := this } := by
  simp [Storages.alloc, ReusableStorageMtsafe.obtain, hb, ReusableStorage.alloc,
    Nat.not_lt.mpr hc, setBusy]

theorem alloc_of_grows (hb : (s.storage this).busy = false)
    (hc : (s.storage this).capacity < sizePlus sz pointerSize) :
    s.alloc this sz false = (s.grow this (sizePlus sz pointerSize)).alloc this sz false := by
  have hgrown : ((s.grow this (sizePlus sz pointerSize)).storage this).busy = false := by
    rw [grow_busy, hb]
  rw [alloc_of_fits hgrown le_grow_capacity]
  simp [Storages.alloc, ReusableStorageMtsafe.obtain, hb, ReusableStorage.alloc, hc, operatorNew,
    setBusy, Storages.grow]

theorem alloc_of_throws (hb : (s.storage this).busy = false)
    (hc : (s.storage this).capacity < sizePlus sz pointerSize) :
    s.alloc this sz true =
      ({ s with heap := s.heap.release (s.storage this).ptr } : Storages).setBusy this true := by
  simp [Storages.alloc, ReusableStorageMtsafe.obtain, hb, ReusableStorage.alloc, hc, operatorNew,
    setBusy]

theorem sizePlus_lt (a b : Nat) : sizePlus a b < sizeRange :=
  Nat.mod_lt _ (Nat.two_pow_pos 64)

/-- The block of the storage is large enough. -/
theorem Inv.alloc_fits (hi : Inv s) (ha : s.alive this = true)
    (hb : (s.storage this).busy = false) (hsz : sz + pointerSize < sizeRange)
    (hc : sizePlus sz pointerSize ≤ (s.storage this).capacity) :
    Inv (s.alloc this sz throws) := by
  rw [sizePlus, Nat.mod_eq_of_lt hsz] at hc
  cases hp : (s.storage this).ptr with
  | none =>
      have hzero := hi.empty this hp
      rw [hzero] at hc
      exact absurd hc (Nat.not_le.mpr (Nat.succ_pos _))
  | some b =>
      rw [alloc_of_fits hb (by rwa [sizePlus, Nat.mod_eq_of_lt hsz]), hp]
      refine (hi.lend ha hb hp sz).handOut rfl ⟨hi.kept.inUse (x := .storage this) ⟨ha, hp⟩, ?_⟩
      rw [setBusy_heap, hi.capacity this b ha hp]
      exact hc

theorem Inv.alloc (hi : Inv s) (ha : s.alive this = true) (hfit : s.Fits (.alloc this sz throws)) :
    Inv (s.alloc this sz throws) := by
  obtain ⟨hthrows, hsz⟩ := hfit
  cases hb : (s.storage this).busy with
  | true =>
      cases throws with
      | true =>
          rw [alloc_of_busy_throws hb]
          exact hi
      | false =>
          have hlt := hsz fun _ => rfl
          rw [alloc_of_busy hb]
          refine (hi.overflow ha sz (sizePlus_lt sz pointerSize)).handOut rfl ⟨⟨?_, ?_⟩, ?_⟩
          · exact Nat.lt_succ_self _
          · exact hi.kept.fresh _ (Nat.le_refl _)
          · simp [BlockHeap.alloc, sizePlus, Nat.mod_eq_of_lt hlt]
  | false =>
      have hlt := hsz (by simp [hb])
      by_cases hc : sizePlus sz pointerSize ≤ (s.storage this).capacity
      · exact hi.alloc_fits ha hb hlt hc
      · rw [Nat.not_le] at hc
        obtain rfl := hthrows hb hc
        rw [alloc_of_grows hb hc]
        exact (hi.grow ha hb (sizePlus_lt sz pointerSize)).alloc_fits ha (by rw [grow_busy, hb])
          hlt le_grow_capacity

end Alloc

/-! ## The other calls -/

theorem Inv.mem_erase (hi : Inv s) {g : Frame} : g ∈ s.frames.erase f ↔ g ≠ f ∧ g ∈ s.frames :=
  hi.distinct.of_map.mem_erase_iff

/-- What is not said of the frame that is given back. -/
theorem Inv.exists_erase (hi : Inv s) {P : Frame → Prop} (hP : ¬ P f) :
    (∃ g ∈ s.frames.erase f, P g) ↔ ∃ g ∈ s.frames, P g := by
  constructor
  · rintro ⟨g, hg, hPg⟩
    exact ⟨g, (hi.mem_erase.mp hg).2, hPg⟩
  · rintro ⟨g, hg, hPg⟩
    have hne : g ≠ f := fun hgf => hP (hgf ▸ hPg)
    exact ⟨g, hi.mem_erase.mpr ⟨hne, hg⟩, hPg⟩

/-- The block of the storage comes back. -/
theorem Inv.giveBack (hi : Inv s) (hf : f ∈ s.frames) (hown : s.Own f) :
    Inv (({ s with frames := s.frames.erase f } : Storages).setBusy f.storage false) where
  defined := hi.defined
  kept := by
    refine hi.kept.congr fun x c => ?_
    cases x with
    | storage i => simp [Holds]
    | frame =>
        simp only [Holds, setBusy_own]
        exact hi.exists_erase fun ⟨_, ho⟩ => ho hown
  distinct := hi.distinct.sublist (List.erase_sublist.map _)
  owner g hg := hi.owner g (List.mem_of_mem_erase hg)
  alive g hg := hi.alive g (List.mem_of_mem_erase hg)
  busy i hi' := by
    by_cases hit : i = f.storage
    · subst hit
      simp only [setBusy_busy_self, Bool.false_eq_true, false_iff]
      rintro ⟨g, hg, hgs, hgo⟩
      obtain ⟨hne, hg⟩ := hi.mem_erase.mp hg
      rw [setBusy_own, Own, hgs] at hgo
      exact hne (hi.eq_of_ptr hg hf (hgo.trans hown.symm))
    · rw [setBusy_busy_of_ne false hit]
      simp only [setBusy_own]
      exact (hi.busy i hi').trans (hi.exists_erase fun ⟨hfi, _⟩ => hit hfi.symm).symm
  empty i hpi := by simpa using hi.empty i (by simpa using hpi)
  capacity i c hi' hpi := by simpa using hi.capacity i c hi' (by simpa using hpi)
  range := hi.range

/-- A block of the heap comes back. -/
theorem Inv.giveUp (hi : Inv s) (hf : f ∈ s.frames) (hown : ¬ s.Own f) :
    Inv { s with frames := s.frames.erase f, heap := s.heap.release f.ptr } where
  defined := hi.defined
  kept := by
    refine hi.kept.release (p := f.ptr) (y := .frame) (fun c hc => ⟨f, hf, hc, hown⟩)
      fun x c => ?_
    cases x with
    | storage i => simp [Holds]
    | frame =>
        constructor
        · rintro ⟨g, hg, hgc, ho⟩
          obtain ⟨hne, hg⟩ := hi.mem_erase.mp hg
          exact ⟨⟨g, hg, hgc, ho⟩, fun hc => hne (hi.eq_of_ptr hg hf (hgc.trans hc.2.symm))⟩
        · rintro ⟨⟨g, hg, hgc, ho⟩, hc⟩
          have hne : g ≠ f := fun hgf => hc ⟨rfl, hgf ▸ hgc⟩
          exact ⟨g, hi.mem_erase.mpr ⟨hne, hg⟩, hgc, ho⟩
  distinct := hi.distinct.sublist (List.erase_sublist.map _)
  owner g hg := by
    obtain ⟨hne, hg⟩ := hi.mem_erase.mp hg
    refine owner_congr (hi.owner g hg) fun c hc => ?_
    have hfc : f.ptr ≠ some c := fun hfc => hne (hi.eq_of_ptr hg hf (hc.trans hfc.symm))
    exact ⟨(hi.inUse hg hc).release hfc, by simp, by simp⟩
  alive g hg := hi.alive g (List.mem_of_mem_erase hg)
  busy i hi' := (hi.busy i hi').trans (hi.exists_erase fun ⟨_, ho⟩ => hown ho).symm
  empty := hi.empty
  capacity i c hi' hpi := by simpa using hi.capacity i c hi' hpi
  range c := by simpa using hi.range c

theorem Inv.dealloc (hi : Inv s) (hf : f ∈ s.frames) : Inv (s.dealloc f) := by
  simp only [Storages.dealloc, hi.owner f hf]
  split
  · next hown => exact hi.giveBack hf hown
  · next hown => exact hi.giveUp hf hown

theorem Inv.write (hi : Inv s) (hf : f ∈ s.frames) {off : Nat} (hoff : off < f.size)
    (v : BlockByte Nat) : Inv (s.write f off v) := by
  obtain ⟨b, hfb, -⟩ := owner_eq_some.mp (hi.owner f hf)
  rw [Storages.write, hfb]
  exact {
    defined := hi.defined
    kept := (hi.kept.withBytes _).congr fun x c => by cases x <;> rfl
    distinct := hi.distinct
    owner := fun g hg => by
      obtain ⟨c, hc, hload⟩ := owner_eq_some.mp (hi.owner g hg)
      refine owner_eq_some.mpr ⟨c, hc, BlockHeap.load_write (by decide) hload fun hbc => ?_⟩
      obtain rfl := hi.eq_of_ptr hf hg (by rw [hfb, hc, hbc])
      exact hoff
    alive := hi.alive
    busy := hi.busy
    empty := hi.empty
    capacity := hi.capacity
    range := hi.range }

/-- No frame of the storage is left. -/
theorem Inv.destroy (hi : Inv s) (ha : s.alive this = true)
    (hnone : ∀ f ∈ s.frames, f.storage ≠ this) : Inv (s.destroy this) := by
  have halive : ∀ i, (s.destroy this).alive i = true ↔ i ≠ this ∧ s.alive i = true := fun i => by
    by_cases hit : i = this <;> simp [Storages.destroy, hit]
  exact {
    defined := hi.defined
    kept := by
      refine hi.kept.release (p := (s.storage this).ptr) (y := .storage this)
        (fun c hc => ⟨ha, hc⟩) fun x c => ?_
      cases x with
      | storage i =>
          by_cases hit : i = this
          · simp [Holds, halive, hit]
          · simp [Holds, hit, Storages.destroy]
      | frame => simp [Holds, Own, Storages.destroy]
    distinct := hi.distinct
    owner := fun f hf => by
      refine owner_congr (hi.owner f hf) fun c hc => ?_
      have hne : (s.storage this).ptr ≠ some c := fun hp =>
        hnone f hf (hi.own_of_ptr ha hp hf hc).1
      exact ⟨(hi.inUse hf hc).release hne, by simp [Storages.destroy], by simp [Storages.destroy]⟩
    alive := fun f hf => (halive _).mpr ⟨hnone f hf, hi.alive f hf⟩
    busy := fun i hi' => hi.busy i ((halive i).mp hi').2
    empty := hi.empty
    capacity := fun i c hi' hpi => by
      simpa [Storages.destroy] using hi.capacity i c ((halive i).mp hi').2 hpi
    range := fun c => by simpa [Storages.destroy] using hi.range c }


/-- **Step lemma**. -/
theorem Inv.step {s' : Storages} {a : Action} (hi : Inv s) (hfit : s.Fits a)
    (hs : s.step a = some s') : Inv s' := by
  cases a with
  | alloc this sz throws =>
      obtain ⟨⟨ha, -⟩, rfl⟩ := Option.ite_some_none_eq_some.mp hs
      exact hi.alloc ha hfit
  | dealloc f =>
      obtain ⟨hf, rfl⟩ := Option.ite_some_none_eq_some.mp hs
      exact hi.dealloc hf
  | write f off v =>
      obtain ⟨⟨hf, hoff⟩, rfl⟩ := Option.ite_some_none_eq_some.mp hs
      exact hi.write hf hoff v
  | destroy this =>
      obtain ⟨⟨ha, hnone⟩, rfl⟩ := Option.ite_some_none_eq_some.mp hs
      exact hi.destroy ha hnone

/-! ## Every run -/

theorem Inv.inUse_iff (hi : Inv s) : s.InUse b ↔ ∃ x, s.Holds s.frames x b := by
  constructor
  · rintro (⟨f, hf, hfb⟩ | ⟨this, ha, hp⟩)
    · by_cases hown : s.Own f
      · exact ⟨.storage f.storage, hi.alive f hf, hown ▸ hfb⟩
      · exact ⟨.frame, f, hf, hfb, hown⟩
    · exact ⟨.storage this, ha, hp⟩
  · rintro ⟨x, hx⟩
    cases x with
    | storage this => exact .inr ⟨this, hx⟩
    | frame =>
        obtain ⟨f, hf, hfb, -⟩ := hx
        exact .inl ⟨f, hf, hfb⟩

theorem Inv.memorySafe (hi : Inv s) : MemorySafe s where
  defined := hi.defined
  distinct := hi.distinct
  large f hf := by
    obtain ⟨b, hfb, hload⟩ := owner_eq_some.mp (hi.owner f hf)
    exact ⟨b, hfb, ((BlockHeap.load_eq_some (by decide)).mp hload).1.2⟩
  recovered := hi.owner
  once b hb := by
    obtain ⟨hzero, hone⟩ := hi.kept.released_iff hb
    rw [← hi.inUse_iff] at hzero hone
    exact ⟨hzero.mpr, hone.mpr⟩
  busy := hi.busy

/-- A frame so large that no block has room for it. -/
theorem not_memorySafe_handOut (hr : ∀ b, s.heap.size b < sizeRange)
    (hbig : sizeRange ≤ f.size + pointerSize) : ¬ MemorySafe (s.handOut f) := by
  have hsize : (s.handOut f).heap.size = s.heap.size := by
    rw [handOut]
    split
    · next h hs =>
      obtain ⟨b, -, hstore⟩ := Option.bind_eq_some_iff.mp hs
      rw [(BlockHeap.inside_of_store hstore).2]
      rfl
    · rfl
  have hmem : f ∈ (s.handOut f).frames := by
    rw [handOut]
    split <;> exact List.mem_cons_self
  intro hsafe
  obtain ⟨b, -, hlarge⟩ := hsafe.large f hmem
  rw [hsize] at hlarge
  exact absurd (Nat.le_trans hbig hlarge) (Nat.not_le.mpr (hr b))

/-- `_busy` stays `true`, and nobody has the block of the storage. -/
theorem Inv.not_memorySafe_throws (hi : Inv s) (ha : s.alive this = true)
    (hb : (s.storage this).busy = false) {sz : Nat}
    (hc : (s.storage this).capacity < sizePlus sz pointerSize) :
    ¬ MemorySafe (s.alloc this sz true) := by
  rw [alloc_of_throws hb hc]
  intro hsafe
  obtain ⟨f, hf, hft, hown⟩ := (hsafe.busy this ha).mp (setBusy_busy_self true)
  exact hi.not_own ha hb hf hft ((setBusy_own true).mp hown)

theorem Inv.not_memorySafe {s' : Storages} {a : Action} (hi : Inv s) (hfit : ¬ s.Fits a)
    (hs : s.step a = some s') : ¬ MemorySafe s' := by
  cases a with
  | alloc this sz throws =>
      obtain ⟨⟨ha, -⟩, rfl⟩ := Option.ite_some_none_eq_some.mp hs
      have hn := sizePlus_lt sz pointerSize
      cases hb : (s.storage this).busy with
      | true =>
          -- the call returns, and the size has wrapped
          have hwraps : throws = false ∧ sizeRange ≤ sz + pointerSize := by
            simpa [Fits, hb] using hfit
          obtain ⟨rfl, hbig⟩ := hwraps
          rw [alloc_of_busy hb]
          exact not_memorySafe_handOut (hi.overflow ha sz hn).range hbig
      | false =>
          by_cases hc : sizePlus sz pointerSize ≤ (s.storage this).capacity
          · have hbig : sizeRange ≤ sz + pointerSize := by
              simpa [Fits, hb, Nat.not_lt.mpr hc] using hfit
            rw [alloc_of_fits hb hc]
            exact not_memorySafe_handOut hi.range hbig
          · rw [Nat.not_le] at hc
            cases throws with
            | true => exact hi.not_memorySafe_throws ha hb hc
            | false =>
                have hbig : sizeRange ≤ sz + pointerSize := by simpa [Fits, hb] using hfit
                have hgrown := hi.grow ha hb hn
                rw [alloc_of_grows hb hc, alloc_of_fits (by rw [grow_busy, hb]) le_grow_capacity]
                exact not_memorySafe_handOut hgrown.range hbig
  | dealloc | write | destroy => exact absurd trivial hfit

/-- **No memory in use is handed out**, in any state of a run, exactly if every `alloc` fits. -/
theorem memorySafe_iff (bytes : Nat → Nat → BlockByte Nat) (as : List Action) :
    (∀ n, MemorySafe (Run.exec step (start bytes) (as.take n))) ↔
      Run.Meets step Fits (start bytes) as :=
  Run.safe_iff_meets (fun _ _ _ => Inv.step) (fun _ _ _ => Inv.not_memorySafe)
    (fun _ => Inv.memorySafe) (inv_start bytes) as

/-- The memory is all zero at the start. -/
def zeros : Nat → Nat → BlockByte Nat := fun _ _ => .data 0

/-- The second frame is larger than any block: the block of the storage is deleted by `alloc`, and
once more by the destructor. -/
def throwingRun : List Action :=
  [.alloc 0 100 false, .dealloc ⟨some 0, 100, 0⟩, .alloc 0 0x8000000000000000 true, .destroy 0]

/-- The frame is one byte short of the range of `std::size_t`. -/
def wrappingRun : List Action := [.alloc 0 0xffffffffffffffff false]

theorem memorySafe_fails :
    ((Run.exec step (start zeros) throwingRun).heap.released 0 = 2 ∧
      ¬ MemorySafe (Run.exec step (start zeros) throwingRun)) ∧
    ¬ MemorySafe (Run.exec step (start zeros) wrappingRun) := by
  have htwice : (Run.exec step (start zeros) throwingRun).heap.released 0 = 2 := by decide
  refine ⟨⟨htwice, fun hsafe => ?_⟩, fun hsafe => ?_⟩
  · obtain ⟨hused, hfree⟩ := hsafe.once 0 (by decide)
    rw [htwice] at hused hfree
    exact absurd (hfree fun hu => absurd (hused hu) (by decide)) (by decide)
  · obtain ⟨b, hb, hlarge⟩ := hsafe.large ⟨some 0, 0xffffffffffffffff, 0⟩ (by decide)
    cases hb
    exact absurd hlarge (by decide)

end Storages

end CoroStorage

end Cocls
