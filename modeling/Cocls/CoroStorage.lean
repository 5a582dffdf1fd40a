import Cocls.BlockHeap
import Cocls.Run

/-!
# Cocls.CoroStorage

`reusable_storage` and `reusable_storage_mtsafe`: memory for coroutine frames.

A storage keeps one block of its own, which grows and is used again.  The mt-safe
storage hands it out to one coroutine at a time (`_busy`); a frame that is
allocated in the meantime gets a block from the heap.  Behind each frame stands a
pointer to the storage, and `dealloc`, which is static, has nothing else to tell
it where the frame came from.

All storages of a program share the heap.  A coroutine writes to its own frame.
-/

namespace Cocls

namespace CoroStorage

/-- A `std::size_t` is smaller than this. -/
def sizeRange : Nat := 0x10000000000000000

/-- `a + b` of two `std::size_t`. -/
def sizePlus (a b : Nat) : Nat := (a + b) % sizeRange

/-- `sizeof(reusable_storage_mtsafe **)`. -/
def pointerSize : Nat := 8

/-- `std::bad_alloc`. -/
inductive BadAlloc where
  | badAlloc
deriving DecidableEq, Repr

/-- The heap; the pointers that are stored in it point to storages. -/
abbrev Heap := BlockHeap Nat

/-- `::operator new(n)`. -/
def operatorNew (h : Heap) (n : Nat) (throws : Bool) : Heap × Except BadAlloc Nat :=
  if throws then (h, .error .badAlloc) else (h.alloc n, .ok h.count)

structure ReusableStorage where
  /-- `_ptr` -/
  ptr : Option Nat := none
  /-- `_capacity` -/
  capacity : Nat := 0
deriving DecidableEq, Repr

/-- `reusable_storage::alloc`.  When `::operator new` throws, `_ptr` points to the block that was
deleted. -/
def ReusableStorage.alloc (st : ReusableStorage) (h : Heap) (sz : Nat) (throws : Bool) :
    Heap × ReusableStorage × Except BadAlloc (Option Nat) :=
  if st.capacity < sz then
    match operatorNew (h.release st.ptr) sz throws with
    | (h, .error e) => (h, st, .error e)
    | (h, .ok b) => (h, { ptr := some b, capacity := sz }, .ok (some b))
  else (h, st, .ok st.ptr)

structure ReusableStorageMtsafe extends ReusableStorage where
  /-- `_busy` -/
  busy : Bool := false
deriving DecidableEq, Repr

/-- The memory for `n` bytes: from the heap if `_busy.exchange(true)` gives `true`, else the block
of the storage. -/
def ReusableStorageMtsafe.obtain (st : ReusableStorageMtsafe) (h : Heap) (n : Nat)
    (throws : Bool) : Heap × ReusableStorageMtsafe × Except BadAlloc (Option Nat) :=
  if st.busy then
    let (h, p) := operatorNew h n throws
    (h, { st with busy := true }, p.map some)
  else
    let (h, base, p) := st.toReusableStorage.alloc h n throws
    (h, { base with busy := true }, p)

/-- What a call of `alloc` handed out. -/
structure Frame where
  ptr : Option Nat
  /-- the size that was asked for -/
  size : Nat
  /-- history: the storage that was asked -/
  storage : Nat
deriving DecidableEq, Repr

/-- The storages of a program, their heap, and the frames that are alive. -/
structure Storages where
  heap : Heap
  storage : Nat → ReusableStorageMtsafe := fun _ => {}
  /-- the storage was not destroyed -/
  alive : Nat → Bool := fun _ => true
  /-- history: handed out by `alloc`, and not given back -/
  frames : List Frame := []
  /-- history: memory was accessed that does not belong to a block in use -/
  undefined : Bool := false

inductive Action where
  /-- storage `this`; `throws`: `::operator new` throws when it is called -/
  | alloc (this sz : Nat) (throws : Bool)
  | dealloc (f : Frame)
  /-- the coroutine writes byte `off` of its frame -/
  | write (f : Frame) (off : Nat) (v : BlockByte Nat)
  | destroy (this : Nat)
deriving DecidableEq, Repr

namespace Storages

variable (s : Storages)

/-- `*s = this; return p;` -/
def handOut (f : Frame) : Storages :=
  match f.ptr.bind fun b => s.heap.store pointerSize b f.size f.storage with
  | some h => { s with heap := h, frames := f :: s.frames }
  | none => { s with undefined := true, frames := f :: s.frames }

/-- `alloc`. -/
def alloc (this sz : Nat) (throws : Bool) : Storages :=
  match (s.storage this).obtain s.heap (sizePlus sz pointerSize) throws with
  | (h, st, r) =>
    let s := { s with heap := h, storage := Function.update s.storage this st }
    match r with
    | .error _ => s
    | .ok p => s.handOut { ptr := p, size := sz, storage := this }

/-- `*s`: the pointer behind the frame. -/
def owner (f : Frame) : Option Nat := f.ptr.bind fun b => s.heap.load pointerSize b f.size

/-- `dealloc(f.ptr, f.size)`. -/
def dealloc (f : Frame) : Storages :=
  let s' := { s with frames := s.frames.erase f }
  match s.owner f with
  | none => { s' with undefined := true }
  | some me =>
    if f.ptr = (s.storage me).ptr then
      { s' with storage := Function.update s.storage me { s.storage me with busy := false } }
    else { s' with heap := s.heap.release f.ptr }

/-- The coroutine writes to its frame. -/
def write (f : Frame) (off : Nat) (v : BlockByte Nat) : Storages :=
  match f.ptr with
  | some b => { s with heap := s.heap.write b off v }
  | none => { s with undefined := true }

/-- `~reusable_storage()`. -/
def destroy (this : Nat) : Storages :=
  { s with heap := s.heap.release (s.storage this).ptr
           alive := Function.update s.alive this false }

/-- One call.  A frame is given back once and with its own size, and a storage is there as long as
its frames are. -/
def step (s : Storages) : Action → Option Storages
  | .alloc this sz throws =>
      if s.alive this = true ∧ sz < sizeRange then some (s.alloc this sz throws)
      else none
  | .dealloc f => if f ∈ s.frames then some (s.dealloc f) else none
  | .write f off v => if f ∈ s.frames ∧ off < f.size then some (s.write f off v) else none
  | .destroy this =>
      if s.alive this = true ∧ ∀ f ∈ s.frames, f.storage ≠ this then some (s.destroy this)
      else none

/-- Nothing was called yet; `bytes` is what is in memory. -/
def start (bytes : Nat → Nat → BlockByte Nat) : Storages := { heap := { bytes := bytes } }

end Storages

end CoroStorage

end Cocls
