import Cocls.CoroStorage

/-!
# Cocls.CoroStorage.StackStorage

`stack_storage`: a coroutine frame in the stack frame of a function.

The function constructs a storage from a shared state, a number that says how much
memory the frame took before, and gives it that much memory by `alloca`; the memory
is there until the function returns.  A frame that is too large for it comes from
the heap, and the state is set to what it took.  The byte behind a frame tells the
static `dealloc` where the frame is.
-/

namespace Cocls

namespace CoroStorage

/-- `stack_storage`, after `storage = alloca(storage)`. -/
structure StackStorage where
  /-- the shared state that `_state` refers to -/
  state : Nat
  /-- `_alloc_size` -/
  allocSize : Nat
  /-- `_alloc_ptr` -/
  allocPtr : Nat
  /-- history: when the storage was constructed, a frame for its state had been on the heap -/
  informed : Bool
deriving DecidableEq, Repr

/-- The functions with storages, and the frames that are alive. -/
structure Stacks where
  heap : Heap
  /-- the shared states -/
  state : Nat → Nat
  /-- the storages of the functions that did not return -/
  storage : Nat → Option StackStorage := fun _ => none
  /-- history: handed out by `alloc`, and not given back -/
  frames : List Frame := []
  /-- history: the frames on the heap, by their state, and whether their storage was informed -/
  news : List (Nat × Bool) := []
  /-- history: memory was accessed that does not belong to a block in use -/
  undefined : Bool := false

namespace Stacks

inductive Action where
  /-- function `k`: `stack_storage storage(state); storage = alloca(storage);` -/
  | enter (k state : Nat)
  /-- the storage of function `k`; `throws`: `::operator new` throws when it is called -/
  | alloc (k sz : Nat) (throws : Bool)
  | dealloc (f : Frame)
  /-- the coroutine writes byte `off` of its frame -/
  | write (f : Frame) (off : Nat) (v : BlockByte Nat)
  /-- function `k` returns -/
  | leave (k : Nat)
deriving DecidableEq, Repr

section Ops

variable (s : Stacks)

/-- The constructor, and `alloca`. -/
def enter (k state : Nat) : Stacks :=
  { s with
    heap := s.heap.alloc (s.state state)
    storage := Function.update s.storage k <| some
      { state := state, allocSize := s.state state, allocPtr := s.heap.count
        informed := s.news.any fun x => x.1 = state } }

/-- `*flag = onHeap; return ptr;` -/
def handOut (f : Frame) (b onHeap : Nat) : Stacks :=
  if s.heap.Inside b f.size 1 then
    { s with heap := s.heap.write b f.size (.data onHeap), frames := f :: s.frames }
  else { s with undefined := true, frames := f :: s.frames }

/-- `alloc`. -/
def alloc (k : Nat) (st : StackStorage) (sz : Nat) (throws : Bool) : Stacks :=
  if sizePlus sz 1 ≤ st.allocSize then
    s.handOut { ptr := some st.allocPtr, size := sz, storage := k } st.allocPtr 0
  else
    match operatorNew s.heap (sizePlus sz 1) throws with
    | (h, .error _) => { s with heap := h }
    | (h, .ok b) =>
        let s := { s with heap := h
                          state := Function.update s.state st.state (sizePlus sz 1)
                          news := s.news ++ [(st.state, st.informed)] }
        s.handOut { ptr := some b, size := sz, storage := k } b 1

/-- `*flag`: the byte behind the frame. -/
def flag (f : Frame) : Option Bool :=
  match f.ptr with
  | none => none
  | some b =>
      if s.heap.Inside b f.size 1 then
        match s.heap.bytes b f.size with
        | .data n => some (n != 0)
        | .part _ _ => none
      else none

/-- `dealloc(f.ptr, f.size)`. -/
def dealloc (f : Frame) : Stacks :=
  let s' := { s with frames := s.frames.erase f }
  match s.flag f with
  | none => { s' with undefined := true }
  | some true => { s' with heap := s.heap.release f.ptr }
  | some false => s'

/-- The coroutine writes to its frame. -/
def write (f : Frame) (off : Nat) (v : BlockByte Nat) : Stacks :=
  match f.ptr with
  | some b => { s with heap := s.heap.write b off v }
  | none => { s with undefined := true }

/-- The stack frame of the function is gone. -/
def leave (k : Nat) (st : StackStorage) : Stacks :=
  { s with heap := s.heap.release (some st.allocPtr)
           storage := Function.update s.storage k none }

end Ops

/-- One step. -/
def step (s : Stacks) : Action → Option Stacks
  | .enter k state => if s.storage k = none then some (s.enter k state) else none
  | .alloc k sz throws =>
      if sz < sizeRange then (s.storage k).map fun st => s.alloc k st sz throws else none
  | .dealloc f => if f ∈ s.frames then some (s.dealloc f) else none
  | .write f off v => if f ∈ s.frames ∧ off < f.size then some (s.write f off v) else none
  | .leave k => (s.storage k).map fun st => s.leave k st

/-- No function with a storage was called yet; `bytes` is what is in memory. -/
def start (bytes : Nat → Nat → BlockByte Nat) (state : Nat → Fin sizeRange) : Stacks :=
  { heap := { bytes := bytes }, state := fun v => state v }

/-! ## What the storages are for -/

/-- The frame is in the stack frame of a function that did not return. -/
def OnStack (s : Stacks) (f : Frame) : Prop :=
  ∃ k st, s.storage k = some st ∧ f.ptr = some st.allocPtr

/-- A frame is in the block, or it belongs to the stack frame of a function. -/
def InUse (s : Stacks) (b : Nat) : Prop :=
  (∃ f ∈ s.frames, f.ptr = some b) ∨ ∃ k st, s.storage k = some st ∧ st.allocPtr = b

/-- Memory in use is not handed out. -/
structure MemorySafe (s : Stacks) : Prop where
  /-- every access was to a block in use -/
  defined : s.undefined = false
  distinct : (s.frames.map Frame.ptr).Nodup
  /-- there is room for the frame and the byte behind it -/
  large : ∀ f ∈ s.frames, ∃ b, f.ptr = some b ∧ f.size + 1 ≤ s.heap.size b
  /-- `dealloc` would find out where the frame is -/
  recovered : ∀ f ∈ s.frames, (s.OnStack f ∧ s.flag f = some false) ∨
    (¬ s.OnStack f ∧ s.flag f = some true)
  /-- a block is released once, when it is not in use any more -/
  once : ∀ b < s.heap.count,
    (s.InUse b → s.heap.released b = 0) ∧ (¬ s.InUse b → s.heap.released b = 1)

/-- A storage holds one frame at a time on the stack, which is gone when the function returns; and
the size of a frame and one more byte is a `std::size_t`. -/
def Fits (s : Stacks) : Action → Prop
  | .alloc k sz _ => sz + 1 < sizeRange ∧ ∀ st, s.storage k = some st → sz + 1 ≤ st.allocSize →
      ∀ f ∈ s.frames, f.ptr ≠ some st.allocPtr
  | .leave k => ∀ st, s.storage k = some st → ∀ f ∈ s.frames, f.ptr ≠ some st.allocPtr
  | .enter _ _ | .dealloc _ | .write _ _ _ => True

/-- All frames for the state `v` have `n` bytes. -/
def SameSize (v n : Nat) (s : Stacks) : Action → Prop
  | .alloc k sz _ => ∀ st, s.storage k = some st → st.state = v → sz = n
  | _ => True

/-- Where the frames for the state `v` have `n` bytes each, they get to the stack. -/
structure Learns (v n : Nat) (s : Stacks) : Prop where
  /-- the first frame on the heap sets the state -/
  state : (∃ x ∈ s.news, x.1 = v) → s.state v = n + 1
  /-- a storage that is constructed after that has its frames on the stack -/
  onStack : (v, true) ∉ s.news

end Stacks

end CoroStorage

end Cocls
