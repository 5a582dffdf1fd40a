import Mathlib.Data.List.Basic

/-!
# Cocls.Publisher

The queue of a publisher (`publisher<T>::queue`), one function under its lock at
a time.

The queue keeps the newest published values, newest first, and a table of
registrations.  A registration in use has the position its subscriber has read
up to; one not in use has the next free registration in the same field.  The
stream position `pos` is one more than the number of published values: the value
at position `p` is found at index `pos - p - 1`.
-/

namespace Cocls

/-- `subscribtion_type`. -/
inductive SubscribtionType where
  | allValues
  | skipIfBehind
  | skipToRecent
deriving DecidableEq, Repr

namespace Publisher

/-- The difference of two `size_t`, which wraps. -/
def sizeSub (a b : Nat) : Nat := if b ≤ a then a - b else 0x10000000000000000 + a - b

@[simp] theorem sizeSub_of_le {a b : Nat} (h : b ≤ a) : sizeSub a b = a - b := if_pos h

/-- The limits of a queue, as its constructor asserts them. -/
structure Limits where
  maxQueueLen : Nat := 0xFFFFFFFFFFFFFFFF
  minQueueLen : Nat := 1
  min_pos : 0 < minQueueLen := by decide
  min_le_max : minQueueLen ≤ maxQueueLen := by decide

/-- `subreg_t`; subscribers and awaiters are known by an address. -/
structure SubReg where
  /-- the reading position; the next free registration when not in use -/
  pos : Nat
  sub : Nat
  awt : Option Nat := none
  used : Bool := true
  kicked : Bool := false
  /-- history: the user gave the position at which the subscriber, or the one it is a copy
  of, started -/
  given : Bool := false
deriving DecidableEq, Repr

/-- `publisher<T>::queue`. -/
structure Queue (T : Type*) where
  limits : Limits := {}
  regs : List SubReg := []
  nextFree : Nat := 0
  /-- the newest values, newest first -/
  q : List T := []
  pos : Nat := 1
  closed : Bool := false

namespace Queue

variable {T : Type*}

/-! ## Registrations -/

/-- `subscribe_lk(sub, pos)`: the handle is the first free registration, or a new one. -/
def subscribeLk (s : Queue T) (sub pos : Nat) (given : Bool) : Queue T × Nat :=
  let reg : SubReg := { pos := pos, sub := sub, given := given }
  match s.regs[s.nextFree]? with
  | none => ({ s with regs := s.regs ++ [reg], nextFree := s.regs.length + 1 }, s.regs.length)
  | some l => ({ s with regs := s.regs.set s.nextFree reg, nextFree := l.pos }, s.nextFree)

/-- `subscribe_lk(sub)`: at the most recent position. -/
def subscribeRecentLk (s : Queue T) (sub : Nat) : Queue T × Nat :=
  s.subscribeLk sub (sizeSub s.pos 1) false

/-- `subscribe_lk(h, sub)`: at the position of another subscriber; `none`: the
handle is outside the table. -/
def subscribeCopyLk (s : Queue T) (h sub : Nat) : Option (Queue T × Nat) :=
  s.regs[h]?.map fun l => s.subscribeLk sub l.pos l.given

/-- `leave_lk(h)`. -/
def leaveLk (s : Queue T) (h : Nat) : Option (Queue T) :=
  s.regs[h]?.map fun l =>
    { s with regs := s.regs.set h { l with pos := s.nextFree, used := false }, nextFree := h }

/-! ## Reading -/

/-- `l._pos+1`, a `size_t`, which wraps.  The last `size_t` is come to by a subscriber that
was given a position ahead of the stream; a position counted up from the start of the
stream stays below it, since there are fewer than `2^64` values and calls. -/
def succPos (s : Queue T) (l : SubReg) : Nat :=
  if l.given ∧ s.pos < l.pos ∧ l.pos = 0xFFFFFFFFFFFFFFFF then 0 else l.pos + 1

/-- A position that was not given does not wrap. -/
theorem succPos_of_not_given {s : Queue T} {l : SubReg} (h : l.given = false) :
    s.succPos l = l.pos + 1 :=
  if_neg fun hw => Bool.false_ne_true (h.symm.trans hw.1)

/-- Up to the position of the stream nothing wraps. -/
theorem succPos_of_le {s : Queue T} {l : SubReg} (h : l.pos ≤ s.pos) :
    s.succPos l = l.pos + 1 :=
  if_neg fun hw => Nat.not_lt_of_le h hw.2.1

/-- The reading position after `advance_lk`. -/
def advancedPos (s : Queue T) (l : SubReg) : SubscribtionType → Nat
  | .allValues => s.succPos l
  | .skipIfBehind => max (s.succPos l) (sizeSub s.pos s.q.length)
  | .skipToRecent => max (s.succPos l) (sizeSub s.pos 1)

/-- What `advance_lk` does to the registration, and whether `get_value` may follow at
once. -/
def advanceReg (s : Queue T) (l : SubReg) (t : SubscribtionType) : SubReg × Bool :=
  if l.kicked then (l, false)
  else if s.succPos l = s.pos ∧ s.closed = false then (l, false)
  else ({ l with pos := s.advancedPos l t }, true)

/-- What `advance_lk` comes to. -/
theorem advanceReg_cases (s : Queue T) (l : SubReg) (t : SubscribtionType) :
    (l.kicked = true ∧ s.advanceReg l t = (l, false)) ∨
      (s.succPos l = s.pos ∧ s.closed = false ∧ s.advanceReg l t = (l, false)) ∨
      (l.kicked = false ∧ (s.succPos l = s.pos → s.closed = true) ∧
        s.advanceReg l t = ({ l with pos := s.advancedPos l t }, true)) := by
  unfold advanceReg
  split_ifs with hk hw
  · exact .inl ⟨hk, rfl⟩
  · exact .inr (.inl ⟨hw.1, hw.2, rfl⟩)
  · refine .inr (.inr ⟨by simpa using hk, fun hp => ?_, rfl⟩)
    simpa [hp] using hw

/-- `advance_lk(h, t)`. -/
def advanceLk (s : Queue T) (h : Nat) (t : SubscribtionType) : Option (Queue T × Bool) :=
  s.regs[h]?.map fun l =>
    ({ s with regs := s.regs.set h (s.advanceReg l t).1 }, (s.advanceReg l t).2)

/-- What `advance_suspend_lk` does to the registration, and whether the awaiter waits
for the next value. -/
def suspendReg (s : Queue T) (l : SubReg) (awt : Nat) : SubReg × Bool :=
  if l.kicked ∨ s.closed then (l, false)
  else if s.succPos l = s.pos then ({ l with pos := s.succPos l, awt := some awt }, true)
  else ({ l with pos := s.succPos l }, false)

/-- What `advance_suspend_lk` comes to. -/
theorem suspendReg_cases (s : Queue T) (l : SubReg) (awt : Nat) :
    ((l.kicked = true ∨ s.closed = true) ∧ s.suspendReg l awt = (l, false)) ∨
      (l.kicked = false ∧ s.closed = false ∧ s.succPos l = s.pos ∧
        s.suspendReg l awt = ({ l with pos := s.succPos l, awt := some awt }, true)) ∨
      (l.kicked = false ∧ s.closed = false ∧ s.succPos l ≠ s.pos ∧
        s.suspendReg l awt = ({ l with pos := s.succPos l }, false)) := by
  unfold suspendReg
  split_ifs with hk hp
  · exact .inl ⟨hk, rfl⟩
  · simp only [not_or, Bool.not_eq_true] at hk
    exact .inr (.inl ⟨hk.1, hk.2, hp, rfl⟩)
  · simp only [not_or, Bool.not_eq_true] at hk
    exact .inr (.inr ⟨hk.1, hk.2, hp, rfl⟩)

/-- `advance_suspend_lk(h, awt)`. -/
def advanceSuspendLk (s : Queue T) (h awt : Nat) : Option (Queue T × Bool) :=
  s.regs[h]?.map fun l =>
    ({ s with regs := s.regs.set h (s.suspendReg l awt).1 }, (s.suspendReg l awt).2)

/-- The index in `_q` that `get_value_lk` reads, or `none` for the end of the stream. -/
def readIndex (s : Queue T) (l : SubReg) (t : SubscribtionType) : Option Nat :=
  if l.kicked ∨ l.pos = s.pos then none
  else
    let relpos := sizeSub (sizeSub s.pos l.pos) 1
    match t with
    | .allValues => if relpos ≥ s.q.length then none else some relpos
    | .skipIfBehind => some (if relpos ≥ s.q.length then sizeSub s.q.length 1 else relpos)
    | .skipToRecent => some 0

/-- What `get_value_lk` comes to: the end of the stream, a value with its position in
the stream, or a read outside `_q`. -/
inductive Read (T : Type*) where
  | ended
  | value (pos : Nat) (v : T)
  | outside
deriving DecidableEq, Repr

/-- `get_value_lk(h, type)` on the registration of `h`. -/
def readReg (s : Queue T) (l : SubReg) (t : SubscribtionType) : Read T :=
  match s.readIndex l t with
  | none => .ended
  | some i =>
      match s.q[i]? with
      | some v => .value (s.pos - 1 - i) v
      | none => .outside

/-- `get_value_lk(h, type)`. -/
def getValueLk (s : Queue T) (h : Nat) (t : SubscribtionType) : Option (Read T) :=
  s.regs[h]?.map fun l => s.readReg l t

/-! ## Publishing -/

/-- The awaiters `push_lk` wakes up, in the order of the table. -/
def wakeups (s : Queue T) : List Nat :=
  s.regs.filterMap fun x => if x.used then x.awt else none

/-- The table after `push_lk`. -/
def awakened (s : Queue T) : List SubReg :=
  s.regs.map fun x => if x.used then { x with awt := none } else x

/-- The length of the queue that the registrations need at stream position `pos`. -/
def needLen (s : Queue T) (pos : Nat) : Nat :=
  s.regs.foldl (fun n x => if x.used then max n (sizeSub pos x.pos) else n) s.limits.minQueueLen

/-- `push_lk(count)`, after the values were put in front of the queue: the awaiters
are resumed once the lock is released. -/
def pushLk (s : Queue T) (count : Nat) : Queue T × List Nat :=
  let pos := s.pos + count
  ({ s with pos := pos, regs := s.awakened
            q := s.q.take (min (s.needLen pos) (min s.limits.maxQueueLen s.q.length)) },
    s.wakeups)

/-- `push(val)`. -/
def push (s : Queue T) (val : T) : Queue T × List Nat := { s with q := val :: s.q }.pushLk 1

/-- `push(from, to)`. -/
def pushAll (s : Queue T) (vals : List T) : Queue T × List Nat :=
  if vals.length = 0 then (s, [])
  else { s with q := vals.reverse ++ s.q }.pushLk vals.length

/-- `close()`. -/
def close (s : Queue T) : Queue T × List Nat :=
  if s.closed then (s, []) else { s with closed := true }.pushLk 0

/-- `kick(sub)`: the first registration of the subscriber is kicked and its awaiter
resumed. -/
def kick (s : Queue T) (sub : Nat) : Queue T × List Nat :=
  match s.regs.findIdx? fun x => x.used && x.sub = sub with
  | none => (s, [])
  | some i =>
      ({ s with regs := s.regs.modify i fun x => { x with awt := none, kicked := true } },
        ((s.regs[i]?).bind SubReg.awt).toList)

/-- Publishing one value is publishing a batch of one. -/
theorem pushAll_singleton (s : Queue T) (val : T) : s.pushAll [val] = s.push val := rfl

end Queue

end Publisher

end Cocls
