import Mathlib.Logic.Function.Basic
import Cocls.Owners
import Cocls.Run

/-!
# Cocls.Functions

`function`, which holds a target that can be moved but not copied.

A target of at most `small_space` bytes is put into the `space` of its function,
and to move the function is to construct the target anew in the `space` of the
other one and to destroy the old one.  A larger target is on the heap, and stays
there; its pointer moves.

The move constructor of a target in place may throw.  Targets have numbers, in
the order in which they are constructed.

Modelled are the functions `function<Ret(Args...), small_space>` of one
`small_space`, with targets given as rvalues.  Not modelled are the move from a
function of another `small_space`, and `noexcept` prototypes: where the target
of such a function throws, the call ends in `std::terminate`.
-/

namespace Cocls

/-- What a `FnInst<Fn>` stores: its size, and the state of its `_fn`. -/
structure Closure (S : Type*) where
  size : Nat
  state : S
deriving DecidableEq, Repr

namespace Functions

/-- Where a target is. -/
inductive Storage where
  /-- a `FnInst` on the heap -/
  | heap
  /-- a `FnInstSmall` in the `space` of function `i` -/
  | space (i : Nat)
deriving DecidableEq, Repr

structure Target (S : Type*) where
  closure : Closure S
  storage : Storage
deriving DecidableEq, Repr

/-- What a call gives. -/
inductive Answer (R : Type*) where
  /-- what the target gave, a value or an exception -/
  | given (r : R)
  /-- `std::bad_function_call` is thrown -/
  | badFunctionCall
deriving DecidableEq, Repr

/-- What is done to functions, which have numbers. -/
inductive Action (S A : Type*) where
  | empty (i : Nat)
  /-- the constructor with a target, whose own constructor may throw -/
  | construct (i : Nat) (c : Closure S) (throws : Bool)
  /-- a move constructor of the target that throws leaves its source in some state -/
  | moveConstruct (i j : Nat) (throws : Option S)
  | moveAssign (i j : Nat) (throws : Option S)
  | destroy (i : Nat)
  | call (i : Nat) (a : A)
deriving DecidableEq, Repr

end Functions

open Functions

structure Functions (S R : Type*) where
  /-- the functions that exist, with their `_ptr` -/
  ptr : Nat → Option (Option Nat) := fun _ => none
  /-- the targets that exist -/
  target : Nat → Option (Target S) := fun _ => none
  count : Nat := 0
  /-- history: the targets that were destroyed -/
  deleted : List Nat := []
  /-- history: what the calls gave -/
  answers : List (Nat × Answer R) := []
  /-- a target was used that does not exist -/
  undefined : Bool := false

namespace Functions

variable {S A R : Type*}

section Ops

variable (s : Functions S R)

def setPtr (i : Nat) (p : Option (Option Nat)) : Functions S R :=
  { s with ptr := Function.update s.ptr i p }

/-- A target is constructed. -/
def new (x : Target S) : Functions S R :=
  { s with target := Function.update s.target s.count (some x), count := s.count + 1 }

/-- `delete` of a pointer. -/
def delete (p : Option Nat) : Functions S R :=
  match p with
  | none => s
  | some t =>
      match s.target t with
      | none => { s with undefined := true }
      | some _ =>
          { s with target := Function.update s.target t none, deleted := s.deleted ++ [t] }

def setState (t : Nat) (state : S) : Functions S R :=
  { s with target := Function.update s.target t ((s.target t).map fun x =>
      { x with closure := { x.closure with state := state } }) }

variable (smallSpace : Nat)

/-- The storage for a target of function `i`. -/
def storageFor (i : Nat) (c : Closure S) : Storage :=
  if c.size ≤ smallSpace then .space i else .heap

/-- `init` of function `i`. -/
def init (i : Nat) (c : Closure S) : Functions S R :=
  (s.new ⟨c, storageFor smallSpace i c⟩).setPtr i (some (some s.count))

/-- `Abstract::move` of the target `t` into the `space` of function `i`: the pointer to the target
after it, unless an exception is thrown. -/
def move (t i : Nat) (throws : Option S) : Functions S R × Option Nat :=
  match s.target t with
  | none => ({ s with undefined := true }, none)
  | some x =>
      match x.storage, throws with
      | .heap, _ => (s, some t)
      | .space _, some state => (s.setState t state, none)
      | .space _, none =>
          ((s.new ⟨x.closure, storageFor smallSpace i x.closure⟩).delete (some t), some s.count)

/-- `_ptr = other._ptr?other._ptr->move(space, small_space):nullptr; other._ptr = nullptr`, where
`p` is `other._ptr`. -/
def takeOver (i j : Nat) (p : Option Nat) (throws : Option S) : Functions S R :=
  match p with
  | none => (s.setPtr i (some none)).setPtr j (some none)
  | some t =>
      match s.move smallSpace t i throws with
      | (s, none) => s
      | (s, some t) => (s.setPtr i (some (some t))).setPtr j (some none)

/-- `operator()` -/
def call (body : S → A → S × R) (i : Nat) (p : Option Nat) (a : A) : Functions S R :=
  match p with
  | none => { s with answers := s.answers ++ [(i, .badFunctionCall)] }
  | some t =>
      match s.target t with
      | none => { s with undefined := true }
      | some x =>
          { s.setState t (body x.closure.state a).1 with
            answers := s.answers ++ [(i, .given (body x.closure.state a).2)] }

end Ops

/-- The next action. Nothing is said of a program that has used a target that does not exist. -/
def step (smallSpace : Nat) (body : S → A → S × R) (s : Functions S R) :
    Action S A → Option (Functions S R)
  | .empty i =>
      if s.undefined = false ∧ s.ptr i = none then some (s.setPtr i (some none)) else none
  | .construct i c throws =>
      if s.undefined = false ∧ s.ptr i = none then
        some (if throws then s else s.init smallSpace i c)
      else none
  | .moveConstruct i j throws =>
      match s.ptr i, s.ptr j with
      | none, some p =>
          if s.undefined = false then some (s.takeOver smallSpace i j p throws) else none
      | _, _ => none
  | .moveAssign i j throws =>
      match s.ptr i, s.ptr j with
      | some q, some p =>
          if s.undefined = false then
            -- `if (&other != this)`
            if i = j then some s
            else some ((s.delete q).takeOver smallSpace i j p throws)
          else none
      | _, _ => none
  | .destroy i =>
      match s.ptr i with
      | some p => if s.undefined = false then some ((s.delete p).setPtr i none) else none
      | none => none
  | .call i a =>
      match s.ptr i with
      | some p => if s.undefined = false then some (s.call body i p a) else none
      | none => none

/-- Every target has one function, is where it belongs, and is destroyed once. -/
structure Sound (smallSpace : Nat) (s : Functions S R) : Prop where
  defined : s.undefined = false
  /-- every target that exists has one function, and functions have such targets only -/
  owned : Owners.Owned (fun i t => s.ptr i = some (some t)) fun t => (s.target t).isSome
  /-- it is in the `space` of its function, or on the heap -/
  stored : ∀ i t x, s.ptr i = some (some t) → s.target t = some x →
    x.storage = storageFor smallSpace i x.closure
  bound : ∀ t, (s.target t).isSome → t < s.count
  /-- the targets that were destroyed are those that were constructed and exist no more -/
  deleted_iff : ∀ t, t ∈ s.deleted ↔ t < s.count ∧ s.target t = none
  once : s.deleted.Nodup

/-- An assignment to a function that has a target does not throw. -/
def Spares (s : Functions S R) : Action S A → Prop
  | .moveAssign i j throws =>
      i ≠ j → throws.isSome → ∀ q, s.ptr i = some (some q) →
        ∀ t x k, s.ptr j = some (some t) → s.target t = some x → x.storage ≠ .space k
  | _ => True

end Functions

/-! ## What functions are for -/

/-- Functions that hold their targets by themselves. -/
@[ext] structure Holders (S R : Type*) where
  held : Nat → Option (Option (Closure S)) := fun _ => none
  answers : List (Nat × Answer R) := []

namespace Holders

variable {S A R : Type*}

def setHeld (h : Holders S R) (i : Nat) (c : Option (Option (Closure S))) : Holders S R :=
  { h with held := Function.update h.held i c }

/-- Function `i` takes the target of function `j`, unless its move constructor throws. -/
def takeOver (smallSpace : Nat) (h : Holders S R) (i j : Nat) (throws : Option S) : Holders S R :=
  match h.held j, throws with
  | some (some c), some state =>
      if c.size ≤ smallSpace then h.setHeld j (some (some { c with state := state }))
      else (h.setHeld i (some (some c))).setHeld j (some none)
  | c, _ => (h.setHeld i c).setHeld j (some none)

def call (body : S → A → S × R) (h : Holders S R) (i : Nat) (a : A) : Option (Closure S) →
    Holders S R
  | none => { h with answers := h.answers ++ [(i, .badFunctionCall)] }
  | some c =>
      { h.setHeld i (some (some { c with state := (body c.state a).1 })) with
        answers := h.answers ++ [(i, .given (body c.state a).2)] }

def step (smallSpace : Nat) (body : S → A → S × R) (h : Holders S R) :
    Action S A → Option (Holders S R)
  | .empty i => if h.held i = none then some (h.setHeld i (some none)) else none
  | .construct i c throws =>
      if h.held i = none then some (if throws then h else h.setHeld i (some (some c))) else none
  | .moveConstruct i j throws =>
      if h.held i = none ∧ h.held j ≠ none then some (h.takeOver smallSpace i j throws) else none
  | .moveAssign i j throws =>
      if h.held i = none ∨ h.held j = none then none
      else if i = j then some h
      else some ((h.setHeld i (some none)).takeOver smallSpace i j throws)
  | .destroy i => if h.held i = none then none else some (h.setHeld i none)
  | .call i a => (h.held i).map (h.call body i a)

end Holders

namespace Functions

variable {S R : Type*}

/-- What the functions hold. -/
def holders (s : Functions S R) : Holders S R where
  held i := (s.ptr i).map fun p => p.bind fun t => (s.target t).map Target.closure
  answers := s.answers

end Functions

end Cocls
