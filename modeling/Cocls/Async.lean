import Mathlib.Tactic.Simps.Basic
import Cocls.Future
import Cocls.Owners
import Cocls.Procedures
import Cocls.Run

/-!
# Cocls.Async

`async<T>`: coroutines that are started once and resolve a future when they are done.

An `async` object holds the handle of a coroutine that has not been started yet.
Starting it empties the object; the coroutine is destroyed when it comes to its end,
after the future it was started for has been resolved.  `co_await` of an `async`
object starts the coroutine for a future inside of the `co_awaiter`, which lives in
the frame of the coroutine that awaits.

A handle that is to be resumed is on its way: in a suspend point, in a queue, or
in the hands of a thread.  All of that is the list `ready`, from which any handle may
be resumed next.
-/

namespace Cocls

/-- What the body of a coroutine does next. -/
inductive AsyncStep (σ T E : Type*) where
  /-- `co_return v` -/
  | coReturn (v : T)
  /-- an exception leaves the body -/
  | throws (e : E)
  /-- anything that neither ends the coroutine nor suspends it -/
  | goesOn (b : σ)
  /-- `co_await` of what the call of a coroutine returns -/
  | coAwait (callee : σ) (k : Stored T E → σ)
  /-- `co_await` of a future -/
  | coAwaitFuture (f : Nat) (k : Stored T E → σ)

namespace Async

/-- A future: an object, or the base of the `co_awaiter` in the frame of coroutine `h`. -/
inductive FutureRef where
  | object (f : Nat)
  | coAwaiter (h : Nat)
deriving DecidableEq, Repr

structure Future (T E : Type*) where
  /-- the coroutines that are subscribed, newest first -/
  chain : List Nat := []
  /-- `ready()` -/
  ready : Bool := false
  stored : Stored T E := .notValue

/-- Where a coroutine is. -/
inductive Place where
  /-- in `initial_suspend` -/
  | initial
  | running
  /-- in a `co_await` of the future -/
  | awaiting (r : FutureRef)
  /-- in front of `final_suspend` -/
  | final
deriving DecidableEq, Repr

/-- The frame of a coroutine. -/
structure Frame (σ : Type*) where
  /-- history: how it was created -/
  start : σ
  body : σ
  place : Place := .initial
  /-- `async_promise::_future` -/
  future : Option FutureRef := none

end Async

open Async

/-- The coroutines, `async` objects, promises and futures of a program. -/
structure Asyncs (σ T E : Type*) where
  /-- the frames that were not destroyed -/
  frame : Nat → Option (Frame σ) := fun _ => none
  /-- the number of frames that were created -/
  count : Nat := 0
  /-- history: how many times each frame was destroyed -/
  destroyed : Nat → Nat := fun _ => 0
  /-- `_h` of each `async` object -/
  async : Nat → Option (Option Nat) := fun _ => none
  /-- `_owner` of each promise -/
  promise : Nat → Option (Option Nat) := fun _ => none
  future : FutureRef → Option (Async.Future T E) := fun _ => none
  /-- the handles on their way to be resumed -/
  ready : List Nat := []
  /-- history: how the coroutine was created that was started for the future -/
  bound : Nat → Option σ := fun _ => none

namespace Asyncs

variable {σ T E : Type*}

inductive Action (σ T E : Type*) where
  /-- a coroutine is called; the object `x` is what it returns -/
  | create (x : Nat) (b : σ)
  /-- `async(async &&)`: the new object `x` from `y` -/
  | move (x y : Nat)
  /-- `~async()` -/
  | destroyAsync (x : Nat)
  /-- `start()`, which makes the future `f` -/
  | start (x f : Nat)
  /-- `start(promise)` -/
  | startPromise (x p : Nat)
  | detach (x : Nat)
  /-- `get_promise()` of the new future `f` -/
  | getPromise (f p : Nat)
  /-- the promise is called; storing a value does not throw -/
  | call (p : Nat) (arg : PromiseArg T E)
  /-- `~promise()` -/
  | destroyPromise (p : Nat)
  /-- the handle is resumed -/
  | resume (h : Nat)
  /-- the body of the coroutine does what it does next -/
  | go (h : Nat)
  | finalSuspend (h : Nat)

section Operations

variable (s : Asyncs σ T E)

@[simps] def setFrame (h : Nat) (fr : Frame σ) : Asyncs σ T E :=
  { s with frame := Function.update s.frame h (some fr) }

@[simps] def setFuture (r : FutureRef) (v : Option (Async.Future T E)) : Asyncs σ T E :=
  { s with future := Function.update s.future r v }

@[simps] def handOn (hs : List Nat) : Asyncs σ T E := { s with ready := hs ++ s.ready }

/-- A coroutine is called: the frame is made, and the body stays in `initial_suspend`. -/
@[simps] def newFrame (b : σ) : Asyncs σ T E :=
  { s.setFrame s.count { start := b, body := b } with count := s.count + 1 }

/-- `handle.destroy()`. -/
@[simps] def destroyFrame (h : Nat) : Asyncs σ T E :=
  { s with frame := Function.update s.frame h none
           destroyed := Function.update s.destroyed h (s.destroyed h + 1) }

/-- `future::set(...)`. -/
def set (r : FutureRef) (v : Stored T E) : Asyncs σ T E :=
  match s.future r with
  | none => s
  | some c => s.setFuture r (some { c with stored := v })

/-- `future::resolve()`: the suspend point has the handles of the awaiters. -/
def resolve (r : FutureRef) : Asyncs σ T E × List Nat :=
  match s.future r with
  | none => (s, [])
  | some c => (s.setFuture r (some { c with chain := [], ready := true }), c.chain)

/-- `promise::set_value(args...)` after the claim. -/
def setValue (arg : PromiseArg T E) : Option Nat → Asyncs σ T E
  | none => s
  | some f =>
      let s := match arg with
        | .value v => s.set (.object f) (.value v)
        | .exception e => s.set (.object f) (.exception e)
        | .drop => s
      let (s, sp) := s.resolve (.object f)
      s.handOn sp

/-- `start_promise`, with what `p.claim()` gave: the handle to be resumed, or null. -/
def startPromise (x h : Nat) (fr : Frame σ) (claimed : Option Nat) :
    Asyncs σ T E × Option Nat :=
  let s := s.setFrame h { fr with future := claimed.map .object }
  match claimed with
  | none => (s, none)
  | some f =>
      ({ s with async := Function.update s.async x (some none)
                bound := Function.update s.bound f (some fr.start) }, some h)

/-- `co_awaiter::await_suspend(h)` for the coroutine that was created as `c`. -/
def awaitSuspend (h : Nat) (fr : Frame σ) (c : σ) : Asyncs σ T E :=
  let n := s.count
  let s := s.newFrame c
  let s := s.setFrame h { fr with place := .awaiting (.coAwaiter h) }
  let s := s.setFuture (.coAwaiter h) (some { chain := [h] })
  let s := s.setFrame n { start := c, body := c, future := some (.coAwaiter h) }
  s.handOn [n]

/-- `await_resume()`: the value of the future; a `co_awaiter` is destroyed with it. -/
def awaitResume (body : σ → AsyncStep σ T E) (h : Nat) (fr : Frame σ) (r : FutureRef) :
    Option (Asyncs σ T E) :=
  match s.future r with
  | none => none
  | some c =>
      let s := match r with
        | .object _ => s
        | .coAwaiter _ => s.setFuture r none
      match body fr.body with
      | .coAwait _ k | .coAwaitFuture _ k =>
          some (s.setFrame h { fr with body := k c.stored, place := .running })
      | _ => none

end Operations

/-- What a running coroutine does next. -/
def go (body : σ → AsyncStep σ T E) (s : Asyncs σ T E) (h : Nat) (fr : Frame σ) :
    Option (Asyncs σ T E) :=
  let store (v : Stored T E) : Asyncs σ T E := match fr.future with
    | none => s
    | some r => s.set r v
  match body fr.body with
  | .coReturn v => some ((store (.value v)).setFrame h { fr with place := .final })
  | .throws e => some ((store (.exception e)).setFrame h { fr with place := .final })
  | .goesOn b => some (s.setFrame h { fr with body := b })
  | .coAwait c _ => some (s.awaitSuspend h fr c)
  | .coAwaitFuture f k =>
      match s.future (.object f) with
      | none => none
      | some c =>
          if c.ready then some (s.setFrame h { fr with body := k c.stored })
          else some ((s.setFuture (.object f) (some { c with chain := h :: c.chain })).setFrame h
            { fr with place := .awaiting (.object f) })

/-- One step.  Objects are made at free addresses; an `async` object is started once, as it
asserts. -/
def step (body : σ → AsyncStep σ T E) (s : Asyncs σ T E) : Action σ T E → Option (Asyncs σ T E)
  | .create x b =>
      if s.async x = none then
        some { s.newFrame b with async := Function.update s.async x (some (some s.count)) }
      else none
  | .move x y =>
      match s.async y with
      | none => none
      | some h =>
          if s.async x = none then
            some { s with async := Function.update (Function.update s.async y (some none)) x
                            (some h) }
          else none
  | .destroyAsync x =>
      match s.async x with
      | none => none
      | some none => some { s with async := Function.update s.async x none }
      | some (some h) => some { s.destroyFrame h with async := Function.update s.async x none }
  | .start x f =>
      match s.async x with
      | some (some h) =>
          match s.frame h with
          | none => none
          | some fr =>
              if s.future (.object f) = none then
                let (s, r) := (s.setFuture (.object f) (some {})).startPromise x h fr (some f)
                some (s.handOn r.toList)
              else none
      | _ => none
  | .startPromise x p =>
      match s.async x, s.promise p with
      | some (some h), some o =>
          match s.frame h with
          | none => none
          | some fr =>
              let claimed : Asyncs σ T E :=
                { s with promise := Function.update s.promise p (some none) }
              let (s, r) := claimed.startPromise x h fr o
              some (s.handOn r.toList)
      | _, _ => none
  | .detach x =>
      match s.async x with
      | some (some h) =>
          some (({ s with async := Function.update s.async x (some none) } :
            Asyncs σ T E).handOn [h])
      | _ => none
  | .getPromise f p =>
      if s.future (.object f) = none ∧ s.promise p = none then
        some { s.setFuture (.object f) (some {}) with
                 promise := Function.update s.promise p (some (some f)) }
      else none
  | .call p arg =>
      match s.promise p with
      | none => none
      | some o =>
          some (({ s with promise := Function.update s.promise p (some none) } :
            Asyncs σ T E).setValue arg o)
  | .destroyPromise p =>
      match s.promise p with
      | none => none
      | some o => some ((({ s with promise := Function.update s.promise p none } :
          Asyncs σ T E)).setValue .drop o)
  | .resume h =>
      match s.frame h with
      | none => none
      | some fr =>
          if h ∈ s.ready then
            let s := { s with ready := s.ready.erase h }
            match fr.place with
            | .initial => some (s.setFrame h { fr with place := .running })
            | .awaiting r => s.awaitResume body h fr r
            | .running | .final => none
          else none
  | .go h =>
      match s.frame h with
      | none => none
      | some fr => if fr.place = .running then go body s h fr else none
  | .finalSuspend h =>
      match s.frame h with
      | none => none
      | some fr =>
          if fr.place = .final then
            let (s, sp) := match fr.future with
              | none => (s, [])
              | some r => s.resolve r
            some ((s.destroyFrame h).handOn sp)
          else none

end Asyncs

end Cocls
