import Cocls.Run
import Mathlib.Logic.Function.Basic

/-!
# Cocls.CoroQueue

`coro_queue` and everything that starts or resumes a coroutine.

Each thread has one queue; `instance` points to it while the thread is in coro
mode and is null in normal mode.  `h.resume()` runs the coroutine on top of the
stack of the thread until it suspends, so the calls in progress are kept as a
stack of frames: the function or the coroutine on top runs, a frame of the
library goes on when control comes back to it.

Awaiters are resumed through suspend points.  A suspend point is the list of its
handles; it is destroyed, cleared, awaited, or handed over to a thread pool or to
a new thread.
-/

namespace Cocls

namespace CoroQueue

/-- A closure in the queue of the thread pool. -/
inductive Task (H : Type*) where
  /-- of `co_awaiter`; its deleter resumes the coroutine as well -/
  | coAwaiter (h : H)
  /-- of `resume` -/
  | resume (h : H)
  /-- of `run_detached` -/
  | run
deriving DecidableEq, Repr

/-- What waits on the stack of a thread, and how it goes on. -/
inductive Frame (H : Type*) where
  /-- a function that is not a coroutine: what a thread runs, or what the library calls -/
  | function
  /-- the body of coroutine `h` -/
  | coroutine (h : H)
  /-- `install_queue_and_call`: the `instance` it found, and the handles that its function
  still resumes -/
  | installQueueAndCall (prev : Bool) (hs : List H)
  /-- `create_suspend_point`, with the size of the queue at its start -/
  | createSuspendPoint (sz : Nat)
  /-- `next_sync`, `next_future` or `subscribe` of a generator, after `h.resume()` -/
  | access
  /-- `await_suspend` that goes on with coroutine `out` once its suspend point is destroyed -/
  | transfer (out : H)
  /-- `worker` of a thread pool -/
  | worker
  /-- `stop` of a thread pool, with the closures it still destroys -/
  | stop (q : List (Task H))
  /-- the thread of `parallel`, before `h.resume()` -/
  | parallel (h : H)
  /-- the thread of `parallel_resume`, before `sp.clear()` -/
  | parallelResume (hs : List H)
deriving DecidableEq, Repr

structure Thread (H : Type*) where
  /-- `instance` is not null -/
  active : Bool := false
  queue : List H := []
  stack : List (Frame H) := []

namespace Thread

variable {H : Type*} (t : Thread H)

/-! ## coro_queue -/

def isActive : Bool := t.active

/-- `h.resume()`. -/
def run (h : H) : Thread H := { t with stack := .coroutine h :: t.stack }

/-- `install_queue_and_call` of a function that resumes `hs`. -/
def installQueueAndCall (hs : List H) : Thread H :=
  { t with active := true, stack := .installQueueAndCall t.active hs :: t.stack }

def installQueueAndResume (h : H) : Thread H := t.installQueueAndCall [h]

def resume (h : H) : Thread H :=
  if t.isActive then { t with queue := t.queue ++ [h] } else t.installQueueAndResume h

/-- A function that the library calls. -/
def call : Thread H := { t with stack := .function :: t.stack }

def createSuspendPoint : Thread H :=
  let start (t : Thread H) : Thread H :=
    { t with stack := .function :: .createSuspendPoint t.queue.length :: t.stack }
  if t.isActive then start t else start (t.installQueueAndCall [])

/-- `pause::await_suspend` of coroutine `h`, above `fs`.  It goes through `instance`. -/
def pause (h : H) (fs : List (Frame H)) : Option (Thread H) :=
  if t.isActive then
    match t.queue ++ [h] with
    | [] => none
    | next :: q => some { t with queue := q, stack := .coroutine next :: fs }
  else none

/-! ## suspend_point -/

/-- `suspend_now`: `clear` and the destructor. -/
def suspendNow (hs : List H) : Thread H :=
  if hs = [] then t
  else if t.isActive then { t with queue := t.queue ++ hs }
  else t.installQueueAndCall hs

/-- `suspend_point::await_suspend` of coroutine `h`, above `fs`. -/
def awaitSuspend [DecidableEq H] (h : H) (fs : List (Frame H)) (hs : List H) : Thread H :=
  match hs.getLast? with
  | none => t
  | some out =>
      let q := t.queue ++ hs.dropLast ++ if h ∈ hs.dropLast then [] else [h]
      if t.isActive then { t with queue := q, stack := .coroutine out :: fs }
      else { ({ t with stack := fs } : Thread H).installQueueAndCall [out] with queue := q }

/-- An `await_suspend` that returns `sp.pop()`, above `fs`: `final_suspend` of an `async`, and
`co_yield` and `final_suspend` of a generator.  The rest of `sp` is destroyed first. -/
def popAndDestroy (fs : List (Frame H)) (sp : List H) : Thread H :=
  match sp.getLast? with
  | none => { t with stack := fs }
  | some out => ({ t with stack := .transfer out :: fs } : Thread H).suspendNow sp.dropLast

/-! ## async and generator -/

/-- `async::start`. -/
def start (h : H) : Thread H := if t.isActive then t.run h else t.installQueueAndResume h

/-- What `async::detach` and `async::start(promise)` return. -/
def detach (h : H) : List H := [h]

/-- `next_sync` of a generator that is not finished, to its `h.resume()`. -/
def nextSync (g : H) : Thread H := ({ t with stack := .access :: t.stack } : Thread H).run g

/-- `next_future` of a generator that is not finished, to its `h.resume()`. -/
def nextFuture (g : H) : Thread H := ({ t with stack := .access :: t.stack } : Thread H).run g

/-- `next_awt::subscribe` of a generator that is not finished, to its `resume()`. -/
def subscribe (g : H) : Thread H := ({ t with stack := .access :: t.stack } : Thread H).run g

/-- The frame of the library on top goes on. -/
def go : Option (Thread H) :=
  match t.stack with
  | .installQueueAndCall prev (h :: hs) :: fs =>
      some (({ t with stack := .installQueueAndCall prev hs :: fs } : Thread H).run h)
  | .installQueueAndCall prev [] :: fs =>
      -- the trailer: `flush_queue`, then `instance = prev`
      match t.queue with
      | h :: q => some (({ t with queue := q } : Thread H).run h)
      | [] => some { t with active := prev, stack := fs }
  | .createSuspendPoint sz :: fs => some { t with queue := t.queue.take sz, stack := fs }
  | .access :: fs => some { t with stack := fs }
  | .transfer out :: fs => some (({ t with stack := fs } : Thread H).run out)
  | .stop (.coAwaiter h :: q) :: fs =>
      some (({ t with stack := .stop q :: fs } : Thread H).resume h)
  | .stop (.resume _ :: q) :: fs => some { t with stack := .stop q :: fs }
  -- the destructor of the closure is code of the user
  | .stop (.run :: q) :: fs => some ({ t with stack := .stop q :: fs } : Thread H).call
  | .stop [] :: fs => some { t with stack := fs }
  | .parallel h :: fs => some (({ t with stack := fs } : Thread H).run h)
  | .parallelResume hs :: fs => some (({ t with stack := fs } : Thread H).suspendNow hs)
  | _ => none

/-! ## With the queue installed -/

section Active

variable {t}

/-- A coroutine that is resumed is put into the queue. -/
theorem resume_of_active (ha : t.isActive = true) (h : H) :
    t.resume h = { t with queue := t.queue ++ [h] } := if_pos ha

/-- The coroutines of a suspend point are put into the queue. -/
theorem suspendNow_of_active (ha : t.isActive = true) (hs : List H) :
    t.suspendNow hs = { t with queue := t.queue ++ hs } := by
  by_cases hnil : hs = []
  · rw [suspendNow, if_pos hnil, hnil, List.append_nil]
  · rw [suspendNow, if_neg hnil, if_pos ha]

end Active

end Thread

/-! ## Threads -/

/-- The threads of a program and its thread pool. -/
structure Sys (H : Type*) where
  thread : Nat → Thread H := fun _ => {}
  tasks : List (Task H) := []

/-- What the function or the coroutine on top of a stack calls. -/
inductive Call (H : Type*) where
  | resume (h : H)
  /-- a suspend point is cleared or discarded -/
  | suspendNow (hs : List H)
  | start (h : H)
  /-- `detach`, and the suspend point is discarded -/
  | detach (h : H)
  /-- `install_queue_and_call` of a function of the user -/
  | installQueueAndCall
  | createSuspendPoint
  | nextSync (g : H)
  | nextFuture (g : H)
  | subscribe (g : H)
  /-- an awaiter `parallel` of coroutine `h` is resumed; `j` is the new thread -/
  | parallel (j : Nat) (h : H)
  /-- `parallel_resume`; `j` is the new thread -/
  | parallelResume (j : Nat) (hs : List H)
  /-- `thread_pool::resume`, also from the awaiters of `pool(awaitable)` -/
  | poolResume (hs : List H)
  | runDetached
  /-- the thread joins the pool -/
  | worker
  | stop
  /-- a new thread, or a new thread of the pool -/
  | newThread (j : Nat) (pool : Bool)

/-- How the coroutine on top of a stack suspends or ends. -/
inductive Suspend (H : Type*) where
  /-- nothing is resumed in its place -/
  | suspend
  /-- `co_await` of an `async` or of `next()` of a generator: `h` runs in its place -/
  | transfer (h : H)
  /-- `co_await` of a suspend point that is not empty -/
  | await (hs : List H)
  | pause
  /-- the end of an `async`, or `co_yield` and the end of a generator; `sp` are the coroutines
  that waited for it -/
  | popAndDestroy (sp : List H)
  /-- `co_await` of the thread pool -/
  | pool

inductive Action (H : Type*) where
  | call (i : Nat) (c : Call H)
  | suspend (i : Nat) (x : Suspend H)
  /-- the function on top of the stack of thread `i` returns -/
  | ret (i : Nat)
  /-- the frame of the library on top of the stack of thread `i` goes on -/
  | go (i : Nat)
  /-- the worker on top of the stack of thread `i` takes a closure -/
  | work (i : Nat)
  /-- the worker leaves the pool -/
  | leave (i : Nat)

namespace Sys

variable {H : Type*}

/-- The main thread, before it calls anything. -/
def start : Sys H := { thread := Function.update (fun _ => {}) 0 { stack := [.function] } }

section Calls

variable (s : Sys H)

def setThread (i : Nat) (t : Thread H) : Sys H := { s with thread := Function.update s.thread i t }

/-- A new thread `j` that starts with the frame `f`. -/
def newThread (j : Nat) (f : Frame H) : Option (Sys H) :=
  if (s.thread j).stack = [] then some (s.setThread j { stack := [f] }) else none

/-- A call by the function or the coroutine on top of thread `i`. -/
def callStep (i : Nat) : Call H → Option (Sys H)
  | .resume h => some (s.setThread i ((s.thread i).resume h))
  | .suspendNow hs => some (s.setThread i ((s.thread i).suspendNow hs))
  | .start h => some (s.setThread i ((s.thread i).start h))
  | .detach h => some (s.setThread i ((s.thread i).suspendNow (Thread.detach h)))
  | .installQueueAndCall => some (s.setThread i ((s.thread i).installQueueAndCall []).call)
  | .createSuspendPoint => some (s.setThread i (s.thread i).createSuspendPoint)
  | .nextSync g => some (s.setThread i ((s.thread i).nextSync g))
  | .nextFuture g => some (s.setThread i ((s.thread i).nextFuture g))
  | .subscribe g => some (s.setThread i ((s.thread i).subscribe g))
  | .parallel j h => s.newThread j (.parallel h)
  | .parallelResume j hs => if hs = [] then some s else s.newThread j (.parallelResume hs)
  -- `pop` takes the last handle
  | .poolResume hs => some { s with tasks := s.tasks ++ hs.reverse.map .resume }
  | .runDetached => some { s with tasks := s.tasks ++ [.run] }
  | .worker =>
      some (s.setThread i { s.thread i with stack := .worker :: (s.thread i).stack })
  | .stop =>
      some { s.setThread i { s.thread i with stack := .stop s.tasks :: (s.thread i).stack } with
        tasks := [] }
  | .newThread j pool => s.newThread j (if pool then .worker else .function)

end Calls

section Step

variable [DecidableEq H] (s : Sys H)

/-- Coroutine `h` on top of thread `i` suspends; below it is `fs`. -/
def suspendStep (i : Nat) (h : H) (fs : List (Frame H)) :
    Suspend H → Option (Sys H)
  | .suspend => some (s.setThread i { s.thread i with stack := fs })
  | .transfer h' => some (s.setThread i (({ s.thread i with stack := fs } : Thread H).run h'))
  | .await hs => some (s.setThread i ((s.thread i).awaitSuspend h fs hs))
  | .pause => ((s.thread i).pause h fs).map (s.setThread i)
  | .popAndDestroy sp => some (s.setThread i ((s.thread i).popAndDestroy fs sp))
  | .pool =>
      some { s.setThread i { s.thread i with stack := fs } with tasks := s.tasks ++ [.coAwaiter h] }

def step : Action H → Option (Sys H)
  | .call i c =>
      match (s.thread i).stack with
      | .function :: _ | .coroutine _ :: _ => s.callStep i c
      | _ => none
  | .suspend i x =>
      match (s.thread i).stack with
      | .coroutine h :: fs => s.suspendStep i h fs x
      | _ => none
  | .ret i =>
      match (s.thread i).stack with
      | .function :: fs => some (s.setThread i { s.thread i with stack := fs })
      | _ => none
  | .go i => (s.thread i).go.map (s.setThread i)
  | .work i =>
      match (s.thread i).stack, s.tasks with
      | .worker :: _, .coAwaiter h :: q | .worker :: _, .resume h :: q =>
          some { s.setThread i ((s.thread i).resume h) with tasks := q }
      | .worker :: _, .run :: q => some { s.setThread i (s.thread i).call with tasks := q }
      | _, _ => none
  | .leave i =>
      match (s.thread i).stack with
      | .worker :: fs => some (s.setThread i { s.thread i with stack := fs })
      | _ => none

end Step

/-- Thread `i` after the first `n` steps of a run. -/
def threadAfter [DecidableEq H] (as : List (Action H)) (n i : Nat) : Thread H :=
  (Run.exec step start (as.take n)).thread i

end Sys

end CoroQueue

end Cocls
