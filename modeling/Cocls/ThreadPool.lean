import Mathlib.Logic.Function.Basic
import Mathlib.Tactic.Simps.Basic

/-!
# Cocls.ThreadPool

The thread pool: what its functions do under the lock, and the steps of the
threads around it.

A coroutine is handed over as a closure in `_queue`.  The closure of
`co_await pool` has a deleter: destroyed without having been called, it resumes
the coroutine, which then finds its `await_resume` canceled.  The closures of
all other routes go through `resume` and capture the handle only.

Workers, hand-overs and calls of `stop` run in threads of their own, in any
order of their steps; a step is what happens under one lock, or a call or the
destruction of one closure outside the lock.
-/

namespace Cocls

/-- A closure in `_queue`: it resumes the coroutine `handle` when it is called, and, if
it has the deleter `fin`, when it is destroyed without having been called.  A handle
stands for one suspension of a coroutine. -/
structure QItem where
  handle : Nat
  fin : Bool
deriving DecidableEq, Repr

/-- The fields of `thread_pool`; the threads are known by a number. -/
structure ThreadPool where
  exit : Bool := false
  queue : List QItem := []
  threads : List Nat := []

namespace ThreadPool

/-! ## Under the lock -/

/-- `enqueue(fn)`; a closure that is not taken stays with the caller, who destroys it. -/
def enqueue (s : ThreadPool) (fn : QItem) : ThreadPool × Option QItem :=
  if s.exit then (s, some fn) else ({ s with queue := s.queue ++ [fn] }, none)

/-- What `worker()` finds when it holds the lock. -/
inductive Found where
  | leave
  | item (h : QItem) (s : ThreadPool)
  /-- it waits on -/
  | nothing

/-- The loop of `worker()` from `_cond.wait` to the unlock. -/
def next (s : ThreadPool) : Found :=
  if s.exit then .leave
  else
    match s.queue with
    | [] => .nothing
    | h :: queue => .item h { s with queue := queue }

/-- `stop()` up to the unlock: the threads to join and the closures that were never
called. -/
def stopLk (s : ThreadPool) : ThreadPool × List Nat × List QItem :=
  ({ exit := true, queue := [], threads := [] }, s.threads, s.queue)

/-! ## Handing over -/

/-- The closures of `resume(spt)`, in the order in which `pop` takes the handles. -/
def resume (spt : List Nat) : List QItem := spt.reverse.map fun h => { handle := h, fin := false }

/-- The ways to hand coroutines over. -/
inductive Route where
  /-- `co_await pool` -/
  | coAwait (h : Nat)
  /-- `co_await pool(awt)`: `perform_resume`, once the operation is done -/
  | awaitable (h : Nat)
  /-- `pool.resume(spt)` -/
  | resume (spt : List Nat)
  /-- `pool.run(fn)` of an `async` -/
  | run (h : Nat)
deriving DecidableEq, Repr

/-- The closures of a hand-over, in the order in which they are enqueued. -/
def Route.items : Route → List QItem
  | .coAwait h => [{ handle := h, fin := true }]
  | .awaitable h => ThreadPool.resume [h]
  | .resume spt => ThreadPool.resume spt
  | .run h => ThreadPool.resume [h]

/-! ## The threads -/

/-- Where a worker stands. -/
inductive Stage where
  /-- about to lock, or waiting -/
  | idle
  /-- took a closure and unlocked -/
  | took (h : QItem)
  /-- in `h()`, past the resumption -/
  | running
  /-- `worker()` has returned -/
  | gone
deriving DecidableEq, Repr

/-- A thread in `worker()`: one of the pool's own, or another one that calls it. -/
structure Worker where
  own : Bool
  /-- the thread called `worker()` with a coroutine queue installed -/
  active : Bool := false
  stage : Stage := .idle
  /-- `_current` is this pool -/
  current : Bool := true
deriving DecidableEq, Repr

/-- A hand-over: the closures to enqueue, and one that was refused and is to be
destroyed. -/
structure HandOver where
  active : Bool
  todo : List QItem
  refused : Option QItem := none
deriving DecidableEq, Repr

/-- A call of `stop()`, by worker `me` or by a thread that is no worker: the threads to
join and the closures to destroy. -/
structure Stop where
  active : Bool
  me : Option Nat
  tmp : List Nat
  q : List QItem
  returned : Bool := false
deriving DecidableEq, Repr

/-- Who resumes a coroutine. -/
inductive Agent where
  | worker (w : Nat)
  | handOver (c : Nat)
  | stop (k : Nat)
deriving DecidableEq, Repr

/-- The pool and the threads around it.  `ready`: the coroutines that an agent has put
in the coroutine queue of its thread.  History: the coroutines handed over so far,
those resumed, by whom, and those whose closure was destroyed without resuming
them. -/
structure Sys where
  pool : ThreadPool
  worker : Nat → Option Worker
  handOver : Nat → Option HandOver := fun _ => none
  stop : Nat → Option Stop := fun _ => none
  ready : Agent → List Nat := fun _ => []
  handed : List Nat := []
  resumed : List (Nat × Agent) := []
  lost : List Nat := []

/-- A step of one of the threads. -/
inductive Action where
  /-- a thread that is not one of the pool's calls `worker()` -/
  | enter (w : Nat) (active : Bool)
  | worker (w : Nat)
  /-- coroutines are handed over, from a thread with a coroutine queue installed or not -/
  | handOver (c : Nat) (route : Route) (active : Bool)
  | goOn (c : Nat)
  /-- `stop()` is called, by worker `me` from a coroutine it runs or by another thread -/
  | stop (k : Nat) (me : Option Nat) (active : Bool)
  | goOnStop (k : Nat)
  /-- the coroutine queue of the thread goes on to the next coroutine -/
  | flush (a : Agent)
deriving DecidableEq, Repr

namespace Sys

/-- `coro_queue::resume(h)`: at once, or into the coroutine queue that is installed. -/
def coroResume (s : Sys) (a : Agent) (active : Bool) (h : Nat) : Sys :=
  if active then { s with ready := Function.update s.ready a (s.ready a ++ [h]) }
  else { s with resumed := s.resumed ++ [(h, a)] }

/-- A closure is destroyed without having been called. -/
def destroy (s : Sys) (a : Agent) (active : Bool) (i : QItem) : Sys :=
  if i.fin then s.coroResume a active i.handle else { s with lost := s.lost ++ [i.handle] }

@[simps -isSimp] def setWorker (s : Sys) (w : Nat) (wk : Worker) : Sys :=
  { s with worker := Function.update s.worker w (some wk) }

@[simps -isSimp] def setHandOver (s : Sys) (c : Nat) (ho : HandOver) : Sys :=
  { s with handOver := Function.update s.handOver c (some ho) }

@[simps -isSimp] def setStop (s : Sys) (k : Nat) (st : Stop) : Sys :=
  { s with stop := Function.update s.stop k (some st) }

/-- The next step of a worker. -/
def workerStep (s : Sys) (w : Nat) (wk : Worker) : Option Sys :=
  match wk.stage with
  | .idle =>
      match s.pool.next with
      | .leave => some (s.setWorker w { wk with stage := .gone })
      | .item h pool => some { s.setWorker w { wk with stage := .took h } with pool := pool }
      | .nothing => none
  | .took h =>
      some ((s.setWorker w { wk with stage := .running }).coroResume (.worker w) wk.active h.handle)
  | .running => some (s.setWorker w { wk with stage := if wk.current then .idle else .gone })
  | .gone => none

/-- The next step of a hand-over. -/
def handOverStep (s : Sys) (c : Nat) (ho : HandOver) : Option Sys :=
  match ho.refused with
  | some i => some ((s.setHandOver c { ho with refused := none }).destroy (.handOver c) ho.active i)
  | none =>
      match ho.todo with
      | [] => none
      | i :: todo =>
          let r := s.pool.enqueue i
          some { s.setHandOver c { ho with todo := todo, refused := r.2 } with pool := r.1 }

/-- The next step of a call of `stop()`: joining the threads one by one, then destroying
the closures, then returning. -/
def stopStep (s : Sys) (k : Nat) (st : Stop) : Option Sys :=
  if st.returned then none
  else
    match st.tmp with
    | w :: tmp =>
        if st.me = some w then
          (s.worker w).map fun wk =>
            (s.setWorker w { wk with current := false }).setStop k { st with tmp := tmp }
        else if (s.worker w).map Worker.stage = some .gone then
          some (s.setStop k { st with tmp := tmp })
        else none
    | [] =>
        match st.q with
        | i :: q => some ((s.setStop k { st with q := q }).destroy (.stop k) st.active i)
        | [] => some (s.setStop k { st with returned := true })

/-- The function call of an agent has returned, so that its thread can go on. -/
def Over (s : Sys) : Agent → Bool
  | .worker w => (s.worker w).any fun wk => wk.stage = .gone
  | .handOver c => (s.handOver c).any fun ho => ho.todo.isEmpty && ho.refused.isNone
  | .stop k => (s.stop k).any Stop.returned

/-- One step. -/
def step (s : Sys) : Action → Option Sys
  | .enter w active =>
      if (s.worker w).isSome then none
      else some (s.setWorker w { own := false, active := active })
  | .worker w => (s.worker w).bind fun wk => s.workerStep w wk
  | .handOver c route active =>
      let handles := route.items.map QItem.handle
      if (s.handOver c).isSome ∨ ¬ handles.Nodup ∨ ∃ h ∈ handles, h ∈ s.handed then none
      else some { s.setHandOver c { active := active, todo := route.items } with
                    handed := s.handed ++ handles }
  | .goOn c => (s.handOver c).bind fun ho => s.handOverStep c ho
  | .stop k me active =>
      if (s.stop k).isSome ∨
          ∃ w ∈ me, (s.worker w).map Worker.stage ≠ some .running then none
      else
        let r := s.pool.stopLk
        some { s.setStop k { active := active, me := me, tmp := r.2.1, q := r.2.2 } with pool := r.1 }
  | .goOnStop k => (s.stop k).bind fun st => s.stopStep k st
  | .flush a =>
      if s.Over a then
        match s.ready a with
        | [] => none
        | h :: ready => some { s with ready := Function.update s.ready a ready
                                      resumed := s.resumed ++ [(h, a)] }
      else none

/-- A pool with `threads` threads. -/
def init (threads : Nat) : Sys :=
  { pool := { threads := List.range threads }
    worker := fun w => if w < threads then some { own := true } else none }

/-! ## Fields after an update -/

section Fields

variable (s : Sys) (a : Agent) (active : Bool) (h : Nat) (i : QItem)

theorem coroResume_pool : (s.coroResume a active h).pool = s.pool := by
  unfold coroResume; split <;> rfl

theorem coroResume_worker (w : Nat) : (s.coroResume a active h).worker w = s.worker w := by
  unfold coroResume; split <;> rfl

theorem coroResume_handOver (c : Nat) : (s.coroResume a active h).handOver c = s.handOver c := by
  unfold coroResume; split <;> rfl

theorem coroResume_stop (k : Nat) : (s.coroResume a active h).stop k = s.stop k := by
  unfold coroResume; split <;> rfl

theorem coroResume_handed : (s.coroResume a active h).handed = s.handed := by
  unfold coroResume; split <;> rfl

theorem coroResume_lost : (s.coroResume a active h).lost = s.lost := by
  unfold coroResume; split <;> rfl

theorem coroResume_ready (b : Agent) : (s.coroResume a active h).ready b =
    if active = true ∧ b = a then s.ready b ++ [h] else s.ready b := by
  unfold coroResume
  by_cases hb : b = a
  · subst hb
    split <;> simp [*]
  · split <;> simp [hb]

theorem coroResume_resumed : (s.coroResume a active h).resumed =
    if active = true then s.resumed else s.resumed ++ [(h, a)] := by
  unfold coroResume
  split <;> rfl

theorem destroy_pool : (s.destroy a active i).pool = s.pool := by
  unfold destroy
  split
  · exact coroResume_pool ..
  · rfl

theorem destroy_worker (w : Nat) : (s.destroy a active i).worker w = s.worker w := by
  unfold destroy
  split
  · exact coroResume_worker ..
  · rfl

theorem destroy_handOver (c : Nat) : (s.destroy a active i).handOver c = s.handOver c := by
  unfold destroy
  split
  · exact coroResume_handOver ..
  · rfl

theorem destroy_stop (k : Nat) : (s.destroy a active i).stop k = s.stop k := by
  unfold destroy
  split
  · exact coroResume_stop ..
  · rfl

theorem destroy_handed : (s.destroy a active i).handed = s.handed := by
  unfold destroy
  split
  · exact coroResume_handed ..
  · rfl

theorem destroy_lost : (s.destroy a active i).lost =
    if i.fin = true then s.lost else s.lost ++ [i.handle] := by
  unfold destroy
  split
  · exact coroResume_lost ..
  · rfl

theorem destroy_ready (b : Agent) : (s.destroy a active i).ready b =
    if i.fin = true ∧ active = true ∧ b = a then s.ready b ++ [i.handle] else s.ready b := by
  unfold destroy
  split
  · simp [coroResume_ready, *]
  · simp [*]

theorem destroy_resumed : (s.destroy a active i).resumed =
    if i.fin = true ∧ active = false then s.resumed ++ [(i.handle, a)] else s.resumed := by
  unfold destroy
  split
  · cases active <;> simp [coroResume_resumed, *]
  · simp [*]

end Fields

attribute [grind =] setWorker_pool setWorker_worker setWorker_handOver setWorker_stop
  setWorker_ready setWorker_resumed setWorker_lost setHandOver_pool setHandOver_worker
  setHandOver_handOver setHandOver_stop setHandOver_ready setHandOver_resumed setHandOver_lost
  setStop_pool setStop_worker setStop_handOver setStop_stop setStop_ready setStop_resumed
  setStop_lost coroResume_pool coroResume_worker coroResume_handOver coroResume_stop
  coroResume_ready coroResume_resumed coroResume_lost destroy_pool destroy_worker
  destroy_handOver destroy_stop destroy_ready destroy_resumed destroy_lost Function.update_apply

end Sys

end ThreadPool

end Cocls
