import Cocls.Scheduler.Stop
import Cocls.ThreadPool.Progress

/-!
# Cocls.Scheduler.Shutdown

A scheduler in a thread pool, from `start_in(pool)` to its destructor.

The state puts the scheduler of `Cocls.Scheduler.Stop` and the pool of
`Cocls.ThreadPool` side by side.  The worker coroutine is handed over to the
pool by `start_in`, and again by `co_await *pool` in every turn of its loop;
while it is suspended it can go on only when the pool resumes it.  The destructor
requests the stop and waits on `_fut`.  Other threads call `schedule`, hand
coroutines over to the pool, work for it and stop it.  All steps interleave in
any order.  The destructor blocks the thread that it runs on: one of the pool,
when a closure or a coroutine there calls it, does nothing else meanwhile.

A pool that is stopped lets the worker down in two ways.  The closure of
`start_in` is destroyed without a trace, so that nobody resolves `_fut`; the
closure of `co_await *pool` resumes the worker canceled, the exception leaves
the coroutine before it looks at its own stop flag, and `_fut.wait()` throws it
out of the destructor.  An open pool lets the worker down when the destructor
blocks the thread that the worker needs.
-/

namespace Cocls

namespace Scheduler

variable {τ ι : Type*}

/-- `_fut`. -/
inductive Outcome where
  | pending
  | value
  | exception
deriving DecidableEq, Repr

/-- The destructor. -/
inductive Destructor where
  | idle
  /-- it requests the stop; when the request is over it waits on `_fut` -/
  | entered
  | returned
  | threw
deriving DecidableEq, Repr

/-- A scheduler and the thread pool it is started in. -/
structure Shutdown (τ ι : Type*) where
  sched : Stopping τ ι := {}
  pool : ThreadPool.Sys
  /-- `_glob_state.has_value()` -/
  started : Bool := false
  fut : Outcome := .pending
  /-- the suspension of the worker coroutine, as the pool knows it; none while it runs -/
  handle : Option Nat := none
  /-- the worker of the pool on whose thread the coroutine was resumed last, if on one -/
  on : Option Nat := none
  /-- `await_resume` has thrown -/
  canceled : Bool := false
  dtor : Destructor := .idle
  /-- the worker of the pool on whose thread the destructor runs, if on one -/
  me : Option Nat := none

namespace Shutdown

inductive Action (τ ι : Type*) where
  /-- `start_in(pool)`: `pool.resume` of the worker, which hand-over `c` does -/
  | start (c t : Nat) (active : Bool)
  /-- the worker unlocks and comes to `co_await *pool`, which hand-over `c` does -/
  | await (c t : Nat)
  /-- the worker goes on, resumed by an agent of the pool -/
  | resume (a : ThreadPool.Agent)
  /-- another step of the worker, of the request to stop it, or of a caller of `schedule` -/
  | sched (a : Stopping.Action τ ι)
  /-- the promise of the worker coroutine is resolved -/
  | resolve
  /-- a step of a thread of the pool, of a hand-over, or of a thread that calls `stop()` -/
  | pool (a : ThreadPool.Action)
  /-- the destructor is called, from what worker `me` runs or by another thread -/
  | destroy (me : Option Nat)
  /-- `_fut.wait()` returns or throws -/
  | finish

/-- A pool with `threads` threads, and a scheduler that is not started. -/
def init (threads : Nat) : Shutdown τ ι := { pool := ThreadPool.Sys.init threads }

/-! ## The threads of the pool -/

/-- The worker on whose thread an agent is, if on one. -/
def agentThread (pool : ThreadPool.Sys) : ThreadPool.Agent → Option Nat
  | .worker w => some w
  | .handOver _ => none
  | .stop k => (pool.stop k).bind ThreadPool.Stop.me

/-- The worker on whose thread a step of the pool is taken, if on one. -/
def stepThread (pool : ThreadPool.Sys) : ThreadPool.Action → Option Nat
  | .worker w => some w
  | .stop _ me _ => me
  | .goOnStop k => agentThread pool (.stop k)
  | .flush a => agentThread pool a
  | .enter .. | .handOver .. | .goOn _ => none

/-- The destructor blocks the thread of worker `w`. -/
def Blocks (s : Shutdown τ ι) (w : Option Nat) : Bool :=
  s.dtor = .entered && s.me.isSome && s.me = w

/-- Worker `me` runs what can call the destructor: it is in a closure, or the thread has left
`worker()` and is not one of the pool's own. -/
def Calls (s : Shutdown τ ι) (me : Option Nat) : Bool :=
  me.all fun w => (s.pool.worker w).any fun wk => wk.stage = .running || !wk.own && wk.stage = .gone

/-- The thread of the worker coroutine goes on with it. -/
def Runs (s : Shutdown τ ι) : Bool := s.started && s.handle.isNone && !s.Blocks s.on

section Step

variable [LinearOrder τ] [OrderTop τ] (H : HeapOps τ ι Nat)

/-- Whether a step of the scheduler can be taken: those of the worker, while it runs, up to
the next `co_await *pool`; and past the loop, once `return_void` has resolved `_fut`. -/
def Enabled (s : Shutdown τ ι) : Stopping.Action τ ι → Bool
  | .go => s.Runs && !(s.sched.worker = .loop && s.sched.stop = .idle) &&
      !(s.sched.worker = .leave && s.fut = .pending)
  | .poll _ | .decide _ | .wake => s.Runs
  | .request => false
  | .notify => s.dtor = .entered
  | .lock .. | .push _ | .unlock _ => true

/-- One step. -/
def step (s : Shutdown τ ι) : Action τ ι → Option (Shutdown τ ι)
  | .start c t active =>
      if s.started = false ∧ s.dtor = .idle then
        (s.pool.step (.handOver c (.resume [t]) active)).map fun pool =>
          { s with pool := pool, started := true, handle := some t }
      else none
  | .await c t =>
      if s.Runs ∧ s.sched.worker = .loop ∧ s.sched.stop = .idle then
        -- a coroutine of the pool runs with a coroutine queue around it
        (s.pool.step (.handOver c (.coAwait t) true)).bind fun pool =>
          s.sched.goOn.map fun sched =>
            { s with sched := sched, pool := pool, handle := some t }
      else none
  | .resume a =>
      let on := agentThread s.pool a
      if (∃ t ∈ s.handle, (t, a) ∈ s.pool.resumed) ∧ ¬ s.Blocks on then
        match s.sched.worker, a with
        | .start, .worker _ => some { s with handle := none, on := on }
        | .suspended, .worker _ =>
            s.sched.goOn.map fun sched => { s with sched := sched, handle := none, on := on }
        -- the deleter resumed the coroutine: `await_resume` throws, and unwinding finds the
        -- lock released
        | .suspended, _ =>
            some { s with sched := { s.sched with worker := .deregister }
                          handle := none, on := on, canceled := true }
        -- the closure of `pool.resume` has no deleter
        | _, _ => none
      else none
  | .sched a =>
      if s.Enabled a then (s.sched.step H a).map fun sched => { s with sched := sched } else none
  | .resolve =>
      if s.fut = .pending ∧ ¬ s.Blocks s.on then
        -- `return_void` comes before the locals are destroyed, `unhandled_exception` after
        if s.sched.worker = .leave then some { s with fut := .value }
        else if s.sched.worker = .gone ∧ s.canceled = true then some { s with fut := .exception }
        else none
      else none
  | .pool a =>
      if s.Blocks (stepThread s.pool a) then none
      else (s.pool.step a).map fun pool => { s with pool := pool }
  | .destroy me =>
      if s.dtor = .idle ∧ s.Calls me then
        if s.started then
          (s.sched.step H .request).map fun sched =>
            { s with sched := sched, dtor := .entered, me := me }
        else some { s with dtor := .returned }
      else none
  | .finish =>
      if s.dtor = .entered ∧ s.sched.stop = .complete then
        match s.fut with
        | .pending => none
        | .value => some { s with dtor := .returned }
        | .exception => some { s with dtor := .threw }
      else none

end Step

/-- The destructor has come to `_fut.wait()`. -/
def AtWait (s : Shutdown τ ι) : Prop :=
  s.started = true ∧ s.dtor ≠ .idle ∧ s.sched.stop = .complete

/-- The destructor runs on the thread that the worker coroutine runs on. -/
def OnItsThread (s : Shutdown τ ι) : Prop := ∃ w, s.me = some w ∧ s.on = some w

/-- Somebody goes on with the worker.  When it is suspended, the workers of the pool that the
destructor does not block come to resume it.  Else the thread it runs on goes on, unless that
sleeps or is blocked; and the worker is not on its way out with an exception. -/
def Held (s : Shutdown τ ι) : Prop :=
  match s.handle with
  | some t => Run.Leads ThreadPool.Sys.step (ThreadPool.Sys.Works s.me) s.pool fun pool =>
      ∃ w, s.me ≠ some w ∧ (t, ThreadPool.Agent.worker w) ∈ pool.resumed
  | none => s.canceled = false ∧ s.sched.worker ≠ .suspended ∧
      (∀ tp, s.sched.worker ≠ .asleep tp) ∧ ¬ s.OnItsThread

/-- The destructor does not throw, and when it waits on `_fut`, this is resolved with a value,
or somebody goes on with the worker. -/
def Clean (s : Shutdown τ ι) : Prop :=
  s.dtor ≠ .threw ∧ (s.AtWait → s.fut = .value ∨ s.fut = .pending ∧ s.Held)

/-- The pool serves the worker: it is not stopped when the worker is handed over to it, nor
while the worker waits for one of its threads. -/
def Served (s : Shutdown τ ι) : Action τ ι → Prop
  | .start .. | .await .. => s.pool.pool.exit = false
  | .pool (.stop ..) => ∀ t, s.handle = some t → ¬ s.pool.Waiting t
  | _ => True

/-- The destructor does not block a thread that the worker needs: the one that has it or that
it runs on, or the last one that can take it out of the queue of the pool. -/
def Attended (s : Shutdown τ ι) : Prop :=
  match s.handle with
  | some t => s.pool.Attended s.me t
  | none => ¬ s.OnItsThread

/-- The worker does not fall asleep after the notification of the stop was sent. -/
def InTime (s : Shutdown τ ι) : Action τ ι → Prop
  | .sched a => s.sched.InTime a
  | _ => True

/-! ## The steps -/

section Steps

variable [LinearOrder τ] [OrderTop τ] {H : HeapOps τ ι Nat} {s s' : Shutdown τ ι} {a : Action τ ι}

/-- The steps of the system, one constructor for each thing a step can do. -/
inductive Step (H : HeapOps τ ι Nat) (s : Shutdown τ ι) : Action τ ι → Shutdown τ ι → Prop
  | start {c t : Nat} {active : Bool} {pool : ThreadPool.Sys} (hstarted : s.started = false)
      (hdtor : s.dtor = .idle) (h : s.pool.Step (.handOver c (.resume [t]) active) pool) :
      Step H s (.start c t active) { s with pool := pool, started := true, handle := some t }
  | await {c t : Nat} {pool : ThreadPool.Sys} (hstarted : s.started = true)
      (hhandle : s.handle = none) (hworker : s.sched.worker = .loop)
      (h : s.pool.Step (.handOver c (.coAwait t) true) pool) :
      Step H s (.await c t)
        { s with sched := { s.sched with holder := none, worker := .suspended }
                 pool := pool, handle := some t }
  | begins {t w : Nat} (hhandle : s.handle = some t) (hres : (t, .worker w) ∈ s.pool.resumed)
      (hworker : s.sched.worker = .start) :
      Step H s (.resume (.worker w)) { s with handle := none, on := some w }
  | resumes {t w : Nat} (hhandle : s.handle = some t) (hres : (t, .worker w) ∈ s.pool.resumed)
      (hworker : s.sched.worker = .suspended) :
      Step H s (.resume (.worker w))
        { s with sched := { s.sched with worker := .relock }, handle := none, on := some w }
  | cancels {t : Nat} {b : ThreadPool.Agent} (hhandle : s.handle = some t)
      (hres : (t, b) ∈ s.pool.resumed) (hb : ∀ w, b ≠ .worker w)
      (hworker : s.sched.worker = .suspended) :
      Step H s (.resume b)
        { s with sched := { s.sched with worker := .deregister }
                 handle := none, on := agentThread s.pool b, canceled := true }
  | sched {b : Stopping.Action τ ι} {sched : Stopping τ ι} (hb : s.Enabled b = true)
      (h : s.sched.step H b = some sched) : Step H s (.sched b) { s with sched := sched }
  | returns (hfut : s.fut = .pending) (hworker : s.sched.worker = .leave) :
      Step H s .resolve { s with fut := .value }
  | throws (hfut : s.fut = .pending) (hworker : s.sched.worker = .gone)
      (hcanceled : s.canceled = true) : Step H s .resolve { s with fut := .exception }
  | pool {b : ThreadPool.Action} {pool : ThreadPool.Sys} (h : s.pool.Step b pool) :
      Step H s (.pool b) { s with pool := pool }
  | destroy {me : Option Nat} {sched : Stopping τ ι} (hdtor : s.dtor = .idle)
      (hstarted : s.started = true) (h : s.sched.step H .request = some sched) :
      Step H s (.destroy me) { s with sched := sched, dtor := .entered, me := me }
  | skips {me : Option Nat} (hdtor : s.dtor = .idle) (hstarted : s.started = false) :
      Step H s (.destroy me) { s with dtor := .returned }
  | finishes (hdtor : s.dtor = .entered) (hstop : s.sched.stop = .complete)
      (hfut : s.fut = .value) : Step H s .finish { s with dtor := .returned }
  | fails (hdtor : s.dtor = .entered) (hstop : s.sched.stop = .complete)
      (hfut : s.fut = .exception) : Step H s .finish { s with dtor := .threw }

omit [LinearOrder τ] [OrderTop τ] in
theorem running_of_runs (h : s.Runs = true) : s.started = true ∧ s.handle = none := by
  have h : s.started = true ∧ s.handle = none ∧ s.Blocks s.on = false := by
    simpa [Runs, and_assoc] using h
  exact ⟨h.1, h.2.1⟩

theorem resume_cases {b : ThreadPool.Agent} (h : s.step H (.resume b) = some s') :
    Step H s (.resume b) s' := by
  obtain ⟨⟨⟨t, ht, hres⟩, -⟩, h⟩ := Option.ite_none_right_eq_some.mp h
  cases hw : s.sched.worker with
  | start =>
      cases b with
      | worker w =>
          simp only [hw, Option.some.injEq] at h
          exact h ▸ .begins ht hres hw
      | handOver | stop => simp [hw] at h
  | suspended =>
      cases b with
      | worker w =>
          simp only [hw, Stopping.goOn, Option.map_some, Option.some.injEq] at h
          exact h ▸ .resumes ht hres hw
      | handOver | stop =>
          simp only [hw, Option.some.injEq] at h
          exact h ▸ .cancels ht hres (by simp) hw
  | _ => simp [hw] at h

/-- **What a step can do.** -/
theorem step_cases (h : s.step H a = some s') : Step H s a s' := by
  cases a with
  | start c t active =>
      obtain ⟨⟨hstarted, hdtor⟩, h⟩ := Option.ite_none_right_eq_some.mp h
      obtain ⟨pool, hpool, rfl⟩ := Option.map_eq_some_iff.mp h
      exact .start hstarted hdtor (ThreadPool.Sys.step_cases hpool)
  | await c t =>
      obtain ⟨⟨hruns, hworker, hstop⟩, h⟩ := Option.ite_none_right_eq_some.mp h
      obtain ⟨hstarted, hhandle⟩ := running_of_runs hruns
      obtain ⟨pool, hpool, h⟩ := Option.bind_eq_some_iff.mp h
      rw [Stopping.goOn, hworker, if_pos hstop] at h
      obtain rfl := Option.some.inj h
      exact .await hstarted hhandle hworker (ThreadPool.Sys.step_cases hpool)
  | resume b => exact resume_cases h
  | sched b =>
      obtain ⟨hb, h⟩ := Option.ite_none_right_eq_some.mp h
      obtain ⟨sched, hsched, rfl⟩ := Option.map_eq_some_iff.mp h
      exact .sched hb hsched
  | resolve =>
      obtain ⟨⟨hfut, -⟩, h⟩ := Option.ite_none_right_eq_some.mp h
      split at h
      · next hworker =>
          obtain rfl := Option.some.inj h
          exact .returns hfut hworker
      · obtain ⟨⟨hworker, hcanceled⟩, h⟩ := Option.ite_none_right_eq_some.mp h
        obtain rfl := Option.some.inj h
        exact .throws hfut hworker hcanceled
  | pool b =>
      obtain ⟨-, h⟩ := Option.ite_none_left_eq_some.mp h
      obtain ⟨pool, hpool, rfl⟩ := Option.map_eq_some_iff.mp h
      exact .pool (ThreadPool.Sys.step_cases hpool)
  | destroy me =>
      obtain ⟨⟨hdtor, -⟩, h⟩ := Option.ite_none_right_eq_some.mp h
      split at h
      · next hstarted =>
          obtain ⟨sched, hsched, rfl⟩ := Option.map_eq_some_iff.mp h
          exact .destroy hdtor hstarted hsched
      · next hstarted =>
          obtain rfl := Option.some.inj h
          exact .skips hdtor (by simpa using hstarted)
  | finish =>
      obtain ⟨⟨hdtor, hstop⟩, h⟩ := Option.ite_none_right_eq_some.mp h
      split at h
      · cases h
      · next hfut =>
          obtain rfl := Option.some.inj h
          exact .finishes hdtor hstop hfut
      · next hfut =>
          obtain rfl := Option.some.inj h
          exact .fails hdtor hstop hfut

end Steps

/-! ## The steps of the scheduler -/

section Sched

variable [LinearOrder τ] [OrderTop τ] {H : HeapOps τ ι Nat} {s : Shutdown τ ι}
  {st st' : Stopping τ ι} {b : Stopping.Action τ ι}

/-- The worker's own steps. -/
def Own : Stopping.Action τ ι → Prop
  | .go | .poll _ | .decide _ | .wake => True
  | _ => False

/-- The worker has left its loop. -/
def Out (w : Place τ) : Prop := w = .leave ∨ w = .deregister ∨ w = .gone

/-- The worker has left its loop and released the lock. -/
def Unwound (w : Place τ) : Prop := w = .deregister ∨ w = .gone

omit [OrderTop τ] in
theorem running_of_own (hb : s.Enabled b = true) (hown : Own b) :
    s.started = true ∧ s.handle = none := by
  refine running_of_runs ?_
  cases b <;> simp_all [Enabled, Own]

/-- The others leave the worker where it is, or wake it up. -/
theorem worker_of_not_own (hown : ¬ Own b) (h : st.step H b = some st') :
    st'.worker = st.worker ∨ (∃ tp, st.worker = .asleep tp) ∧ st'.worker = .woken := by
  have hnotified : ∀ c : Bool, (if c then Stopping.notified st.worker else st.worker) = st.worker ∨
      (∃ tp, st.worker = .asleep tp) ∧
        (if c then Stopping.notified st.worker else st.worker) = .woken := by
    intro c
    cases c with
    | false => exact .inl rfl
    | true =>
        rw [if_pos rfl]
        rcases Stopping.notified_cases st.worker with ⟨tp, htp, hwoken⟩ | ⟨-, hsame⟩
        · exact .inr ⟨⟨tp, htp⟩, hwoken⟩
        · exact .inl hsame
  cases b with
  | go | poll | decide | wake => exact absurd trivial hown
  | request | lock | unlock =>
      obtain ⟨-, h⟩ := Option.ite_none_right_eq_some.mp h
      obtain rfl := Option.some.inj h
      exact .inl rfl
  | notify =>
      obtain ⟨-, h⟩ := Option.ite_none_right_eq_some.mp h
      obtain rfl := Option.some.inj h
      exact hnotified st.registered
  | push k =>
      obtain ⟨-, h⟩ := Option.ite_none_right_eq_some.mp h
      obtain ⟨x, -, rfl⟩ := Option.map_eq_some_iff.mp h
      exact hnotified _

/-- The worker unwinds once it has left its loop. -/
theorem unwound_of_own (hown : Own b) (h : st.step H b = some st') (hw : Out st.worker) :
    Unwound st'.worker := by
  cases b with
  | go =>
      have h : st.goOn = some st' := h
      rcases hw with hw | hw | hw <;> rw [Stopping.goOn, hw] at h
      · obtain rfl := Option.some.inj h
        exact .inl rfl
      · obtain rfl := Option.some.inj h
        exact .inr rfl
      · cases h
  | poll now =>
      have hpoll : st.worker = .poll := (Option.ite_none_right_eq_some.mp h).1
      simp [Out, hpoll] at hw
  | decide | wake =>
      rcases hw with hw | hw | hw <;> simp [Stopping.step, hw] at h
  | request | notify | lock | push | unlock => exact hown.elim

omit [LinearOrder τ] [OrderTop τ] in
/-- The worker suspends in `co_await *pool` only. -/
theorem loop_of_suspended (h : st.goOn = some st') (hw : st'.worker = .suspended) :
    st.worker = .loop ∧ st.stop = .idle := by
  cases hfrom : st.worker <;> grind [Stopping.goOn, Stopping.acquire]

/-- Outside its `co_await` the worker comes to no suspension. -/
theorem ne_suspended_of_own (hb : s.Enabled b = true) (hown : Own b)
    (h : s.sched.step H b = some st') : st'.worker ≠ .suspended := by
  cases b with
  | go =>
      intro hw
      have hloop := loop_of_suspended h hw
      simp [Enabled, hloop] at hb
  | poll now =>
      obtain ⟨-, h⟩ := Option.ite_none_right_eq_some.mp h
      obtain ⟨⟨v, r⟩, -, rfl⟩ := Option.map_eq_some_iff.mp h
      cases r <;> simp [Stopping.answered]
  | decide can =>
      simp only [Stopping.step] at h
      split at h
      · obtain rfl := Option.some.inj h
        cases can <;> simp
      · cases h
  | wake =>
      simp only [Stopping.step] at h
      split at h
      · obtain rfl := Option.some.inj h
        simp
      · cases h
  | request | notify | lock | push | unlock => exact hown.elim

/-- Only the request and its notification touch the stop. -/
theorem stop_of_step (h : st.step H b = some st') (hrequest : b ≠ .request)
    (hnotify : b ≠ .notify) : st'.stop = st.stop := by
  cases b with
  | request => exact absurd rfl hrequest
  | notify => exact absurd rfl hnotify
  | go => cases Stopping.goesOn_of_goOn h <;> rfl
  | poll now =>
      obtain ⟨-, h⟩ := Option.ite_none_right_eq_some.mp h
      obtain ⟨r, -, rfl⟩ := Option.map_eq_some_iff.mp h
      rfl
  | decide | wake =>
      simp only [Stopping.step] at h
      split at h
      · obtain rfl := Option.some.inj h
        rfl
      · cases h
  | lock | unlock =>
      obtain ⟨-, h⟩ := Option.ite_none_right_eq_some.mp h
      obtain rfl := Option.some.inj h
      rfl
  | push k =>
      obtain ⟨-, h⟩ := Option.ite_none_right_eq_some.mp h
      obtain ⟨x, -, rfl⟩ := Option.map_eq_some_iff.mp h
      rfl

end Sched

/-! ## What every step keeps -/

section Invariant

variable [LinearOrder τ] [OrderTop τ] {H : HeapOps τ ι Nat} {s s' : Shutdown τ ι} {a : Action τ ι}

/-- The worker coroutine, `_fut` and the destructor agree. -/
structure Agree (s : Shutdown τ ι) : Prop where
  handle : ∀ t, s.handle = some t →
    s.started = true ∧ (s.sched.worker = .start ∨ s.sched.worker = .suspended)
  suspended : s.sched.worker = .suspended → s.handle ≠ none
  unstarted : s.started = false → s.sched.worker = .start
  canceled : s.canceled = true → Unwound s.sched.worker
  value : s.fut = .value → s.canceled = false ∧ Out s.sched.worker
  exception : s.fut = .exception → s.canceled = true
  idle : s.dtor = .idle → s.sched.stop = .idle
  entered : s.dtor = .entered → s.started = true
  threw : s.dtor = .threw → s.canceled = true ∧ s.started = true ∧ s.sched.stop = .complete

theorem Agree.sched_step (hs : Agree s) {b : Stopping.Action τ ι} {sched : Stopping τ ι}
    (hb : s.Enabled b = true) (h : s.sched.step H b = some sched) :
    Agree { s with sched := sched } := by
  have hstop : s.dtor = .entered ∧ sched.stop = .complete ∨ sched.stop = s.sched.stop := by
    by_cases hnotify : b = .notify
    · subst hnotify
      obtain ⟨-, h⟩ := Option.ite_none_right_eq_some.mp h
      obtain rfl := Option.some.inj h
      exact .inl ⟨by simpa [Enabled] using hb, rfl⟩
    · refine .inr (stop_of_step h ?_ hnotify)
      rintro rfl
      cases hb
  have hidle : s.dtor = .idle → sched.stop = .idle := by
    intro hd
    rcases hstop with ⟨hentered, -⟩ | hsame
    · cases hentered.symm.trans hd
    · exact hsame.trans (hs.idle hd)
  have hthrew : s.dtor = .threw →
      s.canceled = true ∧ s.started = true ∧ sched.stop = .complete := by
    intro hd
    obtain ⟨hcanceled, hstarted, hcomplete⟩ := hs.threw hd
    refine ⟨hcanceled, hstarted, ?_⟩
    rcases hstop with ⟨-, hcomplete⟩ | hsame
    · exact hcomplete
    · exact hsame.trans hcomplete
  by_cases hown : Own b
  · -- the worker runs: it comes to no suspension, and past its loop it unwinds
    obtain ⟨hstarted, hhandle⟩ := running_of_own hb hown
    have hout := unwound_of_own hown h
    refine ⟨fun t ht => ?_, fun hw => ?_, fun hn => ?_, fun hc => ?_, fun hv => ?_, hs.exception,
      hidle, hs.entered, hthrew⟩
    · cases hhandle.symm.trans ht
    · exact absurd hw (ne_suspended_of_own hb hown h)
    · cases hstarted.symm.trans hn
    · exact hout (.inr (hs.canceled hc))
    · exact ⟨(hs.value hv).1, .inr (hout (hs.value hv).2)⟩
  · -- the others leave the worker where it is, unless it is asleep
    have hworker := worker_of_not_own hown h
    have hkeep : ∀ w, s.sched.worker = w → (∀ tp, w ≠ .asleep tp) → sched.worker = w := by
      intro w hw hne
      rcases hworker with hsame | ⟨⟨tp, hasleep⟩, -⟩
      · exact hsame.trans hw
      · exact absurd (hw.symm.trans hasleep) (hne tp)
    refine ⟨fun t ht => ⟨(hs.handle t ht).1, ?_⟩, fun hw => ?_, fun hn => ?_, fun hc => ?_,
      fun hv => ⟨(hs.value hv).1, ?_⟩, hs.exception, hidle, hs.entered, hthrew⟩
    · exact (hs.handle t ht).2.imp (fun hw => hkeep _ hw (by simp)) fun hw => hkeep _ hw (by simp)
    · rcases hworker with hsame | ⟨-, hwoken⟩
      · exact hs.suspended (hsame.symm.trans hw)
      · cases hwoken.symm.trans hw
    · exact hkeep _ (hs.unstarted hn) (by simp)
    · exact (hs.canceled hc).imp (fun hw => hkeep _ hw (by simp)) fun hw => hkeep _ hw (by simp)
    · exact (hs.value hv).2.imp (fun hw => hkeep _ hw (by simp))
        (Or.imp (fun hw => hkeep _ hw (by simp)) fun hw => hkeep _ hw (by simp))

omit [LinearOrder τ] [OrderTop τ] in
/-- A worker that has not unwound was not canceled. -/
theorem Agree.canceled_false (hs : Agree s) (hw : ¬ Unwound s.sched.worker) :
    s.canceled = false := by
  by_contra hcanceled
  exact hw (hs.canceled (by simpa using hcanceled))

theorem Agree.step (hs : Agree s) (h : Step H s a s') : Agree s' := by
  cases h with
  | start hstarted hdtor h =>
      refine ⟨fun _ _ => ⟨rfl, .inl (hs.unstarted hstarted)⟩, fun _ => by simp,
        fun h => (by cases h), hs.canceled, hs.value, hs.exception, hs.idle, fun _ => rfl,
        fun hd => ?_⟩
      exact ⟨(hs.threw hd).1, rfl, (hs.threw hd).2.2⟩
  | await hstarted hhandle hworker h =>
      -- in its loop the worker was not canceled, and has not returned
      have hcanceled := hs.canceled_false (by simp [Unwound, hworker])
      refine ⟨fun _ _ => ⟨hstarted, .inr rfl⟩, fun _ => by simp, fun h => ?_, fun hc => ?_,
        fun hv => ?_, hs.exception, hs.idle, hs.entered, hs.threw⟩
      · cases hstarted.symm.trans h
      · cases hcanceled.symm.trans hc
      · have hout := (hs.value hv).2
        simp [Out, hworker] at hout
  | begins hhandle hres hworker =>
      refine ⟨by simp, fun hw => ?_, hs.unstarted, hs.canceled, hs.value, hs.exception, hs.idle,
        hs.entered, hs.threw⟩
      cases hworker.symm.trans hw
  | resumes hhandle hres hworker =>
      have hcanceled := hs.canceled_false (by simp [Unwound, hworker])
      refine ⟨by simp, fun h => (by cases h), fun h => ?_, fun hc => ?_, fun hv => ?_,
        hs.exception, hs.idle, hs.entered, hs.threw⟩
      · cases hworker.symm.trans (hs.unstarted h)
      · cases hcanceled.symm.trans hc
      · have hout := (hs.value hv).2
        simp [Out, hworker] at hout
  | cancels hhandle hres hb hworker =>
      refine ⟨by simp, fun h => (by cases h), fun h => ?_, fun _ => .inl rfl, fun hv => ?_,
        fun _ => rfl, hs.idle, hs.entered, fun hd => ⟨rfl, (hs.threw hd).2⟩⟩
      · cases hworker.symm.trans (hs.unstarted h)
      · have hout := (hs.value hv).2
        simp [Out, hworker] at hout
  | sched hb h => exact hs.sched_step hb h
  | returns hfut hworker =>
      have hcanceled := hs.canceled_false (by simp [Unwound, hworker])
      exact ⟨hs.handle, hs.suspended, hs.unstarted, hs.canceled,
        fun _ => ⟨hcanceled, .inl hworker⟩, fun h => (by cases h), hs.idle, hs.entered, hs.threw⟩
  | throws hfut hworker hcanceled =>
      exact ⟨hs.handle, hs.suspended, hs.unstarted, hs.canceled, fun h => (by cases h),
        fun _ => hcanceled, hs.idle, hs.entered, hs.threw⟩
  | pool h =>
      exact ⟨hs.handle, hs.suspended, hs.unstarted, hs.canceled, hs.value, hs.exception, hs.idle,
        hs.entered, hs.threw⟩
  | destroy hdtor hstarted h =>
      obtain ⟨-, h⟩ := Option.ite_none_right_eq_some.mp h
      obtain rfl := Option.some.inj h
      exact ⟨hs.handle, hs.suspended, hs.unstarted, hs.canceled, hs.value, hs.exception,
        fun h => (by cases h), fun _ => hstarted, fun h => (by cases h)⟩
  | skips | finishes =>
      exact ⟨hs.handle, hs.suspended, hs.unstarted, hs.canceled, hs.value, hs.exception,
        fun h => (by cases h), fun h => (by cases h), fun h => (by cases h)⟩
  | fails hdtor hstop hfut =>
      exact ⟨hs.handle, hs.suspended, hs.unstarted, hs.canceled, hs.value, hs.exception,
        fun h => (by cases h), fun h => (by cases h),
        fun _ => ⟨hs.exception hfut, hs.entered hdtor, hstop⟩⟩

/-- The parts of the state are in order, and the pool knows the suspension. -/
structure Inv (s : Shutdown τ ι) : Prop where
  agree : s.Agree
  sched : s.sched.Inv
  pool : s.pool.Placed
  handed : ∀ t, s.handle = some t → t ∈ s.pool.handed

omit [OrderTop τ] in
theorem inv_init (threads : Nat) : Inv (init threads : Shutdown τ ι) :=
  ⟨by constructor <;> simp [init], Stopping.inv_init, ThreadPool.Sys.placed_init threads,
    by simp [init]⟩

omit [OrderTop τ] in
/-- The worker that was handed over to the pool is known to it, and kept when the pool was not
stopped. -/
theorem Inv.kept_handOver (hs : Inv s) {c t : Nat} {route : ThreadPool.Route} {active : Bool}
    {pool : ThreadPool.Sys} (h : s.pool.Step (.handOver c route active) pool)
    (hroute : route.items.map QItem.handle = [t]) :
    t ∈ pool.handed ∧ (pool.Kept t ↔ s.pool.pool.exit = false) :=
  hs.pool.kept_handOver h (by rw [hroute]; exact List.mem_singleton_self t)

theorem Inv.step (hs : Inv s) (h : Step H s a s') : Inv s' := by
  have hagree := hs.agree.step h
  cases h with
  | start hstarted hdtor h =>
      refine ⟨hagree, hs.sched, hs.pool.step h, fun u hu => ?_⟩
      obtain rfl := Option.some.inj hu
      exact (hs.kept_handOver h rfl).1
  | await hstarted hhandle hworker h =>
      refine ⟨hagree, ?_, hs.pool.step h, fun u hu => ?_⟩
      · exact hs.sched.goesOn (.releases _ (by simp [hworker, Stopping.Holds]) (.inl rfl))
      · obtain rfl := Option.some.inj hu
        exact (hs.kept_handOver h rfl).1
  | begins => exact ⟨hagree, hs.sched, hs.pool, by simp⟩
  | resumes hhandle hres hworker =>
      exact ⟨hagree, hs.sched.goesOn (.resumes hworker), hs.pool, by simp⟩
  | cancels hhandle hres hb hworker =>
      refine ⟨hagree, ⟨hs.sched.ordered, fun h => (by cases h), fun _ _ => ?_⟩, hs.pool, by simp⟩
      exact hs.sched.registered (by simp [hworker]) (by simp [hworker])
  | sched hb h => exact ⟨hagree, hs.sched.step H h, hs.pool, hs.handed⟩
  | pool h => exact ⟨hagree, hs.sched, hs.pool.step h, fun u hu => h.mem_handed (hs.handed u hu)⟩
  | destroy hdtor hstarted h => exact ⟨hagree, hs.sched.step H h, hs.pool, hs.handed⟩
  | returns | throws | skips | finishes | fails => exact ⟨hagree, hs.sched, hs.pool, hs.handed⟩

/-! ## What the pool does to the worker -/

/-- The worker was not canceled, and a worker of the pool has it or gets it. -/
def Unharmed (s : Shutdown τ ι) : Prop :=
  s.canceled = false ∧ ∀ t, s.handle = some t → s.pool.Kept t

omit [OrderTop τ] in
/-- A suspended worker is gone on with if and only if a worker of the pool has it or gets it,
and the destructor does not block a thread that it needs. -/
theorem Inv.held_iff (hs : Inv s) {t : Nat} (ht : s.handle = some t) :
    s.Held ↔ s.pool.Kept t ∧ s.pool.Attended s.me t := by
  simp only [Held, ht]
  exact hs.pool.leads_iff.trans hs.pool.comes_iff

omit [OrderTop τ] in
/-- A worker that is unharmed, that the destructor does not block and that does not oversleep
the stop makes for a clean shutdown. -/
theorem Inv.clean (hs : Inv s) (hwait : s.AtWait →
    Unharmed s ∧ s.sched.NoLostStop ∧ (s.fut = .pending → s.Attended)) : s.Clean := by
  refine ⟨fun hthrew => ?_, fun hat => ?_⟩
  · obtain ⟨hcanceled, hstarted, hstop⟩ := hs.agree.threw hthrew
    have hat : s.AtWait := ⟨hstarted, by simp [hthrew], hstop⟩
    rw [(hwait hat).1.1] at hcanceled
    cases hcanceled
  · obtain ⟨⟨hcanceled, hkept⟩, hlost, hatt⟩ := hwait hat
    cases hfut : s.fut with
    | value => exact .inl rfl
    | exception =>
        rw [hs.agree.exception hfut] at hcanceled
        cases hcanceled
    | pending =>
        have hatt := hatt hfut
        refine .inr ⟨rfl, ?_⟩
        cases hhandle : s.handle with
        | some t =>
            simp only [Attended, hhandle] at hatt
            exact (hs.held_iff hhandle).mpr ⟨hkept t hhandle, hatt⟩
        | none =>
            simp only [Attended, hhandle] at hatt
            simp only [Held, hhandle]
            exact ⟨hcanceled, fun hw => hs.agree.suspended hw hhandle, hlost hat.2.2, hatt⟩

theorem inv_exec (threads : Nat) (as : List (Action τ ι)) :
    Inv (Run.exec (step H) (init threads) as) :=
  Run.exec_inv (fun _ _ _ hs h => hs.step (step_cases h)) (inv_init threads) as

/-- The step does not stand in the way of a clean shutdown. -/
def Good (s : Shutdown τ ι) (a : Action τ ι) : Prop := Served s a ∧ InTime s a

omit [LinearOrder τ] [OrderTop τ] in
/-- The destructor does not block another worker. -/
theorem blocks_of_ne {w : Option Nat} (hw : w.isSome → s.me ≠ w) : s.Blocks w = false := by
  by_contra hblocks
  have h : s.dtor = .entered ∧ s.me.isSome = true ∧ s.me = w := by
    simpa [Blocks, and_assoc] using hblocks
  exact hw (h.2.2 ▸ h.2.1) h.2.2

/-- The steps of the workers that the destructor does not block change the pool only. -/
theorem exec_pool (s : Shutdown τ ι) {as : List ThreadPool.Action}
    (has : ∀ a ∈ as, ThreadPool.Sys.Works s.me a) :
    Run.exec (step H) s (as.map .pool) =
      { s with pool := Run.exec ThreadPool.Sys.step s.pool as } := by
  induction as generalizing s with
  | nil => rfl
  | cons a as ih =>
      obtain ⟨ha, has⟩ := List.forall_mem_cons.mp has
      have hfree : s.Blocks (stepThread s.pool a) = false := by
        refine blocks_of_ne fun hsome => ?_
        cases a with
        | worker w => exact ha
        | flush b =>
            cases b with
            | worker w => exact ha
            | handOver | stop => exact ha.elim
        | goOn => cases hsome
        | enter | handOver | stop | goOnStop => exact ha.elim
      have hstep : Run.tryStep (step H) s (.pool a) =
          { s with pool := Run.tryStep ThreadPool.Sys.step s.pool a } := by
        cases hpool : s.pool.step a <;> simp [Run.tryStep, step, hpool, hfree]
      rw [List.map_cons, Run.exec_cons, Run.exec_cons, hstep]
      exact ih { s with pool := Run.tryStep ThreadPool.Sys.step s.pool a } has

/-- The worker coroutine goes on when a worker of the pool has resumed it that the destructor
does not block. -/
theorem resume_isSome {t v : Nat} (ht : s.handle = some t) (hv : s.me ≠ some v)
    (hres : (t, ThreadPool.Agent.worker v) ∈ s.pool.resumed)
    (hw : s.sched.worker = .start ∨ s.sched.worker = .suspended) :
    (step H s (.resume (.worker v))).isSome := by
  have hif : (∃ u ∈ s.handle, (u, ThreadPool.Agent.worker v) ∈ s.pool.resumed) ∧
      ¬ s.Blocks (agentThread s.pool (.worker v)) :=
    ⟨⟨t, ht, hres⟩, by simp [blocks_of_ne fun _ => hv, agentThread]⟩
  rcases hw with hw | hw
  · simp only [step, if_pos hif, hw, Option.isSome_some]
  · simp only [step, if_pos hif, hw, Stopping.goOn, Option.map_some, Option.isSome_some]

/-- A worker coroutine that is suspended goes on after some steps of the workers of the pool
that the destructor does not block, when the shutdown is clean. -/
theorem exists_resume (hs : Inv s) (hclean : s.Clean) (hat : s.AtWait) {t : Nat}
    (ht : s.handle = some t) :
    ∃ (as : List ThreadPool.Action) (v : Nat), (∀ a ∈ as, ThreadPool.Sys.Works s.me a) ∧
      (step H (Run.exec (step H) s (as.map .pool)) (.resume (.worker v))).isSome := by
  have hw := (hs.agree.handle t ht).2
  have hheld : s.Held := by
    refine ((hclean.2 hat).resolve_left fun hvalue => ?_).2
    have hout := (hs.agree.value hvalue).2
    rcases hw with hw | hw <;> simp [Out, hw] at hout
  simp only [Held, ht] at hheld
  obtain ⟨as, has, v, hv, hres⟩ := hheld
  refine ⟨as, v, has, ?_⟩
  rw [exec_pool s has]
  exact resume_isSome ht hv hres hw

end Invariant

end Shutdown

end Scheduler

end Cocls
