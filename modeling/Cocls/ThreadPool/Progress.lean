import Mathlib.Algebra.Order.BigOperators.Group.List
import Mathlib.Algebra.GroupWithZero.Nat
import Mathlib.Algebra.Order.Group.Nat
import Cocls.ThreadPool.Kept

/-!
# Cocls.ThreadPool.Progress

Which coroutines get resumed by the threads that are on their way.

Such a thread works for the pool, hands coroutines over or is in a call of
`stop()`; a thread that has left resumes what is in its coroutine queue; no new
call is made.  `Placed.leads_iff` says when the workers, but for one that is held
up in a closure, get to a coroutine.  Around a stopped pool every thread comes to
its end, and has then resumed what it had (`Closing.leads`).
-/

namespace Cocls

namespace ThreadPool

namespace Sys

variable {s s' : Sys} {a : Action} {b : Option Nat} {t : Nat}

/-- A step of a thread that is on its way; no new call is made. -/
def GoesOn : Action → Prop
  | .worker _ | .goOn _ | .goOnStop _ | .flush _ => True
  | .enter .. | .handOver .. | .stop .. => False

/-- A step of a hand-over that is on its way, or of a worker other than `b`; what these workers
run returns. -/
def Works (b : Option Nat) : Action → Prop
  | .worker w | .flush (.worker w) => b ≠ some w
  | .goOn _ => True
  | .enter .. | .handOver .. | .stop .. | .goOnStop _ | .flush _ => False

/-! ## A worker of an open pool -/

/-- Worker `w` goes on taking closures: it works for a pool that is not stopped, and no
coroutine queue is around it. -/
structure Serves (s : Sys) (w : Nat) (wk : Worker) : Prop where
  worker : s.worker w = some wk
  active : wk.active = false
  current : wk.current = true
  stage : wk.stage ≠ .gone
  exit : s.pool.exit = false

/-- The steps of a worker up to its next closure. -/
def turnLeft : Stage → Nat
  | .took _ => 2
  | .running => 1
  | .idle | .gone => 0

/-- The steps of worker `w` when it works for the queue alone. -/
def workLeft (s : Sys) (w : Nat) : Nat :=
  3 * s.pool.queue.length + (s.worker w).elim 0 fun wk => turnLeft wk.stage

section Serves

variable {w : Nat} {wk : Worker} {i : QItem} {queue : List QItem}

theorem Serves.step_idle (h : Serves s w wk) (hidle : wk.stage = .idle)
    (hq : s.pool.queue = i :: queue) :
    step s (.worker w) = some { s.setWorker w { wk with stage := .took i } with
      pool := { s.pool with queue := queue } } := by
  have hopen : ¬ s.pool.exit = true := by simp [h.exit]
  rw [step, h.worker, Option.bind_some, workerStep, hidle]
  simp only [ThreadPool.next, if_neg hopen, hq]

/-- A worker with no coroutine queue around it resumes the coroutine that it took. -/
theorem step_took (hw : s.worker w = some wk) (hactive : wk.active = false)
    (htook : wk.stage = .took i) :
    step s (.worker w) = some { s.setWorker w { wk with stage := .running } with
      resumed := s.resumed ++ [(i.handle, .worker w)] } := by
  rw [step, hw, Option.bind_some, workerStep, htook, hactive]
  rfl

theorem Serves.step_running (h : Serves s w wk) (hrunning : wk.stage = .running) :
    step s (.worker w) = some (s.setWorker w { wk with stage := .idle }) := by
  rw [step, h.worker, Option.bind_some, workerStep, hrunning, h.current]
  rfl

/-- What worker `w` holds tells its stage. -/
theorem Serves.handlesAt_worker (h : Serves s w wk) :
    s.handlesAt (.worker w) = heldByWorker wk := by
  rw [handlesAt, h.worker]
  rfl

/-- Worker `w` is on its way to the coroutine `t`, or has resumed it. -/
def Reaches (s : Sys) (w t : Nat) : Prop :=
  (t, Agent.worker w) ∈ s.resumed ∨ t ∈ s.handlesAt .queue ∨ t ∈ s.handlesAt (.worker w)

/-- A worker that works for the queue comes closer to the coroutine `t`. -/
theorem Serves.step (h : Serves s w wk) (ht : Reaches s w t)
    (hnot : (t, Agent.worker w) ∉ s.resumed) :
    ∃ s', Sys.step s (.worker w) = some s' ∧ ((∃ wk', Serves s' w wk') ∧ Reaches s' w t) ∧
      workLeft s' w < workLeft s w := by
  have ht := ht.resolve_left hnot
  rw [h.handlesAt_worker] at ht
  cases hs : wk.stage with
  | idle =>
      cases hq : s.pool.queue with
      | nil => simp [handlesAt, hq, heldByWorker, hs] at ht
      | cons i queue =>
          refine ⟨_, h.step_idle hs hq, ⟨⟨{ wk with stage := .took i }, ?_⟩, .inr ?_⟩, ?_⟩
          · exact ⟨Function.update_self .., h.active, h.current, by simp, h.exit⟩
          · simpa [handlesAt, hq, setWorker, heldByWorker, hs, or_comm] using ht
          · simp [workLeft, hq, setWorker, turnLeft]
            omega
  | took i =>
      refine ⟨_, step_took h.worker h.active hs, ⟨⟨{ wk with stage := .running }, ?_⟩, ?_⟩, ?_⟩
      · exact ⟨Function.update_self .., h.active, h.current, by simp, h.exit⟩
      · simp [Reaches, heldByWorker, hs, handlesAt, setWorker] at ht ⊢
        tauto
      · simp [workLeft, h.worker, setWorker, turnLeft, hs]
  | running =>
      refine ⟨_, h.step_running hs, ⟨⟨{ wk with stage := .idle }, ?_⟩, .inr ?_⟩, ?_⟩
      · exact ⟨Function.update_self .., h.active, h.current, by simp, h.exit⟩
      · simpa [handlesAt, setWorker, heldByWorker, hs] using ht
      · simp [workLeft, h.worker, setWorker, turnLeft, hs]
  | gone => exact absurd hs h.stage

/-- A worker that works for the queue resumes the coroutine `t`. -/
theorem Serves.leads (h : Serves s w wk) (ht : Reaches s w t) :
    Run.Leads Sys.step (· = .worker w) s fun s' => (t, Agent.worker w) ∈ s'.resumed := by
  refine (Run.leads_of_measure (fun s => (∃ wk, Serves s w wk) ∧ Reaches s w t)
    (fun s => workLeft s w) ?_ ⟨⟨wk, h⟩, ht⟩).mono (fun _ => id) fun _ => And.right
  rintro s ⟨⟨wk, h⟩, ht⟩ hnot
  exact ⟨_, (h.step ht hnot).imp fun s' hs' => ⟨rfl, hs'⟩⟩

end Serves

/-- A worker of an open pool that has no coroutine queue around it serves. -/
theorem Placed.serves (hs : Placed s) (hexit : s.pool.exit = false) {w : Nat} {wk : Worker}
    (hw : s.worker w = some wk) (hactive : wk.active = false) : Serves s w wk :=
  ⟨hw, hactive, (hs.exitFacts.workers hexit w wk hw).1, (hs.exitFacts.workers hexit w wk hw).2,
    hexit⟩

/-! ## A hand-over to an open pool -/

/-- The coroutine `t` is enqueued, or its hand-over is on the way to that. -/
def Enqueues (s : Sys) (c t : Nat) : Prop :=
  t ∈ s.handlesAt .queue ∨
    ∃ ho, s.handOver c = some ho ∧ ho.refused = none ∧ t ∈ ho.todo.map QItem.handle

/-- The closures that hand-over `c` has still to enqueue. -/
def todoLeft (s : Sys) (c : Nat) : Nat := (s.handOver c).elim 0 fun ho => ho.todo.length

/-- A hand-over to an open pool enqueues the coroutine `t`; the workers stay where they are. -/
theorem leads_queue {c : Nat} (hexit : s.pool.exit = false) (ht : Enqueues s c t) :
    Run.Leads step (· = .goOn c) s fun s' =>
      (s'.pool.exit = false ∧ s'.worker = s.worker) ∧ t ∈ s'.handlesAt .queue := by
  refine (Run.leads_of_measure
    (fun s' => Enqueues s' c t ∧ s'.pool.exit = false ∧ s'.worker = s.worker)
    (fun s' => todoLeft s' c) ?_ ⟨ht, hexit, rfl⟩).mono (fun _ => id)
    fun s' hs' => ⟨hs'.1.2, hs'.2⟩
  rintro s' ⟨ht, hexit, hworker⟩ hnot
  obtain ⟨ho, hc, hr, ht⟩ := ht.resolve_left hnot
  cases htodo : ho.todo with
  | nil => simp [htodo] at ht
  | cons i todo =>
      have hopen : ¬ s'.pool.exit = true := by simp [hexit]
      refine ⟨.goOn c, { s'.setHandOver c { ho with todo := todo } with
        pool := { s'.pool with queue := s'.pool.queue ++ [i] } }, rfl, ?_, ⟨?_, hexit, hworker⟩, ?_⟩
      · rw [step, hc, Option.bind_some, handOverStep, hr]
        simp only [htodo, ThreadPool.enqueue, if_neg hopen]
      · rw [htodo, List.map_cons, List.mem_cons] at ht
        rcases ht with rfl | ht
        · exact .inl (by simp [handlesAt])
        · exact .inr ⟨{ ho with todo := todo }, Function.update_self .., hr, ht⟩
      · simp [todoLeft, hc, htodo, setHandOver]

/-! ## The threads around a stopped pool -/

/-- Where an agent has what it holds. -/
def agentSpot : Agent → Spot
  | .worker w => .worker w
  | .handOver c => .handOver c
  | .stop k => .stop k

/-- Agent `d` has the coroutine `t`: in its hands, in the coroutine queue of its thread, or it
has resumed it. -/
def With (s : Sys) (d : Agent) (t : Nat) : Prop :=
  t ∈ s.handlesAt (agentSpot d) ∨ t ∈ s.ready d ∨ (t, d) ∈ s.resumed

/-- What is in the coroutine queue of a thread that has left is resumed. -/
theorem leads_flush {d : Agent} (hover : s.Over d = true) (ht : t ∈ s.ready d) :
    Run.Leads step (· = .flush d) s fun s' => (t, d) ∈ s'.resumed := by
  refine (Run.leads_of_measure
    (fun s => s.Over d = true ∧ (t ∈ s.ready d ∨ (t, d) ∈ s.resumed))
    (fun s => (s.ready d).length) ?_ ⟨hover, .inl ht⟩).mono (fun _ => id) fun _ => And.right
  rintro s ⟨hover, ht⟩ hnot
  have ht := ht.resolve_right hnot
  cases hr : s.ready d with
  | nil => simp [hr] at ht
  | cons h ready =>
      refine ⟨.flush d, { s with ready := Function.update s.ready d ready
                                 resumed := s.resumed ++ [(h, d)] }, rfl, ?_, ⟨hover, ?_⟩, ?_⟩
      · simp only [step, hover, if_true, hr]
      · rw [hr, List.mem_cons] at ht
        rcases ht with rfl | ht
        · exact .inr (by simp)
        · exact .inl (by simpa using ht)
      · simp

/-- The steps of a worker until it leaves a stopped pool. -/
def leaveLeft : Stage → Nat
  | .took _ => 3
  | .running => 2
  | .idle => 1
  | .gone => 0

/-- A worker that has not left a stopped pool goes on to leave it. -/
theorem exists_leave {w : Nat} {wk : Worker} (hexit : s.pool.exit = true)
    (hw : s.worker w = some wk) (hstage : wk.stage ≠ .gone) :
    ∃ s' wk', step s (.worker w) = some s' ∧ s'.worker = Function.update s.worker w (some wk') ∧
      leaveLeft wk'.stage < leaveLeft wk.stage := by
  have hstep : step s (.worker w) = s.workerStep w wk := by rw [step, hw, Option.bind_some]
  rw [hstep, workerStep]
  cases hs : wk.stage with
  | idle =>
      refine ⟨s.setWorker w { wk with stage := .gone }, _, ?_, rfl, by simp [leaveLeft]⟩
      simp [ThreadPool.next, hexit]
  | took i =>
      refine ⟨_, { wk with stage := .running }, rfl, ?_, by simp [leaveLeft]⟩
      funext v
      rw [coroResume_worker]
      rfl
  | running =>
      refine ⟨_, _, rfl, rfl, ?_⟩
      cases wk.current <;> simp [leaveLeft]
  | gone => exact absurd hs hstage

/-- The closures that an agent will destroy. -/
def itemsOf (s : Sys) : Agent → List QItem
  | .worker _ => []
  | .handOver c => (s.handOver c).elim [] fun ho => ho.refused.toList ++ ho.todo
  | .stop k => (s.stop k).elim [] Stop.q

/-- Agent `d` has the coroutine `t`, and destroys no closure of it that has no deleter. -/
structure Has (s : Sys) (d : Agent) (t : Nat) : Prop where
  withAgent : With s d t
  deleter : ∀ i ∈ itemsOf s d, i.handle = t → i.fin = true

theorem heldByWorker_current (wk : Worker) (c : Bool) :
    heldByWorker { wk with current := c } = heldByWorker wk := rfl

/-- Around a stopped pool, what an agent has stays with it. -/
theorem Step.has (h : Step s a s') (ha : GoesOn a) (hexit : s.pool.exit = true) {d : Agent}
    (ht : Has s d t) : Has s' d t := by
  obtain ⟨hwith, hdel⟩ := ht
  cases h with
  | enter | handOver | stop => exact ha.elim
  | take hw hidle hopen | enqueue hc hr htodo hopen => rw [hexit] at hopen; cases hopen
  | turn | run | refuse | drop | detach | join | destroy | done | flush =>
      cases d <;> constructor <;>
        grind -linarith [With, agentSpot, handlesAt, heldByWorker, heldByHandOver, heldByStop,
          heldByWorker_current, itemsOf]

/-- What holds while the threads around a stopped pool go on. -/
structure Closing (d : Agent) (t : Nat) (s : Sys) : Prop where
  placed : Placed s
  exit : s.pool.exit = true
  has : Has s d t

theorem Closing.step {d : Agent} (hs : Closing d t s) (h : step s a = some s') (ha : GoesOn a) :
    Closing d t s' :=
  have hstep := step_cases h
  ⟨hs.placed.step hstep, hstep.exit_of_exit hs.exit, hstep.has ha hs.exit hs.has⟩

/-- Worker `w` leaves. -/
theorem Closing.leads_worker {w : Nat} {wk : Worker} (hs : Closing (.worker w) t s)
    (hw : s.worker w = some wk) :
    Run.Leads Sys.step (· = .worker w) s fun s' =>
      Closing (.worker w) t s' ∧ s'.Over (.worker w) = true := by
  refine (Run.leads_of_measure (fun s => Closing (.worker w) t s ∧ ∃ wk, s.worker w = some wk)
    (fun s => (s.worker w).elim 0 fun wk => leaveLeft wk.stage) ?_ ⟨hs, wk, hw⟩).mono
      (fun _ => id) fun _ h => ⟨h.1.1, h.2⟩
  rintro s ⟨hs, wk, hw⟩ hnot
  have hstage : wk.stage ≠ .gone := fun hgone => hnot (by simp [Over, hw, hgone])
  obtain ⟨s', wk', hstep, hworker, hlt⟩ := exists_leave hs.exit hw hstage
  have hw' : s'.worker w = some wk' := by rw [hworker, Function.update_self]
  refine ⟨_, s', rfl, hstep, ⟨hs.step hstep trivial, wk', hw'⟩, ?_⟩
  simpa [hw, hw'] using hlt

/-- The steps of a hand-over to a stopped pool. -/
def refusesLeft (ho : HandOver) : Nat := 2 * ho.todo.length + ho.refused.toList.length

/-- Hand-over `c` lets go of all its closures. -/
theorem Closing.leads_handOver {c : Nat} {ho : HandOver} (hs : Closing (.handOver c) t s)
    (hc : s.handOver c = some ho) :
    Run.Leads Sys.step (· = .goOn c) s fun s' =>
      Closing (.handOver c) t s' ∧ s'.Over (.handOver c) = true := by
  refine (Run.leads_of_measure (fun s => Closing (.handOver c) t s ∧ ∃ ho, s.handOver c = some ho)
    (fun s => (s.handOver c).elim 0 refusesLeft) ?_ ⟨hs, ho, hc⟩).mono
      (fun _ => id) fun _ h => ⟨h.1.1, h.2⟩
  rintro s ⟨hs, ho, hc⟩ hnot
  obtain ⟨s', ho', hstep, hc', hlt⟩ : ∃ s' ho', Sys.step s (.goOn c) = some s' ∧
      s'.handOver c = some ho' ∧ refusesLeft ho' < refusesLeft ho := by
    rw [Sys.step, hc, Option.bind_some, handOverStep]
    cases hr : ho.refused with
    | some i =>
        refine ⟨_, { ho with refused := none }, rfl, ?_, by simp [refusesLeft, hr]⟩
        rw [destroy_handOver]
        exact Function.update_self ..
    | none =>
        cases htodo : ho.todo with
        | nil => exact absurd (by simp [Over, hc, hr, htodo]) hnot
        | cons i todo =>
            refine ⟨_, { ho with todo := todo, refused := some i }, rfl, ?_, ?_⟩
            · simp [ThreadPool.enqueue, hs.exit, setHandOver]
            · simp [refusesLeft, hr, htodo]
              omega
  refine ⟨_, s', rfl, hstep, ⟨hs.step hstep trivial, ho', hc'⟩, ?_⟩
  simpa [hc, hc'] using hlt

theorem Step.stop_of_worker {w : Nat} (h : Step s (.worker w) s') : s'.stop = s.stop := by
  cases h with
  | take | turn => rfl
  | run =>
      funext k
      exact coroResume_stop ..

/-- The steps that worker `w` has to make until it leaves. -/
def leavesIn (s : Sys) (w : Nat) : Nat := (s.worker w).elim 0 fun wk => leaveLeft wk.stage

/-- The steps of a call of `stop()`, and of the threads that it has to join. -/
def stopLeft (s : Sys) (st : Stop) : Nat :=
  (st.tmp.map fun w => 1 + s.leavesIn w).sum + st.q.length + if st.returned then 0 else 1

/-- One thread less to join. -/
theorem stopLeft_join {st : Stop} {w : Nat} {tmp : List Nat} (htmp : st.tmp = w :: tmp)
    (hsame : ∀ v, s'.leavesIn v = s.leavesIn v) :
    s'.stopLeft { st with tmp := tmp } < s.stopLeft st := by
  simp [stopLeft, htmp, hsame]

/-- The next thread to join is one step closer to its end. -/
theorem stopLeft_leave {st : Stop} {w : Nat} {tmp : List Nat} {wk wk' : Worker}
    (htmp : st.tmp = w :: tmp) (hw : s.worker w = some wk)
    (hworker : s'.worker = Function.update s.worker w (some wk'))
    (hlt : leaveLeft wk'.stage < leaveLeft wk.stage) : s'.stopLeft st < s.stopLeft st := by
  have hself : s'.leavesIn w < s.leavesIn w := by
    simpa [leavesIn, hworker, hw] using hlt
  have hle : ∀ v, s'.leavesIn v ≤ s.leavesIn v := by
    intro v
    by_cases hv : v = w
    · exact hv ▸ Nat.le_of_lt hself
    · simp [leavesIn, hworker, hv]
  have hrest : (tmp.map fun v => 1 + s'.leavesIn v).sum ≤
      (tmp.map fun v => 1 + s.leavesIn v).sum :=
    List.sum_le_sum fun v _ => Nat.add_le_add_left (hle v) 1
  simp only [stopLeft, htmp, List.map_cons, List.sum_cons]
  omega

/-- A call of `stop()` that has not returned goes on, or waits for a thread that does. -/
theorem exists_stopStep {k : Nat} {st : Stop} (hs : Placed s) (hexit : s.pool.exit = true)
    (hk : s.stop k = some st) (hret : st.returned = false) :
    ∃ a s' st', GoesOn a ∧ step s a = some s' ∧ s'.stop k = some st' ∧
      s'.stopLeft st' < s.stopLeft st := by
  have hstep : step s (.goOnStop k) = s.stopStep k st := by rw [step, hk, Option.bind_some]
  rw [stopStep, if_neg (by simp [hret])] at hstep
  cases htmp : st.tmp with
  | cons w tmp =>
      obtain ⟨wk, hw⟩ := hs.stopFacts.joins k st hk w (by simp [htmp])
      simp only [htmp] at hstep
      by_cases hme : st.me = some w
      · -- the calling thread is detached
        rw [if_pos hme, hw, Option.map_some] at hstep
        refine ⟨.goOnStop k, _, { st with tmp := tmp }, trivial, hstep,
          Function.update_self .., stopLeft_join htmp fun v => ?_⟩
        by_cases hv : v = w
        · subst hv
          simp [leavesIn, setStop, setWorker, hw]
        · simp [leavesIn, setStop, setWorker, hv]
      · by_cases hgone : (s.worker w).map Worker.stage = some .gone
        · rw [if_neg hme, if_pos hgone] at hstep
          exact ⟨.goOnStop k, _, { st with tmp := tmp }, trivial, hstep,
            Function.update_self .., stopLeft_join htmp fun _ => rfl⟩
        · have hstage : wk.stage ≠ .gone := fun hg => hgone (by rw [hw, Option.map_some, hg])
          obtain ⟨s', wk', hwstep, hworker, hlt⟩ := exists_leave hexit hw hstage
          have hstop := (step_cases hwstep).stop_of_worker
          exact ⟨.worker w, s', st, trivial, hwstep, by rw [hstop, hk],
            stopLeft_leave htmp hw hworker hlt⟩
  | nil =>
      cases hq : st.q with
      | cons i q =>
          simp only [htmp, hq] at hstep
          refine ⟨.goOnStop k, _, { st with tmp := [], q := q }, trivial, hstep, ?_, ?_⟩
          · rw [destroy_stop]
            exact Function.update_self ..
          · simp [stopLeft, htmp, hq]
      | nil =>
          simp only [htmp, hq] at hstep
          refine ⟨.goOnStop k, _, { st with tmp := [], q := [], returned := true }, trivial, hstep,
            Function.update_self .., ?_⟩
          simp [stopLeft, htmp, hq, hret]

/-- The call `k` of `stop()` returns. -/
theorem Closing.leads_stop {k : Nat} {st : Stop} (hs : Closing (.stop k) t s)
    (hk : s.stop k = some st) :
    Run.Leads Sys.step (GoesOn) s fun s' =>
      Closing (.stop k) t s' ∧ s'.Over (.stop k) = true := by
  refine (Run.leads_of_measure (fun s => Closing (.stop k) t s ∧ ∃ st, s.stop k = some st)
    (fun s => (s.stop k).elim 0 s.stopLeft) ?_ ⟨hs, st, hk⟩).mono
      (fun _ => id) fun _ h => ⟨h.1.1, h.2⟩
  rintro s ⟨hs, st, hk⟩ hnot
  have hret : st.returned = false := by simpa [Over, hk] using hnot
  obtain ⟨a, s', st', ha, hstep, hk', hlt⟩ := exists_stopStep hs.placed hs.exit hk hret
  refine ⟨a, s', ha, hstep, ⟨hs.step hstep ha, st', hk'⟩, ?_⟩
  simpa [hk, hk'] using hlt

/-- A thread that has come to its end holds nothing, and its coroutine queue is resumed. -/
theorem Closing.leads_flush {d : Agent} (hs : Closing d t s) (hover : s.Over d = true) :
    Run.Leads Sys.step (· = .flush d) s fun s' => (t, d) ∈ s'.resumed := by
  rcases hs.has.withAgent with hheld | hready | hresumed
  · cases d with
    | worker w =>
        cases hw : s.worker w <;> simp_all [agentSpot, handlesAt, Over, heldByWorker]
    | handOver c =>
        cases hc : s.handOver c <;> simp_all [agentSpot, handlesAt, Over, heldByHandOver]
    | stop k =>
        cases hk : s.stop k with
        | none => simp [agentSpot, handlesAt, hk] at hheld
        | some st =>
            have hret : st.returned = true := by simpa [Over, hk] using hover
            have hq := (hs.placed.stopFacts.emptied k st hk hret).2
            simp [agentSpot, handlesAt, hk, heldByStop, hq] at hheld
  · exact Sys.leads_flush hover hready
  · exact .here hresumed

/-- An agent with empty hands and an empty coroutine queue has resumed the coroutine. -/
theorem Closing.resumed_of_empty {d : Agent} (hs : Closing d t s)
    (hheld : s.handlesAt (agentSpot d) = []) (hready : s.ready d = []) :
    (t, d) ∈ s.resumed := by
  rcases hs.has.withAgent with ht | ht | hresumed
  · simp [hheld] at ht
  · simp [hready] at ht
  · exact hresumed

/-- Worker `w` leaves a stopped pool, and its thread resumes what it has. -/
theorem Closing.leads_resumed {w : Nat} (hs : Closing (.worker w) t s) :
    Run.Leads Sys.step (fun a => a = .worker w ∨ a = .flush (.worker w)) s fun s' =>
      (t, Agent.worker w) ∈ s'.resumed := by
  cases hw : s.worker w with
  | none =>
      refine .here (hs.resumed_of_empty (by simp [agentSpot, handlesAt, hw])
        (not_not.mp fun hne => ?_))
      obtain ⟨wk, hwk, -⟩ := hs.placed.readyFacts.worker w hne
      cases hw.symm.trans hwk
  | some wk =>
      refine Run.Leads.trans ((hs.leads_worker hw).mono (fun _ => .inl) fun _ => id) ?_
      exact fun s' hs' => (hs'.1.leads_flush hs'.2).mono (fun _ => .inr) fun _ => id

/-- **Around a stopped pool** every agent resumes what it has. -/
theorem Closing.leads {d : Agent} (hs : Closing d t s) :
    Run.Leads Sys.step GoesOn s fun s' => (t, d) ∈ s'.resumed := by
  have hflush : ∀ s', Closing d t s' ∧ s'.Over d = true →
      Run.Leads Sys.step GoesOn s' fun s' => (t, d) ∈ s'.resumed := fun s' hs' =>
    (hs'.1.leads_flush hs'.2).mono (fun a ha => ha ▸ trivial) fun _ => id
  have hready := hs.placed.readyFacts
  cases d with
  | worker w =>
      refine hs.leads_resumed.mono (fun a ha => ?_) fun _ => id
      rcases ha with rfl | rfl <;> trivial
  | handOver c =>
      cases hc : s.handOver c with
      | none =>
          refine .here (hs.resumed_of_empty (by simp [agentSpot, handlesAt, hc])
            (not_not.mp fun hne => ?_))
          obtain ⟨ho, hho⟩ := hready.handOver c hne
          cases hc.symm.trans hho
      | some ho =>
          exact ((hs.leads_handOver hc).mono (fun a ha => ha ▸ trivial) fun _ => id).trans hflush
  | stop k =>
      cases hk : s.stop k with
      | none =>
          refine .here (hs.resumed_of_empty (by simp [agentSpot, handlesAt, hk])
            (not_not.mp fun hne => ?_))
          obtain ⟨st, hst⟩ := hready.stop k hne
          cases hk.symm.trans hst
      | some st => exact (hs.leads_stop hk).trans hflush

/-! ## What the workers get to -/

/-- How the coroutine `t` comes to a worker other than `b`: one takes it out of the queue, or
has it in its hands, or has resumed it.  What a worker with a coroutine queue around it has
taken stays in that queue until the worker leaves the stopped pool. -/
inductive Comes (b : Option Nat) (s : Sys) (t : Nat) : Prop
  | waiting {w : Nat} {wk : Worker} (hexit : s.pool.exit = false) (ht : Waiting s t)
      (hb : b ≠ some w) (hw : s.worker w = some wk) (hactive : wk.active = false) : Comes b s t
  | taken {w : Nat} {wk : Worker} (hb : b ≠ some w) (hw : s.worker w = some wk)
      (ht : t ∈ s.handlesAt (.worker w) ∨ t ∈ s.handlesAt (.ready (.worker w)))
      (hactive : wk.active = true → s.pool.exit = true) : Comes b s t
  | resumed {w : Nat} (hb : b ≠ some w) (ht : (t, Agent.worker w) ∈ s.resumed) : Comes b s t

/-- The steps of the threads on their way bring no new coroutine. -/
theorem Waiting.of_step (ht : Waiting s' t) (ha : GoesOn a) (h : Step s a s') : Waiting s t := by
  cases h with
  | enter | handOver | stop => exact ha.elim
  | @enqueue c ho i todo hc hr htodo hexit =>
      have hall : t ∈ s.handlesAt .queue ∨ t = i.handle ∨ Waiting s t := by
        rcases ht with ht | ⟨d, ht⟩
        · simp [handlesAt] at ht ⊢
          exact ht.imp_right .inl
        · refine .inr (.inr (.inr ⟨d, ?_⟩))
          grind -linarith [handlesAt, heldByHandOver]
      rcases hall with hq | rfl | hwait
      · exact .inl hq
      · exact .inr ⟨c, by simp [handlesAt, hc, heldByHandOver, htodo]⟩
      · exact hwait
  | take | turn | run | refuse | drop | detach | join | destroy | done | flush =>
      unfold Waiting at ht ⊢
      grind -linarith [handlesAt, heldByHandOver]

theorem Works.goesOn (ha : Works b a) : GoesOn a := by
  cases a <;> trivial

theorem Comes.of_step (ht : Comes b s' t) (hs : Placed s) (ha : Works b a) (h : Step s a s') :
    Comes b s t := by
  have hworkers := hs.exitFacts.workers
  have hready := hs.readyFacts.worker
  cases ht with
  | @waiting w wk hexit ht hb hw hactive =>
      have hw₀ : ∃ wk, s.worker w = some wk ∧ wk.active = false := by
        cases h <;> grind -linarith [Works]
      obtain ⟨wk₀, hw₀, hactive₀⟩ := hw₀
      refine .waiting ?_ (ht.of_step ha.goesOn h) hb hw₀ hactive₀
      cases h <;> grind -linarith [Works]
  | @taken w wk hb hw ht hactive =>
      -- the worker had it before, or takes it out of the queue
      have hexit : s'.pool.exit = s.pool.exit := by
        rcases h.exit_cases with hsame | ⟨-, k, me, active, rfl⟩
        · exact hsame
        · exact ha.elim
      have hw₀ : ∃ wk₀, s.worker w = some wk₀ ∧ wk₀.active = wk.active := by
        cases h <;> grind -linarith [Works]
      obtain ⟨wk₀, hw₀, hsame⟩ := hw₀
      rw [← hsame, hexit] at hactive
      by_cases hq : t ∈ s.handlesAt .queue ∧ s.pool.exit = false
      · refine .waiting hq.2 (.inl hq.1) hb hw₀ ?_
        by_contra hne
        simp [hactive (by simpa using hne)] at hq
      · refine .taken hb hw₀ ?_ hactive
        cases h <;> grind -linarith [Works, handlesAt, heldByWorker]
  | @resumed w hb ht =>
      -- the worker resumed it before, or had it in its hands
      by_cases hres : (t, Agent.worker w) ∈ s.resumed
      · exact .resumed hb hres
      · have hfrom : ∃ wk, s.worker w = some wk ∧
            (t ∈ s.handlesAt (.worker w) ∨ t ∈ s.handlesAt (.ready (.worker w))) ∧
            (wk.active = true → s.pool.exit = true) := by
          cases h with
          | @run v vk i hv htook => grind -linarith [handlesAt, heldByWorker]
          | @flush d i ready hover hr => grind -linarith [handlesAt, Over]
          | enter | handOver | stop => exact ha.elim
          | take | turn | enqueue | refuse | detach | join | done | drop | destroy =>
              grind -linarith
        obtain ⟨wk, hw, htaken, hactive⟩ := hfrom
        exact .taken hb hw htaken hactive

/-- A hand-over to an open pool has yet to enqueue what it holds. -/
theorem Placed.enqueues (hs : Placed s) (hexit : s.pool.exit = false) {c : Nat}
    (ht : t ∈ s.handlesAt (.handOver c)) : Enqueues s c t := by
  cases hc : s.handOver c with
  | none => simp [handlesAt, hc] at ht
  | some ho =>
      have hr : ho.refused = none := by
        by_contra hne
        simp [hs.exitFacts.refused c ho hc hne] at hexit
      refine .inr ⟨ho, hc, hr, ?_⟩
      simpa [handlesAt, hc, heldByHandOver, hr] using ht

theorem Comes.leads (ht : Comes b s t) (hs : Placed s) :
    Run.Leads Sys.step (Works b) s fun s' =>
      ∃ w, b ≠ some w ∧ (t, Agent.worker w) ∈ s'.resumed := by
  -- a worker that serves gets to what is in the queue, or in its hands
  have hserves : ∀ {s w wk}, b ≠ some w → Serves s w wk → Reaches s w t →
      Run.Leads Sys.step (Works b) s fun s' => ∃ w, b ≠ some w ∧ (t, Agent.worker w) ∈ s'.resumed :=
    fun hb hserves hreach =>
      (hserves.leads hreach).mono (fun a ha => ha ▸ hb) fun _ hres => ⟨_, hb, hres⟩
  cases ht with
  | @waiting w wk hexit ht hb hw hactive =>
      rcases ht with ht | ⟨c, ht⟩
      · exact hserves hb (hs.serves hexit hw hactive) (.inr (.inl ht))
      · have hserve := hs.serves hexit hw hactive
        refine Run.Leads.trans ((leads_queue hexit (hs.enqueues hexit ht)).mono
          (fun a ha => ha ▸ trivial) fun _ => id) ?_
        rintro s' ⟨⟨hexit', hworker⟩, hq⟩
        refine hserves hb ⟨?_, hactive, hserve.current, hserve.stage, hexit'⟩ (.inr (.inl hq))
        rw [hworker, hw]
  | @taken w wk hb hw ht hactive =>
      by_cases hexit : s.pool.exit = true
      · have hclosing : Closing (.worker w) t s :=
          ⟨hs, hexit, ht.imp_right .inl, by simp [itemsOf]⟩
        refine hclosing.leads_resumed.mono (fun a ha => ?_) fun _ hres => ⟨w, hb, hres⟩
        rcases ha with rfl | rfl <;> exact hb
      · have hnot : ¬ wk.active = true := fun h => hexit (hactive h)
        have hheld : t ∈ s.handlesAt (.worker w) := by
          refine ht.resolve_right fun hready => hnot ?_
          obtain ⟨vk, hv, hvk⟩ := hs.readyFacts.worker w (List.ne_nil_of_mem hready)
          rwa [Option.some.inj (hw.symm.trans hv)]
        exact hserves hb (hs.serves (by simpa using hexit) hw (by simpa using hnot))
          (.inr (.inr hheld))
  | resumed hb ht => exact .here ⟨_, hb, ht⟩

/-- **What the workers get to**: those other than `b` come to resume the coroutine `t` if and
only if it comes to one of them. -/
theorem Placed.leads_iff (hs : Placed s) :
    Run.Leads Sys.step (Works b) s (fun s' => ∃ w, b ≠ some w ∧ (t, Agent.worker w) ∈ s'.resumed) ↔
      Comes b s t := by
  refine ⟨fun h => ?_, fun ht => ht.leads hs⟩
  have hcomes : Run.Leads Sys.step (Works b) s fun s' => Comes b s' t :=
    h.mono (fun _ => id) fun s' ⟨w, hb, hres⟩ => .resumed hb hres
  refine Run.Leads.of_steps (P := fun s => Comes b s t) Placed hcomes
    (fun s a s' hs ha hstep => ?_) hs
  exact ⟨hs.step (step_cases hstep), fun ht => ht.of_step hs ha (step_cases hstep)⟩

/-- Worker `b` is not in the way of the coroutine `t`: while it waits, there is another worker,
with no coroutine queue around it; what a worker has taken is not with `b`, nor does it lie in a
coroutine queue until the pool is stopped. -/
structure Attended (b : Option Nat) (s : Sys) (t : Nat) : Prop where
  waiting : Waiting s t → ∃ w wk, b ≠ some w ∧ s.worker w = some wk ∧ wk.active = false
  taken : ∀ w, t ∈ s.handlesAt (.worker w) ∨ t ∈ s.handlesAt (.ready (.worker w)) →
    b ≠ some w ∧ ∀ wk, s.worker w = some wk → wk.active = true → s.pool.exit = true
  resumed : ∀ w, (t, Agent.worker w) ∈ s.resumed → b ≠ some w

/-- A coroutine comes to a worker other than `b` if and only if it is kept, and `b` is not in
the way. -/
theorem Placed.comes_iff (hs : Placed s) : Comes b s t ↔ Kept s t ∧ Attended b s t := by
  have hone : ∀ {p q}, t ∈ s.handlesAt p → t ∈ s.handlesAt q → p = q :=
    fun hp hq => hs.arranged.exclusive.unique _ _ t hp hq
  have hresumed : ∀ {w}, (t, Agent.worker w) ∈ s.resumed → t ∈ s.handlesAt .resumed :=
    List.mem_map_of_mem
  constructor
  · intro ht
    cases ht with
    | @waiting w wk hexit ht hb hw hactive =>
        have hnot := ht.not_taken hs.arranged
        exact ⟨.inr ⟨hexit, ht⟩, fun _ => ⟨w, wk, hb, hw, hactive⟩,
          fun v hv => absurd ⟨v, hv.imp_right .inl⟩ hnot,
          fun v hv => absurd ⟨v, .inr (.inr hv)⟩ hnot⟩
    | @taken w wk hb hw ht hactive =>
        have htaken : Taken s t := ⟨w, ht.imp_right .inl⟩
        refine ⟨.inl htaken, fun hwait => absurd htaken (hwait.not_taken hs.arranged),
          fun v hv => ?_, fun v hv => ?_⟩
        · have hvw : v = w := by
            rcases ht with ht | ht <;> rcases hv with hv | hv <;> cases hone ht hv <;> rfl
          subst hvw
          exact ⟨hb, fun vk hvk => by rwa [Option.some.inj (hvk.symm.trans hw)]⟩
        · rcases ht with ht | ht <;> cases hone ht (hresumed hv)
    | @resumed w hb ht =>
        have htaken : Taken s t := ⟨w, .inr (.inr ht)⟩
        refine ⟨.inl htaken, fun hwait => absurd htaken (hwait.not_taken hs.arranged),
          fun v hv => ?_, fun v hv => ?_⟩
        · rcases hv with hv | hv <;> cases hone hv (hresumed ht)
        · have heq := List.inj_on_of_nodup_map (hs.arranged.exclusive.nodup .resumed) ht hv rfl
          cases heq
          exact hb
  · rintro ⟨⟨w, ht | ht | ht⟩ | ⟨hexit, ht⟩, hatt⟩
    · obtain ⟨hb, hactive⟩ := hatt.taken w (.inl ht)
      cases hw : s.worker w with
      | none => simp [handlesAt, hw] at ht
      | some wk => exact .taken hb hw (.inl ht) (hactive wk hw)
    · obtain ⟨hb, hactive⟩ := hatt.taken w (.inr ht)
      obtain ⟨wk, hw, -⟩ := hs.readyFacts.worker w (List.ne_nil_of_mem ht)
      exact .taken hb hw (.inr ht) (hactive wk hw)
    · exact .resumed (hatt.resumed w ht) ht
    · obtain ⟨w, wk, hb, hw, hactive⟩ := hatt.waiting ht
      exact .waiting hexit ht hb hw hactive

end Sys

end ThreadPool

end Cocls
