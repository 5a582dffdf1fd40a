import Mathlib.Algebra.Order.BigOperators.Group.Finset
import Mathlib.Data.List.Perm.Basic
import Cocls.CoroQueue
import Cocls.ReadyList

/-!
# Cocls.CoroQueue.Cooperative

Cooperative multitasking: detached coroutines that share one thread.

A function that is called with the queue installed detaches coroutines.  Each of
them detaches others, lets the others run by `co_await pause()`, and ends.  Control
moves in two ways, through the flush loop of the trailer and by symmetric transfer
inside `pause`; the order that results is that of a single FIFO ready list
(`fairFifo_exec`).
-/

namespace Cocls

namespace CoroQueue

namespace Cooperative

/-! ## Programs -/

/-- A step of the program of a coroutine. -/
inductive Op where
  /-- coroutine `j` is detached, the suspend point is discarded -/
  | ready (j : Nat)
  /-- `co_await pause()` -/
  | pause
deriving DecidableEq, Repr

/-- The coroutines: what is left of their programs, and which of them were not detached yet. -/
structure Tasks where
  prog : Nat → List Op
  fresh : List Nat

namespace Tasks

variable (s : Tasks)

/-- The suspend point of `detach`.  A coroutine is detached once. -/
def point (j : Nat) : List Nat := if j ∈ s.fresh then Thread.detach j else []

def detach (j : Nat) : Tasks := { s with fresh := s.fresh.erase j }

def setProg (h : Nat) (os : List Op) : Tasks := { s with prog := Function.update s.prog h os }

end Tasks

/-- `co_await pause()` of coroutine `who`: the turns so far, and what was ready. -/
structure Pause where
  before : List Nat
  who : Nat
  ready : List Nat

end Cooperative

/-- The coroutine on top of the stack. -/
def Thread.onTop {H : Type*} (t : Thread H) : List H :=
  match t.stack with
  | .coroutine h :: _ => [h]
  | _ => []

/-- One thread and its coroutines.  `main` is what the function still detaches. -/
structure Cooperative where
  thread : Thread Nat
  main : List Nat
  tasks : Cooperative.Tasks
  turns : List Nat := []
  pauses : List Cooperative.Pause := []
  finished : List Nat := []

namespace Cooperative

/-- The call of `install_queue_and_call`. -/
def start (progs : List (List Op)) (main : List Nat) : Cooperative :=
  { thread := (({} : Thread Nat).installQueueAndCall []).call
    main := main
    tasks := { prog := fun j => progs.getD j [], fresh := List.range progs.length } }

/-- What runs on the thread goes on. -/
def step (m : Cooperative) : Option Cooperative :=
  match m.thread.stack with
  | .function :: fs =>
      match m.main with
      | j :: js =>
          some { m with
            thread := m.thread.suspendNow (m.tasks.point j), main := js, tasks := m.tasks.detach j }
      | [] => some { m with thread := { m.thread with stack := fs } }
  | .coroutine h :: fs =>
      match m.tasks.prog h with
      | .ready j :: os =>
          some { m with
            thread := m.thread.suspendNow (m.tasks.point j)
            tasks := (m.tasks.detach j).setProg h os }
      | .pause :: os =>
          (m.thread.pause h fs).map fun t =>
            { m with
              thread := t
              tasks := m.tasks.setProg h os
              turns := m.turns ++ t.onTop
              pauses := m.pauses ++ [{ before := m.turns, who := h, ready := m.thread.queue }] }
      -- `final_suspend`: nobody awaits a detached coroutine
      | [] => some { m with thread := m.thread.popAndDestroy fs [], finished := m.finished ++ [h] }
  | _ => m.thread.go.map fun t => { m with thread := t, turns := m.turns ++ t.onTop }

/-- The state after `k` steps. -/
def after (progs : List (List Op)) (main : List Nat) (k : Nat) : Cooperative :=
  Run.exec (fun m (_ : Unit) => m.step) (start progs main) (List.replicate k ())

/-! ## The ready list -/

/-- What the program `os` of coroutine `h` does up to its next pause or its end. -/
def Tasks.burst (h : Nat) : Tasks → List Op → ReadyList.Burst Tasks Nat
  | s, [] => { state := s.setProg h [] }
  | s, .pause :: os => { state := s.setProg h os, again := true }
  | s, .ready j :: os =>
      let b := Tasks.burst h (s.detach j) os
      { b with made := s.point j ++ b.made }

/-- A turn of coroutine `h`. -/
def Tasks.turn (s : Tasks) (h : Nat) : ReadyList.Burst Tasks Nat := s.burst h (s.prog h)

/-- The coroutines that the function detaches. -/
def Tasks.detachAll : Tasks → List Nat → ReadyList.Burst Tasks Nat
  | s, [] => { state := s }
  | s, j :: js =>
      let b := Tasks.detachAll (s.detach j) js
      { b with made := s.point j ++ b.made }

/-- The ready list as it will be when the function or the coroutine that runs gives up
control. -/
def view (m : Cooperative) : ReadyList.St Tasks Nat :=
  match m.thread.stack with
  | .function :: _ =>
      let b := m.tasks.detachAll m.main
      { state := b.state, ready := m.thread.queue ++ b.made, log := m.turns }
  | .coroutine h :: _ =>
      let b := m.tasks.turn h
      { state := b.state, ready := m.thread.queue ++ b.pushed h, log := m.turns }
  | _ => { state := m.tasks, ready := m.thread.queue, log := m.turns }

section Tasks

variable (s : Tasks) (h : Nat) (os : List Op)

@[simp] theorem Tasks.setProg_prog_self : (s.setProg h os).prog h = os := by
  rw [Tasks.setProg]
  exact Function.update_self ..

@[simp] theorem Tasks.setProg_prog_of_ne {i : Nat} (hi : i ≠ h) :
    (s.setProg h os).prog i = s.prog i := by
  rw [Tasks.setProg]
  exact Function.update_of_ne hi ..

@[simp] theorem Tasks.detach_prog (j : Nat) : (s.detach j).prog = s.prog := rfl

@[simp] theorem Tasks.setProg_setProg (ps : List Op) :
    (s.setProg h os).setProg h ps = s.setProg h ps := by
  simp [Tasks.setProg]

theorem Tasks.setProg_eq_self {s : Tasks} {h : Nat} {os : List Op} (hp : s.prog h = os) :
    s.setProg h os = s := by
  rw [← hp, Tasks.setProg, Function.update_eq_self]

/-- The detached coroutine was not detached before. -/
theorem Tasks.point_append_detach (j : Nat) : (s.point j ++ (s.detach j).fresh).Perm s.fresh := by
  unfold Tasks.point
  split
  · next hj => exact (List.perm_cons_erase hj).symm
  · next hj => rw [Tasks.detach, List.erase_of_not_mem hj]; exact List.Perm.refl _

/-- The rest of a burst does not look at the program that is stored. -/
theorem Tasks.burst_setProg (ps : List Op) : (s.setProg h os).burst h ps = s.burst h ps := by
  induction ps generalizing s with
  | nil => simp [Tasks.burst]
  | cons o ps ih =>
      cases o with
      | pause => simp [Tasks.burst]
      | ready j =>
          rw [Tasks.burst, Tasks.burst, ← ih (s.detach j)]
          rfl

theorem Tasks.turn_setProg : (s.setProg h os).turn h = s.burst h os := by
  rw [Tasks.turn, Tasks.burst_setProg, Tasks.setProg_prog_self]

end Tasks

/-! ## Steps -/

/-- Where control can be: in the function, in a coroutine, in the flush loop, or back in the
caller. -/
inductive Shape : Cooperative → Prop where
  | function {q js s ts ps fs} :
      Shape ⟨⟨true, q, [.function, .installQueueAndCall false []]⟩, js, s, ts, ps, fs⟩
  | coroutine {q h s ts ps fs} :
      Shape ⟨⟨true, q, [.coroutine h, .installQueueAndCall false []]⟩, [], s, ts, ps, fs⟩
  | flush {q s ts ps fs} : Shape ⟨⟨true, q, [.installQueueAndCall false []]⟩, [], s, ts, ps, fs⟩
  | returned {s ts ps fs} : Shape ⟨⟨false, [], []⟩, [], s, ts, ps, fs⟩

/-- What a step can do. -/
inductive Move : Cooperative → Cooperative → Prop where
  | detach {q j js s ts ps fs} :
      Move ⟨⟨true, q, [.function, .installQueueAndCall false []]⟩, j :: js, s, ts, ps, fs⟩
        ⟨⟨true, q ++ s.point j, [.function, .installQueueAndCall false []]⟩, js, s.detach j,
          ts, ps, fs⟩
  | ret {q s ts ps fs} :
      Move ⟨⟨true, q, [.function, .installQueueAndCall false []]⟩, [], s, ts, ps, fs⟩
        ⟨⟨true, q, [.installQueueAndCall false []]⟩, [], s, ts, ps, fs⟩
  | ready {q h j os s ts ps fs} (hp : s.prog h = .ready j :: os) :
      Move ⟨⟨true, q, [.coroutine h, .installQueueAndCall false []]⟩, [], s, ts, ps, fs⟩
        ⟨⟨true, q ++ s.point j, [.coroutine h, .installQueueAndCall false []]⟩, [],
          (s.detach j).setProg h os, ts, ps, fs⟩
  | pause {q h next q' os s ts ps fs} (hp : s.prog h = .pause :: os)
      (hq : q ++ [h] = next :: q') :
      Move ⟨⟨true, q, [.coroutine h, .installQueueAndCall false []]⟩, [], s, ts, ps, fs⟩
        ⟨⟨true, q', [.coroutine next, .installQueueAndCall false []]⟩, [], s.setProg h os,
          ts ++ [next], ps ++ [⟨ts, h, q⟩], fs⟩
  | finish {q h s ts ps fs} (hp : s.prog h = []) :
      Move ⟨⟨true, q, [.coroutine h, .installQueueAndCall false []]⟩, [], s, ts, ps, fs⟩
        ⟨⟨true, q, [.installQueueAndCall false []]⟩, [], s, ts, ps, fs ++ [h]⟩
  | flush {q h s ts ps fs} :
      Move ⟨⟨true, h :: q, [.installQueueAndCall false []]⟩, [], s, ts, ps, fs⟩
        ⟨⟨true, q, [.coroutine h, .installQueueAndCall false []]⟩, [], s, ts ++ [h], ps, fs⟩
  | leave {s ts ps fs} :
      Move ⟨⟨true, [], [.installQueueAndCall false []]⟩, [], s, ts, ps, fs⟩
        ⟨⟨false, [], []⟩, [], s, ts, ps, fs⟩

section Move

variable {m m' : Cooperative}

/-- A step is possible until the call returns. -/
theorem Shape.move (hm : Shape m) (hne : m.thread.stack ≠ []) :
    ∃ m', m.step = some m' ∧ Move m m' := by
  cases hm with
  | @function q js s ts ps fs =>
      cases js with
      | nil => exact ⟨_, rfl, .ret⟩
      | cons j js =>
          refine ⟨_, ?_, .detach⟩
          simp only [step]
          rw [Thread.suspendNow_of_active rfl]
  | @coroutine q h s ts ps fs =>
      cases hp : s.prog h with
      | nil => exact ⟨_, by simp only [step, hp]; rfl, .finish hp⟩
      | cons o os =>
          cases o with
          | ready j =>
              refine ⟨_, ?_, .ready hp⟩
              simp only [step, hp]
              rw [Thread.suspendNow_of_active rfl]
          | pause =>
              obtain ⟨next, q', hq⟩ : ∃ next q', q ++ [h] = next :: q' :=
                List.exists_cons_of_ne_nil (by simp)
              refine ⟨_, ?_, .pause hp hq⟩
              simp only [step, hp, Thread.pause, Thread.isActive, if_true, hq]
              rfl
  | @flush q s ts ps fs =>
      cases q with
      | nil => exact ⟨_, by simp [step, Thread.go, Thread.onTop], .leave⟩
      | cons h q => exact ⟨_, rfl, .flush⟩
  | returned => exact absurd rfl hne

/-- A step is one of the moves. -/
theorem Shape.move_of_step (hm : Shape m) (h : m.step = some m') : Move m m' := by
  by_cases hne : m.thread.stack = []
  · cases hm with
    | returned => cases h
    | function => cases hne
    | coroutine => cases hne
    | flush => cases hne
  · obtain ⟨m₂, h₂, hmove⟩ := hm.move hne
    rw [h] at h₂
    cases h₂
    exact hmove

theorem Move.shape (hmove : Move m m') : Shape m' := by
  cases hmove with
  | detach => exact .function
  | ret => exact .flush
  | ready hp => exact .coroutine
  | pause hp hq => exact .coroutine
  | finish hp => exact .flush
  | flush => exact .coroutine
  | leave => exact .returned

/-- **One ready list**: a step gets on with the turn in progress, or begins the next one. -/
theorem Move.view (hmove : Move m m') :
    m'.view = m.view ∨ ReadyList.turn Tasks.turn m.view = some m'.view := by
  cases hmove with
  | detach => exact .inl (by simp [Cooperative.view, Tasks.detachAll])
  | ret => exact .inl (by simp [Cooperative.view, Tasks.detachAll])
  | @ready q h j os s ts ps fs hp =>
      refine .inl ?_
      have hturn : s.turn h = s.burst h (.ready j :: os) := by rw [Tasks.turn, hp]
      simp [Cooperative.view, Tasks.turn_setProg, hturn, Tasks.burst, ReadyList.Burst.pushed]
  | @pause q h next q' os s ts ps fs hp hq =>
      refine .inr ?_
      have hturn : s.turn h = { state := s.setProg h os, again := true } := by
        rw [Tasks.turn, hp, Tasks.burst]
      simp [Cooperative.view, ReadyList.turn, hturn, ReadyList.Burst.pushed, hq]
  | @finish q h s ts ps fs hp =>
      refine .inl ?_
      have hturn : s.turn h = { state := s } := by
        rw [Tasks.turn, hp, Tasks.burst, Tasks.setProg_eq_self hp]
      simp [Cooperative.view, hturn, ReadyList.Burst.pushed]
  | flush => exact .inr (by simp [Cooperative.view, ReadyList.turn])
  | leave => exact .inl rfl

/-- Programs only get shorter. -/
theorem Move.prog_suffix (hmove : Move m m') (i : Nat) : m'.tasks.prog i <:+ m.tasks.prog i := by
  have htail : ∀ (s : Tasks) (h : Nat) (o : Op) (os : List Op), s.prog h = o :: os →
      (s.setProg h os).prog i <:+ s.prog i := by
    intro s h o os hp
    by_cases hi : i = h
    · rw [hi, Tasks.setProg_prog_self, hp]
      exact List.suffix_cons o os
    · rw [Tasks.setProg_prog_of_ne s h os hi]
  cases hmove with
  | @ready q h j os s ts ps fs hp => exact htail s h _ os hp
  | @pause q h next q' os s ts ps fs hp hq => exact htail s h _ os hp
  | detach => exact List.suffix_rfl
  | ret => exact List.suffix_rfl
  | finish hp => exact List.suffix_rfl
  | flush => exact List.suffix_rfl
  | leave => exact List.suffix_rfl

/-- The places of the coroutines: on the stack, in the queue, not detached yet, at the end. -/
def places (m : Cooperative) : List Nat :=
  m.thread.onTop ++ m.thread.queue ++ m.tasks.fresh ++ m.finished

/-- A coroutine that is not detached by the step has the same ones left that detach it, and it
does not run. -/
theorem Move.left (hmove : Move m m') (hnd : m.places.Nodup) {j : Nat}
    (hj : j ∈ m'.tasks.fresh) :
    j ∈ m.tasks.fresh ∧ (j ∈ m.main → j ∈ m'.main) ∧
      (∀ i, .ready j ∈ m.tasks.prog i → .ready j ∈ m'.tasks.prog i) ∧
        m'.tasks.prog j = m.tasks.prog j := by
  have hfresh : m.tasks.fresh.Nodup := by
    rw [places, List.nodup_append, List.nodup_append] at hnd
    exact hnd.1.2.1
  have hrun : j ∈ m.tasks.fresh → j ∉ m.thread.onTop := by
    intro hmem htop
    rw [places, List.nodup_append, List.nodup_append] at hnd
    exact hnd.1.2.2 j (List.mem_append_left _ htop) j hmem rfl
  have hother : ∀ (s : Tasks) (h : Nat) (o : Op) (os : List Op), s.prog h = o :: os →
      o ≠ .ready j → ∀ i, .ready j ∈ s.prog i → .ready j ∈ (s.setProg h os).prog i := by
    intro s h o os hp ho i hi
    by_cases hih : i = h
    · rw [hih, hp] at hi
      rw [hih, Tasks.setProg_prog_self]
      exact (List.mem_cons.1 hi).resolve_left (Ne.symm ho)
    · rwa [Tasks.setProg_prog_of_ne s h os hih]
  cases hmove with
  | @detach q i js s ts ps fs =>
      obtain ⟨hne, hmem⟩ := (List.Nodup.mem_erase_iff hfresh).1 hj
      exact ⟨hmem, fun h => (List.mem_cons.1 h).resolve_left hne, fun _ h => h, rfl⟩
  | @ready q h i os s ts ps fs hp =>
      obtain ⟨hne, hmem⟩ := (List.Nodup.mem_erase_iff hfresh).1 hj
      have hjh : j ≠ h := fun h => hrun hmem (by simp [Thread.onTop, h])
      refine ⟨hmem, fun h => h, hother (s.detach i) h _ os hp ?_,
        Tasks.setProg_prog_of_ne _ h os hjh⟩
      exact fun h => hne (Op.ready.inj h).symm
  | @pause q h next q' os s ts ps fs hp hq =>
      have hjh : j ≠ h := fun h => hrun hj (by simp [Thread.onTop, h])
      exact ⟨hj, fun h => h, hother s h _ os hp (by simp), Tasks.setProg_prog_of_ne _ h os hjh⟩
  | ret => exact ⟨hj, fun h => h, fun _ h => h, rfl⟩
  | finish hp => exact ⟨hj, fun h => h, fun _ h => h, rfl⟩
  | flush => exact ⟨hj, fun h => h, fun _ h => h, rfl⟩
  | leave => exact ⟨hj, fun h => h, fun _ h => h, rfl⟩

/-- No coroutine is lost and none is at two places. -/
theorem Move.places (hmove : Move m m') : m'.places.Perm m.places := by
  have hdetach : ∀ (s : Tasks) (j : Nat) (q fs : List Nat),
      (q ++ s.point j ++ (s.detach j).fresh ++ fs).Perm (q ++ s.fresh ++ fs) := by
    intro s j q fs
    rw [List.append_assoc q]
    exact ((s.point_append_detach j).append_left q).append_right fs
  cases hmove with
  | @detach q j js s ts ps fs => exact hdetach s j q fs
  | @ready q h j os s ts ps fs hp => exact (hdetach s j q fs).cons h
  | @pause q h next q' os s ts ps fs hp hq =>
      have hpush : (next :: q').Perm (h :: q) := hq ▸ List.perm_append_singleton h q
      exact (hpush.append_right s.fresh).append_right fs
  | @finish q h s ts ps fs hp =>
      have hlast : (q ++ s.fresh ++ (fs ++ [h])).Perm (h :: (q ++ s.fresh ++ fs)) := by
        rw [← List.append_assoc]
        exact List.perm_append_singleton h _
      exact hlast
  | ret => exact List.Perm.refl _
  | flush => exact List.Perm.refl _
  | leave => exact List.Perm.refl _

/-- A coroutine has a turn for each pause it is through, and the one it is in. -/
theorem Move.count (hmove : Move m m') (j : Nat) :
    m'.turns.count j + (m'.tasks.prog j).count .pause + (m.thread.onTop ++ m.finished).count j =
      m.turns.count j + (m.tasks.prog j).count .pause +
        (m'.thread.onTop ++ m'.finished).count j := by
  cases hmove with
  | @ready q h i os s ts ps fs hp =>
      by_cases hj : j = h
      · simp [hj, hp, Thread.onTop]
      · simp [Tasks.setProg_prog_of_ne _ h os hj, Thread.onTop]
  | @pause q h next q' os s ts ps fs hp hq =>
      by_cases hj : j = h
      · simp [hj, hp, Thread.onTop, List.count_cons]
        omega
      · have hhj : h ≠ j := Ne.symm hj
        simp [Tasks.setProg_prog_of_ne _ h os hj, Thread.onTop, List.count_cons, hhj]
        omega
  | finish hp => simp [Thread.onTop, List.count_cons]
  | flush => simp [Thread.onTop, List.count_cons]; omega
  | detach => rfl
  | ret => rfl
  | leave => rfl

/-- What is still to do. -/
def measure (n : Nat) (m : Cooperative) : Nat :=
  3 * (m.main.length + ∑ i ∈ Finset.range n, (m.tasks.prog i).length) +
    2 * m.thread.queue.length + m.thread.stack.length

theorem Tasks.sum_setProg_lt {n h : Nat} (s : Tasks) {o : Op} {os : List Op} (hh : h < n)
    (hp : s.prog h = o :: os) :
    ∑ i ∈ Finset.range n, ((s.setProg h os).prog i).length <
      ∑ i ∈ Finset.range n, (s.prog i).length := by
  refine Finset.sum_lt_sum (fun i _ => ?_) ⟨h, Finset.mem_range.2 hh, by simp [hp]⟩
  by_cases hi : i = h
  · simp [hi, hp]
  · rw [Tasks.setProg_prog_of_ne s h os hi]

theorem Tasks.length_point_le (s : Tasks) (j : Nat) : (s.point j).length ≤ 1 := by
  unfold Tasks.point
  split <;> simp [Thread.detach]

/-- A step leaves less to do. -/
theorem Move.measure_lt (hmove : Move m m') {n : Nat} (hn : ∀ h ∈ m.thread.onTop, h < n) :
    m'.measure n < m.measure n := by
  cases hmove with
  | @detach q j js s ts ps fs =>
      have hpoint := s.length_point_le j
      simp only [measure, Tasks.detach_prog, List.length_append, List.length_cons]
      omega
  | @ready q h j os s ts ps fs hp =>
      have hpoint := s.length_point_le j
      have hsum := (s.detach j).sum_setProg_lt (hn h (by simp [Thread.onTop])) hp
      simp only [measure, Tasks.detach_prog, List.length_append] at hsum ⊢
      omega
  | @pause q h next q' os s ts ps fs hp hq =>
      have hsum := s.sum_setProg_lt (hn h (by simp [Thread.onTop])) hp
      have hlen : q.length = q'.length := by simpa using congrArg List.length hq
      simp only [measure, List.length_cons] at hsum ⊢
      omega
  | ret => simp [measure]
  | finish hp => simp [measure]
  | flush => simp [measure]; omega
  | leave => simp [measure]

end Move

/-! ## Runs -/

/-- The ready list that the function leaves, with its flush loop still to come. -/
def readyList (progs : List (List Op)) (main : List Nat) : ReadyList.St Tasks Nat :=
  let b := (start progs main).tasks.detachAll main
  { state := b.state, ready := b.made }

/-- What holds after every step. -/
structure Inv (progs : List (List Op)) (main : List Nat) (m : Cooperative) : Prop where
  shape : Shape m
  placed : m.places.Perm (List.range progs.length)
  fifo : ∃ k, ReadyList.turns Tasks.turn k (readyList progs main) = m.view
  fair : ∀ p ∈ m.pauses,
    p.before ++ p.ready ++ [p.who] <+: m.view.log ++ m.view.ready ∧ (p.who :: p.ready).Nodup
  ended : ∀ j ∈ m.finished, m.tasks.prog j = []
  count : ∀ j, m.turns.count j + (m.tasks.prog j).count .pause =
    (progs.getD j []).count .pause + (m.thread.onTop ++ m.finished).count j
  left : ∀ j ∈ m.tasks.fresh, (j ∈ main → j ∈ m.main) ∧
    (∀ i, .ready j ∈ progs.getD i [] → .ready j ∈ m.tasks.prog i) ∧
      m.tasks.prog j = progs.getD j []

section Inv

variable {progs : List (List Op)} {main : List Nat} {m m' : Cooperative}

theorem Inv.start : Inv progs main (start progs main) where
  shape := .function
  placed := by simp [Cooperative.places, Cooperative.start, Thread.onTop, Thread.call,
    Thread.installQueueAndCall]
  fifo := ⟨0, rfl⟩
  fair p hp := nomatch hp
  ended j hj := nomatch hj
  count j := by simp [Cooperative.start, Thread.onTop, Thread.call]
  left j _ := ⟨fun h => h, fun _ h => h, rfl⟩

theorem Inv.nodup (hm : Inv progs main m) : m.places.Nodup :=
  hm.placed.nodup_iff.2 List.nodup_range

/-- A coroutine that has not ended is one of the set. -/
theorem Inv.lt_of_onTop (hm : Inv progs main m) : ∀ h ∈ m.thread.onTop, h < progs.length := by
  intro h hh
  have hmem : h ∈ m.places := by simp [places, hh]
  exact List.mem_range.1 (hm.placed.mem_iff.1 hmem)

/-- A coroutine that pauses has what is in front of it fixed. -/
theorem Inv.fair_move (hm : Inv progs main m) (hmove : Move m m') :
    ∀ p ∈ m'.pauses,
      p.before ++ p.ready ++ [p.who] <+: m'.view.log ++ m'.view.ready ∧
        (p.who :: p.ready).Nodup := by
  have hext : m.view.log ++ m.view.ready <+: m'.view.log ++ m'.view.ready := by
    rcases hmove.view with h | h
    · rw [h]
    · exact ReadyList.turn_extends h
  have hold : ∀ p ∈ m.pauses,
      p.before ++ p.ready ++ [p.who] <+: m'.view.log ++ m'.view.ready ∧
        (p.who :: p.ready).Nodup :=
    fun p hp => ⟨(hm.fair p hp).1.trans hext, (hm.fair p hp).2⟩
  cases hmove with
  | @pause q h next q' os s ts ps fs hp hq =>
      intro p hmem
      rcases List.mem_append.1 hmem with hmem | hmem
      · exact hold p hmem
      · rw [List.mem_singleton.1 hmem]
        refine ⟨List.IsPrefix.trans ?_ hext, ?_⟩
        · simp [view, Tasks.turn, hp, Tasks.burst, ReadyList.Burst.pushed]
        · have hnd : (h :: q ++ (s.fresh ++ fs)).Nodup := by
            simpa [places, Thread.onTop] using hm.nodup
          exact (List.nodup_append.1 hnd).1
  | detach => exact hold
  | ret => exact hold
  | ready hp => exact hold
  | finish hp => exact hold
  | flush => exact hold
  | leave => exact hold

/-- The coroutine that ends has nothing left to do. -/
theorem Inv.ended_move (hm : Inv progs main m) (hmove : Move m m') :
    ∀ j ∈ m'.finished, m'.tasks.prog j = [] := by
  have hold : ∀ j ∈ m.finished, m'.tasks.prog j = [] := by
    intro j hj
    have hsuffix := hmove.prog_suffix j
    rw [hm.ended j hj] at hsuffix
    exact List.suffix_nil.1 hsuffix
  cases hmove with
  | finish hp =>
      intro j hj
      rcases List.mem_append.1 hj with hj | hj
      · exact hold j hj
      · rw [List.mem_singleton.1 hj]
        exact hp
  | detach => exact hold
  | ret => exact hold
  | ready hp => exact hold
  | pause hp hq => exact hold
  | flush => exact hold
  | leave => exact hold

theorem Inv.move (hm : Inv progs main m) (hmove : Move m m') : Inv progs main m' where
  shape := hmove.shape
  placed := hmove.places.trans hm.placed
  fifo := by
    obtain ⟨k, hk⟩ := hm.fifo
    rcases hmove.view with h | h
    · exact ⟨k, hk.trans h.symm⟩
    · exact ⟨k + 1, ReadyList.turns_succ h hk⟩
  fair := hm.fair_move hmove
  ended := hm.ended_move hmove
  count j := by
    have hmcount := hm.count j
    have hmove := hmove.count j
    omega
  left j hj := by
    obtain ⟨hfresh, hmain, hprog, hsame⟩ := hmove.left hm.nodup hj
    obtain ⟨hmain₀, hprog₀, hsame₀⟩ := hm.left j hfresh
    exact ⟨fun h => hmain (hmain₀ h), fun i h => hprog i (hprog₀ i h), hsame.trans hsame₀⟩

theorem Inv.after (k : Nat) : Inv progs main (after progs main k) := by
  have hstep : ∀ m (_ : Unit) m', Inv progs main m → m.step = some m' → Inv progs main m' :=
    fun m _ m' hm h => hm.move (hm.shape.move_of_step h)
  exact Run.exec_inv hstep .start _

/-- The call returns. -/
theorem exists_returned : ∃ k, (Cooperative.after progs main k).thread.stack = [] := by
  have hstep : ∀ m : Cooperative, Inv progs main m → ¬ m.thread.stack = [] →
      ∃ m', m.step = some m' ∧ Inv progs main m' ∧
        m'.measure progs.length < m.measure progs.length := by
    intro m hm hne
    obtain ⟨m', h, hmove⟩ := hm.shape.move hne
    exact ⟨m', h, hm.move hmove, hmove.measure_lt hm.lt_of_onTop⟩
  exact @Run.exists_exec_replicate _ _ (fun m (_ : Unit) => m.step) (Inv progs main)
    (fun m => m.thread.stack = []) () (measure progs.length) hstep _ .start

end Inv

/-- The call has returned, and the coroutines have run in a fair order. -/
structure FairFifo (progs : List (List Op)) (main : List Nat) (m : Cooperative) : Prop where
  /-- the queue is empty, and it is not installed -/
  returned : m.thread = {}
  /-- the turns are those of a single ready list, which is empty now -/
  fifo : ∃ k, ReadyList.turns Tasks.turn k (readyList progs main) =
    { state := m.tasks, ready := [], log := m.turns }
  /-- what was ready at a pause has one turn each before the coroutine that paused -/
  fair : ∀ p ∈ m.pauses, (p.who :: p.ready).Nodup ∧
    ∃ rest, m.turns = p.before ++ p.ready ++ p.who :: rest
  /-- every coroutine has ended, or it was never detached -/
  placed : (m.tasks.fresh ++ m.finished).Perm (List.range progs.length)
  left : ∀ j ∈ m.tasks.fresh, j ∉ main ∧ ∀ i ∈ m.finished, .ready j ∉ progs.getD i []
  /-- one turn to begin with, and one after each pause -/
  turns : ∀ j ∈ m.finished, m.turns.count j = (progs.getD j []).count .pause + 1
  no_turn : ∀ j ∈ m.tasks.fresh, m.turns.count j = 0

theorem Inv.fairFifo {progs : List (List Op)} {main : List Nat} {m : Cooperative}
    (hm : Inv progs main m) (hret : m.thread.stack = []) : FairFifo progs main m := by
  obtain ⟨hshape, hplaced, hfifo, hfair, hended, hcount, hleft⟩ := hm
  cases hshape with
  | function => cases hret
  | coroutine => cases hret
  | flush => cases hret
  | @returned s ts ps fs =>
      have hperm : (s.fresh ++ fs).Perm (List.range progs.length) := by
        simpa [places, Thread.onTop] using hplaced
      have hnd : (s.fresh ++ fs).Nodup := hperm.nodup_iff.2 List.nodup_range
      refine ⟨rfl, hfifo, fun p hp => ⟨(hfair p hp).2, ?_⟩, hperm, fun j hj => ⟨?_, ?_⟩, ?_, ?_⟩
      · obtain ⟨rest, hrest⟩ := (hfair p hp).1
        exact ⟨rest, by simpa [view] using hrest.symm⟩
      · exact fun h => nomatch (hleft j hj).1 h
      · intro i hi h
        have hmem := (hleft j hj).2.1 i h
        rw [hended i hi] at hmem
        cases hmem
      · intro j hj
        have hone : fs.count j = 1 := List.count_eq_one_of_mem (List.nodup_append.1 hnd).2.1 hj
        have hj' := hcount j
        rw [hended j hj] at hj'
        simpa [Thread.onTop, hone] using hj'
      · intro j hj
        have hzero : fs.count j = 0 :=
          List.count_eq_zero_of_not_mem fun h => (List.nodup_append.1 hnd).2.2 j hj j h rfl
        have hj' := hcount j
        rw [(hleft j hj).2.2] at hj'
        simpa [Thread.onTop, hzero] using hj'

/-- **Fair FIFO**: at every moment each coroutine is at one place, the call returns, and then
the coroutines that were detached have ended, in the order of a single ready list. -/
theorem fairFifo_exec (progs : List (List Op)) (main : List Nat) :
    (∀ k, (after progs main k).places.Perm (List.range progs.length)) ∧
      (∃ k, (after progs main k).thread.stack = []) ∧
      ∀ k, (after progs main k).thread.stack = [] → FairFifo progs main (after progs main k) :=
  ⟨fun k => (Inv.after k).placed, exists_returned, fun k => (Inv.after k).fairFifo⟩

end Cooperative

end CoroQueue

end Cocls
