import Cocls.CoroQueue

/-!
# Cocls.CoroQueue.CoroMode

A coroutine on the stack of a thread finds the queue of the thread installed,
and when a call has returned the thread is back in the mode it was in.

Everything that resumes coroutines puts them into the queue or installs it
first, but for two places.  A generator is resumed by `next_sync`, `next_future`
and `subscribe` as it is, so its body runs in the mode of the caller; and the
thread of `parallel` calls `h.resume()` in normal mode.  `coroMode_iff` says
that these are the only places from which a coroutine gets to run without a
queue.
-/

namespace Cocls

namespace CoroQueue

variable {H : Type*}

/-! ## The mode of a stack -/

/-- The mode that a stack stands for: coro mode above `install_queue_and_call`. -/
def coroMode : List (Frame H) → Bool
  | [] => false
  | .installQueueAndCall _ _ :: _ => true
  | _ :: fs => coroMode fs

/-- Every `install_queue_and_call` of a stack puts the mode back that is below it. -/
def Saved : List (Frame H) → Prop
  | [] => True
  | .installQueueAndCall prev _ :: fs => prev = coroMode fs ∧ Saved fs
  | _ :: fs => Saved fs

/-- Every coroutine of a stack runs in coro mode, also the one that is next; the thread of
`parallel` starts with an empty stack. -/
def Within : List (Frame H) → Prop
  | [] => True
  | .coroutine _ :: fs | .transfer _ :: fs => coroMode fs = true ∧ Within fs
  | .parallel _ :: fs => fs = []
  | _ :: fs => Within fs

/-- A coroutine of such a stack is in coro mode. -/
theorem coroMode_of_mem {fs : List (Frame H)} {h : H} (hw : Within fs)
    (hmem : Frame.coroutine h ∈ fs) : coroMode fs = true := by
  induction fs with
  | nil => cases hmem
  | cons f fs ih =>
      cases f <;> simp only [Within, coroMode, List.mem_cons, reduceCtorEq, false_or] at hw hmem ⊢
      case coroutine => exact hw.1
      case transfer => exact hw.1
      case parallel => subst hw; cases hmem
      all_goals exact ih hw hmem

/-- The mode of a thread is the mode of its stack. -/
structure Restores (t : Thread H) : Prop where
  active : t.active = coroMode t.stack
  saved : Saved t.stack

/-! ## What a step does -/

/-- The top of the stack is the thread of `parallel`. -/
def Thread.startsParallel (t : Thread H) : Bool :=
  match t.stack with
  | .parallel _ :: _ => true
  | _ => false

/-- A coroutine is not resumed without a queue: a generator is accessed in coro mode, and no
thread of `parallel` starts. -/
def UnderQueue (s : Sys H) : Action H → Prop
  | .call i (.nextSync _) | .call i (.nextFuture _) | .call i (.subscribe _) =>
      (s.thread i).isActive = true
  | .go i => (s.thread i).startsParallel = false
  | _ => True

/-- The steps of a thread that leave the queue to `coro_queue`. -/
inductive Queued [DecidableEq H] (t : Thread H) : Thread H → Prop
  | same : Queued t t
  | resume (h : H) : Queued t (t.resume h)
  | suspendNow (hs : List H) : Queued t (t.suspendNow hs)
  | start (h : H) : Queued t (t.start h)
  | installQueueAndCall : Queued t (t.installQueueAndCall []).call
  | createSuspendPoint : Queued t t.createSuspendPoint
  | call : Queued t t.call
  | worker : Queued t { t with stack := .worker :: t.stack }
  | stop (q : List (Task H)) : Queued t { t with stack := .stop q :: t.stack }
  | newThread (f : Frame H) (h : t.stack = []) (hf : Saved [f] ∧ Within [f] ∧ coroMode [f] = false) :
      Queued t { stack := [f] }
  | suspend (h : H) (fs : List (Frame H)) (hst : t.stack = .coroutine h :: fs) :
      Queued t { t with stack := fs }
  | transfer (h h' : H) (fs : List (Frame H)) (hst : t.stack = .coroutine h :: fs) :
      Queued t (({ t with stack := fs } : Thread H).run h')
  | await (h : H) (fs : List (Frame H)) (hs : List H) (hst : t.stack = .coroutine h :: fs) :
      Queued t (t.awaitSuspend h fs hs)
  | pause (h : H) (fs : List (Frame H)) (t' : Thread H) (hst : t.stack = .coroutine h :: fs)
      (h' : t.pause h fs = some t') : Queued t t'
  | popAndDestroy (h : H) (fs : List (Frame H)) (sp : List H) (hst : t.stack = .coroutine h :: fs) :
      Queued t (t.popAndDestroy fs sp)
  | ret (fs : List (Frame H)) (hst : t.stack = .function :: fs) : Queued t { t with stack := fs }
  | leave (fs : List (Frame H)) (hst : t.stack = .worker :: fs) : Queued t { t with stack := fs }
  | go (t' : Thread H) (h' : t.go = some t') (hp : t.startsParallel = false) : Queued t t'

/-- What an action does to its thread. -/
inductive Effect [DecidableEq H] (good : Prop) (t : Thread H) : Thread H → Prop
  | queued (t' : Thread H) (hg : good) (h : Queued t t') : Effect good t t'
  | access (g : H) (hg : good ↔ t.isActive = true) : Effect good t (t.nextSync g)
  | parallel (h : H) (fs : List (Frame H)) (hst : t.stack = .parallel h :: fs) (hg : ¬ good) :
      Effect good t (({ t with stack := fs } : Thread H).run h)

variable [DecidableEq H] {s s' : Sys H} {a : Action H}

/-- A new thread starts in normal mode. -/
theorem newThread_effect {j : Nat} {f : Frame H} {good : Prop} (hg : good)
    (hf : Saved [f] ∧ Within [f] ∧ coroMode [f] = false) (hs : s.newThread j f = some s') :
    ∃ i t', s'.thread = Function.update s.thread i t' ∧ Effect good (s.thread i) t' := by
  simp only [Sys.newThread] at hs
  split at hs
  · next hst =>
    rw [← Option.some.inj hs]
    exact ⟨j, _, rfl, .queued _ hg (.newThread f hst hf)⟩
  · cases hs

/-- **A step changes one thread.** -/
theorem step_effect (hs : s.step a = some s') :
    ∃ i t', s'.thread = Function.update s.thread i t' ∧
      Effect (UnderQueue s a) (s.thread i) t' := by
  have hsame : ∀ good : Prop, good → ∃ i t', s.thread = Function.update s.thread i t' ∧
      Effect good (s.thread i) t' :=
    fun _ hg => ⟨0, s.thread 0, (Function.update_eq_self 0 s.thread).symm, .queued _ hg .same⟩
  cases a with
  | call i c =>
      have hc : s.callStep i c = some s' := by
        simp only [Sys.step] at hs
        split at hs
        · exact hs
        · exact hs
        · cases hs
      cases c with
      | parallel j h => exact newThread_effect trivial (by simp [Saved, Within, coroMode]) hc
      | parallelResume j hs' =>
          simp only [Sys.callStep] at hc
          split at hc
          · rw [← Option.some.inj hc]; exact hsame _ trivial
          · exact newThread_effect trivial (by simp [Saved, Within, coroMode]) hc
      | newThread j pool =>
          simp only [Sys.callStep] at hc
          exact newThread_effect trivial (by cases pool <;> simp [Saved, Within, coroMode]) hc
      | poolResume hs' => rw [← Option.some.inj hc]; exact hsame _ trivial
      | runDetached => rw [← Option.some.inj hc]; exact hsame _ trivial
      | nextSync g => rw [← Option.some.inj hc]; exact ⟨i, _, rfl, .access g Iff.rfl⟩
      | nextFuture g => rw [← Option.some.inj hc]; exact ⟨i, _, rfl, .access g Iff.rfl⟩
      | subscribe g => rw [← Option.some.inj hc]; exact ⟨i, _, rfl, .access g Iff.rfl⟩
      | resume h => rw [← Option.some.inj hc]; exact ⟨i, _, rfl, .queued _ trivial (.resume h)⟩
      | suspendNow hs' =>
          rw [← Option.some.inj hc]; exact ⟨i, _, rfl, .queued _ trivial (.suspendNow hs')⟩
      | start h => rw [← Option.some.inj hc]; exact ⟨i, _, rfl, .queued _ trivial (.start h)⟩
      | detach h =>
          rw [← Option.some.inj hc]; exact ⟨i, _, rfl, .queued _ trivial (.suspendNow _)⟩
      | installQueueAndCall =>
          rw [← Option.some.inj hc]; exact ⟨i, _, rfl, .queued _ trivial .installQueueAndCall⟩
      | createSuspendPoint =>
          rw [← Option.some.inj hc]; exact ⟨i, _, rfl, .queued _ trivial .createSuspendPoint⟩
      | worker => rw [← Option.some.inj hc]; exact ⟨i, _, rfl, .queued _ trivial .worker⟩
      | stop => rw [← Option.some.inj hc]; exact ⟨i, _, rfl, .queued _ trivial (.stop _)⟩
  | suspend i x =>
      simp only [Sys.step] at hs
      split at hs
      · next h fs hst =>
        cases x with
        | suspend =>
            rw [← Option.some.inj hs]
            exact ⟨i, _, rfl, .queued _ trivial (.suspend h fs hst)⟩
        | transfer h' =>
            rw [← Option.some.inj hs]; exact ⟨i, _, rfl, .queued _ trivial (.transfer h h' fs hst)⟩
        | await hs' =>
            rw [← Option.some.inj hs]; exact ⟨i, _, rfl, .queued _ trivial (.await h fs hs' hst)⟩
        | pause =>
            obtain ⟨t', ht', rfl⟩ := Option.map_eq_some_iff.mp hs
            exact ⟨i, t', rfl, .queued _ trivial (.pause h fs t' hst ht')⟩
        | popAndDestroy sp =>
            rw [← Option.some.inj hs]
            exact ⟨i, _, rfl, .queued _ trivial (.popAndDestroy h fs sp hst)⟩
        | pool => rw [← Option.some.inj hs]; exact ⟨i, _, rfl, .queued _ trivial (.suspend h fs hst)⟩
      · cases hs
  | ret i =>
      simp only [Sys.step] at hs
      split at hs
      · next fs hst =>
        rw [← Option.some.inj hs]; exact ⟨i, _, rfl, .queued _ trivial (.ret fs hst)⟩
      · cases hs
  | go i =>
      obtain ⟨t', ht', rfl⟩ := Option.map_eq_some_iff.mp hs
      refine ⟨i, t', rfl, ?_⟩
      cases hp : (s.thread i).startsParallel with
      | false => exact .queued _ hp (.go t' ht' hp)
      | true =>
          have hbad : ¬ UnderQueue s (.go i) := by simp [UnderQueue, hp]
          simp only [Thread.startsParallel] at hp
          split at hp
          · next h fs hst =>
            simp only [Thread.go, hst, Option.some.injEq] at ht'
            rw [← ht']
            exact .parallel h fs hst hbad
          · cases hp
  | work i =>
      simp only [Sys.step] at hs
      split at hs
      · rw [← Option.some.inj hs]; exact ⟨i, _, rfl, .queued _ trivial (.resume _)⟩
      · rw [← Option.some.inj hs]; exact ⟨i, _, rfl, .queued _ trivial (.resume _)⟩
      · rw [← Option.some.inj hs]; exact ⟨i, _, rfl, .queued _ trivial .call⟩
      · cases hs
  | leave i =>
      simp only [Sys.step] at hs
      split at hs
      · next fs hst =>
        rw [← Option.some.inj hs]; exact ⟨i, _, rfl, .queued _ trivial (.leave fs hst)⟩
      · cases hs

/-! ## The mode is put back -/

omit [DecidableEq H] in
/-- The handles in the queue have no part in it. -/
theorem Restores.withQueue {t : Thread H} (ht : Restores t) (q : List H) :
    Restores { t with queue := q } := ⟨ht.active, ht.saved⟩

omit [DecidableEq H] in
/-- `install_queue_and_call` saves the mode of the stack. -/
theorem Restores.installQueueAndCall {t : Thread H} (ht : Restores t) (hs : List H) :
    Restores (t.installQueueAndCall hs) := by
  constructor
  · simp [Thread.installQueueAndCall, coroMode]
  · exact ⟨ht.active, ht.saved⟩

omit [DecidableEq H] in
theorem Restores.resume {t : Thread H} (ht : Restores t) (h : H) : Restores (t.resume h) := by
  unfold Thread.resume
  split
  · exact ht.withQueue _
  · exact ht.installQueueAndCall [h]

omit [DecidableEq H] in
theorem Restores.suspendNow {t : Thread H} (ht : Restores t) (hs : List H) :
    Restores (t.suspendNow hs) := by
  unfold Thread.suspendNow
  split
  · exact ht
  · split
    · exact ht.withQueue _
    · exact ht.installQueueAndCall hs

omit [DecidableEq H] in
/-- A frame that is not `install_queue_and_call` is added. -/
theorem Restores.cons {t : Thread H} (ht : Restores t) {f : Frame H}
    (hf : ∀ prev hs, f ≠ .installQueueAndCall prev hs) :
    Restores { t with stack := f :: t.stack } := by
  cases f <;> first | exact ⟨ht.active, ht.saved⟩ | exact absurd rfl (hf _ _)

omit [DecidableEq H] in
/-- A frame that is not `install_queue_and_call` is removed. -/
theorem Restores.tail {t : Thread H} (ht : Restores t) {f : Frame H} {fs : List (Frame H)}
    (hst : t.stack = f :: fs) (hf : ∀ prev hs, f ≠ .installQueueAndCall prev hs) :
    Restores { t with stack := fs } := by
  have ha := ht.active
  have hs := ht.saved
  rw [hst] at ha hs
  cases f <;> first | exact ⟨ha, hs⟩ | exact absurd rfl (hf _ _)

omit [DecidableEq H] in
theorem Restores.run {t : Thread H} (ht : Restores t) (h : H) : Restores (t.run h) :=
  ht.cons (by simp)

omit [DecidableEq H] in
theorem Restores.createSuspendPoint {t : Thread H} (ht : Restores t) :
    Restores t.createSuspendPoint := by
  unfold Thread.createSuspendPoint
  split
  · exact (ht.cons (f := .createSuspendPoint _) (by simp)).cons (by simp)
  · exact ((ht.installQueueAndCall []).cons (f := .createSuspendPoint _) (by simp)).cons (by simp)

omit [DecidableEq H] in
/-- The frame on top goes on: the trailer of `install_queue_and_call` puts `prev` back. -/
theorem Restores.go {t t' : Thread H} (ht : Restores t) (h : t.go = some t') : Restores t' := by
  have ha := ht.active
  have hsv := ht.saved
  simp only [Thread.go] at h
  split at h
  · next prev h' hs fs hst =>
    rw [hst] at ha hsv
    rw [← Option.some.inj h]
    exact Restores.run ⟨ha, hsv⟩ h'
  · next prev fs hst =>
    split at h
    · rw [← Option.some.inj h]
      exact (ht.withQueue _).run _
    · rw [hst] at hsv
      rw [← Option.some.inj h]
      exact ⟨hsv.1, hsv.2⟩
  · next sz fs hst =>
    rw [← Option.some.inj h]
    exact (ht.tail hst (by simp)).withQueue _
  · next fs hst => rw [← Option.some.inj h]; exact ht.tail hst (by simp)
  · next out fs hst => rw [← Option.some.inj h]; exact (ht.tail hst (by simp)).run out
  · next h' q fs hst =>
    rw [← Option.some.inj h]
    exact ((ht.tail hst (by simp)).cons (f := .stop q) (by simp)).resume h'
  · next h' q fs hst =>
    rw [← Option.some.inj h]
    exact (ht.tail hst (by simp)).cons (f := .stop q) (by simp)
  · next q fs hst =>
    rw [← Option.some.inj h]
    exact ((ht.tail hst (by simp)).cons (f := .stop q) (by simp)).cons (by simp)
  · next fs hst => rw [← Option.some.inj h]; exact ht.tail hst (by simp)
  · next h' fs hst => rw [← Option.some.inj h]; exact (ht.tail hst (by simp)).run h'
  · next hs fs hst => rw [← Option.some.inj h]; exact (ht.tail hst (by simp)).suspendNow hs
  · cases h

/-- **A step of a thread keeps the mode saved.** -/
theorem Restores.queued {t t' : Thread H} (ht : Restores t) (h : Queued t t') : Restores t' := by
  cases h with
  | same => exact ht
  | resume h => exact ht.resume h
  | suspendNow hs => exact ht.suspendNow hs
  | start h =>
      unfold Thread.start
      split
      · exact ht.run h
      · exact ht.installQueueAndCall [h]
  | installQueueAndCall => exact (ht.installQueueAndCall []).cons (by simp)
  | createSuspendPoint => exact ht.createSuspendPoint
  | call => exact ht.cons (by simp)
  | worker => exact ht.cons (by simp)
  | stop q => exact ht.cons (by simp)
  | newThread f h hf => exact ⟨hf.2.2.symm, hf.1⟩
  | suspend h fs hst => exact ht.tail hst (by simp)
  | transfer h h' fs hst => exact (ht.tail hst (by simp)).run h'
  | await h fs hs hst =>
      have htl : Restores { t with stack := fs } := ht.tail hst (by simp)
      simp only [Thread.awaitSuspend]
      cases hs.getLast? with
      | none => exact ht
      | some out =>
          by_cases hact : t.isActive = true
          · simp only [hact, if_true]
            exact (htl.run out).withQueue _
          · simp only [hact]
            exact (htl.installQueueAndCall [out]).withQueue _
  | pause h fs t' hst h' =>
      have htl : Restores { t with stack := fs } := ht.tail hst (by simp)
      simp only [Thread.pause] at h'
      split at h'
      · split at h'
        · cases h'
        · next next _ _ =>
          rw [← Option.some.inj h']
          exact (htl.run next).withQueue _
      · cases h'
  | popAndDestroy h fs sp hst =>
      have htl : Restores { t with stack := fs } := ht.tail hst (by simp)
      unfold Thread.popAndDestroy
      split
      · exact htl
      · next out _ => exact (htl.cons (f := .transfer out) (by simp)).suspendNow _
  | ret fs hst => exact ht.tail hst (by simp)
  | leave fs hst => exact ht.tail hst (by simp)
  | go t' h' _ => exact ht.go h'

/-- Also the steps that resume a coroutine without a queue keep the mode saved. -/
theorem Restores.effect {good : Prop} {t t' : Thread H} (ht : Restores t) (h : Effect good t t') :
    Restores t' := by
  cases h with
  | queued t' _ h => exact ht.queued h
  | access g _ => exact (ht.cons (f := .access) (by simp)).run g
  | parallel h fs hst _ => exact (ht.tail hst (by simp)).run h

/-! ## Coroutines under a queue -/

omit [DecidableEq H] in
theorem Within.resume {t : Thread H} (hw : Within t.stack) (h : H) : Within (t.resume h).stack := by
  unfold Thread.resume
  split <;> exact hw

omit [DecidableEq H] in
theorem Within.suspendNow {t : Thread H} (hw : Within t.stack) (hs : List H) :
    Within (t.suspendNow hs).stack := by
  unfold Thread.suspendNow
  split
  · exact hw
  · split <;> exact hw

omit [DecidableEq H] in
/-- A frame of the library goes on in coro mode, unless it is the thread of `parallel`. -/
theorem Within.go {t t' : Thread H} (hw : Within t.stack) (h : t.go = some t')
    (hp : t.startsParallel = false) : Within t'.stack := by
  simp only [Thread.go] at h
  split at h
  · next prev h' hs fs hst =>
    rw [hst] at hw
    rw [← Option.some.inj h]
    exact ⟨rfl, hw⟩
  · next prev fs hst =>
    split at h
    · rw [← Option.some.inj h]
      refine ⟨?_, hw⟩
      rw [hst]
      rfl
    · rw [hst] at hw
      rw [← Option.some.inj h]
      exact hw
  · next sz fs hst => rw [hst] at hw; rw [← Option.some.inj h]; exact hw
  · next fs hst => rw [hst] at hw; rw [← Option.some.inj h]; exact hw
  · next out fs hst => rw [hst] at hw; rw [← Option.some.inj h]; exact hw
  · next h' q fs hst =>
    rw [hst] at hw
    rw [← Option.some.inj h]
    exact Within.resume (t := { t with stack := .stop q :: fs }) hw h'
  · next h' q fs hst => rw [hst] at hw; rw [← Option.some.inj h]; exact hw
  · next q fs hst => rw [hst] at hw; rw [← Option.some.inj h]; exact hw
  · next fs hst => rw [hst] at hw; rw [← Option.some.inj h]; exact hw
  · next h' fs hst => rw [Thread.startsParallel, hst] at hp; cases hp
  · next hs fs hst =>
    rw [hst] at hw
    rw [← Option.some.inj h]
    exact Within.suspendNow (t := { t with stack := fs }) hw hs
  · cases h

/-- **A step that leaves the queue to `coro_queue` runs coroutines in coro mode.** -/
theorem Within.queued {t t' : Thread H} (ht : Restores t) (hw : Within t.stack)
    (h : Queued t t') : Within t'.stack := by
  cases h with
  | same => exact hw
  | resume h => exact hw.resume h
  | suspendNow hs => exact hw.suspendNow hs
  | start h =>
      unfold Thread.start
      split
      · next hact => exact ⟨ht.active.symm.trans hact, hw⟩
      · exact hw
  | installQueueAndCall => exact hw
  | createSuspendPoint => unfold Thread.createSuspendPoint; split <;> exact hw
  | call => exact hw
  | worker => exact hw
  | stop q => exact hw
  | newThread f h hf => exact hf.2.1
  | suspend h fs hst => rw [hst] at hw; exact hw.2
  | transfer h h' fs hst => rw [hst] at hw; exact hw
  | await h fs hs hst =>
      have hc : Within (.coroutine h :: fs) := by rw [← hst]; exact hw
      simp only [Thread.awaitSuspend]
      cases hs.getLast? with
      | none => exact hw
      | some out =>
          by_cases hact : t.isActive = true
          · simp only [hact, if_true]
            exact hc
          · simp only [hact]
            exact hc.2
  | pause h fs t' hst h' =>
      rw [hst] at hw
      simp only [Thread.pause] at h'
      split at h'
      · split at h'
        · cases h'
        · rw [← Option.some.inj h']; exact hw
      · cases h'
  | popAndDestroy h fs sp hst =>
      rw [hst] at hw
      unfold Thread.popAndDestroy
      split
      · exact hw.2
      · next out _ => exact Within.suspendNow (t := { t with stack := .transfer out :: fs }) hw _
  | ret fs hst => rw [hst] at hw; exact hw
  | leave fs hst => rw [hst] at hw; exact hw
  | go t' h' hp => exact hw.go h' hp

/-! ## Every run -/

omit [DecidableEq H] in
/-- Every coroutine on the stack of a thread is in coro mode, and the one that runs finds a
queue in `co_await pause()`. -/
structure RunsInCoroMode (t : Thread H) : Prop where
  isActive : ∀ h, .coroutine h ∈ t.stack → t.isActive = true
  pause : ∀ h fs, t.stack = .coroutine h :: fs → (t.pause h fs).isSome

/-- The coroutines of all threads run in coro mode after every step of a run, and a thread
that is back in the same calls is back in the same mode. -/
structure CoroMode (as : List (Action H)) : Prop where
  runs : ∀ n i, RunsInCoroMode (Sys.threadAfter as n i)
  restored : ∀ n m i, (Sys.threadAfter as n i).stack = (Sys.threadAfter as m i).stack →
    (Sys.threadAfter as n i).isActive = (Sys.threadAfter as m i).isActive

/-- The invariant of all runs. -/
def SavedModes (s : Sys H) : Prop := ∀ i, Restores (s.thread i)

/-- The invariant of the runs whose steps are under a queue. -/
structure Ordered (s : Sys H) : Prop where
  saved : SavedModes s
  within : ∀ i, Within (s.thread i).stack

theorem SavedModes.step (h : SavedModes s) (hs : s.step a = some s') : SavedModes s' := by
  obtain ⟨i, t', hth, heff⟩ := step_effect hs
  intro j
  rw [hth, Function.update_apply]
  split
  · exact (h i).effect heff
  · exact h j

theorem Ordered.step (h : Ordered s) (hg : UnderQueue s a) (hs : s.step a = some s') :
    Ordered s' := by
  refine ⟨h.saved.step hs, ?_⟩
  obtain ⟨i, t', hth, heff⟩ := step_effect hs
  intro j
  rw [hth, Function.update_apply]
  split
  · cases heff with
    | queued t' _ hq => exact Within.queued (h.saved i) (h.within i) hq
    | access g hacc => exact ⟨(h.saved i).active.symm.trans (hacc.mp hg), h.within i⟩
    | parallel h' fs hst hng => exact absurd hg hng
  · exact h.within j

omit [DecidableEq H] in
theorem Ordered.runs (h : Ordered s) (i : Nat) : RunsInCoroMode (s.thread i) := by
  have hact : ∀ h', .coroutine h' ∈ (s.thread i).stack → (s.thread i).isActive = true :=
    fun h' hmem => (h.saved i).active.trans (coroMode_of_mem (h.within i) hmem)
  refine ⟨hact, fun h' fs hst => ?_⟩
  have hq : (s.thread i).isActive = true := hact h' (by rw [hst]; exact List.mem_cons_self)
  simp only [Thread.pause, hq, if_true]
  cases (s.thread i).queue with
  | nil => rfl
  | cons _ _ => rfl

/-- A step that resumes a coroutine without a queue leaves it in normal mode. -/
theorem Ordered.not_runs (h : Ordered s) (hg : ¬ UnderQueue s a) (hs : s.step a = some s') :
    ¬ ∀ i, RunsInCoroMode (s'.thread i) := by
  intro hruns
  obtain ⟨i, t', hth, heff⟩ := step_effect hs
  have hi : RunsInCoroMode t' := by
    have := hruns i
    rwa [hth, Function.update_self] at this
  cases heff with
  | queued t' hg' _ => exact hg hg'
  | access g hacc => exact hg (hacc.mpr (hi.isActive g List.mem_cons_self))
  | parallel h' fs hst _ =>
      have hact : (s.thread i).active = true := hi.isActive h' List.mem_cons_self
      have hw := h.within i
      have ha := (h.saved i).active
      rw [hst] at hw ha
      rw [show fs = [] from hw] at ha
      rw [ha] at hact
      cases hact

omit [DecidableEq H] in
theorem ordered_start : Ordered (Sys.start : Sys H) := by
  constructor <;> intro i <;> simp only [Sys.start, Function.update_apply] <;> split
  · exact ⟨rfl, trivial⟩
  · exact ⟨rfl, trivial⟩
  · trivial
  · trivial

/-- In every run a thread that is back in the same calls is back in the same mode. -/
theorem restored_exec (as : List (Action H)) (n m i : Nat)
    (hst : (Sys.threadAfter as n i).stack = (Sys.threadAfter as m i).stack) :
    (Sys.threadAfter as n i).isActive = (Sys.threadAfter as m i).isActive := by
  have hinv : ∀ k, SavedModes (Run.exec Sys.step Sys.start (as.take k)) :=
    fun k => Run.exec_inv (fun _ _ _ h hs => h.step hs) ordered_start.saved _
  calc (Sys.threadAfter as n i).active
      = coroMode (Sys.threadAfter as n i).stack := (hinv n i).active
    _ = coroMode (Sys.threadAfter as m i).stack := by rw [hst]
    _ = (Sys.threadAfter as m i).active := (hinv m i).active.symm

/-- **Coro mode**: in a run every coroutine is in coro mode at every step, and every thread
gets back to its previous mode, exactly when no generator is accessed with `next_sync`,
`next_future` or `subscribe` in normal mode and no thread of `parallel` starts. -/
theorem coroMode_iff (as : List (Action H)) :
    CoroMode as ↔ Run.Meets Sys.step UnderQueue Sys.start as := by
  have hsafe : (∀ n, ∀ i, RunsInCoroMode ((Run.exec Sys.step Sys.start (as.take n)).thread i)) ↔
      Run.Meets Sys.step UnderQueue Sys.start as :=
    Run.safe_iff_meets (fun _ _ _ h hg hs => h.step hg hs) (fun _ _ _ h hg hs => h.not_runs hg hs)
      (fun _ h => h.runs) ordered_start as
  rw [← hsafe]
  exact ⟨fun h => h.runs, fun h => ⟨h, restored_exec as⟩⟩

/-- The main function calls `next()` of a generator with `co_await pause()` in its body: the
body runs in normal mode, and `pause` finds no queue. -/
theorem coroMode_fails : ¬ CoroMode [Action.call 0 (.nextSync (7 : Nat))] := by
  intro h
  have hactive := (h.runs 1 0).isActive 7 List.mem_cons_self
  cases hactive

end CoroQueue

end Cocls
