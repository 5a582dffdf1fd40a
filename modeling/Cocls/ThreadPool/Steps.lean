import Cocls.Run
import Cocls.Spots
import Cocls.ThreadPool

/-!
# Cocls.ThreadPool.Steps

What each step does, and where the coroutines handed over are.

A coroutine handed over is at one of the spots of `Spot`: in `_queue`, in the
hands of a worker, of a hand-over or of `stop`, in the coroutine queue of a
thread, resumed, or lost with a closure that was destroyed.  Every step takes
coroutines from one spot to another, so each is at exactly one spot in every
state of every run (`arranged_exec`): none is resumed twice.
-/

namespace Cocls

namespace ThreadPool

namespace Sys

variable {s s' : Sys} {a : Action}

/-! ## The steps -/

/-- The steps of the system, one constructor for each thing a step can do. -/
inductive Step (s : Sys) : Action → Sys → Prop
  | enter {w : Nat} {active : Bool} (hw : s.worker w = none) :
      Step s (.enter w active) (s.setWorker w { own := false, active := active })
  | take {w : Nat} {wk : Worker} {h : QItem} {queue : List QItem} (hw : s.worker w = some wk)
      (hidle : wk.stage = .idle) (hexit : s.pool.exit = false) (hq : s.pool.queue = h :: queue) :
      Step s (.worker w)
        { s.setWorker w { wk with stage := .took h } with pool := { s.pool with queue := queue } }
  /-- the worker leaves, or goes on to wait -/
  | turn {w : Nat} {wk : Worker} {stage : Stage} (hw : s.worker w = some wk)
      (hfrom : wk.stage = .idle ∨ wk.stage = .running) (hto : stage = .idle ∨ stage = .gone)
      (hgone : stage = .gone → s.pool.exit = true ∨ wk.current = false) :
      Step s (.worker w) (s.setWorker w { wk with stage := stage })
  | run {w : Nat} {wk : Worker} {h : QItem} (hw : s.worker w = some wk)
      (htook : wk.stage = .took h) :
      Step s (.worker w)
        ((s.setWorker w { wk with stage := .running }).coroResume (.worker w) wk.active h.handle)
  | handOver {c : Nat} {route : Route} {active : Bool} (hc : s.handOver c = none)
      (hnd : (route.items.map QItem.handle).Nodup)
      (hnew : ∀ h ∈ route.items.map QItem.handle, h ∉ s.handed) :
      Step s (.handOver c route active)
        { s.setHandOver c { active := active, todo := route.items } with
          handed := s.handed ++ route.items.map QItem.handle }
  | enqueue {c : Nat} {ho : HandOver} {i : QItem} {todo : List QItem}
      (hc : s.handOver c = some ho) (hr : ho.refused = none) (ht : ho.todo = i :: todo)
      (hexit : s.pool.exit = false) :
      Step s (.goOn c)
        { s.setHandOver c { ho with todo := todo, refused := none } with
          pool := { s.pool with queue := s.pool.queue ++ [i] } }
  | refuse {c : Nat} {ho : HandOver} {i : QItem} {todo : List QItem}
      (hc : s.handOver c = some ho) (hr : ho.refused = none) (ht : ho.todo = i :: todo)
      (hexit : s.pool.exit = true) :
      Step s (.goOn c) (s.setHandOver c { ho with todo := todo, refused := some i })
  | drop {c : Nat} {ho : HandOver} {i : QItem} (hc : s.handOver c = some ho)
      (hr : ho.refused = some i) :
      Step s (.goOn c)
        ((s.setHandOver c { ho with refused := none }).destroy (.handOver c) ho.active i)
  | stop {k : Nat} {me : Option Nat} {active : Bool} (hk : s.stop k = none)
      (hme : ∀ w, me = some w → (s.worker w).map Worker.stage = some .running) :
      Step s (.stop k me active)
        { s.setStop k { active := active, me := me, tmp := s.pool.threads, q := s.pool.queue } with
          pool := { exit := true, queue := [], threads := [] } }
  | detach {k w : Nat} {st : Stop} {tmp : List Nat} {wk : Worker} (hk : s.stop k = some st)
      (hret : st.returned = false) (ht : st.tmp = w :: tmp) (hme : st.me = some w)
      (hw : s.worker w = some wk) :
      Step s (.goOnStop k)
        ((s.setWorker w { wk with current := false }).setStop k { st with tmp := tmp })
  | join {k w : Nat} {st : Stop} {tmp : List Nat} {wk : Worker} (hk : s.stop k = some st)
      (hret : st.returned = false) (ht : st.tmp = w :: tmp) (hw : s.worker w = some wk)
      (hgone : wk.stage = .gone) :
      Step s (.goOnStop k) (s.setStop k { st with tmp := tmp })
  | destroy {k : Nat} {st : Stop} {i : QItem} {q : List QItem} (hk : s.stop k = some st)
      (hret : st.returned = false) (ht : st.tmp = []) (hq : st.q = i :: q) :
      Step s (.goOnStop k) ((s.setStop k { st with q := q }).destroy (.stop k) st.active i)
  | done {k : Nat} {st : Stop} (hk : s.stop k = some st) (hret : st.returned = false)
      (ht : st.tmp = []) (hq : st.q = []) :
      Step s (.goOnStop k) (s.setStop k { st with returned := true })
  | flush {a : Agent} {h : Nat} {ready : List Nat} (hover : s.Over a = true)
      (hr : s.ready a = h :: ready) :
      Step s (.flush a) { s with ready := Function.update s.ready a ready
                                 resumed := s.resumed ++ [(h, a)] }

theorem workerStep_cases {w : Nat} {wk : Worker} (hw : s.worker w = some wk)
    (h : s.workerStep w wk = some s') : Step s (.worker w) s' := by
  unfold workerStep at h
  split at h
  · next hstage =>
      unfold ThreadPool.next at h
      by_cases hexit : s.pool.exit = true
      · simp only [hexit, if_true, Option.some.injEq] at h
        exact h ▸ .turn hw (.inl hstage) (.inr rfl) fun _ => .inl hexit
      · rw [if_neg hexit] at h
        cases hq : s.pool.queue with
        | nil => simp [hq] at h
        | cons i queue =>
            simp only [hq, Option.some.injEq] at h
            exact h ▸ .take hw hstage (by simpa using hexit) hq
  · next i hstage => exact Option.some.inj h ▸ .run hw hstage
  · next hstage =>
      refine Option.some.inj h ▸ .turn hw (.inr hstage) ?_ fun hgone => .inr ?_
      · split
        · exact .inl rfl
        · exact .inr rfl
      · by_contra hcurrent
        rw [if_pos (by simpa using hcurrent)] at hgone
        cases hgone
  · cases h

theorem handOverStep_cases {c : Nat} {ho : HandOver} (hc : s.handOver c = some ho)
    (h : s.handOverStep c ho = some s') : Step s (.goOn c) s' := by
  unfold handOverStep at h
  cases hr : ho.refused with
  | some i =>
      simp only [hr, Option.some.injEq] at h
      exact h ▸ .drop hc hr
  | none =>
      cases ht : ho.todo with
      | nil => simp [hr, ht] at h
      | cons i todo =>
          simp only [hr, ht, Option.some.injEq, ThreadPool.enqueue] at h
          by_cases hexit : s.pool.exit = true
          · simp only [hexit, if_true] at h
            exact h ▸ .refuse hc hr ht hexit
          · simp only [if_neg hexit] at h
            exact h ▸ .enqueue hc hr ht (by simpa using hexit)

theorem stopStep_cases {k : Nat} {st : Stop} (hk : s.stop k = some st)
    (h : s.stopStep k st = some s') : Step s (.goOnStop k) s' := by
  obtain ⟨active, me, tmp, q, returned⟩ := st
  simp only [stopStep] at h
  cases returned with
  | true => cases h
  | false =>
      simp only [Bool.false_eq_true, if_false] at h
      cases tmp with
      | cons w tmp =>
          by_cases hme : me = some w
          · simp only [if_pos hme] at h
            obtain ⟨wk, hw, h⟩ := Option.map_eq_some_iff.mp h
            exact h ▸ .detach hk rfl rfl hme hw
          · simp only [if_neg hme, Option.ite_none_right_eq_some] at h
            obtain ⟨wk, hw, hgone⟩ := Option.map_eq_some_iff.mp h.1
            exact Option.some.inj h.2 ▸ .join hk rfl rfl hw hgone
      | nil =>
          cases q with
          | cons i q => exact Option.some.inj h ▸ .destroy hk rfl rfl rfl
          | nil => exact Option.some.inj h ▸ .done hk rfl rfl rfl

/-- **What a step can do.** -/
theorem step_cases (h : step s a = some s') : Step s a s' := by
  cases a with
  | enter w active =>
      simp only [step, Option.ite_none_left_eq_some, Option.some.injEq] at h
      exact h.2 ▸ .enter (by simpa using h.1)
  | worker w =>
      obtain ⟨wk, hw, h⟩ := Option.bind_eq_some_iff.mp h
      exact workerStep_cases hw h
  | handOver c route active =>
      simp only [step, Option.ite_none_left_eq_some, Option.some.injEq, not_or, not_not] at h
      obtain ⟨⟨hc, hnd, hnew⟩, rfl⟩ := h
      exact .handOver (by simpa using hc) hnd fun i hi hmem => hnew ⟨i, hi, hmem⟩
  | goOn c =>
      obtain ⟨ho, hc, h⟩ := Option.bind_eq_some_iff.mp h
      exact handOverStep_cases hc h
  | stop k me active =>
      simp only [step, Option.ite_none_left_eq_some, Option.some.injEq, not_or] at h
      obtain ⟨⟨hk, hme⟩, rfl⟩ := h
      refine .stop (by simpa using hk) fun w hw => ?_
      by_contra hne
      exact hme ⟨w, hw, hne⟩
  | goOnStop k =>
      obtain ⟨st, hk, h⟩ := Option.bind_eq_some_iff.mp h
      exact stopStep_cases hk h
  | flush b =>
      simp only [step, Option.ite_none_right_eq_some] at h
      obtain ⟨hover, h⟩ := h
      cases hr : s.ready b with
      | nil => simp [hr] at h
      | cons i ready =>
          simp only [hr, Option.some.injEq] at h
          exact h ▸ .flush hover hr

/-! ## Where the coroutines are -/

/-- The places where a coroutine that was handed over can be. -/
inductive Spot where
  | queue
  | worker (w : Nat)
  | handOver (c : Nat)
  | stop (k : Nat)
  | ready (a : Agent)
  | resumed
  | lost
deriving DecidableEq

/-- The coroutine in the hands of a worker. -/
def heldByWorker (wk : Worker) : List Nat :=
  match wk.stage with
  | .took h => [h.handle]
  | _ => []

/-- The coroutines that a hand-over still has to enqueue or to let go. -/
def heldByHandOver (ho : HandOver) : List Nat := (ho.refused.toList ++ ho.todo).map QItem.handle

/-- The coroutines that `stop()` took out of the queue. -/
def heldByStop (st : Stop) : List Nat := st.q.map QItem.handle

/-- The coroutines at each spot. -/
def handlesAt (s : Sys) : Spot → List Nat
  | .queue => s.pool.queue.map QItem.handle
  | .worker w => (s.worker w).elim [] heldByWorker
  | .handOver c => (s.handOver c).elim [] heldByHandOver
  | .stop k => (s.stop k).elim [] heldByStop
  | .ready a => s.ready a
  | .resumed => s.resumed.map Prod.fst
  | .lost => s.lost

section HandlesAt

variable (s) (p : Spot)

@[simp] theorem handlesAt_setWorker (w : Nat) (wk : Worker) :
    (s.setWorker w wk).handlesAt p = if p = .worker w then heldByWorker wk else s.handlesAt p := by
  cases p with
  | worker v =>
      by_cases hv : v = w
      · subst hv
        simp [handlesAt, setWorker]
      · simp [handlesAt, setWorker, hv]
  | _ => simp [handlesAt, setWorker]

@[simp] theorem handlesAt_setHandOver (c : Nat) (ho : HandOver) :
    (s.setHandOver c ho).handlesAt p =
      if p = .handOver c then heldByHandOver ho else s.handlesAt p := by
  cases p with
  | handOver d =>
      by_cases hd : d = c
      · subst hd
        simp [handlesAt, setHandOver]
      · simp [handlesAt, setHandOver, hd]
  | _ => simp [handlesAt, setHandOver]

@[simp] theorem handlesAt_setStop (k : Nat) (st : Stop) :
    (s.setStop k st).handlesAt p = if p = .stop k then heldByStop st else s.handlesAt p := by
  cases p with
  | stop j =>
      by_cases hj : j = k
      · subst hj
        simp [handlesAt, setStop]
      · simp [handlesAt, setStop, hj]
  | _ => simp [handlesAt, setStop]

@[simp] theorem handlesAt_pool (pool : ThreadPool) :
    ({ s with pool := pool } : Sys).handlesAt p =
      if p = .queue then pool.queue.map QItem.handle else s.handlesAt p := by
  cases p <;> simp [handlesAt]

@[simp] theorem handlesAt_handed (handed : List Nat) :
    ({ s with handed := handed } : Sys).handlesAt p = s.handlesAt p := by
  cases p <;> rfl

/-- A worker that holds the same leaves the coroutines where they are. -/
theorem handlesAt_setWorker_same {w : Nat} {wk : Worker}
    (h : heldByWorker wk = (s.worker w).elim [] heldByWorker) :
    (s.setWorker w wk).handlesAt p = s.handlesAt p := by
  rw [handlesAt_setWorker]
  split
  · next hp => rw [hp, h]; rfl
  · rfl

theorem handlesAt_setHandOver_same {c : Nat} {ho : HandOver}
    (h : heldByHandOver ho = (s.handOver c).elim [] heldByHandOver) :
    (s.setHandOver c ho).handlesAt p = s.handlesAt p := by
  rw [handlesAt_setHandOver]
  split
  · next hp => rw [hp, h]; rfl
  · rfl

theorem handlesAt_setStop_same {k : Nat} {st : Stop}
    (h : heldByStop st = (s.stop k).elim [] heldByStop) :
    (s.setStop k st).handlesAt p = s.handlesAt p := by
  rw [handlesAt_setStop]
  split
  · next hp => rw [hp, h]; rfl
  · rfl

/-- Where `coro_queue::resume` puts a coroutine. -/
def resumeSpot (a : Agent) (active : Bool) : Spot := if active then .ready a else .resumed

@[simp] theorem handlesAt_coroResume (a : Agent) (active : Bool) (h : Nat) :
    (s.coroResume a active h).handlesAt p =
      if p = resumeSpot a active then s.handlesAt p ++ [h] else s.handlesAt p := by
  cases active with
  | true =>
      cases p with
      | ready b =>
          by_cases hb : b = a
          · subst hb
            simp [handlesAt, coroResume, resumeSpot]
          · simp [handlesAt, coroResume, resumeSpot, hb]
      | _ => simp [handlesAt, coroResume, resumeSpot]
  | false => cases p <;> simp [handlesAt, coroResume, resumeSpot]

/-- Where the coroutine of a destroyed closure ends up. -/
def destroySpot (a : Agent) (active : Bool) (i : QItem) : Spot :=
  if i.fin then resumeSpot a active else .lost

@[simp] theorem handlesAt_destroy (a : Agent) (active : Bool) (i : QItem) :
    (s.destroy a active i).handlesAt p =
      if p = destroySpot a active i then s.handlesAt p ++ [i.handle] else s.handlesAt p := by
  unfold destroy destroySpot
  split
  · exact handlesAt_coroResume s p a active i.handle
  · cases p <;> simp [handlesAt]

end HandlesAt

/-- Every coroutine handed over is at one spot, and there once. -/
structure Arranged (s : Sys) : Prop where
  exclusive : Spots.Exclusive s.handlesAt
  mem_iff : ∀ t, t ∈ s.handed ↔ ∃ p, t ∈ s.handlesAt p

/-- A step that leaves every coroutine where it is. -/
theorem Arranged.same (h : Arranged s) (hat : ∀ p, s'.handlesAt p = s.handlesAt p)
    (hhanded : s'.handed = s.handed) : Arranged s' := by
  refine ⟨h.exclusive.congr hat, fun t => ?_⟩
  rw [hhanded, funext hat]
  exact h.mem_iff t

/-- A step that takes coroutines from one spot to another one. -/
theorem Arranged.moved (h : Arranged s) (p q : Spot) (xs : List Nat)
    (hm : Spots.Moved s.handlesAt s'.handlesAt p q xs) (hhanded : s'.handed = s.handed) :
    Arranged s' := by
  refine ⟨hm.exclusive h.exclusive, fun t => ?_⟩
  rw [hhanded, hm.exists_iff h.exclusive]
  exact h.mem_iff t

/-- A coroutine that leaves a spot for the place where a closure puts it. -/
theorem moved_append {f g : Spot → List Nat} {p q : Spot} {h : Nat} (hne : p ≠ q)
    (hsource : f p = h :: g p) (htarget : g q = f q ++ [h])
    (hother : ∀ r, r ≠ p → r ≠ q → g r = f r) : Spots.Moved f g p q [h] :=
  ⟨hne, hsource ▸ List.Perm.refl _, htarget ▸ List.perm_append_comm, hother⟩

theorem resumeSpot_ne {b : Agent} {active : Bool} {p : Spot} (hr : p ≠ .ready b)
    (hd : p ≠ .resumed) : p ≠ resumeSpot b active := by
  unfold resumeSpot
  split
  · exact hr
  · exact hd

theorem destroySpot_ne {b : Agent} {active : Bool} {i : QItem} {p : Spot} (hr : p ≠ .ready b)
    (hd : p ≠ .resumed) (hl : p ≠ .lost) : p ≠ destroySpot b active i := by
  unfold destroySpot
  split
  · exact resumeSpot_ne hr hd
  · exact hl

/-- **One step** keeps every coroutine at one spot. -/
theorem Step.arranged (h : Step s a s') (hs : Arranged s) : Arranged s' := by
  cases h with
  | @enter w active hw =>
      exact hs.same (fun p => handlesAt_setWorker_same s p (by rw [hw]; rfl)) rfl
  | @take w wk i queue hw hidle hexit hq =>
      refine hs.moved .queue (.worker w) [i.handle]
        (moved_append (by simp) ?_ ?_ fun p hp hp' => ?_) rfl
      · simp [handlesAt, hq]
      · simp [handlesAt, hw, setWorker, heldByWorker, hidle]
      · simp [hp, hp']
  | @turn w wk stage hw hfrom hto hgone =>
      refine hs.same (fun p => handlesAt_setWorker_same s p ?_) rfl
      rw [hw]
      rcases hfrom with hf | hf <;> rcases hto with rfl | rfl <;> simp [heldByWorker, hf]
  | @run w wk i hw htook =>
      have hne : Spot.worker w ≠ resumeSpot (.worker w) wk.active :=
        resumeSpot_ne (by simp) (by simp)
      refine hs.moved (.worker w) (resumeSpot (.worker w) wk.active) [i.handle]
        (moved_append hne ?_ ?_ fun p hp hp' => ?_) (coroResume_handed ..)
      · rw [handlesAt_coroResume, if_neg hne, handlesAt_setWorker, if_pos rfl]
        simp [handlesAt, hw, heldByWorker, htook]
      · rw [handlesAt_coroResume, if_pos rfl, handlesAt_setWorker, if_neg hne.symm]
      · simp [hp, hp']
  | @handOver c route active hc hnd hnew =>
      have hadd : Spots.Added s.handlesAt
          ({ s.setHandOver c { active := active, todo := route.items } with
            handed := s.handed ++ route.items.map QItem.handle } : Sys).handlesAt
          (.handOver c) (route.items.map QItem.handle) := by
        refine ⟨?_, fun p hp => ?_⟩
        · simp [handlesAt, hc, setHandOver, heldByHandOver]
        · simp [hp]
      refine ⟨hadd.exclusive hs.exclusive hnd fun h hh p hp => ?_, fun t => ?_⟩
      · exact hnew h hh ((hs.mem_iff h).mpr ⟨p, hp⟩)
      · rw [List.mem_append, hs.mem_iff]
        constructor
        · rintro (⟨p, hp⟩ | ht)
          · exact ⟨p, hadd.mem_iff.mpr (.inr hp)⟩
          · exact ⟨.handOver c, hadd.mem_iff.mpr (.inl ⟨ht, rfl⟩)⟩
        · rintro ⟨p, hp⟩
          rcases hadd.mem_iff.mp hp with ⟨ht, -⟩ | hp
          · exact .inr ht
          · exact .inl ⟨p, hp⟩
  | @enqueue c ho i todo hc hr ht hexit =>
      refine hs.moved (.handOver c) .queue [i.handle]
        (moved_append (by simp) ?_ ?_ fun p hp hp' => ?_) rfl
      · simp [handlesAt, hc, setHandOver, heldByHandOver, hr, ht]
      · simp [handlesAt]
      · simp [hp, hp']
  | @refuse c ho i todo hc hr ht hexit =>
      refine hs.same (fun p => handlesAt_setHandOver_same s p ?_) rfl
      rw [hc]
      simp [heldByHandOver, hr, ht]
  | @drop c ho i hc hr =>
      have hne : Spot.handOver c ≠ destroySpot (.handOver c) ho.active i :=
        destroySpot_ne (by simp) (by simp) (by simp)
      refine hs.moved (.handOver c) (destroySpot (.handOver c) ho.active i) [i.handle]
        (moved_append hne ?_ ?_ fun p hp hp' => ?_) (destroy_handed ..)
      · rw [handlesAt_destroy, if_neg hne, handlesAt_setHandOver, if_pos rfl]
        simp [handlesAt, hc, heldByHandOver, hr]
      · rw [handlesAt_destroy, if_pos rfl, handlesAt_setHandOver, if_neg hne.symm]
      · simp [hp, hp']
  | @stop k me active hk hme =>
      refine hs.moved .queue (.stop k) (s.pool.queue.map QItem.handle)
        ⟨by simp, ?_, ?_, fun p hp hp' => ?_⟩ rfl
      · simp [handlesAt]
      · simp [handlesAt, hk, setStop, heldByStop]
      · simp [hp, hp']
  | @detach k w st tmp wk hk hret ht hme hw =>
      refine hs.same (fun p => ?_) rfl
      rw [handlesAt_setStop_same _ p (by simp [setWorker, hk, heldByStop]),
        handlesAt_setWorker_same s p (by rw [hw]; rfl)]
  | @join k w st tmp wk hk hret ht hw hgone =>
      exact hs.same (fun p => handlesAt_setStop_same s p (by rw [hk]; rfl)) rfl
  | @destroy k st i q hk hret ht hq =>
      have hne : Spot.stop k ≠ destroySpot (.stop k) st.active i :=
        destroySpot_ne (by simp) (by simp) (by simp)
      refine hs.moved (.stop k) (destroySpot (.stop k) st.active i) [i.handle]
        (moved_append hne ?_ ?_ fun p hp hp' => ?_) (destroy_handed ..)
      · rw [handlesAt_destroy, if_neg hne, handlesAt_setStop, if_pos rfl]
        simp [handlesAt, hk, heldByStop, hq]
      · rw [handlesAt_destroy, if_pos rfl, handlesAt_setStop, if_neg hne.symm]
      · simp [hp, hp']
  | @done k st hk hret ht hq =>
      exact hs.same (fun p => handlesAt_setStop_same s p (by rw [hk]; rfl)) rfl
  | @flush b i ready hover hr =>
      refine hs.moved (.ready b) .resumed [i] (moved_append (by simp) ?_ ?_ fun p hp hp' => ?_) rfl
      · simp [handlesAt, hr]
      · simp [handlesAt]
      · cases p with
        | ready d =>
            have hd : d ≠ b := fun heq => hp (heq ▸ rfl)
            simp [handlesAt, hd]
        | resumed => exact absurd rfl hp'
        | _ => rfl

theorem arranged_init (threads : Nat) : Arranged (init threads) := by
  have hnone : ∀ p, (init threads).handlesAt p = [] := by
    intro p
    cases p with
    | worker w =>
        show Option.elim (if w < threads then _ else _) [] heldByWorker = []
        split <;> rfl
    | _ => rfl
  refine ⟨Spots.exclusive_nil.congr hnone, fun t => ?_⟩
  simp only [hnone, List.not_mem_nil, exists_false, iff_false]
  exact List.not_mem_nil

/-- **Every coroutine handed over is at exactly one spot**, after every run: none is
resumed twice. -/
theorem arranged_exec (threads : Nat) (as : List Action) :
    Arranged (Run.exec step (init threads) as) :=
  Run.exec_inv (fun _ _ _ hs h => (step_cases h).arranged hs) (arranged_init threads) as

end Sys

end ThreadPool

end Cocls
