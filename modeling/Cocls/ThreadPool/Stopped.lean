import Cocls.ThreadPool.Steps

/-!
# Cocls.ThreadPool.Stopped

What the pool and the threads around it are like in every state of every run.

Only a stopped pool cancels: a closure is refused, taken by `stop()` or resumed by
another thread than a worker after `_exit` was set.  Until then every worker goes
on working.  The pool's own threads have no coroutine queue around them, and
`stop()` joins every one.
-/

namespace Cocls

namespace ThreadPool

namespace Sys

variable {s s' : Sys} {a : Action}

/-! ## After the pool was stopped -/

/-- Only `stop()` changes `_exit`. -/
theorem Step.exit_cases (h : Step s a s') :
    s'.pool.exit = s.pool.exit ∨ s'.pool.exit = true ∧ ∃ k me active, a = .stop k me active := by
  cases h with
  | @stop k me active hk hme => exact .inr ⟨rfl, k, me, active, rfl⟩
  | run => exact .inl (by rw [coroResume_pool]; rfl)
  | drop | destroy => exact .inl (by rw [destroy_pool]; rfl)
  | enter | take | turn | handOver | enqueue | refuse | detach | join | done | flush =>
      exact .inl rfl

/-- A pool that is stopped stays so. -/
theorem Step.exit_of_exit (h : Step s a s') (hexit : s.pool.exit = true) :
    s'.pool.exit = true := by
  rcases h.exit_cases with hsame | ⟨htrue, -⟩
  · exact hsame.trans hexit
  · exact htrue

/-- What was done by a stopped pool only, in every state. -/
structure ExitFacts (s : Sys) : Prop where
  queue_nil : s.pool.exit = true → s.pool.queue = []
  workers : s.pool.exit = false → ∀ w wk, s.worker w = some wk →
    wk.current = true ∧ wk.stage ≠ .gone
  refused : ∀ c ho, s.handOver c = some ho → ho.refused ≠ none → s.pool.exit = true
  stop : ∀ k st, s.stop k = some st → s.pool.exit = true
  resumed : ∀ x ∈ s.resumed, (∃ w, x.2 = .worker w) ∨ s.pool.exit = true
  ready : ∀ b, s.ready b ≠ [] → (∃ w, b = .worker w) ∨ s.pool.exit = true

theorem Step.exitFacts (h : Step s a s') (hs : ExitFacts s) : ExitFacts s' := by
  refine ⟨?_, ?_, ?_, ?_, ?_, ?_⟩
  · have hqueue := hs.queue_nil
    cases h <;> grind -linarith
  · -- a worker leaves a stopped pool only, and is detached by a call of `stop()`
    have hworkers := hs.workers
    have hstop := hs.stop
    cases h <;> grind -linarith
  · have hrefused := hs.refused
    cases h <;> grind -linarith
  · have hstop := hs.stop
    cases h <;> grind -linarith
  · -- besides a worker, a hand-over that was refused and `stop()` resume coroutines
    have hrefused := hs.refused
    have hstop := hs.stop
    have hresumed := hs.resumed
    have hready := hs.ready
    cases h <;> grind -linarith
  · have hrefused := hs.refused
    have hstop := hs.stop
    have hready := hs.ready
    cases h <;> grind -linarith

/-- A call of `stop()` has not joined worker `w` yet. -/
def ToJoin (s : Sys) (w : Nat) : Prop := ∃ k st, s.stop k = some st ∧ w ∈ st.tmp

theorem ToJoin.same {w : Nat} (h : ToJoin s w) (hstop : s'.stop = s.stop) : ToJoin s' w := by
  obtain ⟨k, st, hk, hmem⟩ := h
  exact ⟨k, st, by rw [hstop]; exact hk, hmem⟩

/-- A call that goes on keeps the workers that it does not join. -/
theorem ToJoin.update {w k : Nat} {st' : Stop} (h : ToJoin s w)
    (hstop : s'.stop = Function.update s.stop k (some st'))
    (hkeep : ∀ st, s.stop k = some st → w ∈ st.tmp → w ∈ st'.tmp) : ToJoin s' w := by
  obtain ⟨j, st, hj, hmem⟩ := h
  by_cases hjk : j = k
  · subst hjk
    exact ⟨j, st', by rw [hstop, Function.update_self], hkeep st hj hmem⟩
  · exact ⟨j, st, by rw [hstop, Function.update_of_ne hjk]; exact hj, hmem⟩

/-- The pool's own threads, in every state: they have no coroutine queue around them,
`stop()` joins every one, and holds back until it has let go of its closure. -/
structure OwnFacts (s : Sys) : Prop where
  active : ∀ w wk, s.worker w = some wk → wk.own = true → wk.active = false
  ready : ∀ w wk, s.worker w = some wk → wk.own = true → s.ready (.worker w) = []
  listed : s.pool.exit = false → ∀ w wk, s.worker w = some wk → wk.own = true →
    w ∈ s.pool.threads
  pending : s.pool.exit = true → ∀ w wk i, s.worker w = some wk → wk.own = true →
    wk.stage = .took i → ToJoin s w
  me : ∀ k st w wk i, s.stop k = some st → st.me = some w → s.worker w = some wk →
    wk.stage ≠ .took i

theorem Step.pending (h : Step s a s') (hs : OwnFacts s)
    (hexit : s'.pool.exit = true) {w : Nat} {wk : Worker} {i : QItem}
    (hw : s'.worker w = some wk) (hown : wk.own = true) (htook : wk.stage = .took i) :
    ToJoin s' w := by
  have hpending := hs.pending
  cases h with
  | enter | take | turn | run | handOver | enqueue | refuse | drop | flush =>
      have hw₀ : s.worker w = some wk := by grind -linarith
      refine (hpending (by grind -linarith) w wk i hw₀ hown htook).same ?_
      grind -linarith
  | @stop k me active hk hme =>
      by_cases hexit₀ : s.pool.exit = true
      · refine (hpending hexit₀ w wk i hw hown htook).update rfl fun st hst => ?_
        rw [hk] at hst
        cases hst
      · have hlist := hs.listed (by simpa using hexit₀) w wk hw hown
        exact ⟨k, { active := active, me := me, tmp := s.pool.threads, q := s.pool.queue },
          Function.update_self .., hlist⟩
  | @detach k v st tmp wv hk hret ht hme hv =>
      -- the detached worker is the one that calls `stop()`
      have hw₀ : s.worker w = some wk ∧ w ≠ v := by
        have := hs.me k st v wv i hk hme hv
        grind -linarith
      refine (hpending hexit w wk i hw₀.1 hown htook).update rfl fun st' hst hmem => ?_
      grind -linarith
  | @join k v st tmp wv hk hret ht hv hgone =>
      have hne : w ≠ v := by grind -linarith
      refine (hpending hexit w wk i hw hown htook).update rfl fun st' hst hmem => ?_
      grind -linarith
  | @destroy k st j q hk hret ht hq =>
      have hw₀ : s.worker w = some wk := by grind -linarith
      have hstop : ((s.setStop k { st with q := q }).destroy (.stop k) st.active j).stop =
          Function.update s.stop k (some { st with q := q }) := by grind -linarith
      refine (hpending (by grind -linarith) w wk i hw₀ hown htook).update hstop fun st' hst => ?_
      rw [Option.some.inj (hst.symm.trans hk)]
      exact id
  | @done k st hk hret ht hq =>
      refine (hpending hexit w wk i hw hown htook).update rfl fun st' hst => ?_
      rw [Option.some.inj (hst.symm.trans hk)]
      exact id

theorem Step.ownFacts (h : Step s a s') (hx : ExitFacts s) (hs : OwnFacts s) : OwnFacts s' := by
  refine ⟨?_, ?_, ?_, fun he w wk i hw => h.pending hs he hw, ?_⟩
  · have hactive := hs.active
    cases h <;> grind -linarith
  · have hactive := hs.active
    have hready := hs.ready
    cases h <;> grind -linarith
  · have hlisted := hs.listed
    have hexit := hx.stop
    cases h <;> grind -linarith
  · -- nobody takes a closure once `stop()` was called
    have hme := hs.me
    have hexit := hx.stop
    cases h <;> grind -linarith

/-- The calls of `stop()`, in every state: one that has returned is done, and the threads to
join are known. -/
structure StopFacts (s : Sys) : Prop where
  emptied : ∀ k st, s.stop k = some st → st.returned = true → st.tmp = [] ∧ st.q = []
  threads : ∀ w ∈ s.pool.threads, ∃ wk, s.worker w = some wk
  joins : ∀ k st, s.stop k = some st → ∀ w ∈ st.tmp, ∃ wk, s.worker w = some wk

theorem Step.stopFacts (h : Step s a s') (hs : StopFacts s) : StopFacts s' := by
  obtain ⟨hemptied, hthreads, hjoins⟩ := hs
  refine ⟨?_, ?_, ?_⟩ <;> cases h <;> grind -linarith

/-- A coroutine queue that is not empty is that of a thread with one around it. -/
structure ReadyFacts (s : Sys) : Prop where
  worker : ∀ w, s.ready (.worker w) ≠ [] → ∃ wk, s.worker w = some wk ∧ wk.active = true
  handOver : ∀ c, s.ready (.handOver c) ≠ [] → ∃ ho, s.handOver c = some ho
  stop : ∀ k, s.ready (.stop k) ≠ [] → ∃ st, s.stop k = some st

theorem Step.readyFacts (h : Step s a s') (hs : ReadyFacts s) : ReadyFacts s' := by
  obtain ⟨hworker, hhandOver, hstop⟩ := hs
  refine ⟨?_, ?_, ?_⟩ <;> cases h <;> grind -linarith

/-! ## Every state -/

/-- Where the coroutines are, and what holds in every state.  An open pool has lost none. -/
structure Placed (s : Sys) : Prop where
  arranged : Arranged s
  exitFacts : ExitFacts s
  ownFacts : OwnFacts s
  stopFacts : StopFacts s
  readyFacts : ReadyFacts s
  lost_nil : s.pool.exit = false → s.lost = []

theorem Placed.step (hs : Placed s) (h : Step s a s') : Placed s' := by
  refine ⟨h.arranged hs.arranged, h.exitFacts hs.exitFacts, h.ownFacts hs.exitFacts hs.ownFacts,
    h.stopFacts hs.stopFacts, h.readyFacts hs.readyFacts, fun hexit => ?_⟩
  have hrefused := hs.exitFacts.refused
  have hstop := hs.exitFacts.stop
  have hlost := hs.lost_nil
  cases h <;> grind -linarith

theorem placed_init (threads : Nat) : Placed (init threads) := by
  have hworker : ∀ w wk, (init threads).worker w = some wk →
      w < threads ∧ wk = { own := true } := by
    intro w wk hw
    simp only [init, Option.ite_none_right_eq_some, Option.some.injEq] at hw
    exact ⟨hw.1, hw.2.symm⟩
  refine ⟨arranged_init threads, ?_, ?_, ?_, ?_, fun _ => rfl⟩
  · refine ⟨fun _ => rfl, fun _ w wk hw => ?_, fun _ _ hc => (by cases hc),
      fun _ _ hk => (by cases hk), fun _ hx => (by cases hx), fun _ hr => absurd rfl hr⟩
    rw [(hworker w wk hw).2]
    exact ⟨rfl, by simp⟩
  · refine ⟨fun w wk hw _ => ?_, fun _ _ _ _ => rfl, fun _ w wk hw _ => ?_, fun hx => (by cases hx),
      fun _ _ _ _ _ hk => (by cases hk)⟩
    · rw [(hworker w wk hw).2]
    · exact List.mem_range.mpr (hworker w wk hw).1
  · refine ⟨fun _ _ hk => (by cases hk), fun w hw => ?_, fun _ _ hk => (by cases hk)⟩
    exact ⟨{ own := true }, if_pos (List.mem_range.mp hw)⟩
  · exact ⟨fun _ hr => absurd rfl hr, fun _ hr => absurd rfl hr, fun _ hr => absurd rfl hr⟩

end Sys

end ThreadPool

end Cocls
