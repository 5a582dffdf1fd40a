import Cocls.ThreadPool.Stopped

/-!
# Cocls.ThreadPool.Kept

Which coroutines the workers of the pool resume.

A coroutine that is handed over waits in its hand-over and in `_queue` until a
worker takes its closure.  What a worker has taken stays with the worker until
it is resumed, also when the pool is stopped meanwhile.  What still waits when
the pool is stopped, or is handed over to a pool that is stopped already, never
gets to a worker: it comes back canceled, or not at all.  So a coroutine is
kept (`Kept`) as long as a worker has taken it or the pool is not stopped, and
it is lost to the workers for good by the one step that stops the pool over it.
-/

namespace Cocls

namespace ThreadPool

namespace Sys

variable {s s' : Sys} {a : Action} {t : Nat}

/-- A worker has taken the coroutine `t`: its closure, or the coroutine in the coroutine
queue of its thread; or it has resumed it. -/
def Taken (s : Sys) (t : Nat) : Prop :=
  ∃ w, t ∈ s.handlesAt (.worker w) ∨ t ∈ s.handlesAt (.ready (.worker w)) ∨
    (t, Agent.worker w) ∈ s.resumed

/-- No worker has taken the coroutine `t` yet: it is in `_queue`, or its hand-over has yet
to enqueue it or to let go of it. -/
def Waiting (s : Sys) (t : Nat) : Prop :=
  t ∈ s.handlesAt .queue ∨ ∃ c, t ∈ s.handlesAt (.handOver c)

/-- A worker has the coroutine `t`, or gets it from a pool that is not stopped. -/
def Kept (s : Sys) (t : Nat) : Prop := Taken s t ∨ s.pool.exit = false ∧ Waiting s t

/-! ## What the workers have taken -/

theorem taken_congr (hat : ∀ w, s'.handlesAt (.worker w) = s.handlesAt (.worker w))
    (hready : ∀ w, s'.handlesAt (.ready (.worker w)) = s.handlesAt (.ready (.worker w)))
    (hresumed : ∀ w, (t, Agent.worker w) ∈ s'.resumed ↔ (t, Agent.worker w) ∈ s.resumed) :
    Taken s' t ↔ Taken s t := by
  simp only [Taken, hat, hready, hresumed]

/-- What is destroyed by a hand-over or by `stop()` is not taken by a worker. -/
theorem taken_destroy {b : Agent} (hb : ∀ w, b ≠ .worker w) (active : Bool) (i : QItem) :
    Taken (s.destroy b active i) t ↔ Taken s t := by
  refine taken_congr (fun w => ?_) (fun w => ?_) fun w => ?_
  · rw [handlesAt_destroy, if_neg (destroySpot_ne (by simp) (by simp) (by simp))]
  · rw [handlesAt_destroy, if_neg (destroySpot_ne (by simp [(hb w).symm]) (by simp) (by simp))]
  · rw [destroy_resumed]
    split
    · simp [(hb w).symm]
    · rfl

theorem taken_pool {pool : ThreadPool} : Taken { s with pool := pool } t ↔ Taken s t :=
  taken_congr (by simp) (by simp) fun _ => Iff.rfl

theorem taken_setHandOver (c : Nat) (ho : HandOver) :
    Taken (s.setHandOver c ho) t ↔ Taken s t :=
  taken_congr (by simp) (by simp) fun _ => Iff.rfl

theorem taken_setStop (k : Nat) (st : Stop) : Taken (s.setStop k st) t ↔ Taken s t :=
  taken_congr (by simp) (by simp) fun _ => Iff.rfl

/-- A worker that holds the same has taken the same. -/
theorem taken_setWorker_same {w : Nat} {wk : Worker}
    (h : heldByWorker wk = (s.worker w).elim [] heldByWorker) :
    Taken (s.setWorker w wk) t ↔ Taken s t :=
  taken_congr (fun _ => handlesAt_setWorker_same s _ h) (fun _ => handlesAt_setWorker_same s _ h)
    fun _ => Iff.rfl

/-- The coroutine that a worker lets go of stays with the worker. -/
theorem taken_run {w : Nat} {wk : Worker} {i : QItem} (hw : s.worker w = some wk)
    (htook : wk.stage = .took i) :
    Taken ((s.setWorker w { wk with stage := .running }).coroResume (.worker w) wk.active i.handle)
      t ↔ Taken s t := by
  refine exists_congr fun v => ?_
  rw [handlesAt_coroResume, handlesAt_coroResume, coroResume_resumed, handlesAt_setWorker,
    handlesAt_setWorker]
  by_cases hv : v = w
  · subst hv
    have hheld : s.handlesAt (.worker v) = [i.handle] := by
      simp [handlesAt, hw, heldByWorker, htook]
    cases wk.active <;>
      simp [resumeSpot, heldByWorker, hheld, setWorker_resumed, or_comm, or_left_comm, or_assoc]
  · cases wk.active <;> simp [resumeSpot, hv, setWorker_resumed]

/-- A worker that held nothing holds one coroutine. -/
theorem taken_setWorker_one {w i : Nat} {wk : Worker} (hheld : s.handlesAt (.worker w) = [])
    (h : heldByWorker wk = [i]) : Taken (s.setWorker w wk) t ↔ t = i ∨ Taken s t := by
  unfold Taken
  simp only [handlesAt_setWorker, setWorker_resumed, reduceCtorEq, if_false, Spot.worker.injEq]
  constructor
  · rintro ⟨v, hv⟩
    by_cases hvw : v = w
    · rw [if_pos hvw, h, List.mem_singleton] at hv
      exact hv.imp_right fun hv => ⟨v, .inr hv⟩
    · rw [if_neg hvw] at hv
      exact .inr ⟨v, hv⟩
  · rintro (rfl | ⟨v, hv⟩)
    · exact ⟨w, .inl (by rw [if_pos rfl, h]; exact List.mem_singleton_self t)⟩
    · refine ⟨v, hv.imp_left fun hmem => ?_⟩
      have hvw : v ≠ w := fun hvw => by
        rw [hvw, hheld] at hmem
        cases hmem
      rwa [if_neg hvw]

/-- **What the workers have taken**: a step leaves it as it is, or takes the first coroutine
of the queue of a pool that is not stopped. -/
theorem Step.taken_cases (h : Step s a s') :
    (∀ t, Taken s' t ↔ Taken s t) ∨
      ∃ i ∈ s.handlesAt .queue, s.pool.exit = false ∧ ∀ t, Taken s' t ↔ t = i ∨ Taken s t := by
  cases h with
  | @enter w active hw => exact .inl fun t => taken_setWorker_same (by rw [hw]; rfl)
  | @take w wk i queue hw hidle hexit hq =>
      have hheld : s.handlesAt (.worker w) = [] := by simp [handlesAt, hw, heldByWorker, hidle]
      exact .inr ⟨i.handle, by simp [handlesAt, hq], hexit, fun t =>
        taken_pool.trans (taken_setWorker_one hheld rfl)⟩
  | @turn w wk stage hw hfrom hto hgone =>
      refine .inl fun t => taken_setWorker_same ?_
      rw [hw]
      rcases hfrom with hf | hf <;> rcases hto with rfl | rfl <;> simp [heldByWorker, hf]
  | run hw htook => exact .inl fun t => taken_run hw htook
  | handOver => exact .inl fun t => taken_congr (by simp) (by simp) fun _ => Iff.rfl
  | enqueue => exact .inl fun t => taken_pool.trans (taken_setHandOver ..)
  | refuse => exact .inl fun t => taken_setHandOver ..
  | stop => exact .inl fun t => taken_pool.trans (taken_setStop ..)
  | join | done => exact .inl fun t => taken_setStop ..
  | drop => exact .inl fun t => (taken_destroy (by simp) ..).trans (taken_setHandOver ..)
  | destroy => exact .inl fun t => (taken_destroy (by simp) ..).trans (taken_setStop ..)
  | @detach k w st tmp wk hk hret ht hme hw =>
      exact .inl fun t => (taken_setStop ..).trans (taken_setWorker_same (by rw [hw]; rfl))
  | @flush b i ready hover hr =>
      refine .inl fun t => exists_congr fun v => ?_
      by_cases hb : b = .worker v
      · subst hb
        simp [handlesAt, hr, or_comm, or_left_comm, or_assoc]
      · simp [handlesAt, Ne.symm hb]

/-! ## What an open pool has -/

/-- What was handed over stays so. -/
theorem Step.mem_handed (h : Step s a s') (ht : t ∈ s.handed) : t ∈ s'.handed := by
  cases h with
  | handOver => exact List.mem_append_left _ ht
  | run => rwa [coroResume_handed]
  | drop | destroy => rwa [destroy_handed]
  | enter | take | turn | enqueue | refuse | stop | detach | join | done | flush => exact ht

theorem Taken.mem_handed (ht : Taken s t) (hs : Arranged s) : t ∈ s.handed := by
  obtain ⟨w, ht | ht | ht⟩ := ht
  · exact (hs.mem_iff t).mpr ⟨_, ht⟩
  · exact (hs.mem_iff t).mpr ⟨_, ht⟩
  · exact (hs.mem_iff t).mpr ⟨.resumed, List.mem_map_of_mem ht⟩

/-- A coroutine that waits was not taken. -/
theorem Waiting.not_taken (ht : Waiting s t) (hs : Arranged s) : ¬ Taken s t := by
  have hone : ∀ p q, t ∈ s.handlesAt p → t ∈ s.handlesAt q → p = q :=
    fun p q hp hq => hs.exclusive.unique p q t hp hq
  have hspot : ∃ p, t ∈ s.handlesAt p ∧ (p = .queue ∨ ∃ c, p = .handOver c) := by
    rcases ht with ht | ⟨c, ht⟩
    · exact ⟨_, ht, .inl rfl⟩
    · exact ⟨_, ht, .inr ⟨c, rfl⟩⟩
  obtain ⟨p, hp, hwhere⟩ := hspot
  rintro ⟨w, hw | hw | hw⟩
  · rcases hwhere with rfl | ⟨c, rfl⟩ <;> cases hone _ _ hp hw
  · rcases hwhere with rfl | ⟨c, rfl⟩ <;> cases hone _ _ hp hw
  · have hres : t ∈ s.handlesAt .resumed := List.mem_map_of_mem hw
    rcases hwhere with rfl | ⟨c, rfl⟩ <;> cases hone _ _ hp hres

/-- In a pool that is not stopped, every coroutine waits or was taken. -/
theorem Placed.taken_or_waiting (hs : Placed s) (hexit : s.pool.exit = false) (ht : t ∈ s.handed) :
    Taken s t ∨ Waiting s t := by
  have hopen : s.pool.exit ≠ true := by simp [hexit]
  obtain ⟨p, hp⟩ := (hs.arranged.mem_iff t).mp ht
  cases p with
  | queue => exact .inr (.inl hp)
  | worker w => exact .inl ⟨w, .inl hp⟩
  | handOver c => exact .inr (.inr ⟨c, hp⟩)
  | stop k =>
      cases hk : s.stop k with
      | none =>
          rw [handlesAt, hk] at hp
          cases hp
      | some st => exact absurd (hs.exitFacts.stop k st hk) hopen
  | ready b =>
      rcases hs.exitFacts.ready b (List.ne_nil_of_mem hp) with ⟨w, rfl⟩ | hexit
      · exact .inl ⟨w, .inr (.inl hp)⟩
      · exact absurd hexit hopen
  | resumed =>
      obtain ⟨x, hx, rfl⟩ := List.mem_map.mp hp
      rcases hs.exitFacts.resumed x hx with ⟨w, hw⟩ | hexit
      · exact .inl ⟨w, .inr (.inr (hw ▸ hx))⟩
      · exact absurd hexit hopen
  | lost =>
      rw [handlesAt, hs.lost_nil hexit] at hp
      cases hp

/-! ## What stays kept -/

theorem Placed.kept_iff (hs : Placed s) (ht : t ∈ s.handed) :
    Kept s t ↔ Taken s t ∨ s.pool.exit = false := by
  constructor
  · exact fun h => h.imp_right And.left
  · rintro (htaken | hexit)
    · exact .inl htaken
    · exact (hs.taken_or_waiting hexit ht).imp_right fun hwait => ⟨hexit, hwait⟩

/-- A coroutine that is not kept is never kept again. -/
theorem Placed.kept_of_step (hs : Placed s) (h : Step s a s') (ht : t ∈ s.handed)
    (hkept : Kept s' t) : Kept s t := by
  rw [hs.kept_iff ht]
  rcases hkept with htaken | ⟨hexit, -⟩
  · rcases h.taken_cases with hsame | ⟨i, -, hexit, hone⟩
    · exact .inl ((hsame t).mp htaken)
    · exact .inr hexit
  · rcases h.exit_cases with hsame | ⟨htrue, -⟩
    · exact .inr (hsame.symm.trans hexit)
    · rw [htrue] at hexit
      cases hexit

/-- A coroutine that is handed over is kept when the pool is not stopped. -/
theorem Placed.kept_handOver (hs : Placed s) {c : Nat} {route : Route} {active : Bool}
    (h : Step s (.handOver c route active) s') (ht : t ∈ route.items.map QItem.handle) :
    t ∈ s'.handed ∧ (Kept s' t ↔ s.pool.exit = false) := by
  have hs' := hs.step h
  cases h with
  | handOver hc hnd hnew =>
      have hhanded : t ∈ s.handed ++ route.items.map QItem.handle := List.mem_append_right _ ht
      refine ⟨hhanded, ?_⟩
      rw [hs'.kept_iff hhanded]
      refine or_iff_right fun htaken => hnew t ht ?_
      have hold : Taken s t := (taken_congr (by simp) (by simp) fun _ => Iff.rfl).mp htaken
      exact hold.mem_handed hs.arranged

end Sys

end ThreadPool

end Cocls
