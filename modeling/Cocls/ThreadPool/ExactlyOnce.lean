import Cocls.ThreadPool.Progress

/-!
# Cocls.ThreadPool.ExactlyOnce

Every coroutine handed over is resumed exactly once: the threads on their way
come to resume it, and no later than when `stop()` has returned.

That none is resumed twice, and that only a stopped pool cancels, holds of every
run.  That none is left behind rests on three more things: a closure without a
deleter is neither refused by `enqueue` nor taken out of the queue by `stop`, as
it would be destroyed without resuming its coroutine; and `stop()` does not
return before another call of it, a thread outside the pool, or the coroutine
queue of one of these threads has resumed what they hold.
-/

namespace Cocls

namespace ThreadPool

namespace Sys

variable {s s' : Sys} {a : Action}

/-! ## Nothing is left behind -/

/-- No other thread holds what the call `k` of `stop()` does not wait for: no other call
has yet to destroy a closure, or to join a thread that has taken one; no thread outside the
pool has taken a closure without calling it; and no coroutine is left in the coroutine
queue of a worker or of a call of `stop()`. -/
structure Alone (s : Sys) (k : Nat) : Prop where
  swapped : ∀ j st, s.stop j = some st → j ≠ k → st.q = []
  joins : ∀ j st, s.stop j = some st → j ≠ k → ∀ w ∈ st.tmp, ∀ wk i, s.worker w = some wk →
    wk.stage ≠ .took i
  workers : ∀ w wk i, s.worker w = some wk → wk.own = false → wk.stage ≠ .took i
  ready_worker : ∀ w, s.ready (.worker w) = []
  ready_stop : ∀ j, s.ready (.stop j) = []

/-- A step that leaves no coroutine behind: a closure without deleter is not refused, and
not taken out of the queue by `stop()`; and `stop()` returns only when it is alone. -/
def Covered (s : Sys) : Action → Prop
  | .goOn c => ∀ ho, s.handOver c = some ho → ho.refused = none →
      ∀ i ∈ ho.todo.head?, i.fin = true ∨ s.pool.exit = false
  | .stop _ _ _ => ∀ i ∈ s.pool.queue, i.fin = true
  | .goOnStop k => ∀ st, s.stop k = some st → st.returned = false → st.tmp = [] → st.q = [] →
      Alone s k
  | _ => True

/-- Closures that are on their way to be destroyed resume their coroutine. -/
structure Guarded (s : Sys) : Prop where
  lost_nil : s.lost = []
  refused : ∀ c ho i, s.handOver c = some ho → ho.refused = some i → i.fin = true
  swapped : ∀ k st, s.stop k = some st → ∀ i ∈ st.q, i.fin = true

theorem Step.guarded (h : Step s a s') (hgood : Covered s a) (hs : Guarded s) : Guarded s' := by
  obtain ⟨hlost, hrefused, hswapped⟩ := hs
  cases h with
  | enter | take | turn | run | handOver | enqueue | drop | detach | join | destroy | done
  | flush => constructor <;> grind -linarith
  | @refuse c ho i todo hc hr ht hexit =>
      have hfin : i.fin = true := by
        rcases hgood ho hc hr i (by rw [ht]; rfl) with hfin | hopen
        · exact hfin
        · rw [hexit] at hopen
          cases hopen
      constructor <;> grind -linarith
  | @stop k me active hk hme =>
      have hall : ∀ i ∈ s.pool.queue, i.fin = true := hgood
      constructor <;> grind -linarith

/-- Some call of `stop()` has returned. -/
def Returned (s : Sys) : Prop := ∃ k st, s.stop k = some st ∧ st.returned = true

/-- Nothing is held by a worker, by a call of `stop()`, or in a coroutine queue other than
that of a hand-over. -/
structure Quiet (s : Sys) : Prop where
  workers : ∀ w wk i, s.worker w = some wk → wk.stage ≠ .took i
  stops : ∀ k st, s.stop k = some st → st.q = []
  ready_worker : ∀ w, s.ready (.worker w) = []
  ready_stop : ∀ k, s.ready (.stop k) = []

theorem Quiet.not_mem_worker (hs : Quiet s) (t w : Nat) : t ∉ s.handlesAt (.worker w) := by
  rw [handlesAt]
  cases hw : s.worker w with
  | none => exact List.not_mem_nil
  | some wk =>
      cases hstage : wk.stage with
      | took i => exact absurd hstage (hs.workers w wk i hw)
      | _ => simp [heldByWorker, hstage]

theorem Quiet.not_mem_stop (hs : Quiet s) (t k : Nat) : t ∉ s.handlesAt (.stop k) := by
  rw [handlesAt]
  cases hk : s.stop k with
  | none => exact List.not_mem_nil
  | some st => simp [heldByStop, hs.stops k st hk]

/-- A quiet pool that is stopped stays quiet. -/
theorem Step.quiet (h : Step s a s') (hx : ExitFacts s) (hexit : s.pool.exit = true)
    (hs : Quiet s) : Quiet s' := by
  obtain ⟨hworkers, hstops, hready, hreadyStop⟩ := hs
  have hqueue := hx.queue_nil hexit
  cases h <;> constructor <;> grind -linarith

/-- When a call of `stop()` returns alone, the pool is quiet. -/
theorem quiet_of_alone {k : Nat} {st : Stop} (hk : s.stop k = some st) (ht : st.tmp = [])
    (hq : st.q = []) (hs : Placed s) (halone : Alone s k) : Quiet s := by
  have hexit : s.pool.exit = true := hs.exitFacts.stop k st hk
  refine ⟨fun w wk i hw htook => ?_, fun j sj hj => ?_, halone.ready_worker, halone.ready_stop⟩
  · by_cases hown : wk.own = true
    · -- one of the pool's own threads: this call has joined it
      obtain ⟨j, sj, hj, hmem⟩ := hs.ownFacts.pending hexit w wk i hw hown htook
      by_cases hjk : j = k
      · rw [hjk, hk] at hj
        cases hj
        rw [ht] at hmem
        cases hmem
      · exact halone.joins j sj hj hjk w hmem wk i hw htook
    · exact halone.workers w wk i hw (by simpa using hown) htook
  · by_cases hjk : j = k
    · rw [hjk, hk] at hj
      cases hj
      exact hq
    · exact halone.swapped j sj hj hjk

/-! ## Exactly once -/

/-- The invariant of runs that leave no coroutine behind. -/
structure Inv (s : Sys) : Prop where
  placed : Placed s
  guarded : Guarded s
  quiet : Returned s → Quiet s

/-- The pool is quiet from the first return of `stop()` on. -/
theorem Inv.quiet_step (hs : Inv s) (hgood : Covered s a) (h : Step s a s')
    (hret : Returned s') : Quiet s' := by
  by_cases hret₀ : Returned s
  · have hquiet := hs.quiet hret₀
    obtain ⟨k, st, hk, -⟩ := hret₀
    exact h.quiet hs.placed.exitFacts (hs.placed.exitFacts.stop k st hk) hquiet
  · -- this is the step by which the first call returns
    have hno : ∀ k st, s.stop k = some st → st.returned = false := by
      intro k st hk
      by_contra hne
      exact hret₀ ⟨k, st, hk, by simpa using hne⟩
    obtain ⟨k, st, hk, hr⟩ := hret
    cases h with
    | @done j sj hj hretj htj hqj =>
        have hquiet : Quiet s := quiet_of_alone hj htj hqj hs.placed (hgood sj hj hretj htj hqj)
        have hexit := hs.placed.exitFacts.stop j sj hj
        exact (Step.done hj hretj htj hqj).quiet hs.placed.exitFacts hexit hquiet
    | enter | take | turn | run | handOver | enqueue | refuse | drop | stop | detach | join
    | destroy | flush => grind -linarith

theorem inv_init (threads : Nat) : Inv (init threads) := by
  refine ⟨placed_init threads, ?_, ?_⟩
  · exact ⟨rfl, fun _ _ _ hc => (by cases hc), fun _ _ hk => (by cases hk)⟩
  · rintro ⟨k, st, hk, -⟩
    cases hk

theorem inv_step (hs : Inv s) (hgood : Covered s a) (h : step s a = some s') : Inv s' :=
  have hstep := step_cases h
  ⟨hs.placed.step hstep, hstep.guarded hgood hs.guarded, hs.quiet_step hgood hstep⟩

/-- The hand-over of a coroutine is not over: the thread that hands it over has yet to
enqueue it, or, when it was refused, to go on with it. -/
def HandingOver (s : Sys) (t : Nat) : Prop :=
  ∃ c, t ∈ s.handlesAt (.handOver c) ∨ t ∈ s.handlesAt (.ready (.handOver c))

/-- The coroutine `t` lies in the coroutine queue of a thread that works for an open pool, or
gets there next: it is resumed when the pool is stopped. -/
def Lingers (s : Sys) (t : Nat) : Prop :=
  s.pool.exit = false ∧ ∃ w wk, s.worker w = some wk ∧ wk.active = true ∧
    (t ∈ s.handlesAt (.worker w) ∨ t ∈ s.handlesAt (.ready (.worker w)))

/-- A stopped pool is to refuse a closure of `t` that has no deleter. -/
def Doomed (s : Sys) (t : Nat) : Prop :=
  s.pool.exit = true ∧ ∃ c ho, s.handOver c = some ho ∧ ∃ i ∈ ho.todo, i.handle = t ∧ i.fin = false

/-- A pool that is not stopped has a worker with no coroutine queue around it. -/
def Manned (s : Sys) : Prop :=
  s.pool.exit = false → ∃ w wk, s.worker w = some wk ∧ wk.active = false

/-- Every coroutine handed over is resumed exactly once.  None is resumed twice, only a
worker or a stopped pool resumes one, each is kept at one spot until it is resumed, the
threads that are on their way come to resume it, and after a call of `stop()` has returned
every one has been resumed, except for those whose hand-over is not over. -/
structure ResumedOnce (s : Sys) : Prop where
  once : ∀ t, (s.resumed.map Prod.fst).count t ≤ 1
  canceled : ∀ x ∈ s.resumed, (∃ w, x.2 = .worker w) ∨ s.pool.exit = true
  kept : ∀ t ∈ s.handed, ∃ p, p ≠ .lost ∧ t ∈ s.handlesAt p ∧ ∀ q, t ∈ s.handlesAt q → q = p
  progress : Manned s → ∀ t ∈ s.handed, ¬ Lingers s t → ¬ Doomed s t →
    Run.Leads step GoesOn s fun s' => t ∈ s'.resumed.map Prod.fst
  stopped : Returned s → ∀ t ∈ s.handed, ¬ HandingOver s t →
    (s.resumed.map Prod.fst).count t = 1

/-- Around an open pool, a worker comes to resume each coroutine. -/
theorem Inv.leads_open (hs : Inv s) (hexit : s.pool.exit = false) (hmanned : Manned s) {t : Nat}
    (ht : t ∈ s.handed) (hlinger : ¬ Lingers s t) :
    Run.Leads step GoesOn s fun s' => t ∈ s'.resumed.map Prod.fst := by
  have hkept : Kept s t := (hs.placed.kept_iff ht).mpr (.inr hexit)
  have hattended : Attended none s t := by
    refine ⟨fun _ => ?_, fun w hw => ⟨by simp, fun wk hwk hactive => ?_⟩, fun _ _ => by simp⟩
    · obtain ⟨w, wk, hw⟩ := hmanned hexit
      exact ⟨w, wk, by simp, hw⟩
    · exact absurd ⟨hexit, w, wk, hwk, hactive, hw⟩ hlinger
  have hcomes := hs.placed.comes_iff.mpr ⟨hkept, hattended⟩
  refine (hcomes.leads hs.placed).mono (fun a ha => ha.goesOn) ?_
  rintro s' ⟨w, -, hres⟩
  exact List.mem_map_of_mem hres

/-- Around a stopped pool, each coroutine is with an agent, who comes to resume it. -/
theorem Inv.leads_stopped (hs : Inv s) (hexit : s.pool.exit = true) {t : Nat} (ht : t ∈ s.handed)
    (hdoomed : ¬ Doomed s t) :
    Run.Leads step GoesOn s fun s' => t ∈ s'.resumed.map Prod.fst := by
  have hclosing : ∀ d, With s d t → (∀ i ∈ itemsOf s d, i.handle = t → i.fin = true) →
      Run.Leads step GoesOn s fun s' => t ∈ s'.resumed.map Prod.fst := by
    intro d hwith hdel
    have hclosing : Closing d t s := ⟨hs.placed, hexit, hwith, hdel⟩
    exact hclosing.leads.mono (fun _ => id) fun s' hres => List.mem_map_of_mem hres
  have hhas : ∀ d, ∀ i ∈ itemsOf s d, i.handle = t → i.fin = true := by
    intro d i hi hit
    cases d with
    | worker w => cases hi
    | handOver c =>
        cases hc : s.handOver c with
        | none => simp [itemsOf, hc] at hi
        | some ho =>
            simp only [itemsOf, hc, Option.elim_some, List.mem_append, Option.mem_toList] at hi
            rcases hi with hi | hi
            · exact hs.guarded.refused c ho i hc hi
            · by_contra hfin
              exact hdoomed ⟨hexit, c, ho, hc, i, hi, hit, by simpa using hfin⟩
    | stop k =>
        cases hk : s.stop k with
        | none => simp [itemsOf, hk] at hi
        | some st =>
            simp only [itemsOf, hk, Option.elim_some] at hi
            exact hs.guarded.swapped k st hk i hi
  obtain ⟨p, hp⟩ := (hs.placed.arranged.mem_iff t).mp ht
  cases p with
  | queue =>
      rw [handlesAt, hs.placed.exitFacts.queue_nil hexit] at hp
      cases hp
  | worker w => exact hclosing (.worker w) (.inl hp) (hhas _)
  | handOver c => exact hclosing (.handOver c) (.inl hp) (hhas _)
  | stop k => exact hclosing (.stop k) (.inl hp) (hhas _)
  | ready d => exact hclosing d (.inr (.inl hp)) (hhas _)
  | resumed => exact .here hp
  | lost =>
      rw [handlesAt, hs.guarded.lost_nil] at hp
      cases hp

theorem Inv.resumedOnce (hs : Inv s) : ResumedOnce s := by
  have hs' := hs.placed
  have hnodup : (s.resumed.map Prod.fst).Nodup := hs'.arranged.exclusive.nodup .resumed
  have hlost : ∀ t, t ∉ s.handlesAt .lost := fun t ht => by
    rw [handlesAt, hs.guarded.lost_nil] at ht
    cases ht
  refine ⟨fun t => List.nodup_iff_count_le_one.mp hnodup t, hs'.exitFacts.resumed, fun t ht => ?_,
    fun hmanned t ht hlinger hdoomed => ?_, fun hret t ht hnot => ?_⟩
  · obtain ⟨p, hp⟩ := (hs'.arranged.mem_iff t).mp ht
    refine ⟨p, ?_, hp, fun q hq => hs'.arranged.exclusive.unique q p t hq hp⟩
    rintro rfl
    exact hlost t hp
  · by_cases hexit : s.pool.exit = true
    · exact hs.leads_stopped hexit ht hdoomed
    · exact hs.leads_open (by simpa using hexit) hmanned ht hlinger
  · have hquiet := hs.quiet hret
    obtain ⟨k, st, hk, -⟩ := hret
    obtain ⟨p, hp⟩ := (hs'.arranged.mem_iff t).mp ht
    cases p with
    | queue =>
        rw [handlesAt, hs'.exitFacts.queue_nil (hs'.exitFacts.stop k st hk)] at hp
        cases hp
    | worker w => exact absurd hp (hquiet.not_mem_worker t w)
    | handOver c => exact absurd ⟨c, .inl hp⟩ hnot
    | stop j => exact absurd hp (hquiet.not_mem_stop t j)
    | ready b =>
        cases b with
        | worker w =>
            rw [handlesAt, hquiet.ready_worker w] at hp
            cases hp
        | handOver c => exact absurd ⟨c, .inr hp⟩ hnot
        | stop j =>
            rw [handlesAt, hquiet.ready_stop j] at hp
            cases hp
    | resumed => exact List.count_eq_one_of_mem hnodup hp
    | lost => exact absurd hp (hlost t)

/-- **Exactly once**: in every run whose steps leave no coroutine behind, every
coroutine handed over is resumed exactly once. -/
theorem resumedOnce_exec (threads : Nat) {as : List Action}
    (h : Run.Meets step Covered (init threads) as) :
    ResumedOnce (Run.exec step (init threads) as) :=
  (Run.exec_inv_of_meets (fun _ _ _ hs hgood hstep => inv_step hs hgood hstep)
    (inv_init threads) h).resumedOnce

/-- The only thread of the pool leaves, `stop()` returns, and a coroutine is handed over
after that by `resume`. -/
def resumedAfterStop : List Action :=
  [.stop 0 none false, .worker 0, .goOnStop 0, .goOnStop 0, .handOver 0 (.resume [7]) false,
    .goOn 0, .goOn 0]

/-- `enqueue` drops the closure, and the coroutine is never resumed. -/
theorem resumedOnce_fails : ¬ ResumedOnce (Run.exec step (init 1) resumedAfterStop) := by
  intro h
  have hlost : 7 ∈ (Run.exec step (init 1) resumedAfterStop).handlesAt .lost :=
    List.mem_singleton_self 7
  obtain ⟨p, hne, -, hunique⟩ := h.kept 7 (List.mem_singleton_self 7)
  exact hne (hunique .lost hlost).symm

/-- A worker takes a closure of `resume` and runs it; the closure of a `co_await` is still
in the queue when the pool is stopped; another `co_await` comes too late. -/
def canceledByStop : List Action :=
  [.handOver 0 (.resume [7]) false, .goOn 0, .worker 0, .handOver 1 (.coAwait 8) true, .goOn 1,
    .worker 0, .stop 0 none false, .worker 0, .worker 0, .goOnStop 0, .goOnStop 0, .goOnStop 0,
    .handOver 2 (.coAwait 9) true, .goOn 2, .goOn 2, .flush (.handOver 2)]

/-- The first coroutine is resumed by the worker, the second one by `stop()`, the third one
by the thread that handed it over. -/
theorem resumedOnce_canceledByStop : ResumedOnce (Run.exec step (init 1) canceledByStop) := by
  refine resumedOnce_exec 1 ⟨fun _ => ?_, fun _ => ?_, fun _ => ?_, fun _ => ?_, fun _ => ?_,
    fun _ => ?_, fun _ => ?_, fun _ => ?_, fun _ => ?_, fun _ => ?_, fun _ => ?_, fun _ => ?_,
    fun _ => ?_, fun _ => ?_, fun _ => ?_, fun _ => ?_, trivial⟩
  · trivial
  · exact fun _ _ _ _ _ => .inr rfl
  · trivial
  · trivial
  · exact fun _ _ _ _ _ => .inr rfl
  · trivial
  · intro i hi
    rw [List.mem_singleton.mp hi]
  · trivial
  · trivial
  · intro st hst _ htmp
    cases hst
    cases htmp
  · intro st hst _ _ hq
    cases hst
    cases hq
  · intro st _ _ _ _
    refine ⟨fun j sj hj hne => ?_, fun j sj hj hne => ?_, fun w wk i hw hown => ?_,
      fun _ => rfl, fun _ => rfl⟩
    · cases j with
      | zero => exact absurd rfl hne
      | succ j => cases hj
    · cases j with
      | zero => exact absurd rfl hne
      | succ j => cases hj
    · cases w with
      | zero =>
          cases hw
          cases hown
      | succ w => cases hw
  · trivial
  · intro ho hho _ i hi
    cases hho
    cases hi
    exact .inl rfl
  · intro ho hho hrefused
    cases hho
    cases hrefused
  · trivial

end Sys

end ThreadPool

end Cocls
