import Cocls.ThreadPool.Runs

/-!
# Cocls.ThreadPool.Resolved

Every future of `pool.run` is resolved once, with what its function comes to.

The pool resumes a closure where the worker calls its function or where the closure
is destroyed, and it does so once for each (`Plain.resumed`).  So the promises that
were claimed are those of the closures that were resumed, less the functions that
workers are in.
-/

namespace Cocls

namespace ThreadPool

namespace Runs

open Sys (ExitFacts Placed Step)

variable {T E : Type*} {s s' : Runs T E}

/-! ## The pool -/

section Pool

variable {p p' : Sys} {a : ThreadPool.Action}

/-- Everything in the pool comes from `run`. -/
structure Plain (p : Sys) : Prop where
  queue : ∀ q ∈ p.pool.queue, q.fin = true
  worker : ∀ w wk, p.worker w = some wk → wk.active = false ∧
    (∀ q, wk.stage = .took q → q.fin = true) ∧ (wk.current = false → p.pool.exit = true)
  handOver : ∀ i ho, p.handOver i = some ho → ho.active = false ∧
    ho.refused.toList ++ ho.todo <+: [{ handle := i, fin := true }]
  stop : ∀ k st, p.stop k = some st → st.active = false ∧ ∀ q ∈ st.q, q.fin = true
  ready : ∀ b, p.ready b = []
  lost : p.lost = []

/-- The steps that a pool of functions makes. -/
def FromRun : ThreadPool.Action → Prop
  | .enter _ active | .stop _ _ active => active = false
  | .handOver i route active => route = .coAwait i ∧ active = false
  | .worker _ | .goOn _ | .goOnStop _ => True
  | .flush _ => False

theorem plain_init (threads : Nat) : Plain (Sys.init threads) := by
  constructor <;> grind -linarith [Sys.init]

theorem Plain.step (hp : Plain p) (ha : FromRun a) (h : Step p a p') (hx : ExitFacts p) :
    Plain p' := by
  obtain ⟨hqueue, hworker, hhandOver, hstop, hready, hlost⟩ := hp
  cases h with
  | enter | take | turn | run | enqueue | refuse | drop | stop | join | destroy | done =>
      constructor <;> grind -linarith [FromRun]
  | @handOver c route active hc hnd hnew =>
      obtain ⟨rfl, rfl⟩ := ha
      constructor <;> grind -linarith [Route.items, List.prefix_refl]
  | @detach k w st tmp wk hk hret ht hme hw =>
      have hexit := hx.stop k st hk
      constructor <;> grind -linarith
  | flush => exact ha.elim

/-- A closure that is called or destroyed is resumed, as far as the pool knows. -/
theorem Plain.resumed (hp : Plain p) (h : Step p a p') (ha : FromRun a) :
    (∃ w wk q, a = .worker w ∧ p.worker w = some wk ∧ wk.stage = .took q ∧
        p'.resumed = p.resumed ++ [(q.handle, .worker w)]) ∨
      (∃ i ho q, a = .goOn i ∧ p.handOver i = some ho ∧ ho.refused = some q ∧
        p'.resumed = p.resumed ++ [(q.handle, .handOver i)]) ∨
      (∃ k st q, a = .goOnStop k ∧ p.stop k = some st ∧ st.tmp = [] ∧ st.q.head? = some q ∧
        p'.resumed = p.resumed ++ [(q.handle, .stop k)]) ∨
      (p'.resumed = p.resumed ∧
        (∀ w wk q, a = .worker w → p.worker w = some wk → wk.stage ≠ .took q) ∧
        (∀ i ho, a = .goOn i → p.handOver i = some ho → ho.refused = none) ∧
        (∀ k st, a = .goOnStop k → p.stop k = some st → st.tmp = [] → st.q = [])) := by
  obtain ⟨hqueue, hworker, hhandOver, hstop, hready, hlost⟩ := hp
  cases h with
  | enter | handOver | stop => exact .inr (.inr (.inr ⟨rfl, by simp, by simp, by simp⟩))
  | take | turn | enqueue | refuse | detach | join | done =>
      refine .inr (.inr (.inr ⟨rfl, ?_, ?_, ?_⟩)) <;> grind -linarith
  | @run w wk q hw htook =>
      refine .inl ⟨w, wk, q, rfl, hw, htook, ?_⟩
      grind -linarith
  | @drop i ho q hc hr =>
      refine .inr (.inl ⟨i, ho, q, rfl, hc, hr, ?_⟩)
      have := hhandOver i ho hc
      grind -linarith
  | @destroy k st q qs hk hret ht hq =>
      refine .inr (.inr (.inl ⟨k, st, q, rfl, hk, ht, by rw [hq]; rfl, ?_⟩))
      have := hstop k st hk
      grind -linarith
  | flush => exact ha.elim

/-- A worker that is in its closure stays there until it goes on itself. -/
theorem running_of_step (h : Step p a p') {w : Nat}
    (hw : (p.worker w).map Worker.stage = some .running) (ha : a ≠ .worker w) :
    (p'.worker w).map Worker.stage = some .running := by
  cases h <;> grind -linarith

end Pool

/-! ## The invariant -/

/-- The promise of call `i` was claimed. -/
def Claimed (s : Runs T E) (i : Nat) : Prop := i ∈ s.orphaned ∨ i ∈ s.resolved.map Prod.fst

/-- The call of the promise claims it, and resolves the future unless it throws. -/
theorem settle_cases (s : Runs T E) (i : Nat) (x : Except E T) (throws : Bool) :
    s.settle i x throws = s.resolve i (promiseArg x) ∨
      ∃ v, x = .ok v ∧ s.settle i x throws = { s with orphaned := s.orphaned ++ [i] } := by
  cases x with
  | error e => exact .inl rfl
  | ok v =>
      cases throws with
      | false => exact .inl rfl
      | true => exact .inr ⟨v, rfl, rfl⟩

/-- To store what the function came to does not throw. -/
theorem finish_false (s : Runs T E) (w i : Nat) (x : Except E T) : s.finish w i x false =
    { s.resolve i (promiseArg x) with
      inside := Function.update s.inside w none
      ended := s.ended ++ [(i, x)] } := by
  cases x <;> rfl

/-- The closures that the pool let go, and their futures. -/
structure Inv (s : Runs T E) : Prop where
  placed : Placed s.sys
  plain : Plain s.sys
  inside : ∀ w i, s.inside w = some i → (i, Agent.worker w) ∈ s.sys.resumed ∧
    ¬ s.Claimed i ∧ (s.sys.worker w).map Worker.stage = some .running
  settled : ∀ i, i ∈ s.sys.resumed.map Prod.fst ↔ s.Claimed i ∨ ∃ w, s.inside w = some i
  once : (s.resolved.map Prod.fst).Nodup
  called : ∀ i, i ∈ s.called ↔ ∃ w, (i, Agent.worker w) ∈ s.sys.resumed
  calledOnce : s.called.Nodup
  outcome : ∀ i r, (i, r) ∈ s.resolved →
    (∃ x, r = promiseArg x ∧ (i, x) ∈ s.ended ∧ i ∈ s.called) ∨
      (r = .drop ∧ i ∉ s.called ∧ s.sys.pool.exit = true)
  ended : ∀ i x, (i, x) ∈ s.ended → (i, promiseArg x) ∈ s.resolved ∨ i ∈ s.orphaned
  orphaned : ∀ i ∈ s.orphaned, i ∉ s.resolved.map Prod.fst ∧ ∃ v, (i, .ok v) ∈ s.ended

theorem inv_init (threads : Nat) : Inv (init threads : Runs T E) where
  placed := Sys.placed_init threads
  plain := plain_init threads
  inside w i h := by cases h
  settled i := by simp [init, Sys.init, Claimed]
  once := List.nodup_nil
  called i := by simp [init, Sys.init]
  calledOnce := List.nodup_nil
  outcome i r h := by cases h
  ended i x h := by cases h
  orphaned i h := by cases h

namespace Inv

variable {p : Sys} {a : ThreadPool.Action} {w i : Nat} {q : QItem}

/-- A function is called by one worker, and a future belongs to one party. -/
theorem resumed_unique (hi : Inv s) {b c : Agent} (hb : (i, b) ∈ s.sys.resumed)
    (hc : (i, c) ∈ s.sys.resumed) : b = c := by
  have hnd : (s.sys.resumed.map Prod.fst).Nodup := hi.placed.arranged.exclusive.nodup .resumed
  exact congrArg Prod.snd (List.inj_on_of_nodup_map hnd hb hc rfl)

/-- The pool takes a step. -/
structure Goes (s : Runs T E) (a : ThreadPool.Action) (p : Sys) : Prop where
  placed : Placed p
  plain : Plain p
  exit : s.sys.pool.exit = true → p.pool.exit = true
  step : Step s.sys a p

theorem goes (hi : Inv s) (h : s.sys.step a = some p) (ha : FromRun a) : Goes s a p := by
  have hstep := Sys.step_cases h
  exact ⟨hi.placed.step hstep, hi.plain.step ha hstep hi.placed.exitFacts, hstep.exit_of_exit,
    hstep⟩

/-- A step that calls no closure and destroys none. -/
theorem quiet (hi : Inv s) (hg : Goes s a p) (ha : ∀ w, a = .worker w → s.inside w = none)
    (hr : p.resumed = s.sys.resumed) : Inv { s with sys := p } := by
  obtain ⟨-, -, hinside, hsettled, honce, hcalled, hcalledOnce, houtcome, hended, horphaned⟩ := hi
  refine ⟨hg.placed, hg.plain, fun w i hw => ?_, ?_, honce, ?_, hcalledOnce, fun i r hir => ?_,
    hended, horphaned⟩
  · obtain ⟨hmem, hnot, hrun⟩ := hinside w i hw
    refine ⟨by rwa [hr], hnot, running_of_step hg.step hrun ?_⟩
    rintro rfl
    rw [ha w rfl] at hw
    cases hw
  · simpa only [hr, Claimed] using hsettled
  · simpa only [hr] using hcalled
  · exact (houtcome i r hir).imp_right fun h => ⟨h.1, h.2.1, hg.exit h.2.2⟩

/-- The promise of a closure that the pool lets go was not claimed, nor its function called. -/
theorem fresh (hi : Inv s) (hg : Goes s a p) {b : Agent}
    (hr : p.resumed = s.sys.resumed ++ [(q.handle, b)]) :
    q.handle ∉ s.sys.resumed.map Prod.fst ∧ ¬ s.Claimed q.handle ∧ q.handle ∉ s.called := by
  have hnd : (p.resumed.map Prod.fst).Nodup := hg.placed.arranged.exclusive.nodup .resumed
  rw [hr, List.map_append, List.nodup_append'] at hnd
  have hfresh : q.handle ∉ s.sys.resumed.map Prod.fst := fun hm => hnd.2.2 hm (by simp)
  refine ⟨hfresh, fun hm => hfresh ((hi.settled q.handle).mpr (.inl hm)), fun hm => ?_⟩
  obtain ⟨v, hv⟩ := (hi.called q.handle).mp hm
  exact hfresh (List.mem_map.mpr ⟨_, hv, rfl⟩)

/-- A worker calls the function of the closure that it took. -/
theorem call (hi : Inv s) (hg : Goes s (.worker w) p) (hw : s.inside w = none)
    (hr : p.resumed = s.sys.resumed ++ [(q.handle, .worker w)])
    (hrun : (p.worker w).map Worker.stage = some .running) :
    Inv (({ s with sys := p } : Runs T E).call w q) := by
  obtain ⟨hfresh, hres, hnew⟩ := hi.fresh hg hr
  obtain ⟨-, -, hinside, hsettled, honce, hcalled, hcalledOnce, houtcome, hended, horphaned⟩ := hi
  refine ⟨hg.placed, hg.plain, fun v i hv => ?_, fun i => ?_, honce, fun i => ?_, ?_,
    fun i r hir => ?_, hended, horphaned⟩
  · simp only [Runs.call, Function.update_apply] at hv ⊢
    by_cases hvw : v = w
    · subst hvw
      obtain rfl : q.handle = i := by simpa using hv
      exact ⟨by simp [hr], hres, hrun⟩
    · obtain ⟨hmem, hnot, hrun'⟩ := hinside v i (by simpa [hvw] using hv)
      exact ⟨by simp [hr, hmem], hnot, running_of_step hg.step hrun' (by simp [Ne.symm hvw])⟩
  · have hi := hsettled i
    simp only [Claimed, Runs.call, hr, List.map_append, List.mem_append, List.map_cons,
      List.map_nil, List.mem_singleton, Function.update_apply] at hi ⊢
    rw [hi]
    constructor
    · rintro ((hres | ⟨v, hv⟩) | rfl)
      · exact .inl hres
      · exact .inr ⟨v, by grind -linarith⟩
      · exact .inr ⟨w, if_pos rfl⟩
    · rintro (hres | ⟨v, hv⟩)
      · exact .inl (.inl hres)
      · by_cases hvw : v = w
        · exact .inr (by simpa [hvw, eq_comm] using hv)
        · exact .inl (.inr ⟨v, by simpa [hvw] using hv⟩)
  · simp only [Runs.call, hr, List.mem_append, List.mem_singleton, hcalled]
    constructor
    · rintro (⟨v, hv⟩ | rfl)
      · exact ⟨v, .inl hv⟩
      · exact ⟨w, .inr rfl⟩
    · rintro ⟨v, hv | hv⟩
      · exact .inl ⟨v, hv⟩
      · exact .inr (congrArg Prod.fst hv)
  · exact List.nodup_append'.mpr ⟨hcalledOnce, List.nodup_singleton _, by simpa using hnew⟩
  · have hne : i ≠ q.handle := fun h => hres (.inr (h ▸ List.mem_map.mpr ⟨_, hir, rfl⟩))
    simp only [Runs.call, List.mem_append, List.mem_singleton]
    obtain ⟨x, hx, hmem, hc⟩ | ⟨hdrop, hc, hexit⟩ := houtcome i r hir
    · exact .inl ⟨x, hx, hmem, .inl hc⟩
    · exact .inr ⟨hdrop, by simp [hc, hne], hg.exit hexit⟩

/-- A closure is destroyed that was not called: the future gets nothing. -/
theorem drop (hi : Inv s) (hg : Goes s a p) (ha : ∀ w, a ≠ .worker w) {b : Agent}
    (hb : ∀ w, b ≠ .worker w) (hr : p.resumed = s.sys.resumed ++ [(q.handle, b)])
    (hexit : p.pool.exit = true) : Inv (({ s with sys := p } : Runs T E).drop (some q)) := by
  obtain ⟨hfresh, hres, hnew⟩ := hi.fresh hg hr
  obtain ⟨-, -, hinside, hsettled, honce, hcalled, hcalledOnce, houtcome, hended, horphaned⟩ := hi
  refine ⟨hg.placed, hg.plain, fun v i hv => ?_, fun i => ?_, ?_, fun i => ?_, hcalledOnce,
    fun i r hir => ?_, fun i x hx => ?_, fun i ho => ?_⟩
  · obtain ⟨hmem, hnot, hrun⟩ := hinside v i hv
    have hne : i ≠ q.handle := fun h => hfresh (h ▸ List.mem_map.mpr ⟨_, hmem, rfl⟩)
    refine ⟨by simp [Runs.drop, resolve, hr, hmem], ?_, running_of_step hg.step hrun (ha v)⟩
    simpa [Claimed, Runs.drop, resolve, hne] using hnot
  · have hi := hsettled i
    simp only [Claimed, Runs.drop, resolve, hr, List.map_append, List.mem_append, List.map_cons,
      List.map_nil, List.mem_singleton] at hi ⊢
    rw [hi]
    tauto
  · simp only [Runs.drop, resolve, List.map_append, List.map_cons, List.map_nil]
    refine List.nodup_append'.mpr ⟨honce, List.nodup_singleton _, ?_⟩
    simpa using fun x hx => hres (.inr (List.mem_map.mpr ⟨_, hx, rfl⟩))
  · simp only [Runs.drop, resolve, hr, hcalled, List.mem_append, List.mem_singleton]
    constructor
    · rintro ⟨v, hv⟩
      exact ⟨v, .inl hv⟩
    · rintro ⟨v, hv | hv⟩
      · exact ⟨v, hv⟩
      · exact absurd (congrArg Prod.snd hv).symm (hb v)
  · simp only [Runs.drop, resolve, List.mem_append, List.mem_singleton] at hir ⊢
    obtain hir | hir := hir
    · exact (houtcome i r hir).imp_right fun h => ⟨h.1, h.2.1, hg.exit h.2.2⟩
    · obtain ⟨rfl, rfl⟩ := Prod.mk.inj hir
      exact .inr ⟨rfl, hnew, hexit⟩
  · exact (hended i x hx).imp_left (List.mem_append_left _)
  · have hne : i ≠ q.handle := fun h => hres (.inl (h ▸ ho))
    refine ⟨?_, (horphaned i ho).2⟩
    simpa [Runs.drop, resolve, hne] using (horphaned i ho).1

/-- The function that a worker is in is over. -/
theorem finish (hi : Inv s) (hw : s.inside w = some i) (x : Except E T) (throws : Bool) :
    Inv (s.finish w i x throws) := by
  have hone : ∀ v, s.inside v = some i → v = w := fun v hv => by
    simpa using hi.resumed_unique (hi.inside v i hv).1 (hi.inside w i hw).1
  obtain ⟨hplaced, hplain, hinside, hsettled, honce, hcalled, hcalledOnce, houtcome, hended,
    horphaned⟩ := hi
  obtain ⟨hmem, hnot, -⟩ := hinside w i hw
  have hsame : (s.finish w i x throws).sys = s.sys ∧ (s.finish w i x throws).called = s.called := by
    obtain h | ⟨v, -, h⟩ := settle_cases s i x throws <;> simp [Runs.finish, h, resolve]
  -- the call claims the promise, and resolves the future or leaves it orphaned
  have hclaimed : ∀ j, (s.finish w i x throws).Claimed j ↔ s.Claimed j ∨ j = i := fun j => by
    obtain h | ⟨v, -, h⟩ := settle_cases s i x throws <;>
      simp [Claimed, Runs.finish, h, resolve, or_assoc, or_comm, or_left_comm]
  have hlogs : (s.finish w i x throws).resolved = s.resolved ++ [(i, promiseArg x)] ∧
        (s.finish w i x throws).orphaned = s.orphaned ∨
      (∃ v, x = .ok v) ∧ (s.finish w i x throws).resolved = s.resolved ∧
        (s.finish w i x throws).orphaned = s.orphaned ++ [i] := by
    obtain h | ⟨v, hv, h⟩ := settle_cases s i x throws
    · exact .inl (by simp [Runs.finish, h, resolve])
    · exact .inr ⟨⟨v, hv⟩, by simp [Runs.finish, h]⟩
  have hmore : ∀ j y, (j, y) ∈ s.ended → (j, y) ∈ (s.finish w i x throws).ended :=
    fun j y h => List.mem_append_left _ h
  have hnew : (i, x) ∈ (s.finish w i x throws).ended := by simp [Runs.finish]
  have hcalled' : i ∈ s.called := (hcalled i).mpr ⟨w, hmem⟩
  refine ⟨by rwa [hsame.1], by rwa [hsame.1], fun v j hv => ?_, fun j => ?_, ?_, ?_,
    by rwa [hsame.2], fun j r hjr => ?_, fun j y hy => ?_, fun j hj => ?_⟩
  · have hvw : v ≠ w ∧ s.inside v = some j := by
      by_cases hvw : v = w <;> simp_all [Runs.finish]
    obtain ⟨hmem', hnot', hrun⟩ := hinside v j hvw.2
    rw [hsame.1, hclaimed]
    refine ⟨hmem', ?_, hrun⟩
    rintro (h | rfl)
    · exact hnot' h
    · exact hvw.1 (hone v hvw.2)
  · rw [hsame.1, hclaimed, hsettled]
    constructor
    · rintro (h | ⟨v, hv⟩)
      · exact .inl (.inl h)
      · by_cases hvw : v = w
        · rw [hvw, hw] at hv
          exact .inl (.inr (Option.some.inj hv).symm)
        · exact .inr ⟨v, by simpa [Runs.finish, hvw] using hv⟩
    · rintro ((h | rfl) | ⟨v, hv⟩)
      · exact .inl h
      · exact .inr ⟨w, hw⟩
      · by_cases hvw : v = w
        · simp [Runs.finish, hvw] at hv
        · exact .inr ⟨v, by simpa [Runs.finish, hvw] using hv⟩
  · obtain ⟨hres, -⟩ | ⟨-, hres, -⟩ := hlogs
    · rw [hres, List.map_append]
      refine List.nodup_append'.mpr ⟨honce, List.nodup_singleton _, ?_⟩
      simpa using fun y hy => hnot (.inr (List.mem_map.mpr ⟨_, hy, rfl⟩))
    · rwa [hres]
  · simpa only [hsame] using hcalled
  · rw [hsame.1, hsame.2]
    have hjr : (j, r) ∈ s.resolved ∨ j = i ∧ r = promiseArg x := by
      obtain ⟨hres, -⟩ | ⟨-, hres, -⟩ := hlogs
      · simpa [hres] using hjr
      · exact .inl (by simpa [hres] using hjr)
    obtain hjr | ⟨rfl, rfl⟩ := hjr
    · exact (houtcome j r hjr).imp_left fun ⟨y, hy, hm, hc⟩ => ⟨y, hy, hmore j y hm, hc⟩
    · exact .inl ⟨x, rfl, hnew, hcalled'⟩
  · have hy : (j, y) ∈ s.ended ∨ j = i ∧ y = x := by simpa [Runs.finish] using hy
    obtain ⟨hres, horph⟩ | ⟨-, hres, horph⟩ := hlogs <;> rw [hres, horph]
    · obtain hy | ⟨rfl, rfl⟩ := hy
      · exact (hended j y hy).imp_left (List.mem_append_left _)
      · exact .inl (by simp)
    · obtain hy | ⟨rfl, rfl⟩ := hy
      · exact (hended j y hy).imp_right (List.mem_append_left _)
      · exact .inr (by simp)
  · obtain ⟨hres, horph⟩ | ⟨⟨v, rfl⟩, hres, horph⟩ := hlogs <;> rw [horph] at hj <;> rw [hres]
    · have hne : j ≠ i := fun h => hnot (.inl (h ▸ hj))
      obtain ⟨hno, v, hv⟩ := horphaned j hj
      exact ⟨by simpa [hne] using hno, v, hmore j _ hv⟩
    · obtain hj | hj := List.mem_append.mp hj
      · obtain ⟨hno, u, hu⟩ := horphaned j hj
        exact ⟨hno, u, hmore j _ hu⟩
      · obtain rfl := List.mem_singleton.mp hj
        exact ⟨fun h => hnot (.inr h), v, hnew⟩

theorem took_eq_some (hq : s.took w = some q) :
    ∃ wk, s.sys.worker w = some wk ∧ wk.stage = .took q := by
  obtain ⟨wk, hwk, hq⟩ := Option.bind_eq_some_iff.mp hq
  refine ⟨wk, hwk, ?_⟩
  cases hs : wk.stage <;> simp_all

theorem step {a : Action T E} (hi : Inv s) (h : Runs.step s a = some s') : Inv s' := by
  cases a with
  | enter w =>
      obtain ⟨p, hp, rfl⟩ := Option.map_eq_some_iff.mp h
      have hg := hi.goes hp rfl
      refine hi.quiet hg (by simp) ?_
      cases hg.step
      rfl
  | worker w =>
      simp only [Runs.step, Option.ite_none_right_eq_some] at h
      obtain ⟨hw, h⟩ := h
      cases hq : s.took w with
      | none =>
          simp only [hq] at h
          obtain ⟨p, hp, rfl⟩ := Option.map_eq_some_iff.mp h
          have hg := hi.goes hp trivial
          refine hi.quiet hg (fun v hv => by cases hv; exact hw) ?_
          obtain ⟨v, wk, q, hv, hwk, htook, -⟩ | ⟨i, ho, q, hv, -⟩ | ⟨k, st, q, hv, -⟩ | ⟨hr, -⟩ :=
            hi.plain.resumed hg.step trivial
          · cases hv
            simp [took, hwk, htook] at hq
          · cases hv
          · cases hv
          · exact hr
      | some q =>
          simp only [hq, ofSys, Option.map_map] at h
          obtain ⟨p, hp, rfl⟩ := Option.map_eq_some_iff.mp h
          have hg := hi.goes hp trivial
          obtain ⟨wk, hwk, htook⟩ := took_eq_some hq
          have hactive := (hi.plain.worker w wk hwk).1
          refine hi.call hg hw ?_ ?_
          · cases hg.step <;> grind -linarith
          · cases hg.step <;> grind -linarith
  | ends w r throws =>
      obtain ⟨i, hw, rfl⟩ := Option.map_eq_some_iff.mp h
      exact hi.finish hw r throws
  | run i =>
      obtain ⟨p, hp, rfl⟩ := Option.map_eq_some_iff.mp h
      have hg := hi.goes hp ⟨rfl, rfl⟩
      refine hi.quiet hg (by simp) ?_
      cases hg.step
      rfl
  | goOn i =>
      simp only [Runs.step, ofSys, Option.map_map] at h
      obtain ⟨p, hp, rfl⟩ := Option.map_eq_some_iff.mp h
      have hg := hi.goes hp trivial
      obtain ⟨v, wk, q, hv, -⟩ | ⟨j, ho, q, hv, hho, href, hr⟩ | ⟨k, st, q, hv, -⟩ |
        ⟨hr, -, href, -⟩ := hi.plain.resumed hg.step trivial
      · cases hv
      · cases hv
        have hq : s.refused i = some q := by simp [refused, hho, href]
        simp only [Function.comp_apply, hq]
        have hexit := hi.placed.exitFacts.refused i ho hho (by simp [href])
        exact hi.drop hg (by simp) (by simp) hr (hg.exit hexit)
      · cases hv
      · have hq : s.refused i = none := by
          cases hho : s.sys.handOver i with
          | none => simp [refused, hho]
          | some ho => simp [refused, hho, href i ho rfl hho]
        simp only [Function.comp_apply, hq]
        exact hi.quiet hg (by simp) hr
  | stop k me =>
      obtain ⟨p, hp, rfl⟩ := Option.map_eq_some_iff.mp h
      have hg := hi.goes hp rfl
      refine hi.quiet hg (by simp) ?_
      cases hg.step
      rfl
  | goOnStop k =>
      simp only [Runs.step, ofSys, Option.map_map] at h
      obtain ⟨p, hp, rfl⟩ := Option.map_eq_some_iff.mp h
      have hg := hi.goes hp trivial
      obtain ⟨v, wk, q, hv, -⟩ | ⟨j, ho, q, hv, -⟩ | ⟨j, st, q, hv, hst, htmp, hhead, hr⟩ |
        ⟨hr, -, -, hnext⟩ := hi.plain.resumed hg.step trivial
      · cases hv
      · cases hv
      · cases hv
        have hq : s.nextOfStop k = some q := by simp [nextOfStop, hst, htmp, hhead]
        simp only [Function.comp_apply, hq]
        exact hi.drop hg (by simp) (by simp) hr (hg.exit (hi.placed.exitFacts.stop k st hst))
      · have hq : s.nextOfStop k = none := by
          cases hst : s.sys.stop k with
          | none => simp [nextOfStop, hst]
          | some st =>
              simp only [nextOfStop, hst, Option.bind_some, ite_eq_right_iff]
              intro htmp
              rw [hnext k st rfl hst htmp]
              rfl
        simp only [Function.comp_apply, hq]
        exact hi.quiet hg (by simp) hr

/-! ## What an invariant state says of a future -/

theorem not_resumed_of_waits (hw : s.Waits i) : i ∉ s.sys.resumed.map Prod.fst := by
  obtain ⟨p, hp, -, -, -, hunique⟩ := hw
  exact fun hm => hp (hunique .resumed hm).symm

theorem pending (hi : Inv s) (hh : i ∈ s.sys.handed) (hres : i ∉ s.resolved.map Prod.fst) :
    (s.Waits i ∧ i ∉ s.called) ∨ (i ∈ s.called ∧ ∃ w, s.inside w = some i ∧
      ∀ v, s.inside v = some i → v = w) ∨ i ∈ s.orphaned := by
  obtain ⟨p, hp⟩ := (hi.placed.arranged.mem_iff i).mp hh
  by_cases hpr : p = .resumed
  · subst hpr
    rcases (hi.settled i).mp hp with hclaimed | ⟨w, hw⟩
    · exact .inr (.inr (hclaimed.resolve_right hres))
    · have hmem := (hi.inside w i hw).1
      refine .inr (.inl ⟨(hi.called i).mpr ⟨w, hmem⟩, w, hw, fun v hv => ?_⟩)
      simpa using hi.resumed_unique (hi.inside v i hv).1 hmem
  · have hwaits : s.Waits i := by
      refine ⟨p, hpr, ?_, ?_, hp, fun q hq => hi.placed.arranged.exclusive.unique q p i hq hp⟩
      · rintro rfl
        simp [Sys.handlesAt, hi.plain.lost] at hp
      · rintro b rfl
        simp [Sys.handlesAt, hi.plain.ready] at hp
    refine .inl ⟨hwaits, fun hc => ?_⟩
    obtain ⟨w, hw⟩ := (hi.called i).mp hc
    exact not_resumed_of_waits hwaits (List.mem_map.mpr ⟨_, hw, rfl⟩)

end Inv

/-! ## A worker gets to every closure -/

section Served

variable {w v i : Nat} {x : Except E T}

/-- Worker `w` is on its way to the closure of call `i`, or past it. -/
structure Serving (w i : Nat) (x : Except E T) (s : Runs T E) : Prop where
  inv : Inv s
  exit : s.sys.pool.exit = false
  worker : ∃ wk, s.sys.worker w = some wk ∧ wk.stage ≠ .gone
  here : i ∈ s.sys.pool.queue.map QItem.handle ∨ (s.took w).map QItem.handle = some i ∨
    s.inside w = some i ∨ (i, promiseArg x) ∈ s.resolved

/-- How far worker `w` is from its next closure. -/
def toGo (s : Runs T E) (w : Nat) : Nat :=
  match (s.sys.worker w).map Worker.stage with
  | some (.took _) => 3
  | some .running => if s.inside w = none then 1 else 2
  | _ => 0

/-- As long as the future is not resolved, the worker takes a step towards it: its own, or the end
of the function that it is in. -/
theorem Serving.step (hs : Serving w i x s) (hx : (i, promiseArg x) ∉ s.resolved) :
    ∃ a s', Brings w i x a ∧ Runs.step s a = some s' ∧ Serving w i x s' ∧
      4 * s'.sys.pool.queue.length + s'.toGo w < 4 * s.sys.pool.queue.length + s.toGo w := by
  obtain ⟨hinv, hexit, ⟨wk, hwk, hgone⟩, hhere⟩ := hs
  cases hin : s.inside w with
  | some j =>
      have hrun := (hinv.inside w j hin).2.2
      have hstep : Runs.step s (.ends w x false) = some (s.finish w j x false) := by
        simp [Runs.step, hin]
      have hinv' := hinv.step hstep
      rw [finish_false] at hstep hinv'
      refine ⟨_, _, .inr (.inl rfl), hstep, ⟨hinv', hexit, ⟨wk, hwk, hgone⟩, ?_⟩, ?_⟩
      · by_cases hj : j = i
        · exact .inr (.inr (.inr (by simp [resolve, hj])))
        · have htook : s.took w = none := by
            simp only [hwk, Option.map_some, Option.some.injEq] at hrun
            simp [took, hwk, hrun]
          rcases hhere with h | h | h | h
          · exact .inl h
          · simp [htook] at h
          · simp [hin, hj] at h
          · exact absurd h hx
      · simp [toGo, resolve, hrun, hin]
  | none =>
      cases hstage : wk.stage with
      | gone => exact absurd hstage hgone
      | took q =>
          have htook : s.took w = some q := by simp [took, hwk, hstage]
          have hactive := (hinv.plain.worker w wk hwk).1
          let wk' : Worker := { wk with stage := .running }
          let p := (s.sys.setWorker w wk').coroResume (.worker w) wk.active q.handle
          have hstep : Runs.step s (.worker w) =
              some (({ s with sys := p } : Runs T E).call w q) := by
            simp [Runs.step, hin, htook, ofSys, Sys.step, hwk, Sys.workerStep, hstage, p, wk']
          refine ⟨_, _, .inl rfl, hstep, ⟨hinv.step hstep, ?_, ⟨wk', ?_, by simp [wk']⟩, ?_⟩, ?_⟩
          · simpa [Runs.call, Sys.coroResume_pool, Sys.setWorker_pool, p] using hexit
          · simp [Runs.call, Sys.coroResume_worker, Sys.setWorker_worker, p]
          · simp only [Runs.call, Sys.coroResume_pool, Sys.setWorker_pool, Function.update_self, p]
            rcases hhere with h | h | h | h
            · exact .inl h
            · rw [htook] at h
              exact .inr (.inr (.inl h))
            · simp [hin] at h
            · exact absurd h hx
          · simp [toGo, Runs.call, Sys.coroResume_pool, Sys.setWorker_pool, Sys.coroResume_worker,
              Sys.setWorker_worker, hwk, hstage, p, wk']
      | running =>
          have hqueue : i ∈ s.sys.pool.queue.map QItem.handle := by
            rcases hhere with h | h | h | h
            · exact h
            · simp [took, hwk, hstage] at h
            · simp [hin] at h
            · exact absurd h hx
          have hcurrent : wk.current = true := by
            by_contra hc
            simp [(hinv.plain.worker w wk hwk).2.2 (by simpa using hc)] at hexit
          have hstep : Runs.step s (.worker w) = some
              { s with sys := s.sys.setWorker w { wk with stage := .idle } } := by
            simp [Runs.step, hin, took, hwk, hstage, ofSys, Sys.step, Sys.workerStep, hcurrent]
          refine ⟨_, _, .inl rfl, hstep, ⟨hinv.step hstep, hexit,
            ⟨{ wk with stage := .idle }, ?_, by simp⟩, .inl hqueue⟩, ?_⟩
          · simp [Sys.setWorker_worker]
          · simp [toGo, Sys.setWorker_pool, Sys.setWorker_worker, hwk, hstage, hin]
      | idle =>
          have hqueue : i ∈ s.sys.pool.queue.map QItem.handle := by
            rcases hhere with h | h | h | h
            · exact h
            · simp [took, hwk, hstage] at h
            · simp [hin] at h
            · exact absurd h hx
          obtain ⟨q, queue, hq⟩ : ∃ q queue, s.sys.pool.queue = q :: queue := by
            cases hq : s.sys.pool.queue with
            | nil => simp [hq] at hqueue
            | cons q queue => exact ⟨q, queue, rfl⟩
          have hstep : Runs.step s (.worker w) = some
              { s with sys := { s.sys.setWorker w { wk with stage := .took q } with
                  pool := { s.sys.pool with queue := queue } } } := by
            simp [Runs.step, hin, took, hwk, hstage, ofSys, Sys.step, Sys.workerStep,
              ThreadPool.next, hexit, hq]
          refine ⟨_, _, .inl rfl, hstep, ⟨hinv.step hstep, hexit,
            ⟨{ wk with stage := .took q }, ?_, by simp⟩, ?_⟩, ?_⟩
          · simp [Sys.setWorker_worker]
          · rw [hq, List.map_cons, List.mem_cons] at hqueue
            rcases hqueue with rfl | h
            · exact .inr (.inl (by simp [took, Sys.setWorker_worker]))
            · exact .inl h
          · simp [toGo, Sys.setWorker_worker, hwk, hstage, hq]
            omega

/-- Worker `w` comes to the closure, and calls its function. -/
theorem Serving.leads (hs : Serving w i x s) :
    Run.Leads Runs.step (Brings w i x) s fun s' => (i, promiseArg x) ∈ s'.resolved :=
  (Run.leads_of_measure (Serving w i x) (fun s => 4 * s.sys.pool.queue.length + s.toGo w)
    (fun _ h hx => h.step hx) hs).mono (fun _ => id) fun _ => And.right

/-- The function that a worker is in may come to anything. -/
theorem leads_ends (hv : s.inside v = some i) (x : Except E T) :
    Run.Leads Runs.step (Brings v i x) s fun s' => (i, promiseArg x) ∈ s'.resolved := by
  have hstep : Runs.step s (.ends v x false) = some (s.finish v i x false) := by
    simp [Runs.step, hv]
  refine Run.Leads.cons (.here ?_) (.inr (.inl rfl)) hstep
  simp [finish_false, resolve]

theorem Inv.served (hi : Inv s) (hexit : s.sys.pool.exit = false) {wk : Worker}
    (hw : s.sys.worker w = some wk) (hgone : wk.stage ≠ .gone) (hh : i ∈ s.sys.handed)
    (hres : i ∉ s.resolved.map Prod.fst) (horphan : i ∉ s.orphaned) (x : Except E T) :
    ∃ v, (v = w ∨ s.HeldBy v i) ∧
      Run.Leads Runs.step (Brings v i x) s fun s' => (i, promiseArg x) ∈ s'.resolved := by
  obtain ⟨⟨p, hp, hlost, hready, hmem, -⟩, -⟩ | ⟨-, v, hv, -⟩ | horph := hi.pending hh hres
  · cases p with
    | resumed => exact absurd rfl hp
    | lost => exact absurd rfl hlost
    | ready b => exact absurd rfl (hready b)
    | queue => exact ⟨w, .inl rfl, Serving.leads ⟨hi, hexit, ⟨wk, hw, hgone⟩, .inl hmem⟩⟩
    | stop k =>
        -- a pool that is not stopped has no call of `stop()`
        cases hk : s.sys.stop k with
        | none => simp [Sys.handlesAt, hk] at hmem
        | some st => simp [hi.placed.exitFacts.stop k st hk] at hexit
    | worker v =>
        cases hv : s.sys.worker v with
        | none => simp [Sys.handlesAt, hv] at hmem
        | some wv =>
            cases hstage : wv.stage with
            | took q =>
                have htook : s.took v = some q := by simp [took, hv, hstage]
                obtain rfl : i = q.handle := by
                  simpa [Sys.handlesAt, hv, Sys.heldByWorker, hstage] using hmem
                have htaken : (s.took v).map QItem.handle = some q.handle := by simp [htook]
                refine ⟨v, .inr (.inl htaken), Serving.leads ⟨hi, hexit, ⟨wv, hv, ?_⟩, ?_⟩⟩
                · simp [hstage]
                · exact .inr (.inl htaken)
            | _ => simp [Sys.handlesAt, hv, Sys.heldByWorker, hstage] at hmem
    | handOver c =>
        cases hc : s.sys.handOver c with
        | none => simp [Sys.handlesAt, hc] at hmem
        | some ho =>
            have href : ho.refused = none := by
              by_contra hne
              simp [hi.placed.exitFacts.refused c ho hc hne] at hexit
            have hto := (hi.plain.handOver c ho hc).2
            simp only [Sys.handlesAt, hc, Option.elim_some, Sys.heldByHandOver, href,
              Option.toList_none, List.nil_append] at hmem hto
            cases htodo : ho.todo with
            | nil => simp [htodo] at hmem
            | cons q todo =>
                rw [htodo, List.cons_prefix_cons, List.prefix_nil] at hto
                obtain ⟨rfl, rfl⟩ := hto
                obtain rfl : i = c := by simpa [htodo] using hmem
                let p : Sys := { s.sys.setHandOver i { ho with todo := [], refused := none } with
                  pool := { s.sys.pool with
                    queue := s.sys.pool.queue ++ [{ handle := i, fin := true }] } }
                have hstep : Runs.step s (.goOn i) = some { s with sys := p } := by
                  simp [Runs.step, ofSys, Sys.step, hc, Sys.handOverStep, href, htodo,
                    ThreadPool.enqueue, hexit, refused, Runs.drop, p]
                have hserving : Serving w i x { s with sys := p } :=
                  ⟨hi.step hstep, hexit, ⟨wk, hw, hgone⟩, .inl (by simp [p])⟩
                exact ⟨w, .inl rfl, hserving.leads.cons (.inr (.inr rfl)) hstep⟩
  · exact ⟨v, .inr (.inr hv), leads_ends hv x⟩
  · exact absurd horph horphan

end Served

theorem Inv.resolvedRight (hi : Inv s) : ResolvedRight s where
  once := hi.once
  called := hi.calledOnce
  outcome := hi.outcome
  ended := hi.ended
  orphaned := hi.orphaned
  pending _ hh hres := hi.pending hh hres
  stopped k st hk hret := (hi.placed.stopFacts.emptied k st hk hret).2
  served hexit _ _ hw hgone _ hh hres horphan x := hi.served hexit hw hgone hh hres horphan x

/-- **The functions of a pool**: in every run, each future of `run` is resolved once at most, with
what its function came to, or with nothing when the pool was stopped before the function was
called; it is orphaned when to store that threw; and while the pool is not stopped, any worker
brings it about, unless another one has its closure, which does so. -/
theorem resolvedRight_exec (threads : Nat) (as : List (Action T E)) :
    ResolvedRight (Run.exec step (init threads) as) :=
  (Run.exec_inv (fun _ _ _ hi h => hi.step h) (inv_init threads) as).resolvedRight

/-- A function stops the pool: the function that comes after it is not called. -/
example : (Run.exec step (init 1 : Runs Nat Unit)
    [.run 0, .goOn 0, .worker 0, .worker 0, .run 1, .goOn 1, .stop 0 (some 0), .goOnStop 0,
      .goOnStop 0, .goOnStop 0, .ends 0 (.ok 5) false]).resolved =
    [(1, .drop), (0, .value 5)] := rfl

end Runs

end ThreadPool

end Cocls
