import Cocls.Generator.Merge

/-!
# Cocls.Generator.RoundRobin

The aggregator of synchronous generators.

A generator without `co_await` completes its step inside `charge`.  So the
sources are completed in the order in which they are charged, and this is the
order of the list and then that of the values that were taken: the rounds of
`Interleave`, with the streams of the outcomes of the sources.
-/

namespace Cocls

namespace Generator

variable {σ T E : Type*}

/-! ## Bodies without co_await -/

section Body

variable {body : σ → BodyStep σ T E} {b : σ}

/-- A body at its end goes nowhere. -/
theorem course_of_ended {m n : Nat} (hle : m ≤ n) (h : position body b m = none) :
    course body b n = course body b m := by
  induction hle with
  | refl => rfl
  | step _ ih =>
      rw [course_succ, ih]
      have hc : course body b m = (outcomes body b m, none) := by rw [← h]; rfl
      rw [hc]
      rfl

theorem outcomes_mono {m n : Nat} (hle : m ≤ n) : outcomes body b m <+: outcomes body b n := by
  induction hle with
  | refl => exact List.prefix_rfl
  | @step k _ ih =>
      refine ih.trans ?_
      rw [outcomes, outcomes, course_succ]
      generalize course body b k = c
      obtain ⟨os, p⟩ := c
      cases p with
      | none => exact List.prefix_rfl
      | some b' =>
          simp only [advance]
          cases body b' with
          | await b'' => exact List.prefix_rfl
          | yield v b'' => exact List.prefix_append _ _
          | ret => exact List.prefix_append _ _
          | throw e => exact List.prefix_append _ _

/-- Without `co_await` every suspension has an outcome. -/
theorem Synchronous.length_outcomes (h : Synchronous body b) (n : Nat) :
    (outcomes body b n).length ≤ n ∧
      ((position body b n).isSome → (outcomes body b n).length = n) := by
  induction n with
  | zero => exact ⟨Nat.le_refl 0, fun _ => rfl⟩
  | succ n ih =>
      have hsync := h n
      rw [position, outcomes] at ih ⊢
      rw [position] at hsync
      rw [course_succ]
      generalize course body b n = c at ih hsync
      obtain ⟨os, p⟩ := c
      cases p with
      | none => exact ⟨Nat.le_succ_of_le ih.1, fun hs => (by cases hs)⟩
      | some b' =>
          have hlen : os.length = n := ih.2 rfl
          have hnot := hsync b' rfl
          simp only [advance]
          cases hb : body b' with
          | await b'' => exact absurd hb (hnot b'')
          | yield v b'' => simp [hlen]
          | ret => simp [hlen]
          | throw e => simp [hlen]

/-- The outcomes of such a body are those of its suspensions. -/
theorem Synchronous.outcome_of_get (h : Synchronous body b) {n k : Nat} {r : Report T E}
    (hr : (outcomes body b n)[k]? = some r) : outcome body b k = some r := by
  have hk := (List.getElem?_eq_some_iff.mp hr).1
  have hlt : k < n := Nat.lt_of_lt_of_le hk (h.length_outcomes n).1
  have hpre : outcomes body b (k + 1) <+: outcomes body b n :=
    outcomes_mono (Nat.succ_le_of_lt hlt)
  rw [outcome]
  cases hp : position body b (k + 1) with
  | none =>
      rw [outcomes, course_of_ended (Nat.succ_le_of_lt hlt) hp] at hr
      exact hr
  | some b' =>
      have hlen := (h.length_outcomes (k + 1)).2 (by rw [hp]; rfl)
      obtain ⟨rest, hrest⟩ := hpre
      rw [← hrest, List.getElem?_append_left (by rw [hlen]; exact Nat.lt_succ_self k)] at hr
      exact hr

/-- Such a body has a first outcome. -/
theorem Synchronous.outcome_zero (h : Synchronous body b) : (outcome body b 0).isSome := by
  have hnot := h 0 b rfl
  have hc : outcomes body b 1 = (advance body ([], some b)).1 := rfl
  rw [outcome, hc]
  simp only [advance]
  cases hb : body b with
  | await b'' => exact absurd hb (hnot b'')
  | yield v b'' => rfl
  | ret => rfl
  | throw e => rfl

/-- And another one exactly after a value. -/
theorem Synchronous.outcome_succ (h : Synchronous body b) (k : Nat) :
    (outcome body b (k + 1)).isSome ↔
      ∃ r, outcome body b k = some r ∧ r.toValue.isSome = true := by
  have hends := values_or_ended body b (k + 1)
  have hlen := h.length_outcomes (k + 1)
  cases hp : position body b (k + 1) with
  | none =>
      rw [hp] at hends
      have hc : outcomes body b (k + 2) = outcomes body b (k + 1) := by
        rw [outcomes, course_of_ended (Nat.le_succ _) hp]
        rfl
      have hnone : outcome body b (k + 1) = none := by
        rw [outcome, hc]
        exact List.getElem?_eq_none hlen.1
      rw [hnone]
      refine iff_of_false (by simp) ?_
      -- an outcome `k` would be the end of the body
      rintro ⟨r, hr, hv⟩
      obtain ⟨vs, r', heq, -, hr'⟩ := hends
      rw [outcome, heq] at hr
      rw [heq, List.length_append, List.length_singleton] at hlen
      obtain ⟨hk, -⟩ := List.getElem?_eq_some_iff.mp hr
      rw [List.length_append, List.length_singleton] at hk
      obtain rfl : k = vs.length := by omega
      rw [List.getElem?_concat_length] at hr
      obtain rfl := Option.some.inj hr
      rcases hr' with rfl | ⟨e, rfl⟩ <;> cases hv
  | some b' =>
      rw [hp] at hends
      have hlenk : (outcomes body b (k + 1)).length = k + 1 := hlen.2 (by rw [hp]; rfl)
      have hnot := h (k + 1) b' hp
      obtain ⟨r, hr⟩ : ∃ r, outcome body b k = some r :=
        ⟨_, List.getElem?_eq_getElem (by rw [hlenk]; exact Nat.lt_succ_self k)⟩
      obtain ⟨v, rfl⟩ := hends r (List.mem_of_getElem? hr)
      refine iff_of_true ?_ ⟨_, hr, rfl⟩
      have hc : course body b (k + 2) = advance body (outcomes body b (k + 1), some b') := by
        rw [course_succ, ← hp]
        rfl
      have hlong : (outcomes body b (k + 2)).length = k + 2 := by
        rw [outcomes, hc]
        simp only [advance]
        cases hb : body b' with
        | await b'' => exact absurd hb (hnot b'')
        | yield v b'' => simp [hlenk]
        | ret => simp [hlenk]
        | throw e => simp [hlenk]
      rw [outcome, List.getElem?_eq_getElem (by rw [hlong]; exact Nat.lt_succ_self _)]
      rfl

/-- A body that ended has no more outcomes. -/
theorem lt_of_ended {m k : Nat} (hend : Ended (outcomes body b m))
    (hk : (outcome body b k).isSome) : k < (outcomes body b m).length := by
  have hp : position body b m = none := by
    have hends := values_or_ended body b m
    cases hp : position body b m with
    | none => rfl
    | some b' =>
        rw [hp] at hends
        exact absurd hend (Aggregator.not_ended_of_values hends)
  obtain ⟨r, hr⟩ := Option.isSome_iff_exists.mp hk
  have hlt : k < (outcomes body b (k + 1)).length := (List.getElem?_eq_some_iff.mp hr).1
  rcases Nat.le_total (k + 1) m with hle | hle
  · exact Nat.lt_of_lt_of_le hlt (outcomes_mono hle).length_le
  · rw [outcomes, course_of_ended hle hp] at hlt
    exact hlt

end Body

namespace Aggregator

open Interleave (own rounds Follows Streams)

variable {n : Nat} {body : Nat → σ → BodyStep σ T E} {init : Nat → σ} {s s' : Aggregator σ T E}

/-! ## Values of the rounds -/

/-- The sources of the values of a list. -/
theorem keys_values (c : List (Nat × Report T E)) : (values c).map Prod.fst =
    (c.filter fun e => e.2.toValue.isSome).map Prod.fst := by
  induction c with
  | nil => rfl
  | cons e c ih =>
      obtain ⟨i, r⟩ := e
      cases hr : r.toValue with
      | none => rw [values_cons_end hr, ih, List.filter_cons_of_neg (by simp [hr])]
      | some v =>
          rw [Report.toValue_eq_some.mp hr, values_cons_value, List.filter_cons_of_pos rfl,
            List.map_cons, List.map_cons, ih]

/-- The values of the rounds of the outcomes are the rounds of the values. -/
theorem values_rounds (out : Nat → Nat → Option (Report T E)) (n R : Nat) :
    values (rounds out n R) = rounds (fun i r => (out i r).bind Report.toValue) n R := by
  have hround : ∀ r, values (Interleave.round out n r) =
      Interleave.round (fun i r => (out i r).bind Report.toValue) n r := by
    intro r
    rw [Interleave.round, Interleave.round]
    induction List.range n with
    | nil => rfl
    | cons i is ih =>
        cases hx : out i r with
        | none => simpa [hx] using ih
        | some x =>
            cases hv : x.toValue with
            | none => simpa [hx, hv, values_cons_end hv] using ih
            | some v =>
                rw [Report.toValue_eq_some.mp hv] at hx
                simpa [hx, Report.toValue] using ih
  induction R with
  | zero => rfl
  | succ R ih =>
      rw [Interleave.rounds_succ, Interleave.rounds_succ, values_append, ih, hround]

/-! ## Runs with synchronous sources -/

/-- The streams of the outcomes of the sources. -/
def streams (body : Nat → σ → BodyStep σ T E) (init : Nat → σ) (i r : Nat) :
    Option (Report T E) := outcome (body i) (init i) r

theorem streams_of_synchronous (hsync : ∀ i < n, Synchronous (body i) (init i)) :
    Streams (streams body init) (fun r => r.toValue.isSome) n where
  begins i hi := (hsync i hi).outcome_zero
  goesOn i hi k := (hsync i hi).outcome_succ k

/-- The source that is charged now. -/
def inCharge : Pc → List Nat
  | .resuming i _ => [i]
  | _ => []

/-- With synchronous sources only the source that is charged is at work, and the steps are
completed in the order of the charges, round by round. -/
structure InTurn (n : Nat) (body : Nat → σ → BodyStep σ T E) (init : Nat → σ)
    (s : Aggregator σ T E) : Prop where
  atWork : ∀ i, (s.src i).place.atWork = true → inCharge s.pc = [i]
  asked : s.asked = s.completed.map Prod.fst ++ inCharge s.pc
  inRounds : ∃ R, s.completed <+: rounds (streams body init) n R

/-- `next_async` that throws does not move the generator. -/
theorem place_of_nextAsync {g g' : Coroutine σ T E} {k : Nat}
    (h : g.nextAsync k = some (g', false)) : g'.place = g.place := by
  simp only [Coroutine.nextAsync] at h
  split at h
  · cases h
  · split at h
    · rw [← (Prod.mk.inj (Option.some.inj h)).1]
    · obtain ⟨g'', -, hg⟩ := Option.map_eq_some_iff.mp h
      cases (Prod.mk.inj hg).2

/-- `charge` puts a source to work, or throws. -/
theorem chargeStep_cases {i : Nat} {first : Bool} (hs : s.chargeStep i first = some s') :
    s'.completed = s.completed ∧
      ((inCharge s'.pc = [i] ∧ s'.asked = s.asked ++ [i] ∧ ∀ j, j ≠ i → s'.src j = s.src j) ∨
        (inCharge s'.pc = [] ∧ s'.asked = s.asked ∧
          ∀ j, (s'.src j).place.atWork = (s.src j).place.atWork)) := by
  obtain ⟨⟨g, ok⟩, hg, rfl⟩ := Option.map_eq_some_iff.mp hs
  cases ok with
  | true => exact ⟨rfl, .inl ⟨rfl, rfl, fun j hj => Function.update_of_ne hj _ _⟩⟩
  | false =>
      have hsame : ∀ j, (Function.update s.src i g j).place.atWork = (s.src j).place.atWork := by
        intro j
        by_cases hj : j = i
        · rw [hj, Function.update_self, place_of_nextAsync hg]
        · rw [Function.update_of_ne hj]
      cases first with
      | true => exact ⟨rfl, .inr ⟨rfl, rfl, hsame⟩⟩
      | false => exact ⟨rfl, .inr ⟨rfl, rfl, hsame⟩⟩

/-- What the body of the aggregator does to the sources: it charges one, or none. -/
theorem go_cases (hs : s.go n = some s') : inCharge s.pc = [] ∧ s'.completed = s.completed ∧
    ((∃ i, inCharge s'.pc = [i] ∧ s'.asked = s.asked ++ [i] ∧
        ∀ j, j ≠ i → s'.src j = s.src j) ∨
      (inCharge s'.pc = [] ∧ s'.asked = s.asked ∧
        ∀ j, (s'.src j).place.atWork = (s.src j).place.atWork)) := by
  have hgo := go.eq_def s n
  rw [hs] at hgo
  cases hpc : s.pc with
  | fresh => rw [hpc] at hgo; cases hgo
  | resuming i first => rw [hpc] at hgo; cases hgo
  | popping => rw [hpc] at hgo; cases hgo
  | yielding i => rw [hpc] at hgo; cases hgo
  | done => rw [hpc] at hgo; cases hgo
  | chargeAll i =>
      refine ⟨rfl, ?_⟩
      simp only [hpc] at hgo
      split at hgo
      · obtain ⟨hc, h | h⟩ := chargeStep_cases hgo.symm
        · exact ⟨hc, .inl ⟨i, h⟩⟩
        · exact ⟨hc, .inr h⟩
      · rw [Option.some.inj hgo]
        exact ⟨rfl, .inr ⟨rfl, rfl, fun _ => rfl⟩⟩
  | charge i =>
      refine ⟨rfl, ?_⟩
      simp only [hpc] at hgo
      obtain ⟨hc, h | h⟩ := chargeStep_cases hgo.symm
      · exact ⟨hc, .inl ⟨i, h⟩⟩
      · exact ⟨hc, .inr h⟩
  | loop =>
      refine ⟨rfl, ?_⟩
      simp only [hpc, popStep] at hgo
      split at hgo
      · split at hgo
        · rw [Option.some.inj hgo]
          exact ⟨rfl, .inr ⟨rfl, rfl, fun _ => rfl⟩⟩
        · split at hgo
          · cases hgo
          · rw [Option.some.inj hgo]
            exact ⟨rfl, .inr ⟨rfl, rfl, fun _ => rfl⟩⟩
      · rw [Option.some.inj hgo]
        exact ⟨rfl, .inr ⟨rfl, rfl, fun _ => rfl⟩⟩
  | popped i =>
      refine ⟨rfl, ?_⟩
      simp only [hpc] at hgo
      split at hgo
      · rw [Option.some.inj hgo]
        exact ⟨rfl, .inr ⟨rfl, rfl, fun _ => rfl⟩⟩
      · split at hgo <;> rw [Option.some.inj hgo] <;>
          exact ⟨rfl, .inr ⟨rfl, rfl, fun _ => rfl⟩⟩

theorem InTurn.go (h : InTurn n body init s) (hs : s.go n = some s') : InTurn n body init s' := by
  obtain ⟨hpc, hc, ⟨i, hi, hasked, hsrc⟩ | ⟨hnone, hasked, hsrc⟩⟩ := go_cases hs
  · refine ⟨?_, ?_, by rw [hc]; exact h.inRounds⟩
    · intro j hw
      by_cases hj : j = i
      · rw [hj]
        exact hi
      · rw [hsrc j hj] at hw
        have := h.atWork j hw
        rw [hpc] at this
        cases this
    · rw [hasked, h.asked, hc, hi, hpc, List.append_nil]
  · refine ⟨?_, ?_, by rw [hc]; exact h.inRounds⟩
    · intro j hw
      rw [hsrc] at hw
      have := h.atWork j hw
      rw [hpc] at this
      cases this
    · rw [hasked, h.asked, hc, hnone, hpc]

theorem InTurn.access (h : InTurn n body init s) (hs : s.step n body .access = some s') :
    InTurn n body init s' := by
  have hasked := h.asked
  have hwork := h.atWork
  simp only [Aggregator.step] at hs
  split at hs
  · next hpc =>
    rw [hpc] at hasked hwork
    rw [← Option.some.inj hs]
    exact ⟨hwork, hasked, h.inRounds⟩
  · next i hpc =>
    rw [hpc] at hasked hwork
    rw [← Option.some.inj hs]
    exact ⟨hwork, hasked, h.inRounds⟩
  · cases hs

theorem inCharge_eq {pc : Pc} {i : Nat} (h : inCharge pc = [i]) :
    ∃ first, pc = .resuming i first := by
  cases pc with
  | resuming j first =>
      obtain rfl : j = i := (List.cons.inj h).1
      exact ⟨first, rfl⟩
  | _ => cases h

/-- The loop over the list is over before a source is charged again. -/
theorem InvAt.charged_inCharge {past rest : List (Nat × Report T E)}
    (h : InvAt n body init s past rest) {i : Nat} (hi : inCharge s.pc = [i]) :
    charged n s.pc = n ∨ past = [] := by
  obtain ⟨first, hpc⟩ := inCharge_eq hi
  have hat := (h.setPc hpc).atPc
  rw [hpc]
  cases first with
  | true => exact .inr hat.1
  | false => exact .inl rfl

/-- With synchronous sources no source is in a `co_await`. -/
theorem InTurn.wake {past rest : List (Nat × Report T E)} {i : Nat} (h : InTurn n body init s)
    (hinv : InvAt n body init s past rest) : s.step n body (.wake i) = none := by
  simp only [Aggregator.step, Coroutine.wake]
  cases hpl : (s.src i).place with
  | awaiting b' =>
      obtain ⟨first, hpc⟩ := inCharge_eq (h.atWork i (by rw [hpl]; rfl))
      obtain ⟨-, b, hb⟩ := hinv.resuming hpc
      rw [hpl] at hb
      cases hb
  | _ => rfl

/-- What the sources completed is an interleaving of their streams. -/
theorem Inv.follows (h : Inv n body init s) (hsync : ∀ i < n, Synchronous (body i) (init i))
    (hkeys : ∀ i, ¬ i < n → own i s.completed = []) :
    Follows (streams body init) s.completed := by
  obtain ⟨past, rest, h⟩ := h
  intro i k r hr
  by_cases hi : i < n
  · rw [(h.source i).own] at hr
    exact (hsync i hi).outcome_of_get hr
  · rw [hkeys i hi] at hr
    cases hr

/-- The aggregator after source `i` completed a step while it was charged. -/
theorem completed_inCharge {past rest : List (Nat × Report T E)} {i : Nat} {g : Coroutine σ T E}
    {c : Option Caller} (hinv : InvAt n body init s past rest) (hi : inCharge s.pc = [i])
    (hrun : (s.src i).runBody (body i) = some (g, .resumes c)) (hs : s.bodyStep body i = some s') :
    s'.completed = s.completed ++ [(i, g.promise.readNext)] ∧ s'.asked = s.asked ∧
      s'.src = Function.update s.src i g ∧ inCharge s'.pc = [] := by
  obtain ⟨rfl, -⟩ := hinv.completes hrun
  have hpop : ¬ s.pc = .popping := fun hpc => (by rw [hpc] at hi; cases hi)
  have haw : s.queue.awaiters = [] := by
    have := hinv.awaiters
    rwa [if_neg hpop] at this
  simp only [Aggregator.bodyStep, hrun, callback, push_nil s.queue haw, returns_eq,
    Option.some.injEq] at hs
  subst hs
  refine ⟨rfl, rfl, rfl, ?_⟩
  obtain ⟨first, hpc⟩ := inCharge_eq hi
  rw [hpc]
  cases first <;> simp [returned, inCharge]

/-- A synchronous source does not suspend in `co_await`. -/
theorem Source.not_awaits {bd : σ → BodyStep σ T E} {b : σ} {i k : Nat} {g g' : Coroutine σ T E}
    {c : List (Report T E)} (h : Source bd b i g k c) (hsync : Synchronous bd b) :
    g.runBody bd ≠ some (g', .awaits) := by
  intro hrun
  have hat := h.place
  cases hpl : g.place with
  | running b' =>
      rw [hpl] at hat
      have hnot := hsync k b' hat
      simp only [Coroutine.runBody, hpl, Option.some.injEq] at hrun
      cases hb : bd b' with
      | await b'' => exact hnot b'' hb
      | yield v b'' => rw [hb] at hrun; cases (Prod.mk.inj hrun).2
      | ret => rw [hb] at hrun; cases (Prod.mk.inj hrun).2
      | throw e => rw [hb] at hrun; cases (Prod.mk.inj hrun).2
  | _ => simp [Coroutine.runBody, hpl] at hrun

/-- Only the sources of the list completed steps. -/
theorem InTurn.own_completed {j : Nat} (h : InTurn n body init s) (hj : ¬ j < n) :
    own j s.completed = [] := by
  obtain ⟨R, hR⟩ := h.inRounds
  have hown := Interleave.own_mono hR j
  rw [Interleave.own_rounds_of_not_lt _ hj] at hown
  exact List.prefix_nil.mp hown

/-- **A synchronous source completes its step in its turn.** -/
theorem InTurn.bodyStep {past rest : List (Nat × Report T E)} {i : Nat}
    (h : InTurn n body init s) (hinv : InvAt n body init s past rest)
    (hsync : ∀ i < n, Synchronous (body i) (init i)) (hs : s.bodyStep body i = some s') :
    InTurn n body init s' := by
  cases hrun : (s.src i).runBody (body i) with
  | none => simp only [Aggregator.bodyStep, hrun] at hs; cases hs
  | some gx =>
      obtain ⟨g, x⟩ := gx
      have hi := h.atWork i (atWork_of_runBody hrun)
      obtain ⟨first, hpc⟩ := inCharge_eq hi
      obtain ⟨hlt, -⟩ := hinv.resuming hpc
      have hsrc := hinv.source i
      cases x with
      | awaits => exact absurd hrun (hsrc.not_awaits (hsync i hlt))
      | resumes c =>
          obtain ⟨hcompl, hasked, hsrc', hnone⟩ := completed_inCharge hinv hi hrun hs
          refine ⟨?_, ?_, ?_⟩
          · -- the source is not at work any more, and no other one was
            intro j hj
            rw [hsrc'] at hj
            obtain ⟨hx, -⟩ | ⟨r, -, hwork, -⟩ := runBody_cases hrun hsrc.place hsrc.shows
            · cases hx
            by_cases hji : j = i
            · rw [hji, Function.update_self, hwork] at hj
              cases hj
            · rw [Function.update_of_ne hji] at hj
              have hturn := h.atWork j hj
              rw [hi] at hturn
              exact absurd (List.cons.inj hturn).1.symm hji
          · rw [hasked, h.asked, hi, hnone, hcompl, List.map_append, List.append_nil]
            rfl
          · -- the charges so far are a beginning of the list and then of the values taken
            obtain ⟨R, hR⟩ := h.inRounds
            have hkeys : ∀ j, ¬ j < n → own j s'.completed = [] := by
              intro j hj
              have hne : i ≠ j := by
                rintro rfl
                exact hj hlt
              rw [hcompl, Interleave.own_append, h.own_completed hj,
                Interleave.own_singleton_ne hne, List.append_nil]
            have hinv' : Inv n body init s' := Inv.bodyStep ⟨past, rest, hinv⟩ hs
            have hfollows := hinv'.follows hsync hkeys
            rw [hcompl] at hfollows
            have hask := hinv.asked
            rw [h.asked, hi] at hask
            refine ⟨R + 1, ?_⟩
            rw [hcompl]
            refine (streams_of_synchronous hsync).snoc_prefix_rounds hR
              (hinv.completed ▸ List.prefix_append past rest) hfollows ?_
            rw [← keys_values, hask]
            rcases hinv.charged_inCharge hi with hn | rfl
            · simp only [hn, List.prefix_rfl]
            · rw [values_nil, List.map_nil, List.append_nil, List.append_nil]
              refine List.prefix_iff_eq_take.mpr ?_
              rw [List.length_range, List.take_range, Nat.min_eq_left (charged_le hinv.atPc)]

theorem inTurn_start : InTurn n body init (start n init) :=
  ⟨fun i hw => (by cases hw), rfl, 0, List.prefix_rfl⟩

/-- One step of an aggregator of synchronous sources. -/
theorem InTurn.step {a : Action} (h : InTurn n body init s) (hinv : Inv n body init s)
    (hsync : ∀ i < n, Synchronous (body i) (init i)) (hs : s.step n body a = some s') :
    InTurn n body init s' := by
  obtain ⟨past, rest, hat⟩ := hinv
  cases a with
  | access => exact h.access hs
  | go => exact h.go hs
  | body i => exact h.bodyStep hat hsync hs
  | wake i =>
      rw [h.wake hat] at hs
      cases hs

/-- The sources that ended have no outcome left for another round. -/
theorem InTurn.all (h : InTurn n body init s) (hinv : Inv n body init s)
    (hsync : ∀ i < n, Synchronous (body i) (init i))
    (hended : ∀ i < n, Ended (outcomes (body i) (init i) (s.steps i))) :
    ∃ R, s.completed = rounds (streams body init) n R := by
  obtain ⟨R, hR⟩ := h.inRounds
  refine ⟨R, Interleave.eq_of_own_le hR fun i => ?_⟩
  by_cases hi : i < n
  · obtain ⟨past, rest, hat⟩ := hinv
    refine Nat.le_of_not_lt fun hlt => ?_
    have hget := (streams_of_synchronous hsync).getElem?_own_rounds hi R (own i s.completed).length
    rw [List.getElem?_eq_getElem hlt] at hget
    split at hget
    · have hmore : (outcome (body i) (init i) (own i s.completed).length).isSome := by
        rw [← streams, ← hget]
        rfl
      have hless := lt_of_ended (hended i hi) hmore
      rw [(hat.source i).own] at hless
      exact Nat.lt_irrefl _ hless
    · cases hget
  · rw [Interleave.own_rounds_of_not_lt _ hi]
    exact Nat.zero_le _

/-- **The values of synchronous sources come round by round.** -/
theorem InTurn.roundRobin (h : InTurn n body init s) (hinv : Inv n body init s)
    (hsync : ∀ i < n, Synchronous (body i) (init i)) :
    ∃ R, s.yields <+: rounds (fun i r => (outcome (body i) (init i) r).bind Report.toValue) n R ∧
      (s.pc = .done →
        s.yields = rounds (fun i r => (outcome (body i) (init i) r).bind Report.toValue) n R) := by
  by_cases hpc : s.pc = .done
  · obtain ⟨R, hR⟩ := h.all hinv hsync (hinv.ended hpc).1
    have heq : s.yields =
        rounds (fun i r => (outcome (body i) (init i) r).bind Report.toValue) n R := by
      rw [hinv.noneLeft (.inr hpc), hR]
      exact values_rounds _ n R
    exact ⟨R, heq ▸ List.prefix_rfl, fun _ => heq⟩
  · obtain ⟨R, hR⟩ := h.inRounds
    refine ⟨R, ?_, fun hdone => absurd hdone hpc⟩
    have hvals : values s.completed <+: values (rounds (streams body init) n R) :=
      hR.filterMap _
    rw [values_rounds] at hvals
    exact hinv.inOrder.trans hvals

/-- **The aggregator merges its sources**: whatever the bodies of the generators do and in
whatever order they complete their steps, every value is yielded, once and in the order of
the completions, and the aggregator ends when all of them did. -/
theorem merges_exec (n : Nat) (body : Nat → σ → BodyStep σ T E) (init : Nat → σ)
    (as : List Action) :
    Merges n body init (Run.exec (step n body) (start n init) as) := by
  have hinv : Inv n body init (Run.exec (step n body) (start n init) as) :=
    Run.exec_inv (fun _ _ _ h hs => h.step hs) (inv_start n body init) as
  have hturn : (∀ i < n, Synchronous (body i) (init i)) →
      InTurn n body init (Run.exec (step n body) (start n init) as) := by
    intro hsync
    have hstep : ∀ s a s', Inv n body init s ∧ InTurn n body init s → step n body s a = some s' →
        Inv n body init s' ∧ InTurn n body init s' :=
      fun s a s' h hs => ⟨h.1.step hs, h.2.step h.1 hsync hs⟩
    exact (Run.exec_inv hstep ⟨inv_start n body init, inTurn_start⟩ as).2
  generalize Run.exec (step n body) (start n init) as = s at hinv hturn
  exact {
    ownOrder := by
      obtain ⟨past, rest, h⟩ := hinv
      exact fun i => (h.source i).own
    inOrder := hinv.inOrder
    noneLeft := hinv.noneLeft
    chargedOnce := by
      obtain ⟨past, rest, h⟩ := hinv
      exact h.count_asked
    afterTaken := hinv.afterTaken
    goesOn := hinv.goesOn
    settles := hinv.settles
    ended := hinv.ended
    ends := hinv.ends
    roundRobin := fun hsync => (hturn hsync).roundRobin hinv hsync }

end Aggregator

end Generator

end Cocls
