import Mathlib.Data.List.Basic

/-!
# Cocls.Run

Finite runs of a system given by a partial step function `step : σ → α → Option σ`.

An interleaving of any number of parties is a list of actions; an action that
is not enabled where the list puts it is skipped, so *every* list of actions is
a run and the reachable states are the states `exec` ends in.  The module holds
the induction rules the developments above it use:

* `exec_inv` — what every step preserves holds after every run;
* `exec_inv_of_meets` — what every *good* step preserves holds after every run
  whose steps are all good;
* `Meets.imp_of_inv` — one condition on the steps of a run implies another one;
* `exec_iff_meets` — when one bad step ruins the state for good, a run ends
  well exactly when all its steps were good;
* `safe_iff_meets` — when a bad step shows at once, a run is safe in every
  state it passes exactly when all its steps were good;
* `exec_countP` — what grows by one with every step of a kind counts them;
* `exec_proj` — a part of the state with steps of its own has runs of its own;
* `exec_sim_of_meets` — a good run is simulated by a run of another system;
* `Leads` — what the steps of some of the parties lead to;
* `leads_of_measure` — where such a step always makes a measure smaller, they get there;
* `exists_exec_replicate` — an action that makes a measure smaller gets done;
* `Meets.take`, `exists_bad_of_not_meets` — a run is good up to its first bad step;
* `meets_and` — the steps of a run meet two conditions when they meet each.
-/

namespace Run

variable {σ α : Type*}

/-- One action tried in a state: an action that is not enabled changes nothing. -/
def tryStep (step : σ → α → Option σ) (s : σ) (a : α) : σ := (step s a).getD s

/-- The state a run ends in: the actions are tried in order. -/
def exec (step : σ → α → Option σ) (s : σ) (as : List α) : σ := as.foldl (tryStep step) s

/-- Every action of the run that is enabled is taken in a state where `good` allows it. -/
def Meets (step : σ → α → Option σ) (good : σ → α → Prop) : σ → List α → Prop
  | _, [] => True
  | s, a :: as => ((step s a).isSome → good s a) ∧ Meets step good (tryStep step s a) as

/-- The actions of a run that are taken. -/
def taken (step : σ → α → Option σ) : σ → List α → List α
  | _, [] => []
  | s, a :: as =>
      if (step s a).isSome then a :: taken step (tryStep step s a) as
      else taken step (tryStep step s a) as

/-- Whether all steps of a run are good can be computed. -/
instance Meets.decidable {step : σ → α → Option σ} {good : σ → α → Prop}
    [∀ s a, Decidable (good s a)] : ∀ s as, Decidable (Meets step good s as)
  | _, [] => .isTrue trivial
  | s, a :: as =>
      have : Decidable (Meets step good (tryStep step s a) as) := Meets.decidable _ as
      inferInstanceAs (Decidable (_ ∧ _))

section Equations

variable (step : σ → α → Option σ) (good : σ → α → Prop) (s : σ)

@[simp] theorem exec_nil : exec step s [] = s := rfl

@[simp] theorem exec_cons (a : α) (as : List α) :
    exec step s (a :: as) = exec step (tryStep step s a) as := rfl

theorem exec_append (as bs : List α) :
    exec step s (as ++ bs) = exec step (exec step s as) bs := List.foldl_append

/-- An enabled action leads to the state the step function gives. -/
theorem tryStep_of_some {a : α} {s' : σ} (h : step s a = some s') : tryStep step s a = s' := by
  rw [tryStep, h, Option.getD_some]

/-- **Projection rule**: a part of the state that goes through the steps of a system of its
own goes through the run of that system. -/
theorem exec_proj {τ : Type*} {step' : τ → α → Option τ} (f : σ → τ)
    (h : ∀ s a, (step s a).map f = step' (f s) a) (as : List α) :
    f (exec step s as) = exec step' (f s) as := by
  induction as generalizing s with
  | nil => rfl
  | cons a as ih =>
      have hstep : f (tryStep step s a) = tryStep step' (f s) a := by
        rw [tryStep, tryStep, ← h]
        cases step s a <;> rfl
      rw [exec_cons, exec_cons, ← hstep]
      exact ih _

/-- An action that is not enabled is skipped. -/
theorem tryStep_of_none {a : α} (h : step s a = none) : tryStep step s a = s := by
  rw [tryStep, h, Option.getD_none]

@[simp] theorem meets_nil : Meets step good s [] ↔ True := Iff.rfl

@[simp] theorem meets_cons (a : α) (as : List α) :
    Meets step good s (a :: as) ↔
      ((step s a).isSome → good s a) ∧ Meets step good (tryStep step s a) as := Iff.rfl

/-- The steps of a run are good when those of its two parts are. -/
theorem meets_append (as bs : List α) : Meets step good s (as ++ bs) ↔
    Meets step good s as ∧ Meets step good (exec step s as) bs := by
  induction as generalizing s with
  | nil => simp
  | cons a as ih => simp only [List.cons_append, meets_cons, exec_cons, ih, and_assoc]

/-- A run of actions that are good in every state. -/
theorem meets_of_forall {as : List α} (h : ∀ a ∈ as, ∀ s, good s a) : Meets step good s as := by
  induction as generalizing s with
  | nil => trivial
  | cons a as ih =>
      rw [meets_cons]
      exact ⟨fun _ => h a List.mem_cons_self s, ih _ fun b hb => h b (List.mem_cons_of_mem a hb)⟩

end Equations

section Rules

variable {step : σ → α → Option σ} {good : σ → α → Prop}

/-- **Invariant rule**: what holds at the start and is preserved by every step
holds in the state every run ends in. -/
theorem exec_inv {Inv : σ → Prop} (hstep : ∀ s a s', Inv s → step s a = some s' → Inv s')
    {s : σ} (h : Inv s) (as : List α) : Inv (exec step s as) := by
  induction as generalizing s with
  | nil => exact h
  | cons a as ih =>
      rw [exec_cons]
      apply ih
      cases hs : step s a with
      | none => rw [tryStep_of_none step s hs]; exact h
      | some s' => rw [tryStep_of_some step s hs]; exact hstep s a s' h hs

/-- **Invariant rule for good runs**: what every good step preserves holds after
every run all of whose steps are good. -/
theorem exec_inv_of_meets {Inv : σ → Prop}
    (hstep : ∀ s a s', Inv s → good s a → step s a = some s' → Inv s')
    {s : σ} (h : Inv s) {as : List α} (hm : Meets step good s as) : Inv (exec step s as) := by
  induction as generalizing s with
  | nil => exact h
  | cons a as ih =>
      obtain ⟨ha, has⟩ := hm
      rw [exec_cons]
      refine ih ?_ has
      cases hs : step s a with
      | none => rw [tryStep_of_none step s hs]; exact h
      | some s' =>
          rw [tryStep_of_some step s hs]
          exact hstep s a s' h (ha (by rw [hs]; rfl)) hs

/-- **Counting rule**: what grows by one with every step of a kind, and with no other, counts
the steps of that kind. -/
theorem exec_countP (f : σ → Nat) (p : α → Bool)
    (hstep : ∀ s a s', step s a = some s' → f s' = f s + if p a then 1 else 0) (s : σ)
    (as : List α) : f (exec step s as) = f s + (taken step s as).countP p := by
  induction as generalizing s with
  | nil => rfl
  | cons a as ih =>
      rw [exec_cons, ih, taken]
      cases hs : step s a with
      | none => rw [tryStep_of_none step s hs]; rfl
      | some s' =>
          rw [tryStep_of_some step s hs, hstep s a s' hs]
          simp [List.countP_cons]
          omega

/-- **Simulation rule for good runs**: what every good step preserves, where `f` follows the
step, gives `f` of a run all of whose steps are good as the run of the other system. -/
theorem exec_sim_of_meets {τ : Type*} {step' : τ → α → Option τ} (f : σ → τ) {Inv : σ → Prop}
    (hstep : ∀ s a s', Inv s → good s a → step s a = some s' →
      Inv s' ∧ step' (f s) a = some (f s'))
    (hnone : ∀ s a, Inv s → step s a = none → step' (f s) a = none)
    {s : σ} (h : Inv s) {as : List α} (hm : Meets step good s as) :
    f (exec step s as) = exec step' (f s) as := by
  induction as generalizing s with
  | nil => rfl
  | cons a as ih =>
      obtain ⟨ha, has⟩ := hm
      rw [exec_cons, exec_cons]
      cases hs : step s a with
      | none =>
          rw [tryStep_of_none step s hs] at has ⊢
          rw [tryStep_of_none step' (f s) (hnone s a h hs)]
          exact ih h has
      | some s' =>
          rw [tryStep_of_some step s hs] at has ⊢
          obtain ⟨h', hs'⟩ := hstep s a s' h (ha (by rw [hs]; rfl)) hs
          rw [tryStep_of_some step' (f s) hs']
          exact ih h' has

/-- **Rule for two conditions**: in a run whose steps are all good, every step meets what
follows from an invariant of the good steps. -/
theorem Meets.imp_of_inv {good' : σ → α → Prop} {Inv : σ → Prop}
    (hstep : ∀ s a s', Inv s → good s a → step s a = some s' → Inv s')
    (himp : ∀ s a, Inv s → good s a → good' s a)
    {s : σ} (h : Inv s) {as : List α} (hm : Meets step good s as) : Meets step good' s as := by
  induction as generalizing s with
  | nil => trivial
  | cons a as ih =>
      obtain ⟨ha, has⟩ := hm
      refine ⟨fun hsome => himp s a h (ha hsome), ih ?_ has⟩
      cases hs : step s a with
      | none => rw [tryStep_of_none step s hs]; exact h
      | some s' =>
          rw [tryStep_of_some step s hs]
          exact hstep s a s' h (ha (by rw [hs]; rfl)) hs

/-- The steps of the beginning of a good run are good. -/
theorem Meets.take {s : σ} {as : List α} (hm : Meets step good s as) (n : Nat) :
    Meets step good s (as.take n) := by
  induction as generalizing s n with
  | nil => rw [List.take_nil]; trivial
  | cons a as ih =>
      cases n with
      | zero => trivial
      | succ n => exact ⟨hm.1, ih hm.2 n⟩

/-- A run that is not good has a bad step. -/
theorem exists_bad_of_not_meets {s : σ} {as : List α} (hm : ¬ Meets step good s as) :
    ∃ n a s', step (exec step s (as.take n)) a = some s' ∧
      ¬ good (exec step s (as.take n)) a ∧ exec step s (as.take (n + 1)) = s' := by
  induction as generalizing s with
  | nil => exact absurd trivial hm
  | cons a as ih =>
      by_cases ha : (step s a).isSome → good s a
      · obtain ⟨n, b, s', hb⟩ := ih fun h => hm ⟨ha, h⟩
        exact ⟨n + 1, b, s', hb⟩
      · obtain ⟨hsome, hbad⟩ := Classical.not_imp.1 ha
        obtain ⟨s', hs⟩ := Option.isSome_iff_exists.1 hsome
        exact ⟨0, a, s', hs, hbad, tryStep_of_some step s hs⟩

/-- **Exactness rule, lasting damage**: if good steps preserve `Inv`, a bad step
leads from `Inv` to `Bad`, and `Bad` is never left again, then a run ends in a
state with `P` exactly when all its steps were good. -/
theorem exec_iff_meets {Inv Bad P : σ → Prop}
    (hgood : ∀ s a s', Inv s → good s a → step s a = some s' → Inv s')
    (hbad : ∀ s a s', Inv s → ¬ good s a → step s a = some s' → Bad s')
    (habs : ∀ s a s', Bad s → step s a = some s' → Bad s')
    (hP : ∀ s, Inv s → P s) (hnP : ∀ s, Bad s → ¬ P s)
    {s : σ} (h : Inv s) (as : List α) : P (exec step s as) ↔ Meets step good s as := by
  constructor
  · induction as generalizing s with
    | nil => intro _; trivial
    | cons a as ih =>
        intro hp
        rw [exec_cons] at hp
        cases hs : step s a with
        | none =>
            rw [tryStep_of_none step s hs] at hp
            refine ⟨fun hsome => ?_, ?_⟩
            · rw [hs] at hsome; simp at hsome
            · rw [tryStep_of_none step s hs]; exact ih h hp
        | some s' =>
            rw [tryStep_of_some step s hs] at hp
            by_cases hg : good s a
            · refine ⟨fun _ => hg, ?_⟩
              rw [tryStep_of_some step s hs]
              exact ih (hgood s a s' h hg hs) hp
            · exact absurd hp (hnP _ (exec_inv habs (hbad s a s' h hg hs) as))
  · exact fun hm => hP _ (exec_inv_of_meets hgood h hm)

/-- **Exactness rule, damage that shows at once**: if good steps preserve `Inv`
and a bad step leads from `Inv` to a state that is not safe, then every state
the run passes is safe exactly when all its steps were good. -/
theorem safe_iff_meets {Inv Safe : σ → Prop}
    (hgood : ∀ s a s', Inv s → good s a → step s a = some s' → Inv s')
    (hbad : ∀ s a s', Inv s → ¬ good s a → step s a = some s' → ¬ Safe s')
    (hsafe : ∀ s, Inv s → Safe s) {s : σ} (h : Inv s) (as : List α) :
    (∀ n, Safe (exec step s (as.take n))) ↔ Meets step good s as := by
  induction as generalizing s with
  | nil => simpa using hsafe s h
  | cons a as ih =>
      have htail : (∀ n, Safe (exec step s ((a :: as).take n))) ↔
          ∀ n, Safe (exec step (tryStep step s a) (as.take n)) := by
        constructor
        · exact fun hall n => hall (n + 1)
        · intro hall n
          cases n with
          | zero => exact hsafe s h
          | succ n => exact hall n
      rw [htail, meets_cons]
      cases hs : step s a with
      | none => rw [tryStep_of_none step s hs, ih h]; simp
      | some s' =>
          rw [tryStep_of_some step s hs]
          by_cases hg : good s a
          · rw [ih (hgood s a s' h hg hs)]; simp [hg]
          · have hnot : ¬ Safe s' := hbad s a s' h hg hs
            constructor
            · intro hall
              exact absurd (hall 0) (by simpa using hnot)
            · rintro ⟨hga, _⟩
              exact absurd (hga rfl) hg

/-! ## Progress -/

/-- The steps that `ok` allows lead from `s` to a state with `P`. -/
def Leads (step : σ → α → Option σ) (ok : α → Prop) (s : σ) (P : σ → Prop) : Prop :=
  ∃ as, (∀ a ∈ as, ok a) ∧ P (exec step s as)

section Leads

variable {ok ok' : α → Prop} {P Q : σ → Prop} {s s' : σ}

theorem Leads.here (h : P s) : Leads step ok s P := ⟨[], by simp, h⟩

theorem Leads.cons {a : α} (h : Leads step ok s' P) (ha : ok a) (hs : step s a = some s') :
    Leads step ok s P := by
  obtain ⟨as, hok, hP⟩ := h
  refine ⟨a :: as, List.forall_mem_cons.mpr ⟨ha, hok⟩, ?_⟩
  rw [exec_cons, tryStep_of_some step s hs]
  exact hP

theorem Leads.trans (h : Leads step ok s Q) (hQ : ∀ s', Q s' → Leads step ok s' P) :
    Leads step ok s P := by
  obtain ⟨as, has, hs⟩ := h
  obtain ⟨bs, hbs, hP⟩ := hQ _ hs
  exact ⟨as ++ bs, List.forall_mem_append.mpr ⟨has, hbs⟩, by rw [exec_append]; exact hP⟩

theorem Leads.mono (h : Leads step ok s P) (hok : ∀ a, ok a → ok' a) (hP : ∀ s, P s → Q s) :
    Leads step ok' s Q := by
  obtain ⟨as, has, hs⟩ := h
  exact ⟨as, fun a ha => hok a (has a ha), hP _ hs⟩

/-- What holds after no step that is allowed unless it did before is not led to. -/
theorem Leads.of_steps (Inv : σ → Prop) (h : Leads step ok s P)
    (hstep : ∀ s a s', Inv s → ok a → step s a = some s' → Inv s' ∧ (P s' → P s))
    (hs : Inv s) : P s := by
  obtain ⟨as, has, hP⟩ := h
  induction as generalizing s with
  | nil => exact hP
  | cons a as ih =>
      obtain ⟨ha, has⟩ := List.forall_mem_cons.mp has
      rw [exec_cons] at hP
      cases hsa : step s a with
      | none =>
          rw [tryStep_of_none step s hsa] at hP
          exact ih hs has hP
      | some s' =>
          rw [tryStep_of_some step s hsa] at hP
          obtain ⟨hs', hback⟩ := hstep s a s' hs ha hsa
          exact hback (ih hs' has hP)

/-- **Progress rule**: where some step that is allowed keeps `Inv` and makes `μ` smaller until
`P` holds, these steps lead to `P`. -/
theorem leads_of_measure (Inv : σ → Prop) (μ : σ → Nat)
    (hstep : ∀ s, Inv s → ¬ P s → ∃ a s', ok a ∧ step s a = some s' ∧ Inv s' ∧ μ s' < μ s)
    (h : Inv s) : Leads step ok s fun s' => Inv s' ∧ P s' := by
  induction hn : μ s using Nat.strongRecOn generalizing s with
  | ind n ih =>
      by_cases hP : P s
      · exact .here ⟨h, hP⟩
      · obtain ⟨a, s', ha, hs, hinv, hlt⟩ := hstep s h hP
        exact (ih (μ s') (by rw [← hn]; exact hlt) hinv rfl).cons ha hs

end Leads

/-- **Progress rule, one action**: an action that is enabled until `P` holds, keeps `Inv` and
makes `μ` smaller, leads to `P`. -/
theorem exists_exec_replicate {Inv P : σ → Prop} {a : α} (μ : σ → Nat)
    (hstep : ∀ s, Inv s → ¬ P s → ∃ s', step s a = some s' ∧ Inv s' ∧ μ s' < μ s)
    {s : σ} (h : Inv s) : ∃ m, P (exec step s (List.replicate m a)) := by
  have hone : ∀ s, Inv s → ¬ P s →
      ∃ b s', b = a ∧ step s b = some s' ∧ Inv s' ∧ μ s' < μ s := fun s hs hP =>
    ⟨a, (hstep s hs hP).imp fun s' hs' => ⟨rfl, hs'⟩⟩
  have hleads : Leads step (· = a) s fun s' => Inv s' ∧ P s' := leads_of_measure Inv μ hone h
  obtain ⟨as, has, -, hP⟩ := hleads
  exact ⟨as.length, by rw [← List.eq_replicate_of_mem has]; exact hP⟩

end Rules

end Run
