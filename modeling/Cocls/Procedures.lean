import Mathlib.Logic.Basic

/-!
# Cocls.Procedures

Procedures that call each other, in direct style.

A procedure is a state of `body`.  It is done and has a result, it goes on, it calls
a procedure and goes on with its result, or it waits for something the environment
gives.  `Returns env b r` is the big-step meaning: started in `b`, in the
environment `env`, the result is `r`.

A machine that runs the same procedures with frames and continuations keeps
`Follows env b₀ b` for a procedure that was started in `b₀` and is in `b` by now: the
results of the two are the same, also when the environment gives more (`Gives`).
The rules say what keeps it:

* `Follows.goOn` — a step;
* `Follows.called` — the return from a call;
* `Follows.given` — the end of a wait.
-/

namespace Procedures

variable {σ ι ρ : Type*}

/-- What a procedure does next. -/
inductive Step (σ ι ρ : Type*) where
  | done (r : ρ)
  | goOn (b : σ)
  | call (c : σ) (k : ρ → σ)
  | wait (i : ι) (k : ρ → σ)

/-- The procedure that is started in `b` has the result `r`. -/
inductive Returns (body : σ → Step σ ι ρ) (env : ι → Option ρ) : σ → ρ → Prop where
  | done {b r} : body b = .done r → Returns body env b r
  | goOn {b b' r} : body b = .goOn b' → Returns body env b' r → Returns body env b r
  | call {b c k o r} : body b = .call c k → Returns body env c o → Returns body env (k o) r →
      Returns body env b r
  | wait {b i k o r} : body b = .wait i k → env i = some o → Returns body env (k o) r →
      Returns body env b r

/-- `env'` gives what `env` gives, and maybe more. -/
def Gives (env env' : ι → Option ρ) : Prop := ∀ i o, env i = some o → env' i = some o

theorem Gives.refl (env : ι → Option ρ) : Gives env env := fun _ _ h => h

theorem Gives.trans {env env' env'' : ι → Option ρ} (h : Gives env env')
    (h' : Gives env' env'') : Gives env env'' :=
  fun i o hi => h' i o (h i o hi)

section Results

variable {body : σ → Step σ ι ρ} {env env' : ι → Option ρ} {b : σ} {r : ρ}

/-- What it means that there is a result, read off the first step. -/
theorem returns_iff : Returns body env b r ↔
    match body b with
    | .done r' => r' = r
    | .goOn b' => Returns body env b' r
    | .call c k => ∃ o, Returns body env c o ∧ Returns body env (k o) r
    | .wait i k => ∃ o, env i = some o ∧ Returns body env (k o) r := by
  constructor
  · intro h
    cases h with
    | done hb => simp only [hb]
    | goOn hb hr => simpa only [hb] using hr
    | call hb hc hr => simp only [hb]; exact ⟨_, hc, hr⟩
    | wait hb he hr => simp only [hb]; exact ⟨_, he, hr⟩
  · intro h
    cases hb : body b with
    | done r' => simp only [hb] at h; subst h; exact .done hb
    | goOn b' => simp only [hb] at h; exact .goOn hb h
    | call c k => simp only [hb] at h; obtain ⟨o, hc, hr⟩ := h; exact .call hb hc hr
    | wait i k => simp only [hb] at h; obtain ⟨o, he, hr⟩ := h; exact .wait hb he hr

/-- There is one result. -/
theorem Returns.unique (h : Returns body env b r) {r' : ρ} (h' : Returns body env b r') :
    r = r' := by
  induction h generalizing r' with
  | done hb => simpa only [returns_iff, hb] using h'
  | goOn hb _ ih =>
      rw [returns_iff] at h'
      simp only [hb] at h'
      exact ih h'
  | call hb _ _ ihc ihr =>
      rw [returns_iff] at h'
      simp only [hb] at h'
      obtain ⟨o', hc, hr⟩ := h'
      obtain rfl := ihc hc
      exact ihr hr
  | wait hb he _ ihr =>
      rw [returns_iff] at h'
      simp only [hb] at h'
      obtain ⟨o', he', hr⟩ := h'
      cases he.symm.trans he'
      exact ihr hr

/-- A result stays when the environment gives more. -/
theorem Returns.mono (h : Returns body env b r) (hg : Gives env env') :
    Returns body env' b r := by
  induction h with
  | done hb => exact .done hb
  | goOn hb _ ih => exact .goOn hb ih
  | call hb _ _ ihc ihr => exact .call hb ihc ihr
  | wait hb he _ ihr => exact .wait hb (hg _ _ he) ihr

theorem returns_of_goOn {b' : σ} (hb : body b = .goOn b') :
    Returns body env b r ↔ Returns body env b' r := by
  rw [returns_iff, hb]

/-- The result of the call is the only one it can have. -/
theorem returns_of_call {c : σ} {k : ρ → σ} (hb : body b = .call c k) {o : ρ}
    (hc : Returns body env c o) : Returns body env b r ↔ Returns body env (k o) r := by
  rw [returns_iff, hb]
  constructor
  · rintro ⟨o', hc', hr⟩
    rwa [hc.unique hc']
  · exact fun hr => ⟨o, hc, hr⟩

theorem returns_of_wait {i : ι} {k : ρ → σ} (hb : body b = .wait i k) {o : ρ}
    (he : env i = some o) : Returns body env b r ↔ Returns body env (k o) r := by
  rw [returns_iff, hb]
  simp [he]

end Results

/-- A procedure that was started in `b₀` is in `b`. -/
def Follows (body : σ → Step σ ι ρ) (env : ι → Option ρ) (b₀ b : σ) : Prop :=
  ∀ env', Gives env env' → ∀ r, Returns body env' b r ↔ Returns body env' b₀ r

section Rules

variable {body : σ → Step σ ι ρ} {env env' : ι → Option ρ} {b₀ b : σ}

theorem Follows.refl (b : σ) : Follows body env b b := fun _ _ _ => Iff.rfl

/-- The environment gives more. -/
theorem Follows.mono (h : Follows body env b₀ b) (hg : Gives env env') :
    Follows body env' b₀ b :=
  fun env'' hg' => h env'' (hg.trans hg')

/-- The result is that of the whole procedure. -/
theorem Follows.returns (h : Follows body env b₀ b) {r : ρ} :
    Returns body env b r ↔ Returns body env b₀ r :=
  h env (.refl env) r

/-- **Step**. -/
theorem Follows.goOn (h : Follows body env b₀ b) {b' : σ} (hb : body b = .goOn b') :
    Follows body env b₀ b' :=
  fun env' hg r => (returns_of_goOn hb).symm.trans (h env' hg r)

/-- **Return**: the procedure that was called has a result. -/
theorem Follows.called (h : Follows body env b₀ b) {c : σ} {k : ρ → σ}
    (hb : body b = .call c k) {o : ρ} (hc : Returns body env c o) :
    Follows body env b₀ (k o) :=
  fun env' hg r => (returns_of_call hb (hc.mono hg)).symm.trans (h env' hg r)

/-- **End of a wait**: the environment gives what was waited for. -/
theorem Follows.given (h : Follows body env b₀ b) {i : ι} {k : ρ → σ}
    (hb : body b = .wait i k) {o : ρ} (he : env i = some o) : Follows body env b₀ (k o) :=
  fun env' hg r => (returns_of_wait hb (hg i o he)).symm.trans (h env' hg r)

end Rules

end Procedures
