import Mathlib.Data.List.Nodup
import Mathlib.Data.List.Perm.Basic
import Cocls.Future

/-!
# Cocls.Future.Resolve

Exactly-once resolution and wake-up of a future, under every interleaving.

The *stage* of a future is the call that has won, with its position: none yet,
about to set, about to resolve, resuming, returned.  `Shape` says for every
stage what the future stores and where the chain of linked but not yet resumed
awaiters hangs: below the collector until the resolving exchange, below the
local variable of the resuming loop after it.  The invariant adds the
bookkeeping: every linked awaiter was resumed once, or is still in that chain.
-/

namespace Cocls

namespace Future

namespace Race

variable {T E : Type*} {arg : Nat → PromiseArg T E}

/-- The winning call, if there is one, and its position. -/
abbrev Stage := Option (Nat × CallPc)

/-- The resolving exchange has been made. -/
def Resolved : Stage → Prop
  | some (_, .walking _) | some (_, .done true) => True
  | _ => False

/-- What the future stores at each stage, and where the chain `xs` of awaiters
waiting to be resumed hangs. -/
def Shape (arg : Nat → PromiseArg T E) (s : Race T E) (xs : List Awaiter) : Stage → Prop
  | none | some (_, .claimed) => s.stored = .notValue ∧ Links s.next s.awaiter xs none
  | some (k, .settled) => s.stored = (arg k).stored ∧ Links s.next s.awaiter xs none
  | some (k, .walking chain) =>
      s.stored = (arg k).stored ∧ s.awaiter = some .disabled ∧ Links s.next chain xs none
  | some (k, .done true) =>
      s.stored = (arg k).stored ∧ s.awaiter = some .disabled ∧ xs = []
  | some (_, .idle) | some (_, .done false) => False

/-- The stage says where the calls that have won are. -/
def Calls (call : Nat → CallPc) (stage : Stage) : Prop :=
  ∀ k pc, Won pc → (call k = pc ↔ stage = some (k, pc))

/-- The invariant, with the stage and the awaiters waiting to be resumed. -/
structure InvAt (arg : Nat → PromiseArg T E) (s : Race T E) (stage : Stage) (xs : List Nat) :
    Prop where
  shape : Shape arg s (xs.map .object) stage
  owner : s.owner = true ↔ stage = none
  calls : Calls s.call stage
  lost : ∀ k, s.call k = .done false → stage ≠ none
  linked_iff : ∀ i, i ∈ s.linked ↔ s.sub i = .subscribed
  linked_nodup : s.linked.Nodup
  conserved : s.linked.Perm (s.resumes.map Prod.fst ++ xs)
  resumed_by : ∀ i k, (i, k) ∈ s.resumes → Resolved stage ∧ ∃ pc, stage = some (k, pc)
  refused : ∀ i, s.sub i = .refused → Resolved stage
  next_ne : ∀ i, s.sub i = .trying → s.next (.object i) ≠ some .disabled

/-- The invariant of every run. -/
def Inv (arg : Nat → PromiseArg T E) (s : Race T E) : Prop := ∃ stage xs, InvAt arg s stage xs

theorem inv_init : Inv arg ({} : Race T E) := by
  refine ⟨none, [], ⟨rfl, rfl⟩, by simp, ?_, by simp, by simp, by simp, by simp, by simp, by simp,
    by simp⟩
  intro k pc hpc
  simp only [reduceCtorEq, iff_false]
  rintro rfl
  exact hpc

/-! ## Stages -/

section Stages

variable {s : Race T E} {stage : Stage} {xs : List Nat} {k : Nat} {pc pc' : CallPc}

theorem InvAt.won (hi : InvAt arg s (some (k, pc)) xs) : Won pc := by
  have hshape := hi.shape
  cases pc with
  | claimed | settled | walking _ => trivial
  | idle => exact hshape.elim
  | done won =>
      cases won with
      | true => trivial
      | false => exact hshape.elim

/-- A call that has won is the winner. -/
theorem InvAt.stage_eq (hi : InvAt arg s stage xs) (h : Won (s.call k)) :
    stage = some (k, s.call k) := (hi.calls k (s.call k) h).mp rfl

/-- The winner has won. -/
theorem InvAt.call_eq (hi : InvAt arg s (some (k, pc)) xs) : s.call k = pc :=
  (hi.calls k pc hi.won).mpr rfl

/-- The winner goes on to `pc'`, or the call becomes the winner. -/
theorem Calls.move {call : Nat → CallPc} (h : Calls call stage)
    (hstage : stage = none ∨ ∃ pc, stage = some (k, pc)) :
    Calls (Function.update call k pc') (some (k, pc')) := by
  intro k' pc'' hwon'
  by_cases hk : k' = k
  · subst hk
    simp
  · have hne : stage ≠ some (k', pc'') := by
      rintro rfl
      rcases hstage with hstage | ⟨pc, hstage⟩
      · cases hstage
      · cases hstage
        exact hk rfl
    rw [Function.update_of_ne hk, h k' pc'' hwon']
    simp [hne, Ne.symm hk]

/-- A call that goes on without having won changes nothing of the others. -/
theorem Calls.lose {call : Nat → CallPc} (h : Calls call stage) (hpc : ¬ Won (call k)) :
    Calls (Function.update call k (.done false)) stage := by
  intro k' pc'' hwon'
  by_cases hk : k' = k
  · subst hk
    rw [Function.update_self]
    constructor
    · rintro rfl
      exact hwon'.elim
    · intro hstage
      rw [(h k' pc'' hwon').mpr hstage] at hpc
      exact absurd hwon' hpc
  · rw [Function.update_of_ne hk]
    exact h k' pc'' hwon'

end Stages

/-! ## The steps of a call -/

section CallSteps

variable {s s' : Race T E} {stage : Stage} {xs : List Nat} {k : Nat}

/-- While nobody has won, nobody was resumed and nobody refused. -/
theorem InvAt.of_open (hi : InvAt arg s none xs) :
    s.resumes = [] ∧ ∀ i, s.sub i ≠ .refused :=
  ⟨List.eq_nil_iff_forall_not_mem.mpr fun r hr => (hi.resumed_by r.1 r.2 hr).1,
    fun i hs => hi.refused i hs⟩

/-- The call that finds the promise pointing at the future wins. -/
theorem InvAt.win (hi : InvAt arg s none xs) {pc : CallPc}
    (hshape : Shape arg s (xs.map .object) (some (k, pc))) :
    InvAt arg { s with owner := false, call := Function.update s.call k pc } (some (k, pc)) xs where
  shape := by
    cases pc with
    | claimed | settled | walking _ => exact hshape
    | idle => exact hshape.elim
    | done won => cases won <;> exact hshape
  owner := by simp
  calls := hi.calls.move (.inl rfl)
  lost _ _ := by simp
  linked_iff := hi.linked_iff
  linked_nodup := hi.linked_nodup
  conserved := hi.conserved
  resumed_by i k' hr := by
    rw [hi.of_open.1] at hr
    cases hr
  refused i hs := absurd hs (hi.of_open.2 i)
  next_ne := hi.next_ne

theorem InvAt.callClaim (hi : InvAt arg s stage xs) (hc : s.call k = .idle)
    (h : s.callStep (arg k) k = some s') : Inv arg s' := by
  by_cases ho : s.owner = true
  · obtain rfl := hi.owner.mp ho
    simp only [callStep, hc, if_pos ho, Option.some.injEq] at h
    subst h
    obtain ⟨hstored, hlinks⟩ := hi.shape
    cases harg : arg k with
    | value v => exact ⟨_, xs, hi.win ⟨hstored, hlinks⟩⟩
    | exception e => exact ⟨_, xs, hi.win ⟨hstored, hlinks⟩⟩
    | drop => exact ⟨_, xs, hi.win ⟨by rw [hstored, harg]; rfl, hlinks⟩⟩
  · simp only [callStep, hc, if_neg ho, Option.some.injEq] at h
    subst h
    have hne : stage ≠ none := fun hstage => ho (hi.owner.mpr hstage)
    refine ⟨stage, xs, ⟨?_, hi.owner, hi.calls.lose (by rw [hc]; exact id), fun _ _ => hne,
      hi.linked_iff, hi.linked_nodup, hi.conserved, hi.resumed_by, hi.refused, hi.next_ne⟩⟩
    exact hi.shape

/-- The winner goes on without touching the awaiters. -/
theorem InvAt.goOn {pc pc' : CallPc} (hi : InvAt arg s (some (k, pc)) xs)
    {stored : Stored T E} {awaiter : Option Awaiter}
    (hshape : Shape arg { s with stored := stored, awaiter := awaiter } (xs.map .object)
      (some (k, pc')))
    (hres : Resolved (some (k, pc)) → Resolved (some (k, pc'))) :
    InvAt arg { s with stored := stored, awaiter := awaiter,
                       call := Function.update s.call k pc' } (some (k, pc')) xs where
  shape := by
    cases pc' with
    | claimed | settled | walking _ => exact hshape
    | idle => exact hshape.elim
    | done won => cases won <;> exact hshape
  owner := by simpa using hi.owner
  calls := hi.calls.move (.inr ⟨_, rfl⟩)
  lost _ _ := by simp
  linked_iff := hi.linked_iff
  linked_nodup := hi.linked_nodup
  conserved := hi.conserved
  resumed_by i k' hr := by
    obtain ⟨hresolved, pc'', heq⟩ := hi.resumed_by i k' hr
    cases heq
    exact ⟨hres hresolved, pc', rfl⟩
  refused i hs := hres (hi.refused i hs)
  next_ne := hi.next_ne

/-- The exchange that resolves takes the whole chain. -/
theorem InvAt.callResolve (hi : InvAt arg s stage xs) (hc : s.call k = .settled)
    (h : s.callStep (arg k) k = some s') :
    ∃ chain, InvAt arg s' (some (k, .walking chain)) xs := by
  obtain rfl : stage = some (k, .settled) := by rw [← hc]; exact hi.stage_eq (by rw [hc]; trivial)
  simp only [callStep, hc, Option.some.injEq] at h
  subst h
  exact ⟨s.awaiter, hi.goOn ⟨hi.shape.1, rfl, hi.shape.2⟩ fun hres => hres.elim⟩

/-- A round of the resuming loop: the first awaiter of the chain is resumed. -/
theorem InvAt.callWalk (hi : InvAt arg s stage xs) {y : Awaiter}
    (hc : s.call k = .walking (some y)) (h : s.callStep (arg k) k = some s') :
    ∃ i ys, xs = i :: ys ∧ InvAt arg s' (some (k, .walking (s.next y))) ys := by
  obtain rfl : stage = some (k, .walking (some y)) := by
    rw [← hc]
    exact hi.stage_eq (by rw [hc]; trivial)
  simp only [callStep, hc, Option.some.injEq] at h
  subst h
  obtain ⟨hstored, hawaiter, hlinks⟩ := hi.shape
  cases xs with
  | nil => cases hlinks
  | cons i ys =>
      obtain ⟨hy, hrest⟩ := hlinks
      obtain rfl : y = .object i := Option.some.inj hy
      have hperm : s.linked.Perm ((s.resumes ++ [(i, k)]).map Prod.fst ++ ys) := by
        simpa using hi.conserved
      have hys : i ∉ ys := by
        have hnd := hi.conserved.nodup_iff.mp hi.linked_nodup
        exact (List.nodup_cons.mp hnd.of_append_right).1
      refine ⟨i, ys, rfl, ⟨⟨hstored, hawaiter, ?_⟩, by simpa using hi.owner,
        hi.calls.move (.inr ⟨_, rfl⟩), by simp, hi.linked_iff, hi.linked_nodup, hperm, ?_,
        fun _ _ => trivial, ?_⟩⟩
      · refine (Links.update_iff ?_).mpr hrest
        simpa using hys
      · intro i' k' hr
        rcases List.mem_append.mp hr with hr | hr
        · obtain ⟨-, pc, heq⟩ := hi.resumed_by i' k' hr
          cases heq
          exact ⟨trivial, _, rfl⟩
        · rw [List.mem_singleton, Prod.mk.injEq] at hr
          exact ⟨trivial, _, by rw [hr.2]⟩
      · intro i' hs
        by_cases hii : i' = i
        · subst hii
          simp
        · show Function.update s.next (.object i) none (.object i') ≠ some .disabled
          rw [Function.update_of_ne (by simpa using hii)]
          exact hi.next_ne i' hs

theorem InvAt.callFinish (hi : InvAt arg s stage xs) (hc : s.call k = .walking none)
    (h : s.callStep (arg k) k = some s') : InvAt arg s' (some (k, .done true)) xs := by
  obtain rfl : stage = some (k, .walking none) := by
    rw [← hc]
    exact hi.stage_eq (by rw [hc]; trivial)
  simp only [callStep, hc, Option.some.injEq] at h
  subst h
  obtain ⟨hstored, hawaiter, hlinks⟩ := hi.shape
  refine hi.goOn ⟨hstored, hawaiter, ?_⟩ fun _ => trivial
  cases xs with
  | nil => rfl
  | cons i ys => cases hlinks.1

/-- **Step lemma for the calls.** -/
theorem inv_callStep (hinv : Inv arg s) (h : s.callStep (arg k) k = some s') : Inv arg s' := by
  obtain ⟨stage, xs, hi⟩ := hinv
  cases hc : s.call k with
  | idle => exact hi.callClaim hc h
  | claimed =>
      obtain rfl : stage = some (k, .claimed) := by
        rw [← hc]
        exact hi.stage_eq (by rw [hc]; trivial)
      simp only [callStep, hc, Option.some.injEq] at h
      subst h
      exact ⟨_, xs, hi.goOn ⟨rfl, hi.shape.2⟩ fun hres => hres.elim⟩
  | settled =>
      obtain ⟨chain, hi'⟩ := hi.callResolve hc h
      exact ⟨_, xs, hi'⟩
  | walking chain =>
      cases chain with
      | none => exact ⟨_, xs, hi.callFinish hc h⟩
      | some y =>
          obtain ⟨i, ys, -, hi'⟩ := hi.callWalk hc h
          exact ⟨_, ys, hi'⟩
  | done won => simp [callStep, hc] at h

end CallSteps

/-! ## The steps of a subscribing awaiter -/

section SubscribeSteps

variable {s s' : Race T E} {stage : Stage} {xs : List Nat} {i : Nat} {spurious : Bool}

/-- The resolving exchange has been made exactly when the future is ready. -/
theorem InvAt.ready_iff (hi : InvAt arg s stage xs) : s.ready = true ↔ Resolved stage := by
  have hopen : Links s.next s.awaiter (xs.map .object) none → s.ready = false := by
    intro hlinks
    rw [ready, Links.start_eq_head? hlinks]
    cases xs <;> simp
  have hshape := hi.shape
  match stage with
  | none => simp [Resolved, hopen hshape.2]
  | some (_, .claimed) => simp [Resolved, hopen hshape.2]
  | some (_, .settled) => simp [Resolved, hopen hshape.2]
  | some (_, .walking _) => simp [Resolved, ready, hshape.2.1]
  | some (_, .done true) => simp [Resolved, ready, hshape.2.1]
  | some (_, .idle) => exact hshape.elim
  | some (_, .done false) => exact hshape.elim

/-- The awaiter that is trying waits in no chain. -/
theorem InvAt.not_mem (hi : InvAt arg s stage xs) (hs : s.sub i ≠ .subscribed) :
    i ∉ s.linked ∧ i ∉ xs := by
  have hl : i ∉ s.linked := fun hl => hs ((hi.linked_iff i).mp hl)
  exact ⟨hl, fun hx => hl (hi.conserved.mem_iff.mpr (List.mem_append_right _ hx))⟩

/-- Writing the `_next` field of an awaiter that waits in no chain keeps the shape. -/
theorem Shape.update {ys : List Awaiter} {a : Awaiter} {v : Option Awaiter}
    {sub : Nat → SubPc} (h : Shape arg s ys stage) (ha : a ∉ ys) :
    Shape arg { s with next := Function.update s.next a v, sub := sub } ys stage := by
  match stage with
  | none => exact ⟨h.1, (Links.update_iff ha).mpr h.2⟩
  | some (_, .claimed) => exact ⟨h.1, (Links.update_iff ha).mpr h.2⟩
  | some (_, .settled) => exact ⟨h.1, (Links.update_iff ha).mpr h.2⟩
  | some (_, .walking _) => exact ⟨h.1, h.2.1, (Links.update_iff ha).mpr h.2.2⟩
  | some (_, .done true) => exact h
  | some (_, .idle) => exact h.elim
  | some (_, .done false) => exact h.elim

/-- A successful exchange links the awaiter. -/
theorem InvAt.link (hi : InvAt arg s stage xs) (hs : s.sub i = .trying)
    (htop : s.awaiter = s.next (.object i)) :
    InvAt arg { s with awaiter := some (.object i), linked := s.linked ++ [i],
                       sub := Function.update s.sub i .subscribed } stage (i :: xs) := by
  obtain ⟨hl, hx⟩ := hi.not_mem (i := i) (by simp [hs])
  have hnot : s.awaiter ≠ some .disabled := fun hd => hi.next_ne i hs (htop ▸ hd)
  have hres : ¬ Resolved stage := fun hr =>
    hnot (by simpa [ready] using hi.ready_iff.mpr hr)
  refine ⟨?_, hi.owner, hi.calls, hi.lost, ?_, ?_, ?_, hi.resumed_by, ?_, ?_⟩
  · have hshape := hi.shape
    match stage with
    | none => exact ⟨hshape.1, rfl, htop ▸ hshape.2⟩
    | some (_, .claimed) => exact ⟨hshape.1, rfl, htop ▸ hshape.2⟩
    | some (_, .settled) => exact ⟨hshape.1, rfl, htop ▸ hshape.2⟩
    | some (_, .walking _) => exact absurd trivial hres
    | some (_, .done true) => exact absurd trivial hres
    | some (_, .idle) => exact hshape.elim
    | some (_, .done false) => exact hshape.elim
  · intro j
    rw [List.mem_append, List.mem_singleton, hi.linked_iff]
    by_cases hj : j = i
    · simp [hj]
    · simp [hj]
  · exact List.nodup_append.mpr ⟨hi.linked_nodup, by simp, by rintro a ha b hb rfl; simp_all⟩
  · have hperm : (s.linked ++ [i]).Perm (i :: (s.resumes.map Prod.fst ++ xs)) :=
      (List.perm_append_singleton i s.linked).trans (hi.conserved.cons i)
    exact hperm.trans List.perm_middle.symm
  · intro j hj
    by_cases hji : j = i
    · simp [hji] at hj
    · exact hi.refused j (by simpa [hji] using hj)
  · intro j hj
    by_cases hji : j = i
    · simp [hji] at hj
    · exact hi.next_ne j (by simpa [hji] using hj)

/-- **Step lemma for the awaiters.** -/
theorem inv_subscribeStep (hinv : Inv arg s) (h : s.subscribeStep i spurious = some s') :
    Inv arg s' := by
  obtain ⟨stage, xs, hi⟩ := hinv
  cases hs : s.sub i with
  | subscribed | refused => simp [subscribeStep, hs] at h
  | trying =>
      have hmem : Awaiter.object i ∉ xs.map Awaiter.object := by
        simpa using (hi.not_mem (i := i) (by simp [hs])).2
      by_cases hex : spurious = false ∧ s.awaiter = s.next (.object i)
      · simp only [subscribeStep, hs, Awaiter.subscribeCheckReady_of_exchanged hex,
          Option.some.injEq] at h
        subst h
        exact ⟨stage, i :: xs, hi.link hs hex.2⟩
      · by_cases htop : s.awaiter = some .disabled
        · -- refused: the future is ready
          simp only [subscribeStep, hs, Awaiter.subscribeCheckReady_of_ready hex htop,
            Option.some.injEq] at h
          subst h
          have hres : Resolved stage := hi.ready_iff.mp (by simp [ready, htop])
          refine ⟨stage, xs, hi.shape.update hmem, hi.owner, hi.calls, hi.lost, ?_,
            hi.linked_nodup, hi.conserved, hi.resumed_by, fun _ _ => hres, ?_⟩
          · intro j
            rw [hi.linked_iff]
            by_cases hj : j = i
            · simp [hj, hs]
            · simp [hj]
          · intro j hj
            by_cases hji : j = i
            · simp [hji] at hj
            · show Function.update s.next (.object i) none (.object j) ≠ some .disabled
              rw [Function.update_of_ne (by simpa using hji)]
              exact hi.next_ne j (by simpa [hji] using hj)
        · simp only [subscribeStep, hs, Awaiter.subscribeCheckReady_of_retry hex htop,
            Option.some.injEq] at h
          subst h
          refine ⟨stage, xs, hi.shape.update hmem, hi.owner, hi.calls, hi.lost, hi.linked_iff,
            hi.linked_nodup, hi.conserved, hi.resumed_by, hi.refused, ?_⟩
          intro j hj
          show Function.update s.next (.object i) s.awaiter (.object j) ≠ some .disabled
          by_cases hji : j = i
          · rw [hji, Function.update_self]
            exact htop
          · rw [Function.update_of_ne (by simpa using hji)]
            exact hi.next_ne j hj

end SubscribeSteps

/-! ## Runs -/

theorem inv_step {s s' : Race T E} {a : Action} (hinv : Inv arg s)
    (h : step arg s a = some s') : Inv arg s' := by
  cases a with
  | call k => exact inv_callStep hinv h
  | subscribe i spurious => exact inv_subscribeStep hinv h

/-- **Run lemma**: the invariant holds after every run. -/
theorem inv_exec (acts : List Action) : Inv arg (Run.exec (step arg) {} acts) :=
  Run.exec_inv (fun _ _ _ hi h => inv_step hi h) inv_init acts

/-- From the loop on, the winner needs one step for each awaiter of its chain and
a last one. -/
theorem InvAt.walk_returns {k : Nat} {xs : List Nat} :
    ∀ {s : Race T E} {chain : Option Awaiter}, InvAt arg s (some (k, .walking chain)) xs →
      (Run.exec (step arg) s (List.replicate (xs.length + 1) (.call k))).call k = .done true := by
  induction xs with
  | nil =>
      intro s chain hi
      have hc := hi.call_eq
      obtain rfl : chain = none := hi.shape.2.2
      have hs : step arg s (.call k) =
          some { s with call := Function.update s.call k (.done true) } := by
        simp [step, callStep, hc]
      simp [List.replicate, Run.tryStep_of_some _ _ hs]
  | cons i ys ih =>
      intro s chain hi
      have hc := hi.call_eq
      obtain rfl : chain = some (.object i) := hi.shape.2.2.1
      obtain ⟨s', hs⟩ : ∃ s', step arg s (.call k) = some s' := by
        simp [step, callStep, hc]
      obtain ⟨i', ys', heq, hi'⟩ := hi.callWalk hc hs
      obtain ⟨rfl, rfl⟩ := List.cons.inj heq
      rw [List.length_cons, List.replicate_succ, Run.exec_cons, Run.tryStep_of_some _ _ hs]
      exact ih hi'

/-- The winner always returns. -/
theorem Inv.winner_returns {s : Race T E} {k : Nat} (hinv : Inv arg s) (hwon : Won (s.call k)) :
    ∃ n, (Run.exec (step arg) s (List.replicate n (.call k))).call k = .done true := by
  have hsettled : ∀ {s : Race T E}, Inv arg s → s.call k = .settled →
      ∃ n, (Run.exec (step arg) s (List.replicate n (.call k))).call k = .done true := by
    rintro s ⟨stage, xs, hi⟩ hc
    obtain ⟨s', hs⟩ : ∃ s', step arg s (.call k) = some s' := by
      simp [step, callStep, hc]
    obtain ⟨chain, hi'⟩ := hi.callResolve hc hs
    refine ⟨xs.length + 1 + 1, ?_⟩
    rw [List.replicate_succ, Run.exec_cons, Run.tryStep_of_some _ _ hs]
    exact hi'.walk_returns
  cases hc : s.call k with
  | idle =>
      rw [hc] at hwon
      exact hwon.elim
  | claimed =>
      have hs : step arg s (.call k) =
          some { s with stored := (arg k).stored, call := Function.update s.call k .settled } := by
        simp [step, callStep, hc]
      obtain ⟨n, hn⟩ := hsettled (inv_step hinv hs) (by simp)
      refine ⟨n + 1, ?_⟩
      rw [List.replicate_succ, Run.exec_cons, Run.tryStep_of_some _ _ hs]
      exact hn
  | settled => exact hsettled hinv hc
  | walking chain =>
      obtain ⟨stage, xs, hi⟩ := hinv
      obtain rfl : stage = some (k, .walking chain) := hc ▸ hi.stage_eq hwon
      exact ⟨_, hi.walk_returns⟩
  | done won =>
      cases won with
      | true => exact ⟨0, hc⟩
      | false =>
          rw [hc] at hwon
          exact hwon.elim

/-- The stored outcome at a stage after the resolving exchange. -/
theorem InvAt.stored_eq {s : Race T E} {k : Nat} {pc : CallPc} {xs : List Nat}
    (hi : InvAt arg s (some (k, pc)) xs) (hres : Resolved (some (k, pc))) :
    s.stored = (arg k).stored := by
  have hshape := hi.shape
  match pc with
  | .walking _ => exact hshape.1
  | .done true => exact hshape.1
  | .idle => exact hshape.elim
  | .done false => exact hshape.elim
  | .claimed => exact hres.elim
  | .settled => exact hres.elim

/-- After the resolution an attempt to subscribe is refused. -/
theorem InvAt.subscribe_refused {s : Race T E} {stage : Stage} {xs : List Nat}
    (hi : InvAt arg s stage xs) (hr : s.ready = true) {i : Nat} (hs : s.sub i = .trying)
    (spurious : Bool) :
    ∃ s', step arg s (.subscribe i spurious) = some s' ∧ s'.sub i = .refused := by
  have htop : s.awaiter = some .disabled := by simpa [ready] using hr
  have hex : ¬ (spurious = false ∧ s.awaiter = s.next (.object i)) := by
    rintro ⟨-, heq⟩
    exact hi.next_ne i hs (heq ▸ htop)
  refine ⟨{ s with next := Function.update s.next (.object i) none,
                   sub := Function.update s.sub i .refused }, ?_, by simp⟩
  simp only [step, subscribeStep, hs, Awaiter.subscribeCheckReady_of_ready hex htop]

/-- The first step of a call decides whether it wins. -/
theorem InvAt.made {s : Race T E} {stage : Stage} {xs : List Nat} (hi : InvAt arg s stage xs)
    {k : Nat} (hk : s.call k = .idle) : ∃ s', step arg s (.call k) = some s' ∧
      (Won (s'.call k) ∨ s'.call k = .done false ∧ ∃ w, Won (s'.call w)) := by
  simp only [step, callStep, hk]
  by_cases howner : s.owner = true
  · rw [if_pos howner]
    refine ⟨_, rfl, .inl ?_⟩
    cases arg k <;> simp [Won]
  · rw [if_neg howner]
    refine ⟨_, rfl, .inr ⟨Function.update_self .., ?_⟩⟩
    cases hstage : stage with
    | none => exact absurd (hi.owner.mpr hstage) howner
    | some w =>
        obtain ⟨w, pc⟩ := w
        subst hstage
        have hne : w ≠ k := by
          rintro rfl
          have hwon := hi.won
          rw [← hi.call_eq, hk] at hwon
          exact hwon
        exact ⟨w, by simpa [hne, hi.call_eq] using hi.won⟩

/-- The invariant says what is asked. -/
theorem Inv.exactlyOnce {s : Race T E} (hinv : Inv arg s) : ExactlyOnce arg s := by
  obtain ⟨stage, xs, hi⟩ := id hinv
  have hdone : ∀ k, s.call k = .done true → stage = some (k, .done true) := fun k hc =>
    (hi.calls k (.done true) trivial).mp hc
  refine ⟨?_, fun k hk => hi.made hk, ?_, fun k hk => hinv.winner_returns hk, ?_, hi.linked_iff,
    ?_, ?_, ?_, ?_, ?_⟩
  · intro k k' hk hk'
    have heq := (hi.stage_eq hk).symm.trans (hi.stage_eq hk')
    cases heq
    rfl
  · intro k hk
    cases hstage : stage with
    | none =>
        exfalso
        subst hstage
        cases hc : s.call k with
        | idle => exact hk hc
        | done won =>
            cases won with
            | true => cases hdone k hc
            | false => exact hi.lost k hc rfl
        | claimed | settled | walking _ => cases hi.stage_eq (k := k) (by rw [hc]; trivial)
    | some w =>
        obtain ⟨w, pc⟩ := w
        subst hstage
        exact ⟨w, by rw [hi.call_eq]; exact hi.won⟩
  · intro k hc
    obtain rfl := hdone k hc
    exact ⟨hi.ready_iff.mpr trivial, hi.stored_eq trivial⟩
  · intro i k hr
    obtain ⟨hres, pc, rfl⟩ := hi.resumed_by i k hr
    refine ⟨hi.conserved.mem_iff.mpr (List.mem_append_left _ (List.mem_map.mpr ⟨_, hr, rfl⟩)), ?_,
      hi.ready_iff.mpr hres, hi.stored_eq hres⟩
    rw [hi.call_eq]
    exact hi.won
  · exact (hi.conserved.nodup_iff.mp hi.linked_nodup).of_append_left
  · intro k hc i hl
    obtain rfl := hdone k hc
    have hempty : xs = [] := List.map_eq_nil_iff.mp hi.shape.2.2
    have hmem := hi.conserved.mem_iff.mp hl
    rw [hempty, List.append_nil] at hmem
    obtain ⟨⟨i', k'⟩, hr, rfl⟩ := List.mem_map.mp hmem
    obtain ⟨-, pc, heq⟩ := hi.resumed_by i' k' hr
    cases heq
    exact hr
  · intro i hs
    have hres := hi.refused i hs
    refine ⟨fun hl => ?_, hi.ready_iff.mpr hres, ?_⟩
    · rw [hi.linked_iff, hs] at hl
      cases hl
    · match stage with
      | none => exact hres.elim
      | some (k, pc) =>
          refine ⟨k, ?_, hi.stored_eq hres⟩
          rw [hi.call_eq]
          exact hi.won
  · exact fun hr i hs spurious => hi.subscribe_refused hr hs spurious

/-- **Exactly-once resolution and wake-up**, after every run, whatever the calls
are made with. -/
theorem exactlyOnce_exec (arg : Nat → PromiseArg T E) (acts : List Action) :
    ExactlyOnce arg (Run.exec (step arg) {} acts) := (inv_exec acts).exactlyOnce

end Race

end Future

end Cocls
