import Cocls.Callbacks

/-!
# Cocls.Callbacks.Once

Every run of an adapter.

The future wakes its awaiters exactly once (`Race.Inv.exactlyOnce`), so what is
left is the place of the adapter: it has not subscribed, or waits in the chain,
or has been resumed, and only then the callback is executed.
-/

namespace Cocls

namespace Callbacks

namespace Registration

open Future (Race)

variable {T E : Type*} {arg : Nat → PromiseArg T E} {s s' : Registration T E}

/-! ## The future -/

section Future

variable {r r' : Race T E} {a : Race.Action} {i k : Nat} {spurious : Bool}

/-- What a call does to the awaiters that subscribe. -/
theorem call_sub (hs : r.callStep (arg k) k = some r') : r'.sub = r.sub := by
  simp only [Race.callStep] at hs
  split at hs
  · split at hs <;> cases hs <;> rfl
  all_goals cases hs
  all_goals rfl

theorem subscribe_sub (hi : i ≠ 0) (hs : r.subscribeStep i spurious = some r') :
    r'.sub 0 = r.sub 0 := by
  simp only [Race.subscribeStep] at hs
  split at hs
  · split at hs <;> cases hs
    · exact Function.update_of_ne hi.symm _ _
    · exact Function.update_of_ne hi.symm _ _
    · rfl
  · cases hs
  · cases hs

theorem subscribe_resumes (hs : r.subscribeStep i spurious = some r') :
    r'.resumes = r.resumes ∧ r'.call = r.call := by
  simp only [Race.subscribeStep] at hs
  split at hs
  · split at hs <;> cases hs <;> exact ⟨rfl, rfl⟩
  · cases hs
  · cases hs

/-- A call that has won goes on to its end. -/
theorem won_call {j : Nat} (h : Race.Won (r.call k)) (hs : r.callStep (arg j) j = some r') :
    Race.Won (r'.call k) := by
  have hmove : ∀ pc, Race.Won pc → Race.Won (Function.update r.call j pc k) := by
    intro pc hpc
    by_cases hkj : k = j
    · rw [hkj, Function.update_self]
      exact hpc
    · rw [Function.update_of_ne hkj]
      exact h
  cases hc : r.call j with
  | idle =>
      have hkj : k ≠ j := by
        rintro rfl
        rw [hc] at h
        exact h
      simp only [Race.callStep, hc] at hs
      split at hs <;> cases hs <;> simpa only [Function.update_of_ne hkj] using h
  | claimed =>
      simp only [Race.callStep, hc] at hs
      cases hs
      exact hmove _ trivial
  | settled =>
      simp only [Race.callStep, hc] at hs
      cases hs
      exact hmove _ trivial
  | walking chain =>
      cases chain with
      | none =>
          simp only [Race.callStep, hc] at hs
          cases hs
          exact hmove _ trivial
      | some y =>
          simp only [Race.callStep, hc] at hs
          cases hs
          exact hmove _ trivial
  | done won =>
      simp only [Race.callStep, hc] at hs
      cases hs

/-- A future that is ready holds what the winner was called with. -/
theorem winner_of_ready (h : Race.Inv arg r) (hr : r.ready = true) :
    ∃ k, Race.Won (r.call k) ∧ r.stored = (arg k).stored := by
  obtain ⟨stage, xs, hi⟩ := h
  have hres := hi.ready_iff.mp hr
  match stage with
  | none => exact hres.elim
  | some (k, pc) =>
      refine ⟨k, ?_, hi.stored_eq hres⟩
      rw [hi.call_eq]
      exact hi.won

/-- The first call wins. -/
theorem call_wins (h : Race.Inv arg r) (hnone : ¬ ∃ k, Race.Won (r.call k)) :
    ∃ r', r.callStep (arg 0) 0 = some r' ∧ Race.Won (r'.call 0) := by
  have hidle : r.call 0 = .idle := by
    by_contra hne
    exact hnone (h.exactlyOnce.some_winner 0 hne)
  obtain ⟨stage, xs, hi⟩ := h
  have howner : r.owner = true := by
    rw [hi.owner]
    match stage with
    | none => rfl
    | some (k, pc) => exact absurd ⟨k, hi.call_eq ▸ hi.won⟩ hnone
  simp only [Race.callStep, hidle, if_pos howner]
  refine ⟨_, rfl, ?_⟩
  simp only [Function.update_self]
  cases arg 0 <;> trivial

/-- A future that is ready stays ready. -/
theorem ready_call (hr : r.ready = true) (hs : r.callStep (arg k) k = some r') :
    r'.ready = true := by
  have ha : r.awaiter = some .disabled := by simpa [Race.ready] using hr
  simp only [Race.callStep] at hs
  split at hs
  · split at hs <;> cases hs <;> exact hr
  all_goals cases hs
  all_goals simp [Race.ready, ha]

theorem ready_subscribe (h : Race.Inv arg r) (hr : r.ready = true)
    (hs : r.subscribeStep i spurious = some r') : r'.ready = true := by
  obtain ⟨stage, xs, hi⟩ := h
  have htop : r.awaiter = some .disabled := by simpa [Race.ready] using hr
  cases hsub : r.sub i with
  | subscribed | refused => simp [Race.subscribeStep, hsub] at hs
  | trying =>
      have hex : ¬ (spurious = false ∧ r.awaiter = r.next (.object i)) := by
        rintro ⟨-, heq⟩
        exact hi.next_ne i hsub (heq ▸ htop)
      simp only [Race.subscribeStep, hsub, Awaiter.subscribeCheckReady_of_ready hex htop] at hs
      cases hs
      exact hr

end Future

/-! ## The adapter -/

/-- What is known at each place. -/
def AtPlace (arg : Nat → PromiseArg T E) (s : Registration T E) : Prop :=
  match s.place with
  | .testing | .subscribing => s.race.sub 0 = .trying ∧ s.runs = []
  | .waiting => s.race.sub 0 = .subscribed ∧ 0 ∉ s.race.resumes.map Prod.fst ∧ s.runs = []
  | .due => s.race.ready = true ∧ s.runs = []
  | .done => ∃ x k, s.runs = [x] ∧ x.ready = true ∧ Race.Won (s.race.call k) ∧
      x.stored = (arg k).stored ∧ (s.adapter = .callbackAwait → x.result = valueOf x.stored)

structure Inv (arg : Nat → PromiseArg T E) (s : Registration T E) : Prop where
  race : Race.Inv arg s.race
  place : AtPlace arg s

/-- `future_with_cb` is made: as if it had subscribed to a new future. -/
theorem preset_eq : Race.subscribeStep ({} : Race T E) 0 false = some preset := by
  simp [Race.subscribeStep, Awaiter.subscribeCheckReady, Awaiter.compareExchangeWeak, preset]

theorem inv_start (arg : Nat → PromiseArg T E) (ad : Adapter) : Inv arg (start ad) := by
  cases ad with
  | callbackAwait => exact ⟨Race.inv_init, rfl, rfl⟩
  | futureWithCb =>
      have hs : Race.step arg {} (.subscribe 0 false) = some preset := preset_eq
      exact ⟨Race.inv_step Race.inv_init hs, rfl, by simp [start, preset], rfl⟩
  | callFnFutureAwaiter => exact ⟨Race.inv_init, rfl, rfl⟩
  | discard => exact ⟨Race.inv_init, rfl, rfl⟩

/-- The future makes a step. -/
theorem Inv.ofRace {r : Race T E} (h : Inv arg s) (hr : Race.Inv arg r)
    (hsub : r.sub 0 = s.race.sub 0) (hready : s.race.ready = true → r.ready = true)
    (hwon : ∀ k, Race.Won (s.race.call k) → Race.Won (r.call k)) : Inv arg (s.ofRace r) := by
  refine ⟨hr, ?_⟩
  have hplace := h.place
  simp only [AtPlace, Registration.ofRace] at hplace ⊢
  cases hp : s.place with
  | testing | subscribing =>
      rw [hp] at hplace
      simpa [hsub] using hplace
  | waiting =>
      rw [hp] at hplace
      obtain ⟨hs, -, hruns⟩ := hplace
      by_cases hmem : 0 ∈ r.resumes.map Prod.fst
      · obtain ⟨⟨i, k⟩, hk, rfl⟩ := List.mem_map.mp hmem
        have hreadyr := (hr.exactlyOnce.resumed_by _ k hk).2.2.1
        rw [if_pos ⟨rfl, hmem⟩]
        exact ⟨hreadyr, hruns⟩
      · rw [if_neg fun hc => hmem hc.2]
        exact ⟨hsub.trans hs, hmem, hruns⟩
  | due =>
      rw [hp] at hplace
      simpa using ⟨hready hplace.1, hplace.2⟩
  | done =>
      rw [hp] at hplace
      obtain ⟨x, k, hruns, hx, hk, hrest⟩ := hplace
      exact ⟨x, k, hruns, hx, hwon k hk, hrest⟩

theorem Inv.call {k : Nat} (h : Inv arg s) (hs : s.step arg (.call k) = some s') : Inv arg s' := by
  obtain ⟨r, hr, rfl⟩ := Option.map_eq_some_iff.mp hs
  exact h.ofRace (Race.inv_callStep h.race hr) (congrFun (call_sub hr) 0)
    (fun hready => ready_call hready hr) fun k hk => won_call hk hr

theorem Inv.subscribe {i : Nat} {spurious : Bool} (h : Inv arg s)
    (hs : s.step arg (.subscribe i spurious) = some s') : Inv arg s' := by
  simp only [Registration.step] at hs
  split at hs
  · cases hs
  · next hi =>
    obtain ⟨r, hr, rfl⟩ := Option.map_eq_some_iff.mp hs
    refine h.ofRace (Race.inv_subscribeStep h.race hr) (subscribe_sub hi hr)
      (fun hready => ready_subscribe h.race hready hr) fun k hk => ?_
    rw [(subscribe_resumes hr).2]
    exact hk

/-- The callbacks that do not throw. -/
theorem execute_of_ne (had : s.adapter ≠ .callbackAwait) (throws : Bool) :
    s.execute throws = if throws then none else
      some { s with place := .done
                    runs := s.runs ++ [{ ready := s.race.ready, stored := s.race.stored
                                         result := none }] } := by
  cases hs : s.adapter with
  | callbackAwait => exact absurd hs had
  | futureWithCb | callFnFutureAwaiter | discard =>
      cases throws <;> simp [Registration.execute, hs]

/-- The callback of an adapter that was resumed is executed once. -/
theorem Inv.execute {throws : Bool} (h : Inv arg s) (hp : s.place = .due)
    (hcatch : s.adapter = .callbackAwait → (valueOf s.race.stored).isSome → throws = false)
    (hs : s.execute throws = some s') : Inv arg s' := by
  have hplace := h.place
  rw [AtPlace, hp] at hplace
  obtain ⟨hready, hruns⟩ := hplace
  obtain ⟨k, hk, hstored⟩ := winner_of_ready h.race hready
  by_cases had : s.adapter = .callbackAwait
  · have hone : s.callbackAwait throws =
        [{ ready := s.race.ready, stored := s.race.stored, result := valueOf s.race.stored }] := by
      rw [callbackAwait, if_neg]
      rintro ⟨ht, hsome⟩
      rw [hcatch had hsome] at ht
      cases ht
    simp only [Registration.execute, had] at hs
    obtain rfl := Option.some.inj hs
    exact ⟨h.race, _, k, by rw [hruns, hone]; rfl, hready, hk, hstored, fun _ => rfl⟩
  · rw [execute_of_ne had] at hs
    cases throws with
    | true => cases hs
    | false =>
        obtain rfl := Option.some.inj hs
        exact ⟨h.race, _, k, by rw [hruns]; rfl, hready, hk, hstored, fun hc => absurd hc had⟩

theorem Inv.go {spurious throws : Bool} (h : Inv arg s)
    (hcatch : Catches s (.go spurious throws)) (hs : s.go spurious throws = some s') :
    Inv arg s' := by
  have hplace := h.place
  rw [AtPlace] at hplace
  rw [Registration.go] at hs
  cases hp : s.place with
  | testing =>
      rw [hp] at hs hplace
      obtain rfl := Option.some.inj hs
      refine ⟨h.race, ?_⟩
      cases hready : s.race.ready with
      | true => exact ⟨hready, hplace.2⟩
      | false => exact hplace
  | subscribing =>
      rw [hp] at hs hplace
      obtain ⟨r, hr, rfl⟩ := Option.map_eq_some_iff.mp hs
      have hinv := Race.inv_subscribeStep h.race hr
      refine ⟨hinv, ?_⟩
      cases hsub : r.sub 0 with
      | trying => exact ⟨hsub, hplace.2⟩
      | subscribed =>
          refine ⟨hsub, fun hmem => ?_, hplace.2⟩
          obtain ⟨⟨i, k⟩, hk, hi⟩ := List.mem_map.mp hmem
          rw [(subscribe_resumes hr).1] at hk
          obtain rfl : i = 0 := hi
          have hlinked := (h.race.exactlyOnce.resumed_by _ k hk).1
          rw [h.race.exactlyOnce.linked_iff, hplace.1] at hlinked
          cases hlinked
      | refused => exact ⟨(hinv.exactlyOnce.refused 0 hsub).2.1, hplace.2⟩
  | waiting | done => rw [hp] at hs; cases hs
  | due =>
      rw [hp] at hs
      exact h.execute hp (fun had hsome => hcatch had hp hsome) hs

/-- **Step lemma**. -/
theorem Inv.step {a : Action} (h : Inv arg s) (hcatch : Catches s a)
    (hs : s.step arg a = some s') : Inv arg s' := by
  cases a with
  | call k => exact h.call hs
  | subscribe i spurious => exact h.subscribe hs
  | go spurious throws => exact h.go hcatch hs
  | capture => exact hcatch.elim

/-! ## What is left to do -/

/-- From the place where it is due, the adapter gets to its callback in one step. -/
theorem Inv.comes_due (h : Inv arg s) (hp : s.place = .due) :
    ∃ s', s.step arg (.go false false) = some s' ∧ s'.runs.length = 1 := by
  have hplace := h.place
  rw [AtPlace, hp] at hplace
  simp only [Registration.step, Registration.go, hp, Registration.execute]
  split
  · exact ⟨_, rfl, by simp [hplace.2, callbackAwait]⟩
  · exact ⟨_, rfl, by simp [hplace.2]⟩
  · next heq _ => cases heq

/-- What the adapter does by itself, from a state in which it takes a step. -/
theorem goes_of_step (hs : s.step arg (.go false false) = some s')
    (h : ∃ m, (Run.exec (Registration.step arg) s'
      (List.replicate m (.go false false))).runs.length = 1) :
    ∃ m, (Run.exec (Registration.step arg) s
      (List.replicate m (.go false false))).runs.length = 1 := by
  obtain ⟨m, hm⟩ := h
  refine ⟨m + 1, ?_⟩
  rw [List.replicate_succ, Run.exec_cons, Run.tryStep_of_some _ _ hs]
  exact hm

theorem Inv.goes_due (h : Inv arg s) (hp : s.place = .due) :
    ∃ m, (Run.exec (Registration.step arg) s
      (List.replicate m (.go false false))).runs.length = 1 := by
  obtain ⟨s', hs, hone⟩ := h.comes_due hp
  exact goes_of_step hs ⟨0, hone⟩

/-- When the future is resolved the adapter gets to its callback. -/
theorem Inv.comes (h : Inv arg s) {k : Nat} (hk : s.race.call k = .done true) :
    ∃ m, (Run.exec (Registration.step arg) s
      (List.replicate m (.go false false))).runs.length = 1 := by
  have hex := h.race.exactlyOnce
  have hready : s.race.ready = true := (hex.outcome k hk).1
  have hplace := h.place
  rw [AtPlace] at hplace
  have hsub : s.race.sub 0 = .trying → s.place = .subscribing →
      ∃ m, (Run.exec (Registration.step arg) s
        (List.replicate m (.go false false))).runs.length = 1 := by
    intro hsub hp
    obtain ⟨r, hr, href⟩ := hex.closed hready 0 hsub false
    have hr : s.race.subscribeStep 0 false = some r := hr
    have hs : s.step arg (.go false false) = some { s with race := r, place := .due } := by
      simp only [Registration.step, Registration.go, hp, hr, Option.map_some, href]
    have hcatch : Catches s (.go false false) := fun _ _ _ => rfl
    exact goes_of_step hs ((h.step hcatch hs).goes_due rfl)
  cases hp : s.place with
  | testing =>
      have hs : s.step arg (.go false false) = some { s with place := .due } := by
        simp only [Registration.step, Registration.go, hp, hready, if_true]
      have hcatch : Catches s (.go false false) := fun _ _ _ => rfl
      exact goes_of_step hs ((h.step hcatch hs).goes_due rfl)
  | subscribing =>
      rw [hp] at hplace
      exact hsub hplace.1 hp
  | waiting =>
      rw [hp] at hplace
      obtain ⟨hs, hnot, -⟩ := hplace
      have hres := hex.none_lost k hk 0 ((hex.linked_iff 0).mpr hs)
      exact absurd (List.mem_map.mpr ⟨_, hres, rfl⟩) hnot
  | due => exact h.goes_due hp
  | done =>
      rw [hp] at hplace
      obtain ⟨x, k, hruns, -⟩ := hplace
      exact ⟨0, by simp [hruns]⟩

/-- The future goes through the steps of a call. -/
theorem exec_call_race (s : Registration T E) (k n : Nat) :
    (Run.exec (Registration.step arg) s (List.replicate n (.call k))).race =
      Run.exec (Race.step arg) s.race (List.replicate n (.call k)) := by
  induction n generalizing s with
  | zero => rfl
  | succ n ih =>
      simp only [List.replicate_succ, Run.exec_cons]
      rw [ih]
      congr 1
      rw [Run.tryStep, Run.tryStep]
      simp only [Registration.step, Race.step]
      cases s.race.callStep (arg k) k <;> rfl

/-- A call that runs to its end keeps the invariant. -/
theorem Inv.exec_call (h : Inv arg s) (k n : Nat) :
    Inv arg (Run.exec (Registration.step arg) s (List.replicate n (.call k))) := by
  have hstep : ∀ (s : Registration T E) a s', Inv arg s → Catches s a →
      s.step arg a = some s' → Inv arg s' := fun _ _ _ hi hc hs => hi.step hc hs
  refine Run.exec_inv_of_meets hstep h (Run.meets_of_forall _ _ _ fun a ha s => ?_)
  rw [List.eq_of_mem_replicate ha]
  trivial

/-- The promise can be called, and then the callback is executed. -/
theorem Inv.possible (h : Inv arg s) : ∃ k n m, (Run.exec (Registration.step arg) s
    (List.replicate n (.call k) ++ List.replicate m (.go false false))).runs.length = 1 := by
  have hwinner : ∃ k n, (Run.exec (Race.step arg) s.race (List.replicate n (.call k))).call k =
      .done true := by
    by_cases hwon : ∃ k, Race.Won (s.race.call k)
    · obtain ⟨k, hk⟩ := hwon
      exact ⟨k, h.race.winner_returns hk⟩
    · -- the promise was not called yet
      obtain ⟨r, hr, hk⟩ := call_wins h.race hwon
      obtain ⟨n, hn⟩ := (Race.inv_callStep h.race hr).winner_returns hk
      refine ⟨0, n + 1, ?_⟩
      rw [List.replicate_succ, Run.exec_cons, Run.tryStep_of_some _ _ (show
        Race.step arg s.race (.call 0) = some r from hr)]
      exact hn
  obtain ⟨k, n, hk⟩ := hwinner
  rw [← exec_call_race] at hk
  obtain ⟨m, hm⟩ := (h.exec_call k n).comes hk
  exact ⟨k, n, m, by rw [Run.exec_append]; exact hm⟩

theorem Inv.executedOnce (h : Inv arg s) : ExecutedOnce arg s := by
  have hplace := h.place
  rw [AtPlace] at hplace
  have hruns : s.runs = [] ∨ ∃ x k, s.runs = [x] ∧ x.ready = true ∧ Race.Won (s.race.call k) ∧
      x.stored = (arg k).stored ∧ (s.adapter = .callbackAwait → x.result = valueOf x.stored) := by
    cases hp : s.place with
    | testing | subscribing | due => rw [hp] at hplace; exact .inl hplace.2
    | waiting => rw [hp] at hplace; exact .inl hplace.2.2
    | done => rw [hp] at hplace; exact .inr hplace
  refine ⟨?_, fun x hx => ?_, fun had x hx => ?_, fun k hk => h.comes hk, h.possible⟩
  · obtain hruns | ⟨x, k, hruns, -⟩ := hruns <;> simp [hruns]
  · obtain hruns | ⟨y, k, hruns, hready, hk, hstored, -⟩ := hruns
    · rw [hruns] at hx
      cases hx
    · obtain rfl : x = y := by simpa [hruns] using hx
      exact ⟨hready, k, hk, hstored⟩
  · obtain hruns | ⟨y, k, hruns, -, -, -, hresult⟩ := hruns
    · rw [hruns] at hx
      cases hx
    · obtain rfl : x = y := by simpa [hruns] using hx
      exact hresult had

/-! ## What goes wrong -/

/-- The base class was constructed anew, and the adapter is in no chain. -/
structure Lost (arg : Nat → PromiseArg T E) (s : Registration T E) : Prop where
  race : Race.Inv arg s.race
  waiting : s.place = .waiting
  sub : s.race.sub 0 = .trying
  runs : s.runs = []

theorem Lost.step {a : Action} (h : Lost arg s)
    (ha : (∃ k, a = .call k) ∨ a = .go false false) (hs : s.step arg a = some s') :
    Lost arg s' := by
  obtain ⟨k, rfl⟩ | rfl := ha
  · obtain ⟨r, hr, rfl⟩ := Option.map_eq_some_iff.mp hs
    have hinv := Race.inv_callStep h.race hr
    have hsub : r.sub 0 = .trying := (congrFun (call_sub hr) 0).trans h.sub
    have hnot : 0 ∉ r.resumes.map Prod.fst := fun hmem => by
      obtain ⟨⟨i, j⟩, hj, hi⟩ := List.mem_map.mp hmem
      obtain rfl : i = 0 := hi
      have hlinked := (hinv.exactlyOnce.resumed_by _ j hj).1
      rw [hinv.exactlyOnce.linked_iff, hsub] at hlinked
      cases hlinked
    exact ⟨hinv, by simp [Registration.ofRace, hnot, h.waiting], hsub, h.runs⟩
  · simp [Registration.step, Registration.go, h.waiting] at hs

theorem Lost.not_executedOnce (h : Lost arg s) : ¬ ExecutedOnce arg s := by
  intro hex
  obtain ⟨k, n, m, hm⟩ := hex.possible
  have hstep : ∀ (s : Registration T E) a s', Lost arg s →
      ((∃ k, a = .call k) ∨ a = .go false false) → s.step arg a = some s' → Lost arg s' :=
    fun _ _ _ hi hc hs => hi.step hc hs
  have hmeets : Run.Meets (Registration.step arg)
      (fun _ a => (∃ k, a = .call k) ∨ a = .go false false) s
      (List.replicate n (.call k) ++ List.replicate m (.go false false)) := by
    refine Run.meets_of_forall _ _ _ fun a ha s => ?_
    rcases List.mem_append.mp ha with ha | ha
    · exact .inl ⟨k, List.eq_of_mem_replicate ha⟩
    · exact .inr (List.eq_of_mem_replicate ha)
  have hlost := Run.exec_inv_of_meets hstep h hmeets
  rw [hlost.runs] at hm
  cases hm

/-- A step that the code does not provide for shows at once. -/
theorem Inv.not_executedOnce {a : Action} (h : Inv arg s) (hbad : ¬ Catches s a)
    (hs : s.step arg a = some s') : ¬ ExecutedOnce arg s' := by
  cases a with
  | call k => exact absurd trivial hbad
  | subscribe i spurious => exact absurd trivial hbad
  | go spurious throws =>
      simp only [Catches, Classical.not_imp, Bool.not_eq_false] at hbad
      obtain ⟨had, hp, hvalue, rfl⟩ := hbad
      have hplace := h.place
      rw [AtPlace, hp] at hplace
      simp only [Registration.step, Registration.go, hp, Registration.execute, had] at hs
      obtain rfl := Option.some.inj hs
      intro hex
      have honce := hex.once
      simp [hplace.2, callbackAwait, hvalue] at honce
  | capture =>
      simp only [Registration.step] at hs
      split at hs
      · next hc =>
        obtain rfl := Option.some.inj hs
        have hplace := h.place
        rw [AtPlace, hc.2.1] at hplace
        exact Lost.not_executedOnce ⟨Race.inv_init, hc.2.1, rfl, hplace.2.2⟩
      · cases hs

/-- **Callbacks**: the callback of an adapter is executed exactly once in every state of a run
exactly if the callback of `callback_await` does not throw when it is given a value and no
`future_with_cb` is assigned with `operator<<`. -/
theorem executedOnce_iff (arg : Nat → PromiseArg T E) (ad : Adapter) (as : List Action) :
    (∀ n, ExecutedOnce arg (Run.exec (Registration.step arg) (start ad) (as.take n))) ↔
      Run.Meets (Registration.step arg) Catches (start ad) as :=
  Run.safe_iff_meets (fun _ _ _ h hcatch hs => h.step hcatch hs)
    (fun _ _ _ h hbad hs => h.not_executedOnce hbad hs) (fun _ h => h.executedOnce)
    (inv_start arg ad) as

/-- `callback_await` of a future that gets the value 3; the callback throws. -/
def throwingCallback : List Action :=
  [.go false false, .go false false, .call 0, .call 0, .call 0, .call 0, .go false true]

theorem executedOnce_fails : ¬ ∀ n, ExecutedOnce (fun _ => PromiseArg.value (E := Nat) 3)
    (Run.exec (Registration.step fun _ => PromiseArg.value 3) (start .callbackAwait)
      (throwingCallback.take n)) := by
  intro h
  have honce := (h 7).once
  exact absurd honce (by decide)

end Registration

end Callbacks

end Cocls
