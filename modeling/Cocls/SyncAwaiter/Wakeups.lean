import Cocls.Callbacks.Once
import Cocls.SyncAwaiter

/-!
# Cocls.SyncAwaiter.Wakeups

No wake-up of a blocked thread is lost, and what the notification touches.
-/

namespace Cocls

namespace SyncAwaiter

open Future (Race)
open Callbacks.Registration (call_sub subscribe_resumes won_call winner_of_ready ready_call
  ready_subscribe)

variable {T E : Type*} {arg : Nat → PromiseArg T E}

/-! ## The future -/

section Future

variable {r r' : Race T E} {i k : Nat} {spurious : Bool}

/-- What a call resumes. -/
theorem call_resumes (hs : r.callStep (arg k) k = some r') :
    (∃ i, r.call k = .walking (some (.object i)) ∧ r'.resumes = r.resumes ++ [(i, k)]) ∨
      (∀ i, r.call k ≠ .walking (some (.object i))) ∧ r'.resumes = r.resumes := by
  simp only [Race.callStep] at hs
  rcases hc : r.call k with _ | _ | _ | (_ | _ | _ | i) | _
  · simp only [hc] at hs
    split at hs <;> cases hs <;> exact .inr ⟨by simp, rfl⟩
  all_goals simp only [hc] at hs
  all_goals cases hs
  all_goals simp [Race.logResume]

/-- A call changes nothing of the others. -/
theorem call_of_ne (hs : r.callStep (arg k) k = some r') {j : Nat} (hj : j ≠ k) :
    r'.call j = r.call j := by
  simp only [Race.callStep] at hs
  split at hs
  · split at hs <;> cases hs <;> exact Function.update_of_ne hj _ _
  all_goals cases hs
  all_goals exact Function.update_of_ne hj _ _

/-- The call that walks the chain goes on with it. -/
theorem walking_call {c : Option Awaiter} (hc : r.call k = .walking c) {y : Awaiter}
    (hy : c = some y) (hs : r.callStep (arg k) k = some r') : ∃ c', r'.call k = .walking c' := by
  subst hy
  simp only [Race.callStep, hc] at hs
  cases hs
  exact ⟨_, Function.update_self _ _ _⟩

theorem subscribe_sub_of_ne (hs : r.subscribeStep i spurious = some r') {j : Nat} (hj : j ≠ i) :
    r'.sub j = r.sub j := by
  simp only [Race.subscribeStep] at hs
  split at hs
  · split at hs <;> cases hs
    · exact Function.update_of_ne hj _ _
    · exact Function.update_of_ne hj _ _
    · rfl
  · cases hs
  · cases hs

/-- What the winner was called with stays the outcome. -/
theorem outcome_call (hs : r.callStep (arg k) k = some r') {v : Stored T E}
    (hv : r.ready = true ∧ ∃ j, Race.Won (r.call j) ∧ v = (arg j).stored) :
    r'.ready = true ∧ ∃ j, Race.Won (r'.call j) ∧ v = (arg j).stored := by
  obtain ⟨hr, j, hj, rfl⟩ := hv
  exact ⟨ready_call hr hs, j, won_call hj hs, rfl⟩

end Future

namespace Waits

variable {s s' : Waits T E}

/-- The invariant. -/
structure Inv (arg : Nat → PromiseArg T E) (s : Waits T E) : Prop where
  race : Race.Inv arg s.race
  trying : ∀ i, s.place i = .testing ∨ s.place i = .subscribing → s.race.sub i = .trying
  linked : ∀ i, s.place i = .loading ∨ s.place i = .blocked → s.race.sub i = .subscribed
  flag : ∀ i, s.flag i = true ↔ i ∈ s.race.resumes.map Prod.fst
  notify : ∀ k i, s.notify k = some i →
    (i, k) ∈ s.race.resumes ∧ ∃ c, s.race.call k = .walking c
  /-- a thread that is blocked with its flag set is about to be notified -/
  blocked : ∀ i, s.place i = .blocked → s.flag i = true → ∃ k, s.notify k = some i
  result : ∀ i v, s.result i = some v →
    s.race.ready = true ∧ ∃ k, Race.Won (s.race.call k) ∧ v = (arg k).stored
  returned : ∀ i, s.place i = .returned → (s.result i).isSome
  /-- a thread that has subscribed does not return before its flag is set -/
  gone : ∀ i, s.place i = .returned → s.race.sub i = .subscribed → s.flag i = true
  notified : ∀ i ∈ s.notified.map Prod.fst,
    i ∈ s.race.resumes.map Prod.fst ∧ ∀ k, s.notify k ≠ some i
  once : (s.notified.map Prod.fst).Nodup

theorem inv_init : Inv arg ({} : Waits T E) where
  race := Race.inv_init
  trying _ _ := rfl
  linked i h := by simp at h
  flag i := by simp
  notify k i h := by cases h
  blocked i h := by cases h
  result i v h := by cases h
  returned i h := by cases h
  gone i h := by cases h
  notified i h := by simp at h
  once := List.nodup_nil

namespace Inv

variable {i k : Nat} {r : Race T E}

/-- The flag of the awaiter is notified. -/
theorem notifyAll (hi : Inv arg s) (hk : s.notify k = some i) : Inv arg (s.notifyAll k i) := by
  -- no other call is about to notify it: the resumptions are those of the winner
  have honly : ∀ j, s.notify j = some i → j = k := fun j hj => by
    have hw : ∀ l, s.notify l = some i → Race.Won (s.race.call l) := fun l hl =>
      (hi.race.exactlyOnce.resumed_by i l (hi.notify l i hl).1).2.1
    exact hi.race.exactlyOnce.one_winner j k (hw j hj) (hw k hk)
  have hnot : i ∉ s.notified.map Prod.fst := fun hm => (hi.notified i hm).2 k hk
  have hmem : i ∈ s.race.resumes.map Prod.fst := List.mem_map.mpr ⟨_, (hi.notify k i hk).1, rfl⟩
  have hsame : ∀ j, (s.notifyAll k i).place j = s.place j ∨
      s.place j = .blocked ∧ j = i ∧ (s.notifyAll k i).place j = .loading := fun j => by
    simp only [Waits.notifyAll]
    grind
  obtain ⟨hrace, htrying, hlinked, hflag, hnotify, hblocked, hresult, hreturned, hgone,
    hnotified, honce⟩ := hi
  refine ⟨hrace, fun j hj => ?_, fun j hj => ?_, hflag, fun j i' hj => ?_, fun j hj hf => ?_,
    hresult, fun j hj => ?_, fun j hj hsub => ?_, fun j hj => ?_, ?_⟩
  · exact htrying j (by grind)
  · exact hlinked j (by grind)
  · simp only [Waits.notifyAll, Function.update_apply] at hj
    exact hnotify j i' (by grind)
  · simp only [Waits.notifyAll, Function.update_apply] at hj hf ⊢
    obtain ⟨l, hl⟩ := hblocked j (by grind) hf
    refine ⟨l, ?_⟩
    grind
  · exact hreturned j (by grind)
  · exact hgone j (by grind) hsub
  · simp only [Waits.notifyAll, List.map_append, List.mem_append, Function.update_apply] at hj ⊢
    grind
  · simp only [Waits.notifyAll, List.map_append]
    refine List.nodup_append'.mpr ⟨honce, List.nodup_singleton _, fun j hj hj' => ?_⟩
    simp only [List.map_cons, List.map_nil, List.mem_singleton] at hj'
    exact hnot (hj' ▸ hj)

/-- A call makes its next step, and resumes nobody. -/
theorem quietCall (hi : Inv arg s) (hk : s.notify k = none)
    (hs : s.race.callStep (arg k) k = some r) (hr : r.resumes = s.race.resumes) :
    Inv arg { s with race := r } where
  race := Race.inv_step (a := .call k) hi.race hs
  trying j hj := by rw [call_sub hs]; exact hi.trying j hj
  linked j hj := by rw [call_sub hs]; exact hi.linked j hj
  flag j := by rw [hr]; exact hi.flag j
  notify j i hj := by
    have hne : j ≠ k := fun h => by rw [h, hk] at hj; cases hj
    rw [hr, call_of_ne hs hne]
    exact hi.notify j i hj
  blocked := hi.blocked
  result j v hj := outcome_call hs (hi.result j v hj)
  returned := hi.returned
  gone j hj hsub := hi.gone j hj (by rwa [call_sub hs] at hsub)
  notified j hj := by rw [hr]; exact hi.notified j hj
  once := hi.once

/-- A call resumes an awaiter: its flag is set. -/
theorem wakeup (hi : Inv arg s) (hk : s.notify k = none)
    (hs : s.race.callStep (arg k) k = some r) (hc : s.race.call k = .walking (some (.object i)))
    (hr : r.resumes = s.race.resumes ++ [(i, k)]) :
    Inv arg { s with race := r, flag := Function.update s.flag i true
                     notify := Function.update s.notify k (some i) } := by
  have hrace : Race.Inv arg r := Race.inv_step (a := .call k) hi.race hs
  have hnot : i ∉ s.race.resumes.map Prod.fst := fun hm => by
    have hnodup := hrace.exactlyOnce.resumed_once
    rw [hr, List.map_append, List.nodup_append'] at hnodup
    exact hnodup.2.2 hm (by simp)
  have hwalk : ∃ c, r.call k = .walking c := walking_call hc rfl hs
  have hmem : ∀ j, j ∈ r.resumes.map Prod.fst ↔ j ∈ s.race.resumes.map Prod.fst ∨ j = i := by
    simp [hr]
  have hne := fun j (hj : j ≠ k) => call_of_ne hs hj
  have hsub := call_sub hs
  have hresult := fun j v hj => outcome_call hs (hi.result j v hj)
  obtain ⟨-, htrying, hlinked, hflag, hnotify, hblocked, -, hreturned, hgone, hnotified,
    honce⟩ := hi
  refine ⟨hrace, by rwa [hsub], by rwa [hsub], fun j => ?_, fun j i' hj => ?_, fun j hj hf => ?_,
    hresult, hreturned, fun j hj hj' => ?_, fun j hj => ?_, honce⟩
  · simp only [hmem, Function.update_apply]
    grind
  · simp only [Function.update_apply] at hj
    rw [hr]
    grind
  · simp only [Function.update_apply] at hf ⊢
    by_cases hji : j = i
    · exact ⟨k, by rw [if_pos rfl, hji]⟩
    · obtain ⟨l, hl⟩ := hblocked j hj (by simpa [hji] using hf)
      exact ⟨l, by grind⟩
  · rw [hsub] at hj'
    simp only [Function.update_apply]
    grind
  · simp only [Function.update_apply]
    rw [hmem]
    grind

/-- The awaiter that a call resumes is on the stack of its thread. -/
theorem fresh_of_resumes (hi : Inv arg s) (hs : s.race.callStep (arg k) k = some r)
    (hr : r.resumes = s.race.resumes ++ [(i, k)]) : s.place i ≠ .returned := by
  intro hret
  have honce := (Race.inv_step (a := .call k) hi.race hs).exactlyOnce
  have hlinked : i ∈ r.linked := (honce.resumed_by i k (by rw [hr]; simp)).1
  have hsub : s.race.sub i = .subscribed := by
    rw [← call_sub hs]
    exact (honce.linked_iff i).mp hlinked
  have hmem := (hi.flag i).mp (hi.gone i hret hsub)
  have hnodup := honce.resumed_once
  rw [hr, List.map_append, List.nodup_append'] at hnodup
  exact hnodup.2.2 hmem (by simp)

theorem callStep (hi : Inv arg s) (hs : s.callStep arg k = some s') : Inv arg s' := by
  simp only [Waits.callStep] at hs
  cases hk : s.notify k with
  | some i =>
      simp only [hk, Option.some.injEq] at hs
      subst hs
      exact hi.notifyAll hk
  | none =>
      simp only [hk, Option.map_eq_some_iff] at hs
      obtain ⟨r, hr, rfl⟩ := hs
      obtain ⟨i, hc, hres⟩ | ⟨hc, hres⟩ := call_resumes hr
      · simp only [hc]
        exact hi.wakeup hk hr hc hres
      · have heq := hi.quietCall hk hr hres
        split
        · next i hi' => exact absurd hi' (hc i)
        · exact heq

/-- A thread goes to another place in `wait()`. -/
theorem setPlace (hi : Inv arg s) {p : Place}
    (htry : p = .testing ∨ p = .subscribing → s.race.sub i = .trying)
    (hlink : p = .loading ∨ p = .blocked → s.race.sub i = .subscribed)
    (hblock : p = .blocked → s.flag i = true → ∃ k, s.notify k = some i)
    (hret : p ≠ .returned) : Inv arg (s.setPlace i p) := by
  obtain ⟨hrace, htrying, hlinked, hflag, hnotify, hblocked, hresult, hreturned, hgone,
    hnotified, honce⟩ := hi
  constructor <;> simp only [Waits.setPlace, Function.update_apply] <;> grind

/-- A thread returns, when the future is ready. -/
theorem leave (hi : Inv arg s) (hr : s.race.ready = true)
    (hgone : s.race.sub i = .subscribed → s.flag i = true) : Inv arg (s.leave i) := by
  have hwin := winner_of_ready hi.race hr
  obtain ⟨hrace, htrying, hlinked, hflag, hnotify, hblocked, hresult, hreturned, hgone,
    hnotified, honce⟩ := hi
  constructor <;> simp only [Waits.leave, Waits.setPlace, Function.update_apply] <;> grind

/-- The flag is set when the future is ready. -/
theorem ready_of_flag (hi : Inv arg s) (hf : s.flag i = true) : s.race.ready = true := by
  obtain ⟨⟨j, k⟩, hm, rfl⟩ := List.mem_map.mp ((hi.flag i).mp hf)
  exact (hi.race.exactlyOnce.resumed_by j k hm).2.2.1

/-- An attempt of a thread to subscribe. -/
theorem ofRace {spurious : Bool} (hi : Inv arg s)
    (hs : s.race.subscribeStep i spurious = some r) {p : Place}
    (hp' : r.sub i = .trying ∧ p = .subscribing ∨ r.sub i = .subscribed ∧ p = .loading) :
    Inv arg (({ s with race := r } : Waits T E).setPlace i p) := by
  have hrace : Race.Inv arg r := Race.inv_step (a := .subscribe i spurious) hi.race hs
  have hsub := fun j (hj : j ≠ i) => subscribe_sub_of_ne hs hj
  obtain ⟨hres, hcall⟩ := subscribe_resumes hs
  have hready := fun h => ready_subscribe hi.race h hs
  obtain ⟨-, htrying, hlinked, hflag, hnotify, hblocked, hresult, hreturned, hgone, hnotified,
    honce⟩ := hi
  constructor <;> simp only [Waits.setPlace, Function.update_apply, hres, hcall] <;> grind

/-- The future was ready before the thread could subscribe. -/
theorem refused {spurious : Bool} (hi : Inv arg s)
    (hs : s.race.subscribeStep i spurious = some r) (hsub : r.sub i = .refused) :
    Inv arg (({ s with race := r } : Waits T E).leave i) := by
  have hrace : Race.Inv arg r := Race.inv_step (a := .subscribe i spurious) hi.race hs
  have hr : r.ready = true := (hrace.exactlyOnce.refused i hsub).2.1
  have hwin := winner_of_ready hrace hr
  have hne := fun j (hj : j ≠ i) => subscribe_sub_of_ne hs hj
  obtain ⟨hres, hcall⟩ := subscribe_resumes hs
  simp only [hcall] at hwin
  obtain ⟨-, htrying, hlinked, hflag, hnotify, hblocked, hresult, hreturned, hgone, hnotified,
    honce⟩ := hi
  constructor <;>
    simp only [Waits.leave, Waits.setPlace, Function.update_apply, hres, hcall] <;> grind

theorem go {spurious : Bool} (hi : Inv arg s) (hs : s.go i spurious = some s') : Inv arg s' := by
  simp only [Waits.go] at hs
  cases hp : s.place i with
  | testing =>
      simp only [hp, Option.some.injEq] at hs
      subst hs
      cases hr : s.race.ready with
      | true =>
          refine hi.leave hr fun hsub => ?_
          rw [hi.trying i (.inl hp)] at hsub
          cases hsub
      | false => exact hi.setPlace (fun _ => hi.trying i (.inl hp)) (by simp) (by simp) (by simp)
  | subscribing =>
      simp only [hp, Option.map_eq_some_iff] at hs
      obtain ⟨r, hr, rfl⟩ := hs
      cases hsub : r.sub i with
      | trying =>
          have heq : ({ s with race := r } : Waits T E).setPlace i .subscribing =
              { s with race := r } := by
            simp only [Waits.setPlace, ← hp, Function.update_eq_self]
          exact heq ▸ hi.ofRace hr (.inl ⟨hsub, rfl⟩)
      | subscribed => exact hi.ofRace hr (.inr ⟨hsub, rfl⟩)
      | refused => exact hi.refused hr hsub
  | loading =>
      simp only [hp, Option.some.injEq] at hs
      subst hs
      cases hf : s.flag i with
      | true => exact hi.leave (hi.ready_of_flag hf) fun _ => hf
      | false =>
          exact hi.setPlace (by simp) (fun _ => hi.linked i (.inl hp)) (by simp [hf]) (by simp)
  | blocked =>
      simp only [hp] at hs
      obtain ⟨-, rfl⟩ := Option.ite_some_none_eq_some.mp hs
      exact hi.setPlace (by simp) (fun _ => hi.linked i (.inr hp)) (by simp) (by simp)
  | returned => simp [hp] at hs

theorem step {a : Action} (hi : Inv arg s) (hs : Waits.step arg s a = some s') : Inv arg s' := by
  cases a with
  | call k => exact hi.callStep hs
  | go i spurious => exact hi.go hs

/-! ## Threads return -/

/-- The next step of a call that is not about to notify is one of the future. -/
theorem tryStep_call (hk : s.notify k = none) :
    (Run.tryStep (Waits.step arg) s (.call k)).race =
      Run.tryStep (Race.step arg) s.race (.call k) := by
  simp only [Run.tryStep, Waits.step, Waits.callStep, hk, Race.step]
  cases s.race.callStep (arg k) k with
  | none => rfl
  | some r =>
      simp only [Option.map_some, Option.getD_some]
      split <;> rfl

/-- A call goes through the steps it makes in the future alone. -/
theorem exec_call (k n : Nat) : ∀ s : Waits T E, ∃ m,
    (Run.exec (Waits.step arg) s (List.replicate m (.call k))).race =
      Run.exec (Race.step arg) s.race (List.replicate n (.call k)) := by
  induction n with
  | zero => exact fun s => ⟨0, rfl⟩
  | succ n ih =>
      have hquiet : ∀ s : Waits T E, s.notify k = none → ∃ m,
          (Run.exec (Waits.step arg) s (List.replicate m (.call k))).race =
            Run.exec (Race.step arg) s.race (List.replicate (n + 1) (.call k)) := by
        intro s hk
        obtain ⟨m, hm⟩ := ih (Run.tryStep (Waits.step arg) s (.call k))
        refine ⟨m + 1, ?_⟩
        rw [List.replicate_succ, Run.exec_cons, hm, tryStep_call hk, List.replicate_succ,
          Run.exec_cons]
      intro s
      cases hk : s.notify k with
      | none => exact hquiet s hk
      | some i =>
          have hs : Waits.step arg s (.call k) = some (s.notifyAll k i) := by
            simp only [Waits.step, Waits.callStep, hk]
          obtain ⟨m, hm⟩ := hquiet (s.notifyAll k i) (Function.update_self _ _ _)
          refine ⟨m + 1, ?_⟩
          rw [List.replicate_succ, Run.exec_cons, Run.tryStep_of_some _ _ hs, hm]
          rfl

/-- No thread is blocked when the call that won has returned. -/
theorem woken (hi : Inv arg s) (hk : s.race.call k = .done true) : s.place i ≠ .blocked := by
  intro hp
  have honce := hi.race.exactlyOnce
  have hlinked : i ∈ s.race.linked := (honce.linked_iff i).mpr (hi.linked i (.inr hp))
  have hflag : s.flag i = true :=
    (hi.flag i).mpr (List.mem_map.mpr ⟨_, honce.none_lost k hk i hlinked, rfl⟩)
  obtain ⟨j, hj⟩ := hi.blocked i hp hflag
  obtain ⟨-, c, hc⟩ := hi.notify j i hj
  obtain rfl := honce.one_winner j k (by rw [hc]; trivial) (by rw [hk]; trivial)
  rw [hk] at hc
  cases hc

/-- Every thread returns with its next step, then. -/
theorem returns (hi : Inv arg s) (hk : s.race.call k = .done true) (i : Nat) :
    ∃ n, (Run.exec (Waits.step arg) s (List.replicate n (.go i false))).place i = .returned := by
  have honce := hi.race.exactlyOnce
  have hr : s.race.ready = true := (honce.outcome k hk).1
  have hleave : ∀ w : Waits T E, (w.leave i).place i = .returned :=
    fun w => Function.update_self _ _ _
  have hone : ∀ {w : Waits T E}, Waits.step arg s (.go i false) = some (w.leave i) →
      ∃ n, (Run.exec (Waits.step arg) s (List.replicate n (.go i false))).place i = .returned :=
    fun hs => ⟨1, by rw [List.replicate_one, Run.exec_cons, Run.exec_nil,
      Run.tryStep_of_some _ _ hs, hleave]⟩
  cases hp : s.place i with
  | testing => exact hone (w := s) (by simp only [Waits.step, Waits.go, hp, hr, if_true])
  | subscribing =>
      obtain ⟨r, hs, hsub⟩ := honce.closed hr i (hi.trying i (.inr hp)) false
      have hs' : s.race.subscribeStep i false = some r := hs
      exact hone (w := { s with race := r }) (by
        simp only [Waits.step, Waits.go, hp, hs', Option.map_some, hsub])
  | loading =>
      have hlinked : i ∈ s.race.linked := (honce.linked_iff i).mpr (hi.linked i (.inl hp))
      have hflag : s.flag i = true :=
        (hi.flag i).mpr (List.mem_map.mpr ⟨_, honce.none_lost k hk i hlinked, rfl⟩)
      exact hone (w := s) (by simp only [Waits.step, Waits.go, hp, hflag, if_true])
  | blocked => exact absurd hp (hi.woken hk)
  | returned => exact ⟨0, hp⟩

theorem waitsRight (hi : Inv arg s) : WaitsRight arg s where
  result := hi.result
  returned := hi.returned
  resolves k hk := by
    obtain ⟨n, hn⟩ := hi.race.winner_returns hk
    have hcall : ∃ m, (Run.exec (Waits.step arg) s (List.replicate m (.call k))).race =
        Run.exec (Race.step arg) s.race (List.replicate n (.call k)) := exec_call k n s
    obtain ⟨m, hm⟩ := hcall
    exact ⟨m, by rw [hm]; exact hn⟩
  woken _ hk _ := hi.woken hk
  returns _ hk i := hi.returns hk i
  once := hi.once

end Inv

theorem inv_exec (as : List Action) : Inv arg (Run.exec (step arg) {} as) :=
  Run.exec_inv (fun _ _ _ hi hs => hi.step hs) inv_init as

/-- **Blocking waits**, in every run: a thread returns when the future is ready, with its outcome;
no wake-up is lost, whatever the calls, the threads and spurious wake-ups do. -/
theorem waitsRight_exec (arg : Nat → PromiseArg T E) (as : List Action) :
    WaitsRight arg (Run.exec (step arg) {} as) := (inv_exec as).waitsRight

/-! ## What the notification touches -/

/-- An awaiter that is gone, and is about to be notified, will have been notified when gone. -/
theorem not_touchesLive_mono (hl : ¬ TouchesLive s) (hn : ∃ l, s'.notified = s.notified ++ l)
    (hk : ∀ k i, s.notify k = some i → s.place i = .returned →
      s'.notify k = some i ∧ s'.place i = .returned ∨ (i, false) ∈ s'.notified) :
    ¬ TouchesLive s' := by
  rintro ⟨hall, hnone⟩
  obtain ⟨l, hn⟩ := hn
  refine hl ⟨fun p hp => hall p (by rw [hn]; exact List.mem_append_left _ hp), fun k i hi hp => ?_⟩
  obtain ⟨hk', hp'⟩ | hm := hk k i hi hp
  · exact hnone k i hk' hp'
  · exact absurd (hall _ hm) (by simp)

/-- A thread moves: only its own place changes. -/
theorem go_frame {i : Nat} {spurious : Bool} (hs : s.go i spurious = some s') :
    s'.notify = s.notify ∧ s'.notified = s.notified ∧ (∀ j, j ≠ i → s'.place j = s.place j) ∧
      s.place i ≠ .returned := by
  have hother : ∀ (w : Waits T E) (p : Place) j, j ≠ i → (w.setPlace i p).place j = w.place j :=
    fun w p j hj => Function.update_of_ne hj _ _
  simp only [Waits.go] at hs
  cases hp : s.place i with
  | testing =>
      simp only [hp, Option.some.injEq] at hs
      subst hs
      split <;> exact ⟨rfl, rfl, hother s _, by simp⟩
  | subscribing =>
      simp only [hp, Option.map_eq_some_iff] at hs
      obtain ⟨r, hr, rfl⟩ := hs
      cases r.sub i
      · exact ⟨rfl, rfl, fun _ _ => rfl, by simp⟩
      · exact ⟨rfl, rfl, hother { s with race := r } _, by simp⟩
      · exact ⟨rfl, rfl, hother { s with race := r } _, by simp⟩
  | loading =>
      simp only [hp, Option.some.injEq] at hs
      subst hs
      split <;> exact ⟨rfl, rfl, hother s _, by simp⟩
  | blocked =>
      simp only [hp] at hs
      obtain ⟨-, rfl⟩ := Option.ite_some_none_eq_some.mp hs
      exact ⟨rfl, rfl, hother s _, by simp⟩
  | returned => simp [hp] at hs

/-- A call that is not about to notify: it may have set a flag. -/
theorem callStep_quiet {k : Nat} (hk : s.notify k = none) (hs : s.callStep arg k = some s') :
    s'.notified = s.notified ∧ s'.place = s.place ∧ (∀ j, j ≠ k → s'.notify j = s.notify j) ∧
      ∀ i, s'.notify k = some i → s.race.call k = .walking (some (.object i)) := by
  simp only [Waits.callStep, hk, Option.map_eq_some_iff] at hs
  obtain ⟨r, -, rfl⟩ := hs
  split
  · next i hc =>
    refine ⟨rfl, rfl, fun j hj => Function.update_of_ne hj _ _, fun j hj => ?_⟩
    simp only [Function.update_self, Option.some.injEq] at hj
    rw [hc, hj]
  · exact ⟨rfl, rfl, fun _ _ => rfl, fun j hj => by simp [hk] at hj⟩

/-- An awaiter whose flag is set has a thread that is in `flag.wait`. -/
theorem Inv.place_of_notify (hi : Inv arg s) {k i : Nat} (hk : s.notify k = some i) :
    s.flag i = true ∧ s.place i ≠ .testing ∧ s.place i ≠ .subscribing := by
  have hmem := (hi.notify k i hk).1
  have hsub : s.race.sub i = .subscribed := (hi.race.exactlyOnce.linked_iff i).mp
    (hi.race.exactlyOnce.resumed_by i k hmem).1
  refine ⟨(hi.flag i).mpr (List.mem_map.mpr ⟨_, hmem, rfl⟩), fun hp => ?_, fun hp => ?_⟩
  · have htry := hi.trying i (.inl hp)
    rw [hsub] at htry
    cases htry
  · have htry := hi.trying i (.inr hp)
    rw [hsub] at htry
    cases htry

theorem touchesLive_of_lingers {a : Action} (hi : Inv arg s) (hl : TouchesLive s)
    (hg : Lingers s a) (hs : step arg s a = some s') : TouchesLive s' := by
  obtain ⟨hall, hlive⟩ := hl
  have hi' := hi.step hs
  cases a with
  | call k =>
      simp only [step] at hs
      cases hk : s.notify k with
      | some i =>
          simp only [callStep, hk, Option.some.injEq] at hs
          subst hs
          have hpi := hlive k i hk
          refine ⟨fun p hp => ?_, fun l j hj => ?_⟩
          · simp only [notifyAll, List.mem_append, List.mem_singleton] at hp
            obtain hp | rfl := hp
            · exact hall p hp
            · simpa using hpi
          · simp only [notifyAll, Function.update_apply] at hj ⊢
            have hlj := hlive l j
            grind
      | none =>
          obtain ⟨hn, hp, hother, hset⟩ := callStep_quiet hk hs
          refine ⟨by rwa [hn], fun l j hj => ?_⟩
          rw [hp]
          by_cases hlk : l = k
          · subst hlk
            intro hret
            -- the awaiter that is resumed here had subscribed, and is resumed once
            have hset' := hset j hj
            simp only [callStep, hk, Option.map_eq_some_iff] at hs
            obtain ⟨r, hr, rfl⟩ := hs
            obtain ⟨i, hc, hres⟩ | ⟨hc, -⟩ := call_resumes hr
            · obtain rfl : i = j := by rw [hset'] at hc; cases hc; rfl
              exact hi.fresh_of_resumes hr hres hret
            · exact hc j hset'
          · exact hlive l j (by rw [← hother l hlk]; exact hj)
  | go i spurious =>
      obtain ⟨hnot, hn, hother, hne⟩ := go_frame hs
      refine ⟨by rwa [hn], fun l j hj => ?_⟩
      rw [hnot] at hj
      by_cases hji : j = i
      · subst hji
        obtain ⟨hflag, htest, hsubs⟩ := hi.place_of_notify hj
        simp only [step, go] at hs
        cases hp : s.place j with
        | testing => exact absurd hp htest
        | subscribing => exact absurd hp hsubs
        | loading => exact absurd hj (hg hp hflag l)
        | blocked =>
            simp only [hp] at hs
            obtain ⟨-, rfl⟩ := Option.ite_some_none_eq_some.mp hs
            simp [setPlace]
        | returned => exact absurd hp hne
      · rw [hother j hji]
        exact hlive l j hj

theorem not_touchesLive_of_leaves {a : Action} (hg : ¬ Lingers s a)
    (hs : step arg s a = some s') : ¬ TouchesLive s' := by
  cases a with
  | call k => exact absurd trivial hg
  | go i spurious =>
      simp only [Lingers, not_forall, not_not] at hg
      obtain ⟨hp, hf, k, hk⟩ := hg
      simp only [step, go, hp, hf, if_true, Option.some.injEq] at hs
      subst hs
      rintro ⟨-, hlive⟩
      exact hlive k i hk (Function.update_self _ _ _)

theorem not_touchesLive_step {a : Action} (hl : ¬ TouchesLive s)
    (hs : step arg s a = some s') : ¬ TouchesLive s' := by
  cases a with
  | call k =>
      simp only [step] at hs
      cases hk : s.notify k with
      | some i =>
          simp only [callStep, hk, Option.some.injEq] at hs
          subst hs
          refine not_touchesLive_mono hl ⟨_, rfl⟩ fun l j hj hp => ?_
          simp only [notifyAll, Function.update_apply, List.mem_append, List.mem_singleton]
          grind
      | none =>
          obtain ⟨hn, hp, hother, -⟩ := callStep_quiet hk hs
          refine not_touchesLive_mono hl ⟨[], by simp [hn]⟩ fun l j hj hret =>
            .inl ⟨?_, by rw [hp, hret]⟩
          rw [hother l (by rintro rfl; rw [hk] at hj; cases hj), hj]
  | go i spurious =>
      obtain ⟨hnot, hn, hother, hne⟩ := go_frame hs
      refine not_touchesLive_mono hl ⟨[], by simp [hn]⟩ fun l j hj hret =>
        .inl ⟨by rw [hnot, hj], ?_⟩
      rw [hother j (by rintro rfl; exact hne hret), hret]

/-- **The notification touches an awaiter that is gone** exactly when its thread leaves
`flag.wait` between the store into the flag and the notification. -/
theorem touchesLive_iff (arg : Nat → PromiseArg T E) (as : List Action) :
    TouchesLive (Run.exec (step arg) {} as) ↔ Run.Meets (step arg) Lingers {} as := by
  have hgood : ∀ s a s', Inv arg s ∧ TouchesLive s → Lingers s a → step arg s a = some s' →
      Inv arg s' ∧ TouchesLive s' :=
    fun s a s' hi hg hs => ⟨hi.1.step hs, touchesLive_of_lingers hi.1 hi.2 hg hs⟩
  have hbad : ∀ s a s', Inv arg s ∧ TouchesLive s → ¬ Lingers s a → step arg s a = some s' →
      ¬ TouchesLive s' := fun s a s' _ hg hs => not_touchesLive_of_leaves hg hs
  refine Run.exec_iff_meets hgood hbad (fun s a s' hl hs => not_touchesLive_step hl hs)
    (fun s hi => hi.2) (fun s hl => hl) ⟨inv_init, ?_⟩ as
  simp [TouchesLive]

end Waits

end SyncAwaiter

end Cocls
