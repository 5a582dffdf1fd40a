import Mathlib.Order.Fin.Basic
import Cocls.Scheduler.Live

/-!
# Cocls.Scheduler.Stop

The worker of a scheduler and the request to stop it.

The worker coroutine holds `_mx` while it tests the stop flag, calls
`get_expired_lk` and decides to block; `wait_until` releases the lock and falls
asleep in one step.  Whoever requests the stop sets the flag and then runs the
callback `stop_notify`, which calls `_cond.notify_all()` without the lock.  Any
number of callers of `schedule` take part.  All steps interleave in any order.

A request is lost when its notification finds the worker awake and the worker
falls asleep all the same.  That happens exactly when the notification falls
between the worker's test of the flag and its `wait_until` (`noLostStop_iff`);
it cannot happen when the notification is sent while the worker does not hold
the lock (`noLostStop_of_unlocked`).
-/

namespace Cocls

namespace Scheduler

variable {τ ι : Type*}

/-- Who holds `_mx`. -/
inductive Party where
  | worker
  | caller (k : Nat)
deriving DecidableEq, Repr

/-- Where the worker coroutine is. -/
inductive Place (τ : Type*) where
  /-- before `stop_notify` is constructed -/
  | start
  /-- before the lock is taken for the first time -/
  | enter
  /-- at the condition of the loop -/
  | loop
  /-- in `co_await pause()` or `co_await *pool`, without the lock -/
  | suspended
  /-- before the lock is taken again -/
  | relock
  /-- at the test of the flag after it -/
  | test
  /-- about to read the clock and to call `get_expired_lk` -/
  | poll
  /-- about to resolve the expired promise -/
  | resolve (p : Nat)
  /-- about to ask whether it may block until `tp` -/
  | decide (tp : τ)
  /-- about to call `wait_until(lk, tp)` -/
  | block (tp : τ)
  /-- asleep in `wait_until`, without the lock -/
  | asleep (tp : τ)
  /-- woken up in `wait_until`, about to take the lock again -/
  | woken
  /-- after the loop -/
  | leave
  /-- about to destroy `stop_notify`, without the lock -/
  | deregister
  | gone
deriving DecidableEq, Repr

/-- The request to stop: not made; the flag is set and the callback is about to be
run; over. -/
inductive Stop where
  | idle
  | requested
  | complete
deriving DecidableEq, Repr

/-- A scheduler with its worker, the request to stop it, and the callers of
`schedule`, each with the arguments it has not scheduled yet. -/
structure Stopping (τ ι : Type*) where
  v : List (SchItem τ ι Nat) := []
  holder : Option Party := none
  worker : Place τ := .start
  /-- whether `stop_notify` is registered -/
  registered : Bool := false
  stop : Stop := .idle
  caller : Nat → Option (ι × Option Nat × τ) := fun _ => none

namespace Stopping

inductive Action (τ ι : Type*) where
  /-- the worker goes on -/
  | go
  /-- the worker reads `now` from the clock and calls `get_expired_lk(now)` -/
  | poll (now : τ)
  /-- the worker learns whether it may block -/
  | decide (can : Bool)
  /-- the time is up, or `wait_until` returns for no reason -/
  | wake
  /-- `request_stop` sets the flag -/
  | request
  /-- `request_stop` runs the callback -/
  | notify
  /-- caller `k` enters `schedule(id, p, tp)` and takes the lock -/
  | lock (k : Nat) (id : ι) (p : Option Nat) (tp : τ)
  /-- caller `k` adds the item -/
  | push (k : Nat)
  /-- caller `k` leaves -/
  | unlock (k : Nat)

/-- Where the worker is after `_cond.notify_all()`. -/
def notified : Place τ → Place τ
  | .asleep _ => .woken
  | w => w

/-- The worker takes the lock and goes on at `w`. -/
def acquire (s : Stopping τ ι) (w : Place τ) : Option (Stopping τ ι) :=
  if s.holder = none then some { s with holder := some .worker, worker := w } else none

/-- The worker goes on. -/
def goOn (s : Stopping τ ι) : Option (Stopping τ ι) :=
  match s.worker with
  -- a flag that is set already runs the callback at once, which finds nobody asleep
  | .start => some { s with registered := true, worker := .enter }
  | .enter => s.acquire .loop
  | .loop =>
      if s.stop = .idle then some { s with holder := none, worker := .suspended }
      else some { s with worker := .leave }
  | .suspended => some { s with worker := .relock }
  | .relock => s.acquire .test
  | .test => some { s with worker := if s.stop = .idle then .poll else .leave }
  | .resolve _ => some { s with worker := .loop }
  | .block tp => some { s with holder := none, worker := .asleep tp }
  | .woken => s.acquire .loop
  | .leave => some { s with holder := none, worker := .deregister }
  | .deregister => some { s with registered := false, worker := .gone }
  | .poll | .decide _ | .asleep _ | .gone => none

section Step

variable [LinearOrder τ] [OrderTop τ] (H : HeapOps τ ι Nat)

/-- What the worker does with the answer of `get_expired_lk`. -/
def answered : Expired τ Nat → Place τ
  | .promise p => .resolve p
  | .time tp => .decide tp

/-- One step. -/
def step (s : Stopping τ ι) : Action τ ι → Option (Stopping τ ι)
  | .go => s.goOn
  | .poll now =>
      if s.worker = .poll then
        (getExpiredLk H now s.v.length s.v).map fun r => { s with v := r.1, worker := answered r.2 }
      else none
  | .decide can =>
      match s.worker with
      | .decide tp => some { s with worker := if can then .block tp else .loop }
      | _ => none
  | .wake =>
      match s.worker with
      | .asleep _ => some { s with worker := .woken }
      | _ => none
  | .request =>
      if s.stop = .idle then
        some { s with stop := if s.registered then .requested else .complete }
      else none
  | .notify =>
      if s.stop = .requested then
        some { s with stop := .complete
                      worker := if s.registered then notified s.worker else s.worker }
      else none
  | .lock k id p tp =>
      if s.holder = none then
        some { s with holder := some (.caller k)
                      caller := Function.update s.caller k (some (id, p, tp)) }
      else none
  | .push k =>
      if s.holder = some (.caller k) then
        (s.caller k).map fun (id, p, tp) =>
          let r := schedule H id p tp s.v
          { s with v := r.1, worker := if r.2 then notified s.worker else s.worker
                   caller := Function.update s.caller k none }
      else none
  | .unlock k =>
      if s.holder = some (.caller k) ∧ s.caller k = none then some { s with holder := none }
      else none

end Step

/-- The request to stop is over, and the worker is not asleep. -/
def NoLostStop (s : Stopping τ ι) : Prop := s.stop = .complete → ∀ tp, s.worker ≠ .asleep tp

/-- The worker does not enter `wait_until` after the notification was sent. -/
def InTime (s : Stopping τ ι) : Action τ ι → Prop
  | .go => ∀ tp, s.worker = .block tp → s.stop ≠ .complete
  | _ => True

/-- The notification is not sent while the worker holds the lock. -/
def Unlocked (s : Stopping τ ι) : Action τ ι → Prop
  | .notify => s.holder ≠ some .worker
  | _ => True

/-! ## What the worker does -/

section Worker

variable {s s' : Stopping τ ι}

/-- The places at which the worker holds the lock. -/
def Holds : Place τ → Prop
  | .loop | .test | .poll | .resolve _ | .decide _ | .block _ | .leave => True
  | _ => False

/-- The worker's own steps. -/
inductive GoesOn (s : Stopping τ ι) : Stopping τ ι → Prop
  | registers (hw : s.worker = .start) : GoesOn s { s with registered := true, worker := .enter }
  | acquires (w : Place τ) (hs : s.worker ≠ .start ∧ s.worker ≠ .gone)
      (hw : w = .loop ∨ w = .test) : GoesOn s { s with holder := some .worker, worker := w }
  | keeps (w : Place τ) (hs : Holds s.worker)
      (hw : w = .loop ∨ w = .leave ∨ w = .poll ∧ s.stop = .idle) : GoesOn s { s with worker := w }
  | releases (w : Place τ) (hs : Holds s.worker) (hw : w = .suspended ∨ w = .deregister) :
      GoesOn s { s with holder := none, worker := w }
  | sleeps (tp : τ) (hs : s.worker = .block tp) :
      GoesOn s { s with holder := none, worker := .asleep tp }
  | resumes (hs : s.worker = .suspended) : GoesOn s { s with worker := .relock }
  | deregisters (hs : s.worker = .deregister) :
      GoesOn s { s with registered := false, worker := .gone }

theorem goesOn_of_acquire {w : Place τ} (hs : s.worker ≠ .start ∧ s.worker ≠ .gone)
    (hw : w = .loop ∨ w = .test) (h : s.acquire w = some s') : GoesOn s s' := by
  obtain ⟨-, h⟩ := Option.ite_none_right_eq_some.mp h
  rw [← Option.some.inj h]
  exact .acquires w hs hw

/-- The worker goes on by one of its own steps. -/
theorem goesOn_of_goOn (h : s.goOn = some s') : GoesOn s s' := by
  unfold goOn at h
  split at h
  case h_1 hw =>
    rw [← Option.some.inj h]
    exact .registers hw
  case h_2 hw => exact goesOn_of_acquire (by simp [hw]) (.inl rfl) h
  case h_3 hw =>
    split at h <;> rw [← Option.some.inj h]
    · exact .releases _ (by simp [hw, Holds]) (.inl rfl)
    · exact .keeps _ (by simp [hw, Holds]) (.inr (.inl rfl))
  case h_4 hw =>
    rw [← Option.some.inj h]
    exact .resumes hw
  case h_5 hw => exact goesOn_of_acquire (by simp [hw]) (.inr rfl) h
  case h_6 hw =>
    rw [← Option.some.inj h]
    refine .keeps _ (by simp [hw, Holds]) ?_
    split
    · next hstop => exact .inr (.inr ⟨rfl, hstop⟩)
    · exact .inr (.inl rfl)
  case h_7 hw =>
    rw [← Option.some.inj h]
    exact .keeps _ (by simp [hw, Holds]) (.inl rfl)
  case h_8 tp hw =>
    rw [← Option.some.inj h]
    exact .sleeps tp hw
  case h_9 hw => exact goesOn_of_acquire (by simp [hw]) (.inl rfl) h
  case h_10 hw =>
    rw [← Option.some.inj h]
    exact .releases _ (by simp [hw, Holds]) (.inr rfl)
  case h_11 hw =>
    rw [← Option.some.inj h]
    exact .deregisters hw
  all_goals cases h

/-- `notify_all` wakes the worker up or leaves it where it is. -/
theorem notified_cases (w : Place τ) :
    (∃ tp, w = .asleep tp ∧ notified w = .woken) ∨ (∀ tp, w ≠ .asleep tp) ∧ notified w = w := by
  cases w <;> simp [notified]

end Worker

/-! ## What every step keeps -/

section Invariant

variable [LinearOrder τ] {s s' : Stopping τ ι}

/-- The vector is a heap, the lock is the worker's where it says so, and the callback is
registered wherever the worker may be asleep. -/
structure Inv (s : Stopping τ ι) : Prop where
  ordered : Heap.Ordered SchItem.tp s.v
  holds : Holds s.worker → s.holder = some .worker
  registered : s.worker ≠ .start → s.worker ≠ .gone → s.registered = true

theorem inv_init : Inv ({} : Stopping τ ι) :=
  ⟨Heap.ordered_nil, fun h => (by cases h), fun h => absurd rfl h⟩

theorem Inv.goesOn (hi : Inv s) (h : GoesOn s s') : Inv s' := by
  obtain ⟨hord, hholds, hreg⟩ := hi
  cases h with
  | registers => exact ⟨hord, fun h => (by cases h), fun _ _ => rfl⟩
  | acquires w hs => exact ⟨hord, fun _ => rfl, fun _ _ => hreg hs.1 hs.2⟩
  | keeps w hs =>
      refine ⟨hord, fun _ => hholds hs, fun _ _ => hreg ?_ ?_⟩
      · intro hw
        simp [hw, Holds] at hs
      · intro hw
        simp [hw, Holds] at hs
  | releases w hs hw =>
      refine ⟨hord, fun h => ?_, fun _ _ => hreg ?_ ?_⟩
      · rcases hw with rfl | rfl <;> cases h
      · intro hw
        simp [hw, Holds] at hs
      · intro hw
        simp [hw, Holds] at hs
  | sleeps tp hs => exact ⟨hord, fun h => (by cases h), fun _ _ => hreg (by simp [hs]) (by simp [hs])⟩
  | resumes hs => exact ⟨hord, fun h => (by cases h), fun _ _ => hreg (by simp [hs]) (by simp [hs])⟩
  | deregisters => exact ⟨hord, fun h => (by cases h), fun _ h => absurd rfl h⟩

/-- `notify_all` keeps what is known of the worker. -/
theorem Inv.notify (hi : Inv s) (b : Bool) :
    (Holds (if b then notified s.worker else s.worker) → s.holder = some .worker) ∧
      ((if b then notified s.worker else s.worker) ≠ .start →
        (if b then notified s.worker else s.worker) ≠ .gone → s.registered = true) := by
  cases b with
  | false => exact ⟨hi.holds, hi.registered⟩
  | true =>
      rw [if_pos rfl]
      rcases notified_cases s.worker with ⟨tp, hw, hn⟩ | ⟨-, hn⟩
      · rw [hn]
        exact ⟨fun h => (by cases h), fun _ _ => hi.registered (by simp [hw]) (by simp [hw])⟩
      · rw [hn]
        exact ⟨hi.holds, hi.registered⟩

variable [OrderTop τ] (H : HeapOps τ ι Nat)

/-- `get_expired_lk` always answers. -/
theorem Inv.poll_enabled (hi : Inv s) (hw : s.worker = .poll) (now : τ) :
    ∃ v r, s.step H (.poll now) = some { s with v := v, worker := answered r } ∧
      Heap.Ordered SchItem.tp v := by
  obtain ⟨v, r, hrun, hv, -⟩ := getExpiredLk_spec H now s.v.length s.v (Nat.le_refl _) hi.ordered
  exact ⟨v, r, by rw [step, if_pos hw, hrun, Option.map_some], hv⟩

/-- What a step can do, in a state with an ordered vector. -/
inductive Moves (s : Stopping τ ι) : Action τ ι → Stopping τ ι → Prop
  | goesOn {s' : Stopping τ ι} (h : GoesOn s s') : Moves s .go s'
  | polls (now : τ) (v : List (SchItem τ ι Nat)) (r : Expired τ Nat) (hw : s.worker = .poll)
      (hv : Heap.Ordered SchItem.tp v) :
      Moves s (.poll now) { s with v := v, worker := answered r }
  | decides (can : Bool) (tp : τ) (hw : s.worker = .decide tp) :
      Moves s (.decide can) { s with worker := if can then .block tp else .loop }
  | wakes (tp : τ) (hw : s.worker = .asleep tp) : Moves s .wake { s with worker := .woken }
  | requests :
      Moves s .request { s with stop := if s.registered then .requested else .complete }
  | notifies :
      Moves s .notify
        { s with stop := .complete
                 worker := if s.registered then notified s.worker else s.worker }
  | locks (k : Nat) (id : ι) (p : Option Nat) (tp : τ) (hfree : s.holder = none) :
      Moves s (.lock k id p tp)
        { s with holder := some (.caller k)
                 caller := Function.update s.caller k (some (id, p, tp)) }
  | pushes (k : Nat) (v : List (SchItem τ ι Nat)) (b : Bool) (hv : Heap.Ordered SchItem.tp v) :
      Moves s (.push k)
        { s with v := v, worker := if b then notified s.worker else s.worker
                 caller := Function.update s.caller k none }
  | unlocks (k : Nat) (hk : s.holder = some (.caller k)) :
      Moves s (.unlock k) { s with holder := none }

/-- **What a step can do.** -/
theorem Inv.moves (hi : Inv s) {a : Action τ ι} (h : s.step H a = some s') : Moves s a s' := by
  cases a with
  | go => exact .goesOn (goesOn_of_goOn h)
  | poll now =>
      have hw : s.worker = .poll := (Option.ite_none_right_eq_some.mp h).1
      obtain ⟨v, r, hs', hv⟩ := hi.poll_enabled H hw now
      rw [hs'] at h
      obtain rfl := Option.some.inj h
      exact .polls now v r hw hv
  | decide can =>
      simp only [Stopping.step] at h
      split at h
      · next tp hw =>
        obtain rfl := Option.some.inj h
        exact .decides can tp hw
      · cases h
  | wake =>
      simp only [Stopping.step] at h
      split at h
      · next tp hw =>
        obtain rfl := Option.some.inj h
        exact .wakes tp hw
      · cases h
  | request =>
      obtain ⟨-, h⟩ := Option.ite_none_right_eq_some.mp h
      obtain rfl := Option.some.inj h
      exact .requests
  | notify =>
      obtain ⟨-, h⟩ := Option.ite_none_right_eq_some.mp h
      obtain rfl := Option.some.inj h
      exact .notifies
  | lock k id p tp =>
      obtain ⟨hfree, h⟩ := Option.ite_none_right_eq_some.mp h
      obtain rfl := Option.some.inj h
      exact .locks k id p tp hfree
  | push k =>
      obtain ⟨-, h⟩ := Option.ite_none_right_eq_some.mp h
      obtain ⟨⟨id, p, tp⟩, -, rfl⟩ := Option.map_eq_some_iff.mp h
      exact .pushes k _ _ (schedule_spec H id p tp hi.ordered).1
  | unlock k =>
      obtain ⟨⟨hk, -⟩, h⟩ := Option.ite_none_right_eq_some.mp h
      obtain rfl := Option.some.inj h
      exact .unlocks k hk

/-- Every step keeps the invariant. -/
theorem Inv.step (hi : Inv s) {a : Action τ ι} (h : s.step H a = some s') : Inv s' := by
  cases hi.moves H h with
  | goesOn h => exact hi.goesOn h
  | polls now v r hw hv =>
      exact ⟨hv, fun _ => hi.holds (by simp [hw, Holds]),
        fun _ _ => hi.registered (by simp [hw]) (by simp [hw])⟩
  | decides can tp hw =>
      exact ⟨hi.ordered, fun _ => hi.holds (by simp [hw, Holds]),
        fun _ _ => hi.registered (by simp [hw]) (by simp [hw])⟩
  | wakes tp hw =>
      exact ⟨hi.ordered, fun h => (by cases h),
        fun _ _ => hi.registered (by simp [hw]) (by simp [hw])⟩
  | requests => exact ⟨hi.ordered, hi.holds, hi.registered⟩
  | notifies => exact ⟨hi.ordered, (hi.notify s.registered).1, (hi.notify s.registered).2⟩
  | locks k id p tp hfree =>
      refine ⟨hi.ordered, fun hw => ?_, hi.registered⟩
      rw [hi.holds hw] at hfree
      cases hfree
  | pushes k v b hv => exact ⟨hv, (hi.notify b).1, (hi.notify b).2⟩
  | unlocks k hk =>
      refine ⟨hi.ordered, fun hw => ?_, hi.registered⟩
      rw [hi.holds hw] at hk
      cases hk

/-! ## When a request is lost -/

/-- Falling asleep in time keeps the request from being lost. -/
theorem safe_step (hi : Inv s) (hsafe : s.NoLostStop) {a : Action τ ι} (hin : s.InTime a)
    (h : s.step H a = some s') : s'.NoLostStop := by
  -- where the worker is after `notify_all`
  have hnotified : ∀ tp, notified s.worker ≠ .asleep tp := by
    intro tp hn
    rcases notified_cases s.worker with ⟨_, -, hw⟩ | ⟨hne, hw⟩
    · rw [hw] at hn
      cases hn
    · exact hne tp (hw ▸ hn)
  intro hc tp
  cases hi.moves H h with
  | goesOn h =>
      cases h with
      | registers | resumes | deregisters => simp
      | acquires w _ hw => rcases hw with rfl | rfl <;> simp
      | keeps w _ hw => rcases hw with rfl | rfl | ⟨rfl, -⟩ <;> simp
      | releases w _ hw => rcases hw with rfl | rfl <;> simp
      | sleeps tp' hw => exact absurd hc (hin tp' hw)
  | polls now v r hw hv => cases r <;> simp [answered]
  | decides can tp' hw => cases can <;> simp
  | wakes tp' hw => simp
  | requests =>
      -- without a callback the worker has not started, or is gone
      intro hw
      have hreg : s.registered = true := hi.registered (by simp_all) (by simp_all)
      simp [hreg] at hc
  | notifies =>
      intro hw
      have hw' : (if s.registered then notified s.worker else s.worker) = .asleep tp := hw
      split at hw'
      · exact hnotified tp hw'
      · next hreg => exact hreg (hi.registered (by simp [hw']) (by simp [hw']))
  | pushes k v b hv =>
      intro hw
      cases b with
      | false => exact hsafe hc tp hw
      | true => exact hnotified tp hw
  | locks k id p tp' hfree => exact hsafe hc tp
  | unlocks k hk => exact hsafe hc tp

/-- Falling asleep too late loses the request at once. -/
theorem lost_step {a : Action τ ι} (hin : ¬ s.InTime a) (h : s.step H a = some s') :
    ¬ s'.NoLostStop := by
  cases a with
  | go =>
      simp only [InTime, not_forall, not_not] at hin
      obtain ⟨tp, hw, hc⟩ := hin
      have hs' : s.goOn = some s' := h
      rw [goOn, hw] at hs'
      obtain rfl := Option.some.inj hs'
      exact fun hsafe => hsafe hc tp rfl
  | poll | decide | wake | request | notify | lock | push | unlock => exact absurd trivial hin

/-- **The stop is lost exactly when it is notified too early**: in a run no state has the
request over and the worker asleep if and only if the worker never enters `wait_until`
after the notification was sent. -/
theorem noLostStop_iff (acts : List (Action τ ι)) :
    (∀ n, NoLostStop (Run.exec (step H) ({} : Stopping τ ι) (acts.take n))) ↔
      Run.Meets (step H) InTime {} acts := by
  have hgood : ∀ (s : Stopping τ ι) a s', (Inv s ∧ s.NoLostStop) → s.InTime a →
      s.step H a = some s' → (Inv s' ∧ s'.NoLostStop) :=
    fun s a s' hs hin h => ⟨hs.1.step H h, safe_step H hs.1 hs.2 hin h⟩
  have hbad : ∀ (s : Stopping τ ι) a s', (Inv s ∧ s.NoLostStop) → ¬ s.InTime a →
      s.step H a = some s' → ¬ s'.NoLostStop := fun s a s' _ hin h => lost_step H hin h
  exact Run.safe_iff_meets hgood hbad (fun s hs => hs.2) ⟨inv_init, fun hc => by cases hc⟩ acts

/-! ## Notifying without the worker's lock -/

/-- The worker has tested the flag and may fall asleep without testing it again. -/
def Tested : Place τ → Prop
  | .poll | .decide _ | .block _ => True
  | _ => False

omit [LinearOrder τ] [OrderTop τ] in
theorem holds_of_tested {w : Place τ} (h : Tested w) : Holds w := by
  cases w <;> first | exact trivial | cases h

omit [LinearOrder τ] [OrderTop τ] in
/-- `notify_all` does not bring the worker behind its test. -/
theorem tested_of_notified {w : Place τ} {b : Bool} (h : Tested (if b then notified w else w)) :
    Tested w := by
  cases b with
  | false => exact h
  | true =>
      rw [if_pos rfl] at h
      rcases notified_cases w with ⟨tp, -, hw⟩ | ⟨-, hw⟩
      · rw [hw] at h
        cases h
      · rwa [hw] at h

/-- A worker that has tested the flag was not notified since, when the notifications are
sent while it does not hold the lock. -/
theorem pending_step (hi : Inv s) (hpend : Tested s.worker → s.stop ≠ .complete) {a : Action τ ι}
    (hun : s.Unlocked a) (h : s.step H a = some s') : Tested s'.worker → s'.stop ≠ .complete := by
  intro hw
  cases hi.moves H h with
  | goesOn h =>
      cases h with
      | registers | sleeps | resumes | deregisters => cases hw
      | acquires w _ hw' => rcases hw' with rfl | rfl <;> cases hw
      | keeps w _ hw' =>
          rcases hw' with rfl | rfl | ⟨rfl, hstop⟩
          · cases hw
          · cases hw
          · simp [hstop]
      | releases w _ hw' => rcases hw' with rfl | rfl <;> cases hw
  | polls now v r hw' hv => exact hpend (by rw [hw']; trivial)
  | decides can tp hw' => exact hpend (by rw [hw']; trivial)
  | wakes tp hw' => cases hw
  | requests =>
      have hreg : s.registered = true := by
        refine hi.registered ?_ ?_ <;> (intro h; simp [h, Tested] at hw)
      simp [hreg]
  | notifies => exact absurd (hi.holds (holds_of_tested (tested_of_notified hw))) hun
  | pushes k v b hv => exact hpend (tested_of_notified hw)
  | locks k id p tp hfree => exact hpend hw
  | unlocks k hk => exact hpend hw

/-- A stop that is notified while the worker does not hold the lock is never lost. -/
theorem noLostStop_of_unlocked (acts : List (Action τ ι))
    (hun : Run.Meets (step H) Unlocked ({} : Stopping τ ι) acts) (n : Nat) :
    NoLostStop (Run.exec (step H) ({} : Stopping τ ι) (acts.take n)) := by
  have hstep : ∀ (s : Stopping τ ι) a s', (Inv s ∧ (Tested s.worker → s.stop ≠ .complete)) →
      s.Unlocked a → s.step H a = some s' → (Inv s' ∧ (Tested s'.worker → s'.stop ≠ .complete)) :=
    fun s a s' hs hun h => ⟨hs.1.step H h, pending_step H hs.1 hs.2 hun h⟩
  have himp : ∀ (s : Stopping τ ι) a, (Inv s ∧ (Tested s.worker → s.stop ≠ .complete)) →
      s.Unlocked a → s.InTime a := by
    intro s a hs _
    cases a with
    | go => exact fun tp hw => hs.2 (by rw [hw]; trivial)
    | poll | decide | wake | request | notify | lock | push | unlock => trivial
  have hin : Run.Meets (step H) InTime ({} : Stopping τ ι) acts :=
    Run.Meets.imp_of_inv hstep himp ⟨inv_init, fun hw => by cases hw⟩ hun
  exact (noLostStop_iff H acts).mpr hin n

end Invariant

/-- The destructor on one thread, the worker on another: nothing is scheduled, the worker
has tested the flag and decided to block, and then the flag is set and notified. -/
def destructorRun : List (Action (Fin 4) Nat) :=
  [.go, .go, .go, .go, .go, .go, .poll 1, .decide true, .request, .notify, .go]

/-- The worker sleeps without end, and the request is over. -/
theorem noLostStop_fails :
    (Run.exec (step (Heap.sorting _)) ({} : Stopping (Fin 4) Nat) destructorRun).worker =
        .asleep ⊤ ∧
      ¬ ∀ (H : HeapOps (Fin 4) Nat Nat) acts,
        NoLostStop (Run.exec (step H) ({} : Stopping (Fin 4) Nat) acts) := by
  refine ⟨by decide, fun hall => ?_⟩
  exact hall (Heap.sorting _) destructorRun (by decide) ⊤ (by decide)

end Stopping

end Scheduler

end Cocls
