import Cocls.Scheduler.Reentry

/-!
# Cocls.Scheduler.Oversleep

How long the workers of a scheduler sleep.

A worker computes its deadline under the lock and falls asleep without releasing
it in between; while it sleeps, items are added and taken out.  `schedule`
notifies when the new time is before that of the first item, which may be an
emptied one: its time still bounds the deadlines of the workers asleep, because
the deadline of a worker not notified yet is not later than the time of *any*
item, emptied or not (`Guarded`).  Which entries are live is told by the calls of
the run: those that were scheduled and whose promise has not left since.
-/

namespace Cocls

namespace Scheduler

variable {τ ι : Type*}

/-! ## The times in the vector -/

section Times

variable {π : Type*} {v v' xs : List (SchItem τ ι π)} {x : SchItem τ ι π}

/-- Items were taken out or emptied: no new times. -/
def Thinned (v v' : List (SchItem τ ι π)) : Prop := ∀ y ∈ v', ∃ z ∈ v, z.tp = y.tp

theorem Thinned.refl (v : List (SchItem τ ι π)) : Thinned v v := fun y hy => ⟨y, hy, rfl⟩

theorem Thinned.trans {v'' : List (SchItem τ ι π)} (h : Thinned v v') (h' : Thinned v' v'') :
    Thinned v v'' := by
  intro y hy
  obtain ⟨z, hz, hzy⟩ := h' y hy
  obtain ⟨u, hu, huz⟩ := h z hz
  exact ⟨u, hu, huz.trans hzy⟩

/-- The same times are no new times. -/
theorem thinned_of_map_eq (h : v'.map SchItem.tp = v.map SchItem.tp) : Thinned v v' := by
  intro y hy
  have hmem : y.tp ∈ v.map SchItem.tp := h ▸ List.mem_map_of_mem hy
  exact List.mem_map.mp hmem

variable [LinearOrder τ]

/-- No item is before time `x`. -/
def NoneBefore (x : τ) (v : List (SchItem τ ι π)) : Prop := ∀ y ∈ v, x ≤ y.tp

theorem NoneBefore.thinned {x : τ} (h : NoneBefore x v) (ht : Thinned v v') : NoneBefore x v' := by
  intro y hy
  obtain ⟨z, hz, hzy⟩ := ht y hy
  exact hzy ▸ h z hz

theorem NoneBefore.live {x : τ} (h : NoneBefore x v) : ∀ e ∈ liveIn v, x ≤ e.tp := by
  intro e he
  obtain ⟨y, hy, htp, -, -⟩ := mem_liveIn.mp he
  exact htp ▸ h y hy

variable (H : HeapOps τ ι π)

/-- Popping takes an item out. -/
theorem thinned_popTop (h : Heap.Ordered SchItem.tp (x :: xs)) :
    Thinned (x :: xs) (popTop H x xs) :=
  fun y hy => ⟨y, List.mem_cons_of_mem x ((popTop_spec H h).2.mem_iff.mp hy), rfl⟩

/-- The worker is notified of an item that comes before all others. -/
theorem noneBefore_schedule {x : τ} {id : ι} {p : Option π} {tp : τ} (h : NoneBefore x v)
    (hntf : (schedule H id p tp v).2 = false) : NoneBefore x (schedule H id p tp v).1 := by
  have hlate : x ≤ tp := by
    cases v with
    | nil => cases hntf
    | cons z zs =>
        simp only [schedule, gt_iff_lt, decide_eq_false_iff_not, not_lt] at hntf
        exact le_trans (h z List.mem_cons_self) hntf
  intro y hy
  rcases List.mem_append.mp ((H.push_perm _).mem_iff.mp hy) with hy | hy
  · exact h y hy
  · rw [List.mem_singleton.mp hy]
    exact hlate

/-- `get_expired` takes items out; the time it returns is before no other. -/
theorem getExpiredLk_times [OrderTop τ] (now : τ) :
    ∀ (fuel : Nat) (v v' : List (SchItem τ ι π)) (r : Expired τ π), Heap.Ordered SchItem.tp v →
      getExpiredLk H now fuel v = some (v', r) →
      Thinned v v' ∧ Heap.Ordered SchItem.tp v' ∧ ∀ tp, r = .time tp → NoneBefore tp v' := by
  have hnil : ∀ (v' : List (SchItem τ ι π)) (r : Expired τ π),
      (([], .time ⊤) : List (SchItem τ ι π) × Expired τ π) = (v', r) →
      Thinned [] v' ∧ Heap.Ordered SchItem.tp v' ∧ ∀ tp, r = .time tp → NoneBefore tp v' := by
    rintro v' r h
    obtain ⟨rfl, rfl⟩ := Prod.mk.inj h
    exact ⟨Thinned.refl [], Heap.ordered_nil, fun _ _ => by simp [NoneBefore]⟩
  intro fuel
  induction fuel with
  | zero =>
      intro v v' r hv h
      cases v with
      | nil => exact hnil v' r (Option.some.inj h)
      | cons x xs => cases h
  | succ fuel ih =>
      intro v v' r hv h
      cases v with
      | nil => exact hnil v' r (Option.some.inj h)
      | cons x xs =>
          have hpop := (popTop_spec H hv).1
          rw [getExpiredLk] at h
          split at h
          · cases hp : x.p with
            | some p =>
                simp only [hp, Option.some.injEq, Prod.mk.injEq] at h
                obtain ⟨rfl, rfl⟩ := h
                exact ⟨thinned_popTop H hv, hpop, fun _ h => by cases h⟩
            | none =>
                simp only [hp] at h
                obtain ⟨hthin, hord, htime⟩ := ih _ _ _ hpop h
                exact ⟨(thinned_popTop H hv).trans hthin, hord, htime⟩
          · obtain ⟨rfl, rfl⟩ := Prod.mk.inj (Option.some.inj h)
            refine ⟨Thinned.refl _, hv, fun tp h => ?_⟩
            cases h
            intro y hy
            rcases List.mem_cons.mp hy with rfl | hy
            · exact le_refl _
            · exact hv.root_le y hy

/-- `remove` takes items out or empties them. -/
theorem remove_times [DecidableEq ι] {id : ι} {r : Option π} (hv : Heap.Ordered SchItem.tp v)
    (h : remove H id v = some (v', r)) : Thinned v v' ∧ Heap.Ordered SchItem.tp v' := by
  have hloop : ∀ (fuel : Nat) (v v' : List (SchItem τ ι π)) (r : Option π),
      Heap.Ordered SchItem.tp v → removeLoop H id fuel v = some (v', r) →
      Thinned v v' ∧ Heap.Ordered SchItem.tp v' := by
    intro fuel
    induction fuel with
    | zero =>
        intro v v' r hv h
        cases v <;> cases h
    | succ fuel ih =>
        intro v v' r hv h
        cases v with
        | nil => cases h
        | cons x xs =>
            have hpop := (popTop_spec H hv).1
            rw [removeLoop] at h
            split at h
            · cases hp : x.p with
              | some p =>
                  simp only [hp, Option.some.injEq, Prod.mk.injEq] at h
                  obtain ⟨rfl, rfl⟩ := h
                  exact ⟨thinned_popTop H hv, hpop⟩
              | none =>
                  simp only [hp] at h
                  obtain ⟨hthin, hord⟩ := ih _ _ _ hpop h
                  exact ⟨(thinned_popTop H hv).trans hthin, hord⟩
            · obtain ⟨htp, -, -⟩ := moveOut_spec id (x :: xs)
              rw [Option.some.inj h] at htp
              exact ⟨thinned_of_map_eq htp, hv.congr htp⟩
  unfold remove at h
  split at h
  · next hnil =>
    obtain ⟨rfl, rfl⟩ := Prod.mk.inj (Option.some.inj h)
    rw [hnil]
    exact ⟨Thinned.refl [], Heap.ordered_nil⟩
  · exact hloop _ _ _ _ hv h

end Times

namespace Threads

/-! ## The frames that have a deadline -/

/-- The deadline of the worker on top of a stack, and whether it is asleep. -/
def deadline : List (Frame τ ι) → Option (τ × Bool)
  | .worker _ (.decide x) :: _ | .worker _ (.block x) :: _ => some (x, false)
  | .worker _ (.asleep x) :: _ => some (x, true)
  | _ => none

/-- Every worker of the frames has called something from its loop. -/
def Settled (fs : List (Frame τ ι)) : Prop := ∀ home w, Frame.worker home w ∈ fs → w = .loop

/-- Only the frame on top is in the middle of something. -/
def Tidy (fs : List (Frame τ ι)) : Prop := Settled fs.tail

section Stacks

variable {f : Frame τ ι} {fs : List (Frame τ ι)} {home : Option Nat} {w : Place τ}

theorem Settled.tidy (h : Settled fs) : Tidy fs :=
  fun home w hm => h home w (List.mem_of_mem_tail hm)

/-- A frame on top of settled ones. -/
theorem settled_cons (h : Settled fs) (hf : ∀ home w, f = .worker home w → w = .loop) :
    Settled (f :: fs) := by
  intro home w hm
  rcases List.mem_cons.mp hm with hm | hm
  · exact hf home w hm.symm
  · exact h home w hm

/-- One stack is replaced by a tidy one. -/
theorem tidy_update {stack : Nat → List (Frame τ ι)} (h : ∀ t, Tidy (stack t)) (hfs : Tidy fs)
    (t₀ t : Nat) : Tidy (Function.update stack t₀ fs t) := by
  by_cases ht : t = t₀
  · rw [ht, Function.update_self]
    exact hfs
  · rw [Function.update_of_ne ht]
    exact h t

/-- Settled frames have no deadline. -/
theorem Settled.deadline_eq (h : Settled fs) : deadline fs = none := by
  unfold deadline
  split
  · cases h _ _ List.mem_cons_self
  · cases h _ _ List.mem_cons_self
  · cases h _ _ List.mem_cons_self
  · rfl

/-- A worker with a deadline that is awake holds the lock. -/
theorem holds_of_deadline {x : τ} (h : deadline fs = some (x, false)) : ¬ Free fs := by
  unfold deadline at h
  split at h
  · exact fun hfree => (free_cons.mp hfree).1 trivial
  · exact fun hfree => (free_cons.mp hfree).1 trivial
  · cases h
  · cases h

end Stacks

/-! ## Notifications -/

/-- Threads, which of them were notified since they last began to wait, and the live entries:
scheduled, and not expired or removed since. -/
structure Watched (τ ι : Type*) where
  threads : Threads τ ι := {}
  notified : Nat → Bool := fun _ => false
  live : List (Entry τ ι Nat) := []

namespace Watched

section Step

variable [LinearOrder τ] [OrderTop τ] [DecidableEq ι] (H : HeapOps τ ι Nat) (tag : Nat → ι)

/-- The step calls `notify_all`. -/
def notifies (s : Threads τ ι) : Action τ ι → Bool
  | .go t _ =>
      match s.stack t with
      | .schedule id p tp :: _ => (Scheduler.schedule H id p tp s.v).2
      | _ => false
  | _ => false

/-- The step begins to wait in `wait_until`. -/
def beginsToWait (s : Threads τ ι) : Action τ ι → Bool
  | .work t _ _ _ =>
      match s.stack t with
      | .worker _ (.block _) :: _ => true
      | _ => false
  | _ => false

/-- The threads notified since they last began to wait, after a step. -/
def notifiedAfter (s : Watched τ ι) (a : Action τ ι) (t : Nat) : Bool :=
  if t = a.thread ∧ beginsToWait s.threads a then false
  else s.notified t || notifies H s.threads a

/-- The promise that `get_expired` hands out. -/
def handedOut : Expired τ Nat → Option Nat
  | .promise p => some p
  | .time _ => none

/-- The promise that leaves the scheduler in a step. -/
def leaves (s : Threads τ ι) : Action τ ι → Option Nat
  | .go t _ =>
      match s.stack t with
      | .getExpired now :: _ => (getExpiredLk H now s.v.length s.v).bind fun r => handedOut r.2
      | .remove id :: _ => (Scheduler.remove H id s.v).bind Prod.snd
      | _ => none
  | .work t _ _ now =>
      match s.stack t with
      | .worker _ .poll :: _ => (getExpiredLk H now s.v.length s.v).bind fun r => handedOut r.2
      | _ => none
  | .call _ _ | .ret _ => none

/-- The entry that a step schedules; none for an empty promise. -/
def enters (s : Threads τ ι) : Action τ ι → List (Entry τ ι Nat)
  | .go t _ =>
      match s.stack t with
      | .schedule id p tp :: _ => liveIn [⟨tp, p, id⟩]
      | _ => []
  | .call _ _ | .ret _ | .work _ _ _ _ => []

/-- The live entries after a step. -/
def liveAfter (s : Watched τ ι) (a : Action τ ι) : List (Entry τ ι Nat) :=
  s.live.filter (fun e => leaves H s.threads a ≠ some e.p) ++ enters s.threads a

/-- One step, the notification it makes and the entries that come and go. -/
def step (s : Watched τ ι) (a : Action τ ι) : Option (Watched τ ι) :=
  (s.threads.step H tag a).map fun threads =>
    { threads := threads, notified := notifiedAfter H s a, live := liveAfter H s a }

end Step

/-- A worker that sleeps until `x` and was not notified since it began to wait sleeps past no
live entry. -/
structure NeverOversleeps [LinearOrder τ] (s : Watched τ ι) : Prop where
  /-- every live entry is in the vector -/
  kept : ∀ e ∈ s.live, e ∈ liveIn s.threads.v
  bound : ∀ t home x fs, s.threads.stack t = .worker home (.asleep x) :: fs →
    s.notified t = false → ∀ e ∈ liveIn s.threads.v, x ≤ e.tp

end Watched

/-! ## What a step does to the deadlines -/

/-- The steps by what they do to the vector and to the stack of their thread. -/
inductive Turn [LinearOrder τ] [OrderTop τ] (H : HeapOps τ ι Nat) (s : Threads τ ι)
    (a : Action τ ι) (s' : Threads τ ι) : Prop
  /-- nothing, as when the lock is taken a second time -/
  | stays (hstack : s'.stack = s.stack) (hholder : s'.holder = s.holder) (hv : s'.v = s.v)
  | turns (fs : List (Frame τ ι)) (hstack : s'.stack = Function.update s.stack a.thread fs)
      (hre : s'.reentered = s.reentered) (hv : s'.v = s.v) (htidy : Tidy fs)
      (hdl : deadline fs = none ∨ ∃ x b, deadline fs = some (x, b) ∧
        deadline (s.stack a.thread) = some (x, false) ∧
          (b = true → Watched.beginsToWait s a = true))
  /-- the worker calls `get_expired_lk` -/
  | polls (now : τ) (home : Option Nat) (fs : List (Frame τ ι)) (r : Expired τ Nat)
      (hst : s.stack a.thread = .worker home .poll :: fs)
      (hrun : getExpiredLk H now s.v.length s.v = some (s'.v, r))
      (hstack : s'.stack =
        Function.update s.stack a.thread (.worker home (Stopping.answered r) :: fs))
      (hre : s'.reentered = s.reentered) (htidy : Settled fs)
  | schedules (id : ι) (p : Option Nat) (tp : τ) (fs : List (Frame τ ι))
      (hst : s.stack a.thread = .schedule id p tp :: fs)
      (hv : s'.v = (Scheduler.schedule H id p tp s.v).1)
      (hntf : Watched.notifies H s a = (Scheduler.schedule H id p tp s.v).2)
      (hstack : s'.stack = Function.update s.stack a.thread fs)
      (hre : s'.reentered = s.reentered) (htidy : Settled fs)
  /-- items are taken out or emptied -/
  | thins (fs : List (Frame τ ι)) (hheld : ¬ Free (s.stack a.thread))
      (hv : Heap.Ordered SchItem.tp s.v → Thinned s.v s'.v ∧ Heap.Ordered SchItem.tp s'.v)
      (hstack : s'.stack = Function.update s.stack a.thread fs)
      (hre : s'.reentered = s.reentered) (htidy : Settled fs)

section Turns

variable [LinearOrder τ] [OrderTop τ] (H : HeapOps τ ι Nat) {s s₀ s₁ s' : Threads τ ι}
  {a : Action τ ι} {t : Nat} {fs fs' : List (Frame τ ι)}

/-- A step that does not touch the stacks. -/
theorem Turn.same (h : SameLocks s s') (hv : s'.v = s.v) : Turn H s a s' :=
  .stays h.stack_eq h.holder_eq hv

/-- A step to a stack without a deadline. -/
theorem Turn.setStack (ht : a.thread = t) (h : SameLocks (s.setStack t fs') s') (hv : s'.v = s.v)
    (htidy : Tidy fs') (hdl : deadline fs' = none) : Turn H s a s' := by
  subst ht
  exact .turns fs' h.stack_eq h.reentered_eq hv htidy (.inl hdl)

/-- A step that takes the lock, or tries to. -/
theorem Turn.lock (ht : a.thread = t) (hsame : SameLocks s s₀) (hv₀ : s₀.v = s.v)
    (h : s₀.lock t fs' = some s₁) (hsame' : SameLocks s₁ s') (hv : s'.v = s₁.v) (htidy : Tidy fs')
    (hdl : deadline fs' = none) : Turn H s a s' := by
  subst ht
  unfold Threads.lock at h
  split at h
  · obtain rfl := Option.some.inj h
    refine .turns fs' ?_ (hsame'.reentered_eq.trans hsame.reentered_eq) (hv.trans hv₀) htidy
      (.inl hdl)
    rw [hsame'.stack_eq, ← hsame.stack_eq]
    rfl
  · obtain ⟨-, h⟩ := Option.ite_none_right_eq_some.mp h
    obtain rfl := Option.some.inj h
    exact .stays (hsame'.stack_eq.trans hsame.stack_eq) (hsame'.holder_eq.trans hsame.holder_eq)
      (hv.trans hv₀)

/-- A call by code outside the scheduler. -/
theorem turn_call {c : Call τ ι} (hfs : Settled fs)
    (h : s.callStep t (.user :: fs) c = some s') : Turn H s (.call t c) s' := by
  have huser : Settled (.user :: fs) := settled_cons hfs fun _ _ h => by cases h
  -- what is pushed
  have hpush : ∀ f : Frame τ ι, (∀ home w, f = .worker home w → w = .loop) →
      Tidy (f :: .user :: fs) ∧ deadline (f :: .user :: fs) = none := fun f hf =>
    ⟨huser, (settled_cons huser hf).deadline_eq⟩
  cases c with
  | makePromise =>
      obtain rfl := Option.some.inj h
      exact .same H ⟨rfl, rfl, rfl⟩ rfl
  | subscribe p w =>
      obtain ⟨-, h⟩ := Option.ite_none_right_eq_some.mp h
      obtain rfl := Option.some.inj h
      exact .same H ⟨rfl, rfl, rfl⟩ rfl
  | resolve p ok =>
      obtain ⟨-, h⟩ := Option.ite_none_right_eq_some.mp h
      obtain rfl := Option.some.inj h
      obtain ⟨htidy, hdl⟩ := hpush (.resumeChain (s.awaiters p)) fun _ _ h => by cases h
      exact .setStack H rfl ⟨rfl, rfl, rfl⟩ rfl htidy hdl
  | schedule id p tp =>
      obtain ⟨-, h⟩ := Option.ite_none_right_eq_some.mp h
      obtain ⟨s₁, hs₁, rfl⟩ := Option.map_eq_some_iff.mp h
      obtain ⟨htidy, hdl⟩ := hpush (.schedule id p tp) fun _ _ h => by cases h
      cases p <;> exact .lock H rfl (.refl s) rfl hs₁ ⟨rfl, rfl, rfl⟩ rfl htidy hdl
  | sleepUntil id tp =>
      obtain ⟨s₁, hs₁, rfl⟩ := Option.map_eq_some_iff.mp h
      obtain ⟨htidy, hdl⟩ := hpush (.schedule id (some s.count) tp) fun _ _ h => by cases h
      exact .lock H rfl (.refl s) rfl hs₁ ⟨rfl, rfl, rfl⟩ rfl htidy hdl
  | getExpired now =>
      obtain ⟨htidy, hdl⟩ := hpush (.getExpired now) fun _ _ h => by cases h
      exact .lock H rfl (.refl s) rfl h (.refl s') rfl htidy hdl
  | remove id =>
      obtain ⟨htidy, hdl⟩ := hpush (.remove id) fun _ _ h => by cases h
      exact .lock H rfl (.refl s) rfl h (.refl s') rfl htidy hdl
  | cancel id =>
      have hcancel : Settled (.cancel :: .user :: fs) := settled_cons huser fun _ _ h => by cases h
      exact .lock H rfl (.refl s) rfl h (.refl s') rfl hcancel rfl
  | start pool =>
      obtain ⟨htidy, hdl⟩ := hpush (.worker (if pool then none else some t) .loop) fun _ _ h => by
        cases h
        rfl
      exact .lock H rfl (.refl s) rfl h (.refl s') rfl htidy hdl
  | resumeWorker k =>
      simp only [callStep] at h
      split at h
      · cases h
      · obtain ⟨-, h⟩ := Option.ite_none_right_eq_some.mp h
        obtain ⟨s₁, hs₁, rfl⟩ := Option.map_eq_some_iff.mp h
        exact .lock H rfl (.refl s) rfl hs₁ ⟨rfl, rfl, rfl⟩ rfl huser rfl
  | interval i =>
      have hint : Settled (.interval i :: .user :: fs) := settled_cons huser fun _ _ h => by cases h
      simp only [callStep] at h
      split at h
      · split at h
        · exact .lock H rfl (.refl s) rfl h (.refl s') rfl hint rfl
        · obtain rfl := Option.some.inj h
          exact .setStack H rfl ⟨rfl, rfl, rfl⟩ rfl huser rfl
      · obtain rfl := Option.some.inj h
        exact .setStack H rfl ⟨rfl, rfl, rfl⟩ rfl huser rfl
      · cases h
  | wakeInterval i =>
      simp only [callStep] at h
      split at h
      · split at h
        · cases h
        · obtain rfl := Option.some.inj h
          exact .same H ⟨rfl, rfl, rfl⟩ rfl
        · obtain rfl := Option.some.inj h
          exact .same H ⟨rfl, rfl, rfl⟩ rfl
      · cases h
  | requestStop i =>
      simp only [callStep] at h
      split at h
      · obtain rfl := Option.some.inj h
        exact .same H (.refl s) rfl
      · split at h
        · refine .lock H rfl ?_ ?_ h (.refl s') rfl huser rfl
          · exact ⟨rfl, rfl, rfl⟩
          · rfl
        · obtain rfl := Option.some.inj h
          exact .same H ⟨rfl, rfl, rfl⟩ rfl

/-- A step of a function of the scheduler, or of an interval generator. -/
theorem turn_go [DecidableEq ι] (tag : Nat → ι) {next : τ} {f : Frame τ ι}
    (hst : s.stack t = f :: fs) (hfs : Settled fs) (h : s.goStep H tag t next f fs = some s') :
    Turn H s (.go t next) s' := by
  have hcrit : Critical f → ¬ Free (s.stack t) := fun hf hfree => by
    rw [hst] at hfree
    exact hfree f List.mem_cons_self (holdsLock_of_critical hf)
  unfold goStep at h
  split at h
  · obtain rfl := Option.some.inj h
    refine .schedules _ _ _ fs hst rfl ?_ rfl rfl hfs
    simp only [Watched.notifies, hst]
  · obtain ⟨r, hr, rfl⟩ := Option.map_eq_some_iff.mp h
    refine .thins fs (hcrit trivial) (fun hv => ?_) rfl rfl hfs
    obtain ⟨hthin, hord, -⟩ := getExpiredLk_times H _ _ _ _ _ hv hr
    exact ⟨hthin, hord⟩
  · obtain ⟨r, hr, rfl⟩ := Option.map_eq_some_iff.mp h
    have htail : ∀ home w, Frame.worker home w ∈ _ → w = .loop :=
      fun home w hm => hfs home w (List.mem_cons_of_mem _ hm)
    split
    · exact .thins _ (hcrit trivial) (fun hv => remove_times H hv hr) rfl rfl htail
    · next p _ =>
      have hchain : Settled (.resumeChain (s.awaiters p) :: _) :=
        settled_cons htail fun _ _ h => by cases h
      refine .thins _ (hcrit trivial) (fun hv => remove_times H hv hr) ?_ rfl hchain
      simp [Threads.resolve, Threads.unlock, Threads.setStack, Action.thread]
  · obtain ⟨r, hr, rfl⟩ := Option.map_eq_some_iff.mp h
    exact .thins fs (hcrit trivial) (fun hv => remove_times H hv hr) rfl rfl hfs
  · obtain rfl := Option.some.inj h
    exact .setStack H rfl (.refl _) rfl hfs.tidy hfs.deadline_eq
  · next w ws =>
    have hchain : Settled (.resumeChain ws :: fs) := settled_cons hfs fun _ _ h => by cases h
    split at h
    · obtain rfl := Option.some.inj h
      exact .setStack H rfl (.refl _) rfl hchain rfl
    · obtain rfl := Option.some.inj h
      exact .setStack H rfl (.refl _) rfl hfs rfl
  · split at h
    · obtain rfl := Option.some.inj h
      exact .setStack H rfl ⟨rfl, rfl, rfl⟩ rfl hfs.tidy hfs.deadline_eq
    · obtain ⟨s₁, hs₁, rfl⟩ := Option.map_eq_some_iff.mp h
      exact .lock H rfl (.refl s) rfl hs₁ ⟨rfl, rfl, rfl⟩ rfl hfs rfl
  · next i =>
    have hcb : Settled (.cancel :: .stopCallback i true :: fs) :=
      settled_cons (settled_cons hfs fun _ _ h => by cases h) fun _ _ h => by cases h
    exact .lock H rfl (.refl s) rfl h (.refl s') rfl hcb rfl
  · obtain rfl := Option.some.inj h
    exact .turns fs rfl rfl rfl hfs.tidy (.inl hfs.deadline_eq)
  · cases h

/-- A step of the worker. -/
theorem turn_work {stop can : Bool} {now : τ} {home : Option Nat} {w : Place τ}
    (hst : s.stack t = .worker home w :: fs) (hfs : Settled fs)
    (h : s.workStep H t stop can now home fs w = some s') : Turn H s (.work t stop can now) s' := by
  unfold workStep at h
  split at h
  · split at h
    · obtain rfl := Option.some.inj h
      exact .setStack H rfl (.refl _) rfl hfs rfl
    · obtain rfl := Option.some.inj h
      exact .turns fs rfl rfl rfl hfs.tidy (.inl hfs.deadline_eq)
  · obtain rfl := Option.some.inj h
    exact .setStack H rfl (.refl _) rfl hfs (by cases stop <;> rfl)
  · obtain ⟨r, hr, rfl⟩ := Option.map_eq_some_iff.mp h
    exact .polls now home fs r.2 hst hr rfl rfl hfs
  · obtain rfl := Option.some.inj h
    have hloop : Settled (.worker home .loop :: fs) := settled_cons hfs fun _ _ h => by
      cases h
      rfl
    exact .setStack H rfl ⟨rfl, rfl, rfl⟩ rfl hloop rfl
  · next tp =>
    obtain rfl := Option.some.inj h
    cases can with
    | true =>
        refine .turns _ rfl rfl rfl hfs (.inr ⟨tp, false, rfl, ?_, fun h => by cases h⟩)
        simp only [Action.thread, hst, deadline]
    | false => exact .setStack H rfl (.refl _) rfl hfs rfl
  · next tp =>
    obtain rfl := Option.some.inj h
    refine .turns _ rfl rfl rfl hfs (.inr ⟨tp, true, rfl, ?_, fun _ => ?_⟩)
    · simp only [Action.thread, hst, deadline]
    · simp only [Watched.beginsToWait, hst]
  · obtain rfl := Option.some.inj h
    exact .setStack H rfl (.refl _) rfl hfs rfl
  · exact .lock H rfl (.refl s) rfl h (.refl s') rfl hfs rfl
  · obtain rfl := Option.some.inj h
    exact .turns fs rfl rfl rfl hfs.tidy (.inl hfs.deadline_eq)
  · cases h

/-- Every step is one of the turns. -/
theorem turn_of_step [DecidableEq ι] (tag : Nat → ι) (htidy : Tidy (s.stack a.thread))
    (h : s.step H tag a = some s') : Turn H s a s' := by
  have hsettled : ∀ t f fs, a.thread = t → s.stack t = f :: fs → Settled fs := by
    rintro t f fs rfl hst
    rw [hst] at htidy
    exact htidy
  cases a with
  | call t c =>
      obtain ⟨-, h⟩ := Option.ite_none_left_eq_some.mp h
      split at h
      · next hst => exact turn_call H (hsettled t _ _ rfl hst) h
      · cases h
  | ret t =>
      obtain ⟨-, h⟩ := Option.ite_none_left_eq_some.mp h
      split at h
      · next f fs hst =>
        obtain rfl := Option.some.inj h
        have hf : Settled (f :: fs) := hsettled t _ _ rfl hst
        exact .setStack H rfl (.refl _) rfl hf.tidy hf.deadline_eq
      · cases h
  | go t next =>
      obtain ⟨-, h⟩ := Option.ite_none_left_eq_some.mp h
      split at h
      · next hst => exact turn_go H tag hst (hsettled t _ _ rfl hst) h
      · cases h
  | work t stop can now =>
      obtain ⟨-, h⟩ := Option.ite_none_left_eq_some.mp h
      split at h
      · next hst => exact turn_work H hst (hsettled t _ _ rfl hst) h
      · cases h

end Turns

/-! ## What a step does to the entries -/

section Entries

variable {s s' : Threads τ ι} {t : Nat} {fs : List (Frame τ ι)} {e : Entry τ ι Nat}

theorem v_of_lock (h : s.lock t fs = some s') : s'.v = s.v := by
  unfold Threads.lock at h
  grind [Threads.setStack]

/-- Code outside the scheduler only asks for the lock. -/
theorem v_of_callStep {c : Call τ ι} (h : s.callStep t fs c = some s') : s'.v = s.v := by
  have hlock : ∀ (s₀ s₁ : Threads τ ι) fs', s₀.v = s.v → s₀.lock t fs' = some s₁ → s₁.v = s.v :=
    fun s₀ s₁ fs' h₀ h₁ => (v_of_lock h₁).trans h₀
  have hgive : ∀ (s₀ : Threads τ ι) p, (s₀.giveAway p).v = s₀.v := by
    rintro s₀ (- | p) <;> rfl
  cases c <;> simp only [callStep] at h <;>
    grind [Threads.setStack, Threads.resolve, Option.map_eq_some_iff]

/-- Where the vector stays as it is, no entry goes. -/
theorem kept_of_v {p : Option Nat} (h : s'.v = s.v) :
    (∀ e ∈ liveIn s.v, p ≠ some e.p → e ∈ liveIn s'.v) ∧
      ∀ e ∈ ([] : List (Entry τ ι Nat)), e ∈ liveIn s'.v :=
  ⟨fun e he _ => h ▸ he, by simp⟩

variable [LinearOrder τ] (H : HeapOps τ ι Nat)

/-- The entries whose promise `get_expired` does not return are kept. -/
theorem mem_of_getExpiredLk [OrderTop τ] {now : τ} {v : List (SchItem τ ι Nat)}
    {r : List (SchItem τ ι Nat) × Expired τ Nat} (hv : Heap.Ordered SchItem.tp v)
    (h : getExpiredLk H now v.length v = some r) (he : e ∈ liveIn v)
    (hne : Watched.handedOut r.2 ≠ some e.p) : e ∈ liveIn r.1 := by
  obtain ⟨v', r', hrun, -, -, hleaves⟩ := getExpiredLk_spec H now v.length v (le_refl _) hv
  rw [h] at hrun
  obtain rfl := Option.some.inj hrun
  cases r' with
  | promise p =>
      obtain ⟨e', rfl, hperm⟩ := hleaves
      rcases List.mem_cons.mp (hperm.mem_iff.mp he) with rfl | he
      · exact absurd rfl hne
      · exact he
  | time _ => exact hleaves.mem_iff.mp he

/-- The entries whose promise `remove` does not return are kept. -/
theorem mem_of_remove [DecidableEq ι] {id : ι} {v : List (SchItem τ ι Nat)}
    {r : List (SchItem τ ι Nat) × Option Nat} (hv : Heap.Ordered SchItem.tp v)
    (h : Scheduler.remove H id v = some r) (he : e ∈ liveIn v) (hne : r.2 ≠ some e.p) :
    e ∈ liveIn r.1 := by
  rcases remove_spec H id hv with hnone | ⟨v', r', hrun, -, hleaves⟩
  · rw [h] at hnone
    cases hnone
  · rw [h] at hrun
    obtain rfl := Option.some.inj hrun
    cases r' with
    | some p =>
        obtain ⟨e', rfl, hperm⟩ := hleaves
        rcases List.mem_cons.mp (hperm.mem_iff.mp he) with rfl | he
        · exact absurd rfl hne
        · exact he
    | none => exact hleaves.mem_iff.mp he

variable [OrderTop τ]

/-- A worker touches the vector in `get_expired_lk` only. -/
theorem v_of_workStep {stop can : Bool} {now : τ} {home : Option Nat} {w : Place τ}
    (hw : w ≠ .poll) (h : s.workStep H t stop can now home fs w = some s') : s'.v = s.v := by
  cases w with
  | poll => exact absurd rfl hw
  | woken => exact v_of_lock h
  | _ => simp only [workStep] at h; grind [Threads.setStack, Threads.resolve, Threads.unlock]

/-- A live entry is kept until its promise leaves, and a new one is taken in. -/
theorem live_of_step [DecidableEq ι] (tag : Nat → ι) {a : Action τ ι}
    (hv : Heap.Ordered SchItem.tp s.v) (h : s.step H tag a = some s') :
    (∀ e ∈ liveIn s.v, Watched.leaves H s a ≠ some e.p → e ∈ liveIn s'.v) ∧
      ∀ e ∈ Watched.enters s a, e ∈ liveIn s'.v := by
  cases a with
  | call t c =>
      obtain ⟨-, h⟩ := Option.ite_none_left_eq_some.mp h
      split at h
      · exact kept_of_v (v_of_callStep h)
      · cases h
  | ret t =>
      obtain ⟨-, h⟩ := Option.ite_none_left_eq_some.mp h
      split at h
      · exact kept_of_v (by rw [← Option.some.inj h]; rfl)
      · cases h
  | go t next =>
      obtain ⟨-, h⟩ := Option.ite_none_left_eq_some.mp h
      split at h
      · next f fs hst =>
        simp only [Watched.leaves, Watched.enters, hst]
        unfold goStep at h
        split at h
        · next id p tp =>
          obtain rfl := Option.some.inj h
          have hlive := (schedule_spec H id p tp hv).2
          exact ⟨fun e he _ => hlive.mem_iff.mpr (List.mem_append_left _ he),
            fun e he => hlive.mem_iff.mpr (List.mem_append_right _ he)⟩
        · obtain ⟨r, hr, rfl⟩ := Option.map_eq_some_iff.mp h
          simp only [hr, Option.bind_some]
          exact ⟨fun e he hne => mem_of_getExpiredLk H hv hr he hne, by simp⟩
        · obtain ⟨r, hr, rfl⟩ := Option.map_eq_some_iff.mp h
          simp only [hr, Option.bind_some]
          refine ⟨fun e he hne => ?_, by simp⟩
          have hmem := mem_of_remove H hv hr he hne
          split <;> exact hmem
        · obtain ⟨r, hr, rfl⟩ := Option.map_eq_some_iff.mp h
          simp only [hr, Option.bind_some]
          exact ⟨fun e he hne => mem_of_remove H hv hr he hne, by simp⟩
        · exact kept_of_v (by rw [← Option.some.inj h]; rfl)
        · split at h <;> exact kept_of_v (by rw [← Option.some.inj h]; rfl)
        · split at h
          · exact kept_of_v (by rw [← Option.some.inj h]; rfl)
          · obtain ⟨s₁, hs₁, rfl⟩ := Option.map_eq_some_iff.mp h
            have hs := v_of_lock hs₁
            exact kept_of_v hs
        · exact kept_of_v (v_of_lock h)
        · exact kept_of_v (by rw [← Option.some.inj h]; rfl)
        · cases h
      · cases h
  | work t stop can now =>
      obtain ⟨-, h⟩ := Option.ite_none_left_eq_some.mp h
      split at h
      · next home w fs hst =>
        by_cases hw : w = .poll
        · subst hw
          obtain ⟨r, hr, rfl⟩ := Option.map_eq_some_iff.mp h
          simp only [Watched.leaves, Watched.enters, hst, hr, Option.bind_some]
          exact ⟨fun e he hne => mem_of_getExpiredLk H hv hr he hne, by simp⟩
        · exact kept_of_v (v_of_workStep H hw h)
      · cases h

end Entries

/-! ## Every run -/

section Runs

variable [LinearOrder τ] [OrderTop τ] {H : HeapOps τ ι Nat} {s s' : Threads τ ι}
  {a : Action τ ι} {t : Nat}

/-- Every step keeps the lock. -/
theorem Locked.step [DecidableEq ι] {tag : Nat → ι} (hl : Locked s) (h : s.step H tag a = some s')
    (ht : Turn H s a s') : Locked s' := by
  have hmoved : s'.reentered = s.reentered → Locked s' := hl.moved (moved_of_step H tag h)
  cases ht with
  | stays hstack hholder =>
      refine ⟨fun t h => ?_, fun t h => ?_⟩
      · rw [hstack]
        exact hl.owner t (hholder ▸ h)
      · rw [hstack]
        exact hl.free t (hholder ▸ h)
  | turns _ _ hre | polls _ _ _ _ _ _ _ hre | schedules _ _ _ _ _ _ _ _ hre | thins _ _ _ _ hre =>
      exact hmoved hre

end Runs

namespace Watched

/-- What bounds the deadlines: a worker that computed one and is awake still holds the
lock, and one that is asleep and was not notified has none after the time of any item. -/
structure Guarded [LinearOrder τ] (s : Watched τ ι) : Prop where
  locked : Locked s.threads
  ordered : Heap.Ordered SchItem.tp s.threads.v
  tidy : ∀ t, Tidy (s.threads.stack t)
  kept : ∀ e ∈ s.live, e ∈ liveIn s.threads.v
  bound : ∀ t x b, deadline (s.threads.stack t) = some (x, b) → (b = true → s.notified t = false) →
    NoneBefore x s.threads.v

section Runs

variable [LinearOrder τ] [OrderTop τ] {H : HeapOps τ ι Nat} {s s' : Watched τ ι}
  {a : Action τ ι} {t : Nat}

omit [OrderTop τ] in
theorem guarded_init : Guarded ({} : Watched τ ι) :=
  ⟨⟨fun t h => (by cases h), fun t _ => (by simp [Free, HoldsLock])⟩, Heap.ordered_nil,
    fun _ _ _ hm => (by cases hm), fun _ he => (by cases he), fun _ _ _ h => (by cases h)⟩

omit [LinearOrder τ] [OrderTop τ] in
/-- A worker that begins to wait is awake until then. -/
theorem deadline_of_begins {s : Threads τ ι} (h : beginsToWait s a = true) :
    ∃ x, deadline (s.stack a.thread) = some (x, false) := by
  unfold beginsToWait at h
  split at h
  · split at h
    · next x _ hst => exact ⟨x, by simp only [Action.thread, hst, deadline]⟩
    · cases h
  · cases h

omit [OrderTop τ] in
/-- A worker asleep that is not notified after a step was not before it, and the step does
not notify. -/
theorem quiet_of_asleep {x : τ} (hd : deadline (s.threads.stack t) = some (x, true))
    (hn : notifiedAfter H s a t = false) :
    s.notified t = false ∧ notifies H s.threads a = false := by
  have hawake : ¬ (t = a.thread ∧ beginsToWait s.threads a = true) := by
    rintro ⟨rfl, hb⟩
    obtain ⟨y, hy⟩ := deadline_of_begins hb
    rw [hd] at hy
    cases hy
  simp only [notifiedAfter, hawake, if_false, Bool.or_eq_false_iff] at hn
  exact hn

omit [OrderTop τ] in
/-- A step that replaces the stack of thread `d`: what bounds its deadline, and those of the
others, in the new vector. -/
theorem Guarded.of_update {d : Nat} {fs : List (Frame τ ι)} (hg : Guarded s)
    (hlocked : Locked s'.threads) (hord : Heap.Ordered SchItem.tp s'.threads.v)
    (hkept : ∀ e ∈ s'.live, e ∈ liveIn s'.threads.v)
    (hstack : s'.threads.stack = Function.update s.threads.stack d fs) (htidy : Tidy fs)
    (hown : ∀ x b, deadline fs = some (x, b) → NoneBefore x s'.threads.v)
    (hothers : ∀ t x b, t ≠ d → deadline (s.threads.stack t) = some (x, b) →
      (b = true → s'.notified t = false) → NoneBefore x s'.threads.v) : Guarded s' := by
  refine ⟨hlocked, hord, fun t => ?_, hkept, fun t x b hd hn => ?_⟩
  · rw [hstack]
    exact tidy_update hg.tidy htidy d t
  · rw [hstack] at hd
    by_cases ht : t = d
    · rw [ht, Function.update_self] at hd
      exact hown x b hd
    · rw [Function.update_of_ne ht] at hd
      exact hothers t x b ht hd hn

/-- The live entries stay in the vector. -/
theorem Guarded.kept_of_step [DecidableEq ι] {tag : Nat → ι} (hg : Guarded s)
    (h : s.step H tag a = some s') : ∀ e ∈ s'.live, e ∈ liveIn s'.threads.v := by
  obtain ⟨th, hth, rfl⟩ := Option.map_eq_some_iff.mp h
  obtain ⟨hstay, henter⟩ := live_of_step H tag hg.ordered hth
  intro e he
  rcases List.mem_append.mp he with he | he
  · obtain ⟨hmem, hne⟩ := List.mem_filter.mp he
    exact hstay e (hg.kept e hmem) (of_decide_eq_true hne)
  · exact henter e he

/-- **Step lemma.** -/
theorem Guarded.step [DecidableEq ι] {tag : Nat → ι} (hg : Guarded s)
    (h : s.step H tag a = some s') : Guarded s' := by
  obtain ⟨th, hth, heq⟩ := Option.map_eq_some_iff.mp h
  have hturn := turn_of_step H tag (hg.tidy a.thread) hth
  have hlocked : Locked s'.threads := by
    rw [← heq]
    exact hg.locked.step hth hturn
  have hthreads : s'.threads = th := by rw [← heq]
  have hkept := hg.kept_of_step h
  have hasleep : ∀ t x, deadline (s.threads.stack t) = some (x, true) → s'.notified t = false →
      NoneBefore x s.threads.v ∧ notifies H s.threads a = false := by
    intro t x hd hn
    rw [← heq] at hn
    obtain ⟨hn, hquiet⟩ := quiet_of_asleep hd hn
    exact ⟨hg.bound t x true hd fun _ => hn, hquiet⟩
  have hsame : ∀ t x b, deadline (s.threads.stack t) = some (x, b) →
      (b = true → s'.notified t = false) → NoneBefore x s.threads.v := by
    intro t x b hd hn
    cases b with
    | true => exact (hasleep t x hd (hn rfl)).1
    | false => exact hg.bound t x false hd fun h => by cases h
  -- while the lock is held, the other workers that have a deadline are asleep
  have hothers : ¬ Free (s.threads.stack a.thread) → ∀ t x b, t ≠ a.thread →
      deadline (s.threads.stack t) = some (x, b) → (b = true → s'.notified t = false) →
        NoneBefore x s.threads.v ∧ notifies H s.threads a = false := by
    intro hheld t x b ht hd hn
    cases b with
    | true => exact hasleep t x hd (hn rfl)
    | false => exact absurd (hg.locked.others_free hheld ht) (holds_of_deadline hd)
  cases hturn with
  | stays hstack hholder hv =>
      refine ⟨hlocked, ?_, fun t => ?_, hkept, fun t x b hd hn => ?_⟩
      · rw [hthreads, hv]
        exact hg.ordered
      · rw [hthreads, hstack]
        exact hg.tidy t
      · rw [hthreads, hstack] at hd
        rw [hthreads, hv]
        exact hsame t x b hd hn
  | turns fs hstack hre hv htidy hdl =>
      rw [← hthreads] at hstack hv
      refine hg.of_update hlocked (hv ▸ hg.ordered) hkept hstack htidy (fun x b hd => ?_)
        fun t x b _ hd hn => hv ▸ hsame t x b hd hn
      rw [hv]
      rcases hdl with hnone | ⟨y, b', hsome, hbefore, -⟩
      · rw [hnone] at hd
        cases hd
      · rw [hsome] at hd
        cases hd
        exact hg.bound _ x false hbefore fun h => by cases h
  | polls now home fs r hst hrun hstack hre hset =>
      rw [← hthreads] at hrun hstack
      obtain ⟨hthin, hord, htime⟩ := getExpiredLk_times H now _ _ _ _ hg.ordered hrun
      have hheld : ¬ Free (s.threads.stack a.thread) := by
        rw [hst]
        exact fun hfree => (free_cons.mp hfree).1 trivial
      refine hg.of_update hlocked hord hkept hstack hset (fun x b hd => ?_)
        fun t x b ht hd hn => (hothers hheld t x b ht hd hn).1.thinned hthin
      cases r with
      | promise p => cases hd
      | time tp =>
          cases hd
          exact htime x rfl
  | schedules id p tp fs hst hv hntf hstack hre hset =>
      rw [← hthreads] at hv hstack
      have hheld : ¬ Free (s.threads.stack a.thread) := by
        rw [hst]
        exact fun hfree => (free_cons.mp hfree).1 trivial
      have hord : Heap.Ordered SchItem.tp s'.threads.v := by
        rw [hv]
        exact (schedule_spec H id p tp hg.ordered).1
      refine hg.of_update hlocked hord hkept hstack hset.tidy (fun x b hd => ?_)
        fun t x b ht hd hn => ?_
      · rw [hset.deadline_eq] at hd
        cases hd
      · obtain ⟨hbound, hquiet⟩ := hothers hheld t x b ht hd hn
        rw [hv]
        exact noneBefore_schedule H hbound (hntf ▸ hquiet)
  | thins fs hheld hv hstack hre hset =>
      rw [← hthreads] at hv hstack
      obtain ⟨hthin, hord⟩ := hv hg.ordered
      refine hg.of_update hlocked hord hkept hstack hset.tidy (fun x b hd => ?_)
        fun t x b ht hd hn => (hothers hheld t x b ht hd hn).1.thinned hthin
      rw [hset.deadline_eq] at hd
      cases hd

/-- The notifications have no part in what the threads do. -/
theorem threads_exec [DecidableEq ι] (H : HeapOps τ ι Nat) (tag : Nat → ι)
    (acts : List (Action τ ι)) :
    (Run.exec (Watched.step H tag) ({} : Watched τ ι) acts).threads =
      Run.exec (Threads.step H tag) {} acts := by
  refine Run.exec_proj (Watched.step H tag) {} Watched.threads (fun s a => ?_) acts
  rw [Watched.step, Option.map_map]
  exact Option.map_id'

/-- **No worker oversleeps**: in every run of any number of workers and of the calls of any
number of threads, all live entries are in the vector, and a worker that sleeps until `x` and
was not notified since it began to wait has none before `x`. -/
theorem neverOversleeps_exec [DecidableEq ι] (H : HeapOps τ ι Nat) (tag : Nat → ι)
    (acts : List (Action τ ι)) :
    NeverOversleeps (Run.exec (Watched.step H tag) ({} : Watched τ ι) acts) := by
  have hstep : ∀ (s : Watched τ ι) a s', Guarded s → s.step H tag a = some s' → Guarded s' :=
    fun _ _ _ hg h => hg.step h
  have hg := Run.exec_inv hstep guarded_init acts
  refine ⟨hg.kept, fun t home x fs hst hn => ?_⟩
  exact (hg.bound t x true (by rw [hst]; rfl) fun _ => hn).live

end Runs

end Watched

end Threads

end Scheduler

end Cocls
