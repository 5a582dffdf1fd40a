import Cocls.Scheduler.Stop

/-!
# Cocls.Scheduler.Reentry

Who takes `_mx`, and who holds it.

Every thread is a stack of calls.  Code outside the scheduler (`user`) calls the
scheduler, resolves promises and triggers stop tokens as it likes; a function of
the scheduler takes the lock, works under it and releases it.  A promise that is
resolved resumes the awaiters of its future: a coroutine is only put into the
coroutine queue, a blocked thread is only woken up, but the callback awaiters
run code of the user at once, on top of the stack.

Most of the scheduler resolves promises without the lock.  Two places do not
fit: the worker loop resolves an expired promise under the lock, and the stop
callback of `interval` calls `cancel`, which takes the lock, under the lock.
`neverReenters_iff` says that these two are the only places from which a thread
takes the lock a second time.
-/

namespace Cocls

namespace Scheduler

variable {τ ι : Type*}

/-- What waits for a future. -/
inductive AwaiterKind where
  | coroutine
  | syncAwaiter
  | futureWithCb
  | futureConv
  | callFnFutureAwaiter
deriving DecidableEq, Repr

/-- `resume()` of the awaiter calls a function of the user. -/
def AwaiterKind.callsBack : AwaiterKind → Bool
  | .coroutine | .syncAwaiter => false
  | .futureWithCb | .futureConv | .callFnFutureAwaiter => true

/-- A call on the stack of a thread. -/
inductive Frame (τ ι : Type*) where
  /-- code outside the scheduler -/
  | user
  /-- `schedule`, under the lock -/
  | schedule (id : ι) (p : Option Nat) (tp : τ)
  /-- `get_expired`, under the lock -/
  | getExpired (now : τ)
  /-- `remove`, under the lock -/
  | remove (id : ι)
  /-- `cancel`, until `remove` returns -/
  | cancel
  /-- `resume_chain_lk`, with the awaiters not resumed yet -/
  | resumeChain (ws : List AwaiterKind)
  /-- the worker coroutine -/
  | worker (home : Option Nat) (w : Place τ)
  /-- generator `i` of `interval`, at the condition of its loop -/
  | interval (i : Nat)
  /-- the stop callback of generator `i`, under the lock; whether `cancel` has returned -/
  | stopCallback (i : Nat) (canceled : Bool)

/-- A generator of `interval`. -/
inductive Interval where
  | fresh
  /-- in `co_await waiter`, the future of this promise -/
  | sleeping (p : Nat)
  | yielded
  | done
deriving DecidableEq, Repr

/-- A scheduler and the threads that use it.  `home` of a worker is the thread whose
coroutine queue it is in, and `none` with a pool. -/
structure Threads (τ ι : Type*) where
  v : List (SchItem τ ι Nat) := []
  holder : Option Nat := none
  stack : Nat → List (Frame τ ι) := fun _ => [.user]
  /-- the workers suspended in `co_await` -/
  parked : List (Option Nat) := []
  /-- the number of promises made -/
  count : Nat := 0
  /-- the promises that code outside the scheduler has -/
  owned : Nat → Bool := fun _ => false
  /-- whether a resolved promise got a value -/
  resolved : Nat → Option Bool := fun _ => none
  awaiters : Nat → List AwaiterKind := fun _ => []
  generator : Nat → Interval := fun _ => .fresh
  /-- whether the stop token of the generator is triggered -/
  stopped : Nat → Bool := fun _ => false
  /-- whether its stop callback is registered -/
  registered : Nat → Bool := fun _ => false
  /-- the threads that took the lock while they held it -/
  reentered : List Nat := []

namespace Threads

/-- What code outside the scheduler calls. -/
inductive Call (τ ι : Type*) where
  /-- a new promise and its future -/
  | makePromise
  /-- an awaiter is added to the future of promise `p` -/
  | subscribe (p : Nat) (w : AwaiterKind)
  /-- promise `p` is resolved, with a value or an exception -/
  | resolve (p : Nat) (ok : Bool)
  | schedule (id : ι) (p : Option Nat) (tp : τ)
  | sleepUntil (id : ι) (tp : τ)
  | getExpired (now : τ)
  | remove (id : ι)
  | cancel (id : ι)
  /-- a worker is started, in this thread or in a pool -/
  | start (pool : Bool)
  /-- the queue, or a pool, resumes a worker -/
  | resumeWorker (k : Nat)
  /-- generator `i` is called -/
  | interval (i : Nat)
  /-- the coroutine of generator `i` goes on after its sleep -/
  | wakeInterval (i : Nat)
  /-- the stop token of generator `i` is triggered -/
  | requestStop (i : Nat)

inductive Action (τ ι : Type*) where
  /-- code outside the scheduler on thread `t` makes a call -/
  | call (t : Nat) (c : Call τ ι)
  /-- a function of the user that thread `t` called returns -/
  | ret (t : Nat)
  /-- thread `t` goes on in the function on top of its stack; `next` is the time until
  which a generator sleeps -/
  | go (t : Nat) (next : τ)
  /-- the worker on top of the stack of thread `t` goes on; what its stop flag,
  `can_block` and the clock say -/
  | work (t : Nat) (stop can : Bool) (now : τ)

def setStack (s : Threads τ ι) (t : Nat) (fs : List (Frame τ ι)) : Threads τ ι :=
  { s with stack := Function.update s.stack t fs }

/-- Thread `t` locks `_mx` and goes on with the stack `fs`. -/
def lock (s : Threads τ ι) (t : Nat) (fs : List (Frame τ ι)) : Option (Threads τ ι) :=
  match s.holder with
  | none => some { s.setStack t fs with holder := some t }
  | some t' => if t' = t then some { s with reentered := t :: s.reentered } else none

/-- Thread `t` unlocks `_mx` and goes on with the stack `fs`. -/
def unlock (s : Threads τ ι) (t : Nat) (fs : List (Frame τ ι)) : Threads τ ι :=
  { s.setStack t fs with holder := none }

/-- Promise `p` is resolved on thread `t`, which goes on with the stack `fs` after that. -/
def resolve (s : Threads τ ι) (t : Nat) (fs : List (Frame τ ι)) (p : Nat) (ok : Bool) :
    Threads τ ι :=
  { s.setStack t (.resumeChain (s.awaiters p) :: fs) with
    resolved := Function.update s.resolved p (some ok)
    awaiters := Function.update s.awaiters p []
    owned := Function.update s.owned p false }

/-- Code outside the scheduler gives away promise `p`. -/
def giveAway (s : Threads τ ι) : Option Nat → Threads τ ι
  | none => s
  | some p => { s with owned := Function.update s.owned p false }

/-- A call by thread `t`, whose stack is `fs`. -/
def callStep (s : Threads τ ι) (t : Nat) (fs : List (Frame τ ι)) :
    Call τ ι → Option (Threads τ ι)
  | .makePromise =>
      some { s with count := s.count + 1, owned := Function.update s.owned s.count true }
  | .subscribe p w =>
      if p < s.count ∧ s.resolved p = none then
        some { s with awaiters := Function.update s.awaiters p (w :: s.awaiters p) }
      else none
  | .resolve p ok => if s.owned p then some (s.resolve t fs p ok) else none
  | .schedule id p tp =>
      if p.all s.owned then (s.lock t (.schedule id p tp :: fs)).map fun s' => s'.giveAway p
      else none
  | .sleepUntil id tp =>
      (s.lock t (.schedule id (some s.count) tp :: fs)).map fun s' => { s' with count := s.count + 1 }
  | .getExpired now => s.lock t (.getExpired now :: fs)
  | .remove id => s.lock t (.remove id :: fs)
  | .cancel id => s.lock t (.remove id :: .cancel :: fs)
  | .start pool => s.lock t (.worker (if pool then none else some t) .loop :: fs)
  | .resumeWorker k =>
      match s.parked[k]? with
      | none => none
      | some home =>
          if home = none ∨ home = some t then
            (s.lock t (.worker home .test :: fs)).map fun s' =>
              { s' with parked := s.parked.eraseIdx k }
          else none
  | .interval i =>
      match s.generator i with
      | .fresh =>
          -- a token that is triggered already runs the callback in its constructor
          if s.stopped i then s.lock t (.stopCallback i false :: .interval i :: fs)
          else some { s.setStack t (.interval i :: fs) with
            registered := Function.update s.registered i true }
      | .yielded => some (s.setStack t (.interval i :: fs))
      | _ => none
  | .wakeInterval i =>
      match s.generator i with
      | .sleeping p =>
          match s.resolved p with
          | none => none
          | some true => some { s with generator := Function.update s.generator i .yielded }
          | some false =>
              some { s with generator := Function.update s.generator i .done
                            registered := Function.update s.registered i false }
      | _ => none
  | .requestStop i =>
      if s.stopped i then some s
      else
        let s' := { s with stopped := Function.update s.stopped i true }
        if s.registered i then s'.lock t (.stopCallback i false :: fs) else some s'

section Step

variable [LinearOrder τ] [OrderTop τ] [DecidableEq ι] (H : HeapOps τ ι Nat) (tag : Nat → ι)

/-- Thread `t` goes on in the function on top of its stack; below it is `fs`.  `tag i` is the
address that generator `i` uses as identifier. -/
def goStep (s : Threads τ ι) (t : Nat) (next : τ) :
    Frame τ ι → List (Frame τ ι) → Option (Threads τ ι)
  | .schedule id p tp, fs =>
      some { s.unlock t fs with v := (Scheduler.schedule H id p tp s.v).1 }
  | .getExpired now, fs =>
      (getExpiredLk H now s.v.length s.v).map fun r =>
        { s.unlock t fs with
          v := r.1
          owned := match r.2 with
            | .promise p => Function.update s.owned p true
            | .time _ => s.owned }
  | .remove id, .cancel :: fs =>
      -- `cancel` resolves the promise without the lock
      (Scheduler.remove H id s.v).map fun r =>
        match r.2 with
        | none => { s.unlock t fs with v := r.1 }
        | some p => { (s.unlock t fs).resolve t fs p false with v := r.1 }
  | .remove id, fs =>
      (Scheduler.remove H id s.v).map fun r =>
        { s.unlock t fs with
          v := r.1
          owned := match r.2 with
            | none => s.owned
            | some p => Function.update s.owned p true }
  | .resumeChain [], fs => some (s.setStack t fs)
  | .resumeChain (w :: ws), fs =>
      -- the callbacks run at once, everything else is left for later
      if w.callsBack then some (s.setStack t (.user :: .resumeChain ws :: fs))
      else some (s.setStack t (.resumeChain ws :: fs))
  | .interval i, fs =>
      if s.stopped i then
        some { s.setStack t fs with generator := Function.update s.generator i .done
                                    registered := Function.update s.registered i false }
      else
        (s.lock t (.schedule (tag i) (some s.count) next :: fs)).map fun s' =>
          { s' with count := s.count + 1
                    awaiters := Function.update s.awaiters s.count [.coroutine]
                    generator := Function.update s.generator i (.sleeping s.count) }
  | .stopCallback i false, fs => s.lock t (.remove (tag i) :: .cancel :: .stopCallback i true :: fs)
  | .stopCallback _ true, fs => some (s.unlock t fs)
  | _, _ => none

/-- The worker on top of the stack of thread `t` goes on; below it is `fs`. -/
def workStep (s : Threads τ ι) (t : Nat) (stop can : Bool) (now : τ) (home : Option Nat)
    (fs : List (Frame τ ι)) : Place τ → Option (Threads τ ι)
  | .loop =>
      if stop then some (s.setStack t (.worker home .leave :: fs))
      else some { s.unlock t fs with parked := s.parked ++ [home] }
  | .test => some (s.setStack t (.worker home (if stop then .leave else .poll) :: fs))
  | .poll =>
      (getExpiredLk H now s.v.length s.v).map fun r =>
        { s.setStack t (.worker home (Stopping.answered r.2) :: fs) with v := r.1 }
  -- `x()` under the lock; the coroutine queue is active, or a pool takes the coroutines
  | .resolve p => some (s.resolve t (.worker home .loop :: fs) p true)
  | .decide tp => some (s.setStack t (.worker home (if can then .block tp else .loop) :: fs))
  | .block tp => some (s.unlock t (.worker home (.asleep tp) :: fs))
  | .asleep _ => some (s.setStack t (.worker home .woken :: fs))
  | .woken => s.lock t (.worker home .loop :: fs)
  | .leave => some (s.unlock t fs)
  | _ => none

/-- One step.  A thread that took the lock while it held it does nothing any more. -/
def step (s : Threads τ ι) : Action τ ι → Option (Threads τ ι)
  | .call t c =>
      if t ∈ s.reentered then none
      else
        match s.stack t with
        | .user :: fs => callStep s t (.user :: fs) c
        | _ => none
  | .ret t =>
      if t ∈ s.reentered then none
      else
        match s.stack t with
        | .user :: f :: fs => some (s.setStack t (f :: fs))
        | _ => none
  | .go t next =>
      if t ∈ s.reentered then none
      else
        match s.stack t with
        | f :: fs => goStep H tag s t next f fs
        | [] => none
  | .work t stop can now =>
      if t ∈ s.reentered then none
      else
        match s.stack t with
        | .worker home w :: fs => workStep H s t stop can now home fs w
        | _ => none

end Step

/-! ## Where the lock is taken a second time -/

/-- A call takes the lock at once. -/
def Locks (s : Threads τ ι) : Call τ ι → Prop
  | .schedule _ _ _ | .sleepUntil _ _ | .getExpired _ | .remove _ | .cancel _ | .start _
  | .resumeWorker _ => True
  -- a token that is triggered already runs the stop callback
  | .interval i => s.generator i = .fresh ∧ s.stopped i = true
  | .requestStop i => s.stopped i = false ∧ s.registered i = true
  | .makePromise | .subscribe _ _ | .resolve _ _ | .wakeInterval _ => False

/-- Thread `t` runs code that the worker loop called under the lock. -/
def UnderWorker (s : Threads τ ι) (t : Nat) : Prop :=
  ∃ home w, Frame.worker home w ∈ s.stack t ∧ Stopping.Holds w

/-- Code that the worker loop calls under the lock does not call a function that takes it, and
no stop callback gets to its `cancel`. -/
def Outside (s : Threads τ ι) : Action τ ι → Prop
  | .call t c => s.Locks c → ¬ s.UnderWorker t
  | .go t _ =>
      match s.stack t with
      | .stopCallback _ false :: _ => False
      | .interval i :: _ => s.stopped i = false → ¬ s.UnderWorker t
      | _ => True
  | .ret _ | .work _ _ _ _ => True

/-- The frames that hold the lock. -/
def HoldsLock : Frame τ ι → Prop
  | .schedule _ _ _ | .getExpired _ | .remove _ | .stopCallback _ _ => True
  | .worker _ w => Stopping.Holds w
  | .user | .cancel | .resumeChain _ | .interval _ => False

/-- The frames on which nothing else is called as long as they hold the lock. -/
def Critical : Frame τ ι → Prop
  | .schedule _ _ _ | .getExpired _ | .remove _ | .stopCallback _ _ => True
  | _ => False

/-- The frames that may stand on a worker that holds the lock. -/
def Light : Frame τ ι → Prop
  | .user | .resumeChain _ | .interval _ => True
  | _ => False

/-- No frame of the stack holds the lock. -/
def Free (fs : List (Frame τ ι)) : Prop := ∀ f ∈ fs, ¬ HoldsLock f

/-- A worker of the stack holds the lock. -/
inductive Under : List (Frame τ ι) → Prop
  | worker {home w fs} (hw : Stopping.Holds w) (hfs : Free fs) : Under (.worker home w :: fs)
  | light {f fs} (hf : Light f) (h : Under fs) : Under (f :: fs)

/-- One frame of the stack holds the lock. -/
def Owner (fs : List (Frame τ ι)) : Prop :=
  Under fs ∨ ∃ f rest, fs = f :: rest ∧ Critical f ∧ Free rest

/-- No thread took the lock while it held it, and the stack of a thread tells whether it holds
the lock. -/
structure Inv (s : Threads τ ι) : Prop where
  once : s.reentered = []
  owner : ∀ t, s.holder = some t → Owner (s.stack t)
  free : ∀ t, s.holder ≠ some t → Free (s.stack t)

section Stacks

variable {f : Frame τ ι} {fs : List (Frame τ ι)} {home : Option Nat} {w w' : Place τ}

@[simp] theorem free_cons : Free (f :: fs) ↔ ¬ HoldsLock f ∧ Free fs := by simp [Free]

theorem not_holdsLock_of_light (h : Light f) : ¬ HoldsLock f := by
  cases f <;> first | exact id | cases h

theorem holdsLock_of_critical (h : Critical f) : HoldsLock f := by
  cases f <;> first | exact trivial | cases h

/-- On a light frame, the lock is held below. -/
theorem owner_light (h : Light f) : Owner (f :: fs) ↔ Under fs := by
  constructor
  · rintro (hu | ⟨f', rest, heq, hc, -⟩)
    · cases hu with
      | worker => cases h
      | light _ hu => exact hu
    · cases heq
      exact absurd (holdsLock_of_critical hc) (not_holdsLock_of_light h)
  · exact fun hu => .inl (.light h hu)

/-- On a worker, the worker holds the lock. -/
theorem owner_worker : Owner (.worker home w :: fs : List (Frame τ ι)) ↔
    Stopping.Holds w ∧ Free fs := by
  constructor
  · rintro (hu | ⟨f', rest, heq, hc, -⟩)
    · cases hu with
      | worker hw hfs => exact ⟨hw, hfs⟩
      | light hf => cases hf
    · cases heq
      cases hc
  · exact fun h => .inl (.worker h.1 h.2)

/-- On a critical frame, that frame holds the lock. -/
theorem owner_critical (h : Critical f) : Owner (f :: fs) ↔ Free fs := by
  constructor
  · rintro (hu | ⟨f', rest, heq, -, hfree⟩)
    · cases hu with
      | worker => cases h
      | light hf => exact absurd (holdsLock_of_critical h) (not_holdsLock_of_light hf)
    · cases heq
      exact hfree
  · exact fun hfree => .inr ⟨f, fs, rfl, h, hfree⟩

theorem mem_of_under (h : Under fs) : ∃ home w, Frame.worker home w ∈ fs ∧ Stopping.Holds w := by
  induction h with
  | worker hw => exact ⟨_, _, List.mem_cons_self, hw⟩
  | light _ _ ih =>
      obtain ⟨home, w, hmem, hw⟩ := ih
      exact ⟨home, w, List.mem_cons_of_mem _ hmem, hw⟩

end Stacks

/-! ## What a step does to the lock -/

/-- The steps by what they do to the lock and to the stack of their thread `t`. -/
inductive Moved (s : Threads τ ι) (a : Action τ ι) (t : Nat) (s' : Threads τ ι) : Prop
  | stays (hout : s.Outside a) (hothers : ∀ t', t' ≠ t → s'.stack t' = s.stack t')
      (hholder : s'.holder = s.holder) (hre : s'.reentered = s.reentered)
      (hfree : Free (s.stack t) → Free (s'.stack t))
      (howner : Owner (s.stack t) → Owner (s'.stack t)) : Moved s a t s'
  | locks (hnone : s.holder = none) (hothers : ∀ t', t' ≠ t → s'.stack t' = s.stack t')
      (hholder : s'.holder = some t) (hre : s'.reentered = s.reentered)
      (howner : Free (s.stack t) → Owner (s'.stack t)) : Moved s a t s'
  | unlocks (hout : s.Outside a) (hheld : ¬ Free (s.stack t))
      (hothers : ∀ t', t' ≠ t → s'.stack t' = s.stack t')
      (hholder : s'.holder = none) (hre : s'.reentered = s.reentered)
      (hfree : Owner (s.stack t) → Free (s'.stack t)) : Moved s a t s'
  | reenters (hout : Owner (s.stack t) → ¬ s.Outside a) (hheld : s.holder = some t)
      (hre : s'.reentered = t :: s.reentered) : Moved s a t s'

/-- Nothing that concerns the lock changes. -/
structure SameLocks (s s' : Threads τ ι) : Prop where
  stack_eq : s'.stack = s.stack
  holder_eq : s'.holder = s.holder
  reentered_eq : s'.reentered = s.reentered

section Moves

variable {s s₀ s₁ s' : Threads τ ι} {a : Action τ ι} {t : Nat} {f g : Frame τ ι}
  {fs fs' : List (Frame τ ι)}

theorem SameLocks.refl (s : Threads τ ι) : SameLocks s s := ⟨rfl, rfl, rfl⟩

/-- A step that does not touch the stacks. -/
theorem Moved.same (hout : s.Outside a) (h : SameLocks s s') : Moved s a t s' :=
  .stays hout (fun t' _ => by rw [h.stack_eq]) h.holder_eq h.reentered_eq
    (fun hf => h.stack_eq ▸ hf) (fun ho => h.stack_eq ▸ ho)

/-- A step to the stack `fs'`, without the lock. -/
theorem Moved.setStack (hout : s.Outside a) (hst : s.stack t = fs)
    (h : SameLocks (s.setStack t fs') s') (hfree : Free fs → Free fs')
    (howner : Owner fs → Owner fs') : Moved s a t s' := by
  have hself : s'.stack t = fs' := by
    rw [h.stack_eq]
    exact Function.update_self ..
  refine .stays hout (fun t' ht => ?_) h.holder_eq h.reentered_eq ?_ ?_
  · rw [h.stack_eq]
    exact Function.update_of_ne ht ..
  · rw [hst, hself]
    exact hfree
  · rw [hst, hself]
    exact howner

/-- A step that takes the lock, or tries to. -/
theorem Moved.lock (hst : s.stack t = fs) (hsame : SameLocks s s₀) (h : s₀.lock t fs' = some s₁)
    (hsame' : SameLocks s₁ s') (howner : Free fs → Owner fs')
    (hout : Owner fs → ¬ s.Outside a) : Moved s a t s' := by
  unfold Threads.lock at h
  rw [hsame.holder_eq] at h
  split at h
  · next hnone =>
    obtain rfl := Option.some.inj h
    have hstack : s'.stack = Function.update s.stack t fs' := by
      rw [hsame'.stack_eq]
      simp only [Threads.setStack, hsame.stack_eq]
    refine .locks hnone (fun t' ht => ?_) hsame'.holder_eq
      (hsame'.reentered_eq.trans hsame.reentered_eq) ?_
    · rw [hstack, Function.update_of_ne ht]
    · rw [hstack, Function.update_self, hst]
      exact howner
  · next t' hheld =>
    obtain ⟨rfl, h⟩ := Option.ite_none_right_eq_some.mp h
    obtain rfl := Option.some.inj h
    refine .reenters (hst ▸ hout) hheld ?_
    rw [hsame'.reentered_eq]
    simp only [hsame.reentered_eq]

/-- A step that releases the lock. -/
theorem Moved.unlock (hout : s.Outside a) (hst : s.stack t = fs) (hheld : ¬ Free fs)
    (h : SameLocks (s.unlock t fs') s') (hfree : Owner fs → Free fs') : Moved s a t s' := by
  have hself : s'.stack t = fs' := by
    rw [h.stack_eq]
    exact Function.update_self ..
  refine .unlocks hout (hst ▸ hheld) (fun t' ht => ?_) h.holder_eq h.reentered_eq ?_
  · rw [h.stack_eq]
    exact Function.update_of_ne ht ..
  · rw [hst, hself]
    exact hfree

/-- A light frame comes on top of one. -/
theorem push_light (f g : Frame τ ι) (fs : List (Frame τ ι)) (hf : Light f) (hg : Light g) :
    (Free (g :: fs) → Free (f :: g :: fs)) ∧ (Owner (g :: fs) → Owner (f :: g :: fs)) :=
  ⟨fun h => free_cons.mpr ⟨not_holdsLock_of_light hf, h⟩,
    fun h => (owner_light hf).mpr (.light hg ((owner_light hg).mp h))⟩

/-- A light frame goes. -/
theorem pop_light (f : Frame τ ι) (fs : List (Frame τ ι)) (hf : Light f) :
    (Free (f :: fs) → Free fs) ∧ (Owner (f :: fs) → Owner fs) :=
  ⟨fun h => (free_cons.mp h).2, fun h => .inl ((owner_light hf).mp h)⟩

/-- A light frame goes on. -/
theorem turn_light (f g : Frame τ ι) (fs : List (Frame τ ι)) (hf : Light f) (hg : Light g) :
    (Free (f :: fs) → Free (g :: fs)) ∧ (Owner (f :: fs) → Owner (g :: fs)) :=
  ⟨fun h => free_cons.mpr ⟨not_holdsLock_of_light hg, (free_cons.mp h).2⟩,
    fun h => (owner_light hg).mpr ((owner_light hf).mp h)⟩

/-- A call by code outside the scheduler. -/
theorem moved_call {c : Call τ ι} (hst : s.stack t = .user :: fs)
    (h : s.callStep t (.user :: fs) c = some s') : Moved s (.call t c) t s' := by
  have hlight : Light (.user : Frame τ ι) := trivial
  -- a call that takes the lock is made outside the worker loop, or reenters
  have hout : s.Locks c → Owner (.user :: fs) → ¬ s.Outside (.call t c) := by
    intro hl ho hout
    refine hout hl ?_
    rw [UnderWorker, hst]
    exact mem_of_under (.light hlight ((owner_light hlight).mp ho))
  -- what is pushed when the lock is taken
  have hcrit : ∀ f mid, Critical f → Free mid →
      Free (.user :: fs) → Owner (f :: (mid ++ .user :: fs)) := by
    intro f mid hf hmid hfree
    refine (owner_critical hf).mpr fun g hg => ?_
    rcases List.mem_append.mp hg with hg | hg
    · exact hmid g hg
    · exact hfree g hg
  have hworker : ∀ home w, Stopping.Holds w → Free (.user :: fs) →
      Owner (.worker home w :: .user :: fs) := fun home w hw hfree => owner_worker.mpr ⟨hw, hfree⟩
  have hnil : Free ([] : List (Frame τ ι)) := by simp [Free]
  cases c with
  | makePromise =>
      obtain rfl := Option.some.inj h
      exact .same (fun hl => by cases hl) ⟨rfl, rfl, rfl⟩
  | subscribe p w =>
      obtain ⟨-, h⟩ := Option.ite_none_right_eq_some.mp h
      obtain rfl := Option.some.inj h
      exact .same (fun hl => by cases hl) ⟨rfl, rfl, rfl⟩
  | resolve p ok =>
      obtain ⟨-, h⟩ := Option.ite_none_right_eq_some.mp h
      obtain rfl := Option.some.inj h
      obtain ⟨hf, ho⟩ := push_light (.resumeChain (s.awaiters p)) .user fs trivial hlight
      exact .setStack (fun hl => by cases hl) hst ⟨rfl, rfl, rfl⟩ hf ho
  | schedule id p tp =>
      obtain ⟨-, h⟩ := Option.ite_none_right_eq_some.mp h
      obtain ⟨s₁, hs₁, rfl⟩ := Option.map_eq_some_iff.mp h
      refine .lock hst (.refl s) hs₁ ?_ (hcrit _ [] trivial hnil) (hout trivial)
      cases p <;> exact ⟨rfl, rfl, rfl⟩
  | sleepUntil id tp =>
      obtain ⟨s₁, hs₁, rfl⟩ := Option.map_eq_some_iff.mp h
      exact .lock hst (.refl s) hs₁ ⟨rfl, rfl, rfl⟩ (hcrit _ [] trivial hnil) (hout trivial)
  | getExpired now =>
      exact .lock hst (.refl s) h (.refl s') (hcrit _ [] trivial hnil) (hout trivial)
  | remove id => exact .lock hst (.refl s) h (.refl s') (hcrit _ [] trivial hnil) (hout trivial)
  | cancel id =>
      exact .lock hst (.refl s) h (.refl s') (hcrit _ [.cancel] trivial (by simp [Free, HoldsLock]))
        (hout trivial)
  | start pool => exact .lock hst (.refl s) h (.refl s') (hworker _ _ trivial) (hout trivial)
  | resumeWorker k =>
      simp only [callStep] at h
      split at h
      · cases h
      · obtain ⟨-, h⟩ := Option.ite_none_right_eq_some.mp h
        obtain ⟨s₁, hs₁, rfl⟩ := Option.map_eq_some_iff.mp h
        exact .lock hst (.refl s) hs₁ ⟨rfl, rfl, rfl⟩ (hworker _ _ trivial) (hout trivial)
  | interval i =>
      obtain ⟨hf, ho⟩ := push_light (.interval i) .user fs trivial hlight
      simp only [callStep] at h
      split at h
      · next hgen =>
        split at h
        · next hstop =>
          exact .lock hst (.refl s) h (.refl s')
            (hcrit _ [.interval i] trivial (by simp [Free, HoldsLock])) (hout ⟨hgen, hstop⟩)
        · next hstop =>
          obtain rfl := Option.some.inj h
          exact .setStack (fun hl => absurd hl.2 hstop) hst ⟨rfl, rfl, rfl⟩ hf ho
      · next hgen =>
        obtain rfl := Option.some.inj h
        exact .setStack (fun hl => by rw [hl.1] at hgen; cases hgen) hst ⟨rfl, rfl, rfl⟩ hf ho
      · cases h
  | wakeInterval i =>
      have hno : s.Outside (.call t (.wakeInterval i)) := fun hl => by cases hl
      simp only [callStep] at h
      split at h
      · split at h
        · cases h
        · obtain rfl := Option.some.inj h
          exact .same hno ⟨rfl, rfl, rfl⟩
        · obtain rfl := Option.some.inj h
          exact .same hno ⟨rfl, rfl, rfl⟩
      · cases h
  | requestStop i =>
      simp only [callStep] at h
      split at h
      · next hstop =>
        obtain rfl := Option.some.inj h
        exact .same (fun hl => absurd (hstop.symm.trans hl.1) (by decide)) (.refl s)
      · next hstop =>
        split at h
        · next hreg =>
          refine .lock hst ?_ h (.refl s') (hcrit (.stopCallback i false) [] trivial hnil)
            (hout ⟨by simpa using hstop, hreg⟩)
          exact ⟨rfl, rfl, rfl⟩
        · next hreg =>
          obtain rfl := Option.some.inj h
          exact .same (fun hl => absurd hl.2 hreg) ⟨rfl, rfl, rfl⟩

section Functions

variable [LinearOrder τ] [OrderTop τ] (H : HeapOps τ ι Nat)

/-- A step of a function of the scheduler, or of an interval generator. -/
theorem moved_go [DecidableEq ι] (tag : Nat → ι) {next : τ} (hst : s.stack t = f :: fs)
    (h : s.goStep H tag t next f fs = some s') : Moved s (.go t next) t s' := by
  -- a function under the lock releases it when it returns
  have hcrit : ∀ rest, Critical f → ¬ Free (f :: rest) ∧ (Owner (f :: rest) → Free rest) :=
    fun rest hf => ⟨fun hfree => hfree f List.mem_cons_self (holdsLock_of_critical hf),
      (owner_critical hf).mp⟩
  have hout : (∀ i, f ≠ .stopCallback i false) → (∀ i, f ≠ .interval i) →
      s.Outside (.go t next) := by
    intro hstop hint
    rw [Outside, hst]
    split
    · next heq =>
      cases heq
      exact hstop _ rfl
    · next heq =>
      cases heq
      exact absurd rfl (hint _)
    · trivial
  unfold goStep at h
  split at h
  · obtain rfl := Option.some.inj h
    obtain ⟨hheld, hfree⟩ := hcrit fs trivial
    exact .unlock (hout (by simp) (by simp)) hst hheld ⟨rfl, rfl, rfl⟩ hfree
  · obtain ⟨r, -, rfl⟩ := Option.map_eq_some_iff.mp h
    obtain ⟨hheld, hfree⟩ := hcrit fs trivial
    exact .unlock (hout (by simp) (by simp)) hst hheld ⟨rfl, rfl, rfl⟩ hfree
  · next x fs =>
    obtain ⟨r, -, rfl⟩ := Option.map_eq_some_iff.mp h
    obtain ⟨hheld, hfree⟩ := hcrit (.cancel :: fs) trivial
    have hrest : Owner (.remove x :: .cancel :: fs) → Free fs :=
      fun ho => (free_cons.mp (hfree ho)).2
    split
    · exact .unlock (hout (by simp) (by simp)) hst hheld ⟨rfl, rfl, rfl⟩ hrest
    · next p hr =>
      have hchain : Owner (.remove x :: .cancel :: fs) → Free (.resumeChain (s.awaiters p) :: fs) :=
        fun ho => free_cons.mpr ⟨id, hrest ho⟩
      refine .unlock (hout (by simp) (by simp)) hst hheld ⟨?_, rfl, rfl⟩ hchain
      simp [Threads.resolve, Threads.unlock, Threads.setStack]
  · next x _ =>
    obtain ⟨r, -, rfl⟩ := Option.map_eq_some_iff.mp h
    obtain ⟨hheld, hfree⟩ := hcrit fs trivial
    exact .unlock (hout (by simp) (by simp)) hst hheld ⟨rfl, rfl, rfl⟩ hfree
  · obtain rfl := Option.some.inj h
    obtain ⟨hf, ho⟩ := pop_light (.resumeChain []) fs trivial
    exact .setStack (hout (by simp) (by simp)) hst (.refl _) hf ho
  · next w ws =>
    obtain ⟨hf, ho⟩ := turn_light (.resumeChain (w :: ws)) (.resumeChain ws) fs trivial trivial
    split at h
    · obtain rfl := Option.some.inj h
      obtain ⟨hf', ho'⟩ := push_light .user (.resumeChain ws) fs trivial trivial
      exact .setStack (hout (by simp) (by simp)) hst (.refl _) (hf' ∘ hf) (ho' ∘ ho)
    · obtain rfl := Option.some.inj h
      exact .setStack (hout (by simp) (by simp)) hst (.refl _) hf ho
  · next i =>
    have hlight : Light (.interval i : Frame τ ι) := trivial
    split at h
    · next hstop =>
      obtain rfl := Option.some.inj h
      obtain ⟨hf, ho⟩ := pop_light _ fs hlight
      refine .setStack ?_ hst ⟨rfl, rfl, rfl⟩ hf ho
      rw [Outside, hst]
      exact fun hno => absurd (hstop.symm.trans hno) (by decide)
    · next hstop =>
      obtain ⟨s₁, hs₁, rfl⟩ := Option.map_eq_some_iff.mp h
      refine .lock hst (.refl s) hs₁ ⟨rfl, rfl, rfl⟩ (fun hfree => ?_) fun ho hout => ?_
      · exact (owner_critical (by trivial)).mpr (free_cons.mp hfree).2
      · rw [Outside, hst] at hout
        refine hout (by simpa using hstop) ?_
        rw [UnderWorker, hst]
        exact mem_of_under (.light hlight ((owner_light hlight).mp ho))
  · next i =>
    refine .lock hst (.refl s) h (.refl s') (fun hfree => ?_) fun _ hout => ?_
    · exact absurd trivial (free_cons.mp hfree).1
    · rw [Outside, hst] at hout
      exact hout
  · obtain rfl := Option.some.inj h
    obtain ⟨hheld, hfree⟩ := hcrit fs trivial
    exact .unlock (hout (by simp) (by simp)) hst hheld (.refl _) hfree
  · cases h

/-- A step of the worker. -/
theorem moved_work {stop can : Bool} {now : τ} {home : Option Nat} {w : Place τ}
    (hst : s.stack t = .worker home w :: fs)
    (h : s.workStep H t stop can now home fs w = some s') :
    Moved s (.work t stop can now) t s' := by
  -- the worker keeps the lock
  have hkeep : ∀ w', Stopping.Holds w → Stopping.Holds w' →
      (Free (.worker home w :: fs) → Free (.worker home w' :: fs)) ∧
        (Owner (.worker home w :: fs) → Owner (.worker home w' :: fs)) := fun w' hw hw' =>
    ⟨fun hfree => absurd hw (free_cons.mp hfree).1,
      fun ho => owner_worker.mpr ⟨hw', (owner_worker.mp ho).2⟩⟩
  -- the worker releases the lock
  have hrelease : Stopping.Holds w →
      ¬ Free (.worker home w :: fs) ∧ (Owner (.worker home w :: fs) → Free fs) := fun hw =>
    ⟨fun hfree => (free_cons.mp hfree).1 hw, fun ho => (owner_worker.mp ho).2⟩
  unfold workStep at h
  split at h
  · split at h
    · obtain rfl := Option.some.inj h
      obtain ⟨hf, ho⟩ := hkeep .leave trivial trivial
      exact .setStack trivial hst (.refl _) hf ho
    · obtain rfl := Option.some.inj h
      obtain ⟨hheld, hfree⟩ := hrelease trivial
      exact .unlock trivial hst hheld ⟨rfl, rfl, rfl⟩ hfree
  · obtain rfl := Option.some.inj h
    obtain ⟨hf, ho⟩ := hkeep (if stop then .leave else .poll) trivial (by split <;> trivial)
    exact .setStack trivial hst (.refl _) hf ho
  · obtain ⟨r, -, rfl⟩ := Option.map_eq_some_iff.mp h
    obtain ⟨hf, ho⟩ := hkeep (Stopping.answered r.2) trivial (by cases r.2 <;> trivial)
    exact .setStack trivial hst ⟨rfl, rfl, rfl⟩ hf ho
  · next p =>
    obtain rfl := Option.some.inj h
    obtain ⟨hf, ho⟩ := hkeep .loop trivial trivial
    have hlight : Light (.resumeChain (s.awaiters p) : Frame τ ι) := trivial
    refine .setStack trivial hst ⟨rfl, rfl, rfl⟩ (fun hfree => ?_) fun howner => ?_
    · exact free_cons.mpr ⟨not_holdsLock_of_light hlight, hf hfree⟩
    · obtain ⟨hw, hfree⟩ := owner_worker.mp (ho howner)
      exact .inl (.light hlight (.worker hw hfree))
  · next tp =>
    obtain rfl := Option.some.inj h
    obtain ⟨hf, ho⟩ := hkeep (if can then .block tp else .loop) trivial (by split <;> trivial)
    exact .setStack trivial hst (.refl _) hf ho
  · obtain rfl := Option.some.inj h
    obtain ⟨hheld, hfree⟩ := hrelease trivial
    exact .unlock trivial hst hheld (.refl _) fun ho => free_cons.mpr ⟨id, hfree ho⟩
  · obtain rfl := Option.some.inj h
    refine .setStack trivial hst (.refl _) (fun hfree => ?_) fun ho => ?_
    · exact free_cons.mpr ⟨id, (free_cons.mp hfree).2⟩
    · cases (owner_worker.mp ho).1
  · refine .lock hst (.refl s) h (.refl s') (fun hfree => ?_) fun ho => ?_
    · exact owner_worker.mpr ⟨trivial, (free_cons.mp hfree).2⟩
    · cases (owner_worker.mp ho).1
  · obtain rfl := Option.some.inj h
    obtain ⟨hheld, hfree⟩ := hrelease trivial
    exact .unlock trivial hst hheld (.refl _) hfree
  · cases h

/-- The thread of a step. -/
def Action.thread : Action τ ι → Nat
  | .call t _ | .ret t | .go t _ | .work t _ _ _ => t

/-- Every step is one of the moves. -/
theorem moved_of_step [DecidableEq ι] (tag : Nat → ι) (h : s.step H tag a = some s') :
    Moved s a a.thread s' := by
  cases a with
  | call t c =>
      obtain ⟨-, h⟩ := Option.ite_none_left_eq_some.mp h
      split at h
      · next hst => exact moved_call hst h
      · cases h
  | ret t =>
      obtain ⟨-, h⟩ := Option.ite_none_left_eq_some.mp h
      split at h
      · next f fs hst =>
        obtain rfl := Option.some.inj h
        obtain ⟨hf, ho⟩ := pop_light .user (f :: fs) trivial
        exact .setStack trivial hst (.refl _) hf ho
      · cases h
  | go t next =>
      obtain ⟨-, h⟩ := Option.ite_none_left_eq_some.mp h
      split at h
      · next hst => exact moved_go H tag hst h
      · cases h
  | work t stop can now =>
      obtain ⟨-, h⟩ := Option.ite_none_left_eq_some.mp h
      split at h
      · next hst => exact moved_work H hst h
      · cases h

end Functions

/-! ## Every run -/

theorem inv_init : Inv ({} : Threads τ ι) :=
  ⟨rfl, fun t h => (by cases h), fun t _ => (by simp [Free, HoldsLock])⟩

/-- The stack of a thread tells whether it holds the lock, whoever took it twice. -/
structure Locked (s : Threads τ ι) : Prop where
  owner : ∀ t, s.holder = some t → Owner (s.stack t)
  free : ∀ t, s.holder ≠ some t → Free (s.stack t)

/-- A thread that is not free excludes all others. -/
theorem Locked.others_free (hl : Locked s) (hheld : ¬ Free (s.stack t)) {t' : Nat} (ht : t' ≠ t) :
    Free (s.stack t') := by
  have hmine : s.holder = some t := by
    by_contra hne
    exact hheld (hl.free t hne)
  exact hl.free t' fun h => ht (Option.some.inj (h.symm.trans hmine))

/-- A move that does not reenter keeps it. -/
theorem Locked.moved (hl : Locked s) (hm : Moved s a t s') (hre : s'.reentered = s.reentered) :
    Locked s' := by
  obtain ⟨howner, hfree⟩ := hl
  cases hm with
  | stays _ hothers hholder _ hf ho =>
      refine ⟨fun t' h => ?_, fun t' h => ?_⟩
      · rw [hholder] at h
        by_cases ht : t' = t
        · subst ht
          exact ho (howner t' h)
        · rw [hothers t' ht]
          exact howner t' h
      · rw [hholder] at h
        by_cases ht : t' = t
        · subst ht
          exact hf (hfree t' h)
        · rw [hothers t' ht]
          exact hfree t' h
  | locks hnone hothers hholder _ ho =>
      have hall : ∀ t', Free (s.stack t') := fun t' => hfree t' (by simp [hnone])
      refine ⟨fun t' h => ?_, fun t' h => ?_⟩
      · rw [hholder] at h
        obtain rfl := Option.some.inj h
        exact ho (hall t)
      · have ht : t' ≠ t := fun ht => h (by rw [hholder, ht])
        rw [hothers t' ht]
        exact hall t'
  | unlocks _ hheld hothers hholder _ hf =>
      have hmine : s.holder = some t := by
        by_contra hne
        exact hheld (hfree t hne)
      refine ⟨fun t' h => ?_, fun t' _ => ?_⟩
      · rw [hholder] at h
        cases h
      · by_cases ht : t' = t
        · subst ht
          exact hf (howner t' hmine)
        · rw [hothers t' ht]
          exact hfree t' fun h => ht (Option.some.inj (hmine.symm.trans h)).symm
  | reenters _ _ hre' => exact absurd (hre'.symm.trans hre) (List.cons_ne_self _ _)

/-- A move that does not reenter keeps the invariant. -/
theorem Inv.moved (hi : Inv s) (hm : Moved s a t s') (hout : s.Outside a) : Inv s' := by
  have hre : s'.reentered = s.reentered := by
    cases hm with
    | stays _ _ _ hre | locks _ _ _ hre | unlocks _ _ _ _ hre => exact hre
    | reenters hbad hheld => exact absurd hout (hbad (hi.owner t hheld))
  obtain ⟨howner, hfree⟩ := Locked.moved ⟨hi.owner, hi.free⟩ hm hre
  exact ⟨hre.trans hi.once, howner, hfree⟩

/-- A step that is not outside is taken by the thread that holds the lock. -/
theorem Inv.holder_of_not_outside (hi : Inv s) (hout : ¬ s.Outside a) :
    s.holder = some a.thread := by
  by_contra hne
  have hfree := hi.free a.thread hne
  have hunder : ¬ s.UnderWorker a.thread := by
    rintro ⟨home, w, hmem, hw⟩
    exact hfree _ hmem hw
  cases a with
  | call t c => exact hout fun _ => hunder
  | ret | work => exact hout trivial
  | go t next =>
      apply hout
      simp only [Outside]
      split
      · next i fs hst =>
        have hmem : Frame.stopCallback i false ∈ s.stack t := by simp [hst]
        exact hfree _ hmem trivial
      · exact fun _ => hunder
      · trivial

/-- A move that is not outside reenters. -/
theorem Inv.reenters (hi : Inv s) (hm : Moved s a a.thread s') (hout : ¬ s.Outside a) :
    s'.reentered ≠ [] := by
  cases hm with
  | stays hout' | unlocks hout' => exact absurd hout' hout
  | locks hnone =>
      rw [hi.holder_of_not_outside hout] at hnone
      cases hnone
  | reenters _ _ hre => simp [hre]

/-- A thread that reentered is never forgotten. -/
theorem Moved.reentered (hm : Moved s a t s') (h : s.reentered ≠ []) : s'.reentered ≠ [] := by
  cases hm with
  | stays _ _ _ hre | locks _ _ _ hre | unlocks _ _ _ _ hre => rwa [hre]
  | reenters _ _ hre => simp [hre]

/-- **The lock is taken twice exactly in two places**: in a run no thread takes the lock while
it holds it, if and only if no code that the worker loop calls under the lock calls a
function that takes it, and no stop callback of `interval` gets to its `cancel`. -/
theorem neverReenters_iff [LinearOrder τ] [OrderTop τ] [DecidableEq ι] (H : HeapOps τ ι Nat)
    (tag : Nat → ι) (acts : List (Action τ ι)) :
    (Run.exec (step H tag) ({} : Threads τ ι) acts).reentered = [] ↔
      Run.Meets (step H tag) Outside {} acts := by
  have hgood : ∀ (s : Threads τ ι) a s', Inv s → s.Outside a → s.step H tag a = some s' → Inv s' :=
    fun s a s' hi hout h => hi.moved (moved_of_step H tag h) hout
  have hbad : ∀ (s : Threads τ ι) a s', Inv s → ¬ s.Outside a → s.step H tag a = some s' →
      s'.reentered ≠ [] := fun s a s' hi hout h => hi.reenters (moved_of_step H tag h) hout
  have habs : ∀ (s : Threads τ ι) a s', s.reentered ≠ [] → s.step H tag a = some s' →
      s'.reentered ≠ [] := fun s a s' hre h => (moved_of_step H tag h).reentered hre
  exact Run.exec_iff_meets hgood hbad habs (fun s hi => hi.once) (fun s h => h) inv_init acts

end Moves

/-- A generator of `interval` sleeps and its stop token is triggered. -/
def stopRun : List (Action (Fin 8) Nat) :=
  [.call 0 (.interval 0), .go 0 5, .go 0 0, .call 1 (.requestStop 0), .go 1 0]

/-- A promise with a callback expires, and the callback schedules the next one. -/
def callbackRun : List (Action (Fin 8) Nat) :=
  [.call 0 .makePromise, .call 0 (.subscribe 0 .futureWithCb), .call 0 (.schedule 7 (some 0) 1),
    .go 0 0, .call 1 (.start false), .work 1 false true 2, .call 1 (.resumeWorker 0),
    .work 1 false true 2, .work 1 false true 2, .work 1 false true 2, .go 1 0,
    .call 1 (.sleepUntil 7 5)]

/-- The thread that triggers the token, and the worker, lock `_mx` a second time. -/
theorem neverReenters_fails :
    (Run.exec (step (Heap.sorting _) (fun i => i)) ({} : Threads (Fin 8) Nat) callbackRun).reentered =
        [1] ∧
      ¬ ∀ (H : HeapOps (Fin 8) Nat Nat) (tag : Nat → Nat) acts,
        (Run.exec (step H tag) ({} : Threads (Fin 8) Nat) acts).reentered = [] := by
  refine ⟨by decide, fun hall => ?_⟩
  exact absurd (hall (Heap.sorting _) (fun i => i) stopRun) (by decide)

end Threads

end Scheduler

end Cocls
