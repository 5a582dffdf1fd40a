import Cocls.Publisher.Session

/-!
# Cocls.Publisher.Wakeups

The awaiters that a publisher resumes.

`push_lk` takes the awaiters out of the table, releases the lock, and resumes them
one by one.  (The buffer that it collects them in is a member, so that the memory
is used again; it is cleared before and moved out after, under the lock.)
`kick_lk` resumes at most one awaiter, without the lock as well.  Until its awaiter
is resumed a subscriber is suspended, although the table has forgotten it;
meanwhile every other step may happen: further calls of `push_lk`, of the same
thread or of another one, new subscribers, subscribers that leave.

An awaiter is stored by `advance_suspend_lk`; the `k`-th one stored for the
subscriber at address `p` is the ticket `(p, k)`.
-/

namespace Cocls

namespace Publisher

/-- A publisher with its subscribers and the calls that resume awaiters without the lock,
by their numbers, each with those it has not resumed yet.  History: how many awaiters were
stored for each address, and for each ticket the calls made since that wake the
subscriber up, and the calls that resumed it. -/
structure Wakeups (T : Type*) where
  ses : Session T := {}
  call : Nat → Option (List Nat) := fun _ => none
  count : Nat := 0
  stored : Nat → Nat := fun _ => 0
  wakers : Nat → Nat → List Nat := fun _ _ => []
  resumedBy : Nat → Nat → List Nat := fun _ _ => []

namespace Wakeups

open Session (Wakes)

variable {T : Type*}

inductive Action (T : Type*) where
  /-- a step under the lock -/
  | ses (a : Session.Action T)
  /-- call `c` resumes the next awaiter -/
  | resume (c : Nat)
  /-- call `c` returns -/
  | finish (c : Nat)

/-- The awaiters that an action takes from the table, when it is a call that resumes
them. -/
def wakeCall (q : Queue T) : Session.Action T → Option (List Nat)
  | .publish vals => if vals = [] then none else some (q.pushAll vals).2
  | .close => some q.close.2
  | .kick p => some (q.kick p).2
  | _ => none

/-- The awaiter of subscriber `p` was taken from the table and not resumed yet. -/
def Pending (s : Wakeups T) (p : Nat) : Prop := ∃ c < s.count, ∃ rest ∈ s.call c, p ∈ rest

instance (s : Wakeups T) (p : Nat) : Decidable (s.Pending p) :=
  inferInstanceAs (Decidable (∃ c < s.count, ∃ rest ∈ s.call c, p ∈ rest))

/-- A coroutine that is suspended does not go on. -/
def Blocked (s : Wakeups T) : Session.Action T → Prop
  | .go p => s.Pending p
  | _ => False

instance (s : Wakeups T) : (a : Session.Action T) → Decidable (s.Blocked a)
  | .go p => inferInstanceAs (Decidable (s.Pending p))
  | .publish _ | .close | .kick _ | .join _ _ _ | .copy _ _ | .leave _ | .next _ _ => .isFalse id

/-- Whether action `a` stored the awaiter of subscriber `p`. -/
def Stores (ses' : Session T) (p : Nat) : Session.Action T → Prop
  | .go q => q = p ∧ ses'.Waiting p
  | _ => False

instance (ses' : Session T) (p : Nat) : (a : Session.Action T) → Decidable (Stores ses' p a)
  | .go q => inferInstanceAs (Decidable (q = p ∧ ses'.Waiting p))
  | .publish _ | .close | .kick _ | .join _ _ _ | .copy _ _ | .leave _ | .next _ _ => .isFalse id

/-- The state after action `a` made `ses'` of the publisher and its subscribers. -/
def after (s : Wakeups T) (ses' : Session T) (a : Session.Action T) : Wakeups T :=
  let s' := { s with
    ses := ses'
    stored := fun p => if Stores ses' p a then s.stored p + 1 else s.stored p
    wakers := fun p k =>
      if Wakes p a ∧ k < s.stored p then s.wakers p k ++ [s.count] else s.wakers p k }
  match wakeCall s.ses.str.que a with
  | none => s'
  | some call =>
      { s' with call := Function.update s.call s.count (some call), count := s.count + 1 }

/-- One step. -/
def step (s : Wakeups T) : Action T → Option (Wakeups T)
  | .ses a => if s.Blocked a then none else (s.ses.step a).map fun ses' => s.after ses' a
  | .resume c =>
      match s.call c with
      | some (p :: rest) =>
          some { s with
            call := Function.update s.call c (some rest)
            resumedBy := fun q k =>
              if q = p ∧ k + 1 = s.stored p then s.resumedBy q k ++ [c] else s.resumedBy q k }
      | _ => none
  | .finish c =>
      match s.call c with
      | some [] => some { s with call := Function.update s.call c none }
      | _ => none

/-- The initial state of a publisher with the given limits. -/
def init (limits : Limits) : Wakeups T := { ses := Session.init limits }

/-- A subscriber does not leave while it is suspended. -/
def Stays (s : Wakeups T) : Action T → Prop
  | .ses (.leave p) => ¬ s.ses.Waiting p ∧ ¬ s.Pending p
  | _ => True

instance (s : Wakeups T) : (a : Action T) → Decidable (s.Stays a)
  | .ses (.leave p) => inferInstanceAs (Decidable (¬ s.ses.Waiting p ∧ ¬ s.Pending p))
  | .ses (.publish _) | .ses .close | .ses (.kick _) | .ses (.join _ _ _) | .ses (.copy _ _)
  | .ses (.next _ _) | .ses (.go _) | .resume _ | .finish _ => .isTrue trivial

/-- The awaiter of the subscriber at address `p` is stored in the table. -/
def Stored (s : Wakeups T) (p : Nat) : Prop :=
  ∃ r ∈ s.ses.str.sub p, ∃ l ∈ s.ses.str.que.regs[r.handle]?, l.used = true ∧ l.awt = some p

/-- No wake-up is lost.  A registration with an awaiter is one of a subscriber that waits
for the next value.  A ticket stays in the table until the first call that wakes the
subscriber up, and this call resumes it, once, unless it is still about to. -/
structure NoLostWakeUp (s : Wakeups T) : Prop where
  registered : ∀ (h : Nat) (l : SubReg), s.ses.str.que.regs[h]? = some l → l.awt.isSome →
    l.used = true ∧ l.kicked = false ∧ l.pos = s.ses.str.que.pos ∧ s.ses.str.que.closed = false
  waiting : ∀ p k, k < s.stored p → s.wakers p k = [] → s.Stored p ∧ s.resumedBy p k = []
  woken : ∀ p k c cs, k < s.stored p → s.wakers p k = c :: cs →
    s.resumedBy p k = [c] ∨ s.resumedBy p k = [] ∧ ∃ rest ∈ s.call c, p ∈ rest
  future : ∀ p k, s.stored p ≤ k → s.resumedBy p k = []

end Wakeups

/-! ## What a step does to the phase of a subscriber -/

/-- Where the subscriber at address `p` stands, when there is one. -/
def Stream.phase {T : Type*} (s : Stream T) (p : Nat) : Option Phase := (s.sub p).map Reader.phase

/-- The awaiters that an action takes from the table. -/
def Session.woken {T : Type*} (q : Queue T) : Session.Action T → List Nat
  | .publish vals => (q.pushAll vals).2
  | .close => q.close.2
  | .kick p => (q.kick p).2
  | _ => []

namespace Stream

variable {T : Type*} {s s' : Stream T} {p : Nat} {r : Reader T}

theorem phase_of_sub (hr : s.sub p = some r) : s.phase p = some r.phase := by
  rw [phase, hr, Option.map_some]

theorem phase_resumeAll {sub : Nat → Option (Reader T)} {wk : List Nat} :
    (resumeAll sub wk p).map Reader.phase =
      if p ∈ wk ∧ (sub p).map Reader.phase = some .suspended then some .toGet
      else (sub p).map Reader.phase := by
  cases hr : sub p with
  | none => simp [resumeAll, hr]
  | some r =>
      by_cases hw : p ∈ wk ∧ r.phase = .suspended
      · simp [resumeAll, hr, hw]
      · simp [resumeAll, hr, hw]

/-- A step of another subscriber. -/
theorem sub_of_act {q : Nat} {act : ReaderAct} (hp : p ≠ q) (h : s.step (.act q act) = some s') :
    s'.sub p = s.sub p := by
  obtain ⟨r, hr, h⟩ := Option.bind_eq_some_iff.mp h
  cases act with
  | ready =>
      obtain ⟨-, h⟩ := Option.ite_none_right_eq_some.mp h
      obtain ⟨res, -, rfl⟩ := Option.map_eq_some_iff.mp h
      exact Function.update_of_ne hp ..
  | subscribe =>
      obtain ⟨-, h⟩ := Option.ite_none_right_eq_some.mp h
      obtain ⟨res, -, rfl⟩ := Option.map_eq_some_iff.mp h
      exact Function.update_of_ne hp ..
  | get =>
      obtain ⟨-, h⟩ := Option.ite_none_right_eq_some.mp h
      obtain ⟨l, -, h⟩ := Option.bind_eq_some_iff.mp h
      obtain ⟨res, -, rfl⟩ := Option.map_eq_some_iff.mp h
      exact Function.update_of_ne hp ..
  | giveUp =>
      obtain ⟨-, h⟩ := Option.ite_none_right_eq_some.mp h
      obtain rfl := Option.some.inj h
      exact Function.update_of_ne hp ..
  | leave =>
      obtain ⟨que, -, rfl⟩ := Option.map_eq_some_iff.mp h
      exact Function.update_of_ne hp ..

theorem sub_betweenCalls {q : Nat} {r : Reader T} (hp : p ≠ q) :
    (s.betweenCalls q r).sub p = s.sub p := by
  rw [betweenCalls_sub, Function.update_of_ne hp]

end Stream

namespace Session

variable {T : Type*} {s s' : Session T} {a : Action T} {p : Nat}

theorem waiting_iff : s.Waiting p ↔ s.str.phase p = some .suspended := by
  simp [Waiting, Stream.phase]

/-- The registration of a subscriber holds its awaiter exactly while it waits. -/
theorem awt_iff (hT : Stream.Table s.str) :
    s.Waiting p ↔ ∃ l ∈ s.str.que.regs, l.used = true ∧ l.awt = some p := by
  constructor
  · rintro ⟨r, hr, hphase⟩
    obtain ⟨l, hl, hs⟩ := hT.slots p r hr
    exact ⟨l, List.mem_of_getElem? hl, hs.used, by rw [hs.awt_eq, if_pos hphase]⟩
  · rintro ⟨l, hl, hu, hawt⟩
    obtain ⟨h, hlt, hat⟩ := List.mem_iff_getElem.mp hl
    have hl : s.str.que.regs[h]? = some l := by rw [List.getElem?_eq_getElem hlt, hat]
    obtain ⟨r, hr, hh⟩ := hT.owned h l hl hu
    obtain ⟨l', hl', hs⟩ := hT.slots l.sub r hr
    rw [hh, hl] at hl'
    cases hl'
    rw [hs.awt_eq] at hawt
    split at hawt
    · next hphase =>
      cases hawt
      exact ⟨r, hr, hphase⟩
    · cases hawt

theorem mem_wakeups_iff (hT : Stream.Table s.str) : p ∈ s.str.que.wakeups ↔ s.Waiting p := by
  rw [awt_iff hT, Queue.wakeups, List.mem_filterMap]
  constructor
  · rintro ⟨l, hl, h⟩
    obtain ⟨hu, hawt⟩ := Option.ite_none_right_eq_some.mp h
    exact ⟨l, hl, hu, hawt⟩
  · rintro ⟨l, hl, hu, hawt⟩
    exact ⟨l, hl, by rw [if_pos hu, hawt]⟩

/-- No awaiter is collected twice. -/
theorem wakeups_nodup (hT : Stream.Table s.str) : s.str.que.wakeups.Nodup := by
  have hown : ∀ (h : Nat) (l : SubReg) q, s.str.que.regs[h]? = some l →
      (if l.used then l.awt else none) = some q →
      ∃ r, s.str.sub q = some r ∧ r.handle = h := by
    intro h l q hl hq
    obtain ⟨hu, hawt⟩ := Option.ite_none_right_eq_some.mp hq
    obtain ⟨r, hr, hh⟩ := hT.owned h l hl hu
    obtain ⟨l', hl', hs⟩ := hT.slots l.sub r hr
    rw [hh, hl] at hl'
    cases hl'
    rw [hs.awt_eq] at hawt
    obtain ⟨-, hsub⟩ := Option.ite_none_right_eq_some.mp hawt
    cases hsub
    exact ⟨r, hr, hh⟩
  rw [Queue.wakeups, List.Nodup, List.pairwise_filterMap, List.pairwise_iff_getElem]
  rintro i j hi hj hij q hq q' hq' rfl
  obtain ⟨r, hr, hh⟩ := hown i _ q (List.getElem?_eq_getElem hi) hq
  obtain ⟨r', hr', hh'⟩ := hown j _ q (List.getElem?_eq_getElem hj) hq'
  rw [hr] at hr'
  cases hr'
  omega

/-- What an action takes from the table: the awaiters of the waiting subscribers it
wakes up, each once. -/
theorem mem_woken_iff (hT : Stream.Table s.str) (hw : ∀ q, Stream.Holds Stream.Waits q s.str) :
    (woken s.str.que a).Nodup ∧ (p ∈ woken s.str.que a ↔ s.Waiting p ∧ Wakes p a) := by
  cases a with
  | publish vals =>
      by_cases hv : vals = []
      · simp [woken, Queue.pushAll, hv, Wakes]
      · have heq : woken s.str.que (.publish vals) = s.str.que.wakeups := by
          rw [woken, Queue.pushAll, if_neg fun h => hv (List.eq_nil_of_length_eq_zero h)]
          rfl
        rw [heq, mem_wakeups_iff hT]
        exact ⟨wakeups_nodup hT, ⟨fun h => ⟨h, hv⟩, fun h => h.1⟩⟩
  | close =>
      by_cases hc : s.str.que.closed = true
      · have heq : woken s.str.que .close = [] := by rw [woken, Queue.close, if_pos hc]
        rw [heq]
        refine ⟨List.nodup_nil, ⟨fun h => (by cases h), fun h => ?_⟩⟩
        obtain ⟨⟨r, hr, hphase⟩, -⟩ := h
        obtain ⟨l, hl, -⟩ := hT.slots p r hr
        obtain ⟨-, -, hopen⟩ := hw p r l hr hl hphase
        rw [hc] at hopen
        cases hopen
      · have heq : woken s.str.que .close = s.str.que.wakeups := by
          rw [woken, Queue.close, if_neg hc]
          rfl
        rw [heq, mem_wakeups_iff hT]
        exact ⟨wakeups_nodup hT, ⟨fun h => ⟨h, trivial⟩, fun h => h.1⟩⟩
  | kick q =>
      cases hr : s.str.sub q with
      | none =>
          have heq : woken s.str.que (.kick q) = [] := by rw [woken, Stream.kick_none hT hr]
          rw [heq]
          refine ⟨List.nodup_nil, ⟨fun h => (by cases h), ?_⟩⟩
          rintro ⟨⟨r, hr', -⟩, rfl⟩
          rw [hr] at hr'
          cases hr'
      | some r =>
          obtain ⟨l, hl, hs⟩ := hT.slots q r hr
          have heq : woken s.str.que (.kick q) = if r.phase = .suspended then [q] else [] := by
            rw [woken, Stream.kick_eq hT hr hl, hs.awt_eq]
            split <;> rfl
          rw [heq]
          split
          · next hphase =>
            refine ⟨List.nodup_singleton q, ⟨fun h => ?_, fun h => ?_⟩⟩
            · obtain rfl := List.mem_singleton.mp h
              exact ⟨⟨r, hr, hphase⟩, rfl⟩
            · obtain ⟨-, rfl⟩ := h
              exact List.mem_singleton_self _
          · next hphase =>
            refine ⟨List.nodup_nil, ⟨fun h => (by cases h), ?_⟩⟩
            rintro ⟨⟨r', hr', hp⟩, rfl⟩
            rw [hr] at hr'
            cases hr'
            exact absurd hp hphase
  | join | copy | leave | next | go => simp [woken, Wakes]

/-- A step that is none of subscriber `p` wakes it up or leaves it where it is. -/
theorem phase_of_foreign (hT : Stream.Table s.str) (hw : ∀ q, Stream.Holds Stream.Waits q s.str)
    (ha : Foreign p a) (h : s.step a = some s') :
    s'.str.phase p =
      if Wakes p a ∧ s.str.phase p = some .suspended then some .toGet else s.str.phase p := by
  -- the subscribers after awaiters were resumed
  have hresumed : s'.str.sub = Stream.resumeAll s.str.sub (woken s.str.que a) →
      s'.str.phase p =
        if Wakes p a ∧ s.str.phase p = some .suspended then some .toGet else s.str.phase p := by
    intro hsub
    have hiff : p ∈ woken s.str.que a ∧ s.str.phase p = some .suspended ↔
        Wakes p a ∧ s.str.phase p = some .suspended := by
      rw [(mem_woken_iff hT hw).2, waiting_iff]
      exact ⟨fun h => ⟨h.1.2, h.2⟩, fun h => ⟨⟨h.2, h.1⟩, h.2⟩⟩
    rw [Stream.phase, hsub, Stream.phase_resumeAll, ← Stream.phase]
    exact if_congr hiff rfl rfl
  -- the subscriber is not touched
  have hsame : ¬ Wakes p a → s'.str.sub p = s.str.sub p → s'.str.phase p =
      if Wakes p a ∧ s.str.phase p = some .suspended then some .toGet else s.str.phase p := by
    intro hno hsub
    rw [if_neg fun h => hno h.1, Stream.phase, Stream.phase, hsub]
  cases a with
  | publish | close | kick =>
      obtain ⟨hstr, -⟩ := onStream_eq_some.mp h
      exact hresumed (by rw [← Option.some.inj hstr]; rfl)
  | join q type start =>
      refine hsame id ?_
      obtain ⟨s₁, hs₁, rfl⟩ := Option.map_eq_some_iff.mp h
      obtain ⟨hstr, -⟩ := onStream_eq_some.mp hs₁
      obtain ⟨-, hstr⟩ := Option.ite_none_left_eq_some.mp hstr
      cases start with
      | recent | «at» =>
          rw [setCaller_str, ← Option.some.inj hstr]
          exact Function.update_of_ne (Ne.symm ha) ..
  | copy q o =>
      refine hsame id ?_
      obtain ⟨s₁, hs₁, rfl⟩ := Option.map_eq_some_iff.mp h
      obtain ⟨hstr, -⟩ := onStream_eq_some.mp hs₁
      obtain ⟨-, hstr⟩ := Option.ite_none_left_eq_some.mp hstr
      obtain ⟨r, -, hstr⟩ := Option.bind_eq_some_iff.mp hstr
      obtain ⟨res, -, hstr⟩ := Option.map_eq_some_iff.mp hstr
      rw [setCaller_str, ← hstr]
      exact Function.update_of_ne (Ne.symm ha) ..
  | leave q =>
      obtain ⟨hstr, -⟩ := onStream_eq_some.mp h
      exact hsame id (Stream.sub_of_act (Ne.symm ha) hstr)
  | next q via =>
      refine hsame id ?_
      cases step_effect h with
      | world b hb => cases hb
      | asked _ _ r hr hphase hstr =>
          rw [Stream.sub_of_act (Ne.symm ha) hstr, Stream.sub_betweenCalls (Ne.symm ha)]
  | go q =>
      refine hsame id ?_
      cases step_effect h with
      | world b hb => cases hb
      | askedAgain _ r hr _ _ _ hstr =>
          rw [Stream.sub_of_act (Ne.symm ha) hstr, Stream.sub_betweenCalls (Ne.symm ha)]
      | missed _ r l hr _ _ _ hstr => exact Stream.sub_of_act (Ne.symm ha) hstr
      | subscribed _ r hr _ _ _ hstr => exact Stream.sub_of_act (Ne.symm ha) hstr
      | held _ r hr _ _ hstr => rw [hstr, Stream.sub_betweenCalls (Ne.symm ha)]
      | got _ r l hr _ _ _ hstr => exact Stream.sub_of_act (Ne.symm ha) hstr

/-- A step of subscriber `p` itself is not taken while it waits; only a further step of
its call may make it wait. -/
theorem phase_of_own (hT : Stream.Table s.str) (ha : ¬ Foreign p a) (h : s.step a = some s') :
    (a = .go p ∧ ¬ s.Waiting p) ∨ (a = .leave p ∧ ¬ s'.Waiting p) ∨
      (s.str.phase p ≠ some .suspended ∧ s.str.phase p ≠ some .toGet ∧ ¬ s'.Waiting p ∧
        ∀ ses', ¬ Wakeups.Stores ses' p a) := by
  have hready : ∀ (st : Stream T) (r : Reader T), st.sub p = some r → Stream.Table st →
      st.step (.act p .ready) = some s'.str → ¬ s'.Waiting p := by
    intro st r hr hT hstr
    obtain ⟨l, hl, -⟩ := hT.slots p r hr
    obtain ⟨-, -, hsub, -⟩ := Stream.step_ready hr hl hstr
    rw [waiting_iff, Stream.phase_of_sub hsub]
    simp only
    split <;> simp
  cases a with
  | publish | close | kick => exact absurd trivial ha
  | join q type start =>
      obtain rfl : q = p := not_not.mp ha
      obtain ⟨s₁, hs₁, rfl⟩ := Option.map_eq_some_iff.mp h
      obtain ⟨hstr, -⟩ := onStream_eq_some.mp hs₁
      obtain ⟨hnone, hstr⟩ := Option.ite_none_left_eq_some.mp hstr
      have hno : s.str.phase q = none := by
        rw [Stream.phase, Option.not_isSome_iff_eq_none.mp hnone, Option.map_none]
      refine .inr (.inr ⟨by rw [hno]; simp, by rw [hno]; simp, ?_, fun _ => id⟩)
      rw [waiting_iff, setCaller_str]
      cases start with
      | recent | «at» =>
          rw [← Option.some.inj hstr, Stream.phase_of_sub (Function.update_self ..)]
          simp
  | copy q o =>
      obtain rfl : q = p := not_not.mp ha
      obtain ⟨s₁, hs₁, rfl⟩ := Option.map_eq_some_iff.mp h
      obtain ⟨hstr, -⟩ := onStream_eq_some.mp hs₁
      obtain ⟨hnone, hstr⟩ := Option.ite_none_left_eq_some.mp hstr
      obtain ⟨r, -, hstr⟩ := Option.bind_eq_some_iff.mp hstr
      obtain ⟨res, -, hstr⟩ := Option.map_eq_some_iff.mp hstr
      have hno : s.str.phase q = none := by
        rw [Stream.phase, Option.not_isSome_iff_eq_none.mp hnone, Option.map_none]
      refine .inr (.inr ⟨by rw [hno]; simp, by rw [hno]; simp, ?_, fun _ => id⟩)
      rw [waiting_iff, setCaller_str, ← hstr, Stream.phase_of_sub (Function.update_self ..)]
      simp
  | leave q =>
      obtain rfl : q = p := not_not.mp ha
      refine .inr (.inl ⟨rfl, ?_⟩)
      obtain ⟨hstr, -⟩ := onStream_eq_some.mp h
      obtain ⟨r, hr, hstr⟩ := Option.bind_eq_some_iff.mp hstr
      obtain ⟨que, -, hstr⟩ := Option.map_eq_some_iff.mp hstr
      have hgone : s'.str.sub q = none := by
        rw [← hstr]
        exact Function.update_self ..
      rintro ⟨r', hr', -⟩
      rw [hgone] at hr'
      cases hr'
  | next q via =>
      obtain rfl : q = p := not_not.mp ha
      refine .inr (.inr ?_)
      cases step_effect h with
      | world b hb => cases hb
      | asked _ _ r hr hphase hstr =>
          rw [Stream.phase_of_sub hr]
          refine ⟨?_, ?_, ?_, fun _ => id⟩
          · rcases hphase with hp | hp <;> simp [hp]
          · rcases hphase with hp | hp <;> simp [hp]
          · refine hready _ _ Stream.betweenCalls_self (hT.betweenCalls hr ?_) hstr
            rcases hphase with hp | hp <;> simp [hp]
  | go q =>
      obtain rfl : q = p := not_not.mp ha
      refine .inl ⟨rfl, ?_⟩
      rintro ⟨r, hr, hphase⟩
      have hnone : s.step (.go q) = none := by
        rw [step, Option.mem_def.mp hr, Option.bind_some, goOn]
        split
        · next hp => rw [hp] at hphase; cases hphase
        · next hp => rw [hp] at hphase; cases hphase
        · rfl
      rw [hnone] at h
      cases h

end Session

namespace Stream

variable {T : Type*} {s s' : Stream T}

/-- Registrations that are not in use hold no awaiter. -/
def UnusedEmpty (s : Stream T) : Prop :=
  ∀ (h : Nat) (l : SubReg), s.que.regs[h]? = some l → l.used = false → l.awt = none

/-- Every step keeps it, as long as nobody leaves while it waits. -/
theorem unusedEmpty_step {a : Action T} (hT : Table s)
    (ha : ∀ p, a = .act p .leave → s.phase p ≠ some .suspended) (he : UnusedEmpty s)
    (h : s.step a = some s') : UnusedEmpty s' := by
  have hT' : Table s' := hT.step h
  intro i l' hl' hu'
  rcases step_cases hT h with ⟨hm, hf, -⟩ | ⟨p, r, _, _, hent, -⟩ | ⟨p, r, rfl, hleft⟩
  · have hlt : i < s.que.regs.length := hf.length_eq ▸ (List.getElem?_eq_some_iff.mp hl').1
    have hl : s.que.regs[i]? = some s.que.regs[i] := List.getElem?_eq_getElem hlt
    by_cases hu : s.que.regs[i].used = true
    · -- a registration in use stays in use
      obtain ⟨r, hr, hh⟩ := hT.owned i _ hl hu
      obtain ⟨l, hl₁, hs⟩ := hT.slots _ r hr
      obtain ⟨r', l₁, -, hl₁', hmove⟩ := hm _ r l hr hl₁ hs
      rw [hh, hl'] at hl₁'
      cases hl₁'
      rw [(hmove.slot hs).2.used] at hu'
      cases hu'
    · have hu : s.que.regs[i].used = false := by simpa using hu
      rw [hf.unused i _ hl hu] at hl'
      cases hl'
      exact he i _ hl hu
  · by_cases hi : i = r.handle
    · rw [hi, hent.slot] at hl'
      cases hl'
      rfl
    · rw [hent.others i hi] at hl'
      exact he i l' hl' hu'
  · by_cases hi : i = r.handle
    · obtain ⟨l, hl, hs⟩ := hT.slots p r hleft.present
      obtain ⟨r₁, hr₁, h⟩ := Option.bind_eq_some_iff.mp h
      rw [hleft.present] at hr₁
      cases hr₁
      have hawt : l.awt = none := by
        rw [hs.awt_eq, if_neg]
        intro hp
        exact ha p rfl (by rw [phase_of_sub hleft.present, hp])
      have hlt : r.handle < s.que.regs.length := (List.getElem?_eq_some_iff.mp hl).1
      simp only [readerStep, Queue.leaveLk, hl, Option.map_some, Option.some.injEq] at h
      rw [hi, ← h, List.getElem?_set_self hlt] at hl'
      cases hl'
      exact hawt
    · rw [hleft.others i hi] at hl'
      exact he i l' hl' hu'

end Stream

namespace Wakeups

open Session (Wakes Foreign)

variable {T : Type*} {s s' : Wakeups T} {p : Nat}

/-! ## The tickets of one subscriber -/

/-- Call `c` is about to resume the awaiter of subscriber `p`. -/
def InCall (s : Wakeups T) (c p : Nat) : Prop := ∃ rest ∈ s.call c, p ∈ rest

/-- The ticket was resumed once, by the first call that wakes the subscriber up. -/
def Done (s : Wakeups T) (p k : Nat) : Prop :=
  ∃ c cs, s.wakers p k = c :: cs ∧ s.resumedBy p k = [c]

/-- Where the newest ticket of the subscriber at address `p` is; all others are done. -/
inductive Status (s : Wakeups T) (p : Nat) : Prop
  | settled (hw : ¬ s.ses.Waiting p) (hc : ∀ c, ¬ s.InCall c p)
      (hdone : ∀ k < s.stored p, s.Done p k)
  | waits (k : Nat) (hw : s.ses.Waiting p) (hc : ∀ c, ¬ s.InCall c p) (hk : s.stored p = k + 1)
      (hwakers : s.wakers p k = []) (hres : s.resumedBy p k = [])
      (hdone : ∀ j < k, s.Done p j)
  | pending (k c : Nat) (cs : List Nat) (hphase : s.ses.str.phase p = some .toGet)
      (hc : s.InCall c p) (hone : ∀ c', s.InCall c' p → c' = c) (hk : s.stored p = k + 1)
      (hwakers : s.wakers p k = c :: cs) (hres : s.resumedBy p k = [])
      (hdone : ∀ j < k, s.Done p j)

/-- What every state keeps when nobody leaves while it is suspended. -/
structure Inv (s : Wakeups T) : Prop where
  table : Stream.Table s.ses.str
  waits : ∀ q, Stream.Holds Stream.Waits q s.ses.str
  unused : Stream.UnusedEmpty s.ses.str
  fresh : ∀ c, s.count ≤ c → s.call c = none
  nodup : ∀ c, ∀ rest ∈ s.call c, rest.Nodup
  status : ∀ p, s.Status p
  future : ∀ p k, s.stored p ≤ k → s.wakers p k = [] ∧ s.resumedBy p k = []

theorem Inv.pending_iff (hi : Inv s) : s.Pending p ↔ ∃ c, s.InCall c p := by
  constructor
  · rintro ⟨c, -, hc⟩
    exact ⟨c, hc⟩
  · rintro ⟨c, call, hcall, hp⟩
    refine ⟨c, ?_, call, hcall, hp⟩
    by_contra hlt
    rw [Option.mem_def, hi.fresh c (by omega)] at hcall
    cases hcall

/-- A subscriber that nothing happened to. -/
theorem Status.congr (h : s.Status p) (hphase : s'.ses.str.phase p = s.ses.str.phase p)
    (hcall : ∀ c, s'.InCall c p ↔ s.InCall c p) (hstored : s'.stored p = s.stored p)
    (hwakers : s'.wakers p = s.wakers p) (hres : s'.resumedBy p = s.resumedBy p) :
    s'.Status p := by
  have hwait : s'.ses.Waiting p ↔ s.ses.Waiting p := by
    rw [Session.waiting_iff, hphase, Session.waiting_iff]
  have hdone : ∀ k, s.Done p k → s'.Done p k := by
    intro k h
    rwa [Done, hwakers, hres]
  cases h with
  | settled hw hc hd =>
      refine .settled (hwait.not.mpr hw) (fun c => (hcall c).not.mpr (hc c)) fun k hk => ?_
      exact hdone k (hd k (hstored ▸ hk))
  | waits k hw hc hk hwk hr hd =>
      exact .waits k (hwait.mpr hw) (fun c => (hcall c).not.mpr (hc c)) (hstored.trans hk)
        (by rw [hwakers, hwk]) (by rw [hres, hr]) fun j hj => hdone j (hd j hj)
  | pending k c cs hp hc hone hk hwk hr hd =>
      exact .pending k c cs (hphase.trans hp) ((hcall c).mpr hc)
        (fun c' hc' => hone c' ((hcall c').mp hc')) (hstored.trans hk)
        (by rw [hwakers, hwk]) (by rw [hres, hr]) fun j hj => hdone j (hd j hj)

/-! ## A step under the lock -/

section Ses

variable {a : Session.Action T} {ses' : Session T} {c : Nat}

/-- The call that resumes awaiters resumes those taken from the table. -/
theorem rest_of_wakeCall {q : Queue T} {rest : List Nat} (h : wakeCall q a = some rest) :
    rest = Session.woken q a := by
  cases a with
  | publish vals =>
      obtain ⟨-, h⟩ := Option.ite_none_left_eq_some.mp h
      rw [← Option.some.inj h]
      rfl
  | close | kick =>
      rw [← Option.some.inj h]
      rfl
  | join | copy | leave | next | go => cases h

/-- An action without such a call takes no awaiter from the table. -/
theorem woken_of_no_wakeCall {q : Queue T} (h : wakeCall q a = none) : Session.woken q a = [] := by
  cases a with
  | publish vals =>
      have hv : vals = [] := by
        by_contra hv
        rw [wakeCall, if_neg hv] at h
        cases h
      rw [hv]
      rfl
  | close | kick => cases h
  | join | copy | leave | next | go => rfl

theorem after_ses : (s.after ses' a).ses = ses' := by
  unfold after
  split <;> rfl

theorem after_stored :
    (s.after ses' a).stored p = if Stores ses' p a then s.stored p + 1 else s.stored p := by
  unfold after
  split <;> rfl

theorem after_wakers {k : Nat} : (s.after ses' a).wakers p k =
    if Wakes p a ∧ k < s.stored p then s.wakers p k ++ [s.count] else s.wakers p k := by
  unfold after
  split <;> rfl

theorem after_resumedBy : (s.after ses' a).resumedBy = s.resumedBy := by
  unfold after
  split <;> rfl

/-- The calls in progress after an action. -/
theorem after_call (s : Wakeups T) (ses' : Session T) (a : Session.Action T) :
    ((s.after ses' a).call = s.call ∧ (s.after ses' a).count = s.count ∧
      wakeCall s.ses.str.que a = none) ∨
    ∃ call, wakeCall s.ses.str.que a = some call ∧ (s.after ses' a).count = s.count + 1 ∧
      (s.after ses' a).call = Function.update s.call s.count (some call) := by
  unfold after
  cases hcall : wakeCall s.ses.str.que a with
  | none => exact .inl ⟨rfl, rfl, rfl⟩
  | some call => exact .inr ⟨call, rfl, rfl, rfl⟩

/-- The new call is about to resume what was taken from the table. -/
theorem after_inCall (hfresh : s.call s.count = none) : (s.after ses' a).InCall c p ↔
    s.InCall c p ∨ c = s.count ∧ p ∈ Session.woken s.ses.str.que a := by
  rcases after_call s ses' a with ⟨hcall, -, hnone⟩ | ⟨call, hnew, -, hcall⟩
  · rw [InCall, hcall, woken_of_no_wakeCall hnone]
    simp [InCall]
  · rw [InCall, hcall, ← rest_of_wakeCall hnew]
    by_cases hc : c = s.count
    · subst hc
      have hold : ¬ s.InCall s.count p := by
        rintro ⟨call, hcall, -⟩
        rw [Option.mem_def, hfresh] at hcall
        cases hcall
      rw [Function.update_self]
      simp [hold]
    · rw [Function.update_of_ne hc]
      simp [InCall, hc]

/-- A ticket that is done stays done. -/
theorem Done.after {k : Nat} (h : s.Done p k) : (s.after ses' a).Done p k := by
  obtain ⟨c, cs, hwakers, hres⟩ := h
  rw [Done, after_wakers, after_resumedBy]
  split
  · exact ⟨c, cs ++ [s.count], by rw [hwakers, List.cons_append], hres⟩
  · exact ⟨c, cs, hwakers, hres⟩

/-- Only a further step of the subscriber's own call stores its awaiter. -/
theorem stores_own (h : Stores ses' p a) : a = .go p := by
  cases a with
  | go q => rw [h.1]
  | publish | close | kick | join | copy | leave | next => cases h

/-- A subscriber after a step that is not its own. -/
theorem Inv.status_foreign (hi : Inv s) (h : s.ses.step a = some ses') (ha : Foreign p a) :
    (s.after ses' a).Status p := by
  have hphase := Session.phase_of_foreign hi.table hi.waits ha h
  have hwoken := (Session.mem_woken_iff (a := a) (p := p) hi.table hi.waits).2
  have hstored : (s.after ses' a).stored p = s.stored p := by
    rw [after_stored, if_neg]
    intro hs
    rw [stores_own hs] at ha
    exact ha rfl
  have hcall : ∀ c, (s.after ses' a).InCall c p ↔
      s.InCall c p ∨ c = s.count ∧ s.ses.Waiting p ∧ Wakes p a := fun c => by
    rw [after_inCall (hi.fresh _ (Nat.le_refl _)), hwoken]
  by_cases hwk : Wakes p a
  · cases hi.status p with
    | settled hw hc hdone =>
        rw [if_neg fun h => hw (Session.waiting_iff.mpr h.2)] at hphase
        refine .settled ?_ (fun c hin => ?_) fun k hk => (hdone k (hstored ▸ hk)).after
        · rwa [Session.waiting_iff, after_ses, hphase, ← Session.waiting_iff]
        · rcases (hcall c).mp hin with hin | ⟨-, hin, -⟩
          · exact hc c hin
          · exact hw hin
    | waits k hw hc hk hwakers hres hdone =>
        rw [if_pos ⟨hwk, Session.waiting_iff.mp hw⟩] at hphase
        refine .pending k s.count [] (by rw [after_ses, hphase])
          ((hcall _).mpr (.inr ⟨rfl, hw, hwk⟩)) (fun c hin => ?_) (hstored.trans hk) ?_
          (by rw [after_resumedBy, hres]) fun j hj => (hdone j hj).after
        · rcases (hcall c).mp hin with hin | ⟨hin, -, -⟩
          · exact absurd hin (hc c)
          · exact hin
        · rw [after_wakers, if_pos ⟨hwk, by omega⟩, hwakers, List.nil_append]
    | pending k c cs hp hc hone hk hwakers hres hdone =>
        have hnw : ¬ s.ses.Waiting p := by
          rw [Session.waiting_iff, hp]
          simp
        rw [if_neg fun h => hnw (Session.waiting_iff.mpr h.2)] at hphase
        refine .pending k c (cs ++ [s.count]) (by rw [after_ses, hphase, hp])
          ((hcall c).mpr (.inl hc)) (fun c' hin => ?_) (hstored.trans hk) ?_
          (by rw [after_resumedBy, hres]) fun j hj => (hdone j hj).after
        · rcases (hcall c').mp hin with hin | ⟨-, hin, -⟩
          · exact hone c' hin
          · exact absurd hin hnw
        · rw [after_wakers, if_pos ⟨hwk, by omega⟩, hwakers, List.cons_append]
  · rw [if_neg fun h => hwk h.1] at hphase
    refine (hi.status p).congr (by rw [after_ses, hphase]) (fun c => ?_) hstored ?_
      (by rw [after_resumedBy])
    · rw [hcall]
      exact ⟨fun h => h.resolve_right fun h => hwk h.2.2, .inl⟩
    · funext k
      rw [after_wakers, if_neg fun h => hwk h.1]

/-- A subscriber whose tickets are done, after a step of its own. -/
theorem Inv.settled_of_done (hi : Inv s) (hw : ¬ s.ses.Waiting p) (hc : ∀ c, ¬ s.InCall c p) :
    ∀ k < s.stored p, s.Done p k := by
  cases hi.status p with
  | settled _ _ hdone => exact hdone
  | waits _ hw' => exact absurd hw' hw
  | pending _ c _ _ hc' => exact absurd hc' (hc c)

/-- A subscriber after a step of its own. -/
theorem Inv.status_own (hi : Inv s) (hstay : s.Stays (.ses a)) (hb : ¬ s.Blocked a)
    (h : s.ses.step a = some ses') (ha : ¬ Foreign p a) : (s.after ses' a).Status p := by
  have hown := Session.phase_of_own hi.table ha h
  have hwoken := (Session.mem_woken_iff (a := a) (p := p) hi.table hi.waits).2
  -- before the step, the subscriber neither waits nor is about to be resumed
  have hbefore : ¬ s.ses.Waiting p ∧ ∀ c, ¬ s.InCall c p := by
    rcases hown with ⟨rfl, hw⟩ | ⟨rfl, -⟩ | ⟨hsus, hget, -⟩
    · exact ⟨hw, fun c hc => hb (hi.pending_iff.mpr ⟨c, hc⟩)⟩
    · exact ⟨hstay.1, fun c hc => hstay.2 (hi.pending_iff.mpr ⟨c, hc⟩)⟩
    · refine ⟨fun hw => hsus (Session.waiting_iff.mp hw), fun c hc => ?_⟩
      cases hi.status p with
      | settled _ hc' | waits _ _ hc' => exact hc' c hc
      | pending _ _ _ hp => exact hget hp
  obtain ⟨hw, hc⟩ := hbefore
  have hdone := hi.settled_of_done hw hc
  have hcall : ∀ c, ¬ (s.after ses' a).InCall c p := by
    intro c hin
    rcases (after_inCall (hi.fresh _ (Nat.le_refl _))).mp hin with hin | ⟨-, hin⟩
    · exact hc c hin
    · exact hw (hwoken.mp hin).1
  by_cases hst : Stores ses' p a
  · obtain rfl := stores_own hst
    have hlater := hi.future p (s.stored p) (Nat.le_refl _)
    refine .waits (s.stored p) (by rw [after_ses]; exact hst.2) hcall
      (by rw [after_stored, if_pos hst]) ?_ (by rw [after_resumedBy, hlater.2])
      fun j hj => (hdone j hj).after
    rw [after_wakers, if_neg fun h => (by cases h.1), hlater.1]
  · refine .settled ?_ hcall fun k hk => (hdone k ?_).after
    · rw [after_ses]
      rcases hown with ⟨rfl, -⟩ | ⟨-, hw'⟩ | ⟨-, -, hw', -⟩
      · exact fun hw' => hst ⟨rfl, hw'⟩
      · exact hw'
      · exact hw'
    · rwa [after_stored, if_neg hst] at hk

/-- Registrations that are not in use hold no awaiter, after every step. -/
theorem unusedEmpty_ses {t t' : Session T} (hT : Stream.Table t.str)
    (ha : ∀ p, a = .leave p → ¬ t.Waiting p) (he : Stream.UnusedEmpty t.str)
    (h : t.step a = some t') : Stream.UnusedEmpty t'.str := by
  cases Session.step_effect h with
  | world b hb hstr =>
      refine Stream.unusedEmpty_step hT (fun p hp => ?_) he hstr
      rw [Ne, ← Session.waiting_iff]
      subst hp
      refine ha p ?_
      cases a <;> simp_all [Session.Action.world]
  | asked q via r hr hphase hstr =>
      have hp : r.phase ≠ .suspended := by rcases hphase with hp | hp <;> simp [hp]
      exact Stream.unusedEmpty_step (hT.betweenCalls hr hp) (by simp) he hstr
  | askedAgain q r hr hphase _ _ hstr =>
      exact Stream.unusedEmpty_step (hT.betweenCalls hr (by simp [hphase])) (by simp) he hstr
  | missed q r l hr _ _ _ hstr => exact Stream.unusedEmpty_step hT (by simp) he hstr
  | subscribed q r hr _ _ _ hstr => exact Stream.unusedEmpty_step hT (by simp) he hstr
  | held q r hr _ _ hstr =>
      rw [hstr]
      exact he
  | got q r l hr _ _ _ hstr => exact Stream.unusedEmpty_step hT (by simp) he hstr

/-- A step under the lock keeps the invariant. -/
theorem Inv.ses (hi : Inv s) (hstay : s.Stays (.ses a)) (hb : ¬ s.Blocked a)
    (h : s.ses.step a = some ses') : Inv (s.after ses' a) where
  table := by
    rw [after_ses]
    exact Session.table_step hi.table h
  waits := by
    rw [after_ses]
    exact Session.waits_session_step hi.table hi.waits h
  unused := by
    rw [after_ses]
    refine unusedEmpty_ses hi.table (fun p hp => ?_) hi.unused h
    subst hp
    exact hstay.1
  fresh := by
    intro c hc
    rcases after_call s ses' a with ⟨hcall, hcount, -⟩ | ⟨call, -, hcount, hcall⟩
    · rw [hcall]
      exact hi.fresh c (hcount ▸ hc)
    · rw [hcall, Function.update_of_ne (by omega)]
      exact hi.fresh c (by omega)
  nodup := by
    intro c call hmem
    rcases after_call s ses' a with ⟨hcall, -, -⟩ | ⟨new, hnew, -, hcall⟩
    · exact hi.nodup c call (hcall ▸ hmem)
    · rw [hcall, Option.mem_def] at hmem
      by_cases hc : c = s.count
      · rw [hc, Function.update_self] at hmem
        cases hmem
        rw [rest_of_wakeCall hnew]
        exact (Session.mem_woken_iff (p := 0) hi.table hi.waits).1
      · rw [Function.update_of_ne hc] at hmem
        exact hi.nodup c call hmem
  status := by
    intro p
    by_cases ha : Foreign p a
    · exact hi.status_foreign h ha
    · exact hi.status_own hstay hb h ha
  future := by
    intro p k hk
    have hle : s.stored p ≤ k := by
      rw [after_stored] at hk
      split at hk <;> omega
    obtain ⟨hwakers, hres⟩ := hi.future p k hle
    rw [after_wakers, if_neg fun h => by omega, after_resumedBy]
    exact ⟨hwakers, hres⟩

end Ses

/-! ## A step of a call in progress -/

section Calls

variable {c : Nat} {rest : List Nat}

/-- A call that resumes its next awaiter keeps the invariant. -/
theorem Inv.resume (hi : Inv s) {q : Nat} (hcall : s.call c = some (q :: rest))
    (hs' : s' = { s with
      call := Function.update s.call c (some rest)
      resumedBy := fun p k =>
        if p = q ∧ k + 1 = s.stored q then s.resumedBy p k ++ [c] else s.resumedBy p k }) :
    Inv s' := by
  obtain ⟨hq, hrest⟩ : q ∉ rest ∧ rest.Nodup := List.nodup_cons.mp (hi.nodup c _ hcall)
  have hqc : s.InCall c q := ⟨_, hcall, List.mem_cons_self⟩
  have hres : ∀ p k, s'.resumedBy p k =
      if p = q ∧ k + 1 = s.stored q then s.resumedBy p k ++ [c] else s.resumedBy p k := by
    subst hs'
    exact fun _ _ => rfl
  have hses : s'.ses = s.ses ∧ s'.stored = s.stored ∧ s'.wakers = s.wakers ∧
      s'.count = s.count := by
    subst hs'
    exact ⟨rfl, rfl, rfl, rfl⟩
  obtain ⟨hses, hstored, hwakers, hcount⟩ := hses
  have hnew : s'.call = Function.update s.call c (some rest) := by rw [hs']
  have hin : ∀ c' p, s'.InCall c' p ↔ s.InCall c' p ∧ ¬ (c' = c ∧ p = q) := by
    intro c' p
    rw [InCall, hnew]
    by_cases hc : c' = c
    · subst hc
      rw [Function.update_self]
      simp only [InCall, Option.mem_def, hcall, Option.some.injEq, exists_eq_left', List.mem_cons,
        true_and]
      constructor
      · intro hp
        refine ⟨.inr hp, ?_⟩
        rintro rfl
        exact hq hp
      · rintro ⟨hp | hp, hne⟩
        · exact absurd hp hne
        · exact hp
    · rw [Function.update_of_ne hc]
      simp [InCall, hc]
  refine ⟨hses ▸ hi.table, hses ▸ hi.waits, hses ▸ hi.unused, fun c' hc' => ?_,
    fun c' call hmem => ?_, fun p => ?_, fun p k hk => ?_⟩
  · have hne : c' ≠ c := by
      rintro rfl
      rw [hi.fresh c' (hcount ▸ hc')] at hcall
      cases hcall
    rw [hnew, Function.update_of_ne hne]
    exact hi.fresh c' (hcount ▸ hc')
  · rw [hnew, Option.mem_def] at hmem
    by_cases hc : c' = c
    · rw [hc, Function.update_self] at hmem
      cases hmem
      exact hrest
    · rw [Function.update_of_ne hc] at hmem
      exact hi.nodup c' call hmem
  · by_cases hp : p = q
    · subst hp
      cases hi.status p with
      | settled _ hc _ | waits _ _ hc => exact absurd hqc (hc c)
      | pending k c' cs hphase _ hone hk hwk hr hdone =>
          obtain rfl := hone c hqc
          refine .settled ?_ (fun c' hc' => ?_) fun j hj => ?_
          · rw [hses, Session.waiting_iff, hphase]
            simp
          · obtain ⟨hold, hne⟩ := (hin c' p).mp hc'
            exact hne ⟨hone c' hold, rfl⟩
          · rw [hstored] at hj
            by_cases hlast : j = k
            · subst hlast
              exact ⟨c, cs, by rw [hwakers, hwk], by rw [hres, if_pos ⟨rfl, hk.symm⟩, hr]; rfl⟩
            · obtain ⟨c', cs', hwk', hr'⟩ := hdone j (by omega)
              exact ⟨c', cs', by rw [hwakers, hwk'], by rw [hres, if_neg (by omega), hr']⟩
    · refine (hi.status p).congr (by rw [hses]) (fun c' => ?_) (by rw [hstored])
        (by rw [hwakers]) ?_
      · rw [hin]
        exact ⟨fun h => h.1, fun h => ⟨h, fun hcq => hp hcq.2⟩⟩
      · funext k
        rw [hres, if_neg fun h => hp h.1]
  · rw [hstored] at hk
    obtain ⟨hwk, hr⟩ := hi.future p k hk
    refine ⟨by rw [hwakers, hwk], ?_⟩
    rw [hres, if_neg, hr]
    rintro ⟨rfl, hlast⟩
    omega

/-- A call that returns keeps the invariant. -/
theorem Inv.finish (hi : Inv s) (hcall : s.call c = some [])
    (hs' : s' = { s with call := Function.update s.call c none }) : Inv s' := by
  subst hs'
  have hold : ∀ c' call, call ∈ Function.update s.call c none c' → call ∈ s.call c' := by
    intro c' call hmem
    by_cases hc : c' = c
    · rw [hc, Function.update_self] at hmem
      cases hmem
    · rwa [Function.update_of_ne hc] at hmem
  refine ⟨hi.table, hi.waits, hi.unused, fun c' hc' => ?_, fun c' call hmem => ?_, fun p => ?_,
    hi.future⟩
  · by_contra hne
    obtain ⟨call, hmem⟩ := Option.ne_none_iff_exists'.mp hne
    have hmem := hold c' call hmem
    rw [Option.mem_def, hi.fresh c' hc'] at hmem
    cases hmem
  · exact hi.nodup c' call (hold c' call hmem)
  · refine (hi.status p).congr rfl (fun c' => ⟨?_, ?_⟩) rfl rfl rfl
    · rintro ⟨call, hmem, hp⟩
      exact ⟨call, hold c' call hmem, hp⟩
    · rintro ⟨call, hmem, hp⟩
      refine ⟨call, ?_, hp⟩
      have hc : c' ≠ c := by
        rintro rfl
        rw [Option.mem_def, hcall] at hmem
        cases hmem
        cases hp
      exact (Function.update_of_ne hc ..).trans hmem

end Calls

/-! ## Every run -/

theorem inv_init (limits : Limits) : Inv (init (T := T) limits) where
  table := Stream.table_init limits
  waits q r l hr := by cases hr
  unused h l hl := by cases hl
  fresh _ _ := rfl
  nodup c call hmem := by cases hmem
  status p := by
    refine .settled ?_ ?_ fun k hk => (by cases hk)
    · rintro ⟨r, hr, -⟩
      cases hr
    · rintro c ⟨call, hcall, -⟩
      cases hcall
  future _ _ _ := ⟨rfl, rfl⟩

/-- Every step keeps the invariant, unless a suspended subscriber leaves. -/
theorem Inv.step {a : Action T} (hi : Inv s) (hstay : s.Stays a) (h : s.step a = some s') :
    Inv s' := by
  cases a with
  | ses a =>
      obtain ⟨hb, h⟩ := Option.ite_none_left_eq_some.mp h
      obtain ⟨ses', hses, rfl⟩ := Option.map_eq_some_iff.mp h
      exact hi.ses hstay hb hses
  | resume c =>
      simp only [Wakeups.step] at h
      split at h
      · next hcall => exact hi.resume hcall (Option.some.inj h).symm
      · cases h
  | finish c =>
      simp only [Wakeups.step] at h
      split at h
      · next hcall => exact hi.finish hcall (Option.some.inj h).symm
      · cases h

/-- No wake-up is lost where the invariant holds. -/
theorem Inv.noLostWakeUp (hi : Inv s) : NoLostWakeUp s where
  registered := by
    intro h l hl hawt
    have hu : l.used = true := by
      by_contra hu
      rw [hi.unused h l hl (by simpa using hu)] at hawt
      cases hawt
    obtain ⟨r, hr, hh⟩ := hi.table.owned h l hl hu
    obtain ⟨l', hl', hs⟩ := hi.table.slots l.sub r hr
    rw [hh, hl] at hl'
    cases hl'
    have hphase : r.phase = .suspended := by
      by_contra hphase
      rw [hs.awt_eq, if_neg hphase] at hawt
      cases hawt
    obtain ⟨hpos, hk, hc⟩ := hi.waits l.sub r l hr (hh ▸ hl) hphase
    exact ⟨hu, hk, hpos, hc⟩
  waiting := by
    intro p k hk hnone
    have hnot : ¬ s.Done p k := by
      rintro ⟨c, cs, hwk, -⟩
      rw [hnone] at hwk
      cases hwk
    cases hi.status p with
    | settled _ _ hdone => exact absurd (hdone k hk) hnot
    | waits j hw _ hj hwk hr hdone =>
        have hkj : k = j := by
          by_contra hne
          exact hnot (hdone k (by omega))
        obtain ⟨r, hsub, hphase⟩ := hw
        obtain ⟨l, hl, hs⟩ := hi.table.slots p r hsub
        exact ⟨⟨r, hsub, l, hl, hs.used, by rw [hs.awt_eq, if_pos hphase]⟩, hkj ▸ hr⟩
    | pending j c cs _ _ _ hj hwk _ hdone =>
        have hkj : k = j := by
          by_contra hne
          exact hnot (hdone k (by omega))
        rw [← hkj, hnone] at hwk
        cases hwk
  woken := by
    intro p k c cs hk hwk
    have hfirst : s.Done p k → s.resumedBy p k = [c] := by
      rintro ⟨c', cs', hwk', hr⟩
      rw [hwk] at hwk'
      cases hwk'
      exact hr
    cases hi.status p with
    | settled _ _ hdone => exact .inl (hfirst (hdone k hk))
    | waits j _ _ hj hnone _ hdone =>
        refine .inl (hfirst (hdone k ?_))
        by_contra hlt
        obtain rfl : k = j := by omega
        rw [hwk] at hnone
        cases hnone
    | pending j c' cs' _ hc _ hj hwk' hr hdone =>
        by_cases hlt : k < j
        · exact .inl (hfirst (hdone k hlt))
        · obtain rfl : k = j := by omega
          rw [hwk] at hwk'
          cases hwk'
          exact .inr ⟨hr, hc⟩
  future p k hk := (hi.future p k hk).2

/-- **No wake-up is lost**: in every run in which no subscriber leaves while it is
suspended, every awaiter stored is resumed exactly once, by the first call that wakes
its subscriber up. -/
theorem noLostWakeUp_exec (limits : Limits) (as : List (Action T))
    (hstay : Run.Meets step Stays (init limits) as) :
    NoLostWakeUp (Run.exec step (init limits) as) :=
  Inv.noLostWakeUp <|
    Run.exec_inv_of_meets (fun _ _ _ hi hstay h => hi.step hstay h) (inv_init limits) hstay

/-- Two subscribers wait for a value; the first one is resumed, takes it, publishes the
next one and leaves, all before the second one is resumed. -/
def nestedPublish : List (Action Nat) :=
  [.ses (.join 1 .allValues .recent), .ses (.join 2 .allValues .recent),
    .ses (.next 1 .coAwait), .ses (.go 1), .ses (.next 2 .coAwait), .ses (.go 2),
    .ses (.publish [7]), .resume 0, .ses (.go 1), .ses (.publish [8]), .ses (.leave 1),
    .finish 1, .resume 0, .ses (.go 2), .finish 0]

/-- The first publish resumes both, the nested one nobody. -/
theorem noLostWakeUp_nestedPublish :
    NoLostWakeUp (Run.exec step (init {}) nestedPublish) ∧
      (Run.exec step (init {}) nestedPublish).resumedBy 2 0 = [0] ∧
      (Run.exec step (init {}) nestedPublish).wakers 2 0 = [0, 1] :=
  ⟨noLostWakeUp_exec {} nestedPublish (by decide), by decide, by decide⟩

end Wakeups

end Publisher

end Cocls
