import Mathlib.Data.List.Nodup
import Mathlib.Data.List.Perm.Basic
import Mathlib.Data.List.Range
import Mathlib.Order.Fin.Basic
import Cocls.Scheduler.Live

/-!
# Cocls.Scheduler.Runs

Runs of a scheduler: `schedule`, `get_expired` with any time, `remove` and
`cancel` with any identifier, in any order.

Every scheduled promise is a ticket, and the history tells which tickets are
*live*: scheduled, and not yet handed out.  `get_expired` and the conservation
of promises are right in every run (`orderly_exec`).  `remove` is not: it can
find an emptied item before a live one of the same identifier, and it can read
in an empty vector; it answers rightly exactly in the states `Answerable`
describes (`found_iff`).
-/

namespace Cocls

namespace Scheduler

variable {τ ι E : Type*}

/-- How a promise left the scheduler. -/
inductive Way where
  | expired
  | removed
  | cancelled
deriving DecidableEq, Repr

/-- What `remove` returned, or `cancel` with an exception returned and did; `none`:
the call read outside the vector. -/
inductive Answer (E : Type*) where
  | removed (r : Option (Option Nat))
  | cancelled (e : E) (r : Option (Bool × Option (Nat × E)))
deriving DecidableEq, Repr

/-- The answer is right, given the entries live before the call: the promise of a
live entry of the identifier, or nothing when there is none. -/
def Answer.Right (id : ι) (live : List (Entry τ ι Nat)) : Answer E → Prop
  | .removed r => ∃ p, r = some p ∧ RemoveRight id live p
  | .cancelled e r => ∃ p, r = some (p.isSome, p.map fun t => (t, e)) ∧ RemoveRight id live p

/-- A scheduler and its history: the promises `scheduled`, in order, the ticket of
each being its number; those that `left`; and, for every call of `remove`,
`cancel` and `get_expired`, its argument, the live entries before it and what it
answered.  After a `fault` nothing more is done. -/
structure Sys (τ ι E : Type*) where
  v : List (SchItem τ ι Nat) := []
  scheduled : List (Entry τ ι Nat) := []
  left : List (Nat × Way) := []
  answers : List (ι × List (Entry τ ι Nat) × Answer E) := []
  polls : List (τ × List (Entry τ ι Nat) × Option (Expired τ Nat)) := []
  fault : Bool := false

namespace Sys

/-- The live entries: scheduled, not expired, not removed. -/
def live (s : Sys τ ι E) : List (Entry τ ι Nat) :=
  s.scheduled.filter fun e => e.p ∉ s.left.map Prod.fst

theorem mem_live {s : Sys τ ι E} {e : Entry τ ι Nat} :
    e ∈ s.live ↔ e ∈ s.scheduled ∧ e.p ∉ s.left.map Prod.fst := by
  simp [live]

inductive Action (τ ι E : Type*) where
  /-- `full`: the promise passed is not empty -/
  | schedule (id : ι) (tp : τ) (full : Bool)
  | getExpired (now : τ)
  | remove (id : ι)
  | cancel (id : ι) (e : E)

section Step

variable [LinearOrder τ] [OrderTop τ] [DecidableEq ι]
  (H : HeapOps τ ι Nat)

/-- The tickets that leave with what `get_expired` returns. -/
def expiredTickets : Expired τ Nat → List (Nat × Way)
  | .promise t => [(t, .expired)]
  | .time _ => []

/-- One call. -/
def step (s : Sys τ ι E) : Action τ ι E → Option (Sys τ ι E)
  | .schedule id tp full =>
      if s.fault then none
      else
        let p := if full then some s.scheduled.length else none
        some { s with v := (schedule H id p tp s.v).1
                      scheduled := s.scheduled ++ liveIn [⟨tp, p, id⟩] }
  | .getExpired now =>
      if s.fault then none
      else
        match getExpiredLk H now s.v.length s.v with
        | none => some { s with polls := s.polls ++ [(now, s.live, none)], fault := true }
        | some (v, r) =>
            some { s with v := v, polls := s.polls ++ [(now, s.live, some r)]
                          left := s.left ++ expiredTickets r }
  | .remove id =>
      if s.fault then none
      else
        match Scheduler.remove H id s.v with
        | none =>
            some { s with answers := s.answers ++ [(id, s.live, .removed none)], fault := true }
        | some (v, p) =>
            some { s with v := v, answers := s.answers ++ [(id, s.live, .removed (some p))]
                          left := s.left ++ p.toList.map fun t => (t, .removed) }
  | .cancel id e =>
      if s.fault then none
      else
        match Scheduler.cancel H id e s.v with
        | none =>
            some { s with answers := s.answers ++ [(id, s.live, .cancelled e none)], fault := true }
        | some (v, ok, resolved) =>
            some { s with v := v
                          answers := s.answers ++ [(id, s.live, .cancelled e (some (ok, resolved)))]
                          left := s.left ++ resolved.toList.map fun r => (r.1, .cancelled) }

end Step

/-- Timer order and conservation. -/
structure Orderly [LinearOrder τ] [OrderTop τ] (s : Sys τ ι E) : Prop where
  /-- every `get_expired` returned, and returned a live promise of least time exactly
  when one was due, and else the least time -/
  polls_right : ∀ q ∈ s.polls, ∃ r, q.2.2 = some r ∧ PollRight q.1 q.2.1 r
  /-- the promises in the vector are exactly those of the live entries -/
  kept : (liveIn s.v).Perm s.live
  /-- no promise leaves twice -/
  left_once : (s.left.map Prod.fst).Nodup
  /-- only scheduled promises leave -/
  left_scheduled : ∀ r ∈ s.left, ∃ e ∈ s.scheduled, e.p = r.1

/-- Every `remove` and every `cancel` found what was scheduled. -/
def Found (s : Sys τ ι E) : Prop := ∀ a ∈ s.answers, a.2.2.Right a.1 a.2.1

/-- The call is not a `remove` or a `cancel` in a state that leads it astray. -/
def Finds [LinearOrder τ] [DecidableEq ι] (H : HeapOps τ ι Nat)
    (s : Sys τ ι E) : Action τ ι E → Prop
  | .remove id | .cancel id _ => Answerable H id s.v
  | .schedule _ _ _ | .getExpired _ => True

/-! ## The invariant -/

/-- The vector is a heap that holds exactly the promises of the live entries. -/
structure Inv [LinearOrder τ] (s : Sys τ ι E) : Prop where
  ordered : Heap.Ordered SchItem.tp s.v
  kept : (liveIn s.v).Perm s.live
  tickets : s.scheduled.map Entry.p = List.range s.scheduled.length
  left_once : (s.left.map Prod.fst).Nodup
  left_scheduled : ∀ r ∈ s.left, ∃ e ∈ s.scheduled, e.p = r.1

theorem inv_init [LinearOrder τ] : Inv ({} : Sys τ ι E) :=
  ⟨Heap.ordered_nil, List.Perm.refl _, rfl, List.nodup_nil, by simp⟩

section Live

variable [LinearOrder τ] {s : Sys τ ι E}

/-- No two live entries have the same ticket. -/
theorem Inv.live_nodup (hi : Inv s) : (s.live.map Entry.p).Nodup := by
  have hnd : (s.scheduled.map Entry.p).Nodup := by
    rw [hi.tickets]
    exact List.nodup_range
  exact hnd.sublist (List.filter_sublist.map _)

/-- A promise `t` leaves: what remains in the vector are the entries live after that. -/
theorem Inv.leave (hi : Inv s) {v' : List (SchItem τ ι Nat)} {e : Entry τ ι Nat}
    (hv : Heap.Ordered SchItem.tp v') (hperm : (liveIn s.v).Perm (e :: liveIn v')) (w : Way)
    {answers : List (ι × List (Entry τ ι Nat) × Answer E)}
    {polls : List (τ × List (Entry τ ι Nat) × Option (Expired τ Nat))} {fault : Bool} :
    Inv { s with v := v', left := s.left ++ [(e.p, w)], answers := answers, polls := polls,
                 fault := fault } := by
  have hlive : s.live.Perm (e :: liveIn v') := hi.kept.symm.trans hperm
  have hmem : e ∈ s.live := hlive.mem_iff.mpr List.mem_cons_self
  obtain ⟨hsch, hleft⟩ := mem_live.mp hmem
  have hnot : e.p ∉ (liveIn v').map Entry.p := by
    have hnd := (hlive.map Entry.p).nodup_iff.mp hi.live_nodup
    exact (List.nodup_cons.mp hnd).1
  refine ⟨hv, ?_, hi.tickets, ?_, ?_⟩
  · have hfilter : (s.live.filter fun e' => e'.p ≠ e.p).Perm (liveIn v') := by
      refine (hlive.filter _).trans ?_
      rw [List.filter_cons_of_neg (by simp)]
      rw [List.filter_eq_self.mpr]
      intro e' he'
      have hne : e'.p ≠ e.p := fun h => hnot (List.mem_map.mpr ⟨e', he', h⟩)
      simpa using hne
    refine hfilter.symm.trans (List.Perm.of_eq ?_)
    simp only [live, List.filter_filter, List.map_append, List.mem_append, not_or]
    refine List.filter_congr fun e' _ => ?_
    simp [Bool.and_comm]
  · rw [List.map_append, List.nodup_append]
    refine ⟨hi.left_once, by simp, ?_⟩
    rintro a ha b hb rfl
    rw [List.map_singleton, List.mem_singleton] at hb
    rw [hb] at ha
    exact hleft ha
  · intro r hr
    rcases List.mem_append.mp hr with hr | hr
    · exact hi.left_scheduled r hr
    · rw [List.mem_singleton] at hr
      exact ⟨e, hsch, by rw [hr]⟩

/-- Nothing leaves. -/
theorem Inv.stay (hi : Inv s) {v' : List (SchItem τ ι Nat)} (hv : Heap.Ordered SchItem.tp v')
    (hperm : (liveIn s.v).Perm (liveIn v'))
    {answers : List (ι × List (Entry τ ι Nat) × Answer E)}
    {polls : List (τ × List (Entry τ ι Nat) × Option (Expired τ Nat))} {fault : Bool} :
    Inv { s with v := v', answers := answers, polls := polls, fault := fault } :=
  ⟨hv, hperm.symm.trans hi.kept, hi.tickets, hi.left_once, hi.left_scheduled⟩

/-- What `remove` returned leaves with the promise. -/
theorem Inv.takeOut [DecidableEq ι] (H : HeapOps τ ι Nat) (hi : Inv s) {id : ι}
    {v' : List (SchItem τ ι Nat)} {r : Option Nat}
    (hrun : Scheduler.remove H id s.v = some (v', r)) (w : Way)
    {answers : List (ι × List (Entry τ ι Nat) × Answer E)} {fault : Bool} :
    Inv { s with v := v', left := s.left ++ r.toList.map fun t => (t, w), answers := answers,
                 fault := fault } := by
  rcases remove_spec H id hi.ordered with hnone | ⟨v₁, r₁, hsome, hord, hleaves⟩
  · rw [hrun] at hnone
    cases hnone
  · rw [hrun] at hsome
    obtain ⟨rfl, rfl⟩ := Prod.mk.inj (Option.some.inj hsome)
    cases r with
    | none =>
        simp only [Option.toList_none, List.map_nil, List.append_nil]
        exact hi.stay hord hleaves
    | some t =>
        obtain ⟨e, rfl, hperm⟩ := hleaves
        exact hi.leave hord hperm w

end Live

/-! ## The calls -/

section Calls

variable [LinearOrder τ] [OrderTop τ] [DecidableEq ι]
  (H : HeapOps τ ι Nat) {s s' : Sys τ ι E}

/-- No call is made after a `remove` or a `cancel` has read outside the vector. -/
theorem fault_of_step {a : Action τ ι E} (h : s.step H a = some s') : s.fault = false := by
  by_contra hne
  have hfault : s.fault = true := by simpa using hne
  cases a <;> simp [step, hfault] at h

theorem Inv.scheduleCall (hi : Inv s) (id : ι) (tp : τ) (full : Bool)
    (h : s.step H (.schedule id tp full) = some s') : Inv s' := by
  simp only [step, fault_of_step H h, Bool.false_eq_true, if_false] at h
  obtain rfl := Option.some.inj h
  obtain ⟨hord, hperm⟩ :=
    schedule_spec H id (if full then some s.scheduled.length else none) tp hi.ordered
  have hticket : ∀ e ∈ liveIn [(⟨tp, if full then some s.scheduled.length else none, id⟩ :
      SchItem τ ι Nat)], e.p = s.scheduled.length := by
    intro e he
    obtain ⟨x, hx, -, -, hp⟩ := mem_liveIn.mp he
    rw [List.mem_singleton] at hx
    subst hx
    cases full <;> simp at hp
    exact hp.symm
  have hold : ∀ t ∈ s.left.map Prod.fst, t < s.scheduled.length := by
    intro t ht
    obtain ⟨r, hr, rfl⟩ := List.mem_map.mp ht
    obtain ⟨e, he, hep⟩ := hi.left_scheduled r hr
    have hmem : e.p ∈ List.range s.scheduled.length := by
      rw [← hi.tickets]
      exact List.mem_map.mpr ⟨e, he, rfl⟩
    rw [hep] at hmem
    exact List.mem_range.mp hmem
  refine ⟨hord, ?_, ?_, hi.left_once, ?_⟩
  · refine hperm.trans ?_
    rw [live, List.filter_append]
    refine List.Perm.append hi.kept (List.Perm.of_eq (List.filter_eq_self.mpr ?_).symm)
    intro e he
    simp only [decide_eq_true_eq]
    intro hmem
    have hlt := hold e.p hmem
    rw [hticket e he] at hlt
    omega
  · cases full
    · simpa [liveIn_cons_of_empty] using hi.tickets
    · simp [liveIn_cons_of_some, hi.tickets, List.range_succ]
  · intro r hr
    obtain ⟨e, he, hep⟩ := hi.left_scheduled r hr
    exact ⟨e, List.mem_append_left _ he, hep⟩

theorem Inv.getExpiredCall (hi : Inv s) (now : τ) (h : s.step H (.getExpired now) = some s') :
    Inv s' ∧ ∃ r, PollRight now s.live r ∧ s'.polls = s.polls ++ [(now, s.live, some r)] := by
  obtain ⟨v', r, hrun, hord, hright, hleaves⟩ :=
    getExpiredLk_spec H now s.v.length s.v (le_refl _) hi.ordered
  simp only [step, fault_of_step H h, Bool.false_eq_true, if_false, hrun] at h
  obtain rfl := Option.some.inj h
  refine ⟨?_, r, hright.perm hi.kept, rfl⟩
  cases r with
  | promise t =>
      obtain ⟨e, rfl, hperm⟩ := hleaves
      exact hi.leave hord hperm .expired
  | time t =>
      simp only [expiredTickets, List.append_nil]
      exact hi.stay hord hleaves

theorem Inv.removeCall (hi : Inv s) (id : ι) (h : s.step H (.remove id) = some s') : Inv s' := by
  simp only [step, fault_of_step H h, Bool.false_eq_true, if_false] at h
  split at h
  · obtain rfl := Option.some.inj h
    exact ⟨hi.ordered, hi.kept, hi.tickets, hi.left_once, hi.left_scheduled⟩
  · next v' r hrun =>
      obtain rfl := Option.some.inj h
      exact hi.takeOut H hrun .removed

theorem Inv.cancelCall (hi : Inv s) (id : ι) (e : E) (h : s.step H (.cancel id e) = some s') :
    Inv s' := by
  simp only [step, fault_of_step H h, Bool.false_eq_true, if_false, cancel] at h
  cases hrun : Scheduler.remove H id s.v with
  | none =>
      rw [hrun] at h
      obtain rfl := Option.some.inj h
      exact ⟨hi.ordered, hi.kept, hi.tickets, hi.left_once, hi.left_scheduled⟩
  | some res =>
      obtain ⟨v', r⟩ := res
      rw [hrun] at h
      obtain rfl := Option.some.inj h
      have hleft : (r.map fun t => (t, e)).toList.map (fun x => (x.1, Way.cancelled)) =
          r.toList.map fun t => (t, .cancelled) := by
        cases r <;> rfl
      simp only [hleft]
      exact hi.takeOut H hrun .cancelled

/-- **Step lemma.** -/
theorem inv_step (hi : Inv s) {a : Action τ ι E} (h : s.step H a = some s') : Inv s' := by
  cases a with
  | schedule id tp full => exact hi.scheduleCall H id tp full h
  | getExpired now => exact (hi.getExpiredCall H now h).1
  | remove id => exact hi.removeCall H id h
  | cancel id e => exact hi.cancelCall H id e h

/-- Only `get_expired` adds to the polls, and rightly. -/
theorem polls_step (hi : Inv s) {a : Action τ ι E} (h : s.step H a = some s')
    (hp : ∀ q ∈ s.polls, ∃ r, q.2.2 = some r ∧ PollRight q.1 q.2.1 r) :
    ∀ q ∈ s'.polls, ∃ r, q.2.2 = some r ∧ PollRight q.1 q.2.1 r := by
  cases a with
  | getExpired now =>
      obtain ⟨-, r, hright, hpolls⟩ := hi.getExpiredCall H now h
      rw [hpolls]
      intro q hq
      rcases List.mem_append.mp hq with hq | hq
      · exact hp q hq
      · rw [List.mem_singleton] at hq
        subst hq
        exact ⟨r, rfl, hright⟩
  | schedule id tp full =>
      simp only [step, fault_of_step H h, Bool.false_eq_true, if_false] at h
      obtain rfl := Option.some.inj h
      exact hp
  | remove id =>
      simp only [step, fault_of_step H h, Bool.false_eq_true, if_false] at h
      split at h <;> (obtain rfl := Option.some.inj h; exact hp)
  | cancel id e =>
      simp only [step, fault_of_step H h, Bool.false_eq_true, if_false] at h
      split at h <;> (obtain rfl := Option.some.inj h; exact hp)

/-- **Timer order and conservation** in every run, whatever the heap functions do
within their specification.  A run goes on until a `remove` or a `cancel` reads
outside the vector. -/
theorem orderly_exec (acts : List (Action τ ι E)) :
    Orderly (Run.exec (step H) ({} : Sys τ ι E) acts) := by
  have hinv : ∀ (s : Sys τ ι E) a s',
      (Inv s ∧ ∀ q ∈ s.polls, ∃ r, q.2.2 = some r ∧ PollRight q.1 q.2.1 r) →
      s.step H a = some s' →
      (Inv s' ∧ ∀ q ∈ s'.polls, ∃ r, q.2.2 = some r ∧ PollRight q.1 q.2.1 r) :=
    fun s a s' hs h => ⟨inv_step H hs.1 h, polls_step H hs.1 h hs.2⟩
  obtain ⟨hi, hpolls⟩ := Run.exec_inv hinv ⟨inv_init, by simp⟩ acts
  exact ⟨hpolls, hi.kept, hi.left_once, hi.left_scheduled⟩

/-! ## Finding what is scheduled -/

/-- A call in a state that does not lead it astray answers rightly, and a call in
another one does not; the earlier answers stay. -/
theorem found_step (hi : Inv s) {a : Action τ ι E} (h : s.step H a = some s') :
    (s.Finds H a → s.Found → s'.Found) ∧ (¬ s.Finds H a → ¬ s'.Found) := by
  have hadd : ∀ (id : ι) (ans : Answer E), s'.answers = s.answers ++ [(id, s.live, ans)] →
      (ans.Right id s.live ↔ Answerable H id s.v) →
      (Answerable H id s.v → s.Found → s'.Found) ∧ (¬ Answerable H id s.v → ¬ s'.Found) := by
    intro id ans hans hright
    refine ⟨fun hr hf => ?_, fun hr hf => ?_⟩
    · unfold Found at hf ⊢
      rw [hans]
      intro b hb
      rcases List.mem_append.mp hb with hb | hb
      · exact hf b hb
      · rw [List.mem_singleton] at hb
        subst hb
        exact hright.mpr hr
    · refine hr (hright.mp ?_)
      exact hf (id, s.live, ans) (by rw [hans]; simp)
  have hiff : ∀ id, (∃ v' r, Scheduler.remove H id s.v = some (v', r) ∧ RemoveRight id s.live r) ↔
      Answerable H id s.v := by
    intro id
    rw [← remove_right_iff H id hi.ordered]
    simp only [RemoveRight.perm hi.kept]
  cases a with
  | schedule id tp full =>
      simp only [step, fault_of_step H h, Bool.false_eq_true, if_false] at h
      obtain rfl := Option.some.inj h
      exact ⟨fun _ hf => hf, fun hno => absurd trivial hno⟩
  | getExpired now =>
      obtain ⟨v', r, hrun, -, -, -⟩ :=
        getExpiredLk_spec H now s.v.length s.v (le_refl _) hi.ordered
      simp only [step, fault_of_step H h, Bool.false_eq_true, if_false, hrun] at h
      obtain rfl := Option.some.inj h
      exact ⟨fun _ hf => hf, fun hno => absurd trivial hno⟩
  | remove id =>
      have hiff' := hiff id
      simp only [step, fault_of_step H h, Bool.false_eq_true, if_false] at h
      cases hrun : Scheduler.remove H id s.v with
      | none =>
          rw [hrun] at h hiff'
          obtain rfl := Option.some.inj h
          exact hadd id _ rfl (by rw [← hiff']; simp [Answer.Right])
      | some r =>
          obtain ⟨v', p⟩ := r
          rw [hrun] at h hiff'
          obtain rfl := Option.some.inj h
          exact hadd id _ rfl (by rw [← hiff']; simp [Answer.Right])
  | cancel id e =>
      have hiff' := hiff id
      simp only [step, fault_of_step H h, Bool.false_eq_true, if_false, cancel] at h
      cases hrun : Scheduler.remove H id s.v with
      | none =>
          rw [hrun] at h hiff'
          obtain rfl := Option.some.inj h
          exact hadd id _ rfl (by rw [← hiff']; simp [Answer.Right])
      | some r =>
          obtain ⟨v', p⟩ := r
          rw [hrun] at h hiff'
          obtain rfl := Option.some.inj h
          refine hadd id _ rfl ?_
          have hinj : ∀ q : Option Nat, q.map (fun t => (t, e)) = p.map (fun t => (t, e)) → q = p :=
            fun q hq => Option.map_injective (fun t t' htt => congrArg Prod.fst htt) hq
          rw [← hiff']
          constructor
          · rintro ⟨q, hq, hright⟩
            obtain rfl := hinj q (congrArg Prod.snd (Option.some.inj hq)).symm
            exact ⟨v', q, rfl, hright⟩
          · rintro ⟨_, q, hq, hright⟩
            obtain ⟨-, rfl⟩ := Prod.mk.inj (Option.some.inj hq)
            exact ⟨p, rfl, hright⟩

/-- Answers are never taken back. -/
theorem answers_step {a : Action τ ι E} (h : s.step H a = some s') : s.answers ⊆ s'.answers := by
  cases a with
  | schedule id tp full =>
      simp only [step, fault_of_step H h, Bool.false_eq_true, if_false] at h
      obtain rfl := Option.some.inj h
      exact List.Subset.refl _
  | getExpired now =>
      simp only [step, fault_of_step H h, Bool.false_eq_true, if_false] at h
      split at h <;> (obtain rfl := Option.some.inj h; exact List.Subset.refl _)
  | remove id =>
      simp only [step, fault_of_step H h, Bool.false_eq_true, if_false] at h
      split at h <;> (obtain rfl := Option.some.inj h; exact List.subset_append_left _ _)
  | cancel id e =>
      simp only [step, fault_of_step H h, Bool.false_eq_true, if_false] at h
      split at h <;> (obtain rfl := Option.some.inj h; exact List.subset_append_left _ _)

/-- **Finding what is scheduled**: every `remove` and every `cancel` of a run
answered rightly exactly when each was made in an answerable state. -/
theorem found_iff (acts : List (Action τ ι E)) :
    Found (Run.exec (step H) ({} : Sys τ ι E) acts) ↔ Run.Meets (step H) (Finds H) {} acts := by
  have hgood : ∀ (s : Sys τ ι E) a s', (Inv s ∧ s.Found) → s.Finds H a → s.step H a = some s' →
      (Inv s' ∧ s'.Found) :=
    fun s a s' hs hf h => ⟨inv_step H hs.1 h, (found_step H hs.1 h).1 hf hs.2⟩
  have hbad : ∀ (s : Sys τ ι E) a s', (Inv s ∧ s.Found) → ¬ s.Finds H a → s.step H a = some s' →
      ¬ s'.Found :=
    fun s a s' hs hf h => (found_step H hs.1 h).2 hf
  refine Run.exec_iff_meets hgood hbad ?_ (fun s hs => hs.2) (fun s hs => hs)
    ⟨inv_init, by simp [Found]⟩ acts
  intro s a s' hnot h hf
  exact hnot fun b hb => hf b (answers_step H h hb)

end Calls

/-- Three sleepers, the last two of one identifier.  The first `cancel` empties the
item that the second one finds, while the third sleeper still sleeps. -/
def staleRun : List (Action (Fin 10) Nat Nat) :=
  [.schedule 0 1 true, .schedule 7 2 true, .schedule 7 3 true, .cancel 7 0, .cancel 7 0]

theorem found_fails : ¬ ∀ (H : HeapOps (Fin 10) Nat Nat) acts,
    Found (Run.exec (step H) ({} : Sys (Fin 10) Nat Nat) acts) := by
  intro h
  obtain ⟨p, hp, hright⟩ := h (Heap.sorting _) staleRun
    (7, [⟨1, 0, 0⟩, ⟨3, 7, 2⟩], .cancelled 0 (some (false, none))) (by decide)
  cases p with
  | none => exact hright ⟨3, 7, 2⟩ (by simp) rfl
  | some t => simp at hp

end Sys

end Scheduler

end Cocls
