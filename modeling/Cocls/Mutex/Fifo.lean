import Cocls.Mutex
import Cocls.Run

/-!
# Cocls.Mutex.Fifo

Runs of whole calls on a mutex: any number of parties, each of them away, owner
or waiting, call `ready` (that is `await_ready` and `try_lock`), `subscribe` and
`release` in any order.  The awaiter of a party is the object with the party's
number.

The run keeps one list, the line of waiting parties.  The mutex represents it
(`Cocls.Mutex`), and the history does: the parties subscribed so far are the
parties resumed so far followed by the line.  From this come the first-in
first-out hand-over and the absence of a lost or a doubled owner
(`fifoLock_exec`).
-/

namespace Cocls

namespace Mutex

/-- Where a party stands between two calls. -/
inductive Status where
  | away
  | owner
  | waiting
deriving DecidableEq, Repr

/-- A mutex with its parties and its history: `subscribed` lists the parties whose
`subscribe` answered `true`, `resumed` those that an `unlock` resumed, both in
the order this happened; `hung` records a call that did not return. -/
structure Calls where
  mx : Mutex := ⟨none, none, fun _ => none⟩
  status : Nat → Status := fun _ => .away
  subscribed : List Nat := []
  resumed : List Nat := []
  hung : Bool := false

namespace Calls

/-- A call by a party. -/
inductive Call where
  | ready (p : Nat)
  | subscribe (p : Nat)
  | release (p : Nat)

/-- Fuel for the loops of one call: a round for every awaiter ever subscribed, and
two more. -/
def fuel (s : Calls) : Nat := s.subscribed.length + 2

/-- One whole call.  A waiting party is suspended and calls nothing; only the
owner holds an `ownership` it can release. -/
def step (s : Calls) : Call → Option Calls
  | .ready p =>
      if s.status p = .waiting then none
      else
        match Mutex.ready s.mx with
        | (mx, true) => some { s with mx := mx, status := Function.update s.status p .owner }
        | (mx, false) => some { s with mx := mx }
  | .subscribe p =>
      if s.status p ≠ .away then none
      else
        match Mutex.subscribe s.fuel (.object p) s.mx with
        | none => some { s with hung := true }
        | some (mx, true) =>
            some { s with mx := mx, status := Function.update s.status p .waiting,
                          subscribed := s.subscribed ++ [p] }
        | some (mx, false) =>
            some { s with mx := mx, status := Function.update s.status p .owner }
  | .release p =>
      if s.status p ≠ .owner then none
      else
        match Mutex.unlock s.fuel s.mx with
        | none => some { s with hung := true }
        | some (mx, some (.object q)) =>
            some { s with mx := mx, resumed := s.resumed ++ [q],
                          status := Function.update (Function.update s.status p .away) q .owner }
        -- resuming a marker awaiter resumes nobody
        | some (mx, _) => some { s with mx := mx, status := Function.update s.status p .away }

/-- The parties subscribed and not yet resumed, by the history. -/
def line (s : Calls) : List Nat := s.subscribed.drop s.resumed.length

/-! ## The invariant -/

/-- The line of the history is the set of waiting parties, the mutex represents
it, and the mutex is locked exactly while there is an owner. -/
structure Inv (s : Calls) : Prop where
  returns : s.hung = false
  history : s.subscribed = s.resumed ++ s.line
  line_nodup : s.line.Nodup
  mem_line : ∀ p, p ∈ s.line ↔ s.status p = .waiting
  mutex : (Unlocked s.mx ∧ s.line = [] ∧ ∀ p, s.status p ≠ .owner) ∨
    (Locked s.mx (s.line.map .object) ∧ ∃ o, ∀ p, s.status p = .owner ↔ p = o)

theorem inv_init : Inv {} where
  returns := rfl
  history := rfl
  line_nodup := List.nodup_nil
  mem_line := by simp [line]
  mutex := .inl ⟨⟨rfl, rfl⟩, rfl, by simp⟩

/-- The line of a state whose history is `resumed ++ ws`. -/
theorem line_eq {s : Calls} {ws : List Nat} (h : s.subscribed = s.resumed ++ ws) :
    s.line = ws := by
  rw [line, h, List.drop_left]

/-- The awaiter of a party that does not wait is not in the line. -/
theorem Inv.object_not_mem {s : Calls} (hi : Inv s) {p : Nat} (hp : s.status p ≠ .waiting) :
    Awaiter.object p ∉ s.line.map Awaiter.object := by
  intro hmem
  obtain ⟨q, hq, heq⟩ := List.mem_map.mp hmem
  cases heq
  exact hp ((hi.mem_line p).mp hq)

/-! ## One call of each kind -/

/-- `try_lock` on an unlocked mutex makes the caller the owner. -/
theorem inv_ready_unlocked {s : Calls} {p : Nat} (hi : Inv s) (hl : s.line = [])
    (hno : ∀ q, s.status q ≠ .owner) {mx : Mutex} (hm : Locked mx []) :
    Inv { s with mx := mx, status := Function.update s.status p .owner } := by
  have hnowait : ∀ q, s.status q ≠ .waiting := by
    intro q hq
    have hmem := (hi.mem_line q).mpr hq
    rw [hl] at hmem
    simp at hmem
  refine ⟨hi.returns, hi.history, hi.line_nodup, ?_, .inr ⟨?_, p, ?_⟩⟩
  · intro q
    have hline : ({ s with mx := mx, status := Function.update s.status p .owner } : Calls).line =
        s.line := rfl
    rw [hline, hi.mem_line]
    by_cases hq : q = p
    · simp [hq, hnowait p]
    · simp [hq]
  · show Locked mx (s.line.map .object)
    rw [hl]
    exact hm
  · intro q
    by_cases hq : q = p
    · simp [hq]
    · simp [hq, hno q]

/-- What `ready` does in a state of the invariant: it succeeds exactly when there
is no owner, and changes nothing otherwise. -/
theorem ready_iff {s : Calls} (hi : Inv s) :
    (Mutex.ready s.mx).2 = true ↔ ∀ q, s.status q ≠ .owner := by
  rcases hi.mutex with ⟨hu, -, hno⟩ | ⟨hlock, o, ho⟩
  · obtain ⟨m', hrun, -⟩ := ready_of_unlocked hu
    rw [hrun]
    exact ⟨fun _ => hno, fun _ => rfl⟩
  · rw [ready_of_locked hlock]
    constructor
    · intro h
      exact absurd h Bool.false_ne_true
    · exact fun hno => absurd ((ho o).mpr rfl) (hno o)

theorem inv_ready {s s' : Calls} {p : Nat} (hi : Inv s) (h : step s (.ready p) = some s') :
    Inv s' := by
  by_cases hp : s.status p = .waiting
  · simp [step, hp] at h
  · rcases hi.mutex with ⟨hu, hl, hno⟩ | ⟨hlock, o, ho⟩
    · obtain ⟨m', hrun, hm⟩ := ready_of_unlocked hu
      simp only [step, if_neg hp, hrun, Option.some.injEq] at h
      rw [← h]
      exact inv_ready_unlocked hi hl hno hm
    · simp only [step, if_neg hp, ready_of_locked hlock, Option.some.injEq] at h
      rw [← h]
      exact hi

theorem inv_subscribe {s s' : Calls} {p : Nat} (hi : Inv s)
    (h : step s (.subscribe p) = some s') : Inv s' := by
  by_cases hp : s.status p ≠ .away
  · simp [step, hp] at h
  · have haway : s.status p = .away := not_not.mp hp
    rcases hi.mutex with ⟨hu, hl, hno⟩ | ⟨hlock, o, ho⟩
    · obtain ⟨m', hrun, hm⟩ := subscribe_of_unlocked (.object p) s.subscribed.length hu
      simp only [step, if_neg hp, fuel, hrun, Option.some.injEq] at h
      rw [← h]
      exact inv_ready_unlocked hi hl hno hm
    · have haw : Awaiter.object p ∉ s.line.map Awaiter.object :=
        hi.object_not_mem (by simp [haway])
      obtain ⟨m', hrun, hm⟩ :=
        subscribe_of_locked s.subscribed.length hlock haw (by simp [doorman])
      simp only [step, if_neg hp, fuel, hrun, Option.some.injEq] at h
      rw [← h]
      have hhist : s.subscribed ++ [p] = s.resumed ++ (s.line ++ [p]) := by
        conv_lhs => rw [hi.history]
        rw [List.append_assoc]
      have hline := line_eq (s := { s with
        mx := m', status := Function.update s.status p .waiting,
        subscribed := s.subscribed ++ [p] }) hhist
      refine ⟨hi.returns, ?_, ?_, ?_, .inr ⟨?_, o, ?_⟩⟩
      · rw [hline]
        exact hhist
      · rw [hline, List.nodup_append]
        refine ⟨hi.line_nodup, by simp, ?_⟩
        intro a ha b hb hab
        rw [List.mem_singleton] at hb
        rw [hab, hb, hi.mem_line, haway] at ha
        contradiction
      · intro q
        rw [hline, List.mem_append, hi.mem_line, List.mem_singleton]
        by_cases hq : q = p
        · simp [hq]
        · simp [hq]
      · rw [hline, List.map_append]
        exact hm
      · intro q
        by_cases hq : q = p
        · have hne : p ≠ o := fun hpo => by simpa [haway] using (ho p).mpr hpo
          simp [hq, hne]
        · simp [hq, ho q]

/-- What `release` does in a state of the invariant: with nobody waiting it
unlocks, otherwise it resumes the first party of the line and makes it the
owner. -/
theorem release_spec {s s' : Calls} {p : Nat} (hi : Inv s)
    (h : step s (.release p) = some s') :
    s.status p = .owner ∧
    ((s.line = [] ∧ ∃ mx, Unlocked mx ∧
        s' = { s with mx := mx, status := Function.update s.status p .away }) ∨
      ∃ q ws mx, s.line = q :: ws ∧ Locked mx (ws.map .object) ∧
        s' = { s with mx := mx, resumed := s.resumed ++ [q],
                      status := Function.update (Function.update s.status p .away) q .owner }) := by
  by_cases hp : s.status p ≠ .owner
  · simp [step, hp] at h
  · have howner : s.status p = .owner := not_not.mp hp
    refine ⟨howner, ?_⟩
    rcases hi.mutex with ⟨-, -, hno⟩ | ⟨hlock, o, ho⟩
    · exact absurd howner (hno p)
    · cases hl : s.line with
      | nil =>
          rw [hl] at hlock
          obtain ⟨m', hrun, hm⟩ := unlock_of_nil s.fuel hlock
          simp only [step, if_neg hp, hrun, Option.some.injEq] at h
          exact .inl ⟨rfl, m', hm, h.symm⟩
      | cons q ws =>
          rw [hl, List.map_cons] at hlock
          have hfuel : (ws.map Awaiter.object).length + 1 < s.fuel := by
            have hlen := congrArg List.length hi.history
            rw [hl] at hlen
            simp only [List.length_append, List.length_cons] at hlen
            simp only [List.length_map, fuel]
            omega
          obtain ⟨m', hrun, hm⟩ := unlock_of_cons hfuel hlock
          simp only [step, if_neg hp, hrun, Option.some.injEq] at h
          exact .inr ⟨q, ws, m', rfl, hm, h.symm⟩

theorem inv_release {s s' : Calls} {p : Nat} (hi : Inv s)
    (h : step s (.release p) = some s') : Inv s' := by
  obtain ⟨hp, ⟨hl, mx, hm, rfl⟩ | ⟨q, ws, mx, hl, hm, rfl⟩⟩ := release_spec hi h
  · refine ⟨hi.returns, hi.history, hi.line_nodup, ?_, .inl ⟨hm, hl, ?_⟩⟩
    · intro r
      refine (hi.mem_line r).trans ?_
      by_cases hr : r = p
      · simp [hr, hp]
      · simp [hr]
    · intro r
      rcases hi.mutex with ⟨-, -, hno⟩ | ⟨-, o, ho⟩
      · exact absurd hp (hno p)
      · by_cases hr : r = p
        · simp [hr]
        · have hro : r ≠ o := fun hro => hr (hro.trans ((ho p).mp hp).symm)
          simp [hr, ho r, hro]
  · have hhist : s.subscribed = s.resumed ++ [q] ++ ws := by
      conv_lhs => rw [hi.history, hl]
      simp
    have hline := line_eq (s := { s with
      mx := mx, resumed := s.resumed ++ [q],
      status := Function.update (Function.update s.status p .away) q .owner }) hhist
    have hnd : (q :: ws).Nodup := hl ▸ hi.line_nodup
    have hpq : p ≠ q := by
      rintro rfl
      have hmem : p ∈ s.line := by simp [hl]
      rw [hi.mem_line, hp] at hmem
      contradiction
    refine ⟨hi.returns, ?_, ?_, ?_, .inr ⟨?_, q, ?_⟩⟩
    · rw [hline]
      exact hhist
    · rw [hline]
      exact hnd.of_cons
    · intro r
      rw [hline]
      have hmem := hi.mem_line r
      rw [hl, List.mem_cons] at hmem
      by_cases hr : r = q
      · simp [hr, (List.nodup_cons.mp hnd).1]
      · by_cases hrp : r = p
        · rw [hrp, hp] at hmem
          simp only [hpq, false_or] at hmem
          simp [hrp, hpq, hmem]
        · simpa [hr, hrp] using hmem
    · rw [hline]
      exact hm
    · intro r
      by_cases hr : r = q
      · simp [hr]
      · by_cases hrp : r = p
        · simp [hrp, hpq]
        · rcases hi.mutex with ⟨-, -, hno⟩ | ⟨-, o, ho⟩
          · exact absurd hp (hno p)
          · have hro : r ≠ o := fun hro => hrp (hro.trans ((ho p).mp hp).symm)
            simp [hr, hrp, ho r, hro]

theorem inv_step {s s' : Calls} {c : Call} (hi : Inv s) (h : step s c = some s') : Inv s' := by
  cases c with
  | ready p => exact inv_ready hi h
  | subscribe p => exact inv_subscribe hi h
  | release p => exact inv_release hi h

theorem inv_exec (cs : List Call) : Inv (Run.exec step {} cs) :=
  Run.exec_inv (fun _ _ _ => inv_step) inv_init cs

/-- The owner can always release. -/
theorem release_enabled {s : Calls} {p : Nat} (hp : s.status p = .owner) :
    ∃ s', step s (.release p) = some s' := by
  simp only [step, hp, ne_eq, not_true_eq_false, if_false]
  split <;> exact ⟨_, rfl⟩

/-- Releasing again and again resumes everybody who waits. -/
theorem drain {s : Calls} (hi : Inv s) :
    ∃ ps : List Nat, (Run.exec step s (ps.map .release)).resumed = s.subscribed := by
  obtain ⟨n, hn⟩ : ∃ n, s.line.length = n := ⟨_, rfl⟩
  induction n generalizing s with
  | zero =>
      have hl : s.line = [] := List.eq_nil_of_length_eq_zero hn
      refine ⟨[], ?_⟩
      conv_rhs => rw [hi.history, hl, List.append_nil]
      rfl
  | succ n ih =>
      rcases hi.mutex with ⟨-, hl, -⟩ | ⟨-, o, ho⟩
      · rw [hl] at hn
        contradiction
      · obtain ⟨s', hs'⟩ := release_enabled ((ho o).mpr rfl)
        have hi' : Inv s' := inv_release hi hs'
        obtain ⟨-, ⟨hl, -⟩ | ⟨q, ws, mx, hl, -, heq⟩⟩ := release_spec hi hs'
        · rw [hl] at hn
          contradiction
        · have hsub : s'.subscribed = s.subscribed := by rw [heq]
          have hlen : s'.line.length = n := by
            have hlen := congrArg List.length hi'.history
            have hlen' := congrArg List.length hi.history
            rw [hsub] at hlen
            rw [heq] at hlen ⊢
            simp only [List.length_append, List.length_cons, List.length_nil] at hlen hlen'
            omega
          obtain ⟨ps, hps⟩ := ih hi' hlen
          refine ⟨o :: ps, ?_⟩
          rw [List.map_cons, Run.exec_cons, Run.tryStep_of_some step s hs', hps, hsub]

/-! ## First in, first out -/

/-- What a mutex promises its callers. -/
structure FifoLock (s : Calls) : Prop where
  /-- every call has returned -/
  returns : s.hung = false
  /-- parties were resumed in the order in which they subscribed -/
  in_order : s.resumed <+: s.subscribed
  /-- those not yet resumed are the parties that wait, each once -/
  waiting : s.line.Nodup ∧ ∀ p, p ∈ s.line ↔ s.status p = .waiting
  /-- `try_lock` succeeds exactly when nobody owns the mutex -/
  try_lock : (Mutex.ready s.mx).2 = true ↔ ∀ p, s.status p ≠ .owner
  /-- there is one owner at most -/
  one_owner : ∀ p q, s.status p = .owner → s.status q = .owner → p = q
  /-- the mutex is marked locked exactly while somebody owns it -/
  marked : s.mx.requests ≠ none ↔ ∃ p, s.status p = .owner
  /-- nobody waits, in `_queue` or in `_requests`, while the mutex is unlocked -/
  unlocked : s.mx.requests = none → s.mx.queue = none ∧ ∀ p, s.status p ≠ .waiting
  /-- a release resumes the party that waits longest, once, and makes it the owner -/
  serves : ∀ p s', step s (.release p) = some s' →
    s'.resumed = s.resumed ++ s.line.take 1 ∧ ∀ q, s.line.head? = some q → s'.status q = .owner
  /-- when the owners go on releasing, everybody who subscribed has been resumed -/
  drains : ∃ ps : List Nat, (Run.exec step s (ps.map .release)).resumed = s.subscribed

theorem Inv.fifoLock {s : Calls} (hi : Inv s) : FifoLock s where
  returns := hi.returns
  in_order := ⟨s.line, hi.history.symm⟩
  waiting := ⟨hi.line_nodup, hi.mem_line⟩
  try_lock := ready_iff hi
  one_owner := by
    intro p q hp hq
    rcases hi.mutex with ⟨-, -, hno⟩ | ⟨-, o, ho⟩
    · exact absurd hp (hno p)
    · rw [(ho p).mp hp, (ho q).mp hq]
  marked := by
    rcases hi.mutex with ⟨hu, -, hno⟩ | ⟨hlock, o, ho⟩
    · constructor
      · exact fun h => absurd hu.requests_eq h
      · rintro ⟨p, hp⟩
        exact absurd hp (hno p)
    · exact ⟨fun _ => ⟨o, (ho o).mpr rfl⟩, fun _ => hlock.requests_ne_none⟩
  unlocked := by
    intro hreq
    rcases hi.mutex with ⟨hu, hl, -⟩ | ⟨hlock, -⟩
    · refine ⟨hu.queue_eq, fun p hp => ?_⟩
      rw [← hi.mem_line, hl] at hp
      simp at hp
    · exact absurd hreq hlock.requests_ne_none
  serves := by
    intro p s' h
    obtain ⟨-, ⟨hl, mx, -, rfl⟩ | ⟨q, ws, mx, hl, -, rfl⟩⟩ := release_spec hi h
    · simp [hl]
    · simp [hl]
  drains := drain hi

/-- **First-in first-out hand-over**: after any sequence of whole calls by any
number of parties the mutex has kept all its promises. -/
theorem fifoLock_exec (cs : List Call) : FifoLock (Run.exec step {} cs) :=
  (inv_exec cs).fifoLock

end Calls

end Mutex

end Cocls
