import Cocls.Publisher.Table

/-!
# Cocls.Publisher.Skipping

The positions of the values that a subscriber in mode `skip_if_behind` or
`skip_to_recent` receives.

`advance_lk` and `advance_suspend_lk` move the reading position strictly forward,
or from the last `size_t` to 0, when the subscriber is ahead of the stream.  The
position is past every value received as long as `get_value_lk` reads the value
at the recorded position: once it did so, the subscriber is no longer ahead.  It
reads a newer one when the subscriber has fallen behind, without recording its
position: the next `advance_lk` may then come to the same value again.
-/

namespace Cocls

namespace Publisher

namespace Stream

variable {T : Type*} {s s' : Stream T} {a : Action T} {p : Nat} {r r' : Reader T}
  {l l' : SubReg}

/-! ## Progress -/

/-- The subscriber at address `p`, if it skips values, received values at strictly
increasing positions of the stream. -/
def Increasing (p : Nat) (s : Stream T) : Prop :=
  ∀ r, s.sub p = some r → r.type ≠ .allValues → (r.received.map Prod.fst).Pairwise (· < ·)

/-- The value that `get_value_lk` finds is the one at the recorded position. -/
def AtPosition (q : Queue T) (l : SubReg) : SubscribtionType → Prop
  | .allValues => True
  | .skipIfBehind => l.pos < q.pos ∧ q.pos - l.pos - 1 < q.q.length
  | .skipToRecent => l.pos + 1 = q.pos

/-- A `get_value_lk` of subscriber `p` finds the end of the stream or the value at the
recorded position. -/
def ReadsRecorded (p : Nat) (s : Stream T) : Action T → Prop
  | .act q .get => q = p → ∀ r ∈ s.sub p, ∀ l ∈ s.reg p,
      l.kicked = true ∨ l.pos = s.que.pos ∨ AtPosition s.que l r.type
  | _ => True

/-- A step that keeps the recorded position past the values received. -/
def KeepsPosition (p : Nat) (s : Stream T) (a : Action T) : Prop :=
  SuspendsOpen p s a ∧ ReadsRecorded p s a

/-- The reading position against the positions of the values received, in each phase.  A
subscriber that received a value is not ahead of the stream. -/
def Past (q : Queue T) (r : Reader T) (l : SubReg) : Prop :=
  match r.phase with
  | .idle => ∀ x ∈ r.received, x.1 ≤ l.pos ∧ l.pos < q.pos
  | .toSubscribe => ∀ x ∈ r.received, x.1 ≤ l.pos ∧ l.pos < q.pos
  | .suspended => ∀ x ∈ r.received, x.1 < l.pos
  | .toGet => l.kicked = true ∨ ∀ x ∈ r.received, x.1 < l.pos
  | .ended => True
  | .outside => True

/-- The values received are in order and the reading position is past them. -/
def Ahead (s : Stream T) (r : Reader T) (l : SubReg) : Prop :=
  r.type ≠ .allValues → (r.received.map Prod.fst).Pairwise (· < ·) ∧ Past s.que r l

/-! ## What each step does to the position -/

theorem lt_succPos {q : Queue T} (h : l.pos < q.pos) : l.pos < q.succPos l := by
  rw [Queue.succPos_of_le (Nat.le_of_lt h)]
  exact Nat.lt_succ_self _

theorem lt_advancedPos {q : Queue T} (t : SubscribtionType) (h : l.pos < q.pos) :
    l.pos < q.advancedPos l t := by
  cases t with
  | allValues => exact lt_succPos h
  | skipIfBehind => exact Nat.lt_of_lt_of_le (lt_succPos h) (Nat.le_max_left _ _)
  | skipToRecent => exact Nat.lt_of_lt_of_le (lt_succPos h) (Nat.le_max_left _ _)

/-- The value that is read has the recorded position. -/
theorem readReg_pos {q : Queue T} {t : SubscribtionType} {n : Nat} {v : T}
    (ht : t ≠ .allValues) (hat : AtPosition q l t) (h : q.readReg l t = .value n v) :
    l.kicked = false ∧ n = l.pos ∧ l.pos < q.pos := by
  by_cases hend : l.kicked = true ∨ l.pos = q.pos
  · rw [Queue.readReg, Queue.readIndex, if_pos hend] at h
    cases h
  · have hidx : l.pos < q.pos ∧ q.readIndex l t = some (q.pos - l.pos - 1) := by
      cases t with
      | allValues => exact absurd rfl ht
      | skipIfBehind =>
          obtain ⟨hlt, hin⟩ := hat
          refine ⟨hlt, ?_⟩
          rw [Queue.readIndex, if_neg hend, sizeSub_of_le (Nat.le_of_lt hlt),
            sizeSub_of_le (Nat.le_sub_of_add_le (by omega))]
          exact congrArg some (if_neg (Nat.not_le_of_lt hin))
      | skipToRecent =>
          have hlt : l.pos + 1 = q.pos := hat
          refine ⟨by omega, ?_⟩
          rw [Queue.readIndex, if_neg hend, show q.pos - l.pos - 1 = 0 by omega]
    obtain ⟨hlt, hidx⟩ := hidx
    rw [Queue.readReg, hidx] at h
    refine ⟨by simpa using fun hk => hend (.inl hk), ?_, hlt⟩
    cases hv : q.q[q.pos - l.pos - 1]? with
    | none => simp [hv] at h
    | some w =>
        simp only [hv, Queue.Read.value.injEq] at h
        omega

/-- The stream only goes on. -/
theorem Past.mono {q q' : Queue T} (h : Past q r l) (hq : q.pos ≤ q'.pos) : Past q' r l := by
  unfold Past at h ⊢
  cases hp : r.phase with
  | idle | toSubscribe =>
      simp only [hp] at h
      exact fun x hx => (h x hx).imp_right fun hlt => Nat.lt_of_lt_of_le hlt hq
  | suspended | toGet =>
      simp only [hp] at h
      exact h
  | ended | outside => trivial

/-- A subscriber whose awaiter is resumed, at the same position. -/
theorem Past.woken {q : Queue T} (h : Past q r l) (hpos : l'.pos = l.pos)
    (hkicked : l.kicked = true → l'.kicked = true) : Past q r.woken l' := by
  unfold Past at h ⊢
  rw [Reader.woken_phase, Reader.woken_received, hpos]
  cases hp : r.phase with
  | idle | toSubscribe => simpa [hp] using h
  | ended | outside => trivial
  | suspended =>
      simp only [hp] at h
      exact .inr h
  | toGet =>
      simp only [hp] at h
      exact h.imp_left hkicked

/-- `ready` moves the position past the values received. -/
theorem Past.ready {q : Queue T} (h : Past q r l) (hp : r.phase = .idle) :
    Past q { r with phase := if (q.advanceReg l r.type).2 then .toGet else .toSubscribe }
      (q.advanceReg l r.type).1 := by
  have hle : ∀ x ∈ r.received, x.1 ≤ l.pos ∧ l.pos < q.pos := by simpa [Past, hp] using h
  rcases q.advanceReg_cases l r.type with ⟨-, he⟩ | ⟨-, -, he⟩ | ⟨-, -, he⟩
  · rw [he]
    exact hle
  · rw [he]
    exact hle
  · rw [he]
    exact Or.inr fun x hx => Nat.lt_of_le_of_lt (hle x hx).1 (lt_advancedPos r.type (hle x hx).2)

/-- `subscribe` moves the position past the values received, when the queue is open. -/
theorem Past.subscribe {q : Queue T} (h : Past q r l) (hp : r.phase = .toSubscribe)
    (hopen : q.closed = true → l.kicked = true) :
    Past q { r with phase := if (q.suspendReg l p).2 then .suspended else .toGet }
      (q.suspendReg l p).1 := by
  have hle : ∀ x ∈ r.received, x.1 ≤ l.pos ∧ l.pos < q.pos := by simpa [Past, hp] using h
  rcases q.suspendReg_cases l p with ⟨hk, he⟩ | ⟨-, -, -, he⟩ | ⟨-, -, -, he⟩
  · rw [he]
    exact Or.inl (hk.elim id hopen)
  · rw [he]
    exact fun x hx => Nat.lt_of_le_of_lt (hle x hx).1 (lt_succPos (hle x hx).2)
  · rw [he]
    exact Or.inr fun x hx => Nat.lt_of_le_of_lt (hle x hx).1 (lt_succPos (hle x hx).2)

/-- `get_value` receives the value at the recorded position, or none. -/
theorem Ahead.get (h : Ahead s r l) (hp : r.phase = .toGet) (hst : s'.que.pos = s.que.pos)
    (hat : l.kicked = true ∨ l.pos = s.que.pos ∨ AtPosition s.que l r.type) :
    Ahead s' (s.receive r l (s.que.readReg l r.type)) l := by
  intro ht
  have htype : r.type ≠ .allValues := by
    unfold receive at ht
    split at ht <;> exact ht
  obtain ⟨hsorted, hpast⟩ := h htype
  cases hread : s.que.readReg l r.type with
  | ended => exact ⟨hsorted, trivial⟩
  | outside => exact ⟨hsorted, trivial⟩
  | value n v =>
      have hrec : AtPosition s.que l r.type := by
        rcases hat with hk | hend | hat
        · rw [Queue.readReg, Queue.readIndex, if_pos (.inl hk)] at hread
          cases hread
        · rw [Queue.readReg, Queue.readIndex, if_pos (.inr hend)] at hread
          cases hread
        · exact hat
      obtain ⟨hk, rfl, hbehind⟩ := readReg_pos htype hrec hread
      rw [← hst] at hbehind
      have hlt : ∀ x ∈ r.received, x.1 < l.pos := by simpa [Past, hp, hk] using hpast
      refine ⟨?_, fun x hx => ?_⟩
      · show ((r.received ++ [(l.pos, v)]).map Prod.fst).Pairwise (· < ·)
        rw [List.map_append, List.pairwise_append]
        refine ⟨hsorted, List.pairwise_singleton _ _, fun m hm n hn => ?_⟩
        obtain ⟨x, hx, rfl⟩ := List.mem_map.mp hm
        rw [List.map_singleton, List.mem_singleton] at hn
        rw [hn]
        exact hlt x hx
      · rcases List.mem_append.mp hx with hx | hx
        · exact ⟨Nat.le_of_lt (hlt x hx), hbehind⟩
        · exact ⟨Nat.le_of_eq (congrArg Prod.fst (List.mem_singleton.mp hx)), hbehind⟩

/-- **One step**: every move of a subscriber that keeps its recorded position keeps it
past the values received. -/
theorem Ahead.move (h : Ahead s r l) (hr : s.sub p = some r) (hreg : s.reg p = some l)
    (hgood : KeepsPosition p s a) (hm : Move s s' a p r l r' l') : Ahead s' r' l' := by
  cases hm with
  | other hst => exact fun ht => ⟨(h ht).1, (h ht).2.mono (Nat.le_of_eq hst.pos_eq.symm)⟩
  | pushed vals need hpush =>
      intro ht
      obtain ⟨hsorted, hpast⟩ := h (r.woken_type ▸ ht)
      have hle : s.que.pos ≤ s'.que.pos := hpush.pos_eq ▸ Nat.le_add_right _ _
      exact ⟨r.woken_received.symm ▸ hsorted, (hpast.woken rfl id).mono hle⟩
  | kicked hst =>
      intro ht
      obtain ⟨hsorted, hpast⟩ := h (r.woken_type ▸ ht)
      have hwoken : Past s.que r.woken { l with awt := none, kicked := true } :=
        hpast.woken rfl fun _ => rfl
      exact ⟨r.woken_received.symm ▸ hsorted, hwoken.mono (Nat.le_of_eq hst.pos_eq.symm)⟩
  | ready hst _ hp =>
      exact fun ht => ⟨(h ht).1, ((h ht).2.ready hp).mono (Nat.le_of_eq hst.pos_eq.symm)⟩
  | subscribe hst ha hp =>
      subst ha
      exact fun ht => ⟨(h ht).1, ((h ht).2.subscribe hp (hgood.1 rfl l hreg)).mono
        (Nat.le_of_eq hst.pos_eq.symm)⟩
  | get hst ha hp =>
      subst ha
      exact h.get hp hst.pos_eq (hgood.2 rfl r hr l hreg)
  | giveUp hst hp =>
      intro ht
      have hle : ∀ x ∈ r.received, x.1 ≤ l.pos ∧ l.pos < s'.que.pos := by
        simpa [Past, hp, hst.pos_eq] using (h ht).2
      exact ⟨(h ht).1, hle⟩

/-- **Skipping subscribers only go forward**: as long as every `get_value_lk` of a
subscriber finds the value at the recorded position, and no `advance_suspend_lk` of
it finds the queue closed, it receives values at strictly increasing positions. -/
theorem increasing_exec (limits : Limits) (p : Nat) {as : List (Action T)}
    (h : Run.Meets step (KeepsPosition p) (init limits) as) :
    Increasing p (Run.exec step (init limits) as) := by
  have hstep : ∀ (s : Stream T) a s', Table s ∧ Holds Ahead p s → KeepsPosition p s a →
      step s a = some s' → Table s' ∧ Holds Ahead p s' := by
    intro s a s' hs hgood h
    refine ⟨hs.1.step h, Holds.step hs.1 (fun r _ _ he _ _ => ?_) ?_ hs.2 h⟩
    · obtain ⟨hidle, hrec, -⟩ := he.fresh
      rw [hrec, Past, hidle, hrec]
      simp
    · intro r l r' l' hr hl _ hA hm
      exact hA.move hr (by rw [reg, hr]; exact hl) hgood hm
  obtain ⟨hT, hA⟩ := Run.exec_inv_of_meets hstep
    ⟨table_init limits, fun r l hr => (by cases hr)⟩ h
  intro r hr ht
  obtain ⟨l, hl, -⟩ := hT.slots p r hr
  exact (hA r l hr hl ht).1

/-- A subscriber that starts at the last `size_t` comes back to the stream, and does not get
the value twice. -/
example : ((Run.exec step (init {}) [.join 0 .skipToRecent (.at 0xFFFFFFFFFFFFFFFF), .publish [7],
    .act 0 .ready, .act 0 .get, .act 0 .ready, .act 0 .giveUp, .act 0 .ready]).sub 0).map
      Reader.received = some [(1, 7)] := by decide

/-- A suspended subscriber is resumed by a batch of two values, gets the second one, and
has the position of the first one recorded. -/
def batchWhileSuspended : List (Action Nat) :=
  [.join 0 .skipToRecent .recent, .act 0 .ready, .act 0 .subscribe, .publish [7, 8], .act 0 .get,
    .act 0 .ready, .act 0 .get]

/-- The second value of the batch is received twice. -/
theorem increasing_fails : ¬ Increasing 0 (Run.exec step (init {}) batchWhileSuspended) := by
  intro h
  have hsorted : [2, 2].Pairwise (· < ·) := h _ rfl (by decide)
  revert hsorted
  decide

/-- A subscriber that falls behind between two reads, and catches up in `ready`. -/
def behindBetweenReads : List (Action Nat) :=
  [.join 0 .skipToRecent .recent, .act 0 .ready, .act 0 .subscribe, .publish [7], .act 0 .get,
    .publish [8, 9], .act 0 .ready, .act 0 .get]

/-- A subscriber that falls behind between two reads receives the first value and the
most recent one. -/
theorem increasing_behindBetweenReads :
    Increasing 0 (Run.exec step (init {}) behindBetweenReads) := by
  refine increasing_exec {} 0 ⟨fun _ => ?_, fun _ => ?_, fun _ => ?_, fun _ => ?_, fun _ => ?_,
    fun _ => ?_, fun _ => ?_, fun _ => ?_, trivial⟩
  · exact ⟨trivial, trivial⟩
  · exact ⟨trivial, trivial⟩
  · exact ⟨fun _ l _ h => (by cases h), trivial⟩
  · exact ⟨trivial, trivial⟩
  · refine ⟨trivial, fun _ r hr l hl => ?_⟩
    cases hr
    cases hl
    exact .inr (.inr rfl)
  · exact ⟨trivial, trivial⟩
  · exact ⟨trivial, trivial⟩
  · refine ⟨trivial, fun _ r hr l hl => ?_⟩
    cases hr
    cases hl
    exact .inr (.inr rfl)

end Stream

end Publisher

end Cocls
