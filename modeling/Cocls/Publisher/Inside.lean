import Cocls.Publisher.Retention

/-!
# Cocls.Publisher.Inside

The index at which `get_value_lk` reads the queue.

Once a value was published the queue is never empty again, and every index is
inside: mode `all_values` tests it, `skip_if_behind` takes the last one instead,
and `skip_to_recent` reads the first one.  The last two do so without a test for
the empty queue, which a subscriber sees when it joined at a position of its own
or asks again after the end of a stream without values (`getsInside_exec_iff`).
-/

namespace Cocls

namespace Publisher

namespace Queue

variable {T : Type*}

/-- `get_value_lk` on the registration finds no value or reads inside the queue. -/
def ReadsInside (s : Queue T) (l : SubReg) (t : SubscribtionType) : Prop :=
  ∀ i ∈ s.readIndex l t, i < s.q.length

instance (s : Queue T) (l : SubReg) (t : SubscribtionType) : Decidable (s.ReadsInside l t) :=
  inferInstanceAs (Decidable (∀ i ∈ s.readIndex l t, i < s.q.length))

variable {s : Queue T} {l : SubReg} {t : SubscribtionType}

/-- Mode `all_values` tests the index. -/
theorem readsInside_allValues : s.ReadsInside l .allValues := by
  intro i hi
  by_cases hend : l.kicked = true ∨ l.pos = s.pos
  · rw [readIndex, if_pos hend] at hi
    cases hi
  · rw [readIndex, if_neg hend] at hi
    obtain ⟨hlt, hi⟩ := Option.ite_none_left_eq_some.mp hi
    obtain rfl := Option.some.inj hi
    exact Nat.lt_of_not_ge hlt

/-- No index is read when the end is found first. -/
theorem readsInside_of_end (h : l.kicked = true ∨ l.pos = s.pos) : s.ReadsInside l t := by
  intro i hi
  rw [readIndex, if_pos h] at hi
  cases hi

/-- Every mode finds an index inside a queue that holds a value. -/
theorem readsInside_of_ne_nil (hq : s.q ≠ []) : s.ReadsInside l t := by
  have hpos : 0 < s.q.length := List.length_pos_iff.mpr hq
  by_cases hend : l.kicked = true ∨ l.pos = s.pos
  · exact readsInside_of_end hend
  · intro i hi
    rw [readIndex, if_neg hend] at hi
    cases t with
    | allValues => exact readsInside_allValues i (by rw [readIndex, if_neg hend]; exact hi)
    | skipIfBehind =>
        obtain rfl := Option.mem_some_iff.mp hi
        split
        · rw [sizeSub_of_le hpos]
          omega
        · next hlt => exact Nat.lt_of_not_ge hlt
    | skipToRecent =>
        obtain rfl := Option.mem_some_iff.mp hi
        exact hpos

/-- The other modes read an index of the empty queue, unless the end is found first. -/
theorem not_readsInside_nil (hq : s.q = []) (ht : t ≠ .allValues) (hk : l.kicked = false)
    (hp : l.pos ≠ s.pos) : ¬ s.ReadsInside l t := by
  have hend : ¬ (l.kicked = true ∨ l.pos = s.pos) := by simp [hk, hp]
  have hindex : ∃ i, s.readIndex l t = some i := by
    rw [readIndex, if_neg hend]
    cases t with
    | allValues => exact absurd rfl ht
    | skipIfBehind => exact ⟨_, rfl⟩
    | skipToRecent => exact ⟨_, rfl⟩
  obtain ⟨i, hi⟩ := hindex
  intro h
  have hlt := h i hi
  rw [hq] at hlt
  exact Nat.not_lt_zero i hlt

/-- What decides whether the index is inside. -/
theorem readsInside_iff : s.ReadsInside l t ↔
    s.q ≠ [] ∨ t = .allValues ∨ l.kicked = true ∨ l.pos = s.pos := by
  constructor
  · intro h
    by_contra hno
    simp only [not_or, ne_eq, not_not, Bool.not_eq_true] at hno
    obtain ⟨hq, ht, hk, hp⟩ := hno
    exact not_readsInside_nil hq ht hk hp h
  · rintro (hq | rfl | hend)
    · exact readsInside_of_ne_nil hq
    · exact readsInside_allValues
    · exact readsInside_of_end hend

end Queue

namespace Stream

variable {T : Type*} {s : Stream T}

/-- The queue holds a value as soon as one was published. -/
theorem Bounded.q_ne_nil_iff (hb : Bounded s) (hT : Table s) : s.que.q ≠ [] ↔ s.published ≠ [] := by
  constructor
  · intro hq hp
    have hnil := hT.q_eq
    rw [hp] at hnil
    simp only [List.reverse_nil, List.take_nil] at hnil
    exact hq hnil
  · intro hp
    have hpos : 0 < s.published.length := List.length_pos_iff.mpr hp
    have hmin := s.que.limits.min_pos
    have hleast := hb.at_least
    exact List.length_pos_iff.mp (by omega)

end Stream

namespace Session

variable {T : Type*} {s s' : Session T} {a : Action T}

/-- `I` holds of the queue, the registration and the mode when `a` makes `get_value_lk`
run. -/
def OnGet (I : Session T → SubReg → SubscribtionType → Prop) (s : Session T) : Action T → Prop
  | .go p => ∀ r ∈ s.str.sub p, r.phase = .toGet → (s.caller p).waited = false →
      ∀ l ∈ s.str.reg p, I s l r.type
  | _ => True

/-- A `get_value_lk` finds no value or reads inside the queue. -/
def GetsInside : Session T → Action T → Prop := OnGet fun s l t => s.str.que.ReadsInside l t

/-- A `get_value_lk` is made once a value was published; or else in mode `all_values`, for
a kicked subscriber, or at the position of the stream. -/
def Supplied : Session T → Action T → Prop :=
  OnGet fun s l t => s.str.published ≠ [] ∨ t = .allValues ∨ l.kicked = true ∨
    l.pos = s.str.que.pos

/-- The table is intact and the queue within its limits. -/
def Sound (s : Session T) : Prop := Stream.Table s.str ∧ Stream.Bounded s.str

theorem sound_init (limits : Limits) : Sound (init (T := T) limits) :=
  ⟨Stream.table_init limits, Nat.zero_le _, Nat.min_le_right _ _⟩

/-- **Step lemma.** -/
theorem Sound.step (hs : Sound s) (h : s.step a = some s') : Sound s' :=
  (step_effect h).inv (I := fun st => Stream.Table st ∧ Stream.Bounded st)
    (fun _ _ _ _ hs h => ⟨hs.1.step h, hs.2.step hs.1 h⟩)
    (fun _ _ _ hr hp hs => ⟨hs.1.betweenCalls hr hp, hs.2.at_most, hs.2.at_least⟩) hs

/-- The published values decide whether a read is inside. -/
theorem getsInside_iff (hs : Sound s) (a : Action T) : s.GetsInside a ↔ s.Supplied a := by
  unfold GetsInside Supplied OnGet
  cases a with
  | go p => simp only [Queue.readsInside_iff, hs.2.q_ne_nil_iff hs.1]
  | _ => exact Iff.rfl

/-- **Reading inside the queue**: in every run, every `get_value_lk` reports no value or
reads inside the queue exactly when each of them, before anything was published, is in mode
`all_values`, for a kicked subscriber, or at the position of the stream. -/
theorem getsInside_exec_iff (limits : Limits) (as : List (Action T)) :
    Run.Meets step GetsInside (init limits) as ↔ Run.Meets step Supplied (init limits) as := by
  have hstep : ∀ (good : Session T → Action T → Prop) (s : Session T) a s', Sound s → good s a →
      s.step a = some s' → Sound s' := fun _ _ _ _ hs _ h => hs.step h
  constructor
  · exact Run.Meets.imp_of_inv (hstep _) (fun s a hs => (getsInside_iff hs a).mp)
      (sound_init limits)
  · exact Run.Meets.imp_of_inv (hstep _) (fun s a hs => (getsInside_iff hs a).mpr)
      (sound_init limits)

/-- A subscriber that joins at position 5 of a stream without values, in a mode that
skips. -/
def earlyRun : List (Action Nat) :=
  [.join 0 .skipIfBehind (.at 5), .next 0 .coAwait, .go 0]

theorem getsInside_fails : ¬ ∀ (limits : Limits) (as : List (Action Nat)),
    Run.Meets step GetsInside (init limits) as := by
  intro h
  obtain ⟨-, -, hget, -⟩ := h {} earlyRun
  have hread : ¬ Queue.ReadsInside (T := Nat) {} { pos := 6, sub := 0, given := true }
      .skipIfBehind := by decide
  exact hread (hget rfl ⟨0, .skipIfBehind, .toGet, none, [], none⟩ rfl rfl rfl _ rfl)

/-- The position after the last `size_t` is 0, which has fallen behind. -/
example : ((Run.exec step (init (T := Nat) {}) [.join 0 .skipIfBehind (.at 0xFFFFFFFFFFFFFFFF),
    .next 0 .coAwait, .go 0]).caller 0).reports = [.ended .ahead] := by decide

end Session

end Publisher

end Cocls
