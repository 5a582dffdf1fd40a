import Cocls.Publisher.Table

/-!
# Cocls.Publisher.AllValues

What a subscriber in mode `all_values` receives.

A subscriber that joined after `b` published values follows the stream: it has
received the values right after these, in order, and the queue still holds the
ones it has yet to receive, up to the maximal length.  Its reading position is
moved on by `advance_lk` or by `advance_suspend_lk`; the latter does not move it
when the queue was closed in the meantime, and then `get_value_lk` reads the
previous position once more.  Apart from that step everything is delivered.
-/

namespace Cocls

namespace Publisher

namespace Stream

variable {T : Type*} {s s' : Stream T} {a : Action T} {p b : Nat} {r r' : Reader T}
  {l l' : SubReg}

/-! ## Delivery -/

/-- The end of the stream was reported for a reason, to a subscriber that had received
`n` values after the first `b`. -/
def EndRight (maxQueueLen b n : Nat) (e : EndInfo) : Prop :=
  e.kicked = true ∨ (e.closed = true ∧ e.published = b + n) ∨ maxQueueLen < e.published - (b + n)

/-- A subscriber that joined after `b` published values has received the values right
after these, without a gap or a repetition, and was told the end for a reason. -/
structure Delivered (s : Stream T) (b : Nat) (r : Reader T) : Prop where
  joined : b ≤ s.published.length
  received_pre : r.received.map Prod.snd <+: s.published.drop b
  inside : r.phase ≠ .outside
  ended : ∀ e, r.endInfo = some e → EndRight s.que.limits.maxQueueLen b r.received.length e

/-- Every value is delivered to the subscriber at address `p`, if it is in mode
`all_values` and subscribed at the most recent position. -/
def DeliversAll (p : Nat) (s : Stream T) : Prop :=
  ∀ r b, s.sub p = some r → r.type = .allValues → r.base = some b → Delivered s b r

/-! ## Following the stream -/

/-- The position of the value to receive next. -/
def nextPos (b : Nat) (r : Reader T) : Nat := b + r.received.length + 1

/-- The reading position in each phase. -/
def Stands (b : Nat) (s : Stream T) (r : Reader T) (l : SubReg) : Prop :=
  match r.phase with
  | .idle => l.pos + 1 = nextPos b r
  | .toSubscribe => l.pos + 1 = nextPos b r
  | .suspended => l.pos = nextPos b r ∧ nextPos b r = s.que.pos
  | .toGet => l.kicked = true ∨
      (l.pos = nextPos b r ∧ (nextPos b r = s.que.pos → s.que.closed = true))
  | .ended => True
  | .outside => False

/-- A subscriber that joined after `b` published values follows the stream. -/
structure Follows (b : Nat) (s : Stream T) (r : Reader T) (l : SubReg) : Prop where
  received_pre : r.received.map Prod.snd <+: s.published.drop b
  pos_le : l.pos ≤ nextPos b r
  next_le : nextPos b r ≤ s.que.pos
  kept : min (s.que.pos - nextPos b r) s.que.limits.maxQueueLen ≤ s.que.q.length
  stands : Stands b s r l
  ended : ∀ e, r.endInfo = some e →
    r.phase = .ended ∧ EndRight s.que.limits.maxQueueLen b r.received.length e

theorem Follows.delivered (h : Follows b s r l) (hT : Table s) : Delivered s b r := by
  refine ⟨?_, h.received_pre, fun hp => ?_, fun e he => (h.ended e he).2⟩
  · have hle := h.next_le
    rw [hT.pos_eq, nextPos] at hle
    omega
  · have hst := h.stands
    rw [Stands, hp] at hst
    exact hst

/-- Steps that publish nothing and leave the queue as it is. -/
theorem Follows.still (h : Follows b s r l) (hst : Still s s') : Follows b s' r l := by
  obtain ⟨hpub, hlim, hq, hpos, hclosed⟩ := hst
  refine ⟨hpub ▸ h.received_pre, h.pos_le, hpos ▸ h.next_le, ?_, ?_, hlim ▸ h.ended⟩
  · rw [hpos, hlim, hq]
    exact h.kept
  · rw [Stands, hpos, hclosed]
    exact h.stands

@[simp] theorem nextPos_woken : nextPos b r.woken = nextPos b r := by
  rw [nextPos, nextPos, Reader.woken_received]

/-- What is left of a report of the end when an awaiter is resumed. -/
theorem Follows.ended_woken (h : Follows b s r l) : ∀ e, r.woken.endInfo = some e →
    r.woken.phase = .ended ∧ EndRight s.que.limits.maxQueueLen b r.woken.received.length e := by
  intro e he
  rw [Reader.woken_endInfo] at he
  obtain ⟨hp, hright⟩ := h.ended e he
  rw [Reader.woken_phase, hp, Reader.woken_received]
  exact ⟨rfl, hright⟩

/-- Where a subscriber stands after its awaiter was resumed. -/
theorem Stands.woken (h : Stands b s r l) (hpos : l'.pos = l.pos)
    (hkicked : l.kicked = true → l'.kicked = true)
    (hgo : nextPos b r = s.que.pos → l'.kicked = true ∨
      (nextPos b r = s'.que.pos → s'.que.closed = true))
    (hstay : nextPos b r = s'.que.pos → nextPos b r = s.que.pos ∧
      (s.que.closed = true → s'.que.closed = true)) : Stands b s' r.woken l' := by
  unfold Stands at h ⊢
  rw [Reader.woken_phase, nextPos_woken, hpos]
  cases hp : r.phase with
  | idle | toSubscribe => simpa [hp] using h
  | ended => trivial
  | outside => simp [hp] at h
  | suspended =>
      simp only [hp] at h
      rcases hgo h.2 with hk | hc
      · exact .inl hk
      · exact .inr ⟨h.1, hc⟩
  | toGet =>
      simp only [hp] at h
      rcases h with hk | ⟨heq, hc⟩
      · exact .inl (hkicked hk)
      · exact .inr ⟨heq, fun hn => (hstay hn).2 (hc (hstay hn).1)⟩

/-- Publishing and closing. -/
theorem Follows.pushed (h : Follows b s r l) {vals : List T} {need : Nat}
    (hp : Pushed s s' vals need) (hneed : sizeSub s'.que.pos l.pos ≤ need) :
    Follows b s' r.woken { l with awt := none } := by
  have hended := h.ended_woken
  obtain ⟨hpre, hle, hnext, hkept, hstands, -⟩ := h
  refine ⟨?_, ?_, ?_, ?_, ?_, ?_⟩
  · rw [hp.published_eq, Reader.woken_received]
    refine hpre.trans ?_
    rw [List.drop_append]
    exact List.prefix_append _ _
  · rw [nextPos_woken]
    exact hle
  · rw [nextPos_woken, hp.pos_eq]
    omega
  · -- the registration itself asks for every value it has yet to read
    have hpos := hp.pos_eq
    rw [sizeSub_of_le (by omega)] at hneed
    rw [nextPos_woken, hp.q_eq, hp.limits_eq, List.length_take, List.length_append,
      List.length_reverse]
    omega
  · have hpos := hp.pos_eq
    refine hstands.woken rfl id (fun heq => .inr fun heq' => ?_) fun heq => ⟨by omega, hp.closed_of⟩
    -- nothing was published: the queue was closed
    exact hp.closed_of_nil (List.eq_nil_of_length_eq_zero (by omega))
  · rw [hp.limits_eq]
    exact hended

/-- Being kicked. -/
theorem Follows.kicked (h : Follows b s r l) (hst : Still s s') :
    Follows b s' r.woken { l with awt := none, kicked := true } := by
  have hended := h.ended_woken
  obtain ⟨hpre, hle, hnext, hkept, hstands, -⟩ := h
  refine ⟨?_, ?_, ?_, ?_, ?_, ?_⟩
  · rw [hst.published_eq, Reader.woken_received]
    exact hpre
  · rw [nextPos_woken]
    exact hle
  · rw [nextPos_woken, hst.pos_eq]
    exact hnext
  · rw [nextPos_woken, hst.pos_eq, hst.limits_eq, hst.q_eq]
    exact hkept
  · exact hstands.woken rfl (fun _ => rfl) (fun _ => .inl rfl)
      fun heq => ⟨hst.pos_eq ▸ heq, fun hc => hst.closed_eq ▸ hc⟩
  · rw [hst.limits_eq]
    exact hended

/-- A step that receives nothing only has to fit the new phase. -/
theorem Follows.go (h : Follows b s r l) (phase : Phase) (hr : r.phase ≠ .ended)
    (hle : l'.pos ≤ nextPos b r) (hstands : Stands b s { r with phase := phase } l') :
    Follows b s { r with phase := phase } l' := by
  refine ⟨h.received_pre, hle, h.next_le, h.kept, hstands, fun e he => ?_⟩
  exact absurd (h.ended e he).1 hr

/-- A subscriber that follows the stream is not ahead of it. -/
theorem Follows.succPos_eq (h : Follows b s r l) : s.que.succPos l = l.pos + 1 :=
  Queue.succPos_of_le (Nat.le_trans h.pos_le h.next_le)

/-- `ready`. -/
theorem Follows.ready (h : Follows b s r l) (hp : r.phase = .idle) (ht : r.type = .allValues) :
    Follows b s { r with phase := if (s.que.advanceReg l r.type).2 then .toGet else .toSubscribe }
      (s.que.advanceReg l r.type).1 := by
  have hstands : l.pos + 1 = nextPos b r := by simpa [Stands, hp] using h.stands
  have hsucc := h.succPos_eq
  have hr : r.phase ≠ .ended := by rw [hp]; decide
  rcases s.que.advanceReg_cases l r.type with ⟨-, he⟩ | ⟨-, -, he⟩ | ⟨-, hc, he⟩
  · rw [he]
    exact h.go .toSubscribe hr h.pos_le hstands
  · rw [he]
    exact h.go .toSubscribe hr h.pos_le hstands
  · have hadv : s.que.advancedPos l r.type = l.pos + 1 := by rw [ht]; exact hsucc
    rw [hsucc] at hc
    rw [he, hadv]
    show Follows b s { r with phase := .toGet } { l with pos := l.pos + 1 }
    exact h.go .toGet hr (Nat.le_of_eq hstands)
      (Or.inr ⟨hstands, fun heq => hc (hstands.trans heq)⟩)

/-- `subscribe`, when the queue is open. -/
theorem Follows.subscribe (h : Follows b s r l) (hp : r.phase = .toSubscribe)
    (hopen : s.que.closed = true → l.kicked = true) :
    Follows b s { r with phase := if (s.que.suspendReg l p).2 then .suspended else .toGet }
      (s.que.suspendReg l p).1 := by
  have hstands : l.pos + 1 = nextPos b r := by simpa [Stands, hp] using h.stands
  have hr : r.phase ≠ .ended := by rw [hp]; decide
  have hcases := s.que.suspendReg_cases l p
  rw [h.succPos_eq] at hcases
  rcases hcases with ⟨hk, he⟩ | ⟨-, -, heq, he⟩ | ⟨-, -, hne, he⟩
  · rw [he]
    exact h.go .toGet hr h.pos_le (Or.inl (hk.elim id hopen))
  · rw [he]
    exact h.go .suspended hr (Nat.le_of_eq hstands) ⟨hstands, hstands ▸ heq⟩
  · rw [he]
    exact h.go .toGet hr (Nat.le_of_eq hstands)
      (Or.inr ⟨hstands, fun heq => absurd (hstands.trans heq) hne⟩)

/-- What `get_value_lk` comes to in mode `all_values`. -/
theorem readReg_allValues (hT : Table s) (hle : l.pos ≤ s.que.pos) (h0 : 0 < l.pos) :
    (s.que.readReg l .allValues = .ended ∧ (l.kicked = true ∨ l.pos = s.que.pos ∨
        (l.pos < s.que.pos ∧ s.que.q.length ≤ s.que.pos - l.pos - 1))) ∨
      ∃ v, s.que.readReg l .allValues = .value l.pos v ∧ s.published[l.pos - 1]? = some v := by
  have hpos := hT.pos_eq
  by_cases hend : l.kicked = true ∨ l.pos = s.que.pos
  · left
    rw [Queue.readReg, Queue.readIndex, if_pos hend]
    exact ⟨rfl, hend.imp_right .inl⟩
  · have hlt : l.pos < s.que.pos := Nat.lt_of_le_of_ne hle fun heq => hend (.inr heq)
    have hread : s.que.readIndex l .allValues = if s.que.pos - l.pos - 1 ≥ s.que.q.length then none
        else some (s.que.pos - l.pos - 1) := by
      rw [Queue.readIndex, if_neg hend, sizeSub_of_le hle, sizeSub_of_le (by omega)]
    rw [Queue.readReg, hread]
    by_cases hq : s.que.pos - l.pos - 1 ≥ s.que.q.length
    · rw [if_pos hq]
      exact .inl ⟨rfl, .inr (.inr ⟨hlt, hq⟩)⟩
    · rw [if_neg hq]
      obtain ⟨hat, hin⟩ := hT.q_getElem? (Nat.lt_of_not_le hq)
      have hidx : s.published.length - 1 - (s.que.pos - l.pos - 1) = l.pos - 1 := by omega
      obtain ⟨v, hv⟩ : ∃ v, s.published[l.pos - 1]? = some v :=
        ⟨_, List.getElem?_eq_getElem (by omega)⟩
      have hval : s.que.pos - 1 - (s.que.pos - l.pos - 1) = l.pos := by omega
      refine .inr ⟨v, ?_, hv⟩
      simp only [hat, hidx, hv, hval]

/-- A value is received. -/
theorem Follows.value (h : Follows b s r l) (hnone : r.endInfo = none) (heq : l.pos = nextPos b r)
    {v : T} (hT : Table s) (hv : s.published[l.pos - 1]? = some v) :
    Follows b s { r with phase := .idle, received := r.received ++ [(l.pos, v)] } l := by
  have hin : l.pos - 1 < s.published.length := (List.getElem?_eq_some_iff.mp hv).1
  have hpos := hT.pos_eq
  have hkept := h.kept
  have hnext : nextPos b { r with phase := .idle, received := r.received ++ [(l.pos, v)] } =
      l.pos + 1 := by
    rw [nextPos, List.length_append, List.length_singleton, heq, nextPos]
    omega
  refine ⟨?_, by omega, by omega, by omega, hnext.symm, fun e he => ?_⟩
  · have hat : (s.published.drop b)[(r.received.map Prod.snd).length]? = some v := by
      rw [List.getElem?_drop, List.length_map, ← hv, heq, nextPos]
      rfl
    rw [List.map_append, List.map_singleton, List.prefix_iff_eq_take, List.length_append,
      List.length_singleton, List.take_add_one, hat, Option.toList_some,
      ← List.prefix_iff_eq_take.mp h.received_pre]
  · rw [hnone] at he
    cases he

/-- `get_value`. -/
theorem Follows.get (h : Follows b s r l) (hT : Table s) (hp : r.phase = .toGet)
    (ht : r.type = .allValues) :
    Follows b s (s.receive r l (s.que.readReg l r.type)) l := by
  have hpos := hT.pos_eq
  have hnext := h.next_le
  have hkept := h.kept
  have hstands := h.stands
  rw [Stands, hp] at hstands
  have hnone : r.endInfo = none := by
    cases he : r.endInfo with
    | none => rfl
    | some e => exact absurd (h.ended e he).1 (by rw [hp]; decide)
  -- the end is reported for a reason
  have hend : EndRight s.que.limits.maxQueueLen b r.received.length
      ⟨l.kicked, s.que.closed, s.published.length⟩ → Follows b s (s.receive r l .ended) l := by
    intro hright
    refine ⟨h.received_pre, h.pos_le, hnext, hkept, trivial, fun e he => ?_⟩
    cases he
    exact ⟨rfl, hright⟩
  rw [ht]
  rcases hstands with hk | ⟨heq, hc⟩
  · have hread : s.que.readReg l .allValues = .ended := by
      rw [Queue.readReg, Queue.readIndex, if_pos (.inl hk)]
    rw [hread]
    exact hend (.inl hk)
  · rcases readReg_allValues hT (heq ▸ hnext) (by rw [heq, nextPos]; omega) with
      ⟨hread, hk | hlast | ⟨hlt, hfar⟩⟩ | ⟨v, hread, hv⟩
    · rw [hread]
      exact hend (.inl hk)
    · rw [hread]
      refine hend (.inr (.inl ⟨hc (heq ▸ hlast), ?_⟩))
      rw [heq, hpos, nextPos] at hlast
      simpa using hlast.symm
    · rw [hread]
      refine hend (.inr (.inr ?_))
      rw [nextPos] at heq hkept
      show s.que.limits.maxQueueLen < s.published.length - (b + r.received.length)
      omega
    · rw [hread]
      exact h.value hnone heq hT hv

/-- **One step**: every move of a subscriber keeps it following, as long as no
`advance_suspend_lk` finds the queue closed. -/
theorem Follows.move (h : Follows b s r l) (hT : Table s) (ht : r.type = .allValues)
    (hreg : s.reg p = some l) (hgood : SuspendsOpen p s a) (hm : Move s s' a p r l r' l') :
    Follows b s' r' l' := by
  cases hm with
  | other hst => exact h.still hst
  | pushed vals need hp hneed => exact h.pushed hp hneed
  | kicked hst => exact h.kicked hst
  | ready hst _ hp => exact (h.ready hp ht).still hst
  | subscribe hst ha hp =>
      subst ha
      exact (h.subscribe hp (hgood rfl l hreg)).still hst
  | get hst _ hp => exact (h.get hT hp ht).still hst
  | giveUp hst hp =>
      have hstands : l.pos + 1 = nextPos b r := by simpa [Stands, hp] using h.stands
      exact (h.go .idle (by rw [hp]; decide) h.pos_le hstands).still hst

/-- A subscriber that joins at the most recent position follows from the first value
published after that. -/
theorem Entered.follows {pos : Nat} {given : Bool} (he : Entered s s' p r pos given)
    (hT : Table s) (hb : r.base = some b) :
    Follows b s' r { pos := pos, sub := p, given := given } := by
  obtain ⟨hidle, hrec, hend⟩ := he.fresh
  obtain ⟨rfl, hpos⟩ := he.base b hb
  have hstream := hT.pos_eq
  rw [sizeSub_of_le (by omega)] at hpos
  have hnext : nextPos s.published.length r = s.que.pos := by
    rw [nextPos, hrec, List.length_nil]
    omega
  refine ⟨?_, ?_, ?_, ?_, ?_, fun e hE => ?_⟩
  · rw [hrec]
    exact List.nil_prefix
  · show pos ≤ nextPos _ r
    omega
  · exact Nat.le_of_eq (hnext.trans he.still.pos_eq.symm)
  · rw [hnext, he.still.pos_eq]
    omega
  · rw [Stands, hidle]
    show pos + 1 = nextPos _ r
    omega
  · rw [hend] at hE
    cases hE

/-- A subscriber in mode `all_values` follows the stream from where it joined. -/
def Following (s : Stream T) (r : Reader T) (l : SubReg) : Prop :=
  r.type = .allValues → ∀ b, r.base = some b → Follows b s r l

/-- Every step keeps the subscriber at address `p` following, as long as no
`advance_suspend_lk` of it finds the queue closed. -/
theorem following_step (hT : Table s) (hI : Holds Following p s) (hgood : SuspendsOpen p s a)
    (h : step s a = some s') : Holds Following p s' := by
  refine Holds.step hT (fun _ _ _ he _ _ b hb => he.follows hT hb) ?_ hI h
  intro r l r' l' hr hl _ hF hm ht b hb
  obtain ⟨htype, hbase⟩ := hm.type_base
  rw [htype] at ht
  rw [hbase] at hb
  exact (hF ht b hb).move hT ht (by rw [reg, hr]; exact hl) hgood hm

/-- **All-values delivery**: as long as no `advance_suspend_lk` of a subscriber finds the
queue closed, it receives the values published after it subscribed, without a gap or
a repetition, and is told the end only for a reason. -/
theorem deliversAll_exec (limits : Limits) (p : Nat) {as : List (Action T)}
    (h : Run.Meets step (SuspendsOpen p) (init limits) as) :
    DeliversAll p (Run.exec step (init limits) as) := by
  have hstep : ∀ (s : Stream T) a s', Table s ∧ Holds Following p s → SuspendsOpen p s a →
      step s a = some s' → Table s' ∧ Holds Following p s' :=
    fun s a s' hs hgood h => ⟨hs.1.step h, following_step hs.1 hs.2 hgood h⟩
  obtain ⟨hT, hI⟩ := Run.exec_inv_of_meets hstep
    ⟨table_init limits, fun r l hr => (by cases hr)⟩ h
  intro r b hr ht hb
  obtain ⟨l, hl, -⟩ := hT.slots p r hr
  exact (hI r l hr hl ht b hb).delivered hT

/-- The subscriber reads one value and finds no other; the queue is closed before it
subscribes, and is then open to one more `get_value`. -/
def closedTooSoon : List (Action Nat) :=
  [.join 0 .allValues .recent, .publish [7], .act 0 .ready, .act 0 .get, .act 0 .ready, .close,
    .act 0 .subscribe, .act 0 .get]

/-- Closing between `ready` and `subscribe` makes the subscriber receive the last value
twice. -/
theorem deliversAll_fails : ¬ DeliversAll 0 (Run.exec step (init {}) closedTooSoon) := by
  intro h
  have hpre : [7, 7] <+: [7] := (h _ 0 rfl rfl rfl).received_pre
  exact absurd hpre.length_le (by decide)

/-- The subscriber reads two values published at once and is suspended when the queue is
closed. -/
def closedInTime : List (Action Nat) :=
  [.join 0 .allValues .recent, .publish [7, 8], .act 0 .ready, .act 0 .get, .act 0 .ready,
    .act 0 .get, .act 0 .ready, .act 0 .subscribe, .close, .act 0 .get]

/-- A subscriber that is suspended when the queue is closed has received everything. -/
theorem deliversAll_closedInTime : DeliversAll 0 (Run.exec step (init {}) closedInTime) := by
  refine deliversAll_exec {} 0 ?_
  have hopen : (false = true) → ∀ l : SubReg, l.kicked = true := fun h => by cases h
  exact ⟨fun _ => trivial, fun _ => trivial, fun _ => trivial, fun _ => trivial, fun _ => trivial,
    fun _ => trivial, fun _ => trivial, fun _ _ l _ h => hopen h l, fun _ => trivial,
    fun _ => trivial, trivial⟩

example : ((Run.exec step (init {}) closedInTime).sub 0).map Reader.received =
    some [(1, 7), (2, 8)] := rfl

end Stream

end Publisher

end Cocls
