import Cocls.Publisher.Session

/-!
# Cocls.Publisher.FinalEnd

Calls of a subscriber after the end of the stream.

The end is not stored.  Every call moves the position on, and `get_value_lk`
decides anew: a kicked subscriber always gets the end; in mode `all_values` the
end is reported as long as the position is older than the queue or past the end
of a closed stream; in the other modes a position past the end is taken for one
that is behind, and an old value is delivered again.
-/

namespace Cocls

namespace Publisher

/-- The end is reported for good: the subscriber was kicked, it was left behind, or it
has read the closed queue out. -/
def Report.Final {T : Type*} : Report T → Prop
  | .ended .ahead => False
  | .ended _ => True
  | .notReady kicked => kicked = true
  | _ => False

instance {T : Type*} : DecidablePred (@Report.Final T)
  | .ended .ahead | .value _ | .held _ | .outside => .isFalse id
  | .ended .kicked | .ended .dropped | .ended .readOut => .isTrue trivial
  | .notReady kicked => inferInstanceAs (Decidable (kicked = true))

/-- The end, and no value. -/
def Report.IsEnd {T : Type*} : Report T → Prop
  | .ended _ | .notReady _ => True
  | _ => False

/-- The end was reported for good. -/
def Caller.Over {T : Type*} (c : Caller T) : Prop := ∃ rep ∈ c.reports, rep.Final

instance {T : Type*} (c : Caller T) : Decidable c.Over :=
  inferInstanceAs (Decidable (∃ rep ∈ c.reports, rep.Final))

/-- Position `n` is older than the queue, or past the end of a closed one.  (The
difference to the stream position does not wrap around.) -/
def Queue.BeyondReach {T : Type*} (q : Queue T) (n : Nat) : Prop :=
  n + q.q.length < q.pos ∨
    q.closed = true ∧ q.pos ≤ n ∧ n + q.q.length < q.pos + 0x10000000000000000

instance {T : Type*} (q : Queue T) (n : Nat) : Decidable (q.BeyondReach n) :=
  inferInstanceAs (Decidable (_ ∨ _))

namespace Session

variable {T : Type*} {s s' : Session T} {a : Action T} {p : Nat}

/-- Once subscriber `p` was told the end for good, it is told nothing else, and it does
not wait. -/
structure EndsForGood (p : Nat) (s : Session T) : Prop where
  later_end : (s.caller p).reports.Pairwise fun rep later => rep.Final → later.IsEnd
  never_waits : (s.caller p).Over → ∀ r, s.str.sub p = some r → r.phase ≠ .suspended

/-- Nothing is published after the queue was closed. -/
def NoneAfterClose (s : Session T) : Action T → Prop
  | .publish _ => s.str.que.closed = false
  | _ => True

instance (s : Session T) : DecidablePred (NoneAfterClose s)
  | .publish _ => inferInstanceAs (Decidable (s.str.que.closed = false))
  | .close | .kick _ | .join _ _ _ | .copy _ _ | .leave _ | .next _ _ | .go _ => .isTrue trivial

/-- A call that subscriber `p` makes after the end is made when it was kicked, and is not
converted to `bool` then; or in mode `all_values` when the next position is out of
reach. -/
def StaysEnded (p : Nat) (s : Session T) : Action T → Prop
  | .next q via => q = p → (s.caller p).Over → ∀ r ∈ s.str.sub p, ∀ l ∈ s.str.reg p,
      l.kicked = true ∧ via ≠ .blocking ∨
        l.kicked = false ∧ r.type = .allValues ∧ s.str.que.BeyondReach (s.str.que.succPos l)
  | _ => True

instance (p : Nat) (s : Session T) : DecidablePred (StaysEnded p s)
  | .next q via => inferInstanceAs (Decidable (q = p → (s.caller p).Over → ∀ r ∈ s.str.sub p,
      ∀ l ∈ s.str.reg p, l.kicked = true ∧ via ≠ .blocking ∨
        l.kicked = false ∧ r.type = .allValues ∧ s.str.que.BeyondReach (s.str.que.succPos l)))
  | .publish _ | .close | .kick _ | .join _ _ _ | .copy _ _ | .leave _ | .go _ => .isTrue trivial

/-! ## What a position out of reach gives -/

/-- No value is found at a position out of reach. -/
theorem readReg_beyondReach {q : Queue T} {l : SubReg} (h : q.BeyondReach l.pos) :
    q.readReg l .allValues = .ended := by
  have hnone : q.readIndex l .allValues = none := by
    unfold Queue.readIndex
    split_ifs with hend
    · rfl
    · have hlag : q.q.length ≤ sizeSub (sizeSub q.pos l.pos) 1 := by
        simp only [not_or] at hend
        unfold sizeSub
        rcases h with h | ⟨-, hle, hlt⟩ <;> split_ifs <;> omega
      exact if_pos hlag
  rw [Queue.readReg, hnone]

/-- A kicked subscriber finds no value. -/
theorem readReg_kicked {q : Queue T} {l : SubReg} {t : SubscribtionType} (h : l.kicked = true) :
    q.readReg l t = .ended := by
  rw [Queue.readReg, Queue.readIndex, if_pos (.inl h)]

/-- A position out of reach stays there when the queue moves on, or nothing is published
on a closed queue. -/
theorem BeyondReach.pushed {st st' : Stream T} {vals : List T} {need n : Nat}
    (h : st.que.BeyondReach n) (hp : Stream.Pushed st st' vals need)
    (hnone : st.que.closed = true → vals = []) : st'.que.BeyondReach n := by
  have hlen : st'.que.q.length ≤ vals.length + st.que.q.length := by
    rw [hp.q_eq, List.length_take, List.length_append, List.length_reverse]
    omega
  have hpos := hp.pos_eq
  rcases h with h | ⟨hc, hle, hlt⟩
  · left
    omega
  · have hvals := hnone hc
    subst hvals
    right
    simp only [List.length_nil] at hlen hpos
    exact ⟨hp.closed_of hc, by omega, by omega⟩

theorem BeyondReach.still {st st' : Stream T} {n : Nat} (h : st.que.BeyondReach n)
    (hst : Stream.Still st st') : st'.que.BeyondReach n := by
  unfold Queue.BeyondReach at h ⊢
  rw [hst.q_eq, hst.pos_eq, hst.closed_eq]
  exact h

/-! ## A call after the end -/

/-- Where a call stands that is made after the end. -/
def LateAt (c : Caller T) (st : Stream T) (r : Reader T) (l : SubReg) : Prop :=
  match r.phase with
  | .idle | .ended | .outside => True
  | .toSubscribe => l.kicked = true ∧ c.waited = false ∧ c.via ≠ .blocking
  | .suspended => False
  | .toGet => c.waited = false ∧
      (l.kicked = true ∨ r.type = .allValues ∧ st.que.BeyondReach l.pos)

theorem LateAt.still {c : Caller T} {st st' : Stream T} {r : Reader T} {l : SubReg}
    (h : LateAt c st r l) (hst : Stream.Still st st') : LateAt c st' r l := by
  unfold LateAt at h ⊢
  split at h
  · trivial
  · trivial
  · trivial
  · exact h
  · exact h
  · exact ⟨h.1, h.2.imp_right fun hreach => ⟨hreach.1, BeyondReach.still hreach.2 hst⟩⟩

/-- A call after the end that is woken up was not waiting. -/
theorem LateAt.woken {c : Caller T} {st st' : Stream T} {r : Reader T} {l l' : SubReg}
    (h : LateAt c st r l) (hk : l.kicked = true → l'.kicked = true) (hl : l'.pos = l.pos)
    (hreach : st.que.BeyondReach l.pos → st'.que.BeyondReach l.pos) : LateAt c st' r.woken l' := by
  have hp : r.phase ≠ .suspended := by
    intro hp
    rw [LateAt, hp] at h
    exact h
  rw [show r.woken = r from if_neg hp]
  unfold LateAt at h ⊢
  split at h
  · trivial
  · trivial
  · trivial
  · exact ⟨hk h.1, h.2⟩
  · exact h
  · rw [hl]
    exact ⟨h.1, h.2.imp hk fun ha => ⟨ha.1, hreach ha.2⟩⟩

/-- A step that is not one of the call. -/
theorem late_world {c : Caller T} {st st' : Stream T} {b : Stream.Action T}
    (hT : Stream.Table st) (hb : ∀ act, b = .act p act → act = .leave)
    (hnew : ∀ pos given, ¬ Stream.Origin st p b pos given)
    (hnone : st.que.closed = true → st'.published = st.published)
    (hI : Stream.Holds (LateAt c) p st) (h : st.step b = some st') :
    Stream.Holds (LateAt c) p st' := by
  refine Stream.Holds.step hT (fun _ pos given _ ho => absurd ho (hnew pos given))
    (fun r l r' l' _ _ _ hlate hm => ?_) hI h
  cases hm with
  | other hst => exact hlate.still hst
  | pushed vals need hp =>
      refine hlate.woken (fun hk => hk) rfl fun hreach => BeyondReach.pushed hreach hp fun hc => ?_
      have hsame := hnone hc
      rw [hp.published_eq] at hsame
      simpa using hsame
  | kicked hst => exact hlate.woken (fun _ => rfl) rfl fun hreach => BeyondReach.still hreach hst
  | ready hst ha => cases hb _ ha
  | subscribe hst ha => cases hb _ ha
  | get hst ha => cases hb _ ha
  | giveUp hst => trivial

/-- Where the calls of subscriber `p` after the end stand. -/
def Late (p : Nat) (s : Session T) : Prop :=
  (s.caller p).Over → Stream.Holds (LateAt (s.caller p)) p s.str

/-- Only publishing publishes. -/
theorem published_of_step {st st' : Stream T} {b : Stream.Action T}
    (hb : ∀ vals, b ≠ .publish vals) (h : st.step b = some st') :
    st'.published = st.published := by
  cases b with
  | publish vals => exact absurd rfl (hb vals)
  | close | kick =>
      simp only [Stream.step, Option.some.injEq] at h
      rw [← h]
  | join q type start =>
      simp only [Stream.step, Option.ite_none_left_eq_some] at h
      cases start <;> (rw [← Option.some.inj h.2]; rfl)
  | copy q r =>
      simp only [Stream.step, Option.ite_none_left_eq_some, Option.bind_eq_some_iff,
        Option.map_eq_some_iff] at h
      obtain ⟨-, o, -, res, -, rfl⟩ := h
      rfl
  | act q act =>
      obtain ⟨r, hr, h⟩ := Option.bind_eq_some_iff.mp h
      cases act <;> simp only [Stream.readerStep, Option.ite_none_right_eq_some,
        Option.map_eq_some_iff, Option.bind_eq_some_iff, Option.some.injEq] at h
      · obtain ⟨-, res, -, rfl⟩ := h
        rfl
      · obtain ⟨-, res, -, rfl⟩ := h
        rfl
      · obtain ⟨-, l, -, res, -, rfl⟩ := h
        rfl
      · obtain ⟨-, rfl⟩ := h
        rfl
      · obtain ⟨res, -, rfl⟩ := h
        rfl

/-! ## The steps of the call -/

/-- What holds of the subscriber that made a step. -/
theorem holds_own {I : Stream T → Reader T → SubReg → Prop} {st' : Stream T} {r' : Reader T}
    {l' : SubReg} (hr' : st'.sub p = some r') (hl' : st'.que.regs[r'.handle]? = some l')
    (hI : I st' r' l') : Stream.Holds I p st' := by
  intro r l hr hl
  rw [hr'] at hr
  cases hr
  rw [hl'] at hl
  cases hl
  exact hI

/-- The first `await_ready` of a call after the end. -/
theorem late_asked {c : Caller T} {st st' : Stream T} {r : Reader T} {l : SubReg} {via : Via}
    (hl : st.que.regs[r.handle]? = some l)
    (hgood : l.kicked = true ∧ via ≠ .blocking ∨
      l.kicked = false ∧ r.type = .allValues ∧ st.que.BeyondReach (st.que.succPos l))
    (h : (st.betweenCalls p r).step (.act p .ready) = some st') :
    Stream.Holds (LateAt { c with via := via, waited := false }) p st' := by
  obtain ⟨-, hst, hr', hl'⟩ := Stream.step_ready Stream.betweenCalls_self hl h
  refine holds_own hr' hl' ?_
  have hreach : ∀ n, (st.betweenCalls p r).que.BeyondReach n → st'.que.BeyondReach n :=
    fun n hn => BeyondReach.still hn hst
  rcases (st.betweenCalls p r).que.advanceReg_cases l r.type with
    ⟨hk, he⟩ | ⟨hat, hopen, he⟩ | ⟨hk, -, he⟩
  · rcases hgood with ⟨-, hvia⟩ | ⟨hk', -⟩
    · simp only [he, LateAt]
      exact ⟨hk, trivial, hvia⟩
    · rw [hk] at hk'
      cases hk'
  · rcases hgood with ⟨hk, hvia⟩ | ⟨-, -, hfar⟩
    · simp only [he, LateAt]
      exact ⟨hk, trivial, hvia⟩
    · -- a position out of reach is not the one of the next value
      have hpos : st.que.succPos l = st.que.pos := hat
      have hopen' : st.que.closed = false := hopen
      rcases hfar with hlt | ⟨hc, -, -⟩
      · omega
      · rw [hopen'] at hc
        cases hc
  · rcases hgood with ⟨hk', -⟩ | ⟨-, ht, hfar⟩
    · rw [hk] at hk'
      cases hk'
    · simp only [he, LateAt]
      refine ⟨trivial, .inr ⟨ht, ?_⟩⟩
      rw [ht]
      exact hreach _ hfar

/-- `advance_suspend_lk` of a kicked subscriber. -/
theorem late_subscribed {c : Caller T} {st st' : Stream T} {r : Reader T} {l : SubReg}
    (hr : st.sub p = some r) (hl : st.que.regs[r.handle]? = some l) (hlate : LateAt c st r l)
    (h : st.step (.act p .subscribe) = some st') : Stream.Holds (LateAt c) p st' := by
  obtain ⟨hp, hst, hr', hl'⟩ := Stream.step_subscribe hr hl h
  rw [LateAt, hp] at hlate
  obtain ⟨hk, hwaited, -⟩ := hlate
  have he : st.que.suspendReg l p = (l, false) := by
    rw [Queue.suspendReg, if_pos (.inl hk)]
  refine holds_own hr' hl' ?_
  simp only [he, LateAt]
  exact ⟨hwaited, .inl hk⟩

/-- A call after the end finds the end. -/
theorem late_got {r : Reader T} {l : SubReg} (hp : r.phase = .toGet)
    (hlate : LateAt (s.caller p) s.str r l) :
    (s.checkNext p l (s.str.que.readReg l r.type)).2.IsEnd := by
  rw [LateAt, hp] at hlate
  have hend : s.str.que.readReg l r.type = .ended := by
    rcases hlate.2 with hk | ⟨ht, hfar⟩
    · exact readReg_kicked hk
    · rw [ht]
      exact readReg_beyondReach hfar
  rw [hend]
  trivial

/-! ## Every run -/

/-- What every step after the end keeps: no step of the world or of another subscriber
touches the call, and the reports are those of before. -/
structure Following (p : Nat) (s : Session T) : Prop where
  table : Stream.Table s.str
  late : Late p s
  later_end : (s.caller p).reports.Pairwise fun rep later => rep.Final → later.IsEnd

/-- The caller is the same and the stream made a step that is not one of the call. -/
theorem Following.world {b : Stream.Action T} {st : Stream T} (hf : Following p s)
    (hT : Stream.Table st)
    (hst : ∀ c, Stream.Holds (LateAt c) p s.str → Stream.Holds (LateAt c) p st)
    (hb : ∀ act, b = .act p act → act = .leave)
    (hnew : ∀ pos given, ¬ Stream.Origin st p b pos given)
    (hnone : st.que.closed = true → s'.str.published = st.published)
    (hstr : st.step b = some s'.str) (hcaller : s'.caller p = s.caller p) : Following p s' := by
  refine ⟨hT.step hstr, fun hover => ?_, hcaller ▸ hf.later_end⟩
  rw [hcaller] at hover ⊢
  exact late_world hT hb hnew hnone (hst _ (hf.late hover)) hstr

/-- The call comes to its end with one more report. -/
theorem Following.report {val : Option T} {rep : Report T} {r : Reader T} (hf : Following p s)
    (hT : Stream.Table s'.str) (hr : s'.str.sub p = some r)
    (hphase : r.phase = .idle ∨ r.phase = .ended ∨ r.phase = .outside)
    (hcaller : s'.caller = Function.update s.caller p { s.caller p with
      val := val, reports := (s.caller p).reports ++ [rep] })
    (hrep : (s.caller p).Over → rep.IsEnd) : Following p s' := by
  refine ⟨hT, fun _ r' l hr' _ => ?_, ?_⟩
  · rw [hr] at hr'
    cases hr'
    unfold LateAt
    rcases hphase with hp | hp | hp <;> rw [hp] <;> trivial
  · rw [hcaller, Function.update_self]
    refine List.pairwise_append.mpr ⟨hf.later_end, List.pairwise_singleton _ _, ?_⟩
    intro x hx y hy hfinal
    rw [List.mem_singleton.mp hy]
    exact hrep ⟨x, hx, hfinal⟩

/-- A step of the call of another subscriber. -/
theorem Following.other {q : Nat} {act : Stream.ReaderAct} {st : Stream T} (hf : Following p s)
    (hq : p ≠ q) (hT : Stream.Table st)
    (hst : ∀ c, Stream.Holds (LateAt c) p s.str → Stream.Holds (LateAt c) p st)
    (hstr : st.step (.act q act) = some s'.str) {c : Caller T}
    (hcaller : s'.caller = Function.update s.caller q c) : Following p s' := by
  refine hf.world hT hst (fun act hb => ?_) (fun _ _ ho => by cases ho)
    (fun _ => published_of_step (by simp) hstr) hstr (by rw [hcaller, Function.update_of_ne hq])
  cases hb
  exact absurd rfl hq

/-- **Step lemma.** -/
theorem Following.step (hf : Following p s) (hgood : NoneAfterClose s a ∧ StaysEnded p s a)
    (h : s.step a = some s') : Following p s' := by
  have hbetween : ∀ q r, s.str.sub q = some r → ∀ c, Stream.Holds (LateAt c) p s.str →
      Stream.Holds (LateAt c) p (s.str.betweenCalls q r) :=
    fun q r hr c hI => Stream.Holds.betweenCalls hr (fun _ _ hl => hl) (fun _ _ => trivial) hI
  cases step_effect h with
  | world b ha hstr hcaller =>
      by_cases hp : a.newcomer = some p
      · have hfresh : s'.caller p = {} := by rw [hcaller, if_pos hp]
        refine ⟨hf.table.step hstr, fun hover => ?_, by rw [hfresh]; exact .nil⟩
        rw [hfresh] at hover
        obtain ⟨rep, hmem, -⟩ := hover
        cases hmem
      · refine hf.world hf.table (fun c hI => hI) (fun act hb => ?_) (fun pos given ho => ?_)
          (fun hc => ?_) hstr (by rw [hcaller, if_neg hp])
        · subst hb
          cases a <;> simp_all [Action.world]
        · cases ho <;> cases a <;> simp_all [Action.world, Action.newcomer]
        · refine published_of_step (fun vals hb => ?_) hstr
          subst hb
          cases a <;> simp_all [Action.world, NoneAfterClose]
  | asked q via r hr hphase hstr hcaller =>
      have hns : r.phase ≠ .suspended := by rcases hphase with hp | hp <;> simp [hp]
      have hT := hf.table.betweenCalls hr hns
      by_cases hq : p = q
      · subst hq
        obtain ⟨l, hl, -⟩ := hf.table.slots p r hr
        have hc : s'.caller p = { s.caller p with via := via, waited := false } := by
          rw [hcaller, Function.update_self]
        refine ⟨hT.step hstr, fun hover => ?_, by rw [hc]; exact hf.later_end⟩
        rw [hc] at hover ⊢
        refine late_asked hl (hgood.2 rfl hover r hr l ?_) hstr
        rw [Stream.reg, hr]
        exact hl
      · exact hf.other hq hT (hbetween q r hr) hstr hcaller
  | askedAgain q r hr hphase hvia hwaited hstr hcaller =>
      have hT := hf.table.betweenCalls hr (by simp [hphase])
      by_cases hq : p = q
      · -- a call after the end that is converted to `bool` finds the end at once
        subst hq
        obtain ⟨l, hl, -⟩ := hf.table.slots p r hr
        refine ⟨hT.step hstr, fun hover => ?_, ?_⟩
        · have hover' : (s.caller p).Over := by
            rw [hcaller, Function.update_self] at hover
            exact hover
          have hlate := hf.late hover' r l hr hl
          rw [LateAt, hphase] at hlate
          exact absurd hvia hlate.2.2
        · rw [hcaller, Function.update_self]
          exact hf.later_end
      · exact hf.other hq hT (hbetween q r hr) hstr hcaller
  | missed q r l hr hl hphase hvia hstr hcaller =>
      by_cases hq : p = q
      · subst hq
        refine hf.report (hf.table.step hstr) (r := { r with phase := .idle }) ?_ (.inl rfl)
          hcaller (fun _ => trivial)
        simp only [Stream.step, hr, Option.bind_some, Stream.readerStep,
          Option.ite_none_right_eq_some, Option.some.injEq] at hstr
        rw [← hstr.2]
        exact Function.update_self ..
      · exact hf.other hq hf.table (fun _ hI => hI) hstr hcaller
  | subscribed q r hr hphase hvia hwaited hstr hcaller =>
      by_cases hq : p = q
      · subst hq
        obtain ⟨l, hl, -⟩ := hf.table.slots p r hr
        refine ⟨hf.table.step hstr, fun hover => ?_, hcaller ▸ hf.later_end⟩
        rw [hcaller] at hover ⊢
        exact late_subscribed hr hl (hf.late hover r l hr hl) hstr
      · exact hf.other hq hf.table (fun _ hI => hI) hstr
          (by rw [hcaller, Function.update_eq_self])
  | held q r hr hphase hwaited hstr hcaller =>
      have hT : Stream.Table s'.str := hstr ▸ hf.table.betweenCalls hr (by simp [hphase])
      by_cases hq : p = q
      · subst hq
        refine hf.report hT (r := { r with phase := .idle }) ?_ (.inl rfl) hcaller fun hover => ?_
        · rw [hstr]
          exact Stream.betweenCalls_self
        · obtain ⟨l, hl, -⟩ := hf.table.slots p r hr
          have hlate := hf.late hover r l hr hl
          rw [LateAt, hphase, hwaited] at hlate
          cases hlate.1
      · have hsame : s'.caller p = s.caller p := by rw [hcaller, Function.update_of_ne hq]
        refine ⟨hT, fun hover => ?_, hsame ▸ hf.later_end⟩
        rw [hsame] at hover ⊢
        rw [hstr]
        exact hbetween q r hr _ (hf.late hover)
  | got q r l hr hl hphase hwaited hstr hcaller =>
      by_cases hq : p = q
      · subst hq
        obtain ⟨-, -, hr'⟩ := Stream.step_get hr hl hstr
        refine hf.report (hf.table.step hstr) hr' ?_ hcaller fun hover => ?_
        · unfold Stream.receive
          split <;> simp
        · exact late_got hphase (hf.late hover r l hr hl)
      · exact hf.other hq hf.table (fun _ hI => hI) hstr hcaller

/-- **The end of the stream is final**: in every run in which nothing is published after
the queue was closed, and in which a subscriber that was told the end calls again only
while it `StaysEnded`, it is told the end again and never waits. -/
theorem endsForGood_exec (limits : Limits) (p : Nat) {as : List (Action T)}
    (h : Run.Meets step (fun s a => NoneAfterClose s a ∧ StaysEnded p s a) (init limits) as) :
    EndsForGood p (Run.exec step (init limits) as) := by
  have hstep : ∀ (s : Session T) a s', Following p s → (NoneAfterClose s a ∧ StaysEnded p s a) →
      s.step a = some s' → Following p s' := fun _ _ _ hf hgood h => hf.step hgood h
  have hinit : Following p (init (T := T) limits) :=
    ⟨Stream.table_init limits, fun _ r l hr => (by cases hr), .nil⟩
  have hf := Run.exec_inv_of_meets hstep hinit h
  refine ⟨hf.later_end, fun hover r hr hp => ?_⟩
  obtain ⟨l, hl, -⟩ := hf.table.slots p r hr
  have hlate := hf.late hover r l hr hl
  rw [LateAt, hp] at hlate
  exact hlate

/-- A subscriber that takes the newest value reads the closed queue out, and asks once
more. -/
def askedOnceMore : List (Action Nat) :=
  [.join 0 .skipToRecent .recent, .publish [5], .next 0 .coAwait, .go 0, .close,
    .next 0 .coAwait, .go 0, .next 0 .coAwait, .go 0]

/-- The value is delivered again after the end. -/
theorem endsForGood_fails : ¬ ∀ (limits : Limits) p (as : List (Action Nat)),
    Run.Meets step NoneAfterClose (init limits) as →
      EndsForGood p (Run.exec step (init limits) as) := by
  intro h
  have hall := (h {} 0 askedOnceMore (by decide)).later_end
  have hreports : ((Run.exec step (init {}) askedOnceMore).caller 0).reports =
      [.value 5, .ended .readOut, .value 5] := by decide
  rw [hreports] at hall
  simp [Report.Final, Report.IsEnd] at hall

/-- A subscriber at the last `size_t` comes to the stream with its first call. -/
example : ((Run.exec step (init {}) [.join 0 .skipToRecent (.at 0xFFFFFFFFFFFFFFFF),
    .publish [7], .close, .next 0 .coAwait, .go 0, .next 0 .coAwait, .go 0,
    .next 0 .coAwait, .go 0]).caller 0).reports =
    [Report.value 7, .ended .readOut, .value 7] := by decide

/-- A subscriber that was left behind catches up with the queue by asking again. -/
example : ((Run.exec step (init ⟨1, 1, by decide, by decide⟩) [.join 0 .allValues .recent,
    .publish [5, 6], .next 0 .coAwait, .go 0, .next 0 .coAwait, .go 0]).caller 0).reports =
    [Report.ended .dropped, .value 6] := by decide

/-- A subscriber reads a closed queue out and goes on asking; then it is kicked. -/
def askedOnAndOn : List (Action Nat) :=
  [.join 0 .allValues .recent, .publish [5], .next 0 .coAwait, .go 0, .close,
    .next 0 .coAwait, .go 0, .next 0 .blocking, .go 0, .kick 0, .next 0 .poll, .go 0,
    .next 0 .coAwait, .go 0, .go 0]

theorem endsForGood_askedOnAndOn : EndsForGood 0 (Run.exec step (init {}) askedOnAndOn) :=
  endsForGood_exec {} 0 (by decide)

end Session

end Publisher

end Cocls
