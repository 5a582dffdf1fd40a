import Cocls.Publisher.Table

/-!
# Cocls.Publisher.Session

The calls that the subscribers of a publisher make.

A subscriber asks for its next value in three ways: `co_await next()`, the
conversion of `next()` to `bool`, and `next_ready()`.  The first and the last go
through `next_awt`; a conversion to `bool` that finds nothing ready goes on in
`co_awaiter::wait`, which asks once more, waits, and returns `value()`.

A subscriber may call again after the end of the stream was reported.  What a
call does to the queue is what `Stream.step` does; the module keeps what the
subscriber makes of it: the current value and what each call reported.
-/

namespace Cocls

namespace Publisher

/-- The ways to ask for the next value. -/
inductive Via where
  /-- `co_await next()` -/
  | coAwait
  /-- `next()` converted to `bool` -/
  | blocking
  /-- `next_ready()` -/
  | poll
deriving DecidableEq, Repr

/-- Why `get_value_lk` finds no value. -/
inductive Cause where
  | kicked
  /-- the next value to read is no longer in the queue -/
  | dropped
  /-- the queue is closed and read out -/
  | readOut
  /-- the subscriber is ahead of the publisher -/
  | ahead
deriving DecidableEq, Repr

/-- What one call came to. -/
inductive Report (T : Type*) where
  | value (v : T)
  | ended (cause : Cause)
  /-- `next_ready()` found nothing; whether the subscriber was kicked -/
  | notReady (kicked : Bool)
  /-- `wait()` returned `value()`, which held this -/
  | held (v : Option T)
  /-- a read outside the queue -/
  | outside
deriving DecidableEq, Repr

/-- The calls of one subscriber: how the last one was made, whether it entered `wait()`,
`_val`, and what the calls reported. -/
structure Caller (T : Type*) where
  via : Via := .coAwait
  waited : Bool := false
  val : Option T := none
  reports : List (Report T) := []

/-- A publisher, its subscribers, and their calls. -/
structure Session (T : Type*) where
  str : Stream T := {}
  caller : Nat → Caller T := fun _ => {}

/-- Why the end is reported on the registration `l`. -/
def Queue.cause {T : Type*} (s : Queue T) (l : SubReg) : Cause :=
  if l.kicked then .kicked
  else if l.pos < s.pos then .dropped
  else if s.closed then .readOut
  else .ahead

namespace Stream

variable {T : Type*}

/-- Subscriber `p` is between two calls. -/
def betweenCalls (s : Stream T) (p : Nat) (r : Reader T) : Stream T :=
  s.setReader p s.que { r with phase := .idle }

end Stream

namespace Session

variable {T : Type*}

inductive Action (T : Type*) where
  | publish (vals : List T)
  | close
  | kick (p : Nat)
  | join (p : Nat) (type : SubscribtionType) (start : Stream.Start)
  | copy (p r : Nat)
  | leave (p : Nat)
  /-- subscriber `p` starts a call: `await_ready` -/
  | next (p : Nat) (via : Via)
  /-- the call of subscriber `p` goes on -/
  | go (p : Nat)

def setCaller (s : Session T) (p : Nat) (c : Caller T) : Session T :=
  { s with caller := Function.update s.caller p c }

/-- A step of the queue and the subscribers. -/
def onStream (s : Session T) (a : Stream.Action T) : Option (Session T) :=
  (s.str.step a).map fun str => { s with str := str }

/-- Subscriber `p` is between two calls. -/
def betweenCalls (s : Session T) (p : Nat) (r : Reader T) : Session T :=
  { s with str := s.str.betweenCalls p r }

/-- The call of subscriber `p` comes to `rep`. -/
def report (s : Session T) (p : Nat) (val : Option T) (rep : Report T) : Session T :=
  s.setCaller p { s.caller p with val := val, reports := (s.caller p).reports ++ [rep] }

/-- `check_next`: the current value after it, and what the call reports. -/
def checkNext (s : Session T) (p : Nat) (l : SubReg) : Queue.Read T → Option T × Report T
  | .value _ v => (some v, .value v)
  | .ended => (none, .ended (s.str.que.cause l))
  | .outside => ((s.caller p).val, .outside)

/-- The call of subscriber `p` goes on. -/
def goOn (s : Session T) (p : Nat) (r : Reader T) : Option (Session T) :=
  match r.phase with
  | .toSubscribe =>
      match (s.caller p).via, (s.caller p).waited with
      -- `next_ready()` returns `false`
      | .poll, _ =>
          (s.str.que.regs[r.handle]?).bind fun l =>
            (s.onStream (.act p .giveUp)).map fun s' =>
              s'.report p (s.caller p).val (.notReady l.kicked)
      -- `sync()` asks again
      | .blocking, false =>
          ((s.betweenCalls p r).onStream (.act p .ready)).map fun s' =>
            s'.setCaller p { s.caller p with waited := true }
      | _, _ => s.onStream (.act p .subscribe)
  | .toGet =>
      if (s.caller p).waited then
        -- `await_resume` of `co_awaiter`, which `wait()` calls
        some ((s.betweenCalls p r).report p (s.caller p).val (.held (s.caller p).val))
      else
        -- `await_resume` of `next_awt`
        (s.str.que.regs[r.handle]?).bind fun l =>
          let res := s.checkNext p l (s.str.que.readReg l r.type)
          (s.onStream (.act p .get)).map fun s' => s'.report p res.1 res.2
  | _ => none

/-- One step. -/
def step (s : Session T) : Action T → Option (Session T)
  | .publish vals => s.onStream (.publish vals)
  | .close => s.onStream .close
  | .kick p => s.onStream (.kick p)
  | .join p type start => (s.onStream (.join p type start)).map fun s' => s'.setCaller p {}
  | .copy p r => (s.onStream (.copy p r)).map fun s' => s'.setCaller p {}
  | .leave p => s.onStream (.act p .leave)
  | .next p via => (s.str.sub p).bind fun r =>
      if r.phase = .idle ∨ r.phase = .ended then
        ((s.betweenCalls p r).onStream (.act p .ready)).map fun s' =>
          s'.setCaller p { s.caller p with via := via, waited := false }
      else none
  | .go p => (s.str.sub p).bind fun r => s.goOn p r

/-- The initial state of a publisher with the given limits. -/
def init (limits : Limits) : Session T := { str := Stream.init limits }

/-! ## Waiting and waking up -/

/-- Subscriber `p` is suspended in its call. -/
def Waiting (s : Session T) (p : Nat) : Prop := ∃ r ∈ s.str.sub p, r.phase = .suspended

instance (s : Session T) (p : Nat) : Decidable (s.Waiting p) :=
  inferInstanceAs (Decidable (∃ r ∈ s.str.sub p, r.phase = .suspended))

/-- An action that is none of subscriber `p`. -/
def Foreign (p : Nat) : Action T → Prop
  | .join q _ _ | .copy q _ | .leave q | .next q _ | .go q => q ≠ p
  | .publish _ | .close | .kick _ => True

/-- An action that wakes subscriber `p` up. -/
def Wakes (p : Nat) : Action T → Prop
  | .publish vals => vals ≠ []
  | .close => True
  | .kick q => q = p
  | _ => False

instance (p : Nat) : (a : Action T) → Decidable (Wakes p a)
  | .publish vals => inferInstanceAs (Decidable (vals ≠ []))
  | .close => .isTrue trivial
  | .kick q => inferInstanceAs (Decidable (q = p))
  | .join _ _ _ | .copy _ _ | .leave _ | .next _ _ | .go _ => .isFalse id

/-! ## What each step does -/

variable {s s' : Session T} {a : Action T} {p : Nat}

@[simp] theorem setCaller_str (c : Caller T) : (s.setCaller p c).str = s.str := rfl

@[simp] theorem setCaller_self (c : Caller T) : (s.setCaller p c).caller p = c :=
  Function.update_self ..

theorem setCaller_of_ne {q : Nat} (h : q ≠ p) (c : Caller T) :
    (s.setCaller p c).caller q = s.caller q :=
  Function.update_of_ne h ..

@[simp] theorem betweenCalls_caller (r : Reader T) : (s.betweenCalls p r).caller = s.caller := rfl

theorem onStream_eq_some {b : Stream.Action T} :
    s.onStream b = some s' ↔ s.str.step b = some s'.str ∧ s'.caller = s.caller := by
  rw [onStream, Option.map_eq_some_iff]
  constructor
  · rintro ⟨str, hstr, rfl⟩
    exact ⟨hstr, rfl⟩
  · rintro ⟨hstr, hc⟩
    refine ⟨s'.str, hstr, ?_⟩
    rw [← hc]

/-- The action of the queue and the subscribers behind an action that is no part of a
call. -/
def Action.world : Action T → Option (Stream.Action T)
  | .publish vals => some (.publish vals)
  | .close => some .close
  | .kick p => some (.kick p)
  | .join p type start => some (.join p type start)
  | .copy p r => some (.copy p r)
  | .leave p => some (.act p .leave)
  | .next _ _ | .go _ => none

/-- The subscriber that an action constructs. -/
def Action.newcomer : Action T → Option Nat
  | .join p _ _ | .copy p _ => some p
  | _ => none

/-- What a step does: to the queue and the subscribers, and to the calls. -/
inductive Effect (s s' : Session T) : Action T → Prop
  | world {a : Action T} (b : Stream.Action T) (ha : a.world = some b)
      (hstr : s.str.step b = some s'.str)
      (hcaller : ∀ q, s'.caller q = if a.newcomer = some q then {} else s.caller q) : Effect s s' a
  /-- the first `await_ready` of a call -/
  | asked (p : Nat) (via : Via) (r : Reader T) (hr : s.str.sub p = some r)
      (hphase : r.phase = .idle ∨ r.phase = .ended)
      (hstr : (s.str.betweenCalls p r).step (.act p .ready) = some s'.str)
      (hcaller : s'.caller =
        Function.update s.caller p { s.caller p with via := via, waited := false }) :
      Effect s s' (.next p via)
  /-- the second one, of `sync()` -/
  | askedAgain (p : Nat) (r : Reader T) (hr : s.str.sub p = some r)
      (hphase : r.phase = .toSubscribe) (hvia : (s.caller p).via = .blocking)
      (hwaited : (s.caller p).waited = false)
      (hstr : (s.str.betweenCalls p r).step (.act p .ready) = some s'.str)
      (hcaller : s'.caller = Function.update s.caller p { s.caller p with waited := true }) :
      Effect s s' (.go p)
  | missed (p : Nat) (r : Reader T) (l : SubReg) (hr : s.str.sub p = some r)
      (hl : s.str.que.regs[r.handle]? = some l) (hphase : r.phase = .toSubscribe)
      (hvia : (s.caller p).via = .poll) (hstr : s.str.step (.act p .giveUp) = some s'.str)
      (hcaller : s'.caller = Function.update s.caller p { s.caller p with
        reports := (s.caller p).reports ++ [.notReady l.kicked] }) :
      Effect s s' (.go p)
  | subscribed (p : Nat) (r : Reader T) (hr : s.str.sub p = some r)
      (hphase : r.phase = .toSubscribe) (hvia : (s.caller p).via ≠ .poll)
      (hwaited : (s.caller p).via = .blocking → (s.caller p).waited = true)
      (hstr : s.str.step (.act p .subscribe) = some s'.str) (hcaller : s'.caller = s.caller) :
      Effect s s' (.go p)
  /-- `value()` is returned -/
  | held (p : Nat) (r : Reader T) (hr : s.str.sub p = some r) (hphase : r.phase = .toGet)
      (hwaited : (s.caller p).waited = true) (hstr : s'.str = s.str.betweenCalls p r)
      (hcaller : s'.caller = Function.update s.caller p { s.caller p with
        reports := (s.caller p).reports ++ [.held (s.caller p).val] }) :
      Effect s s' (.go p)
  | got (p : Nat) (r : Reader T) (l : SubReg) (hr : s.str.sub p = some r)
      (hl : s.str.que.regs[r.handle]? = some l) (hphase : r.phase = .toGet)
      (hwaited : (s.caller p).waited = false) (hstr : s.str.step (.act p .get) = some s'.str)
      (hcaller : s'.caller = Function.update s.caller p { s.caller p with
        val := (s.checkNext p l (s.str.que.readReg l r.type)).1
        reports := (s.caller p).reports ++ [(s.checkNext p l (s.str.que.readReg l r.type)).2] }) :
      Effect s s' (.go p)

/-- What a further step of a call does. -/
theorem goOn_effect {r : Reader T} (hr : s.str.sub p = some r) (h : s.goOn p r = some s') :
    Effect s s' (.go p) := by
  unfold goOn at h
  split at h
  · next hphase =>
    split at h
    · next hvia =>
      obtain ⟨l, hl, h⟩ := Option.bind_eq_some_iff.mp h
      obtain ⟨s₁, hs₁, rfl⟩ := Option.map_eq_some_iff.mp h
      obtain ⟨hstr, hc⟩ := onStream_eq_some.mp hs₁
      refine .missed p r l hr hl hphase hvia hstr ?_
      rw [report, setCaller, hc]
    · next hvia hwaited =>
      obtain ⟨s₁, hs₁, rfl⟩ := Option.map_eq_some_iff.mp h
      obtain ⟨hstr, hc⟩ := onStream_eq_some.mp hs₁
      refine .askedAgain p r hr hphase hvia hwaited hstr ?_
      rw [setCaller, hc, betweenCalls_caller]
    · next hpoll hblocking =>
      obtain ⟨hstr, hc⟩ := onStream_eq_some.mp h
      refine .subscribed p r hr hphase hpoll (fun hvia => ?_) hstr hc
      by_contra hwaited
      exact hblocking hvia (by simpa using hwaited)
  · next hphase =>
    split at h
    · next hwaited =>
      obtain rfl := Option.some.inj h
      exact .held p r hr hphase hwaited rfl rfl
    · next hwaited =>
      obtain ⟨l, hl, h⟩ := Option.bind_eq_some_iff.mp h
      obtain ⟨s₁, hs₁, rfl⟩ := Option.map_eq_some_iff.mp h
      obtain ⟨hstr, hc⟩ := onStream_eq_some.mp hs₁
      refine .got p r l hr hl hphase (by simpa using hwaited) hstr ?_
      rw [report, setCaller, hc]
  · cases h

/-- What a step does. -/
theorem step_effect (h : s.step a = some s') : Effect s s' a := by
  have hworld : ∀ b : Stream.Action T, a.world = some b → a.newcomer = none →
      s.onStream b = some s' → Effect s s' a := by
    intro b hb hnew h
    obtain ⟨hstr, hc⟩ := onStream_eq_some.mp h
    exact .world b hb hstr fun q => by rw [hnew, if_neg (by simp), hc]
  have hnew : ∀ (b : Stream.Action T) q, a.world = some b → a.newcomer = some q →
      ((s.onStream b).map fun s' => s'.setCaller q {}) = some s' → Effect s s' a := by
    intro b q hb hnew h
    obtain ⟨s₁, hs₁, rfl⟩ := Option.map_eq_some_iff.mp h
    obtain ⟨hstr, hc⟩ := onStream_eq_some.mp hs₁
    refine .world b hb hstr fun q' => ?_
    rw [hnew]
    by_cases hq : q' = q
    · rw [hq, setCaller_self, if_pos rfl]
    · rw [setCaller_of_ne hq, hc, if_neg fun h => hq (Option.some.inj h).symm]
  cases a with
  | publish | close | kick | leave => exact hworld _ rfl rfl h
  | join | copy => exact hnew _ _ rfl rfl h
  | next p via =>
      obtain ⟨r, hr, h⟩ := Option.bind_eq_some_iff.mp h
      obtain ⟨hphase, h⟩ := Option.ite_none_right_eq_some.mp h
      obtain ⟨s₁, hs₁, rfl⟩ := Option.map_eq_some_iff.mp h
      obtain ⟨hstr, hc⟩ := onStream_eq_some.mp hs₁
      refine .asked p via r hr hphase hstr ?_
      rw [setCaller, hc, betweenCalls_caller]
  | go p =>
      obtain ⟨r, hr, h⟩ := Option.bind_eq_some_iff.mp h
      exact goOn_effect hr h

/-! ## What the queue and the subscribers keep -/

/-- **The rule for properties of the queue and the subscribers**: what a step of them
keeps, and a subscriber between two calls, holds after every step. -/
theorem Effect.inv {I : Stream T → Prop} (h : Effect s s' a)
    (hstep : ∀ (st st' : Stream T) b, (a.world = some b ∨ ∃ q act, act ≠ .leave ∧ b = .act q act) →
      I st → st.step b = some st' → I st')
    (hbetween : ∀ (st : Stream T) q r, st.sub q = some r → r.phase ≠ .suspended →
      I st → I (st.betweenCalls q r))
    (hI : I s.str) : I s'.str := by
  have hown : ∀ q act, act ≠ .leave →
      a.world = some (.act q act) ∨ ∃ q' act', act' ≠ .leave ∧
        (.act q act : Stream.Action T) = .act q' act' := fun q act h => .inr ⟨q, act, h, rfl⟩
  cases h with
  | world b ha hstr => exact hstep _ _ b (.inl ha) hI hstr
  | asked q via r hr hphase hstr =>
      refine hstep _ _ _ (hown q .ready (by simp)) (hbetween _ q r hr ?_ hI) hstr
      rcases hphase with hp | hp <;> simp [hp]
  | askedAgain q r hr hphase hvia hwaited hstr =>
      exact hstep _ _ _ (hown q .ready (by simp)) (hbetween _ q r hr (by simp [hphase]) hI) hstr
  | missed q r l hr hl hphase hvia hstr =>
      exact hstep _ _ _ (hown q .giveUp (by simp)) hI hstr
  | subscribed q r hr hphase hvia hwaited hstr =>
      exact hstep _ _ _ (hown q .subscribe (by simp)) hI hstr
  | held q r hr hphase hwaited hstr =>
      rw [hstr]
      exact hbetween _ q r hr (by simp [hphase]) hI
  | got q r l hr hl hphase hwaited hstr => exact hstep _ _ _ (hown q .get (by simp)) hI hstr

end Session

namespace Stream

variable {T : Type*} {s : Stream T} {p : Nat} {r : Reader T}

theorem betweenCalls_sub : (s.betweenCalls p r).sub =
    Function.update s.sub p (some { r with phase := .idle }) := rfl

theorem betweenCalls_self : (s.betweenCalls p r).sub p = some { r with phase := .idle } :=
  Function.update_self ..

/-- A subscriber between two calls keeps its registration. -/
theorem betweenCalls_slot {q : Nat} {r' : Reader T} (hr : s.sub p = some r)
    (hq : (s.betweenCalls p r).sub q = some r') :
    ∃ r₀, s.sub q = some r₀ ∧ r'.handle = r₀.handle ∧
      (q = p ∧ r₀ = r ∧ r' = { r with phase := .idle } ∨ q ≠ p ∧ r' = r₀) := by
  rw [betweenCalls_sub] at hq
  by_cases hp : q = p
  · subst hp
    rw [Function.update_self] at hq
    cases hq
    exact ⟨r, hr, rfl, .inl ⟨rfl, rfl, rfl⟩⟩
  · rw [Function.update_of_ne hp] at hq
    exact ⟨r', hq, rfl, .inr ⟨hp, rfl⟩⟩

/-- A subscriber between two calls keeps the table. -/
theorem Table.betweenCalls (hT : Table s) (hr : s.sub p = some r) (hp : r.phase ≠ .suspended) :
    Table (s.betweenCalls p r) := by
  refine ⟨fun q r' hq => ?_, fun h l hl hu => ?_, hT.free, hT.pos_eq, hT.q_eq⟩
  · obtain ⟨r₀, hr₀, hh, hcase⟩ := betweenCalls_slot hr hq
    obtain ⟨l, hl, hs⟩ := hT.slots q r₀ hr₀
    refine ⟨l, hh ▸ hl, hs.used, hs.sub_eq, ?_⟩
    rcases hcase with ⟨-, rfl, rfl⟩ | ⟨-, rfl⟩
    · rw [hs.awt_eq, if_neg hp, if_neg (by simp)]
    · exact hs.awt_eq
  · obtain ⟨r₀, hr₀, hh⟩ := hT.owned h l hl hu
    by_cases hq : l.sub = p
    · rw [hq, hr] at hr₀
      cases hr₀
      refine ⟨{ r with phase := .idle }, ?_, hh⟩
      rw [betweenCalls_sub, hq, Function.update_self]
    · exact ⟨r₀, by rw [betweenCalls_sub, Function.update_of_ne hq, hr₀], hh⟩

/-- What holds of the subscriber at address `q` when one is between two calls. -/
theorem Holds.betweenCalls {I : Stream T → Reader T → SubReg → Prop} {q : Nat}
    (hr : s.sub p = some r) (hother : ∀ r' l, I s r' l → I (s.betweenCalls p r) r' l)
    (hidle : ∀ l, I s r l → I (s.betweenCalls p r) { r with phase := .idle } l)
    (hI : Holds I q s) : Holds I q (s.betweenCalls p r) := by
  intro r' l hq hl
  obtain ⟨r₀, hr₀, hh, ⟨-, rfl, rfl⟩ | ⟨-, rfl⟩⟩ := betweenCalls_slot hr hq
  · exact hidle l (hI r₀ l hr₀ hl)
  · exact hother r' l (hI r' l hr₀ hl)

/-! ## Waiting -/

/-- A suspended subscriber is at the position of the next value, and nothing can have
woken it up yet. -/
def Waits (s : Stream T) (r : Reader T) (l : SubReg) : Prop :=
  r.phase = .suspended → l.pos = s.que.pos ∧ l.kicked = false ∧ s.que.closed = false

theorem woken_not_suspended (r : Reader T) : r.woken.phase ≠ .suspended := by
  rw [Reader.woken_phase]
  split
  · simp
  · assumption

/-- A subscriber waits as `Waits` says after every move. -/
theorem Waits.move {s' : Stream T} {a : Action T} {r' : Reader T} {l l' : SubReg}
    (hw : Waits s r l) (hm : Move s s' a p r l r' l') : Waits s' r' l' := by
  intro hp
  cases hm with
  | other h =>
      rw [h.pos_eq, h.closed_eq]
      exact hw hp
  | pushed | kicked => exact absurd hp (woken_not_suspended r)
  | ready =>
      revert hp
      simp only
      split <;> simp
  | subscribe h =>
      rw [h.pos_eq, h.closed_eq]
      rcases s.que.suspendReg_cases l p with ⟨-, he⟩ | ⟨hk, hc, hat, he⟩ | ⟨-, -, -, he⟩
      · simp [he] at hp
      · rw [he]
        exact ⟨hat, hk, hc⟩
      · simp [he] at hp
  | get =>
      revert hp
      unfold receive
      split <;> simp
  | giveUp => cases hp

/-- A step keeps `Waits`. -/
theorem waits_step {s' : Stream T} {a : Action T} (hT : Table s) (hw : ∀ q, Holds Waits q s)
    (h : s.step a = some s') (q : Nat) : Holds Waits q s' := by
  refine Holds.step hT (fun r _ _ he _ hp => ?_) (fun r l r' l' _ _ _ hw hm => hw.move hm) (hw q) h
  rw [he.fresh.1] at hp
  cases hp

/-- A subscriber between two calls keeps `Waits`. -/
theorem waits_betweenCalls (hr : s.sub p = some r) (hw : ∀ q, Holds Waits q s) (q : Nat) :
    Holds Waits q (s.betweenCalls p r) :=
  Holds.betweenCalls hr (fun _ _ hw => hw) (fun _ _ hp => by cases hp) (hw q)

/-! ## The steps of one call -/

section Own

variable {s' : Stream T} {l : SubReg}

/-- `ready`. -/
theorem step_ready (hr : s.sub p = some r) (hl : s.que.regs[r.handle]? = some l)
    (h : s.step (.act p .ready) = some s') : r.phase = .idle ∧ Still s s' ∧
      s'.sub p = some { r with
        phase := if (s.que.advanceReg l r.type).2 then .toGet else .toSubscribe } ∧
      s'.que.regs[r.handle]? = some (s.que.advanceReg l r.type).1 := by
  simp only [step, hr, Option.bind_some, readerStep, Queue.advanceLk, hl, Option.map_some,
    Option.ite_none_right_eq_some, Option.some.injEq] at h
  obtain ⟨hp, rfl⟩ := h
  have hlt : r.handle < s.que.regs.length := (List.getElem?_eq_some_iff.mp hl).1
  exact ⟨hp, ⟨rfl, rfl, rfl, rfl, rfl⟩, Function.update_self .., List.getElem?_set_self hlt⟩

/-- `subscribe`. -/
theorem step_subscribe (hr : s.sub p = some r) (hl : s.que.regs[r.handle]? = some l)
    (h : s.step (.act p .subscribe) = some s') : r.phase = .toSubscribe ∧ Still s s' ∧
      s'.sub p = some { r with
        phase := if (s.que.suspendReg l p).2 then .suspended else .toGet } ∧
      s'.que.regs[r.handle]? = some (s.que.suspendReg l p).1 := by
  simp only [step, hr, Option.bind_some, readerStep, Queue.advanceSuspendLk, hl, Option.map_some,
    Option.ite_none_right_eq_some, Option.some.injEq] at h
  obtain ⟨hp, rfl⟩ := h
  have hlt : r.handle < s.que.regs.length := (List.getElem?_eq_some_iff.mp hl).1
  exact ⟨hp, ⟨rfl, rfl, rfl, rfl, rfl⟩, Function.update_self .., List.getElem?_set_self hlt⟩

/-- `check_next`. -/
theorem step_get (hr : s.sub p = some r) (hl : s.que.regs[r.handle]? = some l)
    (h : s.step (.act p .get) = some s') : r.phase = .toGet ∧ s'.que = s.que ∧
      s'.sub p = some (s.receive r l (s.que.readReg l r.type)) := by
  simp only [step, hr, Option.bind_some, readerStep, Queue.getValueLk, hl, Option.map_some,
    Option.ite_none_right_eq_some, Option.some.injEq] at h
  obtain ⟨hp, rfl⟩ := h
  exact ⟨hp, rfl, Function.update_self ..⟩

end Own

end Stream

namespace Session

variable {T : Type*} {s s' : Session T} {a : Action T}

/-- Every step keeps the table. -/
theorem table_step (hT : Stream.Table s.str) (h : s.step a = some s') : Stream.Table s'.str :=
  (step_effect h).inv (fun _ _ _ _ hT h => hT.step h)
    (fun _ _ _ hr hp hT => hT.betweenCalls hr hp) hT

/-- **The table of registrations is intact after every run.** -/
theorem table_exec (limits : Limits) (as : List (Action T)) :
    Stream.Table (Run.exec step (init limits) as).str := by
  have hstep : ∀ (s : Session T) a s', Stream.Table s.str → s.step a = some s' →
      Stream.Table s'.str := fun _ _ _ hT h => table_step hT h
  exact Run.exec_inv hstep (Stream.table_init limits) as

/-- Every step keeps `Waits`. -/
theorem waits_session_step (hT : Stream.Table s.str) (hw : ∀ q, Stream.Holds Stream.Waits q s.str)
    (h : s.step a = some s') : ∀ q, Stream.Holds Stream.Waits q s'.str := by
  have hboth : Stream.Table s'.str ∧ ∀ q, Stream.Holds Stream.Waits q s'.str :=
    (step_effect h).inv (I := fun st => Stream.Table st ∧ ∀ q, Stream.Holds Stream.Waits q st)
      (fun _ _ _ _ hs h => ⟨hs.1.step h, Stream.waits_step hs.1 hs.2 h⟩)
      (fun _ _ _ hr hp hs => ⟨hs.1.betweenCalls hr hp, Stream.waits_betweenCalls hr hs.2⟩) ⟨hT, hw⟩
  exact hboth.2

/-- **A suspended subscriber is where the next value will be**, in every run. -/
theorem waits_exec (limits : Limits) (as : List (Action T)) (q : Nat) :
    Stream.Holds Stream.Waits q (Run.exec step (init limits) as).str := by
  have hstep : ∀ (s : Session T) a s',
      (Stream.Table s.str ∧ ∀ q, Stream.Holds Stream.Waits q s.str) → s.step a = some s' →
      Stream.Table s'.str ∧ ∀ q, Stream.Holds Stream.Waits q s'.str :=
    fun _ _ _ hs h => ⟨table_step hs.1 h, waits_session_step hs.1 hs.2 h⟩
  have hinit : Stream.Table (init (T := T) limits).str ∧
      ∀ q, Stream.Holds Stream.Waits q (init (T := T) limits).str :=
    ⟨Stream.table_init limits, fun q r l hr => by cases hr⟩
  exact (Run.exec_inv hstep hinit as).2 q

/-- No step changes the limits. -/
theorem limits_exec (limits : Limits) (as : List (Action T)) :
    (Run.exec step (init limits) as).str.que.limits = limits := by
  have hstep : ∀ (s : Session T) a s', (Stream.Table s.str ∧ s.str.que.limits = limits) →
      s.step a = some s' → Stream.Table s'.str ∧ s'.str.que.limits = limits := by
    intro s a s' hs h
    refine (step_effect h).inv (I := fun st => Stream.Table st ∧ st.que.limits = limits)
      (fun st st' b _ hs h => ⟨hs.1.step h, ?_⟩)
      (fun _ _ _ hr hp hs => ⟨hs.1.betweenCalls hr hp, hs.2⟩) hs
    rcases Stream.step_cases hs.1 h with
      ⟨-, -, hst | ⟨_, _, hp, -⟩⟩ | ⟨_, _, _, _, he, -⟩ | ⟨_, _, -, hl⟩
    · rw [hst.limits_eq, hs.2]
    · rw [hp.limits_eq, hs.2]
    · rw [he.still.limits_eq, hs.2]
    · rw [hl.still.limits_eq, hs.2]
  exact (Run.exec_inv hstep ⟨Stream.table_init limits, rfl⟩ as).2

/-- A subscriber stays, with its mode, until it leaves. -/
theorem stays_step {p : Nat} {r : Reader T} (hT : Stream.Table s.str) (hr : s.str.sub p = some r)
    (ha : a ≠ .leave p) (h : s.step a = some s') :
    ∃ r', s'.str.sub p = some r' ∧ r'.type = r.type := by
  have hinv : Stream.Table s'.str ∧ ∃ r', s'.str.sub p = some r' ∧ r'.type = r.type := by
    refine (step_effect h).inv
      (I := fun st => Stream.Table st ∧ ∃ r', st.sub p = some r' ∧ r'.type = r.type)
      (fun st st' b hb hs h => ⟨hs.1.step h, ?_⟩) (fun st q r₁ hr₁ hp hs => ?_) ⟨hT, r, hr, rfl⟩
    · obtain ⟨hT, r', hr', ht⟩ := hs
      obtain ⟨l', hl', hslot⟩ := hT.slots p r' hr'
      rcases Stream.step_cases hT h with ⟨hm, -, -⟩ | ⟨q, r₁, _, _, he, -⟩ | ⟨q, r₁, hleave, hl⟩
      · obtain ⟨r'', l'', hr'', -, hmove⟩ := hm p r' l' hr' hl' hslot
        exact ⟨r'', hr'', hmove.type_base.1.trans ht⟩
      · refine ⟨r', ?_, ht⟩
        rw [he.sub_eq, Function.update_of_ne, hr']
        rintro rfl
        rw [he.absent] at hr'
        cases hr'
      · refine ⟨r', ?_, ht⟩
        rw [hl.sub_eq, Function.update_of_ne, hr']
        rintro rfl
        subst hleave
        rcases hb with hb | ⟨_, act, hact, heq⟩
        · cases a <;> simp_all [Action.world]
        · cases heq
          exact hact rfl
    · obtain ⟨hT, r', hr', ht⟩ := hs
      refine ⟨hT.betweenCalls hr₁ hp, ?_⟩
      by_cases hq : p = q
      · subst hq
        rw [hr₁] at hr'
        cases hr'
        exact ⟨_, Stream.betweenCalls_self, ht⟩
      · exact ⟨r', by rw [Stream.betweenCalls_sub, Function.update_of_ne hq, hr'], ht⟩
  exact hinv.2

theorem stays_exec {p : Nat} {r : Reader T} {as : List (Action T)} (hT : Stream.Table s.str)
    (hr : s.str.sub p = some r) (has : ∀ a ∈ as, a ≠ .leave p) :
    ∃ r', (Run.exec step s as).str.sub p = some r' ∧ r'.type = r.type := by
  induction as generalizing s r with
  | nil => exact ⟨r, hr, rfl⟩
  | cons a as ih =>
      have has' : ∀ b ∈ as, b ≠ .leave p := fun b hb => has b (List.mem_cons_of_mem a hb)
      rw [Run.exec_cons]
      cases h : s.step a with
      | none =>
          rw [Run.tryStep_of_none _ _ h]
          exact ih hT hr has'
      | some s' =>
          rw [Run.tryStep_of_some _ _ h]
          obtain ⟨r₁, hr₁, ht₁⟩ := stays_step hT hr (has a List.mem_cons_self) h
          obtain ⟨r', hr', ht⟩ := ih (table_step hT h) hr₁ has'
          exact ⟨r', hr', ht.trans ht₁⟩

end Session

end Publisher

end Cocls
