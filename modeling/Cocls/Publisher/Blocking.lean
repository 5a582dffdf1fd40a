import Cocls.Publisher.Session

/-!
# Cocls.Publisher.Blocking

`next()` converted to `bool` against `co_await next()`.

`next_awt` has its own `await_resume`, which gets the value found.  A conversion
to `bool` uses it when `await_ready` succeeds; otherwise it calls
`co_awaiter::wait`, which ends with the `await_resume` of `co_awaiter`: the
current value is returned as it was before the call, and converted to `bool`.
-/

namespace Cocls

namespace Publisher

namespace Session

variable {T : Type*} {s s' : Session T} {a : Action T} {p : Nat}

/-! ## Both calls -/

/-- The call of subscriber `p` until it returns or waits. -/
def begin (s : Session T) (p : Nat) (via : Via) : Session T :=
  Run.exec step s [.next p via, .go p, .go p, .go p]

/-- A whole call of subscriber `p`; `env` happens while it waits. -/
def callNext (s : Session T) (p : Nat) (via : Via) (env : List (Action T)) : Session T :=
  if (s.begin p via).Waiting p then Run.exec step (s.begin p via) (env ++ [.go p])
  else s.begin p via

/-- The result of a call; `none`: undefined. -/
def Report.ok (toBool : T → Bool) : Report T → Option Bool
  | .value _ => some true
  | .ended _ | .notReady _ => some false
  | .held v => v.map toBool
  | .outside => none

/-- What subscriber `p` has of its last call: the result, the current value, and the
reading position. -/
def observe (toBool : T → Bool) (s : Session T) (p : Nat) : Option (Bool × Option T × Nat) :=
  ((s.caller p).reports.getLast?).bind fun rep =>
    (Report.ok toBool rep).bind fun ok => (s.str.reg p).map fun l => (ok, (s.caller p).val, l.pos)

/-- Both calls have the same outcome. -/
def Agree (toBool : T → Bool) (s : Session T) (p : Nat) (env : List (Action T)) : Prop :=
  observe toBool (s.callNext p .blocking env) p = observe toBool (s.callNext p .coAwait env) p

theorem Foreign.ne_leave (h : Foreign p a) : a ≠ .leave p := by
  rintro rfl
  exact h rfl

/-- While subscriber `p` waits in its call, others act, and then `e` wakes it up. -/
structure EndsWait (s : Session T) (p : Nat) (quiet : List (Action T)) (e : Action T) : Prop where
  foreign : ∀ a ∈ quiet, Foreign p a
  waits : (Run.exec step (s.begin p .coAwait) quiet).Waiting p
  wakes : Wakes p e

/-- The value that a waiting subscriber gets when `vals` are published. -/
def arriving (limits : Limits) (t : SubscribtionType) (vals : List T) : Option T :=
  match t with
  | .allValues => if vals.length ≤ limits.maxQueueLen then vals.head? else none
  | .skipIfBehind => vals[vals.length - min vals.length limits.maxQueueLen]?
  | .skipToRecent => vals.getLast?

/-- `ready` finds the call done at once: the subscriber is not kicked, and the position
after its own is not that of the stream (a value is there, or the subscriber is ahead of
the stream), or the queue is closed. -/
def ReadyAtOnce (s : Session T) (l : SubReg) : Prop :=
  l.kicked = false ∧ (s.str.que.succPos l = s.str.que.pos → s.str.que.closed = true)

/-- The value published is the one that the subscriber has already, and converts to
`true`. -/
def AlreadyHeld (toBool : T → Bool) (s : Session T) (p : Nat) (r : Reader T) (l : SubReg)
    (e : Action T) : Prop :=
  l.kicked = false ∧ ∃ vals v, e = .publish vals ∧
    arriving s.str.que.limits r.type vals = some v ∧ (s.caller p).val = some v ∧ toBool v = true

/-! ## The steps of one call -/

/-- Subscriber `p` and its caller after a step of its call. -/
def put (s : Session T) (p : Nat) (que : Queue T) (r : Reader T) (c : Caller T) : Session T :=
  { str := s.str.setReader p que r, caller := Function.update s.caller p c }

section Put

variable {que que' : Queue T} {r r' : Reader T} {c c' : Caller T} {l l' : SubReg}

@[simp] theorem put_put : (s.put p que r c).put p que' r' c' = s.put p que' r' c' := by
  simp [put, Stream.setReader]

@[simp] theorem put_sub : (s.put p que r c).str.sub p = some r := Function.update_self ..

@[simp] theorem put_que : (s.put p que r c).str.que = que := rfl

@[simp] theorem put_caller : (s.put p que r c).caller p = c := Function.update_self ..

/-- Writing back what a registration holds. -/
theorem set_self {q : Queue T} {h : Nat} (hl : q.regs[h]? = some l) :
    { q with regs := q.regs.set h l } = q := by
  rw [← (List.getElem?_eq_some_iff.mp hl).2, List.set_getElem_self]

/-- The first `await_ready`. -/
theorem step_next_eq (via : Via) (hr : s.str.sub p = some r)
    (hl : s.str.que.regs[r.handle]? = some l) (hphase : r.phase = .idle ∨ r.phase = .ended) :
    s.step (.next p via) = some (s.put p
      { s.str.que with regs := s.str.que.regs.set r.handle (s.str.que.advanceReg l r.type).1 }
      { r with phase := if (s.str.que.advanceReg l r.type).2 then .toGet else .toSubscribe }
      { s.caller p with via := via, waited := false }) := by
  simp [step, hr, hphase, onStream, Stream.step, Stream.betweenCalls, Stream.setReader,
    Stream.readerStep, Queue.advanceLk, hl, put, setCaller, betweenCalls]

/-- A further step of the call. -/
theorem step_go_eq (hr : s.str.sub p = some r) : s.step (.go p) = s.goOn p r := by
  rw [step, hr, Option.bind_some]

/-- The second `await_ready`. -/
theorem go_again (hr : s.str.sub p = some r) (hl : s.str.que.regs[r.handle]? = some l)
    (hphase : r.phase = .toSubscribe) (hvia : (s.caller p).via = .blocking)
    (hwaited : (s.caller p).waited = false) :
    s.step (.go p) = some (s.put p
      { s.str.que with regs := s.str.que.regs.set r.handle (s.str.que.advanceReg l r.type).1 }
      { r with phase := if (s.str.que.advanceReg l r.type).2 then .toGet else .toSubscribe }
      { s.caller p with waited := true }) := by
  rw [step_go_eq hr]
  simp [goOn, hphase, hvia, hwaited, onStream, Stream.step, Stream.betweenCalls, Stream.setReader,
    Stream.readerStep, Queue.advanceLk, hl, put, setCaller, betweenCalls]

/-- `subscribe`. -/
theorem go_subscribe (hr : s.str.sub p = some r) (hl : s.str.que.regs[r.handle]? = some l)
    (hphase : r.phase = .toSubscribe)
    (hvia : (s.caller p).via = .coAwait ∨ (s.caller p).via = .blocking ∧ (s.caller p).waited = true) :
    s.step (.go p) = some (s.put p
      { s.str.que with regs := s.str.que.regs.set r.handle (s.str.que.suspendReg l p).1 }
      { r with phase := if (s.str.que.suspendReg l p).2 then .suspended else .toGet }
      (s.caller p)) := by
  rw [step_go_eq hr]
  rcases hvia with hvia | ⟨hvia, hwaited⟩
  · simp [goOn, hphase, hvia, onStream, Stream.step, hr, Stream.setReader,
      Stream.readerStep, Queue.advanceSuspendLk, hl, put]
  · simp [goOn, hphase, hvia, hwaited, onStream, Stream.step, hr, Stream.setReader,
      Stream.readerStep, Queue.advanceSuspendLk, hl, put]

/-- `await_resume` of `next_awt`. -/
theorem go_get (hr : s.str.sub p = some r) (hl : s.str.que.regs[r.handle]? = some l)
    (hphase : r.phase = .toGet) (hwaited : (s.caller p).waited = false) :
    s.step (.go p) = some (s.put p s.str.que (s.str.receive r l (s.str.que.readReg l r.type))
      { s.caller p with
        val := (s.checkNext p l (s.str.que.readReg l r.type)).1
        reports := (s.caller p).reports ++ [(s.checkNext p l (s.str.que.readReg l r.type)).2] }) := by
  rw [step_go_eq hr]
  simp [goOn, hphase, hwaited, onStream, Stream.step, hr, Stream.setReader,
    Stream.readerStep, Queue.getValueLk, hl, put, report, setCaller]

/-- `await_resume` of `co_awaiter`. -/
theorem go_held (hr : s.str.sub p = some r) (hphase : r.phase = .toGet)
    (hwaited : (s.caller p).waited = true) :
    s.step (.go p) = some (s.put p s.str.que { r with phase := .idle }
      { s.caller p with reports := (s.caller p).reports ++ [.held (s.caller p).val] }) := by
  rw [step_go_eq hr]
  simp [goOn, hphase, hwaited, Stream.setReader, put, report, setCaller, betweenCalls,
    Stream.betweenCalls]

/-- A call that has returned or waits does not go on. -/
theorem go_none (hr : s.str.sub p = some r)
    (hphase : r.phase ≠ .toSubscribe ∧ r.phase ≠ .toGet) : s.step (.go p) = none := by
  rw [step_go_eq hr, goOn]
  split
  · exact absurd ‹_› hphase.1
  · exact absurd ‹_› hphase.2
  · rfl

/-- What `check_next` makes of a read depends on the queue and the current value. -/
theorem checkNext_congr {s₁ s₂ : Session T} {res : Queue.Read T} (hq : s₁.str.que = s₂.str.que)
    (hv : (s₁.caller p).val = (s₂.caller p).val) :
    s₁.checkNext p l res = s₂.checkNext p l res := by
  cases res <;> simp [checkNext, hq, hv]

theorem observe_put {toBool : T → Bool} {rep : Report T} {reps : List (Report T)} {h : Nat}
    (hl : que.regs[h]? = some l) (hh : r.handle = h) (hreports : c.reports = reps ++ [rep]) :
    observe toBool (s.put p que r c) p =
      (Report.ok toBool rep).map fun ok => (ok, c.val, l.pos) := by
  subst hh
  cases hok : Report.ok toBool rep with
  | none => simp [observe, hreports, hok]
  | some ok => simp [observe, hreports, hok, Stream.reg, hl]

end Put

/-! ## A call until it returns or waits -/

section Begin

variable {r : Reader T} {l l' : SubReg}

/-- A call that neither waits nor goes on. -/
theorem begin_of_put {que : Queue T} {r' : Reader T} {c : Caller T} {as : List (Action T)}
    (hphase : r'.phase ≠ .toSubscribe ∧ r'.phase ≠ .toGet) (has : ∀ a ∈ as, a = .go p) :
    Run.exec step (s.put p que r' c) as = s.put p que r' c := by
  induction as with
  | nil => rfl
  | cons a as ih =>
      rw [has a List.mem_cons_self, Run.exec_cons, Run.tryStep_of_none _ _ (go_none put_sub hphase)]
      exact ih fun b hb => has b (List.mem_cons_of_mem a hb)

theorem waiting_put {que : Queue T} {r' : Reader T} {c : Caller T} :
    (s.put p que r' c).Waiting p ↔ r'.phase = .suspended := by
  simp [Waiting]

/-- `ready` succeeds: the value is got, however the call is made. -/
theorem begin_ready (toBool : T → Bool) (via : Via) (hr : s.str.sub p = some r)
    (hl : s.str.que.regs[r.handle]? = some l) (hphase : r.phase = .idle ∨ r.phase = .ended)
    (hadv : s.str.que.advanceReg l r.type = (l', true)) {que : Queue T}
    (hque : que = { s.str.que with regs := s.str.que.regs.set r.handle l' })
    {res : Option T × Report T}
    (hres : res =
      { s with str := { s.str with que := que } }.checkNext p l' (que.readReg l' r.type)) :
    ¬ (s.begin p via).Waiting p ∧ observe toBool (s.begin p via) p =
      (Report.ok toBool res.2).map fun ok => (ok, res.1, l'.pos) := by
  have hnext := step_next_eq via hr hl hphase
  simp only [hadv, if_true, ← hque] at hnext
  have hl₁ : que.regs[r.handle]? = some l' := by
    rw [hque]
    exact List.getElem?_set_self (List.getElem?_eq_some_iff.mp hl).1
  have hr₁ : (s.put p que { r with phase := .toGet }
      { s.caller p with via := via, waited := false }).str.sub p =
        some { r with phase := .toGet } := put_sub
  have hget := go_get hr₁ hl₁ rfl (by rw [put_caller])
  have hsame : (s.put p que { r with phase := .toGet }
      { s.caller p with via := via, waited := false }).checkNext p l' (que.readReg l' r.type) =
        { s with str := { s.str with que := que } }.checkNext p l' (que.readReg l' r.type) :=
    checkNext_congr rfl (by rw [put_caller])
  rw [put_put, put_que, hsame, ← hres, put_caller] at hget
  obtain ⟨r₁, hr₁⟩ : ∃ r₁, r₁ = (s.put p que { r with phase := .toGet } { s.caller p with
      via := via, waited := false }).str.receive { r with phase := .toGet } l'
        (que.readReg l' r.type) := ⟨_, rfl⟩
  rw [← hr₁] at hget
  have hphase₁ : r₁.handle = r.handle ∧ r₁.phase ≠ .toSubscribe ∧ r₁.phase ≠ .toGet ∧
      r₁.phase ≠ .suspended := by
    rw [hr₁]
    cases que.readReg l' r.type <;> simp [Stream.receive]
  obtain ⟨hh, hsub, htoGet, hsusp⟩ := hphase₁
  rw [begin, Run.exec_cons, Run.tryStep_of_some _ _ hnext, Run.exec_cons,
    Run.tryStep_of_some _ _ hget, begin_of_put ⟨hsub, htoGet⟩ (by simp)]
  exact ⟨fun hw => hsusp (waiting_put.mp hw), observe_put hl₁ hh rfl⟩

/-- `ready` fails: `co_await` goes on with `subscribe`. -/
theorem begin_coAwait (hr : s.str.sub p = some r) (hl : s.str.que.regs[r.handle]? = some l)
    (hphase : r.phase = .idle ∨ r.phase = .ended)
    (hadv : s.str.que.advanceReg l r.type = (l, false)) {ph : Phase} {que : Queue T}
    (hque : que = { s.str.que with regs := s.str.que.regs.set r.handle (s.str.que.suspendReg l p).1 })
    (hph : ph = if (s.str.que.suspendReg l p).2 then .suspended else .toGet) :
    s.begin p .coAwait = Run.exec step (s.put p que { r with phase := ph }
      { s.caller p with via := .coAwait, waited := false }) [.go p, .go p] := by
  have hnext := step_next_eq .coAwait hr hl hphase
  simp only [hadv, set_self hl, Bool.false_eq_true, if_false] at hnext
  have hgo := go_subscribe (put_sub : (s.put p s.str.que { r with phase := .toSubscribe }
      { s.caller p with via := .coAwait, waited := false }).str.sub p = some _) hl rfl (by simp)
  rw [put_put, put_que, put_caller, ← hque, ← hph] at hgo
  rw [begin, Run.exec_cons, Run.tryStep_of_some _ _ hnext, Run.exec_cons,
    Run.tryStep_of_some _ _ hgo]

/-- `ready` fails: `wait()` asks once more before it goes on with `subscribe`. -/
theorem begin_blocking (hr : s.str.sub p = some r) (hl : s.str.que.regs[r.handle]? = some l)
    (hphase : r.phase = .idle ∨ r.phase = .ended)
    (hadv : s.str.que.advanceReg l r.type = (l, false)) {ph : Phase} {que : Queue T}
    (hque : que = { s.str.que with regs := s.str.que.regs.set r.handle (s.str.que.suspendReg l p).1 })
    (hph : ph = if (s.str.que.suspendReg l p).2 then .suspended else .toGet) :
    s.begin p .blocking = Run.exec step (s.put p que { r with phase := ph }
      { s.caller p with via := .blocking, waited := true }) [.go p] := by
  have hnext := step_next_eq .blocking hr hl hphase
  simp only [hadv, set_self hl, Bool.false_eq_true, if_false] at hnext
  have hagain := go_again (put_sub : (s.put p s.str.que { r with phase := .toSubscribe }
      { s.caller p with via := .blocking, waited := false }).str.sub p = some _) hl rfl (by simp)
      (by simp)
  simp only [put_put, put_que, put_caller, hadv, set_self hl, Bool.false_eq_true, if_false]
    at hagain
  have hgo := go_subscribe (put_sub : (s.put p s.str.que { r with phase := .toSubscribe }
      { s.caller p with via := .blocking, waited := true }).str.sub p = some _) hl rfl (by simp)
  rw [put_put, put_que, put_caller, ← hque, ← hph] at hgo
  rw [begin, Run.exec_cons, Run.tryStep_of_some _ _ hnext, Run.exec_cons,
    Run.tryStep_of_some _ _ hagain, Run.exec_cons, Run.tryStep_of_some _ _ hgo]

/-- A kicked subscriber is told the end by `co_await`, and by a conversion to `bool` what
it was told before. -/
theorem begin_kicked (toBool : T → Bool) (hr : s.str.sub p = some r)
    (hl : s.str.que.regs[r.handle]? = some l) (hphase : r.phase = .idle ∨ r.phase = .ended)
    (hk : l.kicked = true) :
    (¬ (s.begin p .coAwait).Waiting p ∧
      observe toBool (s.begin p .coAwait) p = some (false, none, l.pos)) ∧
    ¬ (s.begin p .blocking).Waiting p ∧
      observe toBool (s.begin p .blocking) p =
        ((s.caller p).val.map toBool).map fun ok => (ok, (s.caller p).val, l.pos) := by
  have hadv : s.str.que.advanceReg l r.type = (l, false) := by rw [Queue.advanceReg, if_pos hk]
  have hsus : s.str.que.suspendReg l p = (l, false) := by
    rw [Queue.suspendReg, if_pos (.inl hk)]
  have hque : s.str.que =
      { s.str.que with regs := s.str.que.regs.set r.handle (s.str.que.suspendReg l p).1 } := by
    rw [hsus, set_self hl]
  have hph : Phase.toGet = if (s.str.que.suspendReg l p).2 then .suspended else .toGet := by
    rw [hsus]
    rfl
  refine ⟨?_, ?_⟩
  · have hread : s.str.que.readReg l r.type = .ended := by
      rw [Queue.readReg, Queue.readIndex, if_pos (.inl hk)]
    have hget := go_get (put_sub : (s.put p s.str.que { r with phase := .toGet }
      { s.caller p with via := .coAwait, waited := false }).str.sub p = some _) hl rfl
      (by rw [put_caller])
    simp only [put_put, put_que, put_caller, hread, Stream.receive, checkNext] at hget
    rw [begin_coAwait hr hl hphase hadv hque hph, Run.exec_cons, Run.tryStep_of_some _ _ hget,
      begin_of_put (by simp) (by simp)]
    refine ⟨fun hw => ?_, (observe_put hl (by rfl) (by rfl)).trans rfl⟩
    cases waiting_put.mp hw
  · have hheld := go_held (put_sub : (s.put p s.str.que { r with phase := .toGet }
      { s.caller p with via := .blocking, waited := true }).str.sub p = some _) rfl
      (by rw [put_caller])
    simp only [put_put, put_que, put_caller] at hheld
    rw [begin_blocking hr hl hphase hadv hque hph, Run.exec_cons, Run.tryStep_of_some _ _ hheld,
      Run.exec_nil]
    refine ⟨fun hw => ?_, (observe_put hl (by rfl) (by rfl)).trans rfl⟩
    cases waiting_put.mp hw

/-- Otherwise both calls wait, and differ in the caller alone. -/
theorem begin_waits (hr : s.str.sub p = some r) (hl : s.str.que.regs[r.handle]? = some l)
    (hphase : r.phase = .idle ∨ r.phase = .ended) (hk : l.kicked = false)
    (hat : s.str.que.succPos l = s.str.que.pos) (hopen : s.str.que.closed = false) :
    ∃ w : Session T, ∃ c : Caller T,
      s.begin p .coAwait = w ∧ s.begin p .blocking = w.setCaller p c ∧
      (∃ r', w.str.sub p = some r' ∧ r'.type = r.type) ∧ w.Waiting p ∧
      (w.caller p).waited = false ∧ (w.caller p).val = (s.caller p).val ∧
      c.waited = true ∧ c.val = (s.caller p).val := by
  have hadv : s.str.que.advanceReg l r.type = (l, false) := by
    rw [Queue.advanceReg, hk, if_neg (by simp), if_pos ⟨hat, hopen⟩]
  have hsus : s.str.que.suspendReg l p =
      ({ l with pos := s.str.que.succPos l, awt := some p }, true) := by
    rw [Queue.suspendReg, hk, hopen, if_neg (by simp), if_pos hat]
  have hph : Phase.suspended = if (s.str.que.suspendReg l p).2 then .suspended else .toGet := by
    rw [hsus]
    rfl
  have hw := begin_coAwait hr hl hphase hadv rfl hph
  have hb := begin_blocking hr hl hphase hadv rfl hph
  rw [begin_of_put (by simp) (by simp)] at hw hb
  refine ⟨_, { s.caller p with via := .blocking, waited := true }, hw, ?_, ⟨_, put_sub, rfl⟩,
    waiting_put.mpr rfl, by rw [put_caller], by rw [put_caller], rfl, rfl⟩
  rw [hb, put, put, setCaller, Function.update_idem]

end Begin

/-! ## While the calls wait -/

section Foreign

variable {c : Caller T}

theorem onStream_setCaller (b : Stream.Action T) :
    (s.setCaller p c).onStream b = (s.onStream b).map fun s' => s'.setCaller p c := by
  rw [onStream, onStream, Option.map_map]
  rfl

theorem setCaller_comm {q : Nat} (hq : q ≠ p) (c' : Caller T) :
    (s.setCaller p c).setCaller q c' = (s.setCaller q c').setCaller p c := by
  rw [setCaller, setCaller, setCaller, setCaller, Function.update_comm hq]

theorem report_setCaller {q : Nat} (hq : q ≠ p) (val : Option T) (rep : Report T) :
    (s.setCaller p c).report q val rep = (s.report q val rep).setCaller p c := by
  rw [report, report, setCaller_of_ne hq, setCaller_comm hq]

theorem checkNext_setCaller {q : Nat} (hq : q ≠ p) (l : SubReg) (res : Queue.Read T) :
    (s.setCaller p c).checkNext q l res = s.checkNext q l res :=
  checkNext_congr rfl (by rw [setCaller_of_ne hq])

theorem betweenCalls_setCaller {q : Nat} (r : Reader T) :
    (s.setCaller p c).betweenCalls q r = (s.betweenCalls q r).setCaller p c := rfl

/-- A call of another subscriber does not look at the calls of `p`. -/
theorem goOn_setCaller {q : Nat} (hq : q ≠ p) (r : Reader T) :
    (s.setCaller p c).goOn q r = (s.goOn q r).map fun s' => s'.setCaller p c := by
  unfold goOn
  simp only [setCaller_str, setCaller_of_ne hq, onStream_setCaller, betweenCalls_setCaller,
    report_setCaller hq, checkNext_setCaller hq]
  split
  · split
    · cases s.str.que.regs[r.handle]? with
      | none => rfl
      | some l =>
          simp only [Option.bind_some, Option.map_map, Function.comp_def, report_setCaller hq]
    · simp only [Option.map_map, Function.comp_def, setCaller_comm hq]
    · rfl
  · split
    · rfl
    · cases s.str.que.regs[r.handle]? with
      | none => rfl
      | some l =>
          simp only [Option.bind_some, Option.map_map, Function.comp_def, report_setCaller hq]
  · rfl

/-- An action of another party does not look at the calls of `p`. -/
theorem step_setCaller (ha : Foreign p a) :
    (s.setCaller p c).step a = (s.step a).map fun s' => s'.setCaller p c := by
  cases a with
  | publish | close | kick | leave => exact onStream_setCaller _
  | join q | copy q =>
      have hq : q ≠ p := ha
      simp only [step, onStream_setCaller, Option.map_map, Function.comp_def, setCaller_comm hq]
  | next q via =>
      have hq : q ≠ p := ha
      simp only [step, setCaller_str, setCaller_of_ne hq]
      cases s.str.sub q with
      | none => rfl
      | some r =>
          simp only [Option.bind_some, betweenCalls_setCaller, onStream_setCaller]
          split
          · simp only [Option.map_map, Function.comp_def, setCaller_comm hq]
          · rfl
  | go q =>
      have hq : q ≠ p := ha
      simp only [step, setCaller_str]
      cases s.str.sub q with
      | none => rfl
      | some r => exact goOn_setCaller hq r

/-- Nor does a run of them. -/
theorem exec_setCaller {as : List (Action T)} (has : ∀ a ∈ as, Foreign p a) :
    Run.exec step (s.setCaller p c) as = (Run.exec step s as).setCaller p c := by
  induction as generalizing s with
  | nil => rfl
  | cons a as ih =>
      have hstep := step_setCaller (s := s) (c := c) (has a List.mem_cons_self)
      rw [Run.exec_cons, Run.exec_cons, ← ih fun b hb => has b (List.mem_cons_of_mem a hb)]
      congr 1
      rw [Run.tryStep, Run.tryStep, hstep]
      cases s.step a <;> rfl

/-- An action of another party leaves the calls of `p`. -/
theorem caller_of_step (ha : Foreign p a) (h : s.step a = some s') : s'.caller p = s.caller p := by
  cases step_effect h with
  | world b hb hstr hcaller =>
      rw [hcaller, if_neg]
      cases a <;> simp_all [Action.newcomer, Foreign]
  | asked q via r hr hphase hstr hcaller | askedAgain q r hr hphase hvia hwaited hstr hcaller
  | missed q r l hr hl hphase hvia hstr hcaller | held q r hr hphase hwaited hstr hcaller
  | got q r l hr hl hphase hwaited hstr hcaller =>
      rw [hcaller, Function.update_of_ne (Ne.symm ha)]
  | subscribed q r hr hphase hvia hwaited hstr hcaller => rw [hcaller]

theorem caller_of_exec {as : List (Action T)} (has : ∀ a ∈ as, Foreign p a) :
    (Run.exec step s as).caller p = s.caller p := by
  induction as generalizing s with
  | nil => rfl
  | cons a as ih =>
      rw [Run.exec_cons, ih fun b hb => has b (List.mem_cons_of_mem a hb)]
      cases h : s.step a with
      | none => rw [Run.tryStep_of_none _ _ h]
      | some s' =>
          rw [Run.tryStep_of_some _ _ h]
          exact caller_of_step (has a List.mem_cons_self) h

end Foreign

/-! ## Waking up -/

/-- What a subscriber that waited reads after `vals` were published. -/
theorem readReg_arriving {q : Queue T} {l : SubReg} {t : SubscribtionType} {vals q₀ : List T}
    {need : Nat} (hne : vals ≠ []) (hk : l.kicked = false) (hpos : q.pos = l.pos + vals.length)
    (hneed : vals.length ≤ need)
    (hq : q.q = (vals.reverse ++ q₀).take
      (min need (min q.limits.maxQueueLen (vals.reverse ++ q₀).length))) :
    (∀ v, arriving q.limits t vals = some v → ∃ n, q.readReg l t = .value n v) ∧
      (arriving q.limits t vals = none → q.readReg l t = .ended) := by
  have hc : 0 < vals.length := List.length_pos_of_ne_nil hne
  have hmax : 0 < q.limits.maxQueueLen := Nat.lt_of_lt_of_le q.limits.min_pos q.limits.min_le_max
  have hlen : q.q.length = min need (min q.limits.maxQueueLen (vals.length + q₀.length)) := by
    rw [hq, List.length_take, List.length_append, List.length_reverse]
    omega
  -- the values just published are in front
  have hat : ∀ i, i < vals.length → i < q.q.length → q.q[i]? = vals[vals.length - 1 - i]? := by
    intro i hi hin
    have hcut : i < min need (min q.limits.maxQueueLen (vals.reverse ++ q₀).length) := by
      rw [List.length_append, List.length_reverse, ← hlen]
      exact hin
    rw [hq, List.getElem?_take_of_lt hcut, List.getElem?_append_left (by simpa using hi),
      List.getElem?_reverse hi]
  have hlag : sizeSub (sizeSub q.pos l.pos) 1 = vals.length - 1 := by
    have hlag : sizeSub q.pos l.pos = vals.length := by
      rw [sizeSub_of_le (by omega)]
      omega
    rw [hlag, sizeSub_of_le hc]
  have hopen : ¬ (l.kicked = true ∨ l.pos = q.pos) := by
    rw [hk]
    simp
    omega
  have hread : ∀ i v, q.readIndex l t = some i → i < vals.length → i < q.q.length →
      vals[vals.length - 1 - i]? = some v → ∃ n, q.readReg l t = .value n v := by
    intro i v hidx hi hin hv
    rw [Queue.readReg, hidx]
    simp only [hat i hi hin, hv]
    exact ⟨_, rfl⟩
  cases t with
  | allValues =>
      have hidx : q.readIndex l .allValues =
          if vals.length - 1 ≥ q.q.length then none else some (vals.length - 1) := by
        rw [Queue.readIndex, if_neg hopen, hlag]
      unfold arriving
      by_cases hfit : vals.length ≤ q.limits.maxQueueLen
      · rw [if_neg (by omega)] at hidx
        simp only [if_pos hfit]
        refine ⟨fun v hv => hread _ v hidx (by omega) (by omega) ?_, fun hn => ?_⟩
        · rw [Nat.sub_self, ← List.head?_eq_getElem?]
          exact hv
        · rw [List.head?_eq_none_iff] at hn
          exact absurd hn hne
      · rw [if_pos (by omega)] at hidx
        simp only [if_neg hfit]
        exact ⟨fun v hv => (by cases hv), fun _ => (by rw [Queue.readReg, hidx])⟩
  | skipIfBehind =>
      have hidx : q.readIndex l .skipIfBehind = some (min vals.length q.limits.maxQueueLen - 1) := by
        rw [Queue.readIndex, if_neg hopen, hlag]
        simp only
        split
        · rw [sizeSub_of_le (by omega)]
          congr 1
          omega
        · congr 1
          omega
      have hget : vals.length - 1 - (min vals.length q.limits.maxQueueLen - 1) =
          vals.length - min vals.length q.limits.maxQueueLen := by omega
      refine ⟨fun v hv => hread _ v hidx (by omega) (by omega) ?_, fun hn => ?_⟩
      · rw [hget]
        exact hv
      · have hout := List.getElem?_eq_none_iff.mp hn
        omega
  | skipToRecent =>
      have hidx : q.readIndex l .skipToRecent = some 0 := by
        rw [Queue.readIndex, if_neg hopen]
      refine ⟨fun v hv => hread 0 v hidx hc (by omega) ?_, fun hn => ?_⟩
      · rw [Nat.sub_zero, ← List.getLast?_eq_getElem?]
        exact hv
      · exact absurd (List.getLast?_eq_none_iff.mp hn) hne

section Wake

variable {r : Reader T} {l : SubReg}

/-- What a subscriber reads that was woken up. -/
structure WokenUp (s s' : Session T) (p : Nat) (r : Reader T) (l l' : SubReg) (e : Action T) :
    Prop where
  sub_eq : s'.str.sub p = some { r with phase := .toGet }
  reg_eq : s'.str.que.regs[r.handle]? = some l'
  pos_eq : l'.pos = l.pos
  published : ∀ vals, e = .publish vals →
    (∀ v, arriving s.str.que.limits r.type vals = some v →
      ∃ n, s'.str.que.readReg l' r.type = .value n v) ∧
    (arriving s.str.que.limits r.type vals = none → s'.str.que.readReg l' r.type = .ended)
  ended : (∀ vals, e ≠ .publish vals) → s'.str.que.readReg l' r.type = .ended

/-- A subscriber that waits, and is moved on by publishing or closing. -/
theorem woken_of_pushed {st' : Stream T} {b : Stream.Action T} {r' : Reader T} {l' : SubReg}
    (hphase : r.phase = .suspended) (hm : Stream.Move s.str st' b p r l r' l')
    (hns : ¬ Stream.Still s.str st') :
    r' = { r with phase := .toGet } ∧ l' = { l with awt := none } ∧ ∃ vals need,
      Stream.Pushed s.str st' vals need ∧ sizeSub st'.que.pos l.pos ≤ need := by
  cases hm with
  | other h | kicked h | ready h | subscribe h | get h | giveUp h => exact absurd h hns
  | pushed vals need h hneed => exact ⟨if_pos hphase, rfl, vals, need, h, hneed⟩

/-- A waiting subscriber is woken up by publishing, by closing, and by a kick. -/
theorem wokenUp (hT : Stream.Table s.str) (hw : Stream.Waits s.str r l) (hr : s.str.sub p = some r)
    (hl : s.str.que.regs[r.handle]? = some l) (hphase : r.phase = .suspended) {e : Action T}
    (he : Wakes p e) (h : s.step e = some s') : ∃ l', WokenUp s s' p r l l' e := by
  obtain ⟨hpos, hk, hopen⟩ := hw hphase
  obtain ⟨l₁, hl₁, hslot⟩ := hT.slots p r hr
  rw [hl] at hl₁
  cases hl₁
  cases e with
  | publish vals =>
      have hne : vals ≠ [] := he
      obtain ⟨hstr, -⟩ := onStream_eq_some.mp h
      have hlen : vals.length ≠ 0 := fun h0 => hne (List.eq_nil_of_length_eq_zero h0)
      have hs' := (Option.some.inj hstr).symm
      simp only [Queue.pushAll, if_neg hlen] at hs'
      obtain ⟨hm, -, need, hp, -⟩ := Stream.pushLk_moves (a := .publish vals) vals (fun hc => hc)
        (fun h => absurd h hne) rfl hs'
      obtain ⟨r', l', hr', hl', hmove⟩ := hm p r l hr hl hslot
      have hns : ¬ Stream.Still s.str s'.str := by
        intro hst
        have hsame := hst.published_eq
        rw [hp.published_eq] at hsame
        exact hne (by simpa using hsame)
      obtain ⟨rfl, rfl, vals', need', hp', hneed⟩ := woken_of_pushed hphase hmove hns
      have hvals : vals' = vals := by
        have hsame := hp'.published_eq
        rw [hp.published_eq] at hsame
        exact (List.append_cancel_left hsame).symm
      subst hvals
      refine ⟨_, hr', hl', rfl, fun vals hvals => ?_, fun hno => absurd rfl (hno vals')⟩
      cases hvals
      have hle : l.pos ≤ s.str.que.pos + vals'.length := by omega
      rw [hp'.pos_eq, sizeSub_of_le hle] at hneed
      rw [← hp'.limits_eq]
      have hneed' : vals'.length ≤ need' := by omega
      exact readReg_arriving hne hk (by rw [hp'.pos_eq, hpos]) hneed'
        (by rw [hp'.limits_eq]; exact hp'.q_eq)
  | close =>
      obtain ⟨hstr, -⟩ := onStream_eq_some.mp h
      have hs' := (Option.some.inj hstr).symm
      simp only [Queue.close, hopen, Bool.false_eq_true, if_false] at hs'
      have hclosed : s'.str.que.closed = true := by
        rw [hs']
        rfl
      obtain ⟨hm, -, -⟩ : Stream.Moves s.str s'.str .close ∧ Stream.Frame s.str s'.str ∧
          ∃ need, Stream.Pushed s.str s'.str [] need ∧ s.str.que.limits.minQueueLen ≤ need :=
        Stream.pushLk_moves [] (fun _ => rfl) (fun _ => rfl) rfl
          (by rw [hs', List.append_nil]; rfl)
      obtain ⟨r', l', hr', hl', hmove⟩ := hm p r l hr hl hslot
      have hns : ¬ Stream.Still s.str s'.str := by
        intro hst
        have hsame := hst.closed_eq
        rw [hclosed, hopen] at hsame
        cases hsame
      obtain ⟨rfl, rfl, vals, need, hp, -⟩ := woken_of_pushed hphase hmove hns
      have hvals : vals = [] := by
        have hsame := hp.published_eq
        rw [show s'.str.published = s.str.published by rw [hs']] at hsame
        simpa using hsame
      subst hvals
      refine ⟨_, hr', hl', rfl, fun vals hvals => (by cases hvals), fun _ => ?_⟩
      have hend : l.pos = s'.str.que.pos := by rw [hp.pos_eq, hpos, List.length_nil, Nat.add_zero]
      rw [Queue.readReg, Queue.readIndex, if_pos (.inr hend)]
  | kick q =>
      obtain rfl : q = p := he
      obtain ⟨hstr, -⟩ := onStream_eq_some.mp h
      have hs' := (Option.some.inj hstr).symm
      have hawt : l.awt = some q := by rw [hslot.awt_eq, if_pos hphase]
      rw [Stream.kick_eq hT hr hl, hawt] at hs'
      refine ⟨{ l with awt := none, kicked := true }, ?_, ?_, rfl,
        fun vals hvals => (by cases hvals), fun _ => ?_⟩
      · rw [hs']
        have hwoken : Stream.resumeAll s.str.sub [q] q = some r.woken :=
          Stream.resumeAll_woken hr fun _ => List.mem_cons_self
        rwa [Reader.woken, if_pos hphase] at hwoken
      · rw [hs']
        simp [hl]
      · rw [Queue.readReg, Queue.readIndex, if_pos (.inl rfl)]
  | _ => exact absurd he id

/-- Waking up is always enabled. -/
theorem wakes_enabled {e : Action T} (he : Wakes p e) : ∃ s', s.step e = some s' := by
  cases e with
  | publish | close | kick => exact ⟨_, rfl⟩
  | _ => exact absurd he id

end Wake

/-! ## The two calls compared -/

/-- The outcome of a call that waited, when its last step is `go`. -/
theorem observe_resumed {toBool : T → Bool} {r r' : Reader T} {l : SubReg} {c : Caller T}
    {rep : Report T} {que : Queue T} (hl : que.regs[r.handle]? = some l)
    (hgo : s.step (.go p) = some (s.put p que r' c)) (hh : r'.handle = r.handle)
    (hreports : c.reports = (s.caller p).reports ++ [rep]) :
    observe toBool (Run.exec step s [.go p]) p =
      (Report.ok toBool rep).map fun ok => (ok, c.val, l.pos) := by
  rw [Run.exec_cons, Run.tryStep_of_some _ _ hgo, Run.exec_nil]
  exact observe_put hl hh hreports

/-- A held value is never reported as the end, and as a value only when it is this one. -/
theorem held_ne_ended {toBool : T → Bool} {val : Option T} {n : Nat} :
    (val.map toBool).map (fun ok => (ok, val, n)) ≠ some (false, none, n) := by
  cases val <;> simp

theorem held_eq_value {toBool : T → Bool} {val : Option T} {v : T} {n : Nat} :
    (val.map toBool).map (fun ok => (ok, val, n)) = some (true, some v, n) ↔
      val = some v ∧ toBool v = true := by
  cases val with
  | none => simp
  | some w =>
      simp only [Option.map_some, Option.some.injEq, Prod.mk.injEq, and_true]
      constructor
      · rintro ⟨hb, rfl⟩
        exact ⟨rfl, hb⟩
      · rintro ⟨rfl, hb⟩
        exact ⟨hb, rfl⟩

/-- A call that waits, is woken up by `e`, and goes on. -/
theorem agree_of_waits {toBool : T → Bool} {w : Session T} {c : Caller T} {val : Option T}
    {quiet as : List (Action T)} {e : Action T} {r : Reader T} {limits : Limits}
    (hw : w = Run.exec step (init limits) as) (hr : w.str.sub p = some r)
    (hends : (∀ a ∈ quiet, Foreign p a) ∧ (Run.exec step w quiet).Waiting p ∧ Wakes p e)
    (hwaited : (w.caller p).waited = false) (hcwaited : c.waited = true) (hcval : c.val = val) :
    observe toBool (Run.exec step (w.setCaller p c) (quiet ++ [e] ++ [.go p])) p =
        observe toBool (Run.exec step w (quiet ++ [e] ++ [.go p])) p ↔
      ∃ vals v, e = .publish vals ∧ arriving limits r.type vals = some v ∧ val = some v ∧
        toBool v = true := by
  obtain ⟨hforeign, ⟨rX, hrX, hsusp⟩, he⟩ := hends
  have heforeign : Foreign p e := by
    cases e <;> trivial
  have hall : ∀ a ∈ quiet ++ [e], Foreign p a := by
    intro a ha
    rcases List.mem_append.mp ha with ha | ha
    · exact hforeign a ha
    · rw [List.mem_singleton.mp ha]
      exact heforeign
  -- the state in which `e` happens
  have hX : Run.exec step w quiet = Run.exec step (init limits) (as ++ quiet) := by
    rw [hw, Run.exec_append]
  have hT : Stream.Table (Run.exec step w quiet).str := hX ▸ table_exec limits _
  have hlimits : (Run.exec step w quiet).str.que.limits = limits := hX ▸ limits_exec limits _
  obtain ⟨lX, hlX, -⟩ := hT.slots p rX hrX
  have hWaits : Stream.Waits (Run.exec step w quiet).str rX lX :=
    (hX ▸ waits_exec limits (as ++ quiet) p :
      Stream.Holds Stream.Waits p (Run.exec step w quiet).str) rX lX hrX hlX
  have htype : rX.type = r.type := by
    obtain ⟨r', hr', ht⟩ := stays_exec (hw ▸ table_exec limits as) hr
      (fun a ha => (hforeign a ha).ne_leave)
    rw [hrX] at hr'
    cases hr'
    exact ht
  obtain ⟨s', hs'⟩ := wakes_enabled he
  obtain ⟨l', hu⟩ := wokenUp hT hWaits hrX hlX hsusp he hs'
  have hexec : Run.exec step w (quiet ++ [e]) = s' := by
    rw [Run.exec_append, Run.exec_cons, Run.tryStep_of_some _ _ hs', Run.exec_nil]
  have hcaller : s'.caller p = w.caller p := hexec ▸ caller_of_exec hall
  rw [Run.exec_append _ _ (quiet ++ [e]), exec_setCaller hall, hexec,
    Run.exec_append _ w (quiet ++ [e]), hexec]
  -- the last step of either call
  have hget := go_get hu.sub_eq hu.reg_eq rfl (by rw [hcaller, hwaited])
  have hheld := go_held (s := s'.setCaller p c) hu.sub_eq rfl (by rw [setCaller_self, hcwaited])
  have hhandle : (s'.str.receive { rX with phase := .toGet } l'
      (s'.str.que.readReg l' rX.type)).handle = rX.handle := by
    cases s'.str.que.readReg l' rX.type <;> rfl
  rw [observe_resumed hu.reg_eq hheld rfl rfl, observe_resumed hu.reg_eq hget hhandle rfl]
  simp only [setCaller_self, Report.ok, hcval]
  rw [← hlimits, ← htype]
  by_cases hpub : ∃ vals, e = .publish vals
  · obtain ⟨vals, rfl⟩ := hpub
    obtain ⟨hsome, hnone⟩ := hu.published vals rfl
    cases harr : arriving (Run.exec step w quiet).str.que.limits rX.type vals with
    | some v =>
        obtain ⟨n, hread⟩ := hsome v harr
        simp only [hread, checkNext, Option.map_some]
        rw [held_eq_value]
        constructor
        · rintro ⟨hv, hb⟩
          exact ⟨vals, v, rfl, harr, hv, hb⟩
        · rintro ⟨vals', v', heq, harr', hv, hb⟩
          cases heq
          rw [harr] at harr'
          cases harr'
          exact ⟨hv, hb⟩
    | none =>
        simp only [hnone harr, checkNext, Option.map_some]
        constructor
        · exact fun h => absurd h held_ne_ended
        · rintro ⟨vals', v', heq, harr', -⟩
          cases heq
          rw [harr] at harr'
          cases harr'
  · have hno : ∀ vals, e ≠ .publish vals := fun vals heq => hpub ⟨vals, heq⟩
    simp only [hu.ended hno, checkNext, Option.map_some]
    constructor
    · exact fun h => absurd h held_ne_ended
    · rintro ⟨vals, v, heq, -⟩
      exact absurd heq (hno vals)

/-- **Both calls agree** exactly when `ready` finds the call done at once, or when the
value that ends the wait is held already. -/
theorem agree_iff (toBool : T → Bool) (limits : Limits) (as quiet : List (Action T)) (e : Action T)
    {r : Reader T} {l : SubReg} (hs : s = Run.exec step (init limits) as)
    (hr : s.str.sub p = some r) (hl : s.str.que.regs[r.handle]? = some l)
    (hphase : r.phase = .idle ∨ r.phase = .ended)
    (hwait : (s.begin p .coAwait).Waiting p → EndsWait s p quiet e) :
    Agree toBool s p (quiet ++ [e]) ↔ ReadyAtOnce s l ∨ AlreadyHeld toBool s p r l e := by
  by_cases hk : l.kicked = true
  · -- neither call waits, and only `co_await` finds the end
    obtain ⟨⟨hwa, hoa⟩, hwb, hob⟩ := begin_kicked toBool hr hl hphase hk
    rw [Agree, callNext, callNext, if_neg hwa, if_neg hwb, hoa, hob]
    constructor
    · exact fun h => absurd h held_ne_ended
    · rintro (⟨hk', -⟩ | ⟨hk', -⟩) <;> rw [hk] at hk' <;> cases hk'
  · have hk : l.kicked = false := by simpa using hk
    by_cases hat : s.str.que.succPos l = s.str.que.pos ∧ s.str.que.closed = false
    · -- both calls wait
      obtain ⟨w, c, hwa, hwb, hrw, hwaiting, hwaited, hval, hcwaited, hcval⟩ :=
        begin_waits hr hl hphase hk hat.1 hat.2
      obtain ⟨r', hr', htype⟩ := hrw
      have hends := hwait (hwa ▸ hwaiting)
      have hwaitb : (w.setCaller p c).Waiting p := hwaiting
      have hw : w = Run.exec step (init limits) (as ++ [.next p .coAwait, .go p, .go p, .go p]) := by
        rw [Run.exec_append, ← hs, ← hwa, begin]
      rw [Agree, callNext, callNext, hwa, hwb, if_pos hwaiting, if_pos hwaitb,
        agree_of_waits hw hr' ⟨hends.foreign, hwa ▸ hends.waits, hends.wakes⟩ hwaited hcwaited hcval]
      have hlimits : s.str.que.limits = limits := hs ▸ limits_exec limits as
      rw [htype, ← hlimits]
      constructor
      · exact fun h => .inr ⟨hk, h⟩
      · rintro (⟨-, hready⟩ | ⟨-, h⟩)
        · have hclosed := hready hat.1
          rw [hat.2] at hclosed
          cases hclosed
        · exact h
    · have hra : ReadyAtOnce s l := ⟨hk, fun hpos => by simpa [hpos] using hat⟩
      have hadv : s.str.que.advanceReg l r.type =
          ({ l with pos := s.str.que.advancedPos l r.type }, true) := by
        rw [Queue.advanceReg, hk, if_neg (by simp), if_neg hat]
      obtain ⟨hwb, hob⟩ := begin_ready toBool .blocking hr hl hphase hadv rfl rfl
      obtain ⟨hwa, hoa⟩ := begin_ready toBool .coAwait hr hl hphase hadv rfl rfl
      rw [Agree, callNext, callNext, if_neg hwa, if_neg hwb, hoa, hob]
      exact ⟨fun _ => .inl hra, fun _ => rfl⟩

/-- A subscriber that has received one value. -/
def firstValue : List (Action Nat) :=
  [.join 0 .allValues .recent, .publish [7], .next 0 .coAwait, .go 0]

/-- A conversion to `bool` that waits keeps the old value. -/
theorem agree_fails : ¬ ∀ (toBool : Nat → Bool) (limits : Limits) (as : List (Action Nat)) p e,
    (∃ r ∈ (Run.exec step (init limits) as).str.sub p, r.phase = .idle) → Wakes p e →
      Agree toBool (Run.exec step (init limits) as) p [e] := by
  intro h
  have hagree : observe (· ≠ 0) (callNext (Run.exec step (init {}) firstValue) 0 .blocking
      [.publish [8]]) 0 = observe (· ≠ 0) (callNext (Run.exec step (init {}) firstValue) 0 .coAwait
      [.publish [8]]) 0 := h _ {} firstValue 0 (.publish [8]) (by decide) (List.cons_ne_nil 8 [])
  have hblocking : observe (· ≠ 0) (callNext (Run.exec step (init {}) firstValue) 0 .blocking
      [.publish [8]]) 0 = some (true, some 7, 2) := by decide
  have hcoAwait : observe (· ≠ 0) (callNext (Run.exec step (init {}) firstValue) 0 .coAwait
      [.publish [8]]) 0 = some (true, some 8, 2) := by decide
  rw [hblocking, hcoAwait] at hagree
  cases hagree

/-- The same value once more, while another subscriber joins. -/
theorem agree_sameValue : Agree (· ≠ 0) (Run.exec step (init {}) firstValue) 0
    ([.join 1 .skipToRecent .recent] ++ [.publish [7]]) := by
  have hr : (Run.exec step (init {}) firstValue).str.sub 0 =
      some { handle := 0, type := .allValues, base := some 0, received := [(1, 7)] } := rfl
  have hl : (Run.exec step (init {}) firstValue).str.que.regs[0]? =
      some { pos := 1, sub := 0 } := rfl
  have hval : ((Run.exec step (init {}) firstValue).caller 0).val = some 7 := rfl
  have hends : EndsWait (Run.exec step (init {}) firstValue) 0 [.join 1 .skipToRecent .recent]
      (.publish [7]) := ⟨by simp [Foreign], by decide, List.cons_ne_nil 7 []⟩
  exact (agree_iff _ {} firstValue _ _ rfl hr hl (.inl rfl) fun _ => hends).mpr
    (.inr ⟨rfl, [7], 7, rfl, rfl, hval, rfl⟩)

end Session

end Publisher

end Cocls
