import Cocls.Run
import Mathlib.Logic.Function.Iterate

/-!
# Cocls.Generator

`generator<T>`, without an argument: the body of the coroutine and its
`promise_type`.

The body is a program over states of any type.  Resumed in a state it runs to
its next suspension: a `co_await`, a `co_yield`, or its end.  `course` is what
the body alone comes to; it knows nothing of the generator around it.

The fields of the promise are set by whoever accesses the generator and read by
`yield_suspend`, which resumes the caller.
-/

namespace Cocls

/-- How the body of a generator suspends when it is resumed. -/
inductive BodyStep (σ T E : Type*) where
  /-- in a `co_await`; the body goes on in state `b` -/
  | await (b : σ)
  | yield (v : T) (b : σ)
  | ret
  | throw (e : E)

/-- What an access of a generator reports. -/
inductive Report (T E : Type*) where
  | value (v : T)
  /-- `next()` is false, the end iterator, or a future without a value -/
  | ended
  /-- the exception of the body -/
  | failed (e : E)
  /-- `no_more_values_exception` -/
  | noMoreValues
  /-- `value_not_ready_exception` -/
  | notReady
deriving DecidableEq, Repr

/-- The value of a report. -/
def Report.toValue {T E : Type*} : Report T E → Option T
  | .value v => some v
  | _ => none

theorem Report.toValue_eq_some {T E : Type*} {r : Report T E} {v : T} :
    r.toValue = some v ↔ r = .value v := by
  cases r <;> simp [Report.toValue]

namespace Generator

variable {σ T E : Type*}

/-! ## The body -/

section Body

variable (body : σ → BodyStep σ T E)

/-- The body runs to its next suspension.  Kept are what it yielded, and where it is
unless it ended. -/
def advance : List (Report T E) × Option σ → List (Report T E) × Option σ
  | (os, none) => (os, none)
  | (os, some b) =>
      match body b with
      | .await b' => (os, some b')
      | .yield v b' => (os ++ [.value v], some b')
      | .ret => (os ++ [.ended], none)
      | .throw e => (os ++ [.failed e], none)

/-- The body from its start to its `n`-th suspension. -/
def course (b : σ) (n : Nat) : List (Report T E) × Option σ := (advance body)^[n] ([], some b)

/-- What the body yields up to its `n`-th suspension, and how it ends. -/
def outcomes (b : σ) (n : Nat) : List (Report T E) := (course body b n).1

/-- The state of the body after its `n`-th suspension. -/
def position (b : σ) (n : Nat) : Option σ := (course body b n).2

/-- The `r`-th outcome of a body without `co_await`. -/
def outcome (b : σ) (r : Nat) : Option (Report T E) := (outcomes body b (r + 1))[r]?

/-- The body has no `co_await` on its way. -/
def Synchronous (b : σ) : Prop :=
  ∀ n b', position body b n = some b' → ∀ b'', body b' ≠ .await b''

theorem course_succ (b : σ) (n : Nat) :
    course body b (n + 1) = advance body (course body b n) :=
  Function.iterate_succ_apply' _ _ _

/-- Reports of the body before its end. -/
def Values (os : List (Report T E)) : Prop := ∀ r ∈ os, ∃ v, r = .value v

/-- Reports of the body, the last of them its end. -/
def Ended (os : List (Report T E)) : Prop :=
  ∃ vs r, os = vs ++ [r] ∧ Values vs ∧ (r = .ended ∨ ∃ e, r = .failed e)

/-- **The body yields values until it ends**, by a return or an exception. -/
theorem values_or_ended (b : σ) (n : Nat) :
    match position body b n with
    | some _ => Values (outcomes body b n)
    | none => Ended (outcomes body b n) := by
  induction n with
  | zero => intro r hr; cases hr
  | succ n ih =>
      rw [position, outcomes] at ih ⊢
      rw [course_succ]
      generalize course body b n = c at ih
      obtain ⟨os, p⟩ := c
      cases p with
      | none => exact ih
      | some b' =>
          simp only [advance]
          cases body b' with
          | await b'' => exact ih
          | yield v b'' =>
              intro r hr
              rcases List.mem_append.mp hr with hr | hr
              · exact ih r hr
              · exact ⟨v, List.mem_singleton.mp hr⟩
          | ret => exact ⟨os, .ended, rfl, ih, .inl rfl⟩
          | throw e => exact ⟨os, .failed e, rfl, ih, .inr ⟨e, rfl⟩⟩

end Body

/-! ## promise_type -/

/-- The awaiter `_caller` points to. -/
inductive Caller where
  /-- `_internal` -/
  | internal
  /-- the awaiter of a coroutine that awaits `next()`, or of `subscribe` -/
  | awaiter (k : Nat)
deriving DecidableEq, Repr

/-- The resume function of `_internal`. -/
inductive ResumeFn where
  | sync
  | future
deriving DecidableEq, Repr

structure PromiseType (T E : Type*) where
  caller : Option Caller := none
  internal : Option ResumeFn := none
  ret : Option T := none
  exp : Option E := none
  done : Bool := false
  block : Bool := false
  /-- the future that `_awaiting` resolves -/
  awaiting : Option Nat := none
deriving DecidableEq, Repr

namespace PromiseType

variable (p : PromiseType T E)

def yieldValue (v : T) : PromiseType T E := { p with ret := some v }

def returnVoid : PromiseType T E := { p with done := true }

def unhandledException (e : E) : PromiseType T E := { p with exp := some e }

def finalSuspend : PromiseType T E := { p with ret := none }

def unblockSync : PromiseType T E := { p with block := true }

/-- `generator::value`. -/
def value : Report T E :=
  match p.exp with
  | some e => .failed e
  | none =>
      match p.ret with
      | some v => .value v
      | none => .notReady

/-- What `unblock_future` resolves `_awaiting` with. -/
def unblockFuture : Report T E :=
  if p.done then .ended
  else
    match p.exp with
    | some e => .failed e
    | none =>
        match p.ret with
        | some v => .value v
        -- `_ret` is null
        | none => .notReady

/-- `next_awt::await_resume`. -/
def awaitResume : Bool := !p.done

/-- What `next()` and `value()` report of a generator that completed its step. -/
def readNext : Report T E := if p.awaitResume then p.value else .ended

end PromiseType

/-! ### What the promise shows -/

/-- The fields of the promise after the reports `os` of the body. -/
def Shows (p : PromiseType T E) (os : List (Report T E)) : Prop :=
  match os.getLast? with
  | none => p.done = false ∧ p.exp = none ∧ p.ret = none
  | some (.value v) => p.done = false ∧ p.exp = none ∧ p.ret = some v
  | some .ended => p.done = true ∧ p.exp = none ∧ p.ret = none
  | some (.failed e) => p.done = false ∧ p.exp = some e ∧ p.ret = none
  | some _ => False

theorem shows_snoc (p : PromiseType T E) (vs : List (Report T E)) (r : Report T E) :
    Shows p (vs ++ [r]) ↔ Shows p [r] := by
  simp [Shows]

/-- The caller and the way it is resumed have no part in it. -/
theorem Shows.congr {p q : PromiseType T E} {os : List (Report T E)} (h : Shows p os)
    (hd : q.done = p.done) (he : q.exp = p.exp) (hr : q.ret = p.ret) : Shows q os := by
  rwa [Shows, hd, he, hr]

/-- Before the end of the body the promise is neither done nor has it an exception. -/
theorem Shows.of_values {p : PromiseType T E} {os : List (Report T E)} (h : Shows p os)
    (hv : Values os) : p.done = false ∧ p.exp = none := by
  rw [Shows] at h
  cases hl : os.getLast? with
  | none => rw [hl] at h; exact ⟨h.1, h.2.1⟩
  | some r =>
      obtain ⟨v, rfl⟩ := hv r (List.mem_of_getLast? hl)
      rw [hl] at h
      exact ⟨h.1, h.2.1⟩

/-- A client of `next()` and `value()` and one of a future read the outcome that the promise
shows. -/
theorem Shows.read {p : PromiseType T E} {r : Report T E} (h : Shows p [r]) :
    p.readNext = r ∧ p.unblockFuture = r := by
  rw [Shows, List.getLast?_singleton] at h
  cases r with
  | value v =>
      obtain ⟨hd, he, hr⟩ := h
      simp [PromiseType.readNext, PromiseType.awaitResume, PromiseType.value,
        PromiseType.unblockFuture, hd, he, hr]
  | ended =>
      obtain ⟨hd, he, hr⟩ := h
      simp [PromiseType.readNext, PromiseType.awaitResume, PromiseType.unblockFuture, hd]
  | failed e =>
      obtain ⟨hd, he, hr⟩ := h
      simp [PromiseType.readNext, PromiseType.awaitResume, PromiseType.value,
        PromiseType.unblockFuture, hd, he]
  | noMoreValues => exact h.elim
  | notReady => exact h.elim

/-- `value()` is the last outcome, unless the body returned. -/
theorem Shows.value {p : PromiseType T E} {r : Report T E} (h : Shows p [r]) (hr : r ≠ .ended) :
    p.value = r := by
  rw [Shows, List.getLast?_singleton] at h
  cases r with
  | value v => rw [PromiseType.value, h.2.1, h.2.2]
  | ended => exact absurd rfl hr
  | failed e => rw [PromiseType.value, h.2.1]
  | noMoreValues => exact h.elim
  | notReady => exact h.elim

/-! ## The coroutine -/

/-- Where the coroutine of a generator is. -/
inductive Place (σ : Type*) where
  /-- at its start or in `co_yield`; the next access resumes it -/
  | suspended (b : σ)
  | running (b : σ)
  /-- in `co_await` -/
  | awaiting (b : σ)
  /-- in `final_suspend` -/
  | done
deriving DecidableEq, Repr

/-- `h.done()`. -/
def Place.isDone : Place σ → Bool
  | .done => true
  | _ => false

/-- The place of a coroutine whose body is in this position. -/
def Place.At : Place σ → Option σ → Prop
  | .suspended b, p | .running b, p | .awaiting b, p => p = some b
  | .done, p => p = none

/-- The body was resumed and did not get to a `co_yield` yet. -/
def Place.atWork : Place σ → Bool
  | .running _ | .awaiting _ => true
  | .suspended _ | .done => false

structure Coroutine (σ T E : Type*) where
  promise : PromiseType T E := {}
  place : Place σ
deriving DecidableEq, Repr

/-- What the coroutine does when it suspends. -/
inductive Ran where
  | awaits
  /-- `yield_suspend` resumes the caller -/
  | resumes (c : Option Caller)

namespace Coroutine

/-- A generator that was not accessed yet. -/
def fresh (b : σ) : Coroutine σ T E := { place := .suspended b }

/-- `h.resume()` of a generator that is suspended, with the promise `p`. -/
def resume (g : Coroutine σ T E) (p : PromiseType T E) : Option (Coroutine σ T E) :=
  match g.place with
  | .suspended b => some ⟨p, .running b⟩
  | _ => none

/-- `next_async` of the awaiter `k`, and the handle that it returns is resumed; false if it
throws `no_more_values_exception`, which leaves `_caller` set. -/
def nextAsync (g : Coroutine σ T E) (k : Nat) : Option (Coroutine σ T E × Bool) :=
  if g.promise.caller ≠ none then none
  else
    let p := { g.promise with caller := some (.awaiter k) }
    if g.place.isDone then some ({ g with promise := p }, false)
    else (g.resume p).map fun g' => (g', true)

/-- `yield_suspend::await_suspend`. -/
def yieldSuspend (g : Coroutine σ T E) : Coroutine σ T E × Ran :=
  ({ g with promise := { g.promise with caller := none } }, .resumes g.promise.caller)

/-- The body runs to its next suspension. -/
def runBody (body : σ → BodyStep σ T E) (g : Coroutine σ T E) :
    Option (Coroutine σ T E × Ran) :=
  match g.place with
  | .running b =>
      some <| match body b with
      | .await b' => ({ g with place := .awaiting b' }, .awaits)
      | .yield v b' => yieldSuspend ⟨g.promise.yieldValue v, .suspended b'⟩
      | .ret => yieldSuspend ⟨g.promise.returnVoid.finalSuspend, .done⟩
      | .throw e => yieldSuspend ⟨(g.promise.unhandledException e).finalSuspend, .done⟩
  | _ => none

/-- What a `co_await` of the body waits for is there. -/
def wake (g : Coroutine σ T E) : Option (Coroutine σ T E) :=
  match g.place with
  | .awaiting b => some { g with place := .running b }
  | _ => none

end Coroutine

variable {body : σ → BodyStep σ T E} {b : σ}

/-- What `runBody` comes to: the body suspends in `co_await`, or has its next outcome `r` and
resumes the caller. -/
theorem runBody_cases {g g' : Coroutine σ T E} {x : Ran} (h : g.runBody body = some (g', x))
    {n : Nat} (hat : g.place.At (position body b n)) (hsh : Shows g.promise (outcomes body b n)) :
    (x = .awaits ∧ g'.promise = g.promise ∧ g'.place.atWork = true ∧
        g'.place.At (position body b (n + 1)) ∧ outcomes body b (n + 1) = outcomes body b n) ∨
      ∃ r, x = .resumes g.promise.caller ∧ g'.place.atWork = false ∧
        g'.place.At (position body b (n + 1)) ∧
        outcomes body b (n + 1) = outcomes body b n ++ [r] ∧ Shows g'.promise [r] ∧
        g'.promise = { g.promise with caller := none, ret := g'.promise.ret
                                      exp := g'.promise.exp, done := g'.promise.done } := by
  simp only [Coroutine.runBody] at h
  split at h
  · next b' hpl =>
    rw [hpl] at hat
    have hpos : position body b n = some b' := hat
    have hvals : Values (outcomes body b n) := by
      have := values_or_ended body b n
      rwa [hpos] at this
    obtain ⟨hd, he⟩ := hsh.of_values hvals
    have hcourse : course body b n = (outcomes body b n, some b') := by rw [← hpos]; rfl
    have hnext : course body b (n + 1) = advance body (outcomes body b n, some b') := by
      rw [course_succ, hcourse]
    simp only [advance] at hnext
    rw [Option.some.injEq] at h
    cases hb : body b' with
    | await b'' =>
        rw [hb] at h hnext
        obtain ⟨rfl, rfl⟩ := Prod.mk.inj h
        exact .inl ⟨rfl, rfl, rfl, congrArg Prod.snd hnext, by rw [outcomes, hnext]⟩
    | yield v b'' =>
        rw [hb] at h hnext
        obtain ⟨rfl, rfl⟩ := Prod.mk.inj h
        exact .inr ⟨.value v, rfl, rfl, congrArg Prod.snd hnext, congrArg Prod.fst hnext,
          ⟨hd, he, rfl⟩, rfl⟩
    | ret =>
        rw [hb] at h hnext
        obtain ⟨rfl, rfl⟩ := Prod.mk.inj h
        exact .inr ⟨.ended, rfl, rfl, congrArg Prod.snd hnext, congrArg Prod.fst hnext,
          ⟨rfl, he, rfl⟩, rfl⟩
    | throw e =>
        rw [hb] at h hnext
        obtain ⟨rfl, rfl⟩ := Prod.mk.inj h
        exact .inr ⟨.failed e, rfl, rfl, congrArg Prod.snd hnext, congrArg Prod.fst hnext,
          ⟨hd, rfl, rfl⟩, rfl⟩
  · cases h

theorem atWork_of_runBody {g : Coroutine σ T E} {x : Coroutine σ T E × Ran}
    (h : g.runBody body = some x) : g.place.atWork = true := by
  simp only [Coroutine.runBody] at h
  split at h
  · next hpl => rw [hpl]; rfl
  · cases h

end Generator

end Cocls
