import Cocls.Future

/-!
# Cocls.Future.Reference

A `future<T>` constructed from a function that returns a `future<T &>`.

The function constructs its `future<T &>` in the memory of the `future<T>`, and
when it returns the object is used as a `future<T>`: nothing is converted.  What
the members of the union mean is said by `_state` alone.  A `promise<T &>` sets
`value_ref`, which both kinds read as a pointer; the factory `set_value` of a
`future<T &>` sets `value`, which a `future<T>` reads as an object of type `T`.

Where the union is in a future depends on the alignment of its members: `offset`
is the place of the union in each of the two kinds.
-/

namespace Cocls

namespace Future

/-- `future<T &>` or `future<T>`. -/
inductive Kind where
  | reference
  | value
deriving DecidableEq, Repr

/-- `future_common::State`. -/
inductive State where
  | notValue
  | value
  | valueRef
  | exception
deriving DecidableEq, Repr

/-- What was constructed in the union. -/
inductive Member (T E : Type*) where
  | value (x : T)
  /-- a pointer to the object at this address -/
  | ptr (a : Nat)
  | exception (e : E)
deriving DecidableEq, Repr

/-- A future as it is in memory. -/
structure Object (T E : Type*) where
  /-- what it was constructed as -/
  kind : Kind
  /-- `_awaiter` -/
  awaiter : Option Awaiter
  /-- `_state` -/
  state : State := .notValue
  /-- the union, and where it was written -/
  storage : Option (Nat × Member T E) := none
deriving DecidableEq, Repr

/-- What `value()` gives. -/
inductive Reading (T E : Type*) where
  | value (x : T)
  | exception (e : E)
  /-- `value_not_ready_exception` -/
  | notReady
  /-- `await_canceled_exception` -/
  | canceled
  /-- what is read is not there -/
  | undefined
deriving DecidableEq, Repr

/-- What a future was resolved with. -/
inductive Outcome (T E : Type*) where
  | value (x : T)
  | reference (a : Nat)
  | exception (e : E)
  | noValue
deriving DecidableEq, Repr

/-- What the promise of a `future<T &>` resolves it with. -/
def Outcome.ofArg {T E : Type*} : PromiseArg Nat E → Outcome T E
  | .value a => .reference a
  | .exception e => .exception e
  | .drop => .noValue

namespace Object

variable {T E : Type*} (offset : Kind → Nat) (objects : Nat → T) (k : Kind) (o : Object T E)

/-- `pending()`. -/
def pending : Bool := o.awaiter ≠ some .theInstance ∧ o.awaiter ≠ some .disabled

/-- The member of the union of a future of kind `k`, if there is one at its place. -/
def member : Option (Member T E) :=
  match o.storage with
  | none => none
  | some (n, m) => if n = offset k then some m else none

/-- `value()` of a future of kind `k`; the referenced objects are `objects`. -/
def value : Reading T E :=
  match o.state with
  | .notValue => if o.pending then .notReady else .canceled
  | .exception =>
      match o.member offset k with
      | some (.exception e) => .exception e
      | _ => .undefined
  | .value =>
      match k, o.member offset k with
      -- `*_value`
      | .reference, some (.ptr a) => .value (objects a)
      | .value, some (.value x) => .value x
      | _, _ => .undefined
  | .valueRef =>
      match o.member offset k with
      | some (.ptr a) => .value (objects a)
      | _ => .undefined

/-- The destructor of a future of kind `k`: what is left in the union.  There is no result if it
destroys what is not there. -/
def destroy : Option (Option (Nat × Member T E)) :=
  match o.state with
  | .value =>
      match k, o.member offset k with
      -- a pointer
      | .reference, some (.ptr _) => some none
      | .value, some (.value _) => some none
      | _, _ => none
  | .exception =>
      match o.member offset k with
      | some (.exception _) => some none
      | _ => none
  | .notValue | .valueRef => some o.storage

/-! ### The constructors, and what a promise does -/

/-- How a function makes its `future<T &>`. -/
inductive Made (E : Type*) where
  /-- from a function that receives the promise -/
  | function
  | setValue (a : Nat)
  | setException (e : E)
  | setNotValue
deriving DecidableEq, Repr

/-- The constructors of `future<T &>`. -/
def make : Made E → Object T E
  | .function => { kind := .reference, awaiter := none }
  | .setValue a =>
      { kind := .reference, awaiter := some .disabled, state := .value
        storage := some (offset .reference, .ptr a) }
  | .setException e =>
      { kind := .reference, awaiter := some .disabled, state := .exception
        storage := some (offset .reference, .exception e) }
  | .setNotValue => { kind := .reference, awaiter := some .disabled }

/-- `future<T>::set_value`. -/
def makeValue (x : T) : Object T E :=
  { kind := .value, awaiter := some .disabled, state := .value
    storage := some (offset .value, .value x) }

/-- `new(this) future<T>(); get_promise()(std::current_exception());` -/
def makeFailed (e : E) : Object T E :=
  { kind := .value, awaiter := some .disabled, state := .exception
    storage := some (offset .value, .exception e) }

/-- `set` and `resolve` of a `future<T &>`. -/
def resolve : PromiseArg Nat E → Object T E
  | .value a =>
      { o with storage := some (offset .reference, .ptr a), state := .valueRef
               awaiter := some .disabled }
  | .exception e =>
      { o with storage := some (offset .reference, .exception e), state := .exception
               awaiter := some .disabled }
  | .drop => { o with awaiter := some .disabled }

end Object

/-- The future has a promise. -/
def Object.Made.isFunction {E : Type*} : Object.Made E → Bool
  | .function => true
  | _ => false

/-- What a future that a function made was resolved with, if it is. -/
def Object.Made.outcome {T E : Type*} : Object.Made E → Option (Outcome T E)
  | .function => none
  | .setValue a => some (.reference a)
  | .setException e => some (.exception e)
  | .setNotValue => some .noValue

/-! ## The life of a `future<T>` -/

/-- What the memory of the `future<T>` is used for. -/
inductive Phase where
  | empty
  /-- a function runs and constructs its `future<T &>` there; `again`: called by `result_of` -/
  | running (again : Bool)
  /-- there is a `future<T>` -/
  | captured
deriving DecidableEq, Repr

/-- The memory of a `future<T>`, and the objects that can be referenced. -/
structure Cell (T E : Type*) where
  objects : Nat → T
  phase : Phase := .empty
  object : Option (Object T E) := none
  /-- a `promise<T &>` points at the future -/
  promise : Bool := false
  /-- history: how the function made its future -/
  made : Option (Object.Made E) := none
  /-- history: what the future was resolved with -/
  outcome : Option (Outcome T E) := none

namespace Cell

variable {T E : Type*}

inductive Action (T E : Type*) where
  /-- `future(Fn &&)`, up to the call of the function -/
  | construct
  /-- `result_of` or `operator<<`, up to the call of the function -/
  | resultOf
  /-- `future<T>::set_value` -/
  | setValue (x : T)
  /-- the function makes the future that it returns -/
  | make (m : Object.Made E)
  | throws (e : E)
  | returns
  | call (arg : PromiseArg Nat E)
  | subscribe (i : Nat)
  /-- a referenced object gets another value -/
  | store (a : Nat) (x : T)
  | destroy

section Steps

variable (offset : Kind → Nat) (s : Cell T E)

/-- `~future()` of a `future<T>` that is not pending. -/
def destroyFor (phase : Phase) : Option (Cell T E) :=
  match s.phase, s.object with
  | .captured, some o =>
      if o.pending then none
      else
        (o.destroy offset .value).map fun _ =>
          { s with phase := phase, object := none, made := none, outcome := none }
  | _, _ => none

/-- One step. -/
def step (s : Cell T E) : Action T E → Option (Cell T E)
  | .construct => if s.phase = .empty then some { s with phase := .running false } else none
  | .resultOf => s.destroyFor offset (.running true)
  | .setValue x =>
      if s.phase = .empty then
        some { s with phase := .captured, object := some (.makeValue offset x)
                      outcome := some (.value x) }
      else none
  | .make m =>
      match s.phase, s.object with
      | .running _, none =>
          some { s with object := some (.make offset m), promise := m.isFunction, made := some m
                        outcome := m.outcome }
      | _, _ => none
  | .throws e =>
      match s.phase, s.object with
      | .running true, none =>
          some { s with phase := .captured, object := some (.makeFailed offset e)
                        outcome := some (.exception e) }
      | .running false, none => some { s with phase := .empty }
      | _, _ => none
  | .returns =>
      match s.phase, s.object with
      | .running _, some _ => some { s with phase := .captured }
      | _, _ => none
  | .call arg =>
      match s.promise, s.object with
      | true, some o =>
          some { s with object := some (o.resolve offset arg), promise := false
                        outcome := some (.ofArg arg) }
      | _, _ => none
  | .subscribe i =>
      match s.object with
      | some o =>
          if o.pending then some { s with object := some { o with awaiter := some (.object i) } }
          else none
      | none => none
  | .store a x => some { s with objects := Function.update s.objects a x }
  | .destroy => s.destroyFor offset .empty

/-- What reading a future that was resolved so gives. -/
def expected : Option (Outcome T E) → Reading T E
  | none => .notReady
  | some (.value x) => .value x
  | some (.reference a) => .value (s.objects a)
  | some (.exception e) => .exception e
  | some .noValue => .canceled

/-- The `future<T>` is as good as the future that was captured. -/
structure CapturesRight (s : Cell T E) : Prop where
  /-- it gives the value of the referenced object, the exception, or that there is no value -/
  reads : ∀ o, s.phase = .captured → s.object = some o →
    o.value offset s.objects .value = s.expected s.outcome
  /-- as reading it as what it was constructed as does -/
  same : ∀ o, s.phase = .captured → s.object = some o →
    o.value offset s.objects .value = o.value offset s.objects o.kind
  /-- its destructor destroys only what is stored -/
  destroys : ∀ o, s.phase = .captured → s.object = some o → (o.destroy offset .value).isSome

/-- What is in the union can be read from there also in a `future<T>`. -/
def Reaches (r : Option (Outcome T E)) : Prop :=
  offset .value = offset .reference ∨ r = none ∨ r = some .noValue

/-- The future that is captured was not made by `set_value`; and where the unions of the two
kinds are at different places, it neither holds a reference or an exception nor gets one. -/
def Keeps (s : Cell T E) : Action T E → Prop
  | .returns => (∀ a, s.made ≠ some (.setValue a)) ∧ Reaches offset s.outcome
  | .call arg => s.phase = .captured → Reaches (T := T) offset (some (.ofArg arg))
  | _ => True

end Steps

/-! ## What a future holds -/

variable {offset : Kind → Nat} {objects : Nat → T} {o : Object T E}
  {made : Option (Object.Made E)} {outcome : Option (Outcome T E)} {promise : Bool}

/-- A future in memory: how it was made, what it was resolved with, and whether a promise points
at it. -/
inductive Holds (offset : Kind → Nat) :
    Object T E → Option (Object.Made E) → Option (Outcome T E) → Bool → Prop
  | pending (awaiter : Option Awaiter)
      (h : awaiter ≠ some .theInstance ∧ awaiter ≠ some .disabled) :
      Holds offset ⟨.reference, awaiter, .notValue, none⟩ (some .function) none true
  | called (a : Nat) :
      Holds offset ⟨.reference, some .disabled, .valueRef, some (offset .reference, .ptr a)⟩
        (some .function) (some (.reference a)) false
  | factory (a : Nat) :
      Holds offset ⟨.reference, some .disabled, .value, some (offset .reference, .ptr a)⟩
        (some (.setValue a)) (some (.reference a)) false
  | own (x : T) :
      Holds offset ⟨.value, some .disabled, .value, some (offset .value, .value x)⟩
        none (some (.value x)) false
  | failed (k : Kind) (e : E) (made : Option (Object.Made E)) (h : ∀ a, made ≠ some (.setValue a)) :
      Holds offset ⟨k, some .disabled, .exception, some (offset k, .exception e)⟩
        made (some (.exception e)) false
  | noValue (made : Option (Object.Made E)) (h : ∀ a, made ≠ some (.setValue a)) :
      Holds offset ⟨.reference, some .disabled, .notValue, none⟩ made (some .noValue) false

/-- It was not made by `set_value`, and a `future<T>` finds what is in it. -/
def Fits (offset : Kind → Nat) (made : Option (Object.Made E)) (outcome : Option (Outcome T E)) :
    Prop :=
  (∀ a, made ≠ some (.setValue a)) ∧ Reaches offset outcome

theorem Holds.pending_iff (h : Holds offset o made outcome promise) :
    (o.pending = true ↔ promise = true) ∧ (o.pending = true ↔ outcome = none) := by
  cases h <;> simp_all [Object.pending]

/-- A future read as what it was constructed as. -/
theorem Holds.reads_kind (h : Holds offset o made outcome promise) (s : Cell T E) :
    o.value offset s.objects o.kind = s.expected outcome := by
  cases h with
  | pending awaiter h => simp [Object.value, Object.pending, expected, h]
  | called a => simp [Object.value, Object.member, expected]
  | factory a => simp [Object.value, Object.member, expected]
  | own x => simp [Object.value, Object.member, expected]
  | failed k e made h => simp [Object.value, Object.member, expected]
  | noValue made h => simp [Object.value, Object.pending, expected]

/-- **Captured right**: read as a `future<T>` it gives the same, and its destructor finds what it
destroys. -/
theorem Holds.captured (h : Holds offset o made outcome promise)
    (hfit : o.kind = .reference → Fits offset made outcome) (s : Cell T E) :
    o.value offset s.objects .value = s.expected outcome ∧ (o.destroy offset .value).isSome := by
  cases h with
  | pending awaiter h => simp [Object.value, Object.destroy, Object.pending, expected, h]
  | called a =>
      have hsame : offset .value = offset .reference := by
        simpa [Reaches] using (hfit rfl).2
      simp [Object.value, Object.destroy, Object.member, expected, hsame]
  | factory a => exact absurd rfl ((hfit rfl).1 a)
  | own x => simp [Object.value, Object.destroy, Object.member, expected]
  | failed k e made h =>
      cases k with
      | value => simp [Object.value, Object.destroy, Object.member, expected]
      | reference =>
          have hsame : offset .value = offset .reference := by
            simpa [Reaches] using (hfit rfl).2
          simp [Object.value, Object.destroy, Object.member, expected, hsame]
  | noValue made h => simp [Object.value, Object.destroy, Object.pending, expected]

/-- **Captured wrong**: what a `future<T>` reads is not there. -/
theorem Holds.undefined (h : Holds offset o made outcome promise) (hk : o.kind = .reference)
    (hfit : ¬ Fits offset made outcome) :
    o.value offset objects .value = .undefined ∧ outcome ≠ none := by
  cases h with
  | pending awaiter h => exact absurd ⟨by simp, .inr (.inl rfl)⟩ hfit
  | noValue made h => exact absurd ⟨h, .inr (.inr rfl)⟩ hfit
  | own x => cases hk
  | factory a =>
      by_cases hsame : offset .reference = offset .value <;>
        simp [Object.value, Object.member, hsame]
  | called a =>
      have hne : ¬ offset .reference = offset .value :=
        fun heq => hfit ⟨by simp, .inl heq.symm⟩
      simp [Object.value, Object.member, hne]
  | failed k e made h =>
      obtain rfl : k = .reference := hk
      have hne : ¬ offset .reference = offset .value := fun heq => hfit ⟨h, .inl heq.symm⟩
      simp [Object.value, Object.member, hne]

/-! ## Every step -/

/-- Nothing is captured yet. -/
def start (objects : Nat → T) : Cell T E := { objects := objects }

/-- The invariant. -/
structure Inv (offset : Kind → Nat) (s : Cell T E) : Prop where
  holds : ∀ o, s.object = some o → Holds offset o s.made s.outcome s.promise
  vacant : s.object = none → s.promise = false ∧ s.made = none ∧ s.outcome = none
  empty : s.phase = .empty → s.object = none
  running : ∀ again o, s.phase = .running again → s.object = some o → o.kind = .reference
  fits : ∀ o, s.phase = .captured → s.object = some o → o.kind = .reference →
    Fits offset s.made s.outcome

variable {s s' : Cell T E}

theorem Inv.capturesRight (h : Inv offset s) : CapturesRight offset s := by
  have hc : ∀ o, s.phase = .captured → s.object = some o →
      o.value offset s.objects .value = s.expected s.outcome ∧ (o.destroy offset .value).isSome :=
    fun o hp ho => (h.holds o ho).captured (h.fits o hp ho) s
  exact
    { reads := fun o hp ho => (hc o hp ho).1
      same := fun o hp ho => (hc o hp ho).1.trans ((h.holds o ho).reads_kind s).symm
      destroys := fun o hp ho => (hc o hp ho).2 }

/-- Memory without a future in it may be used in any way. -/
theorem Inv.reuse (h : Inv offset s) (ho : s.object = none) {phase : Phase} :
    Inv offset { s with phase := phase } := by
  have hnot : ∀ o, s.object ≠ some o := fun o hs => by
    rw [ho] at hs
    cases hs
  exact
    { holds := fun o hs => absurd hs (hnot o)
      vacant := h.vacant
      empty := fun _ => ho
      running := fun _ o _ hs => absurd hs (hnot o)
      fits := fun o _ hs => absurd hs (hnot o) }

/-- A future is constructed, or it changes. -/
theorem Inv.put {o : Object T E} {phase : Phase} {objects : Nat → T}
    (h : Holds offset o made outcome promise) (hphase : phase ≠ .empty)
    (hrun : ∀ again, phase = .running again → o.kind = .reference)
    (hfit : phase = .captured → o.kind = .reference → Fits offset made outcome) :
    Inv offset (⟨objects, phase, some o, promise, made, outcome⟩ : Cell T E) :=
  { holds := fun o' ho => by cases ho; exact h
    vacant := fun ho => by cases ho
    empty := fun hp => absurd hp hphase
    running := fun again o' hp ho => by cases ho; exact hrun again hp
    fits := fun o' hp ho => by cases ho; exact hfit hp }

/-- Where there is a future the memory is in use. -/
theorem Inv.phase_ne (h : Inv offset s) (ho : s.object = some o) : s.phase ≠ .empty := fun hp => by
  rw [h.empty hp] at ho
  cases ho

/-- `~future()`. -/
theorem Inv.destroyFor (h : Inv offset s) {phase : Phase}
    (hs : s.destroyFor offset phase = some s') : Inv offset s' := by
  simp only [Cell.destroyFor] at hs
  split at hs
  · next o hp ho =>
    split at hs
    · cases hs
    · next hpend =>
      obtain ⟨m, -, rfl⟩ := Option.map_eq_some_iff.mp hs
      have hpromise : s.promise = false := by
        cases hpr : s.promise with
        | false => rfl
        | true => exact absurd ((h.holds o ho).pending_iff.1.mpr hpr) hpend
      exact
        { holds := fun o hs => by cases hs
          vacant := fun _ => ⟨hpromise, rfl, rfl⟩
          empty := fun _ => rfl
          running := fun _ o _ hs => by cases hs
          fits := fun o _ hs => by cases hs }
  · cases hs

theorem holds_make (m : Object.Made E) :
    Holds offset (.make offset m : Object T E) (some m) m.outcome m.isFunction := by
  cases m with
  | function => exact .pending none (by decide)
  | setValue a => exact .factory a
  | setException e => exact .failed .reference e _ (by simp)
  | setNotValue => exact .noValue _ (by simp)

theorem make_kind (m : Object.Made E) : (Object.make offset m : Object T E).kind = .reference := by
  cases m <;> rfl

/-- A promise finds its future pending, and resolves it. -/
theorem Holds.resolve (h : Holds offset o made outcome true) (arg : PromiseArg Nat E) :
    made = some .function ∧ (o.resolve offset arg).kind = .reference ∧
      Holds offset (o.resolve offset arg) made (some (.ofArg arg)) false := by
  cases h with
  | pending awaiter h =>
      refine ⟨rfl, ?_⟩
      cases arg with
      | value a => exact ⟨rfl, .called a⟩
      | exception e => exact ⟨rfl, .failed .reference e _ (by simp)⟩
      | drop => exact ⟨rfl, .noValue _ (by simp)⟩

theorem Holds.subscribe (h : Holds offset o made outcome promise) (hp : o.pending = true)
    (i : Nat) : Holds offset { o with awaiter := some (.object i) } made outcome promise ∧
      o.kind = .reference := by
  cases h with
  | pending awaiter h => exact ⟨.pending _ (by simp), rfl⟩
  | _ => simp [Object.pending] at hp

theorem Inv.step (h : Inv offset s) {a : Action T E} (hk : Keeps offset s a)
    (hs : s.step offset a = some s') : Inv offset s' := by
  cases a with
  | construct =>
      simp only [Cell.step] at hs
      split at hs
      · next hp => cases hs; exact h.reuse (h.empty hp)
      · cases hs
  | resultOf => exact h.destroyFor hs
  | setValue x =>
      simp only [Cell.step] at hs
      split at hs
      · next hp =>
        cases hs
        obtain ⟨hpr, hm, -⟩ := h.vacant (h.empty hp)
        rw [hpr, hm]
        exact .put (.own x) (by simp) (by simp) (by simp [Object.makeValue])
      · cases hs
  | make m =>
      simp only [Cell.step] at hs
      split at hs
      · next again hp ho =>
        cases hs
        rw [hp]
        exact .put (holds_make m) (by simp) (fun _ _ => make_kind m) (by simp)
      · cases hs
  | throws e =>
      simp only [Cell.step] at hs
      split at hs
      · next hp ho =>
        cases hs
        obtain ⟨hpr, hm, -⟩ := h.vacant ho
        rw [hpr, hm]
        exact .put (.failed .value e none (by simp)) (by simp) (by simp)
          (by simp [Object.makeFailed])
      · next hp ho => cases hs; exact h.reuse ho
      · cases hs
  | returns =>
      simp only [Cell.step] at hs
      split at hs
      · next again o hp ho =>
        cases hs
        rw [ho]
        exact .put (h.holds o ho) (by simp) (by simp) fun _ _ => hk
      · cases hs
  | call arg =>
      simp only [Cell.step] at hs
      split at hs
      · next o hpr ho =>
        cases hs
        have hholds := h.holds o ho
        rw [hpr] at hholds
        obtain ⟨hm, hkind, hr⟩ := hholds.resolve arg
        exact .put hr (h.phase_ne ho) (fun _ _ => hkind) fun hp _ => ⟨by simp [hm], hk hp⟩
      · cases hs
  | subscribe i =>
      simp only [Cell.step] at hs
      split at hs
      · next o ho =>
        split at hs
        · next hp =>
          cases hs
          obtain ⟨hr, hkind⟩ := (h.holds o ho).subscribe hp i
          exact .put hr (h.phase_ne ho) (fun _ _ => hkind) fun hc => h.fits o hc ho
        · cases hs
      · cases hs
  | store a x =>
      cases hs
      exact ⟨h.holds, h.vacant, h.empty, h.running, h.fits⟩
  | destroy => exact h.destroyFor hs

/-- A future that does not fit is captured wrong. -/
theorem not_capturesRight_of_not_fits (hp : s.phase = .captured) (ho : s.object = some o)
    (h : Holds offset o s.made s.outcome s.promise) (hk : o.kind = .reference)
    (hfit : ¬ Fits offset s.made s.outcome) : ¬ CapturesRight offset s := by
  intro hc
  obtain ⟨hundef, hne⟩ :
      o.value offset s.objects .value = .undefined ∧ s.outcome ≠ none := h.undefined hk hfit
  have hreads := hc.reads o hp ho
  rw [hundef] at hreads
  cases hout : s.outcome with
  | none => exact hne hout
  | some r => rw [hout] at hreads; cases r <;> cases hreads

/-- A step that is not kept shows in the future that is captured. -/
theorem Inv.wrong (h : Inv offset s) {a : Action T E} (hk : ¬ Keeps offset s a)
    (hs : s.step offset a = some s') : ¬ CapturesRight offset s' := by
  cases a with
  | returns =>
      simp only [Cell.step] at hs
      split at hs
      · next again o hp ho =>
        cases hs
        exact not_capturesRight_of_not_fits rfl ho (h.holds o ho) (h.running again o hp ho) hk
      · cases hs
  | call arg =>
      obtain ⟨hp, hr⟩ := Classical.not_imp.1 hk
      simp only [Cell.step] at hs
      split at hs
      · next o hpr ho =>
        cases hs
        have hholds := h.holds o ho
        rw [hpr] at hholds
        obtain ⟨hm, hkind, hr'⟩ := hholds.resolve arg
        exact not_capturesRight_of_not_fits hp rfl hr' hkind fun hfit => hr hfit.2
      · cases hs
  | _ => exact absurd trivial hk

theorem inv_start (offset : Kind → Nat) (objects : Nat → T) :
    Inv offset (start objects : Cell T E) :=
  { holds := fun o ho => by cases ho
    vacant := fun _ => ⟨rfl, rfl, rfl⟩
    empty := fun _ => rfl
    running := fun _ o _ ho => by cases ho
    fits := fun o _ ho => by cases ho }

/-- **A reference future is captured right unless the factory made it**: in every run, and
wherever the unions of the two kinds of futures are at one place. -/
theorem capturesRight_iff (offset : Kind → Nat) (objects : Nat → T) (as : List (Action T E)) :
    (∀ n, CapturesRight offset (Run.exec (step offset) (start objects) (as.take n))) ↔
      Run.Meets (step offset) (Keeps offset) (start objects) as := by
  have hstep : ∀ (s : Cell T E) a s', Inv offset s → Keeps offset s a → s.step offset a = some s' →
      Inv offset s' := fun _ _ _ h hk hs => h.step hk hs
  have hbad : ∀ (s : Cell T E) a s', Inv offset s → ¬ Keeps offset s a →
      s.step offset a = some s' → ¬ CapturesRight offset s' := fun _ _ _ h hk hs => h.wrong hk hs
  exact Run.safe_iff_meets hstep hbad (fun _ h => h.capturesRight) (inv_start offset objects) as

/-- A function returns `future<T &>::set_value(x)`, with the unions at one place. -/
theorem capturesRight_fails : ¬ ∀ n, CapturesRight (fun _ => 16)
    (Run.exec (step fun _ => 16) (start id : Cell Nat Nat)
      ([.construct, .make (.setValue 5), .returns].take n)) := by
  intro h
  have hreads := (h 3).reads _ rfl rfl
  cases hreads

end Cell

end Future

end Cocls
