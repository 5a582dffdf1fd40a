import Cocls.Promise.NoOrphan

/-!
# Cocls.Promise.WithDefault

`promise_with_default`: a promise that carries the value its future gets when
nobody calls it.

The object has two members, the pointer of its base class and `def`.  The base
class moves the pointer, and drops what a promise pointed at when another one is
assigned to it.  A move of `def` leaves `movedFrom` behind; what a value becomes
when it is moved to itself is `selfMove`.  A destructor that throws ends the
program.
-/

namespace Cocls

/-- The promises and futures of a program, with the defaults. -/
structure WithDefault (T E : Type*) where
  base : Promises T E := {}
  /-- `def` of each `promise_with_default` -/
  defaultOf : Nat → Option T := fun _ => none
  /-- history: the default that the future was paired with -/
  paired : Nat → Option T := fun _ => none
  /-- history: the call that the future was claimed by -/
  called : Nat → Option (PromiseArg T E) := fun _ => none

namespace WithDefault

variable {T E : Type*}

/-- An operation. -/
inductive Op (T E : Type*) where
  /-- a promise without a default is made for a future -/
  | make (f q : Nat)
  /-- `promise_with_default(std::move(q), d)` -/
  | construct (p q : Nat) (d : T)
  /-- `promise_with_default(promise_with_default &&)` -/
  | moveConstruct (p q : Nat)
  /-- one of these constructors, and the construction of `def` throws -/
  | constructThrows (p q : Nat)
  | moveAssign (p q : Nat)
  | call (p : Nat) (arg : PromiseArg T E) (throws : Bool)
  | destroy (p : Nat)
  | subscribe (f i : Nat)

section Operations

variable (movedFrom selfMove : T → T) (s : WithDefault T E)

/-- `promise<T>(std::move(prom)), def(d)` -/
def construct (p q : Nat) (d : T) : WithDefault T E :=
  { s with base := s.base.moveConstruct p q
           defaultOf := Function.update s.defaultOf p (some d)
           paired := match s.base.owner q with
             | none => s.paired
             | some f => Function.update s.paired f (some d) }

/-- What is left of `def` when it was moved away. -/
def leave (q : Nat) : Nat → Option T :=
  Function.update s.defaultOf q ((s.defaultOf q).map movedFrom)

/-- `promise_with_default(promise_with_default &&other) = default` -/
def moveConstruct (p q : Nat) : WithDefault T E :=
  { s with base := s.base.moveConstruct p q
           defaultOf := Function.update (s.leave movedFrom q) p (s.defaultOf q) }

/-- The base class is constructed, and destroyed again. -/
def constructThrows (p q : Nat) : WithDefault T E :=
  { s with base := (s.base.moveConstruct p q).destroy p, defaultOf := s.leave movedFrom q }

/-- `promise<T>::operator=(std::move(other)); def = std::move(def);` -/
def moveAssign (p q : Nat) : WithDefault T E :=
  if p = q then s
  else
    { s with base := s.base.moveAssign p q
             defaultOf := Function.update s.defaultOf p ((s.defaultOf p).map selfMove) }

/-- `set_value` of the base class. -/
def call (p : Nat) (arg : PromiseArg T E) (throws : Bool) : WithDefault T E :=
  { s with base := (s.base.setValue p arg throws).1
           called := match s.base.owner p with
             | none => s.called
             | some f => Function.update s.called f (some arg) }

/-- `this->set_value(std::move(def))`, and the destructor of the base class. -/
def destroy (p : Nat) (d : T) : WithDefault T E :=
  { s with base := (s.base.setValue p (.value d) false).1.destroy p
           defaultOf := Function.update s.defaultOf p none }

/-- One operation: a constructor needs a free address, the others a live object. -/
def step (s : WithDefault T E) : Op T E → Option (WithDefault T E)
  | .make f q =>
      if s.base.given f = false ∧ s.base.promise q = none then
        some { s with base := s.base.construct f q }
      else none
  | .construct p q d =>
      if s.base.promise p = none ∧ (s.base.promise q).isSome ∧ s.defaultOf q = none then
        some (s.construct p q d)
      else none
  | .moveConstruct p q =>
      if s.base.promise p = none ∧ (s.defaultOf q).isSome then
        some (s.moveConstruct movedFrom p q)
      else none
  | .constructThrows p q =>
      if s.base.promise p = none ∧ (s.base.promise q).isSome then
        some (s.constructThrows movedFrom p q)
      else none
  | .moveAssign p q =>
      if (s.defaultOf p).isSome ∧ (s.defaultOf q).isSome then some (s.moveAssign selfMove p q)
      else none
  | .call p arg throws => if (s.defaultOf p).isSome then some (s.call p arg throws) else none
  | .destroy p => (s.defaultOf p).map fun d => s.destroy p d
  | .subscribe f i =>
      if s.base.given f = true ∧ i ∉ s.base.used then
        some { s with base := s.base.subscribe f i }
      else none

/-- The objects `ps` are destroyed. -/
def destroyed (ps : List Nat) : WithDefault T E :=
  Run.exec (step movedFrom selfMove) s (ps.map .destroy)

/-- Each default stays with its future. -/
structure KeepsDefaults : Prop where
  /-- a future that was called has what it was called with -/
  called : ∀ f arg, s.called f = some arg →
    s.base.ready f = true ∧ s.base.stored f = arg.stored
  /-- a future that was not has its default, when all objects are destroyed -/
  finally_default : ∀ f d, s.paired f = some d → s.called f = none →
    ∀ ps : List Nat, (∀ p, (s.defaultOf p).isSome → p ∈ ps) →
      (s.destroyed movedFrom selfMove ps).base.ready f = true ∧
        (s.destroyed movedFrom selfMove ps).base.stored f = .value d

/-- What the code relies on: an object is only assigned to when it has no future, and when the
default that it has already is the one of the future it gets.  Nothing throws with a future in
its hands. -/
def Keeps : Op T E → Prop
  | .moveAssign p q => p ≠ q → s.base.owner p = none ∧
      (s.base.owner q ≠ none → (s.defaultOf p).map selfMove = s.defaultOf q)
  | .constructThrows _ q => s.defaultOf q ≠ none → s.base.owner q = none
  | .call p (.value _) true => s.base.owner p = none
  | _ => True

end Operations

/-! ## What the base class does to a future -/

/-- The future `o` names is resolved with `r`, and no other one changes. -/
structure Settles (b b' : Promises T E) (o : Option Nat) (r : Stored T E) : Prop where
  given : b'.given = b.given
  ready : ∀ f, b'.ready f = true ↔ o = some f ∨ b.ready f = true
  stored : ∀ f, b'.stored f = if o = some f then r else b.stored f

section Base

open Promises (InvAt)

variable {b b' b'' : Promises T E} {o : Option Nat} {r : Stored T E} {p q : Nat}

theorem Settles.refl (b : Promises T E) (r : Stored T E) : Settles b b none r :=
  ⟨rfl, by simp, by simp⟩

/-- Operations on promise objects that change no future. -/
theorem Settles.of_eq (h : Settles b b' o r) (hg : b''.given = b'.given)
    (ha : b''.awaiter = b'.awaiter) (hs : b''.stored = b'.stored) : Settles b b'' o r where
  given := hg.trans h.given
  ready f := by
    rw [← h.ready f, Promises.ready, Promises.ready, ha]
  stored f := by rw [hs, h.stored]

@[simp] theorem resolve_stored (f : Nat) : (b.resolve f).stored = b.stored := by
  unfold Promises.resolve
  dsimp only
  split <;> rfl

/-- A future that was stored to is resolved. -/
theorem settles_resolve {f : Nat} {stored : Nat → Stored T E} (v : Option (Option Nat))
    (hstored : ∀ g, stored g = if some f = some g then r else b.stored g) :
    Settles b (({ b.write p v with stored := stored } : Promises T E).resolve f) (some f) r where
  given := by rw [Promises.resolve_given]; rfl
  ready g := by
    by_cases hg : g = f
    · simp [Promises.ready, hg]
    · have hne : ¬ f = g := fun h => hg h.symm
      simp [Promises.ready, Promises.write, hg, hne]
  stored g := by rw [resolve_stored]; exact hstored g

/-- `set_value`, when it does not throw. -/
theorem settles_setValue {arg : PromiseArg T E} {throws : Bool}
    (hk : ∀ v, arg = .value v → throws = true → b.owner p = none)
    (hnew : arg = .drop → ∀ f, b.owner p = some f → b.stored f = .notValue) :
    Settles b (b.setValue p arg throws).1 (b.owner p) arg.stored := by
  unfold Promises.setValue
  rw [Promises.claim_eq]
  cases ho : b.owner p with
  | none => exact (Settles.refl b arg.stored).of_eq rfl rfl rfl
  | some f =>
      have hup : ∀ (x : Stored T E) (g : Nat),
          Function.update b.stored f x g = if some f = some g then x else b.stored g := by
        intro x g
        by_cases hg : g = f
        · simp [hg]
        · have hne : ¬ f = g := fun h => hg h.symm
          simp [hg, hne]
      cases arg with
      | value v =>
          cases throws with
          | true =>
              rw [hk v rfl rfl] at ho
              cases ho
          | false => exact settles_resolve _ (hup _)
      | exception e => exact settles_resolve _ (hup _)
      | drop =>
          refine settles_resolve _ fun g => ?_
          by_cases hg : f = g
          · subst hg
            simpa [PromiseArg.stored] using hnew rfl f ho
          · simp [hg]

theorem setValue_promise (arg : PromiseArg T E) (throws : Bool) :
    (b.setValue p arg throws).1.promise = Function.update b.promise p (some none) := by
  rcases Promises.setValue_fst b p arg throws with
    ⟨_, _, _, _, _, heq⟩ | ⟨_, heq⟩ | ⟨f, stored, _, heq⟩
  · rw [heq]; rfl
  · rw [heq]; rfl
  · rw [heq, Promises.resolve_promise]; rfl

/-- The destructor of a promise whose future is gone. -/
theorem destroy_setValue (arg : PromiseArg T E) (throws : Bool) :
    (b.setValue p arg throws).1.destroy p = (b.setValue p arg throws).1.write p none := by
  refine Promises.destroy_of_none _ p ?_
  simp [Promises.owner, setValue_promise]

theorem settles_moveConstruct (r : Stored T E) : Settles b (b.moveConstruct p q) none r :=
  (Settles.refl b r).of_eq rfl rfl rfl

theorem moveConstruct_promise : (b.moveConstruct p q).promise =
    Function.update (Function.update b.promise q (some none)) p (some (b.owner q)) := rfl

theorem settles_moveAssign (hpq : p ≠ q)
    (hnew : ∀ f, b.owner p = some f → b.stored f = .notValue) :
    Settles b (b.moveAssign p q) (b.owner p) .notValue := by
  have hdrop : Settles b (b.setValue p .drop false).1 (b.owner p) .notValue :=
    settles_setValue (by simp) fun _ => hnew
  rw [Promises.moveAssign, if_neg hpq]
  exact hdrop.of_eq rfl rfl rfl

/-- Assigned to is an object that points nowhere when its future has been dropped. -/
theorem moveAssign_promise (hpq : p ≠ q) : (b.moveAssign p q).promise =
    Function.update (Function.update (Function.update b.promise p (some none)) q (some none)) p
      (some (b.owner q)) := by
  have howner : (b.setValue p .drop false).1.owner q = b.owner q := by
    rw [Promises.owner, Promises.owner, setValue_promise, Function.update_of_ne hpq.symm]
  rw [Promises.moveAssign, if_neg hpq]
  simp only [Promises.claim_eq, Promises.write, howner, setValue_promise]

/-- A promise that was made by a move is destroyed again. -/
theorem settles_moveDestroy
    (hnew : ∀ f, b.owner q = some f → b.stored f = .notValue) :
    Settles b ((b.moveConstruct p q).destroy p) (b.owner q) .notValue := by
  have howner : (b.moveConstruct p q).owner p = b.owner q := by
    simp [Promises.owner, moveConstruct_promise]
  cases ho : b.owner q with
  | none =>
      rw [Promises.destroy_of_none _ p (howner.trans ho)]
      exact (Settles.refl b .notValue).of_eq rfl rfl rfl
  | some f =>
      rw [Promises.destroy_of_some _ p f (howner.trans ho), Promises.resolve_write]
      have hstored : ∀ g, b.stored g =
          if some f = some g then .notValue else (b.moveConstruct p q).stored g := by
        intro g
        by_cases hg : f = g
        · subst hg
          simpa using hnew f ho
        · simp [hg, Promises.moveConstruct, Promises.claim]
      have hset := settles_resolve (b := b.moveConstruct p q) (p := p) none hstored
      exact ⟨hset.given, hset.ready, fun g => hset.stored g⟩

end Base

/-! ## The invariant -/

section Runs

variable {movedFrom selfMove : T → T} {s s' : WithDefault T E} {p q f : Nat}

/-- The promise of `f` is somewhere. -/
def Carried (s : WithDefault T E) (f : Nat) : Prop := ∃ p, s.base.promise p = some (some f)

structure Inv (s : WithDefault T E) : Prop where
  base : Promises.InvAt s.base none
  live : ∀ p, (s.defaultOf p).isSome → (s.base.promise p).isSome
  finite : ∃ ps : List Nat, ∀ p, (s.defaultOf p).isSome → p ∈ ps
  /-- the default is the one that the future was paired with -/
  carries : ∀ p f, s.base.promise p = some (some f) → s.defaultOf p = s.paired f
  pending : ∀ f, s.Carried f → s.called f = none ∧ s.base.stored f = .notValue
  called : ∀ f arg, s.called f = some arg → s.base.ready f = true ∧ s.base.stored f = arg.stored
  kept : ∀ f d, s.paired f = some d → s.called f = none → s.base.ready f = true →
    s.base.stored f = .value d
  given : ∀ f, s.base.given f = false → s.paired f = none ∧ s.called f = none

theorem inv_init : Inv ({} : WithDefault T E) where
  base := Promises.inv_init
  live _ h := by cases h
  finite := ⟨[], fun _ h => by cases h⟩
  carries _ _ h := by cases h
  pending f := by
    rintro ⟨p, hp⟩
    cases hp
  called _ _ h := by cases h
  kept _ _ h := by cases h
  given _ _ := ⟨rfl, rfl⟩

theorem Inv.carried_given (h : Inv s) (hf : s.Carried f) : s.base.given f = true := by
  obtain ⟨p, hp⟩ := hf
  exact (h.base.live p f hp).1

theorem Inv.carried_pending (h : Inv s) (hf : s.Carried f) : s.base.ready f = false := by
  obtain ⟨p, hp⟩ := hf
  exact (h.base.live p f hp).2.1

theorem carried_of_owner (ho : s.base.owner p = some f) : s.Carried f :=
  ⟨p, (Promises.owner_eq_some_iff s.base p f).mp ho⟩

theorem Inv.notValue (h : Inv s) (p : Nat) (f : Nat) (ho : s.base.owner p = some f) :
    s.base.stored f = .notValue := (h.pending f (carried_of_owner ho)).2

/-- The default of an object with a future. -/
theorem Inv.default_of_owner (h : Inv s) (ho : s.base.owner p = some f) :
    s.defaultOf p = s.paired f := h.carries p f ((Promises.owner_eq_some_iff s.base p f).mp ho)

/-- **Step rule**: an operation resolves at most one future, with its default or as a call, and
its promises go to objects that have the default. -/
theorem Inv.next (h : Inv s) {o : Option Nat} {r : Stored T E}
    (hb : Promises.InvAt s'.base none) (hs : Settles s.base s'.base o r)
    (ho : ∀ f, o = some f → s.Carried f)
    (hcalled : ∀ f, s'.called f = s.called f ∨
      o = some f ∧ ∃ arg, s'.called f = some arg ∧ arg.stored = r)
    (hpaired : ∀ f, s'.paired f = s.paired f ∨ s'.Carried f)
    (hval : ∀ f d, o = some f → s.paired f = some d → s'.called f = none → r = .value d)
    (hcar : ∀ p f, s'.base.promise p = some (some f) → s'.defaultOf p = s'.paired f ∧ s.Carried f)
    (hlive : ∀ p, (s'.defaultOf p).isSome → (s'.base.promise p).isSome)
    (hfin : ∀ ps : List Nat, (∀ p, (s.defaultOf p).isSome → p ∈ ps) →
      ∃ ps : List Nat, ∀ p, (s'.defaultOf p).isSome → p ∈ ps) : Inv s' where
  base := hb
  live := hlive
  finite := by
    obtain ⟨ps, hps⟩ := h.finite
    exact hfin ps hps
  carries p f hp := (hcar p f hp).1
  pending f hf := by
    obtain ⟨p, hp⟩ := id hf
    have hcar := (hcar p f hp).2
    have hne : o ≠ some f := fun hof => by
      have hready := (hs.ready f).mpr (.inl hof)
      rw [(hb.live p f hp).2.1] at hready
      cases hready
    have hsame := (hcalled f).resolve_right fun hc => hne hc.1
    rw [hsame, hs.stored, if_neg hne]
    exact h.pending f hcar
  called f arg harg := by
    obtain hsame | ⟨hof, arg', harg', hr⟩ := hcalled f
    · rw [hsame] at harg
      have hne : o ≠ some f := fun hof => by
        rw [(h.pending f (ho f hof)).1] at harg
        cases harg
      rw [hs.ready, hs.stored, if_neg hne]
      exact ⟨.inr (h.called f arg harg).1, (h.called f arg harg).2⟩
    · obtain rfl : arg' = arg := Option.some.inj (harg'.symm.trans harg)
      rw [hs.ready, hs.stored, if_pos hof]
      exact ⟨.inl hof, hr.symm⟩
  kept f d hd hc hready := by
    obtain hsame | hf := hpaired f
    · rw [hsame] at hd
      by_cases hof : o = some f
      · rw [hs.stored, if_pos hof]
        exact hval f d hof hd hc
      · have hcs := (hcalled f).resolve_right fun hx => hof hx.1
        rw [hs.stored, if_neg hof]
        exact h.kept f d hd (hcs ▸ hc) (((hs.ready f).mp hready).resolve_left hof)
    · obtain ⟨p, hp⟩ := hf
      rw [(hb.live p f hp).2.1] at hready
      cases hready
  given f hf := by
    rw [hs.given] at hf
    have hnot : ¬ s.Carried f := fun hcar => by
      rw [h.carried_given hcar] at hf
      cases hf
    obtain ⟨hp, hc⟩ := h.given f hf
    refine ⟨?_, ?_⟩
    · obtain hsame | ⟨p, hcar'⟩ := hpaired f
      · rw [hsame, hp]
      · exact absurd (hcar p f hcar').2 hnot
    · obtain hsame | ⟨hof, -⟩ := hcalled f
      · rw [hsame, hc]
      · exact absurd (ho f hof) hnot

/-! ## One operation -/

theorem Inv.make (h : Inv s) (hg : s.base.given f = false) (hq : s.base.promise q = none) :
    Inv { s with base := s.base.construct f q } := by
  obtain ⟨hpaired, hcalled⟩ := h.given f hg
  have hnone : s.defaultOf q = none := by
    by_contra hne
    have hlive := h.live q (Option.isSome_iff_ne_none.mpr hne)
    rw [hq] at hlive
    cases hlive
  have hold : ∀ r g, (s.base.construct f q).promise r = some (some g) →
      r = q ∧ g = f ∨ s.base.promise r = some (some g) := by
    intro r g hr
    by_cases hrq : r = q
    · subst hrq
      exact .inl ⟨rfl, by simpa [Promises.construct, eq_comm] using hr⟩
    · exact .inr (by simpa [Promises.construct, hrq] using hr)
  have hother : ∀ g, g ≠ f → (s.base.construct f q).ready g = s.base.ready g ∧
      (s.base.construct f q).stored g = s.base.stored g := fun g hgf => by
    simp [Promises.construct, Promises.ready, hgf]
  exact {
    base := h.base.construct hg hq
    live := fun r hr => by
      by_cases hrq : r = q
      · simp [Promises.construct, hrq]
      · simpa [Promises.construct, hrq] using h.live r hr
    finite := h.finite
    carries := fun r g hr => by
      obtain ⟨rfl, rfl⟩ | hr := hold r g hr
      · exact hnone.trans hpaired.symm
      · exact h.carries r g hr
    pending := fun g hcar => by
      by_cases hgf : g = f
      · subst hgf
        exact ⟨hcalled, by simp [Promises.construct]⟩
      · obtain ⟨r, hr⟩ := hcar
        obtain ⟨-, hg'⟩ | hr := hold r g hr
        · exact absurd hg' hgf
        · rw [(hother g hgf).2]
          exact h.pending g ⟨r, hr⟩
    called := fun g arg harg => by
      have hgf : g ≠ f := fun hgf => by
        subst hgf
        rw [hcalled] at harg
        cases harg
      rw [(hother g hgf).1, (hother g hgf).2]
      exact h.called g arg harg
    kept := fun g d hd hc hready => by
      have hgf : g ≠ f := fun hgf => by
        subst hgf
        rw [hpaired] at hd
        cases hd
      rw [(hother g hgf).1] at hready
      rw [(hother g hgf).2]
      exact h.kept g d hd hc hready
    given := fun g hg' => by
      by_cases hgf : g = f
      · subst hgf
        exact ⟨hpaired, hcalled⟩
      · exact h.given g (by simpa [Promises.construct, hgf] using hg') }

/-- A free address and a live object are different ones. -/
theorem ne_of_free (hp : s.base.promise p = none) (hq : (s.base.promise q).isSome) : p ≠ q := by
  rintro rfl
  rw [hp] at hq
  cases hq

theorem owner_of_free (hp : s.base.promise p = none) : s.base.owner p = none := by
  rw [Promises.owner, hp]
  rfl

/-- What another object points at is another future. -/
theorem Inv.owner_ne (h : Inv s) {r : Nat} (hr : s.base.promise r = some (some f)) (hrq : r ≠ q) :
    s.base.owner q ≠ some f := fun ho =>
  hrq (h.base.unique r q f hr ((Promises.owner_eq_some_iff s.base q f).mp ho))

/-- Who points at what after a move from `q` to `p`. -/
theorem moveConstruct_points {r : Nat} (hr : (s.base.moveConstruct p q).promise r = some (some f)) :
    (r = p ∧ s.base.owner q = some f) ∨
      (r ≠ p ∧ r ≠ q ∧ s.base.promise r = some (some f)) := by
  rw [moveConstruct_promise] at hr
  by_cases hrp : r = p
  · subst hrp
    exact .inl ⟨rfl, by simpa using hr⟩
  · by_cases hrq : r = q
    · subst hrq
      simp [hrp] at hr
    · exact .inr ⟨hrp, hrq, by simpa [hrp, hrq] using hr⟩

theorem Inv.construct (h : Inv s) (hp : s.base.promise p = none)
    (hq : (s.base.promise q).isSome) (d : T) : Inv (s.construct p q d) := by
  have hpq := ne_of_free hp hq
  have hpaired : ∀ g, s.base.owner q ≠ some g → (s.construct p q d).paired g = s.paired g := by
    intro g hg
    simp only [WithDefault.construct]
    cases ho : s.base.owner q with
    | none => rfl
    | some f =>
        rw [ho] at hg
        exact Function.update_of_ne (fun hgf => hg (by rw [hgf])) _ _
  have hcar : ∀ g, s.base.owner q = some g → (s.construct p q d).Carried g := fun g hg =>
    ⟨p, by simp [WithDefault.construct, moveConstruct_promise, hg]⟩
  refine h.next (o := none) (r := .notValue) (h.base.takeOver (owner_of_free hp) hpq)
    (settles_moveConstruct _) (by simp) (fun _ => .inl rfl) (fun g => ?_) (by simp) ?_ ?_ ?_
  · by_cases hg : s.base.owner q = some g
    · exact .inr (hcar g hg)
    · exact .inl (hpaired g hg)
  · intro r g hr
    obtain ⟨rfl, ho⟩ | ⟨hrp, hrq, hr⟩ := moveConstruct_points hr
    · refine ⟨?_, carried_of_owner ho⟩
      simp [WithDefault.construct, ho]
    · rw [hpaired g (h.owner_ne hr hrq)]
      refine ⟨?_, r, hr⟩
      simpa [WithDefault.construct, hrp] using h.carries r g hr
  · intro r hr
    by_cases hrp : r = p
    · simp [WithDefault.construct, moveConstruct_promise, hrp]
    · by_cases hrq : r = q
      · subst hrq
        simp [WithDefault.construct, moveConstruct_promise, hrp]
      · have hold := h.live r (by simpa [WithDefault.construct, hrp] using hr)
        simpa [WithDefault.construct, moveConstruct_promise, hrp, hrq] using hold
  · intro ps hps
    refine ⟨p :: ps, fun r hr => ?_⟩
    by_cases hrp : r = p
    · exact hrp ▸ List.mem_cons_self
    · exact List.mem_cons_of_mem _ (hps r (by simpa [WithDefault.construct, hrp] using hr))

/-- A moved default is still there, whatever it is. -/
theorem isSome_leave (q r : Nat) :
    (s.leave movedFrom q r).isSome = (s.defaultOf r).isSome := by
  by_cases hr : r = q
  · simp [leave, hr]
  · simp [leave, hr]

theorem leave_of_ne {r : Nat} (hr : r ≠ q) : s.leave movedFrom q r = s.defaultOf r :=
  Function.update_of_ne hr _ _

theorem Inv.moveConstruct (h : Inv s) (hp : s.base.promise p = none)
    (hq : (s.defaultOf q).isSome) : Inv (s.moveConstruct movedFrom p q) := by
  have hpq := ne_of_free hp (h.live q hq)
  refine h.next (o := none) (r := .notValue) (h.base.takeOver (owner_of_free hp) hpq)
    (settles_moveConstruct _) (by simp) (fun _ => .inl rfl) (fun _ => .inl rfl) (by simp) ?_ ?_ ?_
  · intro r g hr
    obtain ⟨rfl, ho⟩ | ⟨hrp, hrq, hr⟩ := moveConstruct_points hr
    · refine ⟨?_, carried_of_owner ho⟩
      simpa [WithDefault.moveConstruct] using h.default_of_owner ho
    · refine ⟨?_, r, hr⟩
      simpa [WithDefault.moveConstruct, hrp, leave_of_ne hrq] using h.carries r g hr
  · intro r hr
    by_cases hrp : r = p
    · simp [WithDefault.moveConstruct, moveConstruct_promise, hrp]
    · by_cases hrq : r = q
      · subst hrq
        simp [WithDefault.moveConstruct, moveConstruct_promise, hrp]
      · have hold := h.live r (by
          simpa [WithDefault.moveConstruct, hrp, leave_of_ne hrq] using hr)
        simpa [WithDefault.moveConstruct, moveConstruct_promise, hrp, hrq] using hold
  · intro ps hps
    refine ⟨p :: ps, fun r hr => ?_⟩
    by_cases hrp : r = p
    · exact hrp ▸ List.mem_cons_self
    · refine List.mem_cons_of_mem _ (hps r ?_)
      simpa [WithDefault.moveConstruct, hrp, isSome_leave] using hr

theorem Inv.constructThrows (h : Inv s) (hp : s.base.promise p = none)
    (hq : (s.base.promise q).isSome) (hk : s.defaultOf q ≠ none → s.base.owner q = none) :
    Inv (s.constructThrows movedFrom p q) := by
  have hpq := ne_of_free hp hq
  have hpoints : ∀ r, (s.constructThrows movedFrom p q).base.promise r =
      if r = p then none else if r = q then some none else s.base.promise r := by
    intro r
    by_cases hrp : r = p
    · simp [WithDefault.constructThrows, Promises.destroy, hrp]
    · have hsame : ((s.base.moveConstruct p q).destroy p).promise r =
          (s.base.moveConstruct p q).promise r := by
        rw [Promises.destroy_eq]
        cases (s.base.moveConstruct p q).owner p <;> simp [Promises.write, hrp]
      rw [WithDefault.constructThrows, hsame, moveConstruct_promise]
      by_cases hrq : r = q
      · subst hrq
        simp [hrp]
      · simp [hrp, hrq]
  refine h.next (h.base.takeOver (owner_of_free hp) hpq).destroy
    (settles_moveDestroy (h.notValue q)) (fun _ => carried_of_owner) (fun _ => .inl rfl)
    (fun _ => .inl rfl) ?_ ?_ ?_ ?_
  · intro g d ho hd _
    rw [← h.default_of_owner ho] at hd
    rw [hk (by simp [hd])] at ho
    cases ho
  · intro r g hr
    rw [hpoints] at hr
    by_cases hrp : r = p
    · simp [hrp] at hr
    · by_cases hrq : r = q
      · simp [hrq, hpq.symm] at hr
      · simp only [hrp, hrq, if_false] at hr
        exact ⟨(leave_of_ne hrq).trans (h.carries r g hr), r, hr⟩
  · intro r hr
    rw [hpoints]
    have hold := h.live r (by simpa [WithDefault.constructThrows, isSome_leave] using hr)
    have hrp : r ≠ p := fun hrp => by
      rw [hrp, hp] at hold
      cases hold
    by_cases hrq : r = q
    · simp [hrq, hpq.symm]
    · simpa [hrp, hrq] using hold
  · intro ps hps
    exact ⟨ps, fun r hr => hps r (by simpa [WithDefault.constructThrows, isSome_leave] using hr)⟩

theorem Inv.moveAssign (h : Inv s) (hpq : p ≠ q) (hp : (s.defaultOf p).isSome)
    (hq : (s.defaultOf q).isSome) (hfree : s.base.owner p = none)
    (hsame : s.base.owner q ≠ none → (s.defaultOf p).map selfMove = s.defaultOf q) :
    Inv (s.moveAssign selfMove p q) := by
  rw [WithDefault.moveAssign, if_neg hpq]
  have hsettles := settles_moveAssign hpq (h.notValue p)
  rw [hfree] at hsettles
  have hdefault : ∀ r, (Function.update s.defaultOf p ((s.defaultOf p).map selfMove) r).isSome =
      (s.defaultOf r).isSome := by
    intro r
    by_cases hrp : r = p
    · simp [hrp]
    · simp [hrp]
  refine h.next h.base.moveAssign hsettles (by simp) (fun _ => .inl rfl) (fun _ => .inl rfl)
    (by simp) ?_ ?_ fun ps hps => ⟨ps, fun r hr => hps r ((hdefault r).symm.trans hr)⟩
  · intro r g hr
    rw [moveAssign_promise hpq] at hr
    by_cases hrp : r = p
    · subst hrp
      have ho : s.base.owner q = some g := by simpa using hr
      have hdef : (s.defaultOf r).map selfMove = s.paired g :=
        (hsame (by simp [ho])).trans (h.default_of_owner ho)
      exact ⟨(Function.update_self _ _ _).trans hdef, carried_of_owner ho⟩
    · by_cases hrq : r = q
      · subst hrq
        simp [hrp] at hr
      · simp only [Function.update_of_ne hrp, Function.update_of_ne hrq] at hr ⊢
        exact ⟨h.carries r g hr, r, hr⟩
  · intro r hr
    have hold := h.live r ((hdefault r).symm.trans hr)
    rw [moveAssign_promise hpq]
    by_cases hrp : r = p
    · simp [hrp]
    · by_cases hrq : r = q
      · subst hrq
        simp [hrp]
      · simpa [hrp, hrq] using hold

theorem Inv.call (h : Inv s) {arg : PromiseArg T E} {throws : Bool}
    (hk : ∀ v, arg = .value v → throws = true → s.base.owner p = none) :
    Inv (s.call p arg throws) := by
  refine h.next (h.base.setValue hk).1 (settles_setValue hk fun _ => h.notValue p)
    (fun _ => carried_of_owner) (fun g => ?_) (fun _ => .inl rfl) ?_ ?_ ?_ fun ps hps => ⟨ps, hps⟩
  · simp only [WithDefault.call]
    cases ho : s.base.owner p with
    | none => exact .inl rfl
    | some f =>
        by_cases hgf : g = f
        · subst hgf
          exact .inr ⟨rfl, arg, Function.update_self _ _ _, rfl⟩
        · exact .inl (Function.update_of_ne hgf _ _)
  · intro g d ho _ hc
    simp [WithDefault.call, ho] at hc
  · intro r g hr
    rw [WithDefault.call, setValue_promise] at hr
    by_cases hrp : r = p
    · simp [hrp] at hr
    · rw [Function.update_of_ne hrp] at hr
      exact ⟨h.carries r g hr, r, hr⟩
  · intro r hr
    rw [WithDefault.call, setValue_promise]
    by_cases hrp : r = p
    · simp [hrp]
    · rw [Function.update_of_ne hrp]
      exact h.live r hr

/-- The destructor resolves the future with the default. -/
theorem settles_destroy (p : Nat) (d : T) :
    Settles s.base (s.destroy p d).base (s.base.owner p) (.value d) := by
  have hset : Settles s.base (s.base.setValue p (.value d) false).1 (s.base.owner p) (.value d) :=
    settles_setValue (by simp) (by simp)
  rw [WithDefault.destroy, destroy_setValue]
  exact hset.of_eq rfl rfl rfl

theorem destroy_promise (d : T) :
    (s.destroy p d).base.promise = Function.update s.base.promise p none := by
  simp [WithDefault.destroy, destroy_setValue, Promises.write, setValue_promise]

theorem destroy_base (hb : Promises.InvAt s.base none) (d : T) :
    Promises.InvAt (s.destroy p d).base none :=
  (hb.setValue (by simp)).1.destroy

theorem Inv.destroy (h : Inv s) {d : T} (hd : s.defaultOf p = some d) : Inv (s.destroy p d) := by
  have hdefault : ∀ r, ((s.destroy p d).defaultOf r).isSome → r ≠ p ∧ (s.defaultOf r).isSome := by
    intro r hr
    by_cases hrp : r = p
    · simp [WithDefault.destroy, hrp] at hr
    · exact ⟨hrp, by simpa [WithDefault.destroy, hrp] using hr⟩
  refine h.next (destroy_base h.base d) (settles_destroy p d) (fun _ => carried_of_owner)
    (fun _ => .inl rfl) (fun _ => .inl rfl) ?_ ?_ ?_
    fun ps hps => ⟨ps, fun r hr => hps r (hdefault r hr).2⟩
  · intro g d' ho hd' _
    rw [← h.default_of_owner ho, hd] at hd'
    rw [Option.some.inj hd']
  · intro r g hr
    rw [destroy_promise] at hr
    by_cases hrp : r = p
    · simp [hrp] at hr
    · rw [Function.update_of_ne hrp] at hr
      refine ⟨?_, r, hr⟩
      simpa [WithDefault.destroy, hrp] using h.carries r g hr
  · intro r hr
    obtain ⟨hrp, hold⟩ := hdefault r hr
    rw [destroy_promise, Function.update_of_ne hrp]
    exact h.live r hold

theorem Inv.subscribe (h : Inv s) (hg : s.base.given f = true) {i : Nat} (hi : i ∉ s.base.used) :
    Inv { s with base := s.base.subscribe f i } := by
  have hsub : (s.base.subscribe f i).promise = s.base.promise ∧
      Settles s.base (s.base.subscribe f i) none .notValue := by
    cases hr : s.base.ready f with
    | true =>
        rw [Promises.subscribe_of_ready hr (h.base.woken.fresh i hi)]
        exact ⟨rfl, .refl _ _⟩
    | false =>
        rw [Promises.subscribe_of_pending hr]
        exact ⟨rfl, rfl, fun g => by
          simp [Promises.ready, Promises.disabled_push_iff hr i g], by simp⟩
  obtain ⟨hpromise, hsettles⟩ := hsub
  refine h.next (h.base.subscribe hg hi) hsettles (by simp) (fun _ => .inl rfl)
    (fun _ => .inl rfl) (by simp) ?_ ?_ fun ps hps => ⟨ps, hps⟩
  · intro r g hr
    rw [hpromise] at hr
    exact ⟨h.carries r g hr, r, hr⟩
  · intro r hr
    rw [hpromise]
    exact h.live r hr

/-- **Step lemma**. -/
theorem Inv.step {op : Op T E} (h : Inv s) (hk : s.Keeps selfMove op)
    (hs : s.step movedFrom selfMove op = some s') : Inv s' := by
  cases op with
  | make f q =>
      obtain ⟨⟨hg, hq⟩, rfl⟩ := by simpa [WithDefault.step] using hs
      exact h.make hg hq
  | construct p q d =>
      obtain ⟨⟨hp, hq, -⟩, rfl⟩ := by simpa [WithDefault.step] using hs
      exact h.construct hp hq d
  | moveConstruct p q =>
      obtain ⟨⟨hp, hq⟩, rfl⟩ := by simpa [WithDefault.step] using hs
      exact h.moveConstruct hp hq
  | constructThrows p q =>
      obtain ⟨⟨hp, hq⟩, rfl⟩ := by simpa [WithDefault.step] using hs
      exact h.constructThrows hp hq hk
  | moveAssign p q =>
      obtain ⟨⟨hp, hq⟩, rfl⟩ := by simpa [WithDefault.step] using hs
      by_cases hpq : p = q
      · rw [WithDefault.moveAssign, if_pos hpq]
        exact h
      · exact h.moveAssign hpq hp hq (hk hpq).1 (hk hpq).2
  | call p arg throws =>
      obtain ⟨-, rfl⟩ := by simpa [WithDefault.step] using hs
      refine h.call fun v hv hthrows => ?_
      subst hv hthrows
      exact hk
  | destroy p =>
      obtain ⟨d, hd, rfl⟩ := Option.map_eq_some_iff.mp hs
      exact h.destroy hd
  | subscribe f i =>
      obtain ⟨⟨hg, hi⟩, rfl⟩ := by simpa [WithDefault.step] using hs
      exact h.subscribe hg hi

/-! ## The end of all objects -/

section Destroyed

variable {ps : List Nat}

theorem destroyed_cons_of_some {d : T} (hd : s.defaultOf p = some d) :
    s.destroyed movedFrom selfMove (p :: ps) =
      (s.destroy p d).destroyed movedFrom selfMove ps := by
  have hs : WithDefault.step movedFrom selfMove s (.destroy p) = some (s.destroy p d) := by
    simp [WithDefault.step, hd]
  rw [destroyed, List.map_cons, Run.exec_cons, Run.tryStep_of_some _ _ hs]
  rfl

theorem destroyed_cons_of_none (hd : s.defaultOf p = none) :
    s.destroyed movedFrom selfMove (p :: ps) = s.destroyed movedFrom selfMove ps := by
  rw [destroyed, List.map_cons, Run.exec_cons, Run.tryStep_of_none _ _]
  · rfl
  · simp [WithDefault.step, hd]

/-- A future that is resolved stays as it is. -/
theorem destroyed_of_ready (hb : Promises.InvAt s.base none) (hf : s.base.ready f = true) :
    (s.destroyed movedFrom selfMove ps).base.ready f = true ∧
      (s.destroyed movedFrom selfMove ps).base.stored f = s.base.stored f := by
  induction ps generalizing s with
  | nil => exact ⟨hf, rfl⟩
  | cons q ps ih =>
      cases hd : s.defaultOf q with
      | none =>
          rw [destroyed_cons_of_none hd]
          exact ih hb hf
      | some d =>
          have hne : s.base.owner q ≠ some f := fun ho => by
            rw [(hb.live q f ((Promises.owner_eq_some_iff s.base q f).mp ho)).2.1] at hf
            cases hf
          have hset := settles_destroy (s := s) q d
          rw [destroyed_cons_of_some hd]
          have hstored := hset.stored f
          rw [if_neg hne] at hstored
          rw [← hstored]
          exact ih (destroy_base hb d) ((hset.ready f).mpr (.inr hf))

/-- A future that an object points at gets the default of this object. -/
theorem destroyed_of_owner {d : T} (hb : Promises.InvAt s.base none)
    (ho : s.base.owner p = some f) (hd : s.defaultOf p = some d) (hp : p ∈ ps) :
    (s.destroyed movedFrom selfMove ps).base.ready f = true ∧
      (s.destroyed movedFrom selfMove ps).base.stored f = .value d := by
  induction ps generalizing s with
  | nil => cases hp
  | cons q ps ih =>
      by_cases hqp : q = p
      · -- it is destroyed now
        subst hqp
        have hset := settles_destroy (s := s) q d
        have hstored := hset.stored f
        rw [if_pos ho] at hstored
        rw [destroyed_cons_of_some hd, ← hstored]
        exact destroyed_of_ready (destroy_base hb d) ((hset.ready f).mpr (.inl ho))
      · have hp := (List.mem_cons.mp hp).resolve_left (Ne.symm hqp)
        cases hq : s.defaultOf q with
        | none =>
            rw [destroyed_cons_of_none hq]
            exact ih hb ho hd hp
        | some d' =>
            rw [destroyed_cons_of_some hq]
            refine ih (destroy_base hb d') ?_ ?_ hp
            · rw [Promises.owner, destroy_promise, Function.update_of_ne (Ne.symm hqp)]
              exact ho
            · simpa [WithDefault.destroy, Ne.symm hqp] using hd

end Destroyed

/-! ## Every run -/

theorem Inv.keepsDefaults (h : Inv s) : s.KeepsDefaults movedFrom selfMove where
  called := h.called
  finally_default f d hd hc ps hps := by
    have hgiven : s.base.given f = true := by
      cases hg : s.base.given f with
      | true => rfl
      | false =>
          rw [(h.given f hg).1] at hd
          cases hd
    obtain hready | ⟨p, hp⟩ | hheld := h.base.owned f hgiven
    · rw [← h.kept f d hd hc hready]
      exact destroyed_of_ready h.base hready
    · have hdef := (h.carries p f hp).trans hd
      exact destroyed_of_owner h.base ((Promises.owner_eq_some_iff s.base p f).mpr hp) hdef
        (hps p (by simp [hdef]))
    · cases hheld

/-- A future that was dropped without its default never gets it. -/
theorem not_keepsDefaults_of_dropped (hb : Promises.InvAt s.base none)
    (hfin : ∃ ps : List Nat, ∀ p, (s.defaultOf p).isSome → p ∈ ps) {d : T}
    (hd : s.paired f = some d) (hc : s.called f = none) (hready : s.base.ready f = true)
    (hstored : s.base.stored f = .notValue) : ¬ s.KeepsDefaults movedFrom selfMove := by
  intro hkeeps
  obtain ⟨ps, hps⟩ := hfin
  have hvalue := (hkeeps.finally_default f d hd hc ps hps).2
  rw [(destroyed_of_ready hb hready).2, hstored] at hvalue
  cases hvalue

theorem isSome_moveAssign (selfMove : T → T) (hpq : p ≠ q) (r : Nat) :
    ((s.moveAssign selfMove p q).defaultOf r).isSome = (s.defaultOf r).isSome := by
  rw [WithDefault.moveAssign, if_neg hpq]
  by_cases hrp : r = p
  · simp [hrp]
  · simp [hrp]

/-- Assignment to an object that has a future: the base class drops it. -/
theorem Inv.not_keepsDefaults_of_overwritten (h : Inv s) (hpq : p ≠ q)
    (hp : (s.defaultOf p).isSome) (ho : s.base.owner p = some f) :
    ¬ (s.moveAssign selfMove p q).KeepsDefaults movedFrom selfMove := by
  obtain ⟨d, hd⟩ := Option.isSome_iff_exists.mp hp
  obtain ⟨ps, hps⟩ := h.finite
  have hset := settles_moveAssign hpq (h.notValue p)
  have hstored := hset.stored f
  rw [if_pos ho] at hstored
  have hfin : ∃ ps : List Nat, ∀ r, ((s.moveAssign selfMove p q).defaultOf r).isSome → r ∈ ps :=
    ⟨ps, fun r hr => hps r ((isSome_moveAssign selfMove hpq r).symm.trans hr)⟩
  rw [WithDefault.moveAssign, if_neg hpq] at hfin ⊢
  exact not_keepsDefaults_of_dropped (d := d) h.base.moveAssign hfin
    ((h.default_of_owner ho).symm.trans hd) (h.pending f (carried_of_owner ho)).1
    ((hset.ready f).mpr (.inl ho)) hstored

/-- Assignment of a future with another default: the object keeps its own. -/
theorem Inv.not_keepsDefaults_of_mixed (h : Inv s) (hpq : p ≠ q) (hp : (s.defaultOf p).isSome)
    (hq : (s.defaultOf q).isSome) (ho : s.base.owner q = some f)
    (hdiff : (s.defaultOf p).map selfMove ≠ s.defaultOf q) :
    ¬ (s.moveAssign selfMove p q).KeepsDefaults movedFrom selfMove := by
  intro hkeeps
  obtain ⟨d, hd⟩ := Option.isSome_iff_exists.mp hp
  obtain ⟨ps, hps⟩ := h.finite
  have hb : Promises.InvAt (s.moveAssign selfMove p q).base none := by
    rw [WithDefault.moveAssign, if_neg hpq]
    exact h.base.moveAssign
  have howner : (s.moveAssign selfMove p q).base.owner p = some f := by
    rw [WithDefault.moveAssign, if_neg hpq]
    simp [Promises.owner, moveAssign_promise hpq, ← ho]
  have hdef : (s.moveAssign selfMove p q).defaultOf p = some (selfMove d) := by
    rw [WithDefault.moveAssign, if_neg hpq]
    simp [hd]
  have hsame : (s.moveAssign selfMove p q).paired = s.paired ∧
      (s.moveAssign selfMove p q).called = s.called := by
    rw [WithDefault.moveAssign, if_neg hpq]
    exact ⟨rfl, rfl⟩
  have hps' : ∀ r, ((s.moveAssign selfMove p q).defaultOf r).isSome → r ∈ ps :=
    fun r hr => hps r ((isSome_moveAssign selfMove hpq r).symm.trans hr)
  obtain ⟨d', hd'⟩ := Option.isSome_iff_exists.mp hq
  have hvalue := (hkeeps.finally_default f d'
    (by rw [hsame.1, ← h.default_of_owner ho, hd'])
    (by rw [hsame.2, (h.pending f (carried_of_owner ho)).1]) ps hps').2
  have hcarried : ((s.moveAssign selfMove p q).destroyed movedFrom selfMove ps).base.stored f =
      .value (selfMove d) := (destroyed_of_owner hb howner hdef (hps' p (by simp [hdef]))).2
  rw [hcarried, Stored.value.injEq] at hvalue
  exact hdiff (by rw [hd, hd', Option.map_some, hvalue])

/-- An operation the code does not provide for shows at once. -/
theorem Inv.not_keepsDefaults {op : Op T E} (h : Inv s) (hbad : ¬ s.Keeps selfMove op)
    (hs : s.step movedFrom selfMove op = some s') : ¬ s'.KeepsDefaults movedFrom selfMove := by
  cases op with
  | moveAssign p q =>
      obtain ⟨⟨hp, hq⟩, rfl⟩ := by simpa [WithDefault.step] using hs
      simp only [Keeps, Classical.not_imp] at hbad
      obtain ⟨hpq, hbad⟩ := hbad
      cases ho : s.base.owner p with
      | some f =>
          exact h.not_keepsDefaults_of_overwritten hpq hp ho
      | none =>
          simp only [ho, true_and, Classical.not_imp] at hbad
          obtain ⟨hne, hdiff⟩ := hbad
          obtain ⟨g, hg⟩ := Option.ne_none_iff_exists'.mp hne
          exact h.not_keepsDefaults_of_mixed hpq hp hq hg hdiff
  | constructThrows p q =>
      obtain ⟨⟨hp, hq⟩, rfl⟩ := by simpa [WithDefault.step] using hs
      simp only [Keeps, Classical.not_imp] at hbad
      obtain ⟨hdq, hne⟩ := hbad
      obtain ⟨f, ho⟩ := Option.ne_none_iff_exists'.mp hne
      obtain ⟨d, hd⟩ := Option.ne_none_iff_exists'.mp hdq
      have hset := settles_moveDestroy (p := p) (h.notValue q)
      have hstored := hset.stored f
      rw [if_pos ho] at hstored
      obtain ⟨ps, hps⟩ := h.finite
      refine not_keepsDefaults_of_dropped (d := d)
        (h.base.takeOver (owner_of_free hp) (ne_of_free hp hq)).destroy
        ⟨ps, fun r hr => hps r (by simpa [WithDefault.constructThrows, isSome_leave] using hr)⟩
        ((h.default_of_owner ho).symm.trans hd) (h.pending f (carried_of_owner ho)).1
        ((hset.ready f).mpr (.inl ho)) hstored
  | call p arg throws =>
      obtain ⟨-, rfl⟩ := by simpa [WithDefault.step] using hs
      cases arg with
      | value v =>
          cases throws with
          | true =>
              obtain ⟨f, ho⟩ := Option.ne_none_iff_exists'.mp hbad
              intro hkeeps
              have hready := (hkeeps.called f (.value v) (by simp [WithDefault.call, ho])).1
              have hsame : (s.base.setValue p (.value v) true).1 = s.base.write p (some none) := by
                simp [Promises.setValue, Promises.claim_eq, ho]
              have hpending := h.carried_pending (carried_of_owner ho)
              simp only [WithDefault.call, hsame] at hready
              exact absurd (hpending.symm.trans hready) (by simp)
          | false => exact absurd trivial hbad
      | exception e => exact absurd trivial hbad
      | drop => exact absurd trivial hbad
  | make | construct | moveConstruct | destroy | subscribe => exact absurd trivial hbad

/-- **Defaults**: each future keeps its default in every state of a run exactly if objects are
only assigned to when they point nowhere and have the default of what they get already, and
nothing throws with a future in its hands. -/
theorem keepsDefaults_iff (movedFrom selfMove : T → T) (ops : List (Op T E)) :
    (∀ n, (Run.exec (step movedFrom selfMove) ({} : WithDefault T E) (ops.take n)).KeepsDefaults
      movedFrom selfMove) ↔
      Run.Meets (step movedFrom selfMove) (Keeps selfMove) ({} : WithDefault T E) ops :=
  Run.safe_iff_meets (fun _ _ _ h hk hs => h.step hk hs)
    (fun _ _ _ h hbad hs => h.not_keepsDefaults hbad hs) (fun _ h => h.keepsDefaults) inv_init ops

end Runs

/-- Two promises with the defaults 10 and 20; the second one is assigned to the first one, whose
future is dropped. -/
def assignRun : List (Op Nat Nat) :=
  [.make 0 5, .construct 0 5 10, .make 1 6, .construct 1 6 20, .moveAssign 0 1]

theorem keepsDefaults_fails : ¬ ∀ n, (Run.exec (step id id) ({} : WithDefault Nat Nat)
    (assignRun.take n)).KeepsDefaults id id := by
  intro h
  have hlive : ∀ p, ((Run.exec (step id id) ({} : WithDefault Nat Nat)
      assignRun).defaultOf p).isSome → p ∈ [0, 1] := by
    intro p hp
    match p with
    | 0 => decide
    | 1 => decide
    | p + 2 => cases hp
  have hvalue := ((h 5).finally_default 0 10 rfl rfl [0, 1] hlive).2
  exact absurd hvalue (by decide)

end WithDefault

end Cocls
