import Cocls.Generator.Argument

/-!
# Cocls.Generator.Conversation

A generator with an argument converses with its client.

The arguments of all accesses taken together make a generator without an argument of
one that has an argument: its body knows them in advance and counts the accesses.
Every disciplined run is a run of that generator (`Inv.client`), so what holds of the
accesses there holds here.
-/

namespace Cocls

namespace Generator

variable {σ τ A T E : Type*}

/-! ## The states of the body, renamed -/

section Map

/-- `ψ` after a `co_yield`, `φ` after a `co_await`. -/
def mapStep (φ ψ : σ → τ) : BodyStep σ T E → BodyStep τ T E
  | .await b => .await (φ b)
  | .yield v b => .yield v (ψ b)
  | .ret => .ret
  | .throw e => .throw e

def Place.map (φ : σ → τ) : Place σ → Place τ
  | .suspended b => .suspended (φ b)
  | .running b => .running (φ b)
  | .awaiting b => .awaiting (φ b)
  | .done => .done

def Coroutine.map (φ : σ → τ) (g : Coroutine σ T E) : Coroutine τ T E :=
  { promise := g.promise, place := g.place.map φ }

def Client.map (φ : σ → τ) (s : Client σ T E) : Client τ T E :=
  { gen := s.gen.map φ, count := s.count, pending := s.pending, woken := s.woken
    reports := s.reports, resumed := s.resumed, steps := s.steps }

variable (φ ψ : σ → τ)

@[simp] theorem atWork_map (p : Place σ) : (p.map φ).atWork = p.atWork := by cases p <;> rfl

namespace Client

theorem access_map (s : Client σ T E) (m : Mode) :
    (s.map φ).access m = (s.access m).map (Client.map φ) := by
  obtain ⟨⟨p, pl⟩, count, pending, woken, reports, resumed, steps⟩ := s
  cases m <;> cases pl <;>
    simp only [access, nextSync, nextAsync, nextFuture, Coroutine.nextAsync, Coroutine.resume,
      Client.map, Coroutine.map, Place.map, Place.isDone] <;>
    split_ifs <;> rfl

theorem finish_map (s : Client σ T E) (k : Nat) (m : Mode) :
    (s.map φ).finish k m = (s.finish k m).map (Client.map φ) := by
  obtain ⟨⟨p, pl⟩, count, pending, woken, reports, resumed, steps⟩ := s
  cases m with
  | next => by_cases h : p.block = true <;> simp [finish, Client.map, Coroutine.map, h]
  | iterator => by_cases h : p.block = true <;> simp [finish, Client.map, Coroutine.map, h]
  | coAwaitNext => by_cases h : k ∈ woken <;> simp [finish, Client.map, Coroutine.map, h]
  | future => by_cases h : p.awaiting = none <;> simp [finish, Client.map, Coroutine.map, h]

theorem wake_map (g : Coroutine σ T E) : (g.map φ).wake = g.wake.map (Coroutine.map φ) := by
  obtain ⟨p, pl⟩ := g
  cases pl <;> rfl

theorem resumeCaller_map (s : Client σ T E) (c : Option Caller) :
    (s.map φ).resumeCaller c = (s.resumeCaller c).map (Client.map φ) := by
  obtain ⟨⟨p, pl⟩, count, pending, woken, reports, resumed, steps⟩ := s
  obtain ⟨caller, internal, ret, exp, done, block, awaiting⟩ := p
  cases c with
  | none => rfl
  | some c =>
      cases c with
      | awaiter k => rfl
      | internal =>
          cases internal with
          | none => rfl
          | some f => cases f <;> cases awaiting <;> rfl

/-- To resume the caller leaves the body where it is. -/
theorem of_resumeCaller {s s' : Client σ T E} {c : Option Caller} (h : s.resumeCaller c = some s') :
    s'.gen.place = s.gen.place ∧ s'.resumed = s.resumed := by
  obtain ⟨⟨p, pl⟩, count, pending, woken, reports, resumed, steps⟩ := s
  obtain ⟨caller, internal, ret, exp, done, block, awaiting⟩ := p
  cases c with
  | none => cases h
  | some c =>
      cases c with
      | awaiter k =>
          cases h
          exact ⟨rfl, rfl⟩
      | internal =>
          cases internal with
          | none => cases h
          | some f => cases f <;> cases awaiting <;> cases h <;> exact ⟨rfl, rfl⟩

/-- The body is renamed by `ψ` once it has its next outcome. -/
theorem resumeCaller_rest (t : Client σ T E) (c : Option Caller) (ht : t.gen.place.atWork = false) :
    (t.map ψ).resumeCaller c = (t.resumeCaller c).map fun s' =>
      if s'.gen.place.atWork then s'.map φ else s'.map ψ := by
  rw [resumeCaller_map]
  refine Option.map_congr fun s' hs' => ?_
  rw [(of_resumeCaller hs').1, ht]
  rfl

/-- The states of the body are renamed by `φ`, and after a `co_yield` by `ψ`. -/
theorem body_map (s : Client σ T E) {r : σ} (hr : s.gen.place = .running r)
    {x : BodyStep σ T E} {body : τ → BodyStep τ T E} (hx : body (φ r) = mapStep φ ψ x) :
    (s.map φ).step body .body = (s.step (fun _ => x) .body).map fun s' =>
      if s'.gen.place.atWork then s'.map φ else s'.map ψ := by
  obtain ⟨⟨p, pl⟩, count, pending, woken, reports, resumed, steps⟩ := s
  obtain rfl : pl = .running r := hr
  cases x with
  | await b =>
      simp [step, Coroutine.runBody, Client.map, Coroutine.map, Place.map, hx, mapStep,
        Place.atWork]
  | yield v b =>
      have h := resumeCaller_rest φ ψ (T := T) (E := E)
        ⟨⟨{ p.yieldValue v with caller := none }, .suspended b⟩, count, pending, woken, reports,
          resumed, steps + 1⟩ p.caller rfl
      simp only [step, Coroutine.runBody, Client.map, Coroutine.map, Place.map, hx, mapStep]
      exact h
  | ret =>
      have h := resumeCaller_rest φ ψ (T := T) (E := E)
        ⟨⟨{ p.returnVoid.finalSuspend with caller := none }, .done⟩, count, pending, woken, reports,
          resumed, steps + 1⟩ p.caller rfl
      simp only [step, Coroutine.runBody, Client.map, Coroutine.map, Place.map, hx, mapStep]
      exact h
  | throw e =>
      have h := resumeCaller_rest φ ψ (T := T) (E := E)
        ⟨⟨{ (p.unhandledException e).finalSuspend with caller := none }, .done⟩, count, pending,
          woken, reports, resumed, steps + 1⟩ p.caller rfl
      simp only [step, Coroutine.runBody, Client.map, Coroutine.map, Place.map, hx, mapStep]
      exact h

end Client

end Map

/-! ## What a step does to the body -/

namespace Client

/-- An access resumes the body, or leaves it where it is. -/
theorem access_cases {s s' : Client σ T E} {m : Mode} (h : s.access m = some s') :
    (s'.gen.place = s.gen.place ∧ s'.resumed = s.resumed) ∨
      ∃ r, s.gen.place = .suspended r ∧ s'.gen.place = .running r ∧
        s'.resumed = s.resumed ++ [s.count] := by
  obtain ⟨⟨p, pl⟩, count, pending, woken, reports, resumed, steps⟩ := s
  cases m <;> cases pl <;>
    simp only [access, nextSync, nextAsync, nextFuture, Coroutine.nextAsync, Coroutine.resume,
      Place.isDone] at h <;>
    split_ifs at h <;> cases h
  all_goals first
    | exact .inl ⟨rfl, rfl⟩
    | exact .inr ⟨_, rfl, rfl, rfl⟩

theorem resumed_of_body {s s' : Client σ T E} {body : σ → BodyStep σ T E}
    (h : s.step body .body = some s') : s'.resumed = s.resumed := by
  simp only [step] at h
  split at h
  · cases h
  · cases h
    rfl
  · exact (of_resumeCaller h).2

theorem of_finish {s s' : Client σ T E} {k : Nat} {m : Mode} (h : s.finish k m = some s') :
    s'.gen = s.gen ∧ s'.resumed = s.resumed := by
  cases m <;> simp only [finish] at h <;> split_ifs at h <;> cases h <;> exact ⟨rfl, rfl⟩

end Client

/-! ## The invariant -/

namespace WithArg

variable {body : σ → Segment σ A T E} {b : σ} {s s' : WithArg σ A T E}

/-- The number of the access that the body is at work for, or of the next one. -/
def index (c : Client (Resume σ A) T E) : Nat :=
  if c.gen.place.atWork then c.resumed.length - 1 else c.resumed.length

/-- The body counts the accesses. -/
def numbered (c : Client (Resume σ A) T E) : Client (Resume σ A × Nat) T E :=
  c.map fun r => (r, index c)

/-- The run is one of a generator without an argument, whose body knows the arguments. -/
structure Inv (body : σ → Segment σ A T E) (b : σ) (s : WithArg σ A T E) : Prop where
  client : ∀ args : Nat → A, Fits args s.args →
    Client.Inv (knowing body args) (.here b, 0) (numbered s.client)
  count : s.args.length = s.client.resumed.length
  answered : ∀ a ∈ s.args, a.isSome
  current : s.client.gen.place.atWork = true → s.args.getLast? = some s.argument
  safe : s.wild = false

theorem inv_start (body : σ → Segment σ A T E) (b : σ) : Inv body b (start b) where
  client args _ := Client.inv_start (knowing body args) (.here b, 0)
  count := rfl
  answered a h := by cases h
  current h := by cases h
  safe := rfl

/-- The arguments so far, and something for those to come. -/
def known [Inhabited A] (given : List (Option A)) (i : Nat) : A := (given[i]?.join).getD default

theorem fits_known [Inhabited A] (given : List (Option A)) : Fits (known given) given := by
  intro i a hi
  simp [known, hi]

theorem Fits.left {args : Nat → A} {xs ys : List (Option A)} (h : Fits args (xs ++ ys)) :
    Fits args xs := fun i a hi => h i a <| by
  rw [List.getElem?_append_left (List.getElem?_eq_some_iff.mp hi).1, hi]

/-- A variable that is not the argument changes. -/
theorem argument_update {x : Nat} {v : Option A} (hx : s.arg ≠ some x) :
    ({ s with vars := Function.update s.vars x v } : WithArg σ A T E).argument = s.argument := by
  cases ha : s.arg with
  | none => simp [argument, ha]
  | some y =>
      have hne : y ≠ x := fun h => hx (h ▸ ha)
      simp [argument, ha, Function.update_of_ne hne]

namespace Inv

/-- The argument of the access that the body is at work for. -/
theorem argument (hi : Inv body b s) (hw : s.client.gen.place.atWork = true) :
    ∃ a, s.argument = some a ∧ index s.client + 1 = s.client.resumed.length ∧
      ∀ args : Nat → A, Fits args s.args → args (index s.client) = a := by
  have hlast := hi.current hw
  have hmem := List.mem_of_getLast? hlast
  obtain ⟨a, ha⟩ := Option.isSome_iff_exists.mp (hi.answered _ hmem)
  have hpos : 0 < s.args.length := List.length_pos_of_mem hmem
  have hidx : index s.client = s.args.length - 1 := by rw [index, hw, if_pos rfl, hi.count]
  refine ⟨a, ha, by rw [hidx, ← hi.count]; omega, fun args hf => hf _ _ ?_⟩
  rw [hidx, ← List.getLast?_eq_getElem?, hlast, ha]

/-- The variables of the client change, but not the argument of the body at work. -/
theorem vars (hi : Inv body b s) {s' : WithArg σ A T E} (hc : s'.client = s.client)
    (ha : s'.args = s.args) (hw : s'.wild = s.wild)
    (hsame : s.client.gen.place.atWork = true → s'.argument = s.argument) : Inv body b s' := by
  obtain ⟨hclient, hcount, hanswered, hcurrent, hsafe⟩ := hi
  refine ⟨?_, ?_, ?_, ?_, ?_⟩
  · rwa [hc, ha]
  · rwa [hc, ha]
  · rwa [ha]
  · intro h
    rw [hc] at h
    rw [ha, hsame h]
    exact hcurrent h
  · rwa [hw]

theorem access (hi : Inv body b s) {m : Mode}
    (hgood : s.client.gen.place.isDone = true ∨ s.argument.isSome = true)
    (h : s.access m = some s') : Inv body b s' := by
  obtain ⟨c, hc, rfl⟩ := Option.map_eq_some_iff.mp h
  have hstep : ∀ args, Fits args s.args → index c = index s.client →
      Client.Inv (knowing body args) (.here b, 0) (numbered c) := by
    intro args hf hidx
    refine (hi.client args hf).access (m := m) ?_
    rw [numbered, Client.access_map, hc, numbered, hidx]
    rfl
  obtain ⟨hplace, hres⟩ | ⟨r, hfrom, hto, hres⟩ := Client.access_cases hc
  · have hidx : index c = index s.client := by rw [index, hplace, hres, index]
    refine ⟨fun args hf => ?_, ?_, ?_, ?_, hi.safe⟩
    · exact hstep args (by simpa [hres] using hf) hidx
    · simpa [hres] using hi.count
    · simpa [hres] using hi.answered
    · simpa [hres, hplace, WithArg.argument] using hi.current
  · have hidx : index c = index s.client := by
      simp [index, hfrom, hto, hres, Place.atWork]
    have harg : s.argument.isSome = true := by simpa [hfrom, Place.isDone] using hgood
    simp only [hres, List.length_append, List.length_singleton, Nat.lt_succ_self, if_true]
    refine ⟨fun args hf => hstep args hf.left hidx, ?_, fun a ha => ?_, fun _ => ?_, hi.safe⟩
    · simp [hi.count, hres]
    · rcases List.mem_append.mp ha with ha | ha
      · exact hi.answered a ha
      · rw [List.mem_singleton.mp ha]
        exact harg
    · exact List.getLast?_concat

/-- The body gets the argument that the other one knows. -/
theorem body_numbered {a : A} {args : Nat → A} {r : Resume σ A}
    (hplace : s.client.gen.place = .running r) (ha : args (index s.client) = a) :
    (numbered s.client).step (knowing body args) .body =
      (s.client.step (fun _ => given body a r) .body).map fun c =>
        if c.gen.place.atWork then c.map (·, index s.client)
        else c.map (·, index s.client + 1) := by
  refine Client.body_map _ _ s.client hplace ?_
  simp only [knowing, ha]
  cases given body a r <;> rfl

/-- The body at work runs to its next suspension. -/
theorem runBody (hi : Inv body b s) (h : s.runBody body = some s') : Inv body b s' := by
  simp only [WithArg.runBody] at h
  split at h
  · next r hplace =>
    have hw : s.client.gen.place.atWork = true := by rw [hplace]; rfl
    obtain ⟨a, ha, hidx, hargs⟩ := hi.argument hw
    simp only [ha, tryGiven] at h
    obtain ⟨c, hc, rfl⟩ := Option.map_eq_some_iff.mp h
    have hres := Client.resumed_of_body hc
    refine ⟨fun args hf => ?_, ?_, hi.answered, fun hcw => ?_, hi.safe⟩
    · refine (hi.client args hf).runBody ?_
      rw [body_numbered hplace (hargs args hf), hc, Option.map_some]
      by_cases hcw : c.gen.place.atWork = true
      · have hsame : index c = index s.client := by
          rw [index, if_pos hcw, hres, ← hidx, Nat.add_sub_cancel]
        simp only [if_pos hcw, numbered, hsame]
      · have hnext : index c = index s.client + 1 := by rw [index, if_neg hcw, hres, hidx]
        simp only [if_neg hcw, numbered, hnext]
    · simpa [hres] using hi.count
    · have := hi.current hw
      simpa [WithArg.argument, show c.gen.place.atWork = true from hcw] using this
  · cases h

theorem wake (hi : Inv body b s) (h : s.step body (.client .wake) = some s') :
    Inv body b s' := by
  obtain ⟨g, hg, rfl⟩ := Option.map_eq_some_iff.mp h
  have hplace : ∃ r, s.client.gen.place = .awaiting r ∧ g.place = .running r := by
    simp only [Coroutine.wake] at hg
    split at hg
    · next r hpl => exact ⟨r, hpl, by rw [← Option.some.inj hg]⟩
    · cases hg
  obtain ⟨r, hfrom, hto⟩ := hplace
  refine ⟨fun args hf => ?_, hi.count, hi.answered, fun _ => ?_, hi.safe⟩
  · refine (hi.client args hf).wake ?_
    simp only [Client.step, numbered, Client.map, Client.wake_map, hg]
    simp [index, hfrom, hto, Place.atWork]
  · exact hi.current (by rw [hfrom]; rfl)

theorem finish (hi : Inv body b s) (h : s.step body (.client .finish) = some s') :
    Inv body b s' := by
  simp only [WithArg.step] at h
  cases hp : s.client.pending with
  | none => simp [hp] at h
  | some x =>
      obtain ⟨k, m⟩ := x
      simp only [hp] at h
      obtain ⟨c, hc, rfl⟩ := Option.map_eq_some_iff.mp h
      obtain ⟨hgen, hres⟩ := Client.of_finish hc
      refine ⟨fun args hf => ?_, ?_, hi.answered, ?_, hi.safe⟩
      · refine (hi.client args hf).finish ?_
        have hidx : index c = index s.client := by rw [index, hgen, hres, index]
        have hpend : (numbered s.client).pending = some (k, m) := hp
        simp only [Client.step, hpend]
        rw [numbered, Client.finish_map, hc, numbered, hidx]
        rfl
      · simpa [hres] using hi.count
      · simpa [hgen, WithArg.argument] using hi.current

theorem step (hi : Inv body b s) {a : Action A} (hgood : Disciplined s a)
    (h : s.step body a = some s') : Inv body b s' := by
  cases a with
  | assign x a =>
      obtain rfl := Option.some.inj h
      refine hi.vars rfl rfl rfl fun hw => ?_
      exact argument_update (hgood hw)
  | destroy x =>
      obtain rfl := Option.some.inj h
      refine hi.vars rfl rfl rfl fun hw => ?_
      exact argument_update (hgood hw)
  | setArg x =>
      simp only [WithArg.step, Option.ite_none_right_eq_some, Option.some.injEq] at h
      obtain ⟨-, rfl⟩ := h
      refine hi.vars rfl rfl rfl fun hw => ?_
      rw [show s.client.gen.place.atWork = false from hgood] at hw
      cases hw
  | client a =>
      cases a with
      | access m =>
          cases m with
          | iterator => cases h
          | next => exact hi.access hgood h
          | coAwaitNext => exact hi.access hgood h
          | future => exact hi.access hgood h
      | body => exact hi.runBody h
      | wake => exact hi.wake h
      | finish => exact hi.finish h

/-- An access in progress goes on as soon as the body does. -/
theorem goesOn [Inhabited A] (hi : Inv body b s) (hp : s.client.pending ≠ none) :
    (s.step body (.client .body)).isSome ∨ (s.step body (.client .wake)).isSome ∨
      (s.step body (.client .finish)).isSome := by
  obtain hbody | hwake | hfin := (hi.client (known s.args) (fits_known s.args)).goesOn hp
  · left
    cases hplace : s.client.gen.place with
    | running r =>
        obtain ⟨a, ha, -, hargs⟩ := hi.argument (by rw [hplace]; rfl)
        rw [body_numbered hplace (hargs _ (fits_known s.args)), Option.isSome_map] at hbody
        simpa [WithArg.step, WithArg.runBody, hplace, ha, tryGiven] using hbody
    | _ => simp [Client.step, Coroutine.runBody, numbered, Client.map, Coroutine.map, Place.map,
        hplace] at hbody
  · right; left
    simp only [Client.step, numbered, Client.map, Client.wake_map, Option.isSome_map] at hwake
    simpa [WithArg.step] using hwake
  · right; right
    obtain ⟨⟨k, m⟩, hp⟩ := Option.ne_none_iff_exists'.mp hp
    have hpend : (numbered s.client).pending = some (k, m) := hp
    simp only [Client.step, hpend] at hfin
    simp only [WithArg.step, hp, Option.isSome_map]
    rwa [numbered, Client.finish_map, Option.isSome_map] at hfin

end Inv

theorem Inv.converses [Inhabited A] (hi : Inv body b s) : Converses body b s where
  safe := hi.safe
  inOrder := (hi.client _ (fits_known s.args)).inOrder
  reported hp := (hi.client _ (fits_known s.args)).agrees.reported hp
  answered := hi.answered
  resumed := by
    rw [hi.count]
    exact (hi.client _ (fits_known s.args)).agrees.resumedOnce
  stream args hf := (hi.client args hf).stream
  toNextYield args hf := by
    have h := (hi.client args hf).agrees.toNextYield
    rw [hi.count]
    simpa [numbered, Client.map, Coroutine.map] using h
  goesOn := hi.goesOn

/-- **A conversation with a generator**: when every access is made with an argument that stays what
it is until the access is over, the `i`-th access reports the `i`-th outcome of the body that was
given the arguments one after the other, in whichever way each access is made. -/
theorem converses_exec [Inhabited A] (body : σ → Segment σ A T E) (b : σ) {as : List (Action A)}
    (h : Run.Meets (step body) Disciplined (start b) as) :
    Converses body b (Run.exec (step body) (start b) as) :=
  (Run.exec_inv_of_meets (fun _ _ _ hi hgood hs => hi.step hgood hs) (inv_start body b)
    h).converses

/-- A body that yields the sum of its arguments; it waits before it adds the next one. -/
def sums : Option (Nat × Bool) → Segment (Option (Nat × Bool)) Nat Nat Unit
  | none => .yieldNull fun a => .yield a fun a' => some (a + a', true)
  | some (n, true) => .plain (.await (some (n, false)))
  | some (n, false) => .plain (.yield n fun a => some (n + a, true))

/-- A blocking access, and one by `co_await`; the client takes the same variable for both. -/
def addTwice : List (Action Nat) :=
  [.assign 0 3, .setArg 0, .client (.access .next), .client .body, .client .finish,
    .assign 0 4, .setArg 0, .client (.access .coAwaitNext), .client .body, .client .wake,
    .client .body, .client .finish]

theorem converses_addTwice : Converses sums none (Run.exec (step sums) (start none) addTwice) ∧
    (Run.exec (step sums) (start none) addTwice).client.reports = [(0, .value 3), (1, .value 7)] :=
  ⟨converses_exec sums none (by decide), rfl⟩

/-- `auto n = g.next(x), m = g.next(y)`, and then both are asked: the first access takes `y`, and
the second one has no argument. -/
example : (Run.exec (step sums) (start none) [.assign 0 3, .assign 1 4, .setArg 0, .setArg 1,
    .client (.access .next), .client .body, .client .finish, .client (.access .next),
    .client .body]).wild = true := rfl

end WithArg

end Generator

end Cocls
