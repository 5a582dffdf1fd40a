import Cocls.Generator.Access

/-!
# Cocls.Generator.Argument

`generator<T, Arg>`: accesses with an argument.

`next(arg)` and the call of the generator store the address of the argument in
`_arg`, before the access itself.  The body reads through it: `co_yield` of a value
returns the argument of the access that resumes it, and `co_yield nullptr` returns
the one of the access that the body is at work for.  `yield_suspend` sets `_arg` to
null again.

The arguments are variables of the client, which may assign and destroy them at any
time.  The body takes copies; it does not assign to its argument.  A `next()` without
an argument does not compile here, so there are no iterators.
-/

namespace Cocls

namespace Generator

/-- How the body of a generator with an argument suspends. -/
inductive ArgStep (σ A T E : Type*) where
  | await (b : σ)
  /-- `co_yield v` returns an argument, with which the body goes on -/
  | yield (v : T) (b : A → σ)
  | ret
  | throw (e : E)

/-- The way of the body to its next suspension. -/
inductive Segment (σ A T E : Type*) where
  | plain (x : ArgStep σ A T E)
  /-- it reads the argument, by `co_yield nullptr`; on the way it always reads the same one -/
  | yieldNull (k : A → ArgStep σ A T E)

/-- Where the body goes on. -/
inductive Resume (σ A : Type*) where
  /-- at its start, or in `co_await` -/
  | here (b : σ)
  /-- in `co_yield`; `await_resume` reads the argument -/
  | inYield (b : A → σ)

variable {σ A T E : Type*}

namespace ArgStep

def toBodyStep : ArgStep σ A T E → BodyStep (Resume σ A) T E
  | .await b => .await (.here b)
  | .yield v b => .yield v (.inYield b)
  | .ret => .ret
  | .throw e => .throw e

end ArgStep

section Body

variable (body : σ → Segment σ A T E)

/-- The body runs to its next suspension, where `*_arg` is `a`. -/
def given (a : A) : Resume σ A → BodyStep (Resume σ A) T E
  | .here b =>
      match body b with
      | .plain x => x.toBodyStep
      | .yieldNull k => (k a).toBodyStep
  | .inYield k =>
      match body (k a) with
      | .plain x => x.toBodyStep
      | .yieldNull k => (k a).toBodyStep

/-- The body runs to its next suspension, where `_arg` may lead nowhere; none if it is read
nevertheless. -/
def tryGiven (arg : Option A) (r : Resume σ A) : Option (BodyStep (Resume σ A) T E) :=
  match arg with
  | some a => some (given body a r)
  | none =>
      match r with
      | .inYield _ => none
      | .here b =>
          match body b with
          | .plain x => some x.toBodyStep
          | .yieldNull _ => none

/-- The body when the arguments of all accesses are known: it counts the accesses. -/
def knowing (args : Nat → A) (r : Resume σ A × Nat) : BodyStep (Resume σ A × Nat) T E :=
  match given body (args r.2) r.1 with
  | .await r' => .await (r', r.2)
  | .yield v r' => .yield v (r', r.2 + 1)
  | .ret => .ret
  | .throw e => .throw e

end Body

/-- A generator with an argument and the client that accesses it. -/
structure WithArg (σ A T E : Type*) where
  client : Client (Resume σ A) T E
  /-- `_arg` -/
  arg : Option Nat := none
  /-- the variables of the client -/
  vars : Nat → Option A := fun _ => none
  /-- history: what the argument was when an access resumed the body -/
  args : List (Option A) := []
  /-- history: the body read through a null pointer, or one to a destroyed variable -/
  wild : Bool := false

namespace WithArg

inductive Action (A : Type*) where
  /-- a variable of the client is constructed, or assigned to -/
  | assign (x : Nat) (a : A)
  | destroy (x : Nat)
  /-- `set_arg` of the variable: `next(arg)`, or the call of the generator before the access -/
  | setArg (x : Nat)
  | client (a : Client.Action)

section Ops

variable (s : WithArg σ A T E)

/-- `*_arg`. -/
def argument : Option A := s.arg.bind s.vars

/-- The client starts an access; it is one that resumes the body if it is one more of them. -/
def access (m : Mode) : Option (WithArg σ A T E) :=
  (s.client.access m).map fun c =>
    { s with client := c
             args := if s.client.resumed.length < c.resumed.length then s.args ++ [s.argument]
               else s.args }

/-- The body runs to its next suspension. -/
def runBody (body : σ → Segment σ A T E) : Option (WithArg σ A T E) :=
  match s.client.gen.place with
  | .running r =>
      match tryGiven body s.argument r with
      | none => some { s with wild := true }
      | some x =>
          (s.client.step (fun _ => x) .body).map fun c =>
            -- `yield_suspend::await_suspend` sets `_arg` to null
            { s with client := c, arg := if c.gen.place.atWork then s.arg else none }
  | _ => none

end Ops

/-- One step. -/
def step (body : σ → Segment σ A T E) (s : WithArg σ A T E) : Action A → Option (WithArg σ A T E)
  | .assign x a => some { s with vars := Function.update s.vars x (some a) }
  | .destroy x => some { s with vars := Function.update s.vars x none }
  | .setArg x => if (s.vars x).isSome then some { s with arg := some x } else none
  | .client (.access .iterator) => none
  | .client (.access m) => s.access m
  | .client .body => s.runBody body
  | .client .wake => s.client.gen.wake.map fun g => { s with client := { s.client with gen := g } }
  | .client .finish =>
      match s.client.pending with
      | none => none
      | some (k, m) => (s.client.finish k m).map fun c => { s with client := c }

def start (b : σ) : WithArg σ A T E := { client := .start (.here b) }

/-- An access is made with an argument, and as long as the body is at work for it, its argument
stays what it is. -/
def Disciplined (s : WithArg σ A T E) : Action A → Prop
  | .assign x _ | .destroy x => s.client.gen.place.atWork = true → s.arg ≠ some x
  | .setArg _ => s.client.gen.place.atWork = false
  | .client (.access _) => s.client.gen.place.isDone = true ∨ s.argument.isSome = true
  | .client _ => True

instance (s : WithArg σ A T E) : ∀ a, Decidable (Disciplined s a)
  | .assign x _ | .destroy x =>
      inferInstanceAs (Decidable (s.client.gen.place.atWork = true → s.arg ≠ some x))
  | .setArg _ => inferInstanceAs (Decidable (s.client.gen.place.atWork = false))
  | .client (.access _) =>
      inferInstanceAs (Decidable (s.client.gen.place.isDone = true ∨ s.argument.isSome = true))
  | .client .body | .client .wake | .client .finish => .isTrue trivial

/-- What is known of the arguments. -/
def Fits (args : Nat → A) (given : List (Option A)) : Prop :=
  ∀ i a, given[i]? = some (some a) → args i = a

/-- The accesses converse with the body `body`, started in `b`. -/
structure Converses (body : σ → Segment σ A T E) (b : σ) (s : WithArg σ A T E) : Prop where
  /-- the body reads no argument that is not there -/
  safe : s.wild = false
  /-- the accesses report in their order, each of them once -/
  inOrder : s.client.reports.map Prod.fst = List.range s.client.reports.length
  /-- an access that completed reported -/
  reported : s.client.pending = none → s.client.reports.length = s.client.count
  /-- each access that resumes the body has an argument -/
  answered : ∀ a ∈ s.args, a.isSome
  resumed : s.client.resumed = List.range s.args.length
  /-- the `i`-th access reports the `i`-th outcome of the body that got the argument of each
  access in its turn, up to the end of the body; arguments to come have no part in it -/
  stream : ∀ args : Nat → A, Fits args s.args →
    s.client.reports.map Prod.snd <+: outcomes (knowing body args) (.here b, 0) s.client.steps ∨
      Ended (outcomes (knowing body args) (.here b, 0) s.client.steps) ∧
        outcomes (knowing body args) (.here b, 0) s.client.steps <+:
          s.client.reports.map Prod.snd
  /-- every argument is used: the body is as far as there are arguments -/
  toNextYield : ∀ args : Nat → A, Fits args s.args → s.args.length =
    (outcomes (knowing body args) (.here b, 0) s.client.steps).length +
      if s.client.gen.place.atWork then 1 else 0
  /-- an access that is in progress goes on, as soon as the body does -/
  goesOn : s.client.pending ≠ none → (s.step body (.client .body)).isSome ∨
    (s.step body (.client .wake)).isSome ∨ (s.step body (.client .finish)).isSome

end WithArg

end Generator

end Cocls
