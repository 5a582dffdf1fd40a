import Cocls.Awaiter
import Cocls.Run

/-!
# Cocls.Future

A future whose promise is called by any number of parties, while any number of
awaiters subscribe to it.

The promise points at the future until one call *claims* it; that call stores
its outcome in the future (`set`) and then resolves it: it exchanges the
collector of awaiters for the marker `disabled` and resumes the chain it got,
one awaiter after the other.  A subscribing awaiter tries to put itself on top
of the collector until it succeeds or finds the marker.  Every atomic operation
and every round of the resuming loop is one step; the steps interleave in any
order.

The outcome of a call is taken to be constructed without an exception here;
`Cocls.Promise` has the calls whose value throws while it is constructed.
-/

namespace Cocls

/-- What a future stores: `_state` and the member of the union that goes with it. -/
inductive Stored (T E : Type*) where
  | notValue
  | value (v : T)
  | exception (e : E)
deriving DecidableEq, Repr

/-- What a promise is called with: the arguments of the value, an exception, or
the tag `drop`. -/
inductive PromiseArg (T E : Type*) where
  | value (v : T)
  | exception (e : E)
  | drop
deriving DecidableEq, Repr

/-- What a call with the argument leaves in the future. -/
def PromiseArg.stored {T E : Type*} : PromiseArg T E → Stored T E
  | .value v => .value v
  | .exception e => .exception e
  | .drop => .notValue

namespace Future

/-- Where a call of the promise stands. -/
inductive CallPc where
  | idle
  /-- has claimed the future, about to set the outcome -/
  | claimed
  /-- about to resolve: the exchange of the collector -/
  | settled
  /-- in the loop of `resume_chain_lk`, with the rest of the chain -/
  | walking (chain : Option Awaiter)
  | done (won : Bool)
deriving DecidableEq, Repr

/-- Where the `subscribe` of an awaiter stands. -/
inductive SubPc where
  /-- not called yet, or in the loop of `subscribe_check_ready` -/
  | trying
  /-- returned `true` -/
  | subscribed
  /-- returned `false` -/
  | refused
deriving DecidableEq, Repr

/-- A future, its promise and the parties.  `linked` and `resumes` are history:
the awaiters put into the chain, and the resumptions, each with the call that
made it. -/
structure Race (T E : Type*) where
  /-- the promise still points at the future -/
  owner : Bool := true
  /-- `_awaiter`, the collector -/
  awaiter : Option Awaiter := none
  stored : Stored T E := .notValue
  next : Awaiter.Nexts := fun _ => none
  call : Nat → CallPc := fun _ => .idle
  sub : Nat → SubPc := fun _ => .trying
  linked : List Nat := []
  resumes : List (Nat × Nat) := []

namespace Race

variable {T E : Type*}

/-- `future::ready()`. -/
def ready (s : Race T E) : Bool := s.awaiter = some .disabled

/-- The history of resumptions after `y` is resumed by call `k`; the marker
awaiters resume nobody. -/
def logResume (log : List (Nat × Nat)) (k : Nat) : Awaiter → List (Nat × Nat)
  | .object i => log ++ [(i, k)]
  | .theInstance | .disabled => log

/-- One step of call `k`, whose argument is `arg`: `claim`, `set` (not when the
promise is dropped), the exchange of `resolve`, and the rounds of its loop. -/
def callStep (arg : PromiseArg T E) (s : Race T E) (k : Nat) : Option (Race T E) :=
  match s.call k with
  | .idle =>
      if s.owner then
        some { s with owner := false, call := Function.update s.call k
                        (match arg with
                         | .drop => .settled
                         | .value _ | .exception _ => .claimed) }
      else
        some { s with call := Function.update s.call k (.done false) }
  | .claimed =>
      some { s with stored := arg.stored, call := Function.update s.call k .settled }
  | .settled =>
      some { s with awaiter := some .disabled,
                    call := Function.update s.call k (.walking s.awaiter) }
  | .walking none => some { s with call := Function.update s.call k (.done true) }
  | .walking (some y) =>
      some { s with next := Function.update s.next y none,
                    call := Function.update s.call k (.walking (s.next y)),
                    resumes := logResume s.resumes k y }
  | .done _ => none

/-- One attempt of awaiter `i` to subscribe. -/
def subscribeStep (s : Race T E) (i : Nat) (spurious : Bool) : Option (Race T E) :=
  match s.sub i with
  | .trying =>
      match Awaiter.subscribeCheckReady .disabled s.awaiter s.next (.object i) spurious with
      | (awaiter, next, some true) =>
          some { s with awaiter := awaiter, next := next, linked := s.linked ++ [i],
                        sub := Function.update s.sub i .subscribed }
      | (awaiter, next, some false) =>
          some { s with awaiter := awaiter, next := next,
                        sub := Function.update s.sub i .refused }
      | (awaiter, next, none) => some { s with awaiter := awaiter, next := next }
  | .subscribed | .refused => none

inductive Action where
  /-- call `k` of the promise makes its next step -/
  | call (k : Nat)
  /-- awaiter `i` makes its next attempt -/
  | subscribe (i : Nat) (spurious : Bool)

/-- One step; call `k` is made with the argument `arg k`. -/
def step (arg : Nat → PromiseArg T E) (s : Race T E) : Action → Option (Race T E)
  | .call k => s.callStep (arg k) k
  | .subscribe i spurious => s.subscribeStep i spurious

/-! ## What is asked of it -/

/-- The call has claimed the future: it returns `true`, or has returned it. -/
def Won : CallPc → Prop
  | .claimed | .settled | .walking _ | .done true => True
  | .idle | .done false => False

instance : DecidablePred Won := fun c => by
  unfold Won
  split <;> infer_instance

/-- Exactly-once resolution and wake-up. -/
structure ExactlyOnce (arg : Nat → PromiseArg T E) (s : Race T E) : Prop where
  /-- at most one call wins -/
  one_winner : ∀ k k', Won (s.call k) → Won (s.call k') → k = k'
  /-- the first step of a call makes it the winner, or it returns `false` as another one has
  won -/
  made : ∀ k, s.call k = .idle → ∃ s', step arg s (.call k) = some s' ∧
    (Won (s'.call k) ∨ s'.call k = .done false ∧ ∃ w, Won (s'.call w))
  /-- once a call has been made, one has won -/
  some_winner : ∀ k, s.call k ≠ .idle → ∃ w, Won (s.call w)
  /-- the winner returns `true` after finitely many more steps of its own -/
  winner_returns : ∀ k, Won (s.call k) →
    ∃ n, (Run.exec (step arg) s (List.replicate n (.call k))).call k = .done true
  /-- when the winner has returned, the future is ready with its outcome -/
  outcome : ∀ k, s.call k = .done true → s.ready = true ∧ s.stored = (arg k).stored
  /-- the linked awaiters are those whose `subscribe` returned `true` -/
  linked_iff : ∀ i, i ∈ s.linked ↔ s.sub i = .subscribed
  /-- only linked awaiters are resumed, by the winner, when its outcome is there -/
  resumed_by : ∀ i k, (i, k) ∈ s.resumes →
    i ∈ s.linked ∧ Won (s.call k) ∧ s.ready = true ∧ s.stored = (arg k).stored
  /-- nobody is resumed twice -/
  resumed_once : (s.resumes.map Prod.fst).Nodup
  /-- when the winner has returned, it has resumed every linked awaiter -/
  none_lost : ∀ k, s.call k = .done true → ∀ i ∈ s.linked, (i, k) ∈ s.resumes
  /-- a refused awaiter was never linked, and the future is ready with the winner's
  outcome -/
  refused : ∀ i, s.sub i = .refused →
    i ∉ s.linked ∧ s.ready = true ∧ ∃ k, Won (s.call k) ∧ s.stored = (arg k).stored
  /-- after the resolution the next attempt of every awaiter is refused -/
  closed : s.ready = true → ∀ i, s.sub i = .trying → ∀ spurious, ∃ s',
    step arg s (.subscribe i spurious) = some s' ∧ s'.sub i = .refused

end Race

end Future

end Cocls
