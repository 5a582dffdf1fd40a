import Mathlib.Logic.Function.Basic
import Cocls.Links
import Cocls.Publisher
import Cocls.Run

/-!
# Cocls.Publisher.Stream

A publisher with any number of subscribers.

A `co_await next()` of a subscriber takes up to three separately locked steps:
`ready`, then `subscribe` when it was not ready, then the value, at once or when
the awaiter was resumed.  All steps of all subscribers interleave with
publishing, closing, kicking, subscribing and leaving in any order.

The invariant of this module is about the table: a registration in use belongs
to exactly one subscriber, the others form a chain from `_next_free`, and a
subscriber is suspended exactly while its awaiter is registered.  It also says
which values the queue holds.
-/

namespace Cocls

namespace Publisher

/-- Where a subscriber stands with its `next()`. -/
inductive Phase where
  | idle
  /-- `ready` returned `false` -/
  | toSubscribe
  /-- `subscribe` returned `true` and the awaiter was not resumed yet -/
  | suspended
  /-- about to get the value -/
  | toGet
  /-- the end of the stream was reported -/
  | ended
  /-- a value outside the queue was read -/
  | outside
deriving DecidableEq, Repr

/-- The circumstances of the first report of the end: the subscriber was kicked, the
queue was closed, and how many values were published. -/
structure EndInfo where
  kicked : Bool
  closed : Bool
  published : Nat
deriving DecidableEq, Repr

/-- A subscriber.  History: the number of values published before it subscribed, if
it did so at the most recent position; the values received before the first
report of the end, with their positions in the stream; and that report. -/
structure Reader (T : Type*) where
  handle : Nat
  type : SubscribtionType
  phase : Phase := .idle
  base : Option Nat := none
  received : List (Nat × T) := []
  endInfo : Option EndInfo := none

/-- A publisher, its subscribers by address, and all values published so far. -/
structure Stream (T : Type*) where
  que : Queue T := {}
  sub : Nat → Option (Reader T) := fun _ => none
  published : List T := []

namespace Stream

variable {T : Type*}

/-- Where a new subscriber starts; a position of its own is any `size_t`. -/
inductive Start where
  | recent
  | at (pos : UInt64)
deriving DecidableEq, Repr

/-- A step of a subscriber; `giveUp`: `next_ready()` does not subscribe when `ready`
returned `false`. -/
inductive ReaderAct where
  | ready
  | subscribe
  | get
  | giveUp
  | leave
deriving DecidableEq, Repr

inductive Action (T : Type*) where
  /-- `publish`, one value or a batch -/
  | publish (vals : List T)
  | close
  /-- `kick` of the subscriber at address `p` -/
  | kick (p : Nat)
  /-- a subscriber is constructed at address `p` -/
  | join (p : Nat) (type : SubscribtionType) (start : Start)
  /-- a subscriber is constructed as a copy of the one at `r` -/
  | copy (p r : Nat)
  | act (p : Nat) (a : ReaderAct)

/-- The subscribers after the awaiters `wk` were resumed. -/
def resumeAll (sub : Nat → Option (Reader T)) (wk : List Nat) (p : Nat) : Option (Reader T) :=
  (sub p).map fun r => if p ∈ wk ∧ r.phase = .suspended then { r with phase := .toGet } else r

/-- A new subscriber at address `p` with the handle it was given. -/
def enter (s : Stream T) (p : Nat) (r : Queue T × Nat) (type : SubscribtionType)
    (base : Option Nat) : Stream T :=
  { s with que := r.1
           sub := Function.update s.sub p (some { handle := r.2, type := type, base := base }) }

/-- Subscriber `p` goes on as `r`. -/
def setReader (s : Stream T) (p : Nat) (que : Queue T) (r : Reader T) : Stream T :=
  { s with que := que, sub := Function.update s.sub p (some r) }

/-- What the subscriber makes of a read. -/
def receive (s : Stream T) (r : Reader T) (l : SubReg) : Queue.Read T → Reader T
  | .value pos v => { r with phase := .idle, received := r.received ++ [(pos, v)] }
  | .ended => { r with phase := .ended
                       endInfo := some ⟨l.kicked, s.que.closed, s.published.length⟩ }
  | .outside => { r with phase := .outside }

/-- One step of subscriber `p`. -/
def readerStep (s : Stream T) (p : Nat) (r : Reader T) : ReaderAct → Option (Stream T)
  | .ready =>
      if r.phase = .idle then
        (s.que.advanceLk r.handle r.type).map fun res =>
          s.setReader p res.1 { r with phase := if res.2 then .toGet else .toSubscribe }
      else none
  | .subscribe =>
      if r.phase = .toSubscribe then
        (s.que.advanceSuspendLk r.handle p).map fun res =>
          s.setReader p res.1 { r with phase := if res.2 then .suspended else .toGet }
      else none
  | .get =>
      if r.phase = .toGet then
        (s.que.regs[r.handle]?).bind fun l =>
          (s.que.getValueLk r.handle r.type).map fun res =>
            s.setReader p s.que (s.receive r l res)
      else none
  | .giveUp =>
      if r.phase = .toSubscribe then some (s.setReader p s.que { r with phase := .idle }) else none
  | .leave =>
      (s.que.leaveLk r.handle).map fun que =>
        { s with que := que, sub := Function.update s.sub p none }

/-- One step. -/
def step (s : Stream T) : Action T → Option (Stream T)
  | .publish vals =>
      let r := s.que.pushAll vals
      some { s with que := r.1, sub := resumeAll s.sub r.2, published := s.published ++ vals }
  | .close =>
      let r := s.que.close
      some { s with que := r.1, sub := resumeAll s.sub r.2 }
  | .kick p =>
      let r := s.que.kick p
      some { s with que := r.1, sub := resumeAll s.sub r.2 }
  | .join p type start =>
      if (s.sub p).isSome then none
      else
        match start with
        | .recent => some (s.enter p (s.que.subscribeRecentLk p) type (some s.published.length))
        | .at pos => some (s.enter p (s.que.subscribeLk p pos.toNat true) type none)
  | .copy p r =>
      if (s.sub p).isSome then none
      else (s.sub r).bind fun o =>
        (s.que.subscribeCopyLk o.handle p).map fun res => s.enter p res o.type none
  | .act p a => (s.sub p).bind fun r => s.readerStep p r a

/-- The initial state of a publisher with the given limits. -/
def init (limits : Limits) : Stream T := { que := { limits := limits } }

end Stream

end Publisher

end Cocls
