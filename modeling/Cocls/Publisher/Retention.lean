import Cocls.Publisher.Session

/-!
# Cocls.Publisher.Retention

What the queue of a publisher retains.

`push_lk` cuts the queue to the longest of the minimal length and the lags of
the registrations, and to the maximal length at most.  A value that a subscriber
still has to read is therefore cut off only when the queue is longer than its
maximal length.
-/

namespace Cocls

namespace Publisher

namespace Stream

variable {T : Type*} {s s' : Stream T} {a : Action T} {p : Nat} {r r' : Reader T}
  {l l' : SubReg}

/-- The number of published values from position `pos` on; the first one is at position
one. -/
def fromPos (s : Stream T) (pos : Nat) : Nat := s.published.length + 1 - max pos 1

/-- The number of published values that a subscriber has still to read.  Its position is
that of the value it read last, and of the next one when it is about to get that. -/
def unread (s : Stream T) (r : Reader T) (l : SubReg) : Nat :=
  match r.phase with
  | .toGet => s.fromPos l.pos
  | _ => s.fromPos (l.pos + 1)

/-- What the queue retains. -/
structure Retains (s : Stream T) : Prop where
  /-- the newest published values, newest first -/
  newest : s.que.q = s.published.reverse.take s.que.q.length
  at_most : s.que.q.length ≤ s.que.limits.maxQueueLen
  at_least : min s.que.limits.minQueueLen s.published.length ≤ s.que.q.length
  /-- the values that a subscriber has still to read, as far as the maximal length allows -/
  to_read : ∀ p r l, s.sub p = some r → s.que.regs[r.handle]? = some l →
    min (s.unread r l) s.que.limits.maxQueueLen ≤ s.que.q.length

/-- The length of the queue is within its limits. -/
structure Bounded (s : Stream T) : Prop where
  at_most : s.que.q.length ≤ s.que.limits.maxQueueLen
  at_least : min s.que.limits.minQueueLen s.published.length ≤ s.que.q.length

/-- The queue holds the values from the position of one subscriber on, which was not
given. -/
structure Keeps (s : Stream T) (_ : Reader T) (l : SubReg) : Prop where
  enough : min (s.fromPos l.pos) s.que.limits.maxQueueLen ≤ s.que.q.length
  notGiven : l.given = false

/-- A subscriber is constructed at the most recent position. -/
def JoinsRecent : Action T → Prop
  | .join _ _ (.at _) => False
  | _ => True

/-! ## The length of the queue -/

theorem Pushed.length_eq {vals : List T} {need : Nat} (h : Pushed s s' vals need) :
    s'.que.q.length =
      min need (min s.que.limits.maxQueueLen (vals.length + s.que.q.length)) := by
  rw [h.q_eq, List.length_take, List.length_append, List.length_reverse]
  omega

/-- A step that publishes or closes cuts the queue within its limits. -/
theorem Bounded.pushed {vals : List T} {need : Nat} (hb : Bounded s) (h : Pushed s s' vals need)
    (hneed : s.que.limits.minQueueLen ≤ need) : Bounded s' := by
  have hle := s.que.limits.min_le_max
  have hat := hb.at_least
  refine ⟨?_, ?_⟩
  · rw [h.limits_eq, h.length_eq]
    omega
  · rw [h.limits_eq, h.length_eq, h.published_eq, List.length_append]
    omega

theorem Bounded.still (hb : Bounded s) (h : Still s s') : Bounded s' := by
  refine ⟨?_, ?_⟩
  · rw [h.limits_eq, h.q_eq]
    exact hb.at_most
  · rw [h.limits_eq, h.q_eq, h.published_eq]
    exact hb.at_least

/-- Every step keeps the queue within its limits. -/
theorem Bounded.step (hT : Table s) (hb : Bounded s) (h : s.step a = some s') : Bounded s' := by
  rcases step_cases hT h with
    ⟨-, -, hst | ⟨vals, need, hp, hneed⟩⟩ | ⟨p, r, _, _, he, -⟩ | ⟨p, r, -, hl⟩
  · exact hb.still hst
  · exact hb.pushed hp hneed
  · exact hb.still he.still
  · exact hb.still hl.still

/-! ## What is still to be read -/

theorem fromPos_anti {m n : Nat} (h : m ≤ n) : s.fromPos n ≤ s.fromPos m := by
  unfold fromPos
  omega

/-- All that a subscriber has to read is published from its position on. -/
theorem unread_le : s.unread r l ≤ s.fromPos l.pos := by
  unfold unread
  split
  · exact Nat.le_refl _
  · exact fromPos_anti (Nat.le_succ _)

/-- The queue holds the values from a position that a registration has, and those just
published. -/
theorem Keeps.pushed {vals : List T} {need : Nat} (hT : Table s) (hk : Keeps s r l)
    (h : Pushed s s' vals need) (hneed : sizeSub s'.que.pos l.pos ≤ need)
    (hl : l'.pos = l.pos) (hg : l'.given = l.given) : Keeps s' r' l' := by
  obtain ⟨hk, hnot⟩ := hk
  refine ⟨?_, hg.trans hnot⟩
  have hpos : s'.que.pos = s'.published.length + 1 := (hT.pushed h).1
  have hlen : s'.published.length = s.published.length + vals.length := by
    rw [h.published_eq, List.length_append]
  -- a lag that does not wrap is accounted for
  have hlag : s'.que.pos - l.pos ≤ need := by
    rcases Nat.le_total l.pos s'.que.pos with hle | hle
    · rwa [sizeSub_of_le hle] at hneed
    · omega
  unfold fromPos at hk ⊢
  rw [h.limits_eq, h.length_eq, hl]
  omega

/-- The queue holds the values from a later position on. -/
theorem Keeps.still (hk : Keeps s r l) (h : Still s s') (hl : l.pos ≤ l'.pos)
    (hg : l'.given = l.given) : Keeps s' r' l' := by
  obtain ⟨hk, hnot⟩ := hk
  refine ⟨?_, hg.trans hnot⟩
  have hle : s'.fromPos l'.pos ≤ s.fromPos l.pos := by
    unfold fromPos
    rw [h.published_eq]
    omega
  rw [h.limits_eq, h.q_eq]
  omega

theorem advanceReg_given (q : Queue T) (l : SubReg) (t : SubscribtionType) :
    (q.advanceReg l t).1.given = l.given := by
  rcases q.advanceReg_cases l t with ⟨-, he⟩ | ⟨-, -, he⟩ | ⟨-, -, he⟩ <;> rw [he]

theorem suspendReg_given (q : Queue T) (l : SubReg) (awt : Nat) :
    (q.suspendReg l awt).1.given = l.given := by
  rcases q.suspendReg_cases l awt with ⟨-, he⟩ | ⟨-, -, -, he⟩ | ⟨-, -, -, he⟩ <;> rw [he]

theorem le_advanceReg_pos (q : Queue T) (t : SubscribtionType) (hg : l.given = false) :
    l.pos ≤ (q.advanceReg l t).1.pos := by
  rcases q.advanceReg_cases l t with ⟨-, he⟩ | ⟨-, -, he⟩ | ⟨-, -, he⟩
  · simp [he]
  · simp [he]
  · rw [he]
    cases t <;> simp only [Queue.advancedPos, Queue.succPos_of_not_given hg] <;> omega

theorem le_suspendReg_pos (q : Queue T) (awt : Nat) (hg : l.given = false) :
    l.pos ≤ (q.suspendReg l awt).1.pos := by
  rcases q.suspendReg_cases l awt with ⟨-, he⟩ | ⟨-, -, -, he⟩ | ⟨-, -, -, he⟩ <;>
    simp [he, Queue.succPos_of_not_given hg]

/-- No move of a subscriber takes its position back. -/
theorem Keeps.move (hT : Table s) (hk : Keeps s r l) (hm : Move s s' a p r l r' l') :
    Keeps s' r' l' := by
  cases hm with
  | other hst | kicked hst | get hst | giveUp hst => exact hk.still hst (Nat.le_refl _) rfl
  | pushed vals need h hneed => exact hk.pushed hT h hneed rfl rfl
  | ready hst =>
      exact hk.still hst (le_advanceReg_pos _ _ hk.notGiven) (advanceReg_given _ _ _)
  | subscribe hst =>
      exact hk.still hst (le_suspendReg_pos _ _ hk.notGiven) (suspendReg_given _ _ _)

/-- The queue holds the last value for a subscriber that starts after it. -/
theorem keeps_recent (hT : Table s) (hb : Bounded s) (r : Reader T) {l : SubReg}
    (hl : l.pos = sizeSub s.que.pos 1) (hg : l.given = false) : Keeps s r l := by
  refine ⟨?_, hg⟩
  have hpos := hT.pos_eq
  have hmin := s.que.limits.min_pos
  have hat := hb.at_least
  rw [sizeSub_of_le (by omega)] at hl
  unfold fromPos
  omega

/-! ## Every run -/

/-- The table, the limits of the queue, and what it holds for every subscriber. -/
structure Held (s : Stream T) : Prop where
  table : Table s
  bounded : Bounded s
  keeps : ∀ p, Holds Keeps p s

/-- A step that constructs no subscriber at a position of its own. -/
theorem Held.step (hh : Held s) (ha : JoinsRecent a) (h : s.step a = some s') : Held s' := by
  refine ⟨hh.table.step h, hh.bounded.step hh.table h, fun p => ?_⟩
  refine Holds.step hh.table (fun r _ _ he ho => ?_)
    (fun r l r' l' _ _ _ hk hm => hk.move hh.table hm) (hh.keeps p) h
  -- a new subscriber is where the publisher is, or where another one is
  cases ho with
  | recent t =>
      exact (keeps_recent hh.table hh.bounded r rfl rfl).still he.still (Nat.le_refl _) rfl
  | «at» t pos => cases ha
  | copy q o l hor hl => exact (hh.keeps q o l hor hl).still he.still (Nat.le_refl _) rfl

theorem Held.betweenCalls (hh : Held s) (hr : s.sub p = some r) (hp : r.phase ≠ .suspended) :
    Held (s.betweenCalls p r) :=
  ⟨hh.table.betweenCalls hr hp, ⟨hh.bounded.at_most, hh.bounded.at_least⟩,
    fun q => Holds.betweenCalls hr (fun _ _ hk => ⟨hk.enough, hk.notGiven⟩)
      (fun _ hk => ⟨hk.enough, hk.notGiven⟩) (hh.keeps q)⟩

theorem held_init (limits : Limits) : Held (init (T := T) limits) :=
  ⟨table_init limits, ⟨Nat.zero_le _, Nat.min_le_right _ _⟩, fun p r l hr => by cases hr⟩

theorem Held.retains (hh : Held s) : Retains s := by
  refine ⟨hh.table.q_eq, hh.bounded.at_most, hh.bounded.at_least, fun p r l hr hl => ?_⟩
  have hle : s.unread r l ≤ s.fromPos l.pos := unread_le
  have hk : min (s.fromPos l.pos) s.que.limits.maxQueueLen ≤ s.que.q.length :=
    (hh.keeps p r l hr hl).enough
  omega

end Stream

namespace Session

variable {T : Type*}

/-- A subscriber is constructed at the most recent position. -/
def JoinsRecent : Action T → Prop
  | .join _ _ (.at _) => False
  | _ => True

/-- **Retention**: in every run in which no subscriber is constructed at a position of
its own, the queue holds the newest values within its limits, and what every subscriber
has still to read as far as the maximal length allows. -/
theorem retains_exec (limits : Limits) (as : List (Action T)) (has : ∀ a ∈ as, JoinsRecent a) :
    Stream.Retains (Run.exec step (init limits) as).str := by
  have hstep : ∀ (s : Session T) a s', Stream.Held s.str → JoinsRecent a → s.step a = some s' →
      Stream.Held s'.str := by
    intro s a s' hh ha h
    refine (step_effect h).inv (fun st st' b hb hh h => hh.step ?_ h)
      (fun st q r hr hp hh => hh.betweenCalls hr hp) hh
    cases b with
    | join p t start =>
        cases start with
        | recent => trivial
        | «at» pos =>
            rcases hb with hb | ⟨_, _, -, heq⟩
            · cases a <;> simp_all [Action.world, JoinsRecent]
            · cases heq
    | _ => trivial
  have hinit : Stream.Held (init (T := T) limits).str := Stream.held_init limits
  exact (Run.exec_inv_of_meets hstep hinit
    (Run.meets_of_forall step _ _ fun a ha _ => has a ha)).retains

/-- A slow reader, its copy, and a queue that is cut. -/
theorem retains_slowReader : Stream.Retains (Run.exec step
    (init (T := Nat) ⟨3, 1, by decide, by decide⟩)
    [.join 0 .allValues .recent, .publish [5, 6], .copy 1 0, .next 1 .coAwait, .go 1, .leave 0,
      .publish [7], .publish [8, 9], .close]).str :=
  retains_exec _ _ (by simp [JoinsRecent])

end Session

end Publisher

end Cocls
