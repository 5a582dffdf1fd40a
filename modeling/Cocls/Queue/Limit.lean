import Cocls.Queue.Limited

/-!
# Cocls.Queue.Limit

What the limit of a `limited_queue` is for, call by call: the stored items stay
within it, a `push` waits exactly when there is no consumer and no room, its item
is then held with its producer and nowhere else, and a `pop` lets the longest
waiting producer in.

The first push that blocks breaks it: its item is stored as well, one more than
the limit allows as soon as the next one blocks (`respects_iff`).
-/

namespace Cocls

namespace LimitedQueue

open Queue

variable {T E : Type*}

/-- The pushes a log resolves with success, in the order it resolves them. -/
def pushedLog (log : List (Event T E)) : List Nat :=
  log.filterMap fun
    | .pushed push => some push
    | _ => none

@[simp] theorem pushedLog_nil : pushedLog ([] : List (Event T E)) = [] := rfl

@[simp] theorem pushedLog_popped (pop : Nat) (value : T) (log : List (Event T E)) :
    pushedLog (.popped pop value :: log) = pushedLog log := rfl

@[simp] theorem pushedLog_pushed (push : Nat) (log : List (Event T E)) :
    pushedLog (.pushed push :: log) = push :: pushedLog log := rfl

@[simp] theorem pushedLog_append (xs ys : List (Event T E)) :
    pushedLog (xs ++ ys) = pushedLog xs ++ pushedLog ys := List.filterMap_append

/-- The future of the push numbered `i` is resolved. -/
def Resolved (s : Sys T E) (i : Nat) : Prop := i ∈ pushedLog s.log ∨ i ∈ pushFailedLog s.log

/-- The push finds no consumer and no room for its item. -/
def Full (s : Sys T E) : Prop := s.q.awaiters = [] ∧ s.q.limit ≤ s.q.queue.length

/-- The call `op` that leads from `s` to `s'` respects the limit. -/
structure Respected (s : Sys T E) (op : Op T E) (s' : Sys T E) : Prop where
  within : s'.q.queue.length ≤ s'.q.limit
  blocked_full : s'.q.blocked ≠ [] → s'.q.limit ≤ s'.q.queue.length
  /-- a push waits exactly when it finds no consumer and no room -/
  waits : ∀ args, op = .push args → (¬ Resolved s' s.pushes.length ↔ Full s)
  /-- the item of a push that waits is with its producer and nowhere else -/
  held : ∀ args, op = .push args → ¬ Resolved s' s.pushes.length →
    s'.q.queue = s.q.queue ∧ s'.q.blocked = s.q.blocked ++ [(args.first, s.pushes.length)]
  /-- a pop lets exactly the longest waiting producer in -/
  admits : op = .pop → ∀ x rest y p bs, s.q.queue = x :: rest → s.q.blocked = (y, p) :: bs →
    s'.q.queue = rest ++ [y] ∧ s'.q.blocked = bs ∧ pushedLog s'.log = pushedLog s.log ++ [p]

/-- The call respects the limit. -/
def Respects (s : Sys T E) (op : Op T E) : Prop := ∀ s', step s op = some s' → Respected s op s'

/-- Nobody has blocked, and there is room below the limit. -/
structure Roomy (s : Sys T E) : Prop where
  clean : Clean s
  room : s.q.queue = [] ∨ s.q.queue.length < s.q.limit
  pushed_lt : ∀ i ∈ pushedLog s.log, i < s.pushes.length

theorem roomy_init (limit : Nat) : Roomy (init limit : Sys T E) :=
  ⟨clean_init limit, .inl rfl, fun _ hi => (by cases hi)⟩

variable {s s' : Sys T E} {op : Op T E}

theorem Roomy.within (hr : Roomy s) : s.q.queue.length ≤ s.q.limit := by
  rcases hr.room with h | h
  · simp [h]
  · omega

/-- As long as pushes fit, there is room. -/
theorem roomy_step (hr : Roomy s) (hfit : Fits s op) (h : step s op = some s') : Roomy s' := by
  have hclean : Clean s' := clean_step hr.clean hfit h
  obtain ⟨hc, hroom, hlt⟩ := hr
  -- the push itself is the only new one
  have hnew : ∀ i ∈ pushedLog s.log ++ [s.pushes.length], i < s.pushes.length + 1 := by
    intro i hi
    rcases List.mem_append.mp hi with hi | hi
    · exact Nat.lt_succ_of_lt (hlt i hi)
    · rw [List.mem_singleton.mp hi]
      exact Nat.lt_succ_self _
  cases call_of_step h with
  | handOver ha =>
      refine ⟨hclean, hroom, ?_⟩
      simpa using hnew
  | store ha hl =>
      refine ⟨hclean, .inr ?_, ?_⟩
      · simpa using hl
      · simpa using hnew
  | block ha hl =>
      have hlen := hfit.resolve_left (by simp [ha])
      omega
  | wait hq => exact ⟨hclean, hroom, hlt⟩
  | take hq hb =>
      refine ⟨hclean, ?_, by simpa using hlt⟩
      rw [hq, List.length_cons] at hroom
      exact .inr (by simpa using Nat.lt_of_succ_lt (hroom.resolve_left (by simp)))
  | promote _ hb =>
      rw [hc.none_blocked] at hb
      cases hb
  | nobody _ => exact ⟨hclean, hroom, hlt⟩
  | cancel hb =>
      rw [hc.none_blocked] at hb
      cases hb

/-- A call in which nobody blocks respects the limit. -/
theorem respects_of_fits (hr : Roomy s) (hfit : Fits s op) : Respects s op := by
  intro s' h
  have hr' : Roomy s' := roomy_step hr hfit h
  have hpush : ∀ args, op = .push args → Resolved s' s.pushes.length ∧ ¬ Full s := by
    rintro args rfl
    cases call_of_step h with
    | handOver ha => exact ⟨.inl (by simp), fun hf => by simp [hf.1] at ha⟩
    | store ha hl =>
        refine ⟨.inl (by simp), fun hf => ?_⟩
        have := hf.2
        omega
    | block ha hl =>
        have hlen := hfit.resolve_left (by simp [ha])
        omega
  refine ⟨hr'.within, fun hb => absurd hr'.clean.none_blocked hb, fun args ha => ?_,
    fun args ha hno => absurd (hpush args ha).1 hno, fun _ x rest y p bs _ hb => ?_⟩
  · obtain ⟨hres, hfull⟩ := hpush args ha
    exact iff_of_false (not_not.mpr hres) hfull
  · rw [hr.clean.none_blocked] at hb
    cases hb

/-- The first push that blocks does not respect the limit: its item is stored as well. -/
theorem not_respects_of_not_fits (hr : Roomy s) (hfit : ¬ Fits s op) : ¬ Respects s op := by
  obtain ⟨args, rfl⟩ : ∃ args, op = .push args := by
    cases op with
    | push args => exact ⟨args, rfl⟩
    | pop | unblockPush => exact absurd trivial hfit
  intro hall
  obtain ⟨s', h⟩ : ∃ s', step s (.push args) = some s' := ⟨_, rfl⟩
  have hresp := hall s' h
  cases call_of_step h with
  | handOver ha => exact hfit (.inl (by simp [ha]))
  | store ha hl => exact hfit (.inr hl)
  | block ha hl =>
      have hopen : ¬ (s.pushes.length ∈ pushedLog s.log ∨ s.pushes.length ∈ pushFailedLog s.log) := by
        rintro (hi | hi)
        · exact Nat.lt_irrefl _ (hr.pushed_lt _ hi)
        · rw [hr.clean.none_cancelled] at hi
          cases hi
      have hlen := congrArg List.length (hresp.held args rfl hopen).1
      simp at hlen

/-- **The limit is respected exactly when nobody blocks**: whatever the limit and the
calls, every call of the run respects the limit if and only if no push of it found no
consumer waiting and no room for one more item below the limit. -/
theorem respects_iff (limit : Nat) (ops : List (Op T E)) :
    Run.Meets step Respects (init limit : Sys T E) ops ↔ Run.Meets step Fits (init limit) ops := by
  have hfits : ∀ (s : Sys T E) op, Roomy s → Respects s op → Fits s op := by
    intro s op hr hresp
    by_contra hfit
    exact not_respects_of_not_fits hr hfit hresp
  constructor
  · exact Run.Meets.imp_of_inv (fun s op _ hr hresp h => roomy_step hr (hfits s op hr hresp) h)
      hfits (roomy_init limit)
  · exact Run.Meets.imp_of_inv (fun _ _ _ hr hfit h => roomy_step hr hfit h)
      (fun _ _ hr hfit => respects_of_fits hr hfit) (roomy_init limit)

/-- With limit 1 the first push already waits, while its item is stored, and after the
second one there are two items. -/
theorem respects_fails :
    (Run.exec step (init 1 : Sys Nat Unit) [.push (.copied 7), .push (.copied 8)]).q =
      { limit := 1, queue := [7, 8], blocked := [(7, 0), (8, 1)] } ∧
    ¬ ∀ (limit : Nat) (ops : List (Op Nat Unit)), 1 ≤ limit →
      Run.Meets step Respects (init limit : Sys Nat Unit) ops := by
  refine ⟨by decide, fun hall => ?_⟩
  obtain ⟨-, hsecond, -⟩ := hall 1 [.push (.copied 7), .push (.copied 8)] (Nat.le_refl 1)
  have hwithin := (hsecond rfl _ rfl).within
  revert hwithin
  decide

end LimitedQueue

end Cocls
