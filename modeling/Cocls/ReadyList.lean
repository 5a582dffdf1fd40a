import Cocls.Run

/-!
# Cocls.ReadyList

A single FIFO ready list: the specification of a cooperative scheduler.

The task in front of the list runs until it gives up control.  Such a *turn* makes
other tasks ready, and the task either asks for another turn or is over.  The list
only ever grows at its end, so what is ready has its next turns fixed
(`turn_extends`): it runs in the order of the list, before anything that becomes
ready later.
-/

namespace ReadyList

variable {σ α : Type*}

/-- What a task does in one turn: the tasks it makes ready, and whether it runs again. -/
structure Burst (σ α : Type*) where
  state : σ
  made : List α := []
  again : Bool := false

/-- The ready list of `α` tasks that share a state, and the turns they had. -/
structure St (σ α : Type*) where
  state : σ
  ready : List α := []
  log : List α := []

/-- What task `a` adds to the end of the list. -/
def Burst.pushed (b : Burst σ α) (a : α) : List α := b.made ++ if b.again then [a] else []

/-- One turn of the task in front. -/
def turn (run : σ → α → Burst σ α) (s : St σ α) : Option (St σ α) :=
  match s.ready with
  | [] => none
  | a :: q =>
      let b := run s.state a
      some { state := b.state, ready := q ++ b.pushed a, log := s.log ++ [a] }

/-- `k` turns. -/
def turns (run : σ → α → Burst σ α) (k : Nat) (s : St σ α) : St σ α :=
  Run.exec (fun s (_ : Unit) => turn run s) s (List.replicate k ())

variable {run : σ → α → Burst σ α} {s s' : St σ α}

theorem turns_succ (h : turn run s = some s') {k : Nat} {s₀ : St σ α} (hs : turns run k s₀ = s) :
    turns run (k + 1) s₀ = s' := by
  rw [turns, List.replicate_succ', Run.exec_append, ← turns, hs, Run.exec_cons, Run.exec_nil]
  exact Run.tryStep_of_some _ s h

/-- **The next turns are fixed**: a turn moves the front of the list to the log. -/
theorem turn_extends (h : turn run s = some s') : s.log ++ s.ready <+: s'.log ++ s'.ready := by
  unfold turn at h
  split at h
  · cases h
  · next a q hq =>
      cases h
      exact ⟨(run s.state a).pushed a, by rw [hq]; simp⟩

end ReadyList
