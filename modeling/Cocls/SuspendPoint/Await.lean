import Mathlib.Data.List.Perm.Basic
import Cocls.CoroQueue
import Cocls.SuspendPoint

/-!
# Cocls.SuspendPoint.Await

`co_await` of a suspend point in a coroutine, with the queue installed.

The last handle is popped for symmetric transfer, the others and the coroutine itself are
pushed to the ready queue.  The check that the coroutine is not pushed twice looks at what
is left after the pop, so it misses the handle that was popped (`everyoneOnce_iff`).
-/

namespace Cocls

namespace SuspendPoint

variable {H : Type*} [DecidableEq H]

/-- `await_suspend` of coroutine `h` with an active queue: the suspend point afterwards, the
queue, and the handle that is returned (`none` is `noop_coroutine`). -/
def awaitSuspend (p : SuspendPoint H) (h : H) (queue : List H) :
    Option (SuspendPoint H × List H × Option H) := do
  let (p, out) ← p.pop
  let hs ← p.handles
  let queue := queue ++ hs
  -- `me_included`
  let queue := if h ∈ hs then queue else queue ++ [h]
  let p ← p.clearInternal
  some (p, queue, out)

/-- What is appended to the queue. -/
def appended (l : List H) (h : H) : List H :=
  l.dropLast ++ if h ∈ l.dropLast then [] else [h]

theorem Holds.awaitSuspend {p : SuspendPoint H} {l : List H} (hp : p.Holds l) (h : H)
    (queue : List H) :
    ∃ p', p.awaitSuspend h queue = some (p', queue ++ appended l h, l.getLast?) ∧ p'.Holds [] := by
  obtain ⟨p₁, hpop, hp₁⟩ := hp.pop
  obtain ⟨p', hclear, hp'⟩ := hp₁.clearInternal
  refine ⟨p', ?_, hp'⟩
  by_cases hmem : h ∈ l.dropLast
  · simp [SuspendPoint.awaitSuspend, hpop, hp₁.handles, hclear, appended, hmem]
  · simp [SuspendPoint.awaitSuspend, hpop, hp₁.handles, hclear, appended, hmem]

/-- The step of a thread whose coroutine `h` awaits a suspend point with handles `l`. -/
theorem Holds.awaitSuspend_thread {p : SuspendPoint H} {l : List H} (hp : p.Holds l)
    (hne : l ≠ []) {t : CoroQueue.Thread H} (ht : t.isActive = true) (h : H)
    (fs : List (CoroQueue.Frame H)) :
    ∃ p' queue out, p.awaitSuspend h t.queue = some (p', queue, some out) ∧
      t.awaitSuspend h fs l = { t with queue := queue, stack := .coroutine out :: fs } := by
  obtain ⟨p', hawait, -⟩ := hp.awaitSuspend h t.queue
  have hlast := List.getLast?_eq_some_getLast hne
  rw [hlast] at hawait
  refine ⟨p', _, _, hawait, ?_⟩
  simp [CoroQueue.Thread.awaitSuspend, hlast, ht, appended]

/-- Everyone is resumed once: the queue stays in front, the returned handle and what is appended
are the handles `l` and `h` once each, and the suspend point is empty. -/
def EveryoneOnce (p : SuspendPoint H) (l : List H) (h : H) (queue : List H) : Prop :=
  ∃ p' rest out, p.awaitSuspend h queue = some (p', queue ++ rest, out) ∧
    (out.toList ++ rest).Perm (l.insert h) ∧ p'.size = 0 ∧ p'.handles = some []

/-- The coroutine in front of the last handle is found. -/
theorem perm_insert_of_ne_last {l : List H} {h : H} (hlast : l.getLast? ≠ some h) :
    (l.getLast?.toList ++ appended l h).Perm (l.insert h) := by
  by_cases hnil : l = []
  · rw [hnil]
    simp [appended]
  · have hsplit : l.dropLast ++ [l.getLast hnil] = l := List.dropLast_append_getLast hnil
    have hsome : l.getLast? = some (l.getLast hnil) := List.getLast?_eq_some_getLast hnil
    rw [hsome] at hlast ⊢
    have hperm : ([l.getLast hnil] ++ l.dropLast).Perm l := by
      have hcomm : ([l.getLast hnil] ++ l.dropLast).Perm (l.dropLast ++ [l.getLast hnil]) :=
        List.perm_append_comm
      rwa [hsplit] at hcomm
    by_cases hmem : h ∈ l.dropLast
    · rw [appended, if_pos hmem, List.append_nil,
        List.insert_of_mem (List.dropLast_subset l hmem)]
      exact hperm
    · have hnot : h ∉ l := by
        rw [← hsplit, List.mem_append, List.mem_singleton]
        rintro (hin | heq)
        · exact hmem hin
        · exact hlast (by rw [heq])
      rw [appended, if_neg hmem, List.insert_of_not_mem hnot, ← List.append_assoc]
      exact (hperm.append_right [h]).trans (List.perm_append_singleton h l)

/-- The coroutine at the end is pushed once more. -/
theorem not_perm_insert_of_last {l : List H} {h : H} (hnd : l.Nodup) (hlast : l.getLast? = some h) :
    ¬ (l.getLast?.toList ++ appended l h).Perm (l.insert h) := by
  obtain ⟨l', rfl⟩ := List.getLast?_eq_some_iff.1 hlast
  have hnot : h ∉ l' := fun hin => (List.nodup_append.1 hnd).2.2 h hin h (by simp) rfl
  intro hperm
  have hlen := hperm.length_eq
  rw [hlast, List.insert_of_mem (by simp)] at hlen
  simp [appended, hnot] at hlen

/-- **Everyone once**: a coroutine may await a suspend point exactly if its own handle is not
the last one. -/
theorem everyoneOnce_iff {p : SuspendPoint H} {l : List H} (hp : p.Holds l) (hnd : l.Nodup) (h : H)
    (queue : List H) : EveryoneOnce p l h queue ↔ l.getLast? ≠ some h := by
  obtain ⟨p', hawait, hp'⟩ := hp.awaitSuspend h queue
  constructor
  · rintro ⟨p₁, rest, out, h₁, hperm, -⟩ hlast
    rw [hawait] at h₁
    obtain ⟨-, hrest, hout⟩ : p' = p₁ ∧ queue ++ appended l h = queue ++ rest ∧
        l.getLast? = out := by simpa using h₁
    rw [← hout, ← List.append_cancel_left hrest] at hperm
    exact not_perm_insert_of_last hnd hlast hperm
  · intro hlast
    exact ⟨p', appended l h, l.getLast?, hawait, perm_insert_of_ne_last hlast, hp'.size_eq,
      hp'.handles⟩

/-- Four handles on the heap, awaited by the second one: it is in the queue once. -/
theorem everyoneOnce_included :
    EveryoneOnce ⟨.ext [some 1, some 2, some 3, some 4, none, none] 6, 9⟩ [1, 2, 3, 4] 2
      [5, 6] := by
  have hl : [1, 2, 3, 4].map some <+: [some 1, some 2, some 3, some 4, none, none] :=
    ⟨[none, none], rfl⟩
  have hp : Holds ⟨.ext [some 1, some 2, some 3, some 4, none, none] 6, 9⟩ [1, 2, 3, 4] :=
    Holds.ext (by simp) (by simp) hl
  exact (everyoneOnce_iff hp (by decide) 2 [5, 6]).mpr (by decide)

/-- The only handle is that of the coroutine: it goes on, and is in the queue as well. -/
theorem everyoneOnce_fails : ¬ EveryoneOnce (ofHandle 1) [1] 1 [] := by
  rintro ⟨p', rest, out, h, hperm, -⟩
  have hawait : (ofHandle 1).awaitSuspend 1 [] =
      some ({ ofHandle 1 with countFlag := 0 }, [1], some 1) := rfl
  rw [hawait] at h
  obtain ⟨-, rfl, rfl⟩ : _ ∧ [1] = rest ∧ some 1 = out := by simpa using h
  have hlen := hperm.length_eq
  simp at hlen

end SuspendPoint

end Cocls
