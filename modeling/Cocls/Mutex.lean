import Mathlib.Data.List.Nodup
import Cocls.Awaiter

/-!
# Cocls.Mutex

The coroutine mutex, call by call.  `_requests` is a lock-free stack of the
awaiters that asked for the mutex; the *doorman* at its bottom marks the mutex
locked.  `_queue` is the line of awaiters that will be served next; only the
owner touches it.  `unlock` serves the line and, when the line is empty, tries
to take the doorman away; when requests have come in meanwhile, `build_queue`
reverses the stack into the line.

Here a whole call is one function.  Its loops carry fuel (`none`: not enough);
the specifications below show how much each of them needs in a mutex that
represents a line of waiting awaiters (`Rep`).
-/

namespace Cocls

/-- The fields of `mutex` and the `_next` fields of all awaiters. -/
structure Mutex where
  requests : Option Awaiter
  queue : Option Awaiter
  next : Awaiter.Nexts

namespace Mutex

open Awaiter (Nexts)

/-- `doorman()`: the awaiter whose presence in `_requests` marks the mutex locked. -/
def doorman : Awaiter := .theInstance

/-- `ready()`, which is also `try_lock`: put the doorman where nothing was. -/
def ready (m : Mutex) : Mutex × Bool :=
  if m.requests = none then ({ m with requests := some doorman }, true) else (m, false)

/-- The loop of `build_queue`: pop the stack at `req` until `stop`, pushing each
awaiter to `_queue`. -/
def buildLoop (stop : Awaiter) : (fuel : Nat) → Option Awaiter → Mutex → Option Mutex
  | 0, _, _ => none
  | fuel + 1, req, m =>
      match req with
      | none => some m
      | some x =>
          if x = stop then some m
          else buildLoop stop fuel (m.next x)
            { m with next := Function.update m.next x m.queue, queue := some x }

/-- `build_queue(stop)`: take the whole stack, leaving the doorman. -/
def buildQueue (fuel : Nat) (stop : Awaiter) (m : Mutex) : Option Mutex :=
  buildLoop stop fuel m.requests { m with requests := some doorman }

/-- `subscribe(aw)`: `true` when the awaiter was left waiting, `false` when it
owns the mutex. -/
def subscribe (fuel : Nat) (aw : Awaiter) (m : Mutex) : Option (Mutex × Bool) :=
  (Awaiter.subscribe aw fuel m.requests m.next).bind fun r =>
    let m := { m with requests := r.1, next := r.2 }
    if m.next aw = none then
      (buildQueue fuel aw m).map fun m => (m, false)
    else
      some (m, true)

/-- The end of `unlock`: unlink the first awaiter of `_queue` and resume it.
`none`: `_queue` is null and is dereferenced. -/
def handOver (m : Mutex) : Option (Mutex × Option Awaiter) :=
  m.queue.map fun first =>
    ({ m with queue := m.next first, next := Function.update m.next first none }, some first)

/-- `unlock(fn)`: the awaiter that `fn` resumes, if any. -/
def unlock (fuel : Nat) (m : Mutex) : Option (Mutex × Option Awaiter) :=
  if m.queue = none then
    if m.requests = some doorman then
      some ({ m with requests := none }, none)
    else
      (buildQueue fuel doorman m).bind handOver
  else
    handOver m

/-! ## The line a mutex represents -/

/-- An unlocked mutex: nothing is linked anywhere. -/
structure Unlocked (m : Mutex) : Prop where
  requests_eq : m.requests = none
  queue_eq : m.queue = none

/-- A locked mutex in which the awaiters `line` wait, longest waiting first: the
line is `_queue` followed by the stack of requests, oldest request first. -/
structure Locked (m : Mutex) (line : List Awaiter) : Prop where
  chains : ∃ stack queue, line = queue ++ stack.reverse ∧
    Links m.next m.requests stack (some doorman) ∧ Links m.next m.queue queue none
  nodup : line.Nodup
  no_doorman : doorman ∉ line

/-- A mutex just locked by its doorman, nobody waiting. -/
theorem locked_nil {m : Mutex} (hr : m.requests = some doorman) (hq : m.queue = none) :
    Locked m [] :=
  ⟨⟨[], [], rfl, hr, hq⟩, List.nodup_nil, List.not_mem_nil⟩

theorem Locked.requests_ne_none {m : Mutex} {line : List Awaiter} (h : Locked m line) :
    m.requests ≠ none := by
  obtain ⟨stack, queue, -, hs, -⟩ := h.chains
  cases stack with
  | nil => simp only [Links.nil_iff] at hs; simp [hs]
  | cons x xs => simp [hs.1]

/-! ## What the calls do to the line -/

/-- `try_lock` on an unlocked mutex locks it. -/
theorem ready_of_unlocked {m : Mutex} (h : Unlocked m) :
    ∃ m', ready m = (m', true) ∧ Locked m' [] :=
  ⟨{ m with requests := some doorman }, by rw [ready, if_pos h.requests_eq],
    locked_nil rfl h.queue_eq⟩

/-- `try_lock` on a locked mutex fails and changes nothing. -/
theorem ready_of_locked {m : Mutex} {line : List Awaiter} (h : Locked m line) :
    ready m = (m, false) := by
  rw [ready, if_neg h.requests_ne_none]

/-- The loop of `build_queue` reverses the stack, down to the stop, onto the line. -/
theorem buildLoop_spec {stop : Awaiter} {stack : List Awaiter} :
    ∀ (fuel : Nat) (req : Option Awaiter) (m : Mutex) (queue : List Awaiter),
      stack.length < fuel → (queue ++ stack).Nodup → stop ∉ stack →
      Links m.next req stack (some stop) → Links m.next m.queue queue none →
      ∃ m', buildLoop stop fuel req m = some m' ∧ m'.requests = m.requests ∧
        (∀ y, y ∉ stack → m'.next y = m.next y) ∧
        Links m'.next m'.queue (stack.reverse ++ queue) none := by
  induction stack with
  | nil =>
      intro fuel req m queue hfuel hnd hstop hs hq
      obtain ⟨fuel, rfl⟩ := Nat.exists_eq_succ_of_ne_zero (Nat.ne_of_gt hfuel)
      have hreq : req = some stop := hs
      refine ⟨m, ?_, rfl, fun _ _ => rfl, by simpa using hq⟩
      simp [buildLoop, hreq]
  | cons x stack ih =>
      intro fuel req m queue hfuel hnd hstop hs hq
      obtain ⟨fuel, rfl⟩ := Nat.exists_eq_succ_of_ne_zero (Nat.ne_of_gt (Nat.zero_lt_of_lt hfuel))
      obtain ⟨hreq, hrest⟩ := hs
      have hxstop : x ≠ stop := fun hx => hstop (hx ▸ List.mem_cons_self)
      have hx : x ∉ queue ∧ x ∉ stack := by
        have hperm : (x :: (queue ++ stack)).Nodup :=
          (List.perm_middle.nodup_iff).mp hnd
        simpa [not_or] using (List.nodup_cons.mp hperm).1
      have hnd' : ((x :: queue) ++ stack).Nodup := (List.perm_middle.nodup_iff).mp hnd
      obtain ⟨hs', hq'⟩ := Links.reverse_step hx.2 hx.1 ⟨hreq, hrest⟩ hq
      obtain ⟨m', hrun, hreqs, hframe, hline⟩ :=
        ih fuel (m.next x) { m with next := Function.update m.next x m.queue, queue := some x }
          (x :: queue) (by simp only [List.length_cons] at hfuel; omega) hnd'
          (fun h => hstop (List.mem_cons_of_mem x h)) hs' hq'
      refine ⟨m', ?_, hreqs, ?_, by simpa using hline⟩
      · simp only [buildLoop, hreq, if_neg hxstop]
        exact hrun
      · intro y hy
        have hyx : y ≠ x := fun h => hy (h ▸ List.mem_cons_self)
        rw [hframe y fun h => hy (List.mem_cons_of_mem x h)]
        exact Function.update_of_ne hyx _ _

/-- Subscribing to an unlocked mutex locks it at once: the awaiter finds nothing
below itself, and `build_queue` replaces it by the doorman. -/
theorem subscribe_of_unlocked {m : Mutex} (aw : Awaiter) (fuel : Nat) (h : Unlocked m) :
    ∃ m', subscribe (fuel + 2) aw m = some (m', false) ∧ Locked m' [] := by
  refine ⟨{ requests := some doorman, queue := m.queue, next := Function.update m.next aw none },
    ?_, locked_nil rfl h.queue_eq⟩
  simp [subscribe, Awaiter.subscribe_eq, h.requests_eq, buildQueue, buildLoop]

/-- Subscribing to a locked mutex puts the awaiter at the end of the line. -/
theorem subscribe_of_locked {m : Mutex} {line : List Awaiter} {aw : Awaiter} (fuel : Nat)
    (h : Locked m line) (haw : aw ∉ line) (hd : aw ≠ doorman) :
    ∃ m', subscribe (fuel + 2) aw m = some (m', true) ∧ Locked m' (line ++ [aw]) := by
  obtain ⟨stack, queue, rfl, hs, hq⟩ := h.chains
  have hstack : aw ∉ stack := fun hmem => haw (by simp [hmem])
  have hqueue : aw ∉ queue := fun hmem => haw (by simp [hmem])
  refine ⟨{ requests := some aw, queue := m.queue,
            next := Function.update m.next aw m.requests }, ?_, ?_, ?_, ?_⟩
  · simp [subscribe, Awaiter.subscribe_eq, h.requests_ne_none]
  · refine ⟨aw :: stack, queue, by simp, Links.push hstack hs, ?_⟩
    exact (Links.update_iff hqueue).mpr hq
  · rw [List.nodup_append]
    refine ⟨h.nodup, by simp, ?_⟩
    intro a ha b hb hab
    rw [List.mem_singleton] at hb
    exact haw (by rw [← hb, ← hab]; exact ha)
  · intro hmem
    rcases List.mem_append.mp hmem with hmem | hmem
    · exact h.no_doorman hmem
    · exact hd (List.mem_singleton.mp hmem).symm

/-- Unlocking with nobody waiting unlocks. -/
theorem unlock_of_nil {m : Mutex} (fuel : Nat) (h : Locked m []) :
    ∃ m', unlock fuel m = some (m', none) ∧ Unlocked m' := by
  obtain ⟨stack, queue, hline, hs, hq⟩ := h.chains
  obtain ⟨rfl, hrev⟩ := List.append_eq_nil_iff.mp hline.symm
  obtain rfl : stack = [] := List.reverse_eq_nil_iff.mp hrev
  have hreq : m.requests = some doorman := hs
  have hque : m.queue = none := hq
  exact ⟨{ m with requests := none }, by simp [unlock, hreq, hque], ⟨rfl, hque⟩⟩

/-- Handing over serves the first awaiter of a nonempty `_queue`. -/
theorem handOver_spec {m : Mutex} {stack queue : List Awaiter} {w : Awaiter}
    (hs : Links m.next m.requests stack (some doorman))
    (hq : Links m.next m.queue (w :: queue) none)
    (hnd : (w :: queue ++ stack.reverse).Nodup) (hd : doorman ∉ w :: queue ++ stack.reverse) :
    ∃ m', handOver m = some (m', some w) ∧ Locked m' (queue ++ stack.reverse) := by
  have hw : w ∉ queue ++ stack.reverse := (List.nodup_cons.mp hnd).1
  have hwq : w ∉ queue := fun h => hw (List.mem_append_left _ h)
  have hws : w ∉ stack := fun h => hw (List.mem_append_right _ (List.mem_reverse.mpr h))
  refine ⟨{ m with queue := m.next w, next := Function.update m.next w none }, ?_, ?_, ?_, ?_⟩
  · simp [handOver, hq.1]
  · exact ⟨stack, queue, rfl, (Links.update_iff hws).mpr hs, (Links.update_iff hwq).mpr hq.2⟩
  · exact (List.nodup_cons.mp hnd).2
  · exact fun h => hd (List.mem_cons_of_mem w h)

/-- Unlocking with awaiters waiting hands over to the one waiting longest. -/
theorem unlock_of_cons {m : Mutex} {line : List Awaiter} {w : Awaiter} {fuel : Nat}
    (hfuel : line.length + 1 < fuel) (h : Locked m (w :: line)) :
    ∃ m', unlock fuel m = some (m', some w) ∧ Locked m' line := by
  obtain ⟨stack, queue, hline, hs, hq⟩ := h.chains
  have hnd := h.nodup
  have hdoor := h.no_doorman
  rw [hline] at hnd hdoor
  cases queue with
  | cons v queue =>
      -- the line is not empty: serve its first awaiter
      obtain ⟨rfl, rfl⟩ := List.cons.inj hline
      obtain ⟨m', hrun, hlock⟩ := handOver_spec hs hq hnd hdoor
      refine ⟨m', ?_, hlock⟩
      rw [unlock, if_neg (by simp [hq.1])]
      exact hrun
  | nil =>
      -- requests came in: the doorman stays, the stack becomes the line
      have hque : m.queue = none := hq
      have hreq : m.requests ≠ some doorman := by
        rintro heq
        have hmem : ∀ x ∈ stack, some doorman ≠ some x := by
          rintro x hx ⟨⟩
          exact hdoor (by simpa using hx)
        have hempty : stack = [] := (Links.eq_end_iff hs hmem).mp heq
        simp [hempty] at hline
      have hstop : doorman ∉ stack := fun hmem => hdoor (by simpa using hmem)
      have hlen : stack.length < fuel := by
        have := congrArg List.length hline
        simp only [List.length_cons, List.length_append, List.length_nil,
          List.length_reverse] at this
        omega
      obtain ⟨m', hrun, hreqs, hframe, hline'⟩ :=
        buildLoop_spec fuel m.requests { m with requests := some doorman } []
          hlen (by simpa using hnd) hstop hs hque
      simp only [List.append_nil, List.nil_append] at hline' hline
      rw [← hline] at hline'
      have hs' : Links m'.next m'.requests [] (some doorman) := hreqs
      obtain ⟨m'', hrun', hlock⟩ := handOver_spec hs' hline' (by simpa using h.nodup)
        (by simpa using h.no_doorman)
      refine ⟨m'', ?_, by simpa using hlock⟩
      rw [unlock, if_pos hque, if_neg hreq, buildQueue, hrun]
      exact hrun'

end Mutex

end Cocls
