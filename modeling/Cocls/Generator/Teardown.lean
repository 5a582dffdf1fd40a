import Cocls.Generator.Merge

/-!
# Cocls.Generator.Teardown

The end of a `generator_aggregator`: however its body is left, the destructor of
`generator_aggregator_controller` runs before the sources are destroyed.

The body is left at its end, by an exception, or because the aggregator is
destroyed while it is paused at a `co_yield`.  The destructor takes one
completion less from the queue than the counter says.  The counter is the number
of the generators in the list less those that are over, and it is set before any
of them is charged; it is right from the moment on when all are charged.

The generators of the list may have been used before: all that is known of them
is that nobody is waiting for them.
-/

namespace Cocls

namespace Generator

variable {σ T E : Type*}

/-- A generator that is not at work. -/
structure IdleGenerator (σ T E : Type*) where
  gen : Coroutine σ T E
  idle : gen.place.atWork = false

/-- How far the frame of the aggregator is. -/
inductive FramePhase where
  /-- in the body, or before its start -/
  | body
  /-- in the destructor of the controller -/
  | leaving
  | destroyed
deriving DecidableEq, Repr

/-- The frame of the aggregator.  In the destructor the place in the body stands for the place in
its loop: `done` at the loop condition, `popping` in `wait()` and `popped` behind it. -/
structure AggregatorFrame (σ T E : Type*) where
  agg : Aggregator σ T E
  phase : FramePhase := .body

namespace AggregatorFrame

inductive Action (E : Type*) where
  /-- a step of the aggregator or of a source -/
  | agg (a : Aggregator.Action)
  /-- the aggregator is accessed with an argument, and the copy of the argument throws -/
  | copyThrows (e : E)
  /-- the aggregator is destroyed -/
  | destroy
  /-- the destructor of the controller goes on -/
  | unwind

/-- The aggregator of a list of `n` generators. -/
def start (n : Nat) (src : Nat → IdleGenerator σ T E) : AggregatorFrame σ T E :=
  { agg := { src := fun i => (src i).gen, count := n } }

section Steps

variable (n : Nat) (body : Nat → σ → BodyStep σ T E) (s : AggregatorFrame σ T E)

/-- The body goes on; at its end, by a return or an exception, it is left. -/
def ofBody (g : Aggregator σ T E) : AggregatorFrame σ T E :=
  { agg := g, phase := if g.pc = .done then .leaving else .body }

/-- `auto arg = co_yield …` throws.  Before the loop over the list nothing catches it; after a
value the source is given up, `fin()`. -/
def copyThrows (e : E) : Option (AggregatorFrame σ T E) :=
  match s.phase, s.agg.pc with
  | .body, .fresh =>
      some { agg := { s.agg with exp := some (.failed e), pc := .done }, phase := .leaving }
  | .body, .yielding _ =>
      some { s with agg := ({ s.agg with exp := some (.failed e)
                                         taken := s.agg.taken + 1 } : Aggregator σ T E).fin }
  | _, _ => none

/-- The frame is destroyed before its start or in a `co_yield`. -/
def destroy : Option (AggregatorFrame σ T E) :=
  match s.phase, s.agg.pc with
  | .body, .fresh => some { s with phase := .destroyed }
  | .body, .yielding _ => some { agg := { s.agg with pc := .done }, phase := .leaving }
  | _, _ => none

/-- `while (_count>1) { _queue.pop().wait(); _count--; }`, and on to the destructors of the
sources. -/
def unwind : Option (AggregatorFrame σ T E) :=
  match s.phase, s.agg.pc with
  | .leaving, .done =>
      if 1 < s.agg.count then s.agg.popStep.map fun g => { s with agg := g }
      else some { s with phase := .destroyed }
  | .leaving, .popped _ =>
      some { s with agg := { s.agg with count := s.agg.count - 1, pc := .done } }
  | _, _ => none

/-- One step. -/
def step : Action E → Option (AggregatorFrame σ T E)
  | .agg a =>
      match s.phase, a with
      | .body, a => (s.agg.step n body a).map ofBody
      | .leaving, .body i => (s.agg.bodyStep body i).map fun g => { s with agg := g }
      | .leaving, .wake i => (s.agg.step n body (.wake i)).map fun g => { s with agg := g }
      | _, _ => none
  | .copyThrows e => s.copyThrows e
  | .destroy => s.destroy
  | .unwind => s.unwind

end Steps

/-- How many of the `n` sources are at work. -/
def working (n : Nat) (g : Aggregator σ T E) : Nat :=
  (List.range n).countP fun i => (g.src i).place.atWork

/-- The aggregator ends without waiting for what cannot come. -/
structure EndsCleanly (n : Nat) (body : Nat → σ → BodyStep σ T E) (s : AggregatorFrame σ T E) :
    Prop where
  /-- the destructor takes as many completions as there are sources at work or queued -/
  pops : s.phase = .leaving →
    s.agg.count - 1 = working n s.agg + s.agg.queue.queue.length +
      (Aggregator.held s.agg.pc).length
  /-- it waits for a source that is at work -/
  waits : s.phase = .leaving → s.agg.pc = .popping → 0 < working n s.agg
  /-- it comes to its end when the sources at work have completed -/
  terminates : s.phase = .leaving → working n s.agg = 0 →
    ∃ m, (Run.exec (step n body) s (List.replicate m .unwind)).phase = .destroyed
  /-- no source is destroyed while it is at work -/
  idle : s.phase = .destroyed → working n s.agg = 0

/-- What the code relies on: in the loop over the list only the last generator may have ended
before, and the copy of the first argument throws only when there is nothing to wait for. -/
def Chargeable (n : Nat) (s : AggregatorFrame σ T E) : Action E → Prop
  | .agg .go => s.phase = .body → ∀ i, s.agg.pc = .chargeAll i → i < n →
      (s.agg.src i).place.isDone = true → i + 1 = n
  | .copyThrows _ => s.agg.pc = .fresh → n ≤ 1
  | _ => True

/-! ## Where the sources are -/

open Aggregator (held returned)

/-- The sources `ws` are at work, and they resume the aggregator. -/
structure Working (n : Nat) (src : Nat → Coroutine σ T E) (ws : List Nat) : Prop where
  nodup : ws.Nodup
  mem_iff : ∀ i, i ∈ ws ↔ (src i).place.atWork = true
  lt : ∀ i ∈ ws, i < n
  caller : ∀ i ∈ ws, (src i).promise.caller = some (.awaiter i)

/-- The sources at work, and those in line. -/
structure Counts (n : Nat) (g : Aggregator σ T E) (ws : List Nat) : Prop where
  work : Working n g.src ws
  line : ∀ i ∈ held g.pc ++ g.queue.queue, i < n
  awaiters : if g.pc = .popping then g.queue.queue = [] ∧ ∃ k, g.queue.awaiters = [k]
    else g.queue.awaiters = []

/-- How many sources are at work or in line. -/
def outstanding (g : Aggregator σ T E) (ws : List Nat) : Nat :=
  ws.length + g.queue.queue.length + (held g.pc).length

section Working

variable {n i : Nat} {src : Nat → Coroutine σ T E} {ws : List Nat} {c : Coroutine σ T E}

/-- A source is charged. -/
theorem Working.charge (h : Working n src ws) (hi : i < n) (hidle : (src i).place.atWork = false)
    (hw : c.place.atWork = true) (hc : c.promise.caller = some (.awaiter i)) :
    Working n (Function.update src i c) (i :: ws) := by
  have hnot : i ∉ ws := by
    rw [h.mem_iff, hidle]
    decide
  refine ⟨List.nodup_cons.mpr ⟨hnot, h.nodup⟩, fun j => ?_, fun j hj => ?_, fun j hj => ?_⟩
  · by_cases hj : j = i
    · subst hj
      simp [hw]
    · simp [hj, h.mem_iff]
  · rcases List.mem_cons.mp hj with rfl | hj
    · exact hi
    · exact h.lt j hj
  · by_cases hji : j = i
    · subst hji
      rw [Function.update_self, hc]
    · rw [Function.update_of_ne hji]
      exact h.caller j ((List.mem_cons.mp hj).resolve_left hji)

/-- A source stays at work, or stays idle. -/
theorem Working.keep (h : Working n src ws) (hw : c.place.atWork = (src i).place.atWork)
    (hc : c.place.atWork = true → c.promise.caller = (src i).promise.caller) :
    Working n (Function.update src i c) ws := by
  refine ⟨h.nodup, fun j => ?_, h.lt, fun j hj => ?_⟩
  · rw [h.mem_iff]
    by_cases hj : j = i
    · subst hj
      rw [Function.update_self, hw]
    · rw [Function.update_of_ne hj]
  · by_cases hji : j = i
    · subst hji
      rw [Function.update_self, hc (hw.trans ((h.mem_iff j).mp hj)), h.caller j hj]
    · rw [Function.update_of_ne hji, h.caller j hj]

/-- A source completes its step. -/
theorem Working.complete (h : Working n src ws) (hw : c.place.atWork = false) :
    Working n (Function.update src i c) (ws.erase i) := by
  refine ⟨h.nodup.erase i, fun j => ?_, fun j hj => h.lt j (List.mem_of_mem_erase hj),
    fun j hj => ?_⟩
  · rw [h.nodup.mem_erase_iff, h.mem_iff]
    by_cases hj : j = i
    · subst hj
      simp [hw]
    · simp [hj]
  · obtain ⟨hji, hj⟩ := h.nodup.mem_erase_iff.mp hj
    rw [Function.update_of_ne hji, h.caller j hj]

end Working

/-- What `next_async` comes to. -/
theorem nextAsync_cases {g g' : Coroutine σ T E} {k : Nat} {ok : Bool}
    (h : g.nextAsync k = some (g', ok)) : g.place.atWork = false ∧
      (ok = true ∧ g.place.isDone = false ∧ g'.place.atWork = true ∧
          g'.promise.caller = some (.awaiter k) ∨
        ok = false ∧ g.place.isDone = true ∧ g'.place = g.place) := by
  rw [Coroutine.nextAsync] at h
  split at h
  · cases h
  · split at h
    · next hd =>
      cases h
      cases hp : g.place with
      | done => exact ⟨rfl, .inr ⟨rfl, rfl, rfl⟩⟩
      | _ => rw [hp] at hd; cases hd
    · next hd =>
      simp only [Option.map_eq_some_iff, Prod.mk.injEq] at h
      obtain ⟨c, hres, rfl, rfl⟩ := h
      rw [Coroutine.resume] at hres
      split at hres
      · next b hp =>
        cases hres
        exact ⟨by rw [hp]; rfl, .inl ⟨rfl, by simpa using hd, rfl, rfl⟩⟩
      · cases hres

/-- What the body of a source does to its place. -/
theorem runBody_place {bd : σ → BodyStep σ T E} {g g' : Coroutine σ T E} {x : Ran}
    (h : g.runBody bd = some (g', x)) :
    (x = .awaits ∧ g'.place.atWork = true ∧ g'.promise = g.promise) ∨
      (x = .resumes g.promise.caller ∧ g'.place.atWork = false) := by
  rw [Coroutine.runBody] at h
  split at h
  · next b hp =>
    obtain h := Option.some.inj h
    split at h <;> cases h
    · exact .inl ⟨rfl, rfl, rfl⟩
    all_goals exact .inr ⟨rfl, rfl⟩
  · cases h

section Counts

variable {n : Nat} {body : Nat → σ → BodyStep σ T E} {g g' : Aggregator σ T E} {ws : List Nat}

theorem Counts.working_eq (h : Counts n g ws) : working n g = ws.length := by
  rw [AggregatorFrame.working, List.countP_eq_length_filter]
  apply List.Perm.length_eq
  rw [List.perm_ext_iff_of_nodup (List.nodup_range.filter _) h.work.nodup]
  intro i
  rw [List.mem_filter, List.mem_range, h.work.mem_iff]
  exact ⟨fun hi => hi.2, fun hi => ⟨h.work.lt i ((h.work.mem_iff i).mpr hi), hi⟩⟩

/-- The aggregator at another place, with the same sources. -/
theorem Counts.congr (h : Counts n g ws) (hsrc : g'.src = g.src) (hq : g'.queue = g.queue)
    (hheld : held g'.pc ⊆ held g.pc) (hpop : g.pc ≠ .popping) (hpop' : g'.pc ≠ .popping) :
    Counts n g' ws := by
  refine ⟨hsrc ▸ h.work, fun i hi => h.line i ?_, ?_⟩
  · rw [hq] at hi
    rcases List.mem_append.mp hi with hi | hi
    · exact List.mem_append_left _ (hheld hi)
    · exact List.mem_append_right _ hi
  · have ha := h.awaiters
    rw [if_neg hpop] at ha
    rw [if_neg hpop', hq, ha]

/-- `charge` of a source. -/
theorem Counts.chargeStep (h : Counts n g ws) {i : Nat} {first : Bool} (hi : i < n)
    (hpop : g.pc ≠ .popping) (hs : g.chargeStep i first = some g') : g'.queue = g.queue ∧
      ((g.src i).place.isDone = false ∧ Counts n g' (i :: ws) ∧ g'.pc = .resuming i first ∧
          g'.count = g.count ∨
        (g.src i).place.isDone = true ∧ Counts n g' ws ∧
          (first = true ∧ g'.pc = .done ∧ g'.count = g.count ∨
            first = false ∧ g'.pc = .loop ∧ g'.count = g.count - 1)) := by
  have hline : ∀ j ∈ g.queue.queue, j < n := fun j hj => h.line j (List.mem_append_right _ hj)
  have haw : g.queue.awaiters = [] := by
    have ha := h.awaiters
    rwa [if_neg hpop] at ha
  obtain ⟨⟨c, ok⟩, hnext, rfl⟩ := Option.map_eq_some_iff.mp hs
  obtain ⟨hidle, ⟨rfl, hd, hw, hc⟩ | ⟨rfl, hd, hp⟩⟩ := nextAsync_cases hnext
  · exact ⟨rfl, .inl ⟨hd, ⟨h.work.charge hi hidle hw hc, hline, haw⟩, rfl, rfl⟩⟩
  · have hwork : Working n (Function.update g.src i c) ws :=
      h.work.keep (by rw [hp]) fun hw => by rw [hp, hidle] at hw; cases hw
    cases first with
    | true => exact ⟨rfl, .inr ⟨hd, ⟨hwork, hline, haw⟩, .inl ⟨rfl, rfl, rfl⟩⟩⟩
    | false => exact ⟨rfl, .inr ⟨hd, ⟨hwork, hline, haw⟩, .inr ⟨rfl, rfl, rfl⟩⟩⟩

/-- `queue.pop()` takes a source from the queue or waits for one. -/
theorem Counts.popStep (h : Counts n g ws) (hheld : held g.pc = []) (hpop : g.pc ≠ .popping) :
    ∃ g', g.popStep = some g' ∧ Counts n g' ws ∧ g'.count = g.count ∧
      outstanding g' ws = outstanding g ws ∧
      (g.queue.queue = [] ∧ g'.pc = .popping ∨ ∃ i, g'.pc = .popped i) := by
  have haw : g.queue.awaiters = [] := by
    have ha := h.awaiters
    rwa [if_neg hpop] at ha
  have hline := h.line
  rw [hheld, List.nil_append] at hline
  simp only [Aggregator.popStep, outstanding, hheld]
  cases hq : g.queue.queue with
  | nil =>
      simp only [Aggregator.pop_nil g.queue hq, haw, ne_eq, not_true_eq_false, if_false,
        List.nil_append]
      exact ⟨_, rfl, ⟨h.work, by simp [held, hq], by simp [hq]⟩, rfl, by simp [held, hq],
        .inl ⟨trivial, rfl⟩⟩
  | cons i is =>
      simp only [Aggregator.pop_cons g.queue hq]
      rw [hq] at hline
      exact ⟨_, rfl, ⟨h.work, hline, haw⟩, rfl, by simp [held]; omega, .inr ⟨i, rfl⟩⟩

/-- The body of a source runs to its next suspension. -/
theorem Counts.bodyStep (h : Counts n g ws) {i : Nat} (hs : g.bodyStep body i = some g') :
    ∃ ws', Counts n g' ws' ∧ g'.count = g.count ∧ outstanding g' ws' = outstanding g ws ∧
      (g'.pc = returned i g.pc ∨ g.pc = .popping ∧ ∃ j, g'.pc = .popped j) := by
  simp only [Aggregator.bodyStep] at hs
  cases hrun : (g.src i).runBody (body i) with
  | none => rw [hrun] at hs; cases hs
  | some cx =>
      obtain ⟨c, x⟩ := cx
      have hw := atWork_of_runBody hrun
      have hi : i ∈ ws := (h.work.mem_iff i).mpr hw
      rw [hrun] at hs
      obtain ⟨rfl, hcw, hcp⟩ | ⟨rfl, hcw⟩ := runBody_place hrun
      · -- it awaits
        obtain rfl := Option.some.inj hs
        have hsame := Aggregator.returned_same n i g.pc
        rw [Aggregator.returns_eq]
        refine ⟨ws, ⟨h.work.keep (hcw.trans hw.symm) fun _ => by rw [hcp], ?_, ?_⟩, rfl, ?_,
          .inl rfl⟩
        · rw [hsame.1]
          exact h.line
        · simp only [hsame.2.2.2.2]
          exact h.awaiters
        · simp only [outstanding, hsame.1]
      · -- it completes its step and is put in line
        rw [h.work.caller i hi] at hs
        simp only [Option.some.injEq] at hs
        subst hs
        have hlen := List.length_erase_add_one hi
        have hwork := h.work.complete (i := i) hcw
        have hlt := h.work.lt i hi
        have haw := h.awaiters
        by_cases hpop : g.pc = .popping
        · -- the aggregator waits for it
          rw [if_pos hpop] at haw
          obtain ⟨hq, k, hk⟩ := haw
          simp only [Aggregator.callback, Aggregator.push_cons g.queue hk, Aggregator.returns_eq,
            returned]
          refine ⟨ws.erase i, ⟨hwork, by simpa [held, hq] using hlt, by simp⟩, trivial, ?_,
            .inr ⟨hpop, i, rfl⟩⟩
          simp only [outstanding, hpop, hq, held, List.length_nil, List.length_singleton]
          omega
        · rw [if_neg hpop] at haw
          have hsame := Aggregator.returned_same n i g.pc
          simp only [Aggregator.callback, Aggregator.push_nil g.queue haw, Aggregator.returns_eq]
          refine ⟨ws.erase i, ⟨hwork, ?_, ?_⟩, trivial, ?_, .inl trivial⟩
          · simp only [hsame.1]
            intro j hj
            rw [← List.append_assoc, List.mem_append] at hj
            rcases hj with hj | hj
            · exact h.line j hj
            · rw [List.mem_singleton.mp hj]
              exact hlt
          · simp only [hsame.2.2.2.2, if_neg hpop]
            exact haw
          · simp only [outstanding, hsame.1, List.length_append, List.length_singleton]
            omega

/-- A source is resumed from its `co_await`. -/
theorem Counts.wake (h : Counts n g ws) {i : Nat} (hs : g.step n body (.wake i) = some g') :
    Counts n g' ws ∧ g'.count = g.count ∧ g'.pc = g.pc ∧ g'.queue = g.queue := by
  obtain ⟨c, hc, rfl⟩ := Option.map_eq_some_iff.mp hs
  rw [Coroutine.wake] at hc
  split at hc
  · next b hp =>
    obtain rfl := Option.some.inj hc
    exact ⟨⟨h.work.keep (by rw [hp]; rfl) fun _ => rfl, h.line, h.awaiters⟩, rfl, rfl, rfl⟩
  · cases hc

end Counts

/-! ## The counter -/

/-- The counter in the body, when `o` sources are at work or in line. -/
def InBody (n : Nat) : Pc → (count o : Nat) → Prop
  | .fresh, count, o => count = n ∧ o = 0
  | .chargeAll i, count, o => count = n ∧ o = i ∧ i ≤ n
  | .resuming i true, count, o => count = n ∧ o = i + 1 ∧ i < n
  | .done, _, _ => False
  | _, count, o => count = o

/-- The counter in the destructor. -/
def InDestructor : Pc → (count o : Nat) → Prop
  | .done, count, o => count - 1 = o
  | .popping, count, o => count - 1 = o ∧ 1 < count
  | .popped _, count, o => count - 1 = o ∧ 1 < count
  | _, _, _ => False

/-- The counter at the place where the frame is. -/
def Balanced (n : Nat) (s : AggregatorFrame σ T E) (ws : List Nat) : Prop :=
  match s.phase with
  | .body => InBody n s.agg.pc s.agg.count (outstanding s.agg ws)
  | .leaving => InDestructor s.agg.pc s.agg.count (outstanding s.agg ws)
  | .destroyed => ws = []

/-- The invariant. -/
def Inv (n : Nat) (s : AggregatorFrame σ T E) : Prop :=
  ∃ ws, Counts n s.agg ws ∧ Balanced n s ws

section Steps

variable {n : Nat} {body : Nat → σ → BodyStep σ T E} {s s' : AggregatorFrame σ T E}
  {g g' : Aggregator σ T E} {ws : List Nat} {o : Nat}

/-- The counter when a source suspended. -/
theorem InBody.returned {pc : Pc} {count : Nat} (h : InBody n pc count o) (i : Nat) :
    InBody n (Aggregator.returned i pc) count o := by
  cases pc with
  | resuming j first =>
      rw [Aggregator.returned]
      split
      · next hj =>
        subst hj
        cases first with
        | true => exact ⟨h.1, h.2.1, h.2.2⟩
        | false => exact h
      · exact h
  | _ => exact h

theorem InDestructor.returned {pc : Pc} {count : Nat} (h : InDestructor pc count o) (i : Nat) :
    InDestructor (Aggregator.returned i pc) count o := by
  cases pc with
  | resuming j first => exact h.elim
  | _ => exact h

/-- The body is not at its end after this step. -/
theorem inv_ofBody (h : Counts n g ws) (hb : InBody n g.pc g.count (outstanding g ws)) :
    Inv n (ofBody g) := by
  have hpc : g.pc ≠ .done := fun hpc => by
    rw [hpc] at hb
    exact hb
  exact ⟨ws, h, by simpa [Balanced, ofBody, hpc] using hb⟩

/-- The body is left. -/
theorem inv_ofBody_done (h : Counts n g ws) (hpc : g.pc = .done)
    (hb : g.count - 1 = outstanding g ws) : Inv n (ofBody g) :=
  ⟨ws, h, by simpa [Balanced, ofBody, hpc, InDestructor] using hb⟩

/-- A source that is over is given up. -/
theorem Counts.fin (h : Counts n g ws) {i : Nat} (hheld : held g.pc = [i])
    (hb : g.count = outstanding g ws) (ex : Option (Report T E)) (taken : Nat) :
    Inv n (ofBody ({ g with exp := ex, taken := taken } : Aggregator σ T E).fin) := by
  have hpop : g.pc ≠ .popping := fun hpc => by rw [hpc] at hheld; cases hheld
  refine inv_ofBody (h.congr rfl rfl (by simp [held, Aggregator.fin]) hpop
    (by simp [Aggregator.fin])) ?_
  simp only [outstanding, hheld, List.length_singleton] at hb
  simp only [InBody, outstanding, Aggregator.fin, held, List.length_nil]
  omega

/-- The body of the aggregator goes on. -/
theorem Counts.go (h : Counts n g ws) (hb : InBody n g.pc g.count (outstanding g ws))
    (hgood : ∀ i, g.pc = .chargeAll i → i < n → (g.src i).place.isDone = true → i + 1 = n)
    (hs : g.go n = some g') : Inv n (ofBody g') := by
  cases hpc : g.pc with
  | fresh | resuming _ _ | popping | yielding _ | done => simp [Aggregator.go, hpc] at hs
  | chargeAll i =>
      rw [hpc] at hb
      obtain ⟨hcount, hout, hle⟩ := hb
      simp only [Aggregator.go, hpc] at hs
      simp only [outstanding, hpc, held, List.length_nil] at hout
      by_cases hi : i < n
      · rw [if_pos hi] at hs
        obtain ⟨hq, ⟨-, h', hpc', hc'⟩ | ⟨hd, h', ⟨-, hpc', hc'⟩ | ⟨hf, -⟩⟩⟩ :=
          h.chargeStep hi (by simp [hpc]) hs
        · refine inv_ofBody h' ?_
          rw [hpc', hc', hcount]
          refine ⟨rfl, ?_, hi⟩
          simp only [outstanding, hpc', hq, held, List.length_cons, List.length_nil]
          omega
        · -- `no_more_values_exception` leaves the body
          have hlast := hgood i hpc hi hd
          refine inv_ofBody_done h' hpc' ?_
          simp only [outstanding, hpc', hq, hc', held, List.length_nil]
          omega
        · cases hf
      · rw [if_neg hi] at hs
        obtain rfl := Option.some.inj hs
        refine inv_ofBody (h.congr rfl rfl (by simp [held]) (by simp [hpc]) (by simp)) ?_
        simp only [InBody, outstanding, held, List.length_nil]
        omega
  | loop =>
      rw [hpc] at hb
      have hb : g.count = outstanding g ws := hb
      simp only [Aggregator.go, hpc] at hs
      by_cases hc : 0 < g.count
      · rw [if_pos hc] at hs
        obtain ⟨g₁, hs₁, h', hc', hout, hp⟩ := h.popStep (by rw [hpc]; rfl) (by simp [hpc])
        rw [hs] at hs₁
        obtain rfl := Option.some.inj hs₁
        refine inv_ofBody h' ?_
        obtain ⟨-, hp⟩ | ⟨i, hp⟩ := hp <;>
        · rw [hp, hc', hout]
          exact hb
      · rw [if_neg hc] at hs
        obtain rfl := Option.some.inj hs
        refine inv_ofBody_done (h.congr rfl rfl (by simp [held]) (by simp [hpc]) (by simp)) rfl ?_
        simp only [outstanding, hpc, held, List.length_nil] at hb ⊢
        omega
  | popped i =>
      rw [hpc] at hb
      have hheld : held g.pc = [i] := by rw [hpc]; rfl
      simp only [Aggregator.go, hpc] at hs
      split at hs
      · obtain rfl := Option.some.inj hs
        exact h.fin hheld hb g.exp g.taken
      · split at hs
        · next v _ =>
          obtain rfl := Option.some.inj hs
          refine inv_ofBody (h.congr rfl rfl (by rw [hheld]; simp [held]) (by simp [hpc])
            (by simp)) ?_
          have hb : g.count = outstanding g ws := hb
          rw [outstanding, hheld] at hb
          exact hb
        · obtain rfl := Option.some.inj hs
          exact h.fin hheld hb _ g.taken
  | charge i =>
      rw [hpc] at hb
      have hb : g.count = outstanding g ws := hb
      have hi : i < n := h.line i (by simp [hpc, held])
      simp only [Aggregator.go, hpc] at hs
      simp only [outstanding, hpc, held, List.length_singleton] at hb
      obtain ⟨hq, ⟨-, h', hpc', hc'⟩ | ⟨-, h', ⟨hf, -⟩ | ⟨-, hpc', hc'⟩⟩⟩ :=
        h.chargeStep hi (by simp [hpc]) hs
      · refine inv_ofBody h' ?_
        rw [hpc', hc']
        simp only [InBody, outstanding, hpc', hq, held, List.length_cons, List.length_nil]
        omega
      · cases hf
      · refine inv_ofBody h' ?_
        rw [hpc', hc']
        simp only [InBody, outstanding, hpc', hq, held, List.length_nil]
        omega

/-- A step of the aggregator in its body. -/
theorem Counts.agg (h : Counts n g ws) (hb : InBody n g.pc g.count (outstanding g ws))
    {a : Aggregator.Action}
    (hgood : a = .go → ∀ i, g.pc = .chargeAll i → i < n → (g.src i).place.isDone = true → i + 1 = n)
    (hs : g.step n body a = some g') : Inv n (ofBody g') := by
  cases a with
  | access =>
      simp only [Aggregator.step] at hs
      split at hs
      · next hpc =>
        obtain rfl := Option.some.inj hs
        rw [hpc] at hb
        refine inv_ofBody (h.congr rfl rfl (by simp [held]) (by simp [hpc]) (by simp)) ?_
        simpa [InBody, outstanding, hpc, held] using hb
      · next i hpc =>
        obtain rfl := Option.some.inj hs
        rw [hpc] at hb
        have hb : g.count = outstanding g ws := hb
        refine inv_ofBody (h.congr rfl rfl (by rw [hpc]; simp [held]) (by simp [hpc])
          (by simp)) ?_
        simpa [InBody, outstanding, hpc, held] using hb
      · cases hs
  | go => exact h.go hb (hgood rfl) hs
  | body i =>
      obtain ⟨ws', h', hcount, hout, hpc | ⟨hpop, j, hpc⟩⟩ := h.bodyStep hs
      · refine inv_ofBody h' ?_
        rw [hcount, hout, hpc]
        exact hb.returned i
      · refine inv_ofBody h' ?_
        rw [hcount, hout, hpc]
        rw [hpop] at hb
        exact hb
  | wake i =>
      obtain ⟨h', hcount, hpc, hq⟩ := h.wake hs
      refine inv_ofBody h' ?_
      rw [hcount, hpc]
      simpa only [outstanding, hpc, hq] using hb

theorem inv_start (n : Nat) (src : Nat → IdleGenerator σ T E) : Inv n (start n src) := by
  refine ⟨[], ⟨⟨List.nodup_nil, fun i => ?_, by simp, by simp⟩, by simp [start, held], rfl⟩,
    rfl, rfl⟩
  simp [start, (src i).idle]

/-- The aggregator is left where it has nothing from the queue in its hands but what it yielded. -/
theorem Inv.destroy (h : Inv n s) (hs : s.destroy = some s') : Inv n s' := by
  obtain ⟨ws, h, hb⟩ := h
  rw [AggregatorFrame.destroy] at hs
  split at hs
  · next hphase hpc =>
    obtain rfl := Option.some.inj hs
    rw [Balanced, hphase, hpc] at hb
    have hout := hb.2
    rw [outstanding] at hout
    exact ⟨ws, h, List.eq_nil_of_length_eq_zero (by omega)⟩
  · next i hphase hpc =>
    obtain rfl := Option.some.inj hs
    rw [Balanced, hphase, hpc] at hb
    have hb : s.agg.count = outstanding s.agg ws := hb
    refine ⟨ws, h.congr rfl rfl (by simp [held]) (by simp [hpc]) (by simp), ?_⟩
    simp only [outstanding, hpc, held, List.length_singleton] at hb
    simp only [Balanced, InDestructor, outstanding, held, List.length_nil]
    omega
  · cases hs

/-- The copy of an argument throws: the source that waits for it is given up. -/
theorem Inv.copyThrows {e : E} (h : Inv n s) (hgood : s.agg.pc = .fresh → n ≤ 1)
    (hs : s.copyThrows e = some s') : Inv n s' := by
  obtain ⟨ws, h, hb⟩ := h
  rw [AggregatorFrame.copyThrows] at hs
  split at hs
  · next hphase hpc =>
    obtain rfl := Option.some.inj hs
    have hn := hgood hpc
    rw [Balanced, hphase, hpc] at hb
    obtain ⟨hcount, hout⟩ := hb
    refine ⟨ws, h.congr rfl rfl (by simp [held]) (by simp [hpc]) (by simp), ?_⟩
    simp only [outstanding] at hout
    simp only [Balanced, InDestructor, outstanding, held, List.length_nil]
    omega
  · next i hphase hpc =>
    obtain rfl := Option.some.inj hs
    rw [Balanced, hphase, hpc] at hb
    have hfin := h.fin (by rw [hpc]; rfl) hb (some (.failed e)) (s.agg.taken + 1)
    rwa [ofBody, if_neg (by simp [Aggregator.fin]), ← hphase] at hfin
  · cases hs

/-- The destructor takes a completion, or waits for one. -/
theorem Inv.unwind (h : Inv n s) (hs : s.unwind = some s') : Inv n s' := by
  obtain ⟨ws, h, hb⟩ := h
  rw [AggregatorFrame.unwind] at hs
  split at hs
  · next hphase hpc =>
    rw [Balanced, hphase, hpc] at hb
    have hb : s.agg.count - 1 = outstanding s.agg ws := hb
    split at hs
    · next hlt =>
      obtain ⟨g, hpop, h', hcount, hout, hp⟩ := h.popStep (by rw [hpc]; rfl) (by simp [hpc])
      rw [hpop] at hs
      obtain rfl := Option.some.inj hs
      refine ⟨ws, h', ?_⟩
      obtain ⟨-, hp⟩ | ⟨i, hp⟩ := hp <;>
      · simp only [Balanced, hphase, hp, InDestructor, hcount, hout]
        exact ⟨hb, hlt⟩
    · obtain rfl := Option.some.inj hs
      rw [outstanding] at hb
      exact ⟨ws, h, List.eq_nil_of_length_eq_zero (by omega)⟩
  · next i hphase hpc =>
    obtain rfl := Option.some.inj hs
    rw [Balanced, hphase, hpc] at hb
    obtain ⟨hb, hlt⟩ := hb
    refine ⟨ws, h.congr rfl rfl (by simp [held]) (by simp [hpc]) (by simp), ?_⟩
    simp only [outstanding, hpc, held, List.length_singleton] at hb
    simp only [Balanced, hphase, InDestructor, outstanding, held, List.length_nil]
    omega
  · cases hs

/-- A source goes on while the destructor runs. -/
theorem Inv.leaving {a : Aggregator.Action} (h : Inv n s) (hphase : s.phase = .leaving)
    (hs : s.step n body (.agg a) = some s') : Inv n s' := by
  obtain ⟨ws, h, hb⟩ := h
  rw [Balanced, hphase] at hb
  simp only [AggregatorFrame.step, hphase] at hs
  cases a with
  | access | go => cases hs
  | body i =>
      obtain ⟨g, hg, rfl⟩ := Option.map_eq_some_iff.mp hs
      obtain ⟨ws', h', hcount, hout, hpc⟩ := h.bodyStep hg
      refine ⟨ws', h', ?_⟩
      simp only [Balanced, hcount, hout]
      obtain hpc | ⟨hpop, j, hpc⟩ := hpc
      · rw [hpc]
        exact hb.returned i
      · rw [hpc]
        rw [hpop] at hb
        exact hb
  | wake i =>
      obtain ⟨g, hg, rfl⟩ := Option.map_eq_some_iff.mp hs
      obtain ⟨h', hcount, hpc, hq⟩ := h.wake hg
      refine ⟨ws, h', ?_⟩
      simpa only [Balanced, hphase, hcount, hpc, outstanding, hq] using hb

/-- **Step lemma**: what is in line or at work is what the destructor would count. -/
theorem Inv.step {a : Action E} (h : Inv n s) (hgood : Chargeable n s a)
    (hs : s.step n body a = some s') : Inv n s' := by
  cases a with
  | agg a =>
      cases hphase : s.phase with
      | body =>
          obtain ⟨ws, h, hb⟩ := h
          rw [Balanced, hphase] at hb
          simp only [AggregatorFrame.step, hphase] at hs
          obtain ⟨g, hg, rfl⟩ := Option.map_eq_some_iff.mp hs
          refine h.agg hb (fun ha => ?_) hg
          subst ha
          exact hgood hphase
      | leaving => exact h.leaving hphase hs
      | destroyed => simp [AggregatorFrame.step, hphase] at hs
  | copyThrows e => exact h.copyThrows hgood hs
  | destroy => exact h.destroy hs
  | unwind => exact h.unwind hs

/-! ## The end -/

/-- How far the destructor is from its end. -/
def ahead (s : AggregatorFrame σ T E) : Nat :=
  match s.phase with
  | .destroyed => 0
  | _ => s.agg.count + s.agg.queue.queue.length + 1

/-- With no source at work, the destructor never has to wait. -/
theorem Inv.unwind_of_idle (h : Inv n s) (hphase : s.phase = .leaving)
    (hidle : working n s.agg = 0) : ∃ s', s.unwind = some s' ∧ working n s'.agg = 0 ∧
      (s'.phase = .leaving ∨ s'.phase = .destroyed) ∧ ahead s' < ahead s := by
  obtain ⟨ws, h, hb⟩ := h
  have hws : ws.length = 0 := h.working_eq.symm.trans hidle
  have hahead : ahead s = s.agg.count + s.agg.queue.queue.length + 1 := by rw [ahead, hphase]
  rw [Balanced, hphase] at hb
  change InDestructor s.agg.pc s.agg.count (outstanding s.agg ws) at hb
  rw [hahead]
  cases hpc : s.agg.pc with
  | done =>
      rw [hpc] at hb
      have hb : s.agg.count - 1 = outstanding s.agg ws := hb
      simp only [AggregatorFrame.unwind, hphase, hpc]
      by_cases hlt : 1 < s.agg.count
      · obtain ⟨g, hpop, h', hcount, hout, hp⟩ := h.popStep (by rw [hpc]; rfl) (by simp [hpc])
        rw [if_pos hlt, hpop]
        refine ⟨_, rfl, h'.working_eq.trans hws, .inl rfl, ?_⟩
        simp only [outstanding, hpc, held, List.length_nil] at hb hout
        obtain ⟨hq, -⟩ | ⟨i, hp⟩ := hp
        · rw [hq, List.length_nil] at hb
          omega
        · simp only [hp, List.length_singleton] at hout
          simp only [ahead]
          omega
      · rw [if_neg hlt]
        exact ⟨_, rfl, hidle, .inr rfl, Nat.succ_pos _⟩
  | popping =>
      rw [hpc] at hb
      have ha := h.awaiters
      rw [if_pos hpc] at ha
      obtain ⟨hb, hlt⟩ := hb
      simp only [outstanding, hpc, ha.1, held, List.length_nil] at hb
      omega
  | popped i =>
      rw [hpc] at hb
      have hlt := hb.2
      simp only [AggregatorFrame.unwind, hphase, hpc]
      refine ⟨_, rfl, hidle, .inl rfl, ?_⟩
      simp only [ahead]
      omega
  | _ => rw [hpc] at hb; exact hb.elim

theorem Inv.terminates (h : Inv n s) (hphase : s.phase = .leaving) (hidle : working n s.agg = 0) :
    ∃ m, (Run.exec (AggregatorFrame.step n body) s
      (List.replicate m Action.unwind)).phase = .destroyed := by
  have hstep : ∀ s : AggregatorFrame σ T E,
      (Inv n s ∧ working n s.agg = 0 ∧ (s.phase = .leaving ∨ s.phase = .destroyed)) →
      ¬ s.phase = .destroyed → ∃ s', AggregatorFrame.step n body s .unwind = some s' ∧
        (Inv n s' ∧ working n s'.agg = 0 ∧ (s'.phase = .leaving ∨ s'.phase = .destroyed)) ∧
        ahead s' < ahead s := by
    rintro s ⟨hinv, hidle, hphase⟩ hnot
    obtain ⟨s', hs, hidle', hphase', hlt⟩ :=
      hinv.unwind_of_idle (hphase.resolve_right hnot) hidle
    exact ⟨s', hs, ⟨hinv.unwind hs, hidle', hphase'⟩, hlt⟩
  exact Run.exists_exec_replicate ahead hstep ⟨h, hidle, .inl hphase⟩

theorem Inv.endsCleanly (h : Inv n s) : EndsCleanly n body s := by
  have hinv := h
  obtain ⟨ws, hc, hb⟩ := h
  have hwork := hc.working_eq
  refine ⟨fun hphase => ?_, fun hphase hpc => ?_, fun hphase => hinv.terminates hphase,
    fun hphase => ?_⟩
  · rw [Balanced, hphase] at hb
    rw [hwork]
    change InDestructor s.agg.pc s.agg.count (outstanding s.agg ws) at hb
    cases hpc : s.agg.pc with
    | done => rw [hpc] at hb; simpa only [InDestructor, outstanding, hpc] using hb
    | popping | popped i => rw [hpc] at hb; simpa only [InDestructor, outstanding, hpc] using hb.1
    | _ => rw [hpc] at hb; exact hb.elim
  · rw [Balanced, hphase, hpc] at hb
    obtain ⟨hb, hlt⟩ := hb
    have ha := hc.awaiters
    rw [if_pos hpc] at ha
    simp only [outstanding, hpc, ha.1, held, List.length_nil] at hb
    omega
  · rw [Balanced, hphase] at hb
    rw [hwork, show ws = [] from hb, List.length_nil]

/-- The body is left before all the generators are charged: the destructor waits for those too
that nobody asked. -/
theorem Inv.not_endsCleanly {a : Action E} (h : Inv n s) (hbad : ¬ Chargeable n s a)
    (hs : s.step n body a = some s') : ¬ EndsCleanly n body s' := by
  intro hend
  obtain ⟨ws, h, hb⟩ := h
  cases a with
  | agg a =>
      cases a with
      | go =>
          simp only [Chargeable, Classical.not_imp, not_forall] at hbad
          obtain ⟨hphase, i, hpc, hi, hdone, hlast⟩ := hbad
          rw [Balanced, hphase, hpc] at hb
          obtain ⟨hcount, hout, -⟩ := hb
          simp only [AggregatorFrame.step, hphase, Aggregator.step, Aggregator.go, hpc,
            if_pos hi] at hs
          obtain ⟨g, hg, rfl⟩ := Option.map_eq_some_iff.mp hs
          obtain ⟨hq, ⟨hd, -⟩ | ⟨-, h', ⟨-, hpc', hc'⟩ | ⟨hf, -⟩⟩⟩ :=
            h.chargeStep hi (by simp [hpc]) hg
          · rw [hd] at hdone
            cases hdone
          · have hpops : g.count - 1 = working n g + g.queue.queue.length + (held g.pc).length :=
              hend.pops (by simp [ofBody, hpc'])
            simp only [outstanding, hpc, held, List.length_nil] at hout
            simp only [h'.working_eq, hc', hcount, hq, hpc', held, List.length_nil] at hpops
            omega
          · cases hf
      | access | body i | wake i => exact hbad trivial
  | copyThrows e =>
      simp only [Chargeable, Classical.not_imp] at hbad
      obtain ⟨hpc, hn⟩ := hbad
      simp only [AggregatorFrame.step, AggregatorFrame.copyThrows, hpc] at hs
      split at hs
      · next hphase _ =>
        obtain rfl := Option.some.inj hs
        rw [Balanced, hphase, hpc] at hb
        obtain ⟨hcount, hout⟩ := hb
        have hpops : s.agg.count - 1 = working n s.agg + s.agg.queue.queue.length + 0 :=
          hend.pops rfl
        rw [h.working_eq] at hpops
        simp only [outstanding] at hout
        omega
      · next heq => cases heq
      · cases hs
  | destroy | unwind => exact hbad trivial


end Steps

/-- **Teardown**: in every state of a run the aggregator ends without waiting for what cannot come
exactly if no generator but the last one in the list had ended before, and the copy of the first
argument does not throw with two generators or more. -/
theorem endsCleanly_iff (n : Nat) (body : Nat → σ → BodyStep σ T E)
    (src : Nat → IdleGenerator σ T E) (as : List (Action E)) :
    (∀ k, EndsCleanly n body (Run.exec (step n body) (start n src) (as.take k))) ↔
      Run.Meets (step n body) (Chargeable n) (start n src) as :=
  Run.safe_iff_meets (fun _ _ _ h hgood hs => h.step hgood hs)
    (fun _ _ _ h hbad hs => h.not_endsCleanly hbad hs) (fun _ h => h.endsCleanly)
    (inv_start n src) as

/-- A generator that came to its end, and one that was not accessed yet. -/
def endedAndFresh : Nat → IdleGenerator Unit Nat Nat
  | 0 => { gen := { promise := { done := true }, place := .done }, idle := rfl }
  | _ => { gen := .fresh (), idle := rfl }

/-- They are aggregated: the destructor waits for the second one, which was never asked. -/
theorem endsCleanly_fails : ¬ ∀ k, EndsCleanly 2 (fun _ _ => .ret) (Run.exec
    (step 2 fun _ _ => .ret) (start 2 endedAndFresh) ([Action.agg .access, .agg .go].take k)) := by
  intro h
  have hpops := (h 2).pops (by rfl)
  exact absurd hpops (by decide)

end AggregatorFrame

end Generator

end Cocls
