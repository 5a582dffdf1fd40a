import Cocls.Generator.Aggregator
import Mathlib.Data.List.Nodup
import Mathlib.Data.List.Perm.Subperm

/-!
# Cocls.Generator.Merge

Every run of a `generator_aggregator`.

Each source that was charged is at one place: it is at work, or it completed a
step and is in line (in the queue or with the aggregator), or it is over because
the aggregator took the end of it.  `Inv.one` counts the places.
-/

namespace Cocls

namespace Generator

namespace Aggregator

open Interleave (own)

variable {σ T E : Type*}

/-! ## Lists of completed steps -/

/-- The steps that were the end of their source. -/
def ends (c : List (Nat × Report T E)) : List (Nat × Report T E) :=
  c.filter fun e => e.2.toValue.isNone

@[simp] theorem values_append (c d : List (Nat × Report T E)) :
    values (c ++ d) = values c ++ values d := List.filterMap_append

@[simp] theorem values_nil : values ([] : List (Nat × Report T E)) = [] := rfl

@[simp] theorem ends_append (c d : List (Nat × Report T E)) :
    ends (c ++ d) = ends c ++ ends d := List.filter_append _ _

@[simp] theorem ends_nil : ends ([] : List (Nat × Report T E)) = [] := rfl

@[simp] theorem failures_append (c d : List (Nat × Report T E)) :
    failures (c ++ d) = failures c ++ failures d := by
  simp [failures]

@[simp] theorem values_cons_value (i : Nat) (v : T) (c : List (Nat × Report T E)) :
    values ((i, .value v) :: c) = (i, v) :: values c := rfl

theorem values_cons_end {i : Nat} {r : Report T E} (h : r.toValue = none)
    (c : List (Nat × Report T E)) : values ((i, r) :: c) = values c := by
  simp [values, h]

@[simp] theorem ends_cons_value (i : Nat) (v : T) (c : List (Nat × Report T E)) :
    ends ((i, .value v) :: c) = ends c := rfl

theorem ends_cons_end {i : Nat} {r : Report T E} (h : r.toValue = none)
    (c : List (Nat × Report T E)) : ends ((i, r) :: c) = (i, r) :: ends c := by
  simp [ends, h]

/-- The values of a source are the values among its steps. -/
theorem own_values (i : Nat) (c : List (Nat × Report T E)) :
    own i (values c) = (own i c).filterMap Report.toValue := by
  induction c with
  | nil => rfl
  | cons e c ih =>
      obtain ⟨j, r⟩ := e
      cases hr : r.toValue with
      | none =>
          rw [values_cons_end hr, ih]
          by_cases hj : j = i
          · subst hj
            rw [Interleave.own_cons_self, List.filterMap_cons, hr]
          · rw [Interleave.own_cons_ne hj]
      | some v =>
          rw [Report.toValue_eq_some.mp hr, values_cons_value]
          by_cases hj : j = i
          · subst hj
            rw [Interleave.own_cons_self, Interleave.own_cons_self, ih]
            rfl
          · rw [Interleave.own_cons_ne hj, Interleave.own_cons_ne hj, ih]

/-- A completed step is a value or the end of its source. -/
theorem length_own_values_add (i : Nat) (c : List (Nat × Report T E)) :
    (own i (values c)).length + (own i (ends c)).length = (own i c).length := by
  induction c with
  | nil => rfl
  | cons e c ih =>
      obtain ⟨j, r⟩ := e
      cases hr : r.toValue with
      | none =>
          rw [values_cons_end hr, ends_cons_end hr]
          by_cases hj : j = i
          · subst hj
            simp only [Interleave.own_cons_self, List.length_cons]
            omega
          · simpa only [Interleave.own_cons_ne hj] using ih
      | some v =>
          rw [Report.toValue_eq_some.mp hr, values_cons_value, ends_cons_value]
          by_cases hj : j = i
          · subst hj
            simp only [Interleave.own_cons_self, List.length_cons]
            omega
          · simpa only [Interleave.own_cons_ne hj] using ih

/-! ## The invariant -/

/-- The source that the aggregator took from the queue. -/
def held : Pc → List Nat
  | .popped i | .yielding i | .charge i => [i]
  | _ => []

/-- How many sources were charged in the loop over the list of `n`. -/
def charged (n : Nat) : Pc → Nat
  | .fresh => 0
  | .chargeAll i => i
  | .resuming i true => i + 1
  | _ => n

/-- What the place in the body says; `past` are the steps that the aggregator is done with,
and `rest` those in line. -/
def AtPc (n : Nat) (s : Aggregator σ T E) (past rest : List (Nat × Report T E)) : Prop :=
  match s.pc with
  | .fresh => past = []
  | .chargeAll i => past = [] ∧ i ≤ n
  | .resuming i true => past = [] ∧ i < n ∧ ∃ b, (s.src i).place = .running b
  | .resuming i false => 0 < s.count ∧ ∃ b, (s.src i).place = .running b
  | .loop => True
  | .popping => 0 < s.count ∧ rest = []
  | .popped _ => 0 < s.count
  | .yielding i | .charge i => 0 < s.count ∧ ∃ v rest', rest = (i, .value v) :: rest'
  | .done => s.count = 0

/-- The value at the front of the line is yielded already. -/
def shown : Pc → Bool
  | .yielding _ | .charge _ => true
  | _ => false

/-- The source at the front of the line was accessed again. -/
def accessed : Pc → Bool
  | .charge _ => true
  | _ => false

/-- What is known of one source; `c` are its completed steps. -/
structure Source (body : σ → BodyStep σ T E) (b : σ) (i : Nat) (g : Coroutine σ T E) (steps : Nat)
    (c : List (Report T E)) : Prop where
  own : c = outcomes body b steps
  place : g.place.At (position body b steps)
  shows : Shows g.promise (outcomes body b steps)
  caller : g.promise.caller = if g.place.atWork then some (.awaiter i) else none

/-- The invariant, with the steps that the aggregator is done with and those in line. -/
structure InvAt (n : Nat) (body : Nat → σ → BodyStep σ T E) (init : Nat → σ)
    (s : Aggregator σ T E) (past rest : List (Nat × Report T E)) : Prop where
  source : ∀ i, Source (body i) (init i) i (s.src i) (s.steps i) (own i s.completed)
  completed : s.completed = past ++ rest
  line : rest.map Prod.fst = held s.pc ++ s.queue.queue
  /-- a source that was charged is in line, at work or over -/
  one : ∀ i, (own i rest).length + (s.src i).place.atWork.toNat + (own i (ends past)).length =
    if i < charged n s.pc then 1 else 0
  asked : s.asked = List.range (charged n s.pc) ++ (values past).map Prod.fst
  yields : s.yields = values past ++ if shown s.pc then values (rest.take 1) else []
  taken : s.taken = (values past).length + if accessed s.pc then 1 else 0
  count : s.count + (ends past).length = n
  exp : s.exp = (failures past).getLast?
  awaiters : if s.pc = .popping then ∃ k, s.queue.awaiters = [k] else s.queue.awaiters = []
  atPc : AtPc n s past rest

def Inv (n : Nat) (body : Nat → σ → BodyStep σ T E) (init : Nat → σ) (s : Aggregator σ T E) :
    Prop :=
  ∃ past rest, InvAt n body init s past rest

theorem inv_start (n : Nat) (body : Nat → σ → BodyStep σ T E) (init : Nat → σ) :
    Inv n body init (start n init) :=
  ⟨[], [], {
    source := fun _ => ⟨rfl, rfl, ⟨rfl, rfl, rfl⟩, rfl⟩
    completed := rfl
    line := rfl
    one := fun _ => rfl
    asked := rfl
    yields := rfl
    taken := rfl
    count := rfl
    exp := rfl
    awaiters := rfl
    atPc := rfl }⟩

variable {n : Nat} {body : Nat → σ → BodyStep σ T E} {init : Nat → σ} {s s' : Aggregator σ T E}
  {past rest : List (Nat × Report T E)}

/-- The invariant where the place in the body is known. -/
theorem InvAt.setPc {pc : Pc} (h : InvAt n body init s past rest) (hpc : s.pc = pc) :
    InvAt n body init { s with pc := pc } past rest := by
  subst hpc
  exact h

/-! ## What the invariant says of one source -/

/-- A source is charged once for each of its steps. -/
theorem InvAt.count_asked (h : InvAt n body init s past rest) (i : Nat) : s.asked.count i =
    (own i s.completed).length + (s.src i).place.atWork.toNat := by
  have hone := h.one i
  have hval := length_own_values_add i past
  rw [h.asked, List.count_append, List.count_range, ← Interleave.length_own, h.completed,
    Interleave.own_append, List.length_append]
  omega

/-- The source at the front of the line. -/
theorem InvAt.front {i : Nat} {r : Report T E} (h : InvAt n body init s past ((i, r) :: rest)) :
    (s.src i).place.atWork = false ∧ i < charged n s.pc ∧ own i rest = [] ∧
      own i (ends past) = [] ∧ own i s.completed = own i past ++ [r] := by
  have hone := h.one i
  rw [Interleave.own_cons_self, List.length_cons] at hone
  have hlt : i < charged n s.pc := by
    by_contra hnot
    rw [if_neg hnot] at hone
    omega
  rw [if_pos hlt] at hone
  have hrest : own i rest = [] := List.eq_nil_of_length_eq_zero (by omega)
  refine ⟨Bool.toNat_eq_zero.mp (by omega), hlt, hrest,
    List.eq_nil_of_length_eq_zero (by omega), ?_⟩
  rw [h.completed, Interleave.own_append, Interleave.own_cons_self, hrest]

/-- What a source shows of its last step. -/
theorem Source.shows_last {bd : σ → BodyStep σ T E} {b : σ} {i k : Nat} {g : Coroutine σ T E}
    {c : List (Report T E)} {r : Report T E} (h : Source bd b i g k (c ++ [r])) :
    Shows g.promise [r] := by
  rw [← shows_snoc _ c, h.own]
  exact h.shows

/-- A source that is not at work and not at its end can be charged. -/
theorem Source.nextAsync {bd : σ → BodyStep σ T E} {b : σ} {i k : Nat} {g : Coroutine σ T E}
    {c : List (Report T E)} (h : Source bd b i g k c) (hw : g.place.atWork = false)
    (he : ¬ Ended c) : ∃ b', g.nextAsync i =
      some (⟨{ g.promise with caller := some (.awaiter i) }, .running b'⟩, true) ∧
      Source bd b i ⟨{ g.promise with caller := some (.awaiter i) }, .running b'⟩ k c := by
  have hcaller : g.promise.caller = none := by rw [h.caller, hw]; rfl
  have hat := h.place
  cases hpl : g.place with
  | running b' => rw [hpl] at hw; cases hw
  | awaiting b' => rw [hpl] at hw; cases hw
  | done =>
      rw [hpl] at hat
      have hend := values_or_ended bd b k
      rw [show position bd b k = none from hat] at hend
      exact absurd (h.own ▸ hend) he
  | suspended b' =>
      rw [hpl] at hat
      exact ⟨b', by simp [Coroutine.nextAsync, Coroutine.resume, hcaller, hpl, Place.isDone],
        h.own, hat, h.shows.congr rfl rfl rfl, rfl⟩

/-- The steps of a source end with a value: it did not end. -/
theorem not_ended_snoc (c : List (Report T E)) (v : T) : ¬ Ended (c ++ [.value v]) := by
  rintro ⟨vs, r, heq, -, hr⟩
  obtain ⟨-, hr'⟩ := List.append_inj' heq rfl
  obtain rfl : Report.value v = r := by simpa using hr'
  rcases hr with hr | ⟨e, hr⟩ <;> cases hr

theorem not_ended_nil : ¬ Ended ([] : List (Report T E)) := by
  rintro ⟨vs, r, heq, -⟩
  simp at heq

/-! ## The aggregator goes on -/

theorem source_update {i : Nat} {g : Coroutine σ T E}
    (hi : Source (body i) (init i) i g (s.steps i) (own i s.completed))
    (h : ∀ j, Source (body j) (init j) j (s.src j) (s.steps j) (own j s.completed)) (j : Nat) :
    Source (body j) (init j) j (Function.update s.src i g j) (s.steps j) (own j s.completed) := by
  by_cases hj : j = i
  · subst hj
    rw [Function.update_self]
    exact hi
  · rw [Function.update_of_ne hj]
    exact h j

/-- `charge` of a source that can be charged. -/
theorem chargeStep_eq {i : Nat} {g : Coroutine σ T E} (first : Bool)
    (h : (s.src i).nextAsync i = some (g, true)) : s.chargeStep i first =
      some { s with src := Function.update s.src i g, pc := .resuming i first
                    asked := s.asked ++ [i] } := by
  rw [chargeStep, h]
  rfl

/-- The loop over the list charges the next source. -/
theorem InvAt.goChargeAll {i : Nat} (h : InvAt n body init s past rest) (hpc : s.pc = .chargeAll i)
    (hi : i < n) : ∃ s', s.go n = some s' ∧ InvAt n body init s' past rest := by
  replace h := h.setPc hpc
  obtain ⟨rfl, -⟩ := h.atPc
  have hone : ∀ j, (own j rest).length + (s.src j).place.atWork.toNat = if j < i then 1 else 0 := by
    intro j
    have hj := h.one j
    rwa [ends_nil, Interleave.own_nil, List.length_nil, Nat.add_zero] at hj
  have hi0 := hone i
  rw [if_neg (Nat.lt_irrefl i)] at hi0
  have hw : (s.src i).place.atWork = false := Bool.toNat_eq_zero.mp (by omega)
  have hown : own i rest = [] := List.eq_nil_of_length_eq_zero (by omega)
  have hc : own i s.completed = [] := by rw [h.completed, List.nil_append, hown]
  have hfresh : Source (body i) (init i) i (s.src i) (s.steps i) (own i s.completed) := h.source i
  obtain ⟨b', hnext, hsrc⟩ := hfresh.nextAsync hw (by rw [hc]; exact not_ended_nil)
  have hgo : s.go n = s.chargeStep i true := by simp only [go, hpc, if_pos hi]
  rw [chargeStep_eq true hnext] at hgo
  refine ⟨_, hgo, {
    source := source_update hsrc h.source
    completed := h.completed
    line := h.line
    one := ?_
    asked := by simpa [charged, List.range_succ] using h.asked
    yields := h.yields
    taken := h.taken
    count := h.count
    exp := h.exp
    awaiters := h.awaiters
    atPc := ⟨rfl, hi, b', by simp only [Function.update_self]⟩ }⟩
  intro j
  simp only [charged, ends_nil, Interleave.own_nil, List.length_nil, Nat.add_zero]
  by_cases hj : j = i
  · subst hj
    simp [hown, Place.atWork]
  · simp only [Function.update_of_ne hj, hone j, Nat.lt_succ_iff, Nat.le_iff_lt_or_eq, hj, or_false]

/-- `pop` of an empty queue of sources waits. -/
theorem pop_nil (q : QueueOf (List Nat)) (h : q.queue = []) (k : Nat) :
    q.pop (E := E) k = ({ q with awaiters := q.awaiters ++ [k] }, []) := by
  obtain ⟨queue, awaiters⟩ := q
  obtain rfl : queue = [] := h
  rfl

/-- `pop` of a queue of sources takes the first one. -/
theorem pop_cons (q : QueueOf (List Nat)) {i : Nat} {is : List Nat} (h : q.queue = i :: is)
    (k : Nat) : q.pop (E := E) k = ({ q with queue := is }, [.popped k i]) := by
  obtain ⟨queue, awaiters⟩ := q
  obtain rfl : queue = i :: is := h
  rfl

/-- `while (cnt)`: the aggregator ends, takes a source from the queue or waits for one. -/
theorem InvAt.goLoop (h : InvAt n body init s past rest) (hpc : s.pc = .loop) :
    ∃ s', s.go n = some s' ∧ InvAt n body init s' past rest := by
  replace h := h.setPc hpc
  have hline : rest.map Prod.fst = s.queue.queue := h.line
  have hgo : s.go n = if 0 < s.count then s.popStep else some { s with pc := .done } := by
    simp only [go, hpc]
  by_cases hc : 0 < s.count
  · rw [if_pos hc, popStep] at hgo
    cases hq : s.queue.queue with
    | nil =>
        have hrest : rest = [] := by
          rw [hq] at hline
          exact List.map_eq_nil_iff.mp hline
        have haw : s.queue.awaiters = [] := h.awaiters
        simp only [pop_nil s.queue hq, haw, ne_eq, not_true_eq_false, if_false,
          List.nil_append] at hgo
        exact ⟨_, hgo, h.source, h.completed, hline, h.one, h.asked, h.yields, h.taken, h.count,
          h.exp, ⟨s.pops, rfl⟩, hc, hrest⟩
    | cons i is =>
        simp only [pop_cons s.queue hq] at hgo
        exact ⟨_, hgo, h.source, h.completed, hline.trans (by rw [hq]; rfl), h.one, h.asked,
          h.yields, h.taken, h.count, h.exp, h.awaiters, hc⟩
  · rw [if_neg hc] at hgo
    exact ⟨_, hgo, h.source, h.completed, hline, h.one, h.asked, h.yields, h.taken, h.count, h.exp,
      h.awaiters, Nat.eq_zero_of_not_pos hc⟩

/-- The loop over the list is done. -/
theorem InvAt.goChargedAll {i : Nat} (h : InvAt n body init s past rest)
    (hpc : s.pc = .chargeAll i) (hi : ¬ i < n) :
    ∃ s', s.go n = some s' ∧ InvAt n body init s' past rest := by
  replace h := h.setPc hpc
  obtain ⟨-, hle⟩ := h.atPc
  obtain rfl : i = n := Nat.le_antisymm hle (Nat.le_of_not_lt hi)
  exact ⟨{ s with pc := .loop }, by simp only [go, hpc, if_neg hi], h.source, h.completed, h.line,
    h.one, h.asked, h.yields, h.taken, h.count, h.exp, h.awaiters, trivial⟩

/-- The end of a source is taken: `fin()`. -/
theorem InvAt.fin {i : Nat} {r : Report T E} (h : InvAt n body init s past ((i, r) :: rest))
    (hpc : s.pc = .popped i) (hr : r.toValue = none) {ex : Option (Report T E)}
    (hex : ex = (failures (past ++ [(i, r)])).getLast?) :
    InvAt n body init (Aggregator.fin { s with exp := ex }) (past ++ [(i, r)]) rest := by
  replace h := h.setPc hpc
  have hpos : 0 < s.count := h.atPc
  have hsnoc : ends (past ++ [(i, r)]) = ends past ++ [(i, r)] := by
    rw [ends_append, ends_cons_end hr, ends_nil]
  have hvals : values (past ++ [(i, r)]) = values past := by
    rw [values_append, values_cons_end hr, values_nil, List.append_nil]
  refine ⟨h.source, ?_, ?_, ?_, ?_, ?_, ?_, ?_, hex, h.awaiters, trivial⟩
  · rw [List.append_assoc]
    exact h.completed
  · exact List.tail_eq_of_cons_eq h.line
  · intro j
    have hj := h.one j
    rw [hsnoc, Interleave.own_append, List.length_append]
    by_cases hji : i = j
    · subst hji
      rw [Interleave.own_cons_self, List.length_cons] at hj
      rw [Interleave.own_singleton_self, List.length_singleton]
      exact hj ▸ (by simp only [Aggregator.fin]; omega)
    · rw [Interleave.own_cons_ne hji] at hj
      rw [Interleave.own_singleton_ne hji]
      exact hj
  · rw [hvals]; exact h.asked
  · rw [hvals]; exact h.yields
  · rw [hvals]; exact h.taken
  · have hcount : s.count + (ends past).length = n := h.count
    rw [hsnoc, List.length_append, List.length_singleton]
    simp only [Aggregator.fin]
    omega

/-- The step of the source that the aggregator holds is at the front of the line. -/
theorem InvAt.head {i : Nat} (h : InvAt n body init s past rest) (hheld : held s.pc = [i]) :
    ∃ r rest', rest = (i, r) :: rest' := by
  have hline := h.line
  rw [hheld] at hline
  obtain ⟨e, rest', rfl, he, -⟩ := List.map_eq_cons_iff.mp hline
  exact ⟨e.2, rest', by rw [← he]⟩

/-- The aggregator looks at the source it took: it yields the value, or the source is over. -/
theorem InvAt.goPopped {i : Nat} (h : InvAt n body init s past rest) (hpc : s.pc = .popped i) :
    ∃ s', s.go n = some s' ∧ Inv n body init s' := by
  obtain ⟨r, rest', rfl⟩ := h.head (by rw [hpc]; rfl)
  obtain ⟨-, -, -, -, hown⟩ := h.front
  have hsrc := h.source i
  rw [hown] at hsrc
  have hsh := hsrc.shows_last
  have hsame : ∀ r', failures [(i, r')] = [] → (failures (past ++ [(i, r')])).getLast? = s.exp := by
    intro r' hr'
    rw [failures_append, hr', List.append_nil, h.exp]
  have hgo := go.eq_def s n
  simp only [hpc] at hgo
  cases r with
  | value v =>
      have hd : (s.src i).promise.done = false := hsh.1
      have hval : (s.src i).promise.value = .value v := hsh.value (by simp)
      simp only [hd, hval, Bool.false_eq_true, if_false] at hgo
      replace h := h.setPc hpc
      have hyields : s.yields = values past ++ [] := h.yields
      refine ⟨_, hgo, past, _, h.source, h.completed, h.line, h.one, h.asked, ?_, h.taken, h.count,
        h.exp, h.awaiters, h.atPc, v, rest', rfl⟩
      rw [hyields]
      simp [shown]
  | ended =>
      have hd : (s.src i).promise.done = true := hsh.1
      simp only [hd, if_true] at hgo
      exact ⟨_, hgo, _, _, h.fin hpc rfl (hsame _ rfl).symm⟩
  | failed e =>
      have hd : (s.src i).promise.done = false := hsh.1
      have hval : (s.src i).promise.value = .failed e := hsh.value (by simp)
      simp only [hd, hval, Bool.false_eq_true, if_false] at hgo
      refine ⟨_, hgo, _, _, h.fin hpc rfl ?_⟩
      simp [failures]
  | noMoreValues => exact hsh.elim
  | notReady => exact hsh.elim

/-- A source is charged again: its last value was taken. -/
theorem InvAt.goCharge {i : Nat} (h : InvAt n body init s past rest) (hpc : s.pc = .charge i) :
    ∃ s', s.go n = some s' ∧ Inv n body init s' := by
  obtain ⟨hcount, v, rest', rfl⟩ := (h.setPc hpc).atPc
  obtain ⟨hw, -, hrest, hends, hown⟩ := h.front
  obtain ⟨b', hnext, hsrc⟩ :=
    (h.source i).nextAsync hw (by rw [hown]; exact not_ended_snoc _ _)
  have hgo : s.go n = s.chargeStep i false := by simp only [go, hpc]
  rw [chargeStep_eq false hnext] at hgo
  replace h := h.setPc hpc
  have hasked : s.asked = List.range n ++ (values past).map Prod.fst := h.asked
  have hyields : s.yields = values past ++ [(i, v)] := h.yields
  have htaken : s.taken = (values past).length + 1 := h.taken
  have hvals : values (past ++ [(i, .value v)]) = values past ++ [(i, v)] := by
    rw [values_append]
    rfl
  have hsame : ends (past ++ [(i, .value v)]) = ends past := by
    rw [ends_append]
    exact List.append_nil _
  refine ⟨_, hgo, past ++ [(i, .value v)], rest', source_update hsrc h.source, ?_, ?_, ?_, ?_, ?_,
    ?_, ?_, ?_, h.awaiters, hcount, b', by simp only [Function.update_self]⟩
  · rw [List.append_assoc]
    exact h.completed
  · exact List.tail_eq_of_cons_eq h.line
  · intro j
    have hj := h.one j
    rw [hsame]
    by_cases hji : i = j
    · subst hji
      rw [Interleave.own_cons_self, List.length_cons, hw] at hj
      simp only [Function.update_self, Place.atWork, Bool.toNat_true, Bool.toNat_false] at hj ⊢
      exact hj ▸ (by omega)
    · rw [Interleave.own_cons_ne hji] at hj
      simp only [Function.update_of_ne (Ne.symm hji)]
      exact hj
  · rw [hvals, List.map_append, ← List.append_assoc, hasked]
    rfl
  · rw [hvals, hyields]
    simp [shown]
  · rw [hvals, htaken, List.length_append]
    rfl
  · rw [hsame]
    exact h.count
  · rw [failures_append]
    exact h.exp.trans (by simp [failures])

/-- **The body of the aggregator goes on**, unless it waits for its client or for a source. -/
theorem Inv.exists_go (h : Inv n body init s) (hfresh : s.pc ≠ .fresh)
    (hres : ∀ i first, s.pc ≠ .resuming i first) (hpop : s.pc ≠ .popping)
    (hyield : ∀ i, s.pc ≠ .yielding i) (hdone : s.pc ≠ .done) :
    ∃ s', s.go n = some s' ∧ Inv n body init s' := by
  obtain ⟨past, rest, h⟩ := h
  cases hpc : s.pc with
  | fresh => exact absurd hpc hfresh
  | resuming i first => exact absurd hpc (hres i first)
  | popping => exact absurd hpc hpop
  | yielding i => exact absurd hpc (hyield i)
  | done => exact absurd hpc hdone
  | chargeAll i =>
      by_cases hi : i < n
      · obtain ⟨s', hs, h'⟩ := h.goChargeAll hpc hi
        exact ⟨s', hs, past, rest, h'⟩
      · obtain ⟨s', hs, h'⟩ := h.goChargedAll hpc hi
        exact ⟨s', hs, past, rest, h'⟩
  | loop =>
      obtain ⟨s', hs, h'⟩ := h.goLoop hpc
      exact ⟨s', hs, past, rest, h'⟩
  | popped i => exact h.goPopped hpc
  | charge i => exact h.goCharge hpc

theorem Inv.go (h : Inv n body init s) (hs : s.go n = some s') : Inv n body init s' := by
  have hgo := go.eq_def s n
  rw [hs] at hgo
  obtain ⟨s'', hs'', h''⟩ := h.exists_go (by intro hpc; rw [hpc] at hgo; cases hgo)
    (by intro i first hpc; rw [hpc] at hgo; cases hgo) (by intro hpc; rw [hpc] at hgo; cases hgo)
    (by intro i hpc; rw [hpc] at hgo; cases hgo) (by intro hpc; rw [hpc] at hgo; cases hgo)
  rw [hs] at hs''
  rw [Option.some.inj hs'']
  exact h''

/-- The client accesses the aggregator. -/
theorem Inv.access (h : Inv n body init s) (hs : s.step n body .access = some s') :
    Inv n body init s' := by
  obtain ⟨past, rest, h⟩ := h
  simp only [Aggregator.step] at hs
  split at hs
  · next hpc =>
    replace h := h.setPc hpc
    rw [← Option.some.inj hs]
    exact ⟨past, rest, h.source, h.completed, h.line, h.one, h.asked, h.yields, h.taken, h.count,
      h.exp, h.awaiters, h.atPc, Nat.zero_le n⟩
  · next i hpc =>
    replace h := h.setPc hpc
    rw [← Option.some.inj hs]
    exact ⟨past, rest, h.source, h.completed, h.line, h.one, h.asked, h.yields,
      congrArg (· + 1) h.taken, h.count, h.exp, h.awaiters, h.atPc⟩
  · cases hs

/-- A source that runs is not the one that `charge` waits for, or `charge` waits for it. -/
theorem InvAt.wake {i : Nat} (h : InvAt n body init s past rest)
    (hs : s.step n body (.wake i) = some s') : InvAt n body init s' past rest := by
  obtain ⟨g, hg, rfl⟩ := Option.map_eq_some_iff.mp hs
  simp only [Coroutine.wake] at hg
  split at hg
  · next b' hpl =>
    obtain rfl := Option.some.inj hg
    have hsrc := h.source i
    have hat := hsrc.place
    have hcaller := hsrc.caller
    rw [hpl] at hat hcaller
    refine ⟨source_update ⟨hsrc.own, hat, hsrc.shows, hcaller⟩ h.source, h.completed, h.line, ?_,
      h.asked, h.yields, h.taken, h.count, h.exp, h.awaiters, ?_⟩
    · intro j
      have hj := h.one j
      by_cases hji : j = i
      · subst hji
        rw [hpl] at hj
        simp only [Function.update_self]
        exact hj
      · simp only [Function.update_of_ne hji]
        exact hj
    · have hrun : ∀ j, (∃ b, (s.src j).place = .running b) →
          ∃ b, (Function.update s.src i { s.src i with place := .running b' } j).place =
            .running b := by
        rintro j ⟨b, hb⟩
        by_cases hji : j = i
        · subst hji
          exact ⟨b', by simp only [Function.update_self]⟩
        · exact ⟨b, by simp only [Function.update_of_ne hji, hb]⟩
      have hatPc := h.atPc
      simp only [AtPc] at hatPc ⊢
      cases hpc : s.pc with
      | resuming j first =>
          rw [hpc] at hatPc
          cases first with
          | true => exact ⟨hatPc.1, hatPc.2.1, hrun j hatPc.2.2⟩
          | false => exact ⟨hatPc.1, hrun j hatPc.2⟩
      | _ => rw [hpc] at hatPc; exact hatPc
  · cases hg

/-! ## A source runs -/

/-- Where the body of the aggregator is after source `i` suspended. -/
def returned (i : Nat) : Pc → Pc
  | .resuming j first =>
      if j = i then if first then .chargeAll (i + 1) else .loop else .resuming j first
  | pc => pc

theorem returns_eq (s : Aggregator σ T E) (i : Nat) :
    s.returns i = { s with pc := returned i s.pc } := by
  rw [returns]
  split
  · next j first hpc =>
    by_cases hj : j = i
    · rw [if_pos hj, hpc, returned, if_pos hj]
    · rw [if_neg hj, hpc, returned, if_neg hj, ← hpc]
  · next hno =>
    cases hpc : s.pc with
    | resuming j first => exact absurd hpc (hno j first)
    | _ => rw [returned, ← hpc]; exact fun j first hj => hno j first (hpc.trans hj)

/-- The return to `charge` changes nothing else. -/
theorem returned_same (n i : Nat) (pc : Pc) : held (returned i pc) = held pc ∧
    charged n (returned i pc) = charged n pc ∧ shown (returned i pc) = shown pc ∧
    accessed (returned i pc) = accessed pc ∧ (returned i pc = .popping ↔ pc = .popping) := by
  cases pc with
  | resuming j first =>
      rw [returned]
      split
      · next hj =>
        subst hj
        cases first <;> simp [held, charged, shown, accessed]
      · simp
  | _ => simp [returned]

/-- A value that is yielded already is in line. -/
theorem AtPc.shown (h : AtPc n s past rest) (hs : shown s.pc = true) :
    ∃ e rest', rest = e :: rest' := by
  simp only [AtPc] at h
  cases hpc : s.pc with
  | yielding j =>
      rw [hpc] at h
      obtain ⟨-, v, rest', hr⟩ := h
      exact ⟨_, rest', hr⟩
  | charge j =>
      rw [hpc] at h
      obtain ⟨-, v, rest', hr⟩ := h
      exact ⟨_, rest', hr⟩
  | _ => rw [hpc] at hs; cases hs

/-- Source `i` suspends while the aggregator does not wait for the queue. -/
theorem AtPc.returned {i : Nat} {r : List (Nat × Report T E)} (h : AtPc n s past rest)
    (hpop : s.pc = .popping → r = []) (hpc : s'.pc = Aggregator.returned i s.pc)
    (hcount : s'.count = s.count) (hsrc : ∀ j, j ≠ i → s'.src j = s.src j) :
    AtPc n s' past (rest ++ r) := by
  simp only [AtPc] at h ⊢
  cases hs : s.pc with
  | resuming j first =>
      rw [hs] at h hpc
      rw [Aggregator.returned] at hpc
      by_cases hj : j = i
      · rw [if_pos hj] at hpc
        cases first with
        | true =>
            rw [if_pos rfl] at hpc
            rw [hpc]
            exact ⟨h.1, by rw [← hj]; exact h.2.1⟩
        | false =>
            rw [if_neg (by decide)] at hpc
            rw [hpc]
            trivial
      · rw [if_neg hj] at hpc
        rw [hpc]
        cases first with
        | true => exact ⟨h.1, h.2.1, by rw [hsrc j hj]; exact h.2.2⟩
        | false => exact ⟨by rw [hcount]; exact h.1, by rw [hsrc j hj]; exact h.2⟩
  | popping =>
      rw [hs] at h hpc
      rw [hpc]
      exact ⟨by rw [hcount]; exact h.1, by rw [h.2, hpop hs]; rfl⟩
  | yielding j =>
      rw [hs] at h hpc
      rw [hpc]
      obtain ⟨hc, v, rest', hrest⟩ := h
      exact ⟨by rw [hcount]; exact hc, v, rest' ++ r, by rw [hrest]; rfl⟩
  | charge j =>
      rw [hs] at h hpc
      rw [hpc]
      obtain ⟨hc, v, rest', hrest⟩ := h
      exact ⟨by rw [hcount]; exact hc, v, rest' ++ r, by rw [hrest]; rfl⟩
  | popped j => rw [hs] at h hpc; rw [hpc]; exact hcount ▸ h
  | done => rw [hs] at h hpc; rw [hpc]; exact hcount.trans h
  | fresh => rw [hs] at h hpc; rw [hpc]; exact h
  | chargeAll j => rw [hs] at h hpc; rw [hpc]; exact h
  | loop => rw [hs] at hpc; rw [hpc]; trivial

/-- Sources are numbered below `n`. -/
theorem charged_le (h : AtPc n s past rest) : charged n s.pc ≤ n := by
  simp only [AtPc] at h
  cases hpc : s.pc with
  | fresh => exact Nat.zero_le n
  | chargeAll i => rw [hpc] at h; exact h.2
  | resuming i first =>
      cases first with
      | true => rw [hpc] at h; exact h.2.1
      | false => exact Nat.le_refl n
  | _ => exact Nat.le_refl n

/-- A source at work is neither in line nor over. -/
theorem InvAt.atWork {i : Nat} (h : InvAt n body init s past rest)
    (hw : (s.src i).place.atWork = true) :
    i < charged n s.pc ∧ own i rest = [] ∧ own i (ends past) = [] := by
  have hone := h.one i
  rw [hw, Bool.toNat_true] at hone
  have hlt : i < charged n s.pc := by
    by_contra hnot
    rw [if_neg hnot] at hone
    omega
  rw [if_pos hlt] at hone
  exact ⟨hlt, List.eq_nil_of_length_eq_zero (by omega), List.eq_nil_of_length_eq_zero (by omega)⟩

/-- The source that `charge` resumed runs. -/
theorem InvAt.resuming {i : Nat} {first : Bool} (h : InvAt n body init s past rest)
    (hpc : s.pc = .resuming i first) : i < n ∧ ∃ b, (s.src i).place = .running b := by
  have hat := (h.setPc hpc).atPc
  have hrun : ∃ b, (s.src i).place = .running b := by
    cases first with
    | true => exact hat.2.2
    | false => exact hat.2
  obtain ⟨b, hb⟩ := hrun
  have hw : (s.src i).place.atWork = true := by rw [hb]; rfl
  exact ⟨Nat.lt_of_lt_of_le (h.atWork hw).1 (charged_le h.atPc), b, hb⟩

/-- A source suspends in `co_await`. -/
theorem InvAt.awaits {i : Nat} {g : Coroutine σ T E} (h : InvAt n body init s past rest)
    (hrun : (s.src i).runBody (body i) = some (g, .awaits)) :
    InvAt n body init (Aggregator.returns
      { s with src := Function.update s.src i g
               steps := Function.update s.steps i (s.steps i + 1) } i) past rest := by
  have hsrc := h.source i
  obtain ⟨-, hpr, hwork, hat, hos⟩ | ⟨r, hx, -⟩ := runBody_cases hrun hsrc.place hsrc.shows
  · have hw := atWork_of_runBody hrun
    have hsame := returned_same n i s.pc
    rw [returns_eq]
    refine ⟨?_, h.completed, ?_, ?_, ?_, ?_, ?_, h.count, h.exp, ?_, ?_⟩
    · intro j
      by_cases hji : j = i
      · subst hji
        simp only [Function.update_self]
        refine ⟨by rw [hos]; exact hsrc.own, hat, by rw [hos, hpr]; exact hsrc.shows, ?_⟩
        rw [hpr, hsrc.caller, hw, hwork]
      · simp only [Function.update_of_ne hji]
        exact h.source j
    · rw [hsame.1]; exact h.line
    · intro j
      rw [hsame.2.1, ← h.one j]
      by_cases hji : j = i
      · subst hji
        simp only [Function.update_self, hwork, hw]
      · simp only [Function.update_of_ne hji]
    · rw [hsame.2.1]; exact h.asked
    · rw [hsame.2.2.1]; exact h.yields
    · rw [hsame.2.2.2.1]; exact h.taken
    · simp only [hsame.2.2.2.2]; exact h.awaiters
    · rw [← List.append_nil rest]
      exact h.atPc.returned (fun _ => rfl) rfl rfl
        (fun j hj => by simp only [Function.update_of_ne hj])
  · cases hx

/-- `push` without an awaiter stores the source. -/
theorem push_nil (q : QueueOf (List Nat)) (h : q.awaiters = []) (i : Nat) :
    q.push (E := E) i = ({ q with queue := q.queue ++ [i] }, [], false) := by
  obtain ⟨queue, awaiters⟩ := q
  obtain rfl : awaiters = [] := h
  rfl

/-- `push` with an awaiter hands the source over. -/
theorem push_cons (q : QueueOf (List Nat)) {k : Nat} {ks : List Nat} (h : q.awaiters = k :: ks)
    (i : Nat) : q.push (E := E) i = ({ q with awaiters := ks }, [.popped k i], true) := by
  obtain ⟨queue, awaiters⟩ := q
  obtain rfl : awaiters = k :: ks := h
  rfl

/-- A source completes a step: its callback puts it in line. -/
theorem InvAt.completes {i : Nat} {g : Coroutine σ T E} {c : Option Caller}
    (h : InvAt n body init s past rest)
    (hrun : (s.src i).runBody (body i) = some (g, .resumes c)) :
    c = some (.awaiter i) ∧ InvAt n body init (Aggregator.returns (Aggregator.callback
      { s with src := Function.update s.src i g
               steps := Function.update s.steps i (s.steps i + 1)
               completed := s.completed ++ [(i, g.promise.readNext)] } i) i)
      past (rest ++ [(i, g.promise.readNext)]) := by
  have hsrc := h.source i
  have hw := atWork_of_runBody hrun
  obtain ⟨hlt, hrest, hends⟩ := h.atWork hw
  obtain ⟨hx, -⟩ | ⟨r, hx, hwork, hat, hos, hsh, hpr⟩ :=
    runBody_cases hrun hsrc.place hsrc.shows
  · cases hx
  obtain rfl : c = (s.src i).promise.caller := Ran.resumes.inj hx
  have hread : g.promise.readNext = r := hsh.read.1
  rw [hread]
  refine ⟨by rw [hsrc.caller, hw]; rfl, ?_⟩
  -- the parts of the invariant that do not depend on the queue
  have hsource : ∀ j, Source (body j) (init j) j (Function.update s.src i g j)
      (Function.update s.steps i (s.steps i + 1) j) (own j (s.completed ++ [(i, r)])) := by
    intro j
    rw [Interleave.own_append]
    by_cases hji : j = i
    · subst hji
      simp only [Function.update_self, Interleave.own_singleton_self]
      refine ⟨by rw [hos, hsrc.own], hat, ?_, ?_⟩
      · rw [hos]
        exact (shows_snoc _ _ _).mpr hsh
      · rw [hpr, hwork]
        rfl
    · simp only [Function.update_of_ne hji, Interleave.own_singleton_ne (Ne.symm hji),
        List.append_nil]
      exact h.source j
  have hcompleted : s.completed ++ [(i, r)] = past ++ (rest ++ [(i, r)]) := by
    rw [h.completed, List.append_assoc]
  have hone : ∀ j, (own j (rest ++ [(i, r)])).length +
      (Function.update s.src i g j).place.atWork.toNat + (own j (ends past)).length =
      if j < charged n s.pc then 1 else 0 := by
    intro j
    rw [Interleave.own_append, List.length_append]
    by_cases hji : j = i
    · subst hji
      simp [hrest, hends, hwork, hlt]
    · simpa only [Function.update_of_ne hji, Interleave.own_singleton_ne (Ne.symm hji),
        List.length_nil, Nat.add_zero] using h.one j
  have hsame := returned_same n i s.pc
  have haw := h.awaiters
  rw [returns_eq]
  by_cases hpop : s.pc = .popping
  · -- the aggregator waits for the queue
    rw [if_pos hpop] at haw
    obtain ⟨k, hk⟩ := haw
    rw [hpop] at hone
    replace h := h.setPc hpop
    obtain ⟨hcount, hnil⟩ := h.atPc
    have hq : s.queue.queue = [] := by
      have hline : rest.map Prod.fst = s.queue.queue := h.line
      rw [← hline, hnil]
      rfl
    simp only [callback, push_cons s.queue hk, returned]
    refine ⟨hsource, hcompleted, ?_, hone, h.asked, h.yields, h.taken, h.count, h.exp, rfl, hcount⟩
    rw [hnil, hq]
    rfl
  · rw [if_neg hpop] at haw
    have hpop' : ¬ returned i s.pc = .popping := fun hp => hpop (hsame.2.2.2.2.mp hp)
    simp only [callback, push_nil s.queue haw]
    refine ⟨hsource, hcompleted, ?_, ?_, ?_, ?_, ?_, h.count, h.exp, ?_, ?_⟩
    · rw [List.map_append, h.line, hsame.1, List.append_assoc]
      rfl
    · intro j
      rw [hsame.2.1]
      exact hone j
    · rw [hsame.2.1]
      exact h.asked
    · rw [hsame.2.2.1, h.yields]
      cases hs : shown s.pc with
      | false => rfl
      | true =>
          obtain ⟨e, rest', hr⟩ := h.atPc.shown hs
          rw [hr]
          rfl
    · rw [hsame.2.2.2.1]
      exact h.taken
    · simp only [if_neg hpop']
      exact haw
    · exact h.atPc.returned (fun hp => absurd hp hpop) rfl rfl
        (fun j hj => by simp only [Function.update_of_ne hj])

/-- The body of source `i` runs to its next suspension. -/
theorem Inv.bodyStep {i : Nat} (h : Inv n body init s) (hs : s.bodyStep body i = some s') :
    Inv n body init s' := by
  obtain ⟨past, rest, h⟩ := h
  simp only [Aggregator.bodyStep] at hs
  cases hrun : (s.src i).runBody (body i) with
  | none => rw [hrun] at hs; cases hs
  | some gx =>
      obtain ⟨g, x⟩ := gx
      rw [hrun] at hs
      cases x with
      | awaits =>
          rw [← Option.some.inj hs]
          exact ⟨past, rest, h.awaits hrun⟩
      | resumes c =>
          obtain ⟨rfl, h'⟩ := h.completes hrun
          rw [← Option.some.inj hs]
          exact ⟨past, _, h'⟩

theorem Inv.step {a : Action} (h : Inv n body init s) (hs : s.step n body a = some s') :
    Inv n body init s' := by
  cases a with
  | access => exact h.access hs
  | go => exact h.go hs
  | body i => exact h.bodyStep hs
  | wake i =>
      obtain ⟨past, rest, h⟩ := h
      exact ⟨past, rest, h.wake hs⟩

/-! ## When the sources end -/

theorem not_ended_of_values {os : List (Report T E)} (h : Values os) : ¬ Ended os := by
  rintro ⟨vs, r, rfl, -, hr⟩
  obtain ⟨v, rfl⟩ := h r (List.mem_append_right _ List.mem_cons_self)
  rcases hr with hr | ⟨e, hr⟩ <;> cases hr

/-- A source at its end is not at work. -/
theorem Source.not_atWork {bd : σ → BodyStep σ T E} {b : σ} {i k : Nat} {g : Coroutine σ T E}
    {c : List (Report T E)} (h : Source bd b i g k c) (he : Ended (outcomes bd b k)) :
    g.place.atWork = false := by
  have hat := h.place
  have hend := values_or_ended bd b k
  cases hpl : g.place with
  | suspended b' => rfl
  | done => rfl
  | running b' =>
      rw [hpl] at hat
      rw [show position bd b k = some b' from hat] at hend
      exact absurd he (not_ended_of_values hend)
  | awaiting b' =>
      rw [hpl] at hat
      rw [show position bd b k = some b' from hat] at hend
      exact absurd he (not_ended_of_values hend)

/-- A source that is over ended. -/
theorem InvAt.ended_of_over {i : Nat} (h : InvAt n body init s past rest)
    (hover : own i (ends past) ≠ []) : Ended (outcomes (body i) (init i) (s.steps i)) := by
  have hend := values_or_ended (body i) (init i) (s.steps i)
  cases hp : position (body i) (init i) (s.steps i) with
  | none => rw [hp] at hend; exact hend
  | some b' =>
      rw [hp] at hend
      have hvals : Values (own i past) := by
        intro r hr
        refine hend r ?_
        rw [← (h.source i).own, h.completed, Interleave.own_append]
        exact List.mem_append_left _ hr
      have hlen := length_own_values_add i past
      have hall : (own i (values past)).length = (own i past).length := by
        rw [own_values]
        clear hlen hover
        generalize own i past = os at hvals
        induction os with
        | nil => rfl
        | cons r os ih =>
            obtain ⟨v, rfl⟩ := hvals r List.mem_cons_self
            rw [List.filterMap_cons]
            exact congrArg (· + 1) (ih fun r' hr' => hvals r' (List.mem_cons_of_mem _ hr'))
      exact absurd (List.eq_nil_of_length_eq_zero (by omega)) hover

/-- The ends that the aggregator took are those of different sources. -/
theorem InvAt.nodup_ends (h : InvAt n body init s past rest) :
    ((ends past).map Prod.fst).Nodup := by
  rw [List.nodup_iff_count_le_one]
  intro i
  have hone := h.one i
  rw [← Interleave.length_own]
  split at hone <;> omega

/-- **The count of the controller**: it is zero when all sources are over. -/
theorem InvAt.count_eq_zero (h : InvAt n body init s past rest) :
    s.count = 0 ↔ ∀ i < n, own i (ends past) ≠ [] := by
  have hcount := h.count
  have hmem : ∀ i, own i (ends past) ≠ [] ↔ i ∈ (ends past).map Prod.fst := by
    intro i
    rw [← List.count_pos_iff, ← Interleave.length_own, List.length_pos_iff]
  have hsub : (ends past).map Prod.fst ⊆ List.range n := by
    intro i hi
    have hone := h.one i
    have hpos := List.length_pos_iff.mpr ((hmem i).mpr hi)
    rw [List.mem_range]
    by_contra hnot
    rw [if_neg (by have := charged_le h.atPc; omega)] at hone
    omega
  constructor
  · intro hc i hi
    have hperm := (h.nodup_ends.subperm hsub).perm_of_length_le
      (by rw [List.length_range, List.length_map]; omega)
    exact (hmem i).mpr (hperm.mem_iff.mpr (List.mem_range.mpr hi))
  · intro hall
    have hsub' : List.range n ⊆ (ends past).map Prod.fst :=
      fun i hi => (hmem i).mp (hall i (List.mem_range.mp hi))
    have hle := (List.nodup_range.subperm hsub').length_le
    rw [List.length_range, List.length_map] at hle
    omega

/-- When all sources are over none is in line. -/
theorem InvAt.rest_nil (h : InvAt n body init s past rest) (hc : s.count = 0) : rest = [] := by
  cases rest with
  | nil => rfl
  | cons e rest =>
      obtain ⟨i, r⟩ := e
      obtain ⟨-, hlt, -, hends, -⟩ := h.front
      have hlt' : i < n := Nat.lt_of_lt_of_le hlt (charged_le h.atPc)
      exact absurd hends (h.count_eq_zero.mp hc i hlt')

/-- The aggregator waits for a source that is at work. -/
theorem InvAt.waits (h : InvAt n body init s past rest) (hpc : s.pc = .popping) :
    ∃ i < n, (s.src i).place.atWork = true := by
  have hat := h.atPc
  simp only [AtPc, hpc] at hat
  by_contra hnone
  refine Nat.ne_of_gt hat.1 (h.count_eq_zero.mpr fun i hi hover => ?_)
  have hone := h.one i
  have hw : (s.src i).place.atWork = false := by
    rw [Bool.eq_false_iff]
    exact fun hw => hnone ⟨i, hi, hw⟩
  rw [hpc, hover, hat.2, hw] at hone
  simp [charged, hi] at hone

/-- A source at work goes on. -/
theorem InvAt.source_goesOn {i : Nat} (h : InvAt n body init s past rest)
    (hw : (s.src i).place.atWork = true) :
    (s.step n body (.body i)).isSome ∨ (s.step n body (.wake i)).isSome := by
  cases hpl : (s.src i).place with
  | suspended b' => rw [hpl] at hw; cases hw
  | done => rw [hpl] at hw; cases hw
  | awaiting b' => exact .inr (by simp [Aggregator.step, Coroutine.wake, hpl])
  | running b' =>
      left
      simp only [Aggregator.step, Aggregator.bodyStep]
      cases hrun : (s.src i).runBody (body i) with
      | none => simp [Coroutine.runBody, hpl] at hrun
      | some gx =>
          obtain ⟨g, x⟩ := gx
          cases x with
          | awaits => rfl
          | resumes c =>
              obtain ⟨rfl, -⟩ := h.completes hrun
              rfl

/-- Nobody is stuck: the aggregator goes on, or it waits for a source that is at work. -/
theorem Inv.goesOn (h : Inv n body init s) (hfresh : s.pc ≠ .fresh)
    (hyield : ∀ i, s.pc ≠ .yielding i) (hdone : s.pc ≠ .done) :
    (s.step n body .go).isSome ∨
      ∃ i < n, (s.step n body (.body i)).isSome ∨ (s.step n body (.wake i)).isSome := by
  by_cases hpop : s.pc = .popping
  · obtain ⟨past, rest, h⟩ := h
    obtain ⟨i, hi, hw⟩ := h.waits hpop
    exact .inr ⟨i, hi, h.source_goesOn hw⟩
  · by_cases hres : ∃ i first, s.pc = .resuming i first
    · obtain ⟨i, first, hpc⟩ := hres
      obtain ⟨past, rest, h⟩ := h
      obtain ⟨hlt, b', hb⟩ := h.resuming hpc
      exact .inr ⟨i, hlt, h.source_goesOn (by rw [hb]; rfl)⟩
    · obtain ⟨s', hs, -⟩ := h.exists_go hfresh (fun i first hpc => hres ⟨i, first, hpc⟩) hpop
        hyield hdone
      exact .inl (by simp only [Aggregator.step, hs, Option.isSome_some])

/-- How far the body of the aggregator is at most from the next place where it waits. -/
def toGo (s : Aggregator σ T E) : Nat :=
  3 * s.count +
    match s.pc with
    | .chargeAll _ => 3
    | .loop => 2
    | .popped _ | .charge _ => 1
    | _ => 0

/-- The body gets on to the loop when it is done with a source. -/
theorem toGo_fin (s : Aggregator σ T E) (h : 0 < s.count) : toGo s.fin < 3 * s.count + 1 := by
  simp only [toGo, Aggregator.fin]
  omega

/-- A charge gets on: to the source, or to the loop or the end. -/
theorem toGo_chargeStep {i : Nat} {first : Bool} (h : first = false → 0 < s.count)
    (hs : s.chargeStep i first = some s') : toGo s' < 3 * s.count + 1 := by
  obtain ⟨⟨g, ok⟩, -, rfl⟩ := Option.map_eq_some_iff.mp hs
  cases ok with
  | true => simp [toGo]
  | false =>
      cases first with
      | true => simp [toGo]
      | false => exact toGo_fin _ (h rfl)

theorem toGo_popStep (hs : s.popStep = some s') : toGo s' < 3 * s.count + 2 := by
  simp only [popStep] at hs
  split at hs
  · rw [← Option.some.inj hs]
    simp [toGo]
  · split at hs
    · cases hs
    · rw [← Option.some.inj hs]
      simp [toGo]

/-- The body of the aggregator gets on. -/
theorem Inv.toGo_go (h : Inv n body init s) (hs : s.go n = some s') : toGo s' < toGo s := by
  obtain ⟨past, rest, h⟩ := h
  have hgo := go.eq_def s n
  rw [hs] at hgo
  cases hpc : s.pc with
  | fresh | resuming _ _ | popping | yielding _ | done => simp [hpc] at hgo
  | chargeAll i =>
      simp only [hpc] at hgo
      simp only [toGo, hpc]
      split at hgo
      · exact Nat.lt_of_lt_of_le (toGo_chargeStep (by simp) hgo.symm) (by omega)
      · simp [Option.some.inj hgo]
  | loop =>
      simp only [hpc] at hgo
      simp only [toGo, hpc]
      split at hgo
      · exact toGo_popStep hgo.symm
      · simp [Option.some.inj hgo]
  | popped i =>
      have hcount : 0 < s.count := by simpa only [AtPc, hpc] using h.atPc
      simp only [hpc] at hgo
      simp only [toGo, hpc]
      split at hgo
      · exact Option.some.inj hgo ▸ toGo_fin s hcount
      · split at hgo
        · simp [Option.some.inj hgo]
        · exact Option.some.inj hgo ▸ toGo_fin _ hcount
  | charge i =>
      have hcount : 0 < s.count := (h.setPc hpc).atPc.1
      simp only [hpc] at hgo
      simp only [toGo, hpc]
      exact toGo_chargeStep (fun _ => hcount) hgo.symm

/-- **By itself the aggregator goes on only finitely often**, before it waits for its client or
for a source. -/
theorem Inv.settles (h : Inv n body init s) :
    Run.Leads (Aggregator.step n body) (· = .go) s fun s' => s'.step n body .go = none := by
  have hstep : ∀ s₁, Inv n body init s₁ → ¬ s₁.step n body .go = none →
      ∃ a s₂, a = .go ∧ s₁.step n body a = some s₂ ∧ Inv n body init s₂ ∧ toGo s₂ < toGo s₁ := by
    intro s₁ h₁ hsome
    obtain ⟨s₂, hgo⟩ := Option.ne_none_iff_exists'.mp hsome
    exact ⟨.go, s₂, rfl, hgo, h₁.go hgo, h₁.toGo_go hgo⟩
  exact (Run.leads_of_measure _ toGo hstep h).mono (fun _ ha => ha) fun _ hs => hs.2

/-- A source whose value is in line did not end. -/
theorem InvAt.not_ended_front {i : Nat} {v : T}
    (h : InvAt n body init s past ((i, .value v) :: rest)) :
    i < n ∧ ¬ Ended (outcomes (body i) (init i) (s.steps i)) := by
  obtain ⟨-, hlt, -, -, hown⟩ := h.front
  refine ⟨Nat.lt_of_lt_of_le hlt (charged_le h.atPc), fun hend => ?_⟩
  rw [← (h.source i).own, hown] at hend
  exact not_ended_snoc _ _ hend

/-- How far the aggregator is from its end when there is nothing left to yield. -/
def rank (s : Aggregator σ T E) : Nat :=
  3 * s.queue.queue.length +
    match s.pc with
    | .chargeAll _ | .popped _ => 2
    | .loop => 1
    | _ => 0

/-- When all sources ended the aggregator goes on towards its end. -/
theorem Inv.goEnding (h : Inv n body init s) (hfresh : s.pc ≠ .fresh) (hdone : s.pc ≠ .done)
    (hall : ∀ i < n, Ended (outcomes (body i) (init i) (s.steps i))) :
    ∃ s', s.go n = some s' ∧ s'.steps = s.steps ∧ s'.yields = s.yields ∧ s'.pc ≠ .fresh ∧
      rank s' < rank s := by
  obtain ⟨past, rest, h⟩ := h
  have hat := h.atPc
  have hgo := go.eq_def s n
  have hidle : ∀ i < n, (s.src i).place.atWork = false :=
    fun i hi => (h.source i).not_atWork (hall i hi)
  cases hpc : s.pc with
  | fresh => exact absurd hpc hfresh
  | done => exact absurd hpc hdone
  | popping =>
      obtain ⟨i, hi, hw⟩ := h.waits hpc
      rw [hidle i hi] at hw
      cases hw
  | resuming i first =>
      obtain ⟨hlt, b', hb⟩ := h.resuming hpc
      have hw := hidle i hlt
      rw [hb] at hw
      cases hw
  | chargeAll i =>
      simp only [hpc] at hgo
      by_cases hi : i < n
      · exfalso
        simp only [AtPc, hpc] at hat
        have hone := h.one i
        rw [hpc, charged, if_neg (Nat.lt_irrefl i)] at hone
        have hown : own i s.completed = [] := by
          rw [h.completed, hat.1, List.nil_append]
          exact List.eq_nil_of_length_eq_zero (by omega)
        have := hall i hi
        rw [← (h.source i).own, hown] at this
        exact not_ended_nil this
      · rw [if_neg hi] at hgo
        exact ⟨_, hgo, rfl, rfl, by simp, by simp [rank, hpc]⟩
  | loop =>
      simp only [hpc] at hgo
      by_cases hc : 0 < s.count
      · rw [if_pos hc, popStep] at hgo
        cases hq : s.queue.queue with
        | nil =>
            -- every source would be over
            exfalso
            refine Nat.ne_of_gt hc (h.count_eq_zero.mpr fun i hi hover => ?_)
            have hone := h.one i
            have hline := h.line
            rw [hpc, hq] at hline
            rw [hpc, hover, List.map_eq_nil_iff.mp hline, hidle i hi] at hone
            simp [charged, hi] at hone
        | cons i is =>
            simp only [pop_cons s.queue hq] at hgo
            refine ⟨_, hgo, rfl, rfl, by simp, ?_⟩
            simp only [rank, hpc, hq, List.length_cons]
            omega
      · rw [if_neg hc] at hgo
        exact ⟨_, hgo, rfl, rfl, by simp, by simp [rank, hpc]⟩
  | popped i =>
      obtain ⟨r, rest', rfl⟩ := h.head (by rw [hpc]; rfl)
      obtain ⟨-, -, -, -, hown⟩ := h.front
      have hsrc := h.source i
      rw [hown] at hsrc
      have hsh := hsrc.shows_last
      simp only [hpc] at hgo
      cases r with
      | value v => exact absurd (hall i h.not_ended_front.1) h.not_ended_front.2
      | ended =>
          have hd : (s.src i).promise.done = true := hsh.1
          simp only [hd, if_true] at hgo
          exact ⟨_, hgo, rfl, rfl, by simp [Aggregator.fin], by simp [rank, Aggregator.fin, hpc]⟩
      | failed e =>
          have hd : (s.src i).promise.done = false := hsh.1
          have hval : (s.src i).promise.value = .failed e := hsh.value (by simp)
          simp only [hd, hval, Bool.false_eq_true, if_false] at hgo
          exact ⟨_, hgo, rfl, rfl, by simp [Aggregator.fin], by simp [rank, Aggregator.fin, hpc]⟩
      | noMoreValues => exact hsh.elim
      | notReady => exact hsh.elim
  | yielding i =>
      obtain ⟨-, v, rest', rfl⟩ := (h.setPc hpc).atPc
      exact absurd (hall i h.not_ended_front.1) h.not_ended_front.2
  | charge i =>
      obtain ⟨-, v, rest', rfl⟩ := (h.setPc hpc).atPc
      exact absurd (hall i h.not_ended_front.1) h.not_ended_front.2

/-- All sources ended, and `ys` is yielded. -/
structure Ending (n : Nat) (body : Nat → σ → BodyStep σ T E) (init : Nat → σ)
    (ys : List (Nat × T)) (s : Aggregator σ T E) : Prop where
  inv : Inv n body init s
  fresh : s.pc ≠ .fresh
  ended : ∀ i < n, Ended (outcomes (body i) (init i) (s.steps i))
  yields : s.yields = ys

/-- **When all sources ended the aggregator ends**, without another value. -/
theorem Inv.ends (h : Inv n body init s) (hfresh : s.pc ≠ .fresh)
    (hall : ∀ i < n, Ended (outcomes (body i) (init i) (s.steps i))) :
    ∃ m, (Run.exec (Aggregator.step n body) s (List.replicate m .go)).pc = .done ∧
      (Run.exec (Aggregator.step n body) s (List.replicate m .go)).yields = s.yields := by
  have hstep : ∀ s₁, Ending n body init s.yields s₁ →
      ¬ (s₁.pc = .done ∧ s₁.yields = s.yields) →
      ∃ s₂, s₁.step n body .go = some s₂ ∧ Ending n body init s.yields s₂ ∧ rank s₂ < rank s₁ := by
    intro s₁ h₁ hP
    have hd : s₁.pc ≠ .done := fun hpc => hP ⟨hpc, h₁.yields⟩
    obtain ⟨s₂, hgo, hsteps, hyields, hf, hrank⟩ := h₁.inv.goEnding h₁.fresh hd h₁.ended
    refine ⟨s₂, hgo, ⟨h₁.inv.go hgo, hf, ?_, hyields.trans h₁.yields⟩, hrank⟩
    rw [hsteps]
    exact h₁.ended
  exact Run.exists_exec_replicate rank hstep ⟨h, hfresh, hall, rfl⟩

/-- Where the aggregator ended, all sources ended, and the last exception is kept. -/
theorem Inv.ended (h : Inv n body init s) (hpc : s.pc = .done) :
    (∀ i < n, Ended (outcomes (body i) (init i) (s.steps i))) ∧
      s.exp = (failures s.completed).getLast? := by
  obtain ⟨past, rest, h⟩ := h
  have hat := h.atPc
  simp only [AtPc, hpc] at hat
  refine ⟨fun i hi => h.ended_of_over (h.count_eq_zero.mp hat i hi), ?_⟩
  rw [h.exp, h.completed, h.rest_nil hat, List.append_nil]

/-! ## What is yielded -/

theorem Inv.inOrder (h : Inv n body init s) : s.yields <+: values s.completed := by
  obtain ⟨past, rest, h⟩ := h
  rw [h.yields, h.completed, values_append, List.prefix_append_right_inj]
  split
  · exact (List.take_prefix 1 rest).filterMap _
  · exact List.nil_prefix

theorem Inv.noneLeft (h : Inv n body init s) (hpc : s.pc = .popping ∨ s.pc = .done) :
    s.yields = values s.completed := by
  obtain ⟨past, rest, h⟩ := h
  have hat := h.atPc
  have hrest : rest = [] := by
    rcases hpc with hpc | hpc
    · simp only [AtPc, hpc] at hat
      exact hat.2
    · simp only [AtPc, hpc] at hat
      exact h.rest_nil hat
  have hshown : shown s.pc = false := by
    rcases hpc with hpc | hpc <;> rw [hpc] <;> rfl
  rw [h.yields, h.completed, hrest, hshown, List.append_nil]
  exact List.append_nil _

/-- A source is charged again after its last value was taken. -/
theorem Inv.afterTaken (h : Inv n body init s) (i : Nat) :
    s.asked.count i ≤ (own i (s.yields.take s.taken)).length + 1 := by
  obtain ⟨past, rest, h⟩ := h
  have hpre : values past <+: s.yields.take s.taken := by
    rw [h.yields, h.taken, List.take_append]
    rw [List.take_of_length_le (Nat.le_add_right _ _)]
    exact List.prefix_append _ _
  have hle := (Interleave.own_mono hpre i).length_le
  rw [h.asked, List.count_append, List.count_range, ← Interleave.length_own]
  split <;> omega

end Aggregator

end Generator

end Cocls
