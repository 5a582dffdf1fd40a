import Cocls.Queue
import Cocls.Run

/-!
# Cocls.Queue.Pairing

Runs of `queue<T, Queue>`: any number of producers and consumers call `push`,
`pop` and `unblock_pop` in any order, one call at a time (the lock).

The queue is written once for every container its template argument `Queue` may
be (`ItemQueue`): `std::queue<T>` is a list, and the specialization
`std_queue<void>` is a counter that stores no items at all.  What the container
owes the queue is carried by the class, so that both have the same theorem.

The purpose of the queue is to pair pushes and pops (`Pairs`): the two lines are
never both occupied, the pops that get a value get the pushed values in order,
and what each call answers says what it did to the line of the waiting pops.
-/

namespace Cocls

open Queue (Event poppedLog deliveredTo)

/-! ## The container of the items -/

/-- What `queue<T, Queue>` uses of `Queue<T>`, with the items the container stands
for, oldest first. -/
class ItemQueue (Q : Type*) (T : outParam (Type*)) where
  new : Q
  emplace : Q → T → Q
  pop : Q → Q
  empty : Q → Bool
  front : (q : Q) → empty q = false → T
  items : Q → List T
  items_new : items new = []
  items_emplace : ∀ q x, items (emplace q x) = items q ++ [x]
  items_of_empty : ∀ q, empty q = true → items q = []
  items_of_not_empty : ∀ q h, items q = front q h :: items (pop q)

attribute [simp] ItemQueue.items_new ItemQueue.items_emplace

/-- `std::queue<T>`: the items themselves. -/
instance ItemQueue.stdQueue {T : Type*} : ItemQueue (List T) T where
  new := []
  emplace q x := q ++ [x]
  pop := List.tail
  empty := List.isEmpty
  front q h := q.head (by rintro rfl; simp at h)
  items q := q
  items_new := rfl
  items_emplace _ _ := rfl
  items_of_empty q h := by simpa using h
  items_of_not_empty q h := (List.cons_head_tail _).symm

/-- `primitives::std_queue<void>`: pushes and pops are counted. -/
structure StdQueueVoid where
  sz : Nat := 0
deriving DecidableEq, Repr

namespace StdQueueVoid

def emplace (q : StdQueueVoid) : StdQueueVoid := ⟨q.sz + 1⟩

def pop (q : StdQueueVoid) : StdQueueVoid := ⟨max 1 q.sz - 1⟩

def size (q : StdQueueVoid) : Nat := q.sz

def empty (q : StdQueueVoid) : Bool := q.sz == 0

/-- A counter stands for that many items without content. -/
instance : ItemQueue StdQueueVoid Unit where
  new := {}
  emplace q _ := q.emplace
  pop := pop
  empty := empty
  front _ _ := ()
  items q := List.replicate q.size ()
  items_new := rfl
  items_emplace _ _ := List.replicate_succ'
  items_of_empty q h := by
    have hz : q.sz = 0 := by simpa [empty] using h
    rw [size, hz, List.replicate_zero]
  items_of_not_empty q h := by
    have hz : q.sz ≠ 0 := by simpa [empty] using h
    have hsz : q.size = q.pop.size + 1 := by
      simp only [size, pop]
      omega
    rw [hsz, List.replicate_succ]

end StdQueueVoid

/-! ## queue -/

/-- State of `queue<T, Queue>`: the container of the items and the promises of
the waiting pops, longest waiting first. -/
structure QueueOf (Q : Type*) where
  queue : Q
  awaiters : List Nat := []
deriving DecidableEq, Repr

namespace QueueOf

open ItemQueue (items)

variable {Q T E : Type*} [ItemQueue Q T]

/-- `push(args...)` of the value the arguments construct; the answer is whether a
waiting pop was woken. -/
def push (q : QueueOf Q) (x : T) : QueueOf Q × List (Event T E) × Bool :=
  match q.awaiters with
  | p :: awaiters => ({ q with awaiters := awaiters }, [.popped p x], true)
  | [] => ({ q with queue := ItemQueue.emplace q.queue x }, [], false)

/-- `pop()` by the call numbered `me`. -/
def pop (q : QueueOf Q) (me : Nat) : QueueOf Q × List (Event T E) :=
  match h : ItemQueue.empty q.queue with
  | true => ({ q with awaiters := q.awaiters ++ [me] }, [])
  | false => ({ q with queue := ItemQueue.pop q.queue }, [.popped me (ItemQueue.front q.queue h)])

/-- `unblock_pop(e)`: fails the longest waiting pop; the answer is whether there
was one. -/
def unblockPop (q : QueueOf Q) (e : E) : QueueOf Q × List (Event T E) × Bool :=
  match q.awaiters with
  | [] => (q, [], false)
  | p :: awaiters => ({ q with awaiters := awaiters }, [.popFailed p e], true)

/-! ## Runs -/

/-- A call on the queue. -/
inductive Op (T E : Type*) where
  | push (x : T)
  | pop
  | unblockPop (e : E)

/-- A queue with its history: the values pushed so far, the number of pops so far
and every promise resolved so far. -/
structure Sys (Q T E : Type*) where
  q : QueueOf Q
  pushes : List T := []
  pops : Nat := 0
  log : List (Event T E) := []

/-- A new queue. -/
def init : Sys Q T E := { q := { queue := ItemQueue.new } }

/-- One call under the lock. -/
def step (s : Sys Q T E) : Op T E → Option (Sys Q T E)
  | .push x =>
      let r := s.q.push (E := E) x
      some { s with q := r.1, pushes := s.pushes ++ [x], log := s.log ++ r.2.1 }
  | .pop =>
      let r := s.q.pop (E := E) s.pops
      some { s with q := r.1, pops := s.pops + 1, log := s.log ++ r.2 }
  | .unblockPop e =>
      let r := s.q.unblockPop (T := T) e
      some { s with q := r.1, log := s.log ++ r.2.1 }

/-- The pops a log resolves, with a value or with an exception, in that order. -/
def resolvedLog (log : List (Event T E)) : List Nat :=
  log.filterMap fun
    | .popped pop _ => some pop
    | .popFailed pop _ => some pop
    | _ => none

/-- The pops that have not been resolved, longest waiting first. -/
def waiting (s : Sys Q T E) : List Nat :=
  (List.range s.pops).filter fun pop => pop ∉ resolvedLog s.log

/-- The law of the queue: items and waiting pops never meet; what the pops were
given, in the order of the pops, followed by what is stored, is what was pushed;
no pop is resolved twice; a push wakes the longest waiting pop and says so, or
wakes nobody; `unblock_pop` fails the longest waiting pop and says so, or fails
nobody, and touches no item. -/
structure Pairs (s : Sys Q T E) : Prop where
  line : s.q.awaiters = waiting s
  never_both : items s.q.queue = [] ∨ s.q.awaiters = []
  in_order : deliveredTo s.pops s.log ++ items s.q.queue = s.pushes
  once : (resolvedLog s.log).Nodup
  push_wakes : ∀ x : T, (s.q.push (E := E) x).2 =
    match waiting s with
    | [] => ([], false)
    | p :: _ => ([.popped p x], true)
  unblock_fails : ∀ e : E, (s.q.unblockPop (T := T) e).1.queue = s.q.queue ∧
    (s.q.unblockPop (T := T) e).2 =
      match waiting s with
      | [] => ([], false)
      | p :: _ => ([.popFailed p e], true)

@[simp] theorem resolvedLog_nil : resolvedLog ([] : List (Event T E)) = [] := rfl

@[simp] theorem resolvedLog_popped (pop : Nat) (value : T) (log : List (Event T E)) :
    resolvedLog (.popped pop value :: log) = pop :: resolvedLog log := rfl

@[simp] theorem resolvedLog_popFailed (pop : Nat) (e : E) (log : List (Event T E)) :
    resolvedLog (.popFailed pop e :: log) = pop :: resolvedLog log := rfl

@[simp] theorem resolvedLog_append (xs ys : List (Event T E)) :
    resolvedLog (xs ++ ys) = resolvedLog xs ++ resolvedLog ys := List.filterMap_append

/-- The pops a log gives a value to are among those it resolves, in that order. -/
theorem popped_sublist_resolved (log : List (Event T E)) :
    ((poppedLog log).map Prod.fst).Sublist (resolvedLog log) := by
  induction log with
  | nil => exact List.Sublist.slnil
  | cons event log ih =>
      cases event with
      | popped pop value => exact ih.cons_cons pop
      | popFailed pop e => exact ih.cons pop
      | pushed push => exact ih
      | pushFailed push e => exact ih

/-! ## What one call does -/

/-- The calls by their outcome: a push hands over or stores, a pop waits or takes
an item, `unblock_pop` finds nobody or cancels the longest waiting pop. -/
inductive Call (s : Sys Q T E) : Op T E → Sys Q T E → Prop
  | handOver {x p rest} (ha : s.q.awaiters = p :: rest) :
      Call s (.push x)
        { s with q := { s.q with awaiters := rest }, pushes := s.pushes ++ [x],
                 log := s.log ++ [.popped p x] }
  | store {x} (ha : s.q.awaiters = []) :
      Call s (.push x)
        { s with q := { s.q with queue := ItemQueue.emplace s.q.queue x },
                 pushes := s.pushes ++ [x] }
  | wait (hq : items s.q.queue = []) :
      Call s .pop
        { s with q := { s.q with awaiters := s.q.awaiters ++ [s.pops] }, pops := s.pops + 1 }
  | take {x} (hq : items s.q.queue = x :: items (ItemQueue.pop s.q.queue)) :
      Call s .pop
        { s with q := { s.q with queue := ItemQueue.pop s.q.queue }, pops := s.pops + 1,
                 log := s.log ++ [.popped s.pops x] }
  | nobody {e} (ha : s.q.awaiters = []) : Call s (.unblockPop e) s
  | cancel {e p rest} (ha : s.q.awaiters = p :: rest) :
      Call s (.unblockPop e)
        { s with q := { s.q with awaiters := rest }, log := s.log ++ [.popFailed p e] }

/-- Every call of the code has one of the outcomes. -/
theorem call_of_step {s s' : Sys Q T E} {op : Op T E} (h : step s op = some s') :
    Call s op s' := by
  cases op with
  | push x =>
      have hs' : _ = s' := Option.some.inj h
      cases ha : s.q.awaiters with
      | nil => simpa [push, ha, ← hs'] using Call.store (x := x) ha
      | cons p rest => simpa [push, ha, ← hs'] using Call.handOver (x := x) ha
  | pop =>
      have hs' : _ = s' := Option.some.inj h
      rw [← hs', pop]
      split
      next he => simpa using Call.wait (ItemQueue.items_of_empty s.q.queue he)
      next he => exact Call.take (ItemQueue.items_of_not_empty s.q.queue he)
  | unblockPop e =>
      have hs' : _ = s' := Option.some.inj h
      cases ha : s.q.awaiters with
      | nil => simpa [unblockPop, ha, ← hs'] using Call.nobody (e := e) ha
      | cons p rest => simpa [unblockPop, ha, ← hs'] using Call.cancel (e := e) ha

/-! ## The law holds of every run -/

/-- What every call keeps: pops are resolved in the order they were made, nobody
waits while items are stored, and values go out in the order they came in. -/
structure Books (s : Sys Q T E) : Prop where
  pops_in_order : resolvedLog s.log ++ s.q.awaiters = List.range s.pops
  no_wait_with_items : items s.q.queue = [] ∨ s.q.awaiters = []
  accounted : (poppedLog s.log).map Prod.snd ++ items s.q.queue = s.pushes

theorem books_init : Books (init : Sys Q T E) := by
  constructor <;> simp [init]

theorem books_step {s s' : Sys Q T E} {op : Op T E} (hb : Books s) (h : step s op = some s') :
    Books s' := by
  obtain ⟨hord, hwait, hacc⟩ := hb
  cases call_of_step h with
  | handOver ha =>
      have hq : items s.q.queue = [] := hwait.resolve_right (by simp [ha])
      rw [hq, List.append_nil] at hacc
      exact ⟨by simpa [ha] using hord, .inl hq, by simp [hq, hacc]⟩
  | store ha => exact ⟨hord, .inr ha, by simp [← hacc]⟩
  | wait hq =>
      refine ⟨?_, .inl hq, hacc⟩
      rw [← List.append_assoc, hord, List.range_succ]
  | take hq =>
      have ha : s.q.awaiters = [] := hwait.resolve_left (by simp [hq])
      rw [hq] at hacc
      rw [ha, List.append_nil] at hord
      exact ⟨by simp [ha, hord, List.range_succ], .inr ha, by simpa using hacc⟩
  | nobody _ => exact ⟨hord, hwait, hacc⟩
  | cancel ha =>
      have hq : items s.q.queue = [] := hwait.resolve_right (by simp [ha])
      exact ⟨by simpa [ha] using hord, .inl hq, by simpa using hacc⟩

theorem books_exec (ops : List (Op T E)) : Books (Run.exec step (init : Sys Q T E) ops) :=
  Run.exec_inv (fun _ _ _ => books_step) books_init ops

/-- The line of the queue is the line of the unresolved pops. -/
theorem Books.line {s : Sys Q T E} (hb : Books s) : s.q.awaiters = waiting s := by
  have hnd : (resolvedLog s.log ++ s.q.awaiters).Nodup := hb.pops_in_order ▸ List.nodup_range
  obtain ⟨-, -, hdisj⟩ := List.nodup_append.mp hnd
  have hresolved : (resolvedLog s.log).filter (fun pop => pop ∉ resolvedLog s.log) = [] := by
    simp [List.filter_eq_nil_iff]
  have hwaiting : s.q.awaiters.filter (fun pop => pop ∉ resolvedLog s.log) = s.q.awaiters := by
    rw [List.filter_eq_self]
    intro p hp
    simpa using fun hmem => hdisj p hmem p hp rfl
  rw [waiting, ← hb.pops_in_order, List.filter_append, hresolved, hwaiting, List.nil_append]

theorem Books.pairs {s : Sys Q T E} (hb : Books s) : Pairs s where
  line := hb.line
  never_both := hb.no_wait_with_items
  in_order := by
    have hsub : ((poppedLog s.log).map Prod.fst).Sublist (List.range s.pops) := by
      rw [← hb.pops_in_order]
      exact (popped_sublist_resolved s.log).trans (List.sublist_append_left _ _)
    rw [Queue.deliveredTo_eq_map hsub, hb.accounted]
  once := by
    have hnd : (resolvedLog s.log ++ s.q.awaiters).Nodup := hb.pops_in_order ▸ List.nodup_range
    exact (List.nodup_append.mp hnd).1
  push_wakes x := by
    rw [← hb.line, push]
    cases s.q.awaiters <;> rfl
  unblock_fails e := by
    rw [← hb.line, unblockPop]
    cases s.q.awaiters <;> exact ⟨rfl, rfl⟩

/-- **Pushes and pops are paired**, whatever the calls, in `queue<T>` and in
`queue<void>`. -/
theorem pairs_exec :
    (∀ ops : List (Op T E), Pairs (Run.exec step (init : Sys (List T) T E) ops)) ∧
    ∀ ops : List (Op Unit E), Pairs (Run.exec step (init : Sys StdQueueVoid Unit E) ops) :=
  ⟨fun ops => (books_exec ops).pairs, fun ops => (books_exec ops).pairs⟩

end QueueOf

end Cocls
