import Mathlib.Data.List.Basic

/-!
# Cocls.Queue

The awaitable queues `queue<T>` and `limited_queue<T>`.  Every member function
runs under the queue's lock, so each is one function from the queue to the
queue; a promise is named by the call that created it (the number of the `pop`
or `push` call), and what a call resolves is the list of `Event`s it returns:

* `pop` answers from the stored items or leaves its promise in `awaiters`;
* `push` hands the item to the longest waiting consumer or stores it, and in a
  full `limited_queue` leaves its own promise in `blocked`;
* `unblockPop` / `unblockPush` fail the promise at the front of the line.
-/

namespace Cocls

/-- The argument pack of a `push`, by what it constructs: `first` is the value
the first `std::forward` of the pack constructs, `again` the one a second
`std::forward` of the same pack constructs.  For arguments that are copied the
two agree; for arguments that are moved the second finds what the move left. -/
structure Arg (T : Type*) where
  first : T
  again : T
deriving DecidableEq, Repr

/-- Arguments that are copied construct the same value every time. -/
def Arg.copied {T : Type*} (x : T) : Arg T := ⟨x, x⟩

/-- State of `queue<T>`: the stored items, oldest first, and the promises of the
waiting pops, longest waiting first. -/
structure Queue (T : Type*) where
  queue : List T := []
  awaiters : List Nat := []
deriving DecidableEq, Repr

namespace Queue

/-- Promises resolved by a queue operation: `popped` and `popFailed` resolve the
future of a `pop`, `pushed` and `pushFailed` the future of a `push`. -/
inductive Event (T E : Type*) where
  | popped (pop : Nat) (value : T)
  | popFailed (pop : Nat) (e : E)
  | pushed (push : Nat)
  | pushFailed (push : Nat) (e : E)
deriving DecidableEq, Repr

variable {T E : Type*}

/-- The pops a log resolves with a value, in the order it resolves them. -/
def poppedLog (log : List (Event T E)) : List (Nat × T) :=
  log.filterMap fun
    | .popped pop value => some (pop, value)
    | _ => none

/-- The pushes a log fails, in the order it fails them. -/
def pushFailedLog (log : List (Event T E)) : List Nat :=
  log.filterMap fun
    | .pushFailed push _ => some push
    | _ => none

@[simp] theorem poppedLog_nil : poppedLog ([] : List (Event T E)) = [] := rfl

@[simp] theorem poppedLog_popped (pop : Nat) (value : T) (log : List (Event T E)) :
    poppedLog (.popped pop value :: log) = (pop, value) :: poppedLog log := rfl

@[simp] theorem poppedLog_popFailed (pop : Nat) (e : E) (log : List (Event T E)) :
    poppedLog (.popFailed pop e :: log) = poppedLog log := rfl

@[simp] theorem poppedLog_pushed (push : Nat) (log : List (Event T E)) :
    poppedLog (.pushed push :: log) = poppedLog log := rfl

@[simp] theorem poppedLog_pushFailed (push : Nat) (e : E) (log : List (Event T E)) :
    poppedLog (.pushFailed push e :: log) = poppedLog log := rfl

@[simp] theorem pushFailedLog_nil : pushFailedLog ([] : List (Event T E)) = [] := rfl

@[simp] theorem pushFailedLog_popped (pop : Nat) (value : T) (log : List (Event T E)) :
    pushFailedLog (.popped pop value :: log) = pushFailedLog log := rfl

@[simp] theorem pushFailedLog_pushed (push : Nat) (log : List (Event T E)) :
    pushFailedLog (.pushed push :: log) = pushFailedLog log := rfl

@[simp] theorem pushFailedLog_pushFailed (push : Nat) (e : E) (log : List (Event T E)) :
    pushFailedLog (.pushFailed push e :: log) = push :: pushFailedLog log := rfl

@[simp] theorem poppedLog_append (xs ys : List (Event T E)) :
    poppedLog (xs ++ ys) = poppedLog xs ++ poppedLog ys := List.filterMap_append

@[simp] theorem pushFailedLog_append (xs ys : List (Event T E)) :
    pushFailedLog (xs ++ ys) = pushFailedLog xs ++ pushFailedLog ys := List.filterMap_append

/-- The values a log delivers to the pops `0, …, pops - 1`, in the order of the
pops.  A pop that were resolved twice would be listed twice. -/
def deliveredTo (pops : Nat) (log : List (Event T E)) : List T :=
  (List.range pops).flatMap fun pop =>
    (poppedLog log).filterMap fun e => if e.1 = pop then some e.2 else none

/-- A key that does not occur finds nothing. -/
private theorem filterMap_key_eq_nil (xs : List (Nat × T)) (i : Nat) (h : i ∉ xs.map Prod.fst) :
    (xs.filterMap fun e => if e.1 = i then some e.2 else none) = [] := by
  rw [List.filterMap_eq_nil_iff]
  intro e he
  rw [if_neg]
  rintro rfl
  exact h (List.mem_map_of_mem he)

/-- Looking up distinct keys in an order the entries keep lists the entries. -/
private theorem flatMap_key_eq_map {ks ids : List Nat} (hsub : ks.Sublist ids) (hnd : ids.Nodup) :
    ∀ xs : List (Nat × T), xs.map Prod.fst = ks →
      (ids.flatMap fun i => xs.filterMap fun e => if e.1 = i then some e.2 else none) =
        xs.map Prod.snd := by
  induction hsub with
  | slnil =>
      rintro xs hxs
      rw [List.map_eq_nil_iff.mp hxs]
      rfl
  | @cons ks ids i hsub ih =>
      intro xs hxs
      obtain ⟨hi, hnd⟩ := List.nodup_cons.mp hnd
      have hnone : i ∉ xs.map Prod.fst := fun hmem => hi (hsub.subset (hxs ▸ hmem))
      rw [List.flatMap_cons, filterMap_key_eq_nil xs i hnone, List.nil_append]
      exact ih hnd xs hxs
  | @cons_cons ks ids i hsub ih =>
      intro xs hxs
      obtain ⟨hi, hnd⟩ := List.nodup_cons.mp hnd
      obtain ⟨x, xs, rfl, hx, hks⟩ := List.map_eq_cons_iff.mp hxs
      have hnone : i ∉ xs.map Prod.fst := fun hmem => hi (hsub.subset (hks ▸ hmem))
      have hrest : (ids.flatMap fun j =>
          (x :: xs).filterMap fun e => if e.1 = j then some e.2 else none) =
          ids.flatMap fun j => xs.filterMap fun e => if e.1 = j then some e.2 else none := by
        apply List.flatMap_congr
        intro j hj
        rw [List.filterMap_cons, if_neg]
        rintro rfl
        exact hi (hx ▸ hj)
      rw [List.flatMap_cons, hrest, ih hnd xs hks, List.filterMap_cons, if_pos hx,
        filterMap_key_eq_nil xs i hnone]
      rfl

/-- When the pops that get a value get it in the order of the pops, the values in
the order of the pops are the values in the order of their resolution. -/
theorem deliveredTo_eq_map {pops : Nat} {log : List (Event T E)}
    (h : ((poppedLog log).map Prod.fst).Sublist (List.range pops)) :
    deliveredTo pops log = (poppedLog log).map Prod.snd :=
  flatMap_key_eq_map h List.nodup_range _ rfl

end Queue

/-! ## limited_queue -/

/-- State of `limited_queue<T>`: on top of `queue<T>`, the producers waiting for
room, longest waiting first, each with the item it brought. -/
structure LimitedQueue (T : Type*) extends Queue T where
  blocked : List (T × Nat) := []
  limit : Nat
deriving DecidableEq, Repr

namespace LimitedQueue

open Queue (Event)

variable {T E : Type*}

/-- `push(args...)` by the call numbered `me`. -/
def push (q : LimitedQueue T) (args : Arg T) (me : Nat) : LimitedQueue T × List (Event T E) :=
  match q.awaiters with
  | p :: awaiters => ({ q with awaiters := awaiters }, [.popped p args.first, .pushed me])
  | [] =>
      -- the item is stored before the limit is looked at
      let q := { q with queue := q.queue ++ [args.first] }
      if q.limit ≤ q.queue.length then
        ({ q with blocked := q.blocked ++ [(args.again, me)] }, [])
      else
        (q, [.pushed me])

/-- `pop()` by the call numbered `me`. -/
def pop (q : LimitedQueue T) (me : Nat) : LimitedQueue T × List (Event T E) :=
  match q.queue with
  | [] => ({ q with awaiters := q.awaiters ++ [me] }, [])
  | x :: queue =>
      let q := { q with queue := queue }
      match q.blocked with
      | (y, p) :: blocked =>
          ({ q with queue := q.queue ++ [y], blocked := blocked }, [.popped me x, .pushed p])
      | [] => (q, [.popped me x])

/-- `unblock_push(e)`: fails the longest waiting producer; the answer is whether
there was one. -/
def unblockPush (q : LimitedQueue T) (e : E) : LimitedQueue T × List (Event T E) × Bool :=
  match q.blocked with
  | [] => (q, [], false)
  | (_, p) :: blocked => ({ q with blocked := blocked }, [.pushFailed p e], true)

end LimitedQueue

end Cocls
