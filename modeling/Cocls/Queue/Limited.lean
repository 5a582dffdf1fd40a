import Cocls.Queue
import Cocls.Run

/-!
# Cocls.Queue.Limited

Runs of a `limited_queue`: any number of producers and consumers call `push`,
`pop` and `unblock_push` in any order, one call at a time (the lock).

The purpose of the queue is that every item is accounted for exactly once: what
the pops received, in the order of the pops, followed by what the queue still
holds, is what was pushed, in the order of the pushes, without the pushes that
`unblock_push` failed (`DeliveredOnce`).  `push` stores the item *before* it
looks at the limit and then blocks with a second construction of the same item,
so the law holds of a run exactly when no push of it blocks
(`deliveredOnce_iff`).
-/

namespace Cocls

namespace LimitedQueue

open Queue

variable {T E : Type*}

/-! ## Runs -/

/-- A call on the queue. -/
inductive Op (T E : Type*) where
  | push (args : Arg T)
  | pop
  | unblockPush (e : E)

/-- A queue with its history: the values pushed so far (the index is the number
of the push), the number of pops so far and every promise resolved so far. -/
structure Sys (T E : Type*) where
  q : LimitedQueue T
  pushes : List T := []
  pops : Nat := 0
  log : List (Event T E) := []

/-- A new queue. -/
def init (limit : Nat) : Sys T E := { q := { limit := limit } }

/-- One call under the lock. -/
def step (s : Sys T E) : Op T E → Option (Sys T E)
  | .push args =>
      let r := s.q.push (E := E) args s.pushes.length
      some { s with q := r.1, pushes := s.pushes ++ [args.first], log := s.log ++ r.2 }
  | .pop =>
      let r := s.q.pop (E := E) s.pops
      some { s with q := r.1, pops := s.pops + 1, log := s.log ++ r.2 }
  | .unblockPush e =>
      let r := s.q.unblockPush e
      some { s with q := r.1, log := s.log ++ r.2.1 }

/-- The values received, in the order of the pops. -/
def received (s : Sys T E) : List T := deliveredTo s.pops s.log

/-- The values pushed, in the order of the pushes, without the cancelled ones. -/
def kept (s : Sys T E) : List T :=
  (s.pushes.zipIdx.filter fun e => e.2 ∉ pushFailedLog s.log).map Prod.fst

/-- Every item that was pushed and not cancelled has been received exactly once
or is held exactly once, in the order of the pushes, and nothing else is. -/
def DeliveredOnce (s : Sys T E) : Prop :=
  received s ++ s.q.queue ++ s.q.blocked.map Prod.fst = kept s

instance [DecidableEq T] (s : Sys T E) : Decidable (DeliveredOnce s) :=
  inferInstanceAs (Decidable (_ = _))

/-- A push that does not block: a consumer is waiting, or the queue has room for
one more item below the limit. -/
def Fits (s : Sys T E) : Op T E → Prop
  | .push _ => s.q.awaiters ≠ [] ∨ s.q.queue.length + 1 < s.q.limit
  | .pop => True
  | .unblockPush _ => True

/-! ## What one call does -/

/-- The calls by their outcome: a push hands over, finds room or blocks; a pop
waits, takes an item, or takes one and lets a producer in; `unblock_push` finds
nobody or cancels the longest waiting producer. -/
inductive Call (s : Sys T E) : Op T E → Sys T E → Prop
  | handOver {args p rest} (ha : s.q.awaiters = p :: rest) :
      Call s (.push args)
        { s with q := { s.q with awaiters := rest }, pushes := s.pushes ++ [args.first],
                 log := s.log ++ [.popped p args.first, .pushed s.pushes.length] }
  | store {args} (ha : s.q.awaiters = []) (hl : s.q.queue.length + 1 < s.q.limit) :
      Call s (.push args)
        { s with q := { s.q with queue := s.q.queue ++ [args.first] },
                 pushes := s.pushes ++ [args.first],
                 log := s.log ++ [.pushed s.pushes.length] }
  | block {args} (ha : s.q.awaiters = []) (hl : s.q.limit ≤ s.q.queue.length + 1) :
      Call s (.push args)
        { s with q := { s.q with queue := s.q.queue ++ [args.first],
                                 blocked := s.q.blocked ++ [(args.again, s.pushes.length)] },
                 pushes := s.pushes ++ [args.first] }
  | wait (hq : s.q.queue = []) :
      Call s .pop
        { s with q := { s.q with awaiters := s.q.awaiters ++ [s.pops] }, pops := s.pops + 1 }
  | take {x rest} (hq : s.q.queue = x :: rest) (hb : s.q.blocked = []) :
      Call s .pop
        { s with q := { s.q with queue := rest }, pops := s.pops + 1,
                 log := s.log ++ [.popped s.pops x] }
  | promote {x rest y p bs} (hq : s.q.queue = x :: rest) (hb : s.q.blocked = (y, p) :: bs) :
      Call s .pop
        { s with q := { s.q with queue := rest ++ [y], blocked := bs }, pops := s.pops + 1,
                 log := s.log ++ [.popped s.pops x, .pushed p] }
  | nobody {e} (hb : s.q.blocked = []) : Call s (.unblockPush e) s
  | cancel {e y p bs} (hb : s.q.blocked = (y, p) :: bs) :
      Call s (.unblockPush e)
        { s with q := { s.q with blocked := bs }, log := s.log ++ [.pushFailed p e] }

/-- Every call of the code has one of the outcomes. -/
theorem call_of_step {s s' : Sys T E} {op : Op T E} (h : step s op = some s') : Call s op s' := by
  cases op with
  | push args =>
      cases ha : s.q.awaiters with
      | cons p rest =>
          have hs' : _ = s' := Option.some.inj h
          simp only [push, ha] at hs'
          rw [← hs']
          exact .handOver ha
      | nil =>
          have hs' : _ = s' := Option.some.inj h
          by_cases hl : s.q.limit ≤ s.q.queue.length + 1
          · have hcall : Call s (.push args) _ := .block ha hl
            simpa [push, ha, hl, ← hs'] using hcall
          · have hcall : Call s (.push args) _ := .store ha (by omega)
            simpa [push, ha, hl, ← hs'] using hcall
  | pop =>
      have hs' : _ = s' := Option.some.inj h
      cases hq : s.q.queue with
      | nil => simpa [pop, hq, ← hs'] using Call.wait hq
      | cons x rest =>
          cases hb : s.q.blocked with
          | nil => simpa [pop, hq, hb, ← hs'] using Call.take hq hb
          | cons b bs =>
              obtain ⟨y, p⟩ := b
              simpa [pop, hq, hb, ← hs'] using Call.promote hq hb
  | unblockPush e =>
      have hs' : _ = s' := Option.some.inj h
      cases hb : s.q.blocked with
      | nil => simpa [unblockPush, hb, ← hs'] using Call.nobody (e := e) hb
      | cons b bs =>
          obtain ⟨y, p⟩ := b
          simpa [unblockPush, hb, ← hs'] using Call.cancel (e := e) hb

/-! ## Bookkeeping kept by every call -/

/-- What holds of the history whatever the calls were: pops are resolved in the
order they were made, nobody waits while items are stored, and the pushes that
were cancelled or are blocked are distinct pushes. -/
structure Books (s : Sys T E) : Prop where
  pops_in_order : (poppedLog s.log).map Prod.fst ++ s.q.awaiters = List.range s.pops
  no_wait_with_items : s.q.queue = [] ∨ s.q.awaiters = []
  held_back_nodup : (pushFailedLog s.log ++ s.q.blocked.map Prod.snd).Nodup
  held_back_lt : ∀ i ∈ pushFailedLog s.log ++ s.q.blocked.map Prod.snd, i < s.pushes.length

theorem books_init (limit : Nat) : Books (init limit : Sys T E) := by
  constructor <;> simp [init, poppedLog, pushFailedLog]

theorem books_step {s s' : Sys T E} {op : Op T E} (hb : Books s) (h : step s op = some s') :
    Books s' := by
  obtain ⟨hord, hwait, hnd, hlt⟩ := hb
  cases call_of_step h with
  | handOver ha =>
      have hq : s.q.queue = [] := hwait.resolve_right (by simp [ha])
      refine ⟨?_, .inl hq, by simpa using hnd, ?_⟩
      · simpa [ha] using hord
      · intro i hi
        have hi' : i < s.pushes.length := hlt i (by simpa using hi)
        simp only [List.length_append, List.length_cons, List.length_nil]
        omega
  | store ha hl =>
      refine ⟨by simpa using hord, .inr ha, by simpa using hnd, ?_⟩
      intro i hi
      have hi' : i < s.pushes.length := hlt i (by simpa using hi)
      simp only [List.length_append, List.length_cons, List.length_nil]
      omega
  | block ha hl =>
      refine ⟨hord, .inr ha, ?_, ?_⟩
      · have hfresh : s.pushes.length ∉ pushFailedLog s.log ++ s.q.blocked.map Prod.snd :=
          fun hmem => Nat.lt_irrefl _ (hlt _ hmem)
        rw [List.map_append, ← List.append_assoc]
        rw [List.nodup_append]
        refine ⟨hnd, by simp, ?_⟩
        intro a ha' b hb' hab
        simp only [List.map_cons, List.map_nil, List.mem_singleton] at hb'
        exact hfresh (by rw [← hb', ← hab]; exact ha')
      · intro i hi
        rw [List.map_append, ← List.append_assoc, List.mem_append] at hi
        simp only [List.length_append, List.length_cons, List.length_nil]
        rcases hi with hi | hi
        · have := hlt i hi
          omega
        · simp only [List.map_cons, List.map_nil, List.mem_singleton] at hi
          omega
  | wait hq =>
      refine ⟨?_, .inl hq, hnd, hlt⟩
      rw [← List.append_assoc, hord, List.range_succ]
  | take hq hb =>
      have ha : s.q.awaiters = [] := hwait.resolve_left (by simp [hq])
      refine ⟨?_, .inr ha, by simpa using hnd, by simpa using hlt⟩
      rw [ha, List.append_nil] at hord
      simp [ha, hord, List.range_succ]
  | promote hq hb =>
      have ha : s.q.awaiters = [] := hwait.resolve_left (by simp [hq])
      rw [hb] at hnd hlt
      refine ⟨?_, .inr ha, ?_, ?_⟩
      · rw [ha, List.append_nil] at hord
        simp [ha, hord, List.range_succ]
      · refine List.Nodup.sublist ?_ hnd
        simp
      · intro i hi
        refine hlt i ?_
        simp only [pushFailedLog_append, pushFailedLog_popped, pushFailedLog_pushed,
          pushFailedLog_nil, List.append_nil, List.mem_append] at hi ⊢
        exact hi.imp_right (List.mem_cons_of_mem _)
  | nobody hb => exact ⟨hord, hwait, hnd, hlt⟩
  | cancel hb =>
      rw [hb] at hnd hlt
      exact ⟨by simpa using hord, hwait, by simpa using hnd, by simpa using hlt⟩

/-- The values received, read off the log. -/
theorem Books.received_eq {s : Sys T E} (hb : Books s) :
    received s = (poppedLog s.log).map Prod.snd := by
  apply deliveredTo_eq_map
  rw [← hb.pops_in_order]
  exact List.sublist_append_left _ _

/-- Cancelled pushes are missing from the kept values, one value each. -/
theorem Books.length_kept {s : Sys T E} (hb : Books s) :
    (kept s).length + (pushFailedLog s.log).length = s.pushes.length := by
  have hnd : (pushFailedLog s.log).Nodup := (List.nodup_append.mp hb.held_back_nodup).1
  have hlt : ∀ i ∈ pushFailedLog s.log, i < s.pushes.length :=
    fun i hi => hb.held_back_lt i (List.mem_append_left _ hi)
  have hids : s.pushes.zipIdx.map Prod.snd = List.range s.pushes.length := by
    simp [List.zipIdx_map_snd, List.range_eq_range']
  have hcount : ((List.range s.pushes.length).filter fun i => i ∈ pushFailedLog s.log).length =
      (pushFailedLog s.log).length := by
    apply List.Perm.length_eq
    rw [List.perm_ext_iff_of_nodup (List.nodup_range.filter _) hnd]
    intro i
    simp only [List.mem_filter, List.mem_range, decide_eq_true_eq]
    exact ⟨fun h => h.2, fun h => ⟨hlt i h, h⟩⟩
  have hsplit := List.length_eq_length_filter_add (l := List.range s.pushes.length)
    (fun i => decide (i ∈ pushFailedLog s.log))
  have hkept : (kept s).length =
      ((List.range s.pushes.length).filter fun i => i ∉ pushFailedLog s.log).length := by
    rw [← hids, List.filter_map, List.length_map, kept, List.length_map]
    rfl
  rw [List.length_range, hcount] at hsplit
  rw [hkept]
  simp only [← decide_not] at hsplit
  omega

/-! ## The law, and exactly when it holds -/

/-- No item has an account twice so far: nobody has blocked. -/
structure Clean (s : Sys T E) : Prop where
  books : Books s
  none_blocked : s.q.blocked = []
  none_cancelled : pushFailedLog s.log = []
  accounted : (poppedLog s.log).map Prod.snd ++ s.q.queue = s.pushes

/-- Some item has two accounts: there are more items received, held and
cancelled than were ever pushed. -/
structure Doubled (s : Sys T E) : Prop where
  books : Books s
  excess : s.pushes.length < (poppedLog s.log).length + s.q.queue.length + s.q.blocked.length +
    (pushFailedLog s.log).length

theorem clean_init (limit : Nat) : Clean (init limit : Sys T E) :=
  ⟨books_init limit, rfl, rfl, rfl⟩

/-- As long as pushes fit, no item gets a second account. -/
theorem clean_step {s s' : Sys T E} {op : Op T E} (hc : Clean s) (hfit : Fits s op)
    (h : step s op = some s') : Clean s' := by
  have hbooks : Books s' := books_step hc.books h
  obtain ⟨hb, hblk, hcan, hacc⟩ := hc
  cases call_of_step h with
  | handOver ha =>
      have hq : s.q.queue = [] := hb.no_wait_with_items.resolve_right (by simp [ha])
      rw [hq, List.append_nil] at hacc
      exact ⟨hbooks, hblk, by simpa using hcan, by simp [hq, hacc]⟩
  | store ha hl => exact ⟨hbooks, hblk, by simpa using hcan, by simp [← hacc]⟩
  | block ha hl =>
      have hroom : s.q.queue.length + 1 < s.q.limit := hfit.resolve_left (by simp [ha])
      omega
  | wait hq => exact ⟨hbooks, hblk, hcan, hacc⟩
  | take hq _ =>
      rw [hq] at hacc
      exact ⟨hbooks, hblk, by simpa using hcan, by simpa using hacc⟩
  | promote _ hb' => rw [hblk] at hb'; contradiction
  | nobody _ => exact ⟨hbooks, hblk, hcan, hacc⟩
  | cancel hb' => rw [hblk] at hb'; contradiction

/-- A push that does not fit gives its item two accounts at once. -/
theorem doubled_of_not_fits {s s' : Sys T E} {op : Op T E} (hc : Clean s) (hfit : ¬ Fits s op)
    (h : step s op = some s') : Doubled s' := by
  have hbooks : Books s' := books_step hc.books h
  have hlen := congrArg List.length hc.accounted
  simp only [List.length_append, List.length_map] at hlen
  cases call_of_step h with
  | handOver ha => exact absurd (.inl (by simp [ha])) hfit
  | store ha hl => exact absurd (.inr hl) hfit
  | block ha hl =>
      refine ⟨hbooks, ?_⟩
      simp only [List.length_append, List.length_cons, List.length_nil]
      omega
  | wait _ | take _ _ | promote _ _ => exact absurd trivial hfit
  | nobody _ | cancel _ => exact absurd trivial hfit

/-- No call ever removes a second account. -/
theorem doubled_step {s s' : Sys T E} {op : Op T E} (hd : Doubled s) (h : step s op = some s') :
    Doubled s' := by
  refine ⟨books_step hd.books h, ?_⟩
  have hexc := hd.excess
  cases call_of_step h with
  | handOver ha =>
      simp only [poppedLog_append, pushFailedLog_append, poppedLog_popped, poppedLog_pushed,
        pushFailedLog_popped, pushFailedLog_pushed, List.length_append, List.length_cons,
        List.length_nil, poppedLog_nil, pushFailedLog_nil]
      omega
  | store ha hl | block ha hl | wait hq =>
      simp only [poppedLog_append, pushFailedLog_append, poppedLog_pushed, pushFailedLog_pushed,
        List.length_append, List.length_cons, List.length_nil, poppedLog_nil, pushFailedLog_nil]
      omega
  | take hq hb | promote hq hb =>
      rw [hq, hb] at hexc
      simp only [poppedLog_append, pushFailedLog_append, poppedLog_popped, poppedLog_pushed,
        pushFailedLog_popped, pushFailedLog_pushed, List.length_append, List.length_cons,
        List.length_nil, poppedLog_nil, pushFailedLog_nil] at hexc ⊢
      omega
  | nobody _ => exact hexc
  | cancel hb =>
      rw [hb] at hexc
      simp only [poppedLog_append, pushFailedLog_append, poppedLog_pushFailed, poppedLog_nil,
        pushFailedLog_pushFailed, pushFailedLog_nil, List.length_append, List.length_cons,
        List.length_nil] at hexc ⊢
      omega

theorem Clean.deliveredOnce {s : Sys T E} (hc : Clean s) : DeliveredOnce s := by
  have hkept : kept s = s.pushes := by
    simp [kept, hc.none_cancelled]
  rw [DeliveredOnce, hc.books.received_eq, hc.none_blocked, hkept, ← hc.accounted]
  simp

theorem Doubled.not_deliveredOnce {s : Sys T E} (hd : Doubled s) : ¬ DeliveredOnce s := by
  intro h
  have hlen := congrArg List.length h
  have hkept := hd.books.length_kept
  have hexc := hd.excess
  rw [hd.books.received_eq] at hlen
  simp only [List.length_append, List.length_map] at hlen
  omega

/-- **Exactly once, exactly when nobody blocks**: whatever the limit and the
calls, every item is received or held exactly once, in push order, if and only
if no push of the run found no consumer waiting and no room below the limit. -/
theorem deliveredOnce_iff (limit : Nat) (ops : List (Op T E)) :
    DeliveredOnce (Run.exec step (init limit) ops) ↔ Run.Meets step Fits (init limit) ops :=
  Run.exec_iff_meets (fun _ _ _ => clean_step) (fun _ _ _ => doubled_of_not_fits)
    (fun _ _ _ => doubled_step) (fun _ => Clean.deliveredOnce)
    (fun _ => Doubled.not_deliveredOnce) (clean_init limit) ops

/-- With limit 1 the only push already blocks: its item is delivered to two
pops, or a second time as what the move left of it (`0`), or although
`unblock_push` cancelled it. -/
theorem deliveredOnce_fails :
    received (Run.exec step (init 1 : Sys Nat Unit) [.push (.copied 7), .pop, .pop]) = [7, 7] ∧
    received (Run.exec step (init 1 : Sys Nat Unit) [.push ⟨7, 0⟩, .pop, .pop]) = [7, 0] ∧
    received (Run.exec step (init 1 : Sys Nat Unit)
      [.push (.copied 7), .unblockPush (), .pop]) = [7] ∧
    kept (Run.exec step (init 1 : Sys Nat Unit)
      [.push (.copied 7), .unblockPush (), .pop]) = [] ∧
    ¬ ∀ (limit : Nat) (ops : List (Op Nat Unit)), 1 ≤ limit →
      DeliveredOnce (Run.exec step (init limit) ops) := by
  refine ⟨by decide, by decide, by decide, by decide, fun hall => ?_⟩
  exact absurd (hall 1 [.push (.copied 7), .pop, .pop] (Nat.le_refl 1)) (by decide)

end LimitedQueue

end Cocls
