import Cocls.Publisher.Table

/-!
# Cocls.Publisher.Batch

Publishing a batch and publishing its values one by one.

`push_lk` cuts the queue after every call, so single pushes cut it after every
value and a batch once, at its end.  The length that the registrations need
grows by at most one with each value (`needLen_add_le`): a cut on the way never
takes a value that the last cut keeps.  The awaiters are all resumed by the
first push.
-/

namespace Cocls

namespace Publisher

namespace Queue

variable {T : Type*}

/-- `push` of each value; kept are the awaiters that the pushes wake up, in their order. -/
def pushEach (s : Queue T) : List T → Queue T × List Nat
  | [] => (s, [])
  | v :: vals =>
      let r := s.push v
      let rest := r.1.pushEach vals
      (rest.1, r.2 ++ rest.2)

/-! ## The needed length -/

/-- A later stream position is further away from a reading position by the difference, or
by less where the subtraction wrapped. -/
theorem sizeSub_add_le (pos n x : Nat) : sizeSub (pos + n) x ≤ sizeSub pos x + n := by
  unfold sizeSub
  split_ifs <;> omega

theorem needFold_add_le (pos n : Nat) (regs : List SubReg) {k m : Nat} (h : k ≤ m + n) :
    needFold (pos + n) regs k ≤ needFold pos regs m + n := by
  induction regs generalizing k m with
  | nil => exact h
  | cons x xs ih =>
      rw [needFold_cons, needFold_cons]
      refine ih ?_
      have hx := sizeSub_add_le pos n x.pos
      split
      · omega
      · exact h

/-- The needed length after `n` more values. -/
theorem needLen_add_le (s : Queue T) (pos n : Nat) :
    s.needLen (pos + n) ≤ s.needLen pos + n :=
  needFold_add_le pos n s.regs (Nat.le_add_right _ n)

/-- The reading positions are all that counts. -/
theorem needFold_awakened (pos : Nat) (regs : List SubReg) (n : Nat) :
    needFold pos (regs.map fun x => if x.used then { x with awt := none } else x) n =
      needFold pos regs n := by
  induction regs generalizing n with
  | nil => rfl
  | cons x xs ih =>
      rw [List.map_cons, needFold_cons, needFold_cons, ih]
      cases hu : x.used <;> simp [hu]

/-! ## Two calls of `push_lk` -/

/-- The awaiters of registrations in use are gone after `push_lk`. -/
theorem awakened_twice (s s' : Queue T) (h : s'.regs = s.awakened) :
    s'.awakened = s.awakened ∧ s'.wakeups = [] := by
  constructor
  · rw [awakened, h, awakened, List.map_map]
    refine List.map_congr_left fun x _ => ?_
    cases hu : x.used <;> simp [hu]
  · rw [wakeups, h, awakened, List.filterMap_map, List.filterMap_eq_nil_iff]
    intro x _
    cases hu : x.used <;> simp [hu]

/-- `resize` to no more than the length. -/
theorem take_min_length (q : List T) (need most : Nat) :
    q.take (min need (min most q.length)) = q.take (min need most) := by
  rw [← Nat.min_assoc, ← List.take_eq_take_min]

/-- Cutting a queue before more values are put in front of it changes nothing, when the
first cut leaves what the last one needs. -/
theorem take_append_take (vals q : List T) (most : Nat) {need need' : Nat}
    (h : need' ≤ need + vals.length) :
    (vals ++ q.take (min need (min most q.length))).take
        (min need' (min most (vals ++ q.take (min need (min most q.length))).length)) =
      (vals ++ q).take (min need' (min most (vals ++ q).length)) := by
  have hle : min need' most - vals.length ≤ min need most := by omega
  rw [take_min_length, take_min_length, take_min_length, List.take_append, List.take_append,
    List.take_take, Nat.min_eq_left hle]

/-- **Two batches are one batch**: the values that the second `push_lk` would keep were not
cut off by the first. -/
theorem pushAll_append (s : Queue T) (us vs : List T) :
    s.pushAll (us ++ vs) =
      (((s.pushAll us).1.pushAll vs).1, (s.pushAll us).2 ++ ((s.pushAll us).1.pushAll vs).2) := by
  by_cases hu : us.length = 0
  · obtain rfl := List.eq_nil_of_length_eq_zero hu
    rfl
  by_cases hv : vs.length = 0
  · obtain rfl := List.eq_nil_of_length_eq_zero hv
    simp [pushAll]
  have huv : (us ++ vs).length ≠ 0 := by rw [List.length_append]; omega
  simp only [pushAll, if_neg hu, if_neg hv, if_neg huv]
  -- the first call
  set s₁ : Queue T := { s with q := us.reverse ++ s.q }
  set s₂ : Queue T := { (s₁.pushLk us.length).1 with
    q := vs.reverse ++ (s₁.pushLk us.length).1.q }
  obtain ⟨hawake, hwake⟩ := s₁.awakened_twice s₂ rfl
  have hneed : s₂.needLen (s.pos + us.length + vs.length) =
      s.needLen (s.pos + us.length + vs.length) :=
    needFold_awakened _ _ _
  have hpos : s.pos + (us ++ vs).length = s.pos + us.length + vs.length := by
    rw [List.length_append, Nat.add_assoc]
  have hcut := take_append_take vs.reverse (us.reverse ++ s.q) s.limits.maxQueueLen
    (by simpa only [List.length_reverse] using s.needLen_add_le (s.pos + us.length) vs.length)
  rw [← List.append_assoc, ← List.reverse_append, ← hneed] at hcut
  refine Prod.ext ?_ ?_
  · simp only [pushLk, hpos]
    rw [Queue.mk.injEq]
    exact ⟨rfl, hawake.symm, rfl, hneed ▸ hcut.symm, rfl, rfl⟩
  · show s.wakeups = s.wakeups ++ s₂.wakeups
    rw [hwake, List.append_nil]

/-- A batch is its values, one by one. -/
theorem pushAll_eq_pushEach (s : Queue T) (vals : List T) : s.pushAll vals = s.pushEach vals := by
  induction vals generalizing s with
  | nil => rfl
  | cons v vals ih =>
      have happ := s.pushAll_append [v] vals
      rw [pushAll_singleton, ih] at happ
      exact happ

end Queue

namespace Stream

variable {T : Type*}

/-- The subscribers resumed by two wake-ups, one after the other. -/
theorem resumeAll_resumeAll (sub : Nat → Option (Reader T)) (wk wk' : List Nat) :
    resumeAll (resumeAll sub wk) wk' = resumeAll sub (wk ++ wk') := by
  funext p
  cases hr : sub p with
  | none => simp [resumeAll, hr]
  | some r =>
      by_cases hph : r.phase = .suspended
      · by_cases h : p ∈ wk <;> by_cases h' : p ∈ wk' <;> simp [resumeAll, hr, hph, h, h']
      · by_cases h : p ∈ wk <;> by_cases h' : p ∈ wk' <;> simp [resumeAll, hr, hph, h, h']

/-- Two batches, one after the other, and one batch. -/
theorem step_publish_append {s s₁ : Stream T} {us : List T} (vs : List T)
    (h : s.step (.publish us) = some s₁) :
    s₁.step (.publish vs) = s.step (.publish (us ++ vs)) := by
  simp only [step, Option.some.injEq] at h ⊢
  rw [← h, s.que.pushAll_append us vs]
  simp only [resumeAll_resumeAll, List.append_assoc]

/-- **Publishing a batch is publishing one by one**: in every state of a publisher the batch
leaves the queue, the stream position and the registrations that single calls leave, and wakes
up the same awaiters in the same order; so it does with the subscribers, which run after it. -/
theorem publish_batch (limits : Limits) (as : List (Action T)) (vals : List T) :
    let s := Run.exec step (init limits) as
    s.que.pushAll vals = s.que.pushEach vals ∧
      Run.exec step s [.publish vals] = Run.exec step s (vals.map fun v => .publish [v]) := by
  refine ⟨Queue.pushAll_eq_pushEach _ vals, ?_⟩
  generalize Run.exec step (init limits) as = s
  induction vals generalizing s with
  | nil =>
      have hnil : s.step (.publish []) = some s := by
        have hsub : resumeAll s.sub [] = s.sub := by
          funext p
          simp [resumeAll]
        simp [step, Queue.pushAll, hsub]
      rw [Run.exec_cons, Run.tryStep_of_some step s hnil]
      rfl
  | cons v vals ih =>
      obtain ⟨s₁, h₁⟩ : ∃ s₁, s.step (.publish [v]) = some s₁ := ⟨_, rfl⟩
      have hstep :
          Run.tryStep step s (.publish (v :: vals)) = Run.tryStep step s₁ (.publish vals) := by
        rw [Run.tryStep, Run.tryStep, step_publish_append vals h₁]
        rfl
      calc Run.exec step s [.publish (v :: vals)]
        _ = Run.exec step s₁ [.publish vals] := hstep
        _ = Run.exec step s₁ (vals.map fun v => .publish [v]) := ih s₁
        _ = Run.exec step s ((v :: vals).map fun v => .publish [v]) := by
            rw [List.map_cons, Run.exec_cons, Run.tryStep_of_some step s h₁]

end Stream

end Publisher

end Cocls
