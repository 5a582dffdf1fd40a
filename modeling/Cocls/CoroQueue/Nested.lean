import Mathlib.Data.List.Perm.Basic
import Cocls.CoroQueue.CoroMode

/-!
# Cocls.CoroQueue.Nested

Calls of `install_queue_and_call` and `install_queue_and_resume` by a thread whose
queue is installed already.

Both are documented to install a *nested* queue.  There is one `queue_impl` per
thread and it is the one that is installed again, so the trailer of the call
flushes all of it: a call leaves the coroutines enqueued before it alone exactly
when there are none (`separate_iff`).
-/

namespace Cocls

namespace CoroQueue

variable {H : Type*}

/-! ## What goes through the queue -/

/-- The handles are pushed if the queue is installed. -/
def Thread.pushes (t : Thread H) (hs : List H) : List H := if t.isActive then hs else []

section Moves

variable [DecidableEq H] (t : Thread H)

/-- The handles that a thread puts into its queue, in order; `tasks` are the closures of the
pool. -/
def Thread.made (tasks : List (Task H)) : Action H → List H
  | .call _ (.resume h) | .call _ (.detach h) => t.pushes [h]
  | .call _ (.suspendNow hs) => t.pushes hs
  | .suspend _ x =>
      match t.stack, x with
      | .coroutine h :: _, .await hs =>
          if hs = [] then [] else hs.dropLast ++ if h ∈ hs.dropLast then [] else [h]
      | .coroutine h :: _, .pause => t.pushes [h]
      | .coroutine _ :: _, .popAndDestroy sp => t.pushes sp.dropLast
      | _, _ => []
  | .go _ =>
      match t.stack with
      | .stop (.coAwaiter h :: _) :: _ => t.pushes [h]
      | .parallelResume hs :: _ => t.pushes hs
      | _ => []
  | .work _ =>
      match t.stack, tasks with
      | .worker :: _, .coAwaiter h :: _ | .worker :: _, .resume h :: _ => t.pushes [h]
      | _, _ => []
  | _ => []

/-- The handles that a thread takes from the front of its queue and resumes. -/
def Thread.resumed : Action H → List H
  | .go _ =>
      match t.stack, t.queue with
      | .installQueueAndCall _ [] :: _, h :: _ => [h]
      | _, _ => []
  | .suspend _ .pause =>
      match t.stack with
      | .coroutine h :: _ => if t.isActive then (t.queue ++ [h]).head?.toList else []
      | _ => []
  | _ => []

/-- The handles that `create_suspend_point` takes back. -/
def Thread.withdrawn : Action H → List H
  | .go _ =>
      match t.stack with
      | .createSuspendPoint sz :: _ => t.queue.drop sz
      | _ => []
  | _ => []

end Moves

/-- The thread of an action. -/
def Action.thread : Action H → Nat
  | .call i _ | .suspend i _ | .ret i | .go i | .work i | .leave i => i

/-! ## Calls with the queue installed -/

/-- The two ways to install the queue. -/
inductive Entry (H : Type*) where
  /-- `install_queue_and_call` -/
  | call
  /-- `install_queue_and_resume` -/
  | resume (h : H)

/-- Thread `i` enters the call. -/
def Sys.enter (s : Sys H) (i : Nat) : Entry H → Sys H
  | .call => s.setThread i ((s.thread i).installQueueAndCall []).call
  | .resume h => s.setThread i ((s.thread i).installQueueAndResume h)

/-- The threads, and what went through the queue of one of them since a call. -/
structure Nested (H : Type*) where
  sys : Sys H
  made : List H := []
  resumed : List H := []
  withdrawn : List H := []

namespace Nested

variable [DecidableEq H]

/-- One step, with an eye on thread `i`. -/
def step (i : Nat) (n : Nested H) (a : Action H) : Option (Nested H) :=
  (n.sys.step a).map fun sys =>
    if a.thread = i then
      { sys := sys
        made := n.made ++ (n.sys.thread i).made n.sys.tasks a
        resumed := n.resumed ++ (n.sys.thread i).resumed a
        withdrawn := n.withdrawn ++ (n.sys.thread i).withdrawn a }
    else { n with sys := sys }

/-- Thread `i`, whose stack was `st` at the call, returns from it with the last of the
actions. -/
def Returns (i : Nat) (st : List (Frame H)) (s : Sys H) (as : List (Action H)) : Prop :=
  (∀ n < as.length, st.length < ((Run.exec Sys.step s (as.take n)).thread i).stack.length) ∧
    ((Run.exec Sys.step s as).thread i).stack = st

instance (i : Nat) (st : List (Frame H)) (s : Sys H) (as : List (Action H)) :
    Decidable (Returns i st s as) := inferInstanceAs (Decidable (_ ∧ _))

/-- After a call by thread `i`, with `q` in its queue before: the queue is still installed and
holds `q`, and what was resumed or taken back is exactly what was made ready in the call. -/
structure Separate (q : List H) (i : Nat) (n : Nested H) : Prop where
  active : (n.sys.thread i).isActive = true
  kept : (n.sys.thread i).queue = q
  resumed_made : (n.resumed ++ n.withdrawn).Perm n.made

/-! ## The stack above the call -/

/-- The calls of `install_queue_and_call` among the frames found the queue installed. -/
def Nestled (fs : List (Frame H)) : Prop :=
  ∀ prev hs, Frame.installQueueAndCall prev hs ∈ fs → prev = true

/-- What a step of a thread with its queue installed does to its stack `f :: fs`. -/
inductive Above (t t' : Thread H) (f : Frame H) (fs : List (Frame H)) : Prop
  | keeps (gs : List (Frame H)) (hgs : Nestled gs) (hst : t'.stack = gs ++ f :: fs)
      (ha : t'.active = true)
  | drops (gs : List (Frame H)) (hf : ∀ prev hs, f ≠ .installQueueAndCall prev hs) (hgs : Nestled gs)
      (hst : t'.stack = gs ++ fs) (ha : t'.active = true)
  | calls (prev : Bool) (h : H) (hs : List H) (hf : f = .installQueueAndCall prev (h :: hs))
      (hst : t'.stack = .coroutine h :: .installQueueAndCall prev hs :: fs) (ha : t'.active = true)
  | returns (prev : Bool) (hf : f = .installQueueAndCall prev []) (hq : t.queue = [])
      (ht : t' = { t with active := prev, stack := fs })

omit [DecidableEq H] in
theorem nestled_nil : Nestled ([] : List (Frame H)) := fun _ _ hm => by cases hm

omit [DecidableEq H] in
/-- A frame that is not `install_queue_and_call` comes on top. -/
theorem Nestled.cons {gs : List (Frame H)} {g : Frame H} (hgs : Nestled gs)
    (hg : ∀ prev hs, g = .installQueueAndCall prev hs → prev = true) : Nestled (g :: gs) := by
  intro prev hs hm
  rcases List.mem_cons.mp hm with hm | hm
  · exact hg prev hs hm.symm
  · exact hgs prev hs hm

section Steps

variable {t t' : Thread H} {f : Frame H} {fs : List (Frame H)}

omit [DecidableEq H] in
/-- The frame on top goes on. -/
theorem above_go (ha : t.active = true) (hst : t.stack = f :: fs) (h : t.go = some t') :
    Above t t' f fs := by
  simp only [Thread.go, hst] at h
  split at h
  · next prev h' hs _ heq =>
    cases heq
    rw [← Option.some.inj h]
    exact .calls prev h' hs rfl rfl ha
  · next prev _ heq =>
    cases heq
    split at h
    · next h' q hq =>
      rw [← Option.some.inj h]
      exact .keeps [.coroutine h'] (nestled_nil.cons (by simp)) (by simp [Thread.run]) ha
    · next hq => exact .returns prev rfl hq (Option.some.inj h).symm
  · next heq =>
    cases heq
    rw [← Option.some.inj h]
    exact .drops [] (by simp) nestled_nil rfl ha
  · next heq =>
    cases heq
    rw [← Option.some.inj h]
    exact .drops [] (by simp) nestled_nil rfl ha
  · next out _ heq =>
    cases heq
    rw [← Option.some.inj h]
    exact .drops [.coroutine out] (by simp) (nestled_nil.cons (by simp)) rfl ha
  · next h' q _ heq =>
    cases heq
    rw [← Option.some.inj h]
    rw [Thread.resume_of_active (by exact ha)]
    exact .drops [.stop q] (by simp) (nestled_nil.cons (by simp)) rfl ha
  · next q _ heq =>
    cases heq
    rw [← Option.some.inj h]
    exact .drops [.stop q] (by simp) (nestled_nil.cons (by simp)) rfl ha
  · next q _ heq =>
    cases heq
    rw [← Option.some.inj h]
    exact .drops [.function, .stop q] (by simp) ((nestled_nil.cons (by simp)).cons (by simp)) rfl ha
  · next heq =>
    cases heq
    rw [← Option.some.inj h]
    exact .drops [] (by simp) nestled_nil rfl ha
  · next h' _ heq =>
    cases heq
    rw [← Option.some.inj h]
    exact .drops [.coroutine h'] (by simp) (nestled_nil.cons (by simp)) rfl ha
  · next hs _ heq =>
    cases heq
    rw [← Option.some.inj h]
    rw [Thread.suspendNow_of_active (by exact ha)]
    exact .drops [] (by simp) nestled_nil rfl ha
  · cases h

/-- A step that leaves the queue to `coro_queue`. -/
theorem above_queued (ha : t.active = true) (hst : t.stack = f :: fs) (h : Queued t t') :
    Above t t' f fs := by
  have hact : t.isActive = true := ha
  -- a frame comes on top
  have hpush : ∀ g : Frame H, (∀ prev hs, g ≠ .installQueueAndCall prev hs) →
      Above t { t with stack := g :: t.stack } f fs := fun g hg =>
    .keeps [g] (nestled_nil.cons fun prev hs h => absurd h (hg prev hs)) (by simp [hst]) ha
  have hcoroutine : ∀ (h : H) (fs' : List (Frame H)), t.stack = .coroutine h :: fs' →
      f = .coroutine h ∧ fs' = fs := by
    intro h fs' hst'
    rw [hst] at hst'
    cases hst'
    exact ⟨rfl, rfl⟩
  cases h with
  | same => exact .keeps [] nestled_nil hst ha
  | resume h =>
      rw [Thread.resume_of_active hact]
      exact .keeps [] nestled_nil hst ha
  | suspendNow hs =>
      rw [Thread.suspendNow_of_active hact]
      exact .keeps [] nestled_nil hst ha
  | start h =>
      simp only [Thread.start, hact, if_true]
      exact hpush (.coroutine h) (by simp)
  | installQueueAndCall =>
      refine .keeps [.function, .installQueueAndCall t.active []] ?_ ?_ rfl
      · refine (nestled_nil.cons fun prev hs h => ?_).cons (by simp)
        cases h
        exact ha
      · simp [Thread.call, Thread.installQueueAndCall, hst]
  | createSuspendPoint =>
      refine .keeps [.function, .createSuspendPoint t.queue.length] ?_ ?_ ?_
      · exact (nestled_nil.cons (by simp)).cons (by simp)
      · simp [Thread.createSuspendPoint, hact, hst]
      · simp [Thread.createSuspendPoint, hact, ha]
  | call => exact hpush .function (by simp)
  | worker => exact hpush .worker (by simp)
  | stop q => exact hpush (.stop q) (by simp)
  | newThread _ h =>
      rw [hst] at h
      cases h
  | suspend h fs' hst' =>
      obtain ⟨rfl, rfl⟩ := hcoroutine h fs' hst'
      exact .drops [] (by simp) nestled_nil rfl ha
  | transfer h h' fs' hst' =>
      obtain ⟨rfl, rfl⟩ := hcoroutine h fs' hst'
      exact .drops [.coroutine h'] (by simp) (nestled_nil.cons (by simp)) rfl ha
  | await h fs' hs hst' =>
      obtain ⟨rfl, rfl⟩ := hcoroutine h fs' hst'
      unfold Thread.awaitSuspend
      split
      · exact .keeps [] nestled_nil hst ha
      · next out _ =>
        simp only [hact, if_true]
        exact .drops [.coroutine out] (by simp) (nestled_nil.cons (by simp)) rfl ha
  | pause h fs' t' hst' h' =>
      obtain ⟨rfl, rfl⟩ := hcoroutine h fs' hst'
      simp only [Thread.pause, hact, if_true] at h'
      split at h'
      · cases h'
      · next next _ _ =>
        rw [← Option.some.inj h']
        exact .drops [.coroutine next] (by simp) (nestled_nil.cons (by simp)) rfl ha
  | popAndDestroy h fs' sp hst' =>
      obtain ⟨rfl, rfl⟩ := hcoroutine h fs' hst'
      unfold Thread.popAndDestroy
      split
      · exact .drops [] (by simp) nestled_nil rfl ha
      · next out _ =>
        rw [Thread.suspendNow_of_active (by exact ha)]
        exact .drops [.transfer out] (by simp) (nestled_nil.cons (by simp)) rfl ha
  | ret fs' hst' =>
      rw [hst] at hst'
      cases hst'
      exact .drops [] (by simp) nestled_nil rfl ha
  | leave fs' hst' =>
      rw [hst] at hst'
      cases hst'
      exact .drops [] (by simp) nestled_nil rfl ha
  | go _ h' _ => exact above_go ha hst h'

/-- Any step of the thread. -/
theorem above_effect {good : Prop} (ha : t.active = true) (hst : t.stack = f :: fs)
    (h : Effect good t t') : Above t t' f fs := by
  cases h with
  | queued _ _ h => exact above_queued ha hst h
  | access g _ =>
      refine .keeps [.coroutine g, .access] ((nestled_nil.cons (by simp)).cons (by simp)) ?_ ha
      simp [Thread.nextSync, Thread.run, hst]
  | parallel h fs' hst' _ =>
      rw [hst] at hst'
      cases hst'
      exact .drops [.coroutine h] (by simp) (nestled_nil.cons (by simp)) rfl ha

end Steps

/-! ## The balance of the queue -/

section Balance

variable {s s' : Sys H} {i : Nat} {a : Action H}

omit [DecidableEq H] in
theorem setThread_self (t : Thread H) : (s.setThread i t).thread i = t := Function.update_self ..

omit [DecidableEq H] in
theorem setThread_of_ne {j : Nat} (h : i ≠ j) (t : Thread H) :
    (s.setThread j t).thread i = s.thread i := Function.update_of_ne h ..

omit [DecidableEq H] in
/-- A new thread is not one that has something to do. -/
theorem newThread_other {j : Nat} {f : Frame H} (hst : (s.thread i).stack ≠ [])
    (h : s.newThread j f = some s') : s'.thread i = s.thread i := by
  obtain ⟨hj, h⟩ := Option.ite_none_right_eq_some.mp h
  rw [← Option.some.inj h]
  refine setThread_of_ne (fun hij => hst ?_) _
  rw [hij]
  exact hj

omit [DecidableEq H] in
/-- A call changes its own thread, and one that starts. -/
theorem callStep_other {j : Nat} {c : Call H} (hst : (s.thread i).stack ≠ []) (hne : i ≠ j)
    (h : s.callStep j c = some s') : s'.thread i = s.thread i := by
  cases c with
  | parallel k h' => exact newThread_other hst h
  | newThread k pool => exact newThread_other hst h
  | parallelResume k hs =>
      simp only [Sys.callStep] at h
      split at h
      · rw [← Option.some.inj h]
      · exact newThread_other hst h
  | poolResume hs => rw [← Option.some.inj h]
  | runDetached => rw [← Option.some.inj h]
  | stop =>
      rw [← Option.some.inj h]
      exact setThread_of_ne hne _
  | _ =>
      rw [← Option.some.inj h]
      exact setThread_of_ne hne _

/-- A step changes its own thread, and one that starts. -/
theorem step_other (hst : (s.thread i).stack ≠ []) (hne : a.thread ≠ i)
    (h : s.step a = some s') : s'.thread i = s.thread i := by
  have hset : ∀ j t, a.thread = j → (s.setThread j t).thread i = s.thread i :=
    fun j t hj => setThread_of_ne (fun hij => hne (hj.trans hij.symm)) t
  cases a with
  | call j c =>
      simp only [Sys.step] at h
      split at h
      · exact callStep_other hst (Ne.symm hne) h
      · exact callStep_other hst (Ne.symm hne) h
      · cases h
  | suspend j x =>
      simp only [Sys.step] at h
      split at h
      · cases x with
        | pause =>
            obtain ⟨t, -, rfl⟩ := Option.map_eq_some_iff.mp h
            exact hset j _ rfl
        | _ =>
            rw [← Option.some.inj h]
            exact hset j _ rfl
      · cases h
  | ret j =>
      simp only [Sys.step] at h
      split at h
      · rw [← Option.some.inj h]
        exact hset j _ rfl
      · cases h
  | go j =>
      obtain ⟨t, -, rfl⟩ := Option.map_eq_some_iff.mp h
      exact hset j t rfl
  | work j =>
      simp only [Sys.step] at h
      split at h
      · rw [← Option.some.inj h]
        exact hset j _ rfl
      · rw [← Option.some.inj h]
        exact hset j _ rfl
      · rw [← Option.some.inj h]
        exact hset j _ rfl
      · cases h
  | leave j =>
      simp only [Sys.step] at h
      split at h
      · rw [← Option.some.inj h]
        exact hset j _ rfl
      · cases h

omit [DecidableEq H] in
theorem pushes_of_active {t : Thread H} (ha : t.isActive = true) (hs : List H) :
    t.pushes hs = hs := if_pos ha

/-- What a call puts into the queue. -/
theorem callStep_balance {c : Call H} (ha : (s.thread i).isActive = true)
    (hst : (s.thread i).stack ≠ []) (h : s.callStep i c = some s') :
    (s.thread i).queue ++ (s.thread i).made s.tasks (.call i c) = (s'.thread i).queue := by
  -- a call that does not touch the queue
  have hquiet : (s.thread i).made s.tasks (.call i c) = [] →
      (s'.thread i).queue = (s.thread i).queue →
      (s.thread i).queue ++ (s.thread i).made s.tasks (.call i c) = (s'.thread i).queue := by
    intro hnone hq
    rw [hnone, hq, List.append_nil]
  -- a call that puts handles into it
  have hpush : ∀ hs, (s.thread i).made s.tasks (.call i c) = (s.thread i).pushes hs →
      s'.thread i = { s.thread i with queue := (s.thread i).queue ++ hs } →
      (s.thread i).queue ++ (s.thread i).made s.tasks (.call i c) = (s'.thread i).queue := by
    intro hs hmade ht
    rw [hmade, pushes_of_active ha, ht]
  cases c with
  | parallel k h' => exact hquiet rfl (by rw [newThread_other hst h])
  | newThread k pool => exact hquiet rfl (by rw [newThread_other hst h])
  | parallelResume k hs =>
      simp only [Sys.callStep] at h
      split at h
      · exact hquiet rfl (by rw [← Option.some.inj h])
      · exact hquiet rfl (by rw [newThread_other hst h])
  | resume h' =>
      refine hpush [h'] rfl ?_
      rw [← Option.some.inj h, setThread_self, Thread.resume_of_active ha]
  | detach h' =>
      refine hpush [h'] rfl ?_
      rw [← Option.some.inj h, setThread_self, Thread.suspendNow_of_active ha, Thread.detach]
  | suspendNow hs =>
      refine hpush hs rfl ?_
      rw [← Option.some.inj h, setThread_self, Thread.suspendNow_of_active ha]
  | start h' =>
      refine hquiet rfl ?_
      rw [← Option.some.inj h, setThread_self, Thread.start, if_pos ha]
      rfl
  | createSuspendPoint =>
      refine hquiet rfl ?_
      rw [← Option.some.inj h, setThread_self, Thread.createSuspendPoint, if_pos ha]
  | poolResume hs => exact hquiet rfl (by rw [← Option.some.inj h])
  | runDetached => exact hquiet rfl (by rw [← Option.some.inj h])
  | stop =>
      refine hquiet rfl ?_
      rw [← Option.some.inj h]
      simp only [Sys.setThread, Function.update_self]
  | worker => exact hquiet rfl (by rw [← Option.some.inj h, setThread_self])
  | installQueueAndCall | nextSync | nextFuture | subscribe =>
      refine hquiet rfl ?_
      rw [← Option.some.inj h, setThread_self]
      rfl

/-- What the suspension of a coroutine puts into the queue, and what it takes from it. -/
theorem suspendStep_balance {x : Suspend H} {h' : H} {fs : List (Frame H)}
    (ha : (s.thread i).isActive = true) (hst : (s.thread i).stack = .coroutine h' :: fs)
    (h : s.suspendStep i h' fs x = some s') :
    (s.thread i).queue ++ (s.thread i).made s.tasks (.suspend i x) =
      (s.thread i).resumed (.suspend i x) ++ (s'.thread i).queue := by
  cases x with
  | await hs =>
      rw [← Option.some.inj h, setThread_self]
      simp only [Thread.made, hst, Thread.resumed, List.nil_append, Thread.awaitSuspend]
      cases hlast : hs.getLast? with
      | none => rw [if_pos (List.getLast?_eq_none_iff.mp hlast), List.append_nil]
      | some out =>
          have hne : hs ≠ [] := fun hnil => by rw [hnil] at hlast; cases hlast
          simp only [if_neg hne, if_pos ha, List.append_assoc]
  | pause =>
      obtain ⟨t, ht, rfl⟩ := Option.map_eq_some_iff.mp h
      rw [setThread_self]
      simp only [Thread.pause, ha, if_true] at ht
      simp only [Thread.made, hst, Thread.resumed, ha, if_true, pushes_of_active ha]
      split at ht
      · cases ht
      · next next q hq =>
        rw [← Option.some.inj ht, hq]
        rfl
  | popAndDestroy sp =>
      rw [← Option.some.inj h, setThread_self]
      simp only [Thread.made, hst, Thread.resumed, List.nil_append, Thread.popAndDestroy,
        pushes_of_active ha]
      split
      · next hnone =>
        rw [List.getLast?_eq_none_iff.mp hnone, List.dropLast_nil, List.append_nil]
      · rw [Thread.suspendNow_of_active (by exact ha)]
  | suspend | transfer | pool =>
      rw [← Option.some.inj h]
      simp [Thread.made, hst, Thread.resumed, Sys.setThread, Thread.run]

/-- What a frame of the library puts into the queue, and what it takes from it. -/
theorem go_balance {t t' : Thread H} {tasks : List (Task H)} (ha : t.isActive = true)
    (h : t.go = some t') :
    t.queue ++ t.made tasks (.go i) = t.resumed (.go i) ++ t'.queue ++ t.withdrawn (.go i) := by
  simp only [Thread.go] at h
  split at h
  · next hst =>
    rw [← Option.some.inj h]
    simp [Thread.made, Thread.resumed, Thread.withdrawn, hst, Thread.run]
  · next hst =>
    split at h
    · next hq =>
      rw [← Option.some.inj h]
      simp [Thread.made, Thread.resumed, Thread.withdrawn, hst, hq, Thread.run]
    · next hq =>
      rw [← Option.some.inj h]
      simp [Thread.made, Thread.resumed, Thread.withdrawn, hst, hq]
  · next sz _ hst =>
    rw [← Option.some.inj h]
    simp [Thread.made, Thread.resumed, Thread.withdrawn, hst]
  · next hst =>
    rw [← Option.some.inj h]
    simp [Thread.made, Thread.resumed, Thread.withdrawn, hst]
  · next hst =>
    rw [← Option.some.inj h]
    simp [Thread.made, Thread.resumed, Thread.withdrawn, hst, Thread.run]
  · next hst =>
    rw [← Option.some.inj h, Thread.resume_of_active (by exact ha)]
    simp [Thread.made, Thread.resumed, Thread.withdrawn, hst, pushes_of_active ha]
  · next hst =>
    rw [← Option.some.inj h]
    simp [Thread.made, Thread.resumed, Thread.withdrawn, hst]
  · next hst =>
    rw [← Option.some.inj h]
    simp [Thread.made, Thread.resumed, Thread.withdrawn, hst, Thread.call]
  · next hst =>
    rw [← Option.some.inj h]
    simp [Thread.made, Thread.resumed, Thread.withdrawn, hst]
  · next hst =>
    rw [← Option.some.inj h]
    simp [Thread.made, Thread.resumed, Thread.withdrawn, hst, Thread.run]
  · next hst =>
    rw [← Option.some.inj h, Thread.suspendNow_of_active (by exact ha)]
    simp [Thread.made, Thread.resumed, Thread.withdrawn, hst, pushes_of_active ha]
  · cases h

/-- **The balance of a step**: what was in the queue and what is put into it is what is
resumed from it, what is in it then, and what is taken back. -/
theorem step_balance (ha : (s.thread i).isActive = true) (hst : (s.thread i).stack ≠ [])
    (hi : a.thread = i) (h : s.step a = some s') :
    (s.thread i).queue ++ (s.thread i).made s.tasks a =
      (s.thread i).resumed a ++ (s'.thread i).queue ++ (s.thread i).withdrawn a := by
  subst hi
  cases a with
  | call i c =>
      have hc : s.callStep i c = some s' := by
        simp only [Sys.step] at h
        split at h
        · exact h
        · exact h
        · cases h
      exact (callStep_balance ha hst hc).trans (List.append_nil _).symm
  | suspend i x =>
      simp only [Sys.step] at h
      split at h
      · next hst' => exact (suspendStep_balance ha hst' h).trans (List.append_nil _).symm
      · cases h
  | go i =>
      obtain ⟨t, ht, rfl⟩ := Option.map_eq_some_iff.mp h
      simp only [Action.thread, setThread_self]
      exact go_balance ha ht
  | ret i =>
      simp only [Sys.step] at h
      split at h
      · rw [← Option.some.inj h]
        simp [Thread.made, Thread.resumed, Thread.withdrawn, Action.thread, setThread_self]
      · cases h
  | work i =>
      simp only [Sys.step] at h
      split at h
      · next hst' htasks =>
        rw [← Option.some.inj h]
        simp only [Action.thread] at ha
        simp [Thread.made, Thread.resumed, Thread.withdrawn, Action.thread, Sys.setThread, hst',
          htasks, Thread.resume_of_active ha, pushes_of_active ha]
      · next hst' htasks =>
        rw [← Option.some.inj h]
        simp only [Action.thread] at ha
        simp [Thread.made, Thread.resumed, Thread.withdrawn, Action.thread, Sys.setThread, hst',
          htasks, Thread.resume_of_active ha, pushes_of_active ha]
      · next hst' htasks =>
        rw [← Option.some.inj h]
        simp [Thread.made, Thread.resumed, Thread.withdrawn, Action.thread, Sys.setThread, hst',
          htasks, Thread.call]
      · cases h
  | leave i =>
      simp only [Sys.step] at h
      split at h
      · rw [← Option.some.inj h]
        simp [Thread.made, Thread.resumed, Thread.withdrawn, Action.thread, setThread_self]
      · cases h

end Balance

/-! ## The call -/

/-- Thread `i` is in the call that it made with `q` in its queue and with the stack `st`. -/
structure InCall (q : List H) (st : List (Frame H)) (i : Nat) (n : Nested H) : Prop where
  active : (n.sys.thread i).active = true
  stack : ∃ gs hs, (n.sys.thread i).stack = gs ++ .installQueueAndCall true hs :: st ∧ Nestled gs
  balance : (q ++ n.made).Perm (n.resumed ++ n.withdrawn ++ (n.sys.thread i).queue)

/-- Thread `i` has returned from the call. -/
structure Returned (q : List H) (st : List (Frame H)) (i : Nat) (n : Nested H) : Prop where
  active : (n.sys.thread i).active = true
  stack : (n.sys.thread i).stack = st
  empty : (n.sys.thread i).queue = []
  balance : (q ++ n.made).Perm (n.resumed ++ n.withdrawn)

section Runs

variable {q : List H} {st : List (Frame H)} {i : Nat} {n n' : Nested H} {a : Action H}

omit [DecidableEq H] in
/-- What a step does to the thread: something above the frame of the call, or its return. -/
theorem thread_step {t' : Thread H} (hc : InCall q st i n)
    (h : ∀ f fs, (n.sys.thread i).stack = f :: fs → Above (n.sys.thread i) t' f fs) :
    (t'.active = true ∧ ∃ gs hs, t'.stack = gs ++ .installQueueAndCall true hs :: st ∧ Nestled gs) ∨
      t'.active = true ∧ t'.stack = st ∧ (n.sys.thread i).queue = [] ∧ t'.queue = [] := by
  obtain ⟨gs, hs, hst, hgs⟩ := hc.stack
  cases gs with
  | nil =>
      cases h _ _ hst with
      | keeps gs hgs' hst' ha => exact .inl ⟨ha, gs, hs, hst', hgs'⟩
      | drops gs hf => exact absurd rfl (hf _ _)
      | calls prev h' hs' hf hst' ha =>
          cases hf
          exact .inl ⟨ha, [.coroutine h'], hs', hst', nestled_nil.cons (by simp)⟩
      | returns prev hf hq ht =>
          cases hf
          rw [ht]
          exact .inr ⟨rfl, rfl, hq, hq⟩
  | cons f gs =>
      have hrest : Nestled gs := fun prev hs hm => hgs prev hs (List.mem_cons_of_mem f hm)
      have happend : ∀ gs', Nestled gs' → Nestled (gs' ++ gs) := by
        intro gs' hgs' prev hs hm
        rcases List.mem_append.mp hm with hm | hm
        · exact hgs' prev hs hm
        · exact hrest prev hs hm
      left
      cases h _ _ hst with
      | keeps gs' hgs' hst' ha =>
          refine ⟨ha, gs' ++ f :: gs, hs, by simpa using hst', ?_⟩
          intro prev hs' hm
          rcases List.mem_append.mp hm with hm | hm
          · exact hgs' prev hs' hm
          · exact hgs prev hs' hm
      | drops gs' _ hgs' hst' ha =>
          exact ⟨ha, gs' ++ gs, hs, by simpa using hst', happend gs' hgs'⟩
      | calls prev h' hs' hf hst' ha =>
          refine ⟨ha, .coroutine h' :: .installQueueAndCall prev hs' :: gs, hs, hst', ?_⟩
          subst hf
          refine (hrest.cons fun prev' hs'' heq => ?_).cons (by simp)
          cases heq
          exact hgs prev _ List.mem_cons_self
      | returns prev hf _ ht =>
          rw [ht]
          exact ⟨hgs prev [] (hf ▸ List.mem_cons_self), gs, hs, rfl, hrest⟩

/-- What goes through the queue in a step is added to what went through it before. -/
theorem balance_append {m m' r r' w w' q₁ q₂ : List H} (h : (q ++ m).Perm (r ++ w ++ q₁))
    (h' : q₁ ++ m' = r' ++ q₂ ++ w') : (q ++ (m ++ m')).Perm (r ++ r' ++ (w ++ w') ++ q₂) := by
  refine List.perm_iff_count.mpr fun x => ?_
  have hx := h.count_eq x
  have hx' := congrArg (List.count x) h'
  simp only [List.count_append] at hx hx' ⊢
  omega

/-- **Step lemma.** -/
theorem InCall.step (hc : InCall q st i n) (h : n.step i a = some n') :
    InCall q st i n' ∨ Returned q st i n' := by
  obtain ⟨s', hs', heq⟩ := Option.map_eq_some_iff.mp h
  have hne : (n.sys.thread i).stack ≠ [] := by
    obtain ⟨gs, hs, hst, -⟩ := hc.stack
    rw [hst]
    simp
  by_cases hi : a.thread = i
  · have hbal := step_balance hc.active hne hi hs'
    have habove : ∀ f fs, (n.sys.thread i).stack = f :: fs →
        Above (n.sys.thread i) (s'.thread i) f fs := by
      intro f fs hst
      obtain ⟨j, t', hthread, heff⟩ := step_effect hs'
      by_cases hj : i = j
      · subst hj
        rw [hthread, Function.update_self]
        exact above_effect hc.active hst heff
      · rw [hthread, Function.update_of_ne hj]
        exact .keeps [] nestled_nil hst hc.active
    rw [if_pos hi] at heq
    subst heq
    have hperm := balance_append hc.balance hbal
    rcases thread_step hc habove with ⟨ha, hst⟩ | ⟨ha, hst, -, hq⟩
    · exact .inl ⟨ha, hst, hperm⟩
    · rw [hq, List.append_nil] at hperm
      exact .inr ⟨ha, hst, hq, hperm⟩
  · rw [if_neg hi] at heq
    subst heq
    have hsame : s'.thread i = n.sys.thread i := step_other hne hi hs'
    left
    exact ⟨hsame ▸ hc.active, hsame ▸ hc.stack, hsame ▸ hc.balance⟩

/-- The counts have no part in what the threads do. -/
theorem sys_step (i : Nat) (n : Nested H) (a : Action H) :
    (n.step i a).map Nested.sys = n.sys.step a := by
  rw [Nested.step]
  cases n.sys.step a with
  | none => rfl
  | some sys =>
      simp only [Option.map_some]
      split <;> rfl

/-- **Run lemma**: the thread is in the call until it returns. -/
theorem InCall.exec (hc : InCall q st i n) {as : List (Action H)}
    (hret : Returns i st n.sys as) : Returned q st i (Run.exec (Nested.step i) n as) := by
  induction as generalizing n with
  | nil =>
      obtain ⟨gs, hs, hst, -⟩ := hc.stack
      have hlen := congrArg List.length (hst.symm.trans hret.2)
      simp only [List.length_append, List.length_cons] at hlen
      omega
  | cons a as ih =>
      have hsys : (Run.tryStep (Nested.step i) n a).sys = Run.tryStep Sys.step n.sys a := by
        rw [Run.tryStep, Run.tryStep, ← sys_step i]
        cases n.step i a <;> rfl
      have hret' : Returns i st (Run.tryStep (Nested.step i) n a).sys as := by
        rw [hsys]
        exact ⟨fun m hm => hret.1 (m + 1) (Nat.succ_lt_succ hm), hret.2⟩
      rw [Run.exec_cons]
      cases h : n.step i a with
      | none =>
          rw [Run.tryStep_of_none _ _ h] at hret' ⊢
          exact ih hc hret'
      | some n' =>
          rw [Run.tryStep_of_some _ _ h] at hret' ⊢
          rcases hc.step h with hc' | hr
          · exact ih hc' hret'
          · -- the call is over, so this was the last action
            cases as with
            | nil => exact hr
            | cons b bs =>
                have hlen := hret'.1 0 (Nat.succ_pos _)
                rw [List.take_zero, Run.exec_nil, hr.stack] at hlen
                exact absurd hlen (Nat.lt_irrefl _)

end Runs

omit [DecidableEq H] in
/-- The state after a call is entered. -/
theorem inCall_enter {s : Sys H} {i : Nat} (e : Entry H) (ha : (s.thread i).isActive = true) :
    InCall (s.thread i).queue (s.thread i).stack i { sys := s.enter i e } := by
  have hact : (s.thread i).active = true := ha
  cases e with
  | call =>
      refine ⟨?_, ⟨[.function], [], ?_, nestled_nil.cons (by simp)⟩, ?_⟩
      · simp [Sys.enter, setThread_self, Thread.call, Thread.installQueueAndCall]
      · simp [Sys.enter, setThread_self, Thread.call, Thread.installQueueAndCall, hact]
      · simp [Sys.enter, setThread_self, Thread.call, Thread.installQueueAndCall]
  | resume h =>
      refine ⟨?_, ⟨[], [h], ?_, nestled_nil⟩, ?_⟩
      · simp [Sys.enter, setThread_self, Thread.installQueueAndResume, Thread.installQueueAndCall]
      · simp [Sys.enter, setThread_self, Thread.installQueueAndResume, Thread.installQueueAndCall,
          hact]
      · simp [Sys.enter, setThread_self, Thread.installQueueAndResume, Thread.installQueueAndCall]

/-- **Nested calls**: a call of `install_queue_and_call` or `install_queue_and_resume` with the
queue installed leaves what was enqueued before alone, and resumes what was made ready in it,
exactly when nothing was enqueued before. -/
theorem separate_iff {s : Sys H} {i : Nat} (e : Entry H) (ha : (s.thread i).isActive = true)
    {as : List (Action H)} (hret : Returns i (s.thread i).stack (s.enter i e) as) :
    Separate (s.thread i).queue i (Run.exec (Nested.step i) { sys := s.enter i e } as) ↔
      (s.thread i).queue = [] := by
  have hr := (inCall_enter e ha).exec hret
  constructor
  · intro hsep
    rw [← hsep.kept, hr.empty]
  · intro hq
    have hbal := hr.balance
    rw [hq, List.nil_append] at hbal
    exact ⟨hr.active, hr.empty.trans hq.symm, hbal.symm⟩

/-- Coroutine 1 runs and nothing is enqueued. -/
def emptySys : Sys Nat := Run.exec Sys.step Sys.start [.call 0 (.start 1), .go 0]

/-- Coroutine 1 runs and coroutine 2 is enqueued. -/
def waitingSys : Sys Nat :=
  Run.exec Sys.step Sys.start [.call 0 (.start 1), .go 0, .call 0 (.resume 2)]

/-- Coroutine 2 is made ready in a nested call. -/
theorem separate_iff_empty :
    Separate (emptySys.thread 0).queue 0 (Run.exec (Nested.step 0) { sys := emptySys.enter 0 .call }
      [.call 0 (.resume 2), .ret 0, .go 0, .suspend 0 .suspend, .go 0]) ↔
    (emptySys.thread 0).queue = [] :=
  separate_iff .call (by decide) (by decide)

/-- Coroutine 2 is resumed in a nested call that does nothing. -/
theorem separate_fails : ¬ ∀ (s : Sys Nat) (i : Nat) (e : Entry Nat) (as : List (Action Nat)),
    (s.thread i).isActive = true → Returns i (s.thread i).stack (s.enter i e) as →
      Separate (s.thread i).queue i (Run.exec (Nested.step i) { sys := s.enter i e } as) := by
  intro hall
  have hsep := hall waitingSys 0 .call [.ret 0, .go 0, .suspend 0 .suspend, .go 0] (by decide)
    (by decide)
  exact absurd hsep.kept (by decide)

end Nested

end CoroQueue

end Cocls
