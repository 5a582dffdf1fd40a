import Cocls.Mutex.Ownership

/-!
# Cocls.Mutex.Held

A mutex is locked as long as somebody owns it.
-/

namespace Cocls

namespace Mutex

namespace Lock

variable {l : Lock} {ws : List Nat} {p : Nat}

/-- The waits `ws` are in line, and the history agrees. -/
structure Represents (l : Lock) (ws : List Nat) : Prop where
  history : l.subscribed = l.resumed ++ ws
  nodup : ws.Nodup
  mutex : (Unlocked l.mx ∧ ws = []) ∨ Locked l.mx (ws.map .object)

theorem represents_init : Represents {} [] where
  history := rfl
  nodup := List.nodup_nil
  mutex := .inl ⟨⟨rfl, rfl⟩, rfl⟩

theorem Represents.drop (h : l.Represents ws) : l.subscribed.drop l.resumed.length = ws := by
  rw [h.history, List.drop_left]

theorem Represents.unlocked (h : l.Represents ws) (hr : l.mx.requests = none) :
    Unlocked l.mx ∧ ws = [] := by
  obtain hu | hl := h.mutex
  · exact hu
  · exact absurd hr hl.requests_ne_none

theorem Represents.locked (h : l.Represents ws) (hr : l.mx.requests ≠ none) :
    Locked l.mx (ws.map .object) := by
  obtain ⟨hu, -⟩ | hl := h.mutex
  · exact absurd hu.requests_eq hr
  · exact hl

/-- A mutex that is not locked gets locked. -/
theorem Represents.ready (h : l.Represents ws) (hr : l.mx.requests = none) :
    ∃ l', l.ready = (l', true) ∧ l'.Represents ws ∧ l'.mx.requests ≠ none := by
  obtain ⟨hu, rfl⟩ := h.unlocked hr
  obtain ⟨mx, hrun, hl⟩ := ready_of_unlocked hu
  exact ⟨{ l with mx := mx }, by simp only [Lock.ready, hrun], ⟨h.history, h.nodup, .inr hl⟩,
    hl.requests_ne_none⟩

theorem Represents.ready_locked (h : l.Represents ws) (hr : l.mx.requests ≠ none) :
    l.ready = (l, false) := by
  simp only [Lock.ready, ready_of_locked (h.locked hr)]

theorem Represents.subscribe (h : l.Represents ws) (hr : l.mx.requests = none) :
    ∃ l', l.subscribe p = some (l', false) ∧ l'.Represents ws ∧ l'.mx.requests ≠ none := by
  obtain ⟨hu, rfl⟩ := h.unlocked hr
  obtain ⟨mx, hrun, hl⟩ := subscribe_of_unlocked (.object p) l.subscribed.length hu
  refine ⟨{ l with mx := mx }, ?_, ⟨h.history, h.nodup, .inr hl⟩, hl.requests_ne_none⟩
  simp only [Lock.subscribe, fuel, hrun, Option.map_some]
  rfl

theorem Represents.subscribe_locked (h : l.Represents ws) (hr : l.mx.requests ≠ none)
    (hp : p ∉ ws) : ∃ l', l.subscribe p = some (l', true) ∧ l'.Represents (ws ++ [p]) ∧
      l'.mx.requests ≠ none := by
  have haw : Awaiter.object p ∉ ws.map Awaiter.object := by simpa using hp
  obtain ⟨mx, hrun, hl⟩ :=
    subscribe_of_locked l.subscribed.length (h.locked hr) haw (by simp [doorman])
  refine ⟨{ l with mx := mx, subscribed := l.subscribed ++ [p] }, ?_, ⟨?_, ?_, .inr ?_⟩,
    hl.requests_ne_none⟩
  · simp only [Lock.subscribe, fuel, hrun, Option.map_some]
    rfl
  · simp only [h.history, List.append_assoc]
  · exact List.nodup_append'.mpr ⟨h.nodup, List.nodup_singleton p, by simpa using hp⟩
  · simpa using hl

/-- A mutex that nobody waits for is unlocked. -/
theorem Represents.unlock (h : l.Represents []) (hr : l.mx.requests ≠ none) :
    ∃ l', l.unlock = some (l', none) ∧ l'.Represents [] ∧ l'.mx.requests = none := by
  obtain ⟨mx, hrun, hu⟩ := unlock_of_nil l.fuel (h.locked hr)
  refine ⟨{ l with mx := mx }, ?_, ⟨h.history, h.nodup, .inl ⟨hu, rfl⟩⟩, hu.requests_eq⟩
  simp only [Lock.unlock, hrun, Option.map_some]

/-- Else the first wait in line gets it. -/
theorem Represents.unlock_cons (h : l.Represents (p :: ws)) (hr : l.mx.requests ≠ none) :
    ∃ l', l.unlock = some (l', some p) ∧ l'.Represents ws ∧ l'.mx.requests ≠ none := by
  have hlock := h.locked hr
  rw [List.map_cons] at hlock
  have hfuel : (ws.map Awaiter.object).length + 1 < l.fuel := by
    have hlen := congrArg List.length h.history
    simp only [List.length_append, List.length_cons] at hlen
    simp only [List.length_map, fuel]
    omega
  obtain ⟨mx, hrun, hl⟩ := unlock_of_cons hfuel hlock
  refine ⟨{ l with mx := mx, resumed := l.resumed ++ [p] }, ?_, ⟨?_, h.nodup.of_cons, .inr hl⟩,
    hl.requests_ne_none⟩
  · simp only [Lock.unlock, hrun, Option.map_some]
  · simp only [h.history, List.append_assoc, List.cons_append, List.nil_append]

end Lock

namespace Ownerships

variable {s s' : Ownerships}

structure Inv (s : Ownerships) : Prop where
  returns : s.hung = false
  represents : ∀ m, (s.lock m).Represents (s.line m)
  owned : Owners.Owned s.Holds fun m => (s.lock m).mx.requests ≠ none
  balanced : ∀ m, s.acquired m =
    s.unlocked m + if (s.lock m).mx.requests = none then 0 else 1
  waiting : ∀ m p, p ∈ s.line m ↔ s.wait p = .waiting m
  bound : ∃ n, ∀ o, n ≤ o → s.ptr o = none

theorem inv_init : Inv {} where
  returns := rfl
  represents _ := Lock.represents_init
  owned := Owners.Owned.of_none (by simp) (by rintro (o | p) t h <;> simp [Holds] at h)
  balanced _ := rfl
  waiting _ _ := by simp [line]
  bound := ⟨0, fun _ _ => rfl⟩

/-- The mutex `m` gets to the state `l`, with the waits `ws` in line. -/
theorem line_setLock {m : Nat} {l : Lock} {ws : List Nat} (hl : l.Represents ws) (k : Nat) :
    (s.setLock m l).line k = if k = m then ws else s.line k := by
  simp only [line, setLock, Function.update_apply]
  split
  · exact hl.drop
  · rfl

namespace Inv

variable {m o o' p : Nat} {l : Lock}

/-- The numbers of new objects are bounded. -/
theorem bound_setPtr (hi : Inv s) (o : Nat) (p : Option (Option Nat)) :
    ∃ n, ∀ k, n ≤ k → (s.setPtr o p).ptr k = none := by
  obtain ⟨n, hn⟩ := hi.bound
  refine ⟨max n (o + 1), fun k hk => ?_⟩
  have hne : k ≠ o := by omega
  simp only [setPtr, Function.update_of_ne hne]
  exact hn k (by omega)

theorem setPtr_none (hi : Inv s) (ho : ∀ m, s.ptr o ≠ some (some m)) {r : Option (Option Nat)}
    (hr : ∀ m, r ≠ some (some m)) : Inv (s.setPtr o r) := by
  have hbound := hi.bound_setPtr o r
  obtain ⟨hreturns, hrep, howned, hbal, hwait, -⟩ := hi
  refine ⟨hreturns, hrep, howned.congr (fun x t => ?_) fun t => Iff.rfl, hbal, hwait, hbound⟩
  cases x
  · simp only [Holds, setPtr, Function.update_apply]
    grind
  · exact Iff.rfl

/-- A wait that is not in line and has no mutex. -/
theorem setWait (hi : Inv s) (hp : ∀ m, s.wait p ≠ .waiting m ∧ s.wait p ≠ .granted m)
    {w : WaitAt} (hw : ∀ m, w ≠ .waiting m ∧ w ≠ .granted m) : Inv (s.setWait p w) := by
  obtain ⟨hreturns, hrep, howned, hbal, hwait, hbound⟩ := hi
  refine ⟨hreturns, hrep, howned.congr (fun x t => ?_) fun t => Iff.rfl, hbal, fun m q => ?_,
    hbound⟩
  · cases x
    · exact Iff.rfl
    · simp only [Holds, Ownerships.setWait, Function.update_apply]
      grind
  · refine (hwait m q).trans ?_
    simp only [Ownerships.setWait, Function.update_apply]
    grind

/-- An object takes over what another one owned. -/
theorem move (hi : Inv s) {r : Option Nat} (ho' : s.ptr o' = some r)
    (ho : ∀ m, s.ptr o ≠ some (some m)) :
    Inv ((s.setPtr o' (some none)).setPtr o (some r)) := by
  cases r with
  | none => exact (hi.setPtr_none (by simp [ho']) (by simp)).setPtr_none (by
      simp only [setPtr, Function.update_apply]; grind) (by simp)
  | some m =>
      have hbound : ∃ n, ∀ k, n ≤ k →
          ((s.setPtr o' (some none)).setPtr o (some (some m))).ptr k = none := by
        obtain ⟨n, hn⟩ := hi.bound_setPtr o (some (some m))
        refine ⟨max n (o' + 1), fun k hk => ?_⟩
        have hne : k ≠ o' := by omega
        have hk' := hn k (by omega)
        simp only [setPtr, Function.update_apply, if_neg hne] at hk' ⊢
        exact hk'
      obtain ⟨hreturns, hrep, howned, hbal, hwait, -⟩ := hi
      refine ⟨hreturns, hrep, howned.move (p := some m) (y := .ownership o')
        (by simp only [Holds]; grind) (.ownership o) (fun x t => ?_) fun t => Iff.rfl, hbal, hwait,
        hbound⟩
      cases x <;> simp only [Holds, setPtr, Function.update_apply] <;> grind

/-- A wait that was resumed makes the object that it returns. -/
theorem awaitResume (hi : Inv s) {m : Nat} (hp : s.wait p = .granted m) (ho : s.ptr o = none) :
    Inv ((s.setWait p .done).setPtr o (some (some m))) := by
  have hbound := hi.bound_setPtr o (some (some m))
  obtain ⟨hreturns, hrep, howned, hbal, hwait, -⟩ := hi
  refine ⟨hreturns, hrep, howned.move (p := some m) (y := .wait p)
    (by simp only [Holds]; grind) (.ownership o) (fun x t => ?_) fun t => Iff.rfl, hbal,
    fun k q => ?_, hbound⟩
  · cases x <;> simp only [Holds, setPtr, Ownerships.setWait, Function.update_apply] <;> grind
  · refine (hwait k q).trans ?_
    simp only [setPtr, Ownerships.setWait, Function.update_apply]
    grind

/-- An object gets a mutex that was not locked. -/
theorem acquire (hi : Inv s) (hm : (s.lock m).mx.requests = none) (ho : s.ptr o = none)
    (hl : l.Represents (s.line m)) (hr : l.mx.requests ≠ none) :
    Inv (((s.setLock m l).setPtr o (some (some m))).acquire m) := by
  have hbound := hi.bound_setPtr o (some (some m))
  have hline := line_setLock (s := s) (m := m) hl
  obtain ⟨hreturns, hrep, howned, hbal, hwait, -⟩ := hi
  refine ⟨hreturns, fun k => ?_, howned.add (p := some m) (by grind) (.ownership o)
    (fun x t => ?_) fun t => ?_, fun k => ?_, fun k q => ?_, hbound⟩
  · show ((s.setLock m l).lock k).Represents ((s.setLock m l).line k)
    rw [hline]
    simp only [setLock, Function.update_apply]
    grind
  · cases x <;> simp only [Holds, setPtr, Ownerships.acquire, setLock, Function.update_apply] <;>
      grind
  · simp only [setPtr, Ownerships.acquire, setLock, Function.update_apply]
    grind
  · simp only [setPtr, Ownerships.acquire, setLock, Function.update_apply]
    grind
  · show q ∈ (s.setLock m l).line k ↔ _
    rw [hline]
    refine Iff.trans ?_ (hwait k q)
    grind

/-- A wait gets a mutex that was not locked. -/
theorem grant (hi : Inv s) (hm : (s.lock m).mx.requests = none)
    (hp : ∀ m, s.wait p ≠ .waiting m ∧ s.wait p ≠ .granted m)
    (hl : l.Represents (s.line m)) (hr : l.mx.requests ≠ none) :
    Inv (((s.setLock m l).setWait p (.granted m)).acquire m) := by
  have hline := line_setLock (s := s) (m := m) hl
  obtain ⟨hreturns, hrep, howned, hbal, hwait, hbound⟩ := hi
  refine ⟨hreturns, fun k => ?_, howned.add (p := some m) (by grind) (.wait p)
    (fun x t => ?_) fun t => ?_, fun k => ?_, fun k q => ?_, hbound⟩
  · show ((s.setLock m l).lock k).Represents ((s.setLock m l).line k)
    rw [hline]
    simp only [setLock, Function.update_apply]
    grind
  · cases x <;> simp only [Holds, Ownerships.setWait, Ownerships.acquire, setLock,
      Function.update_apply] <;> grind
  · simp only [Ownerships.setWait, Ownerships.acquire, setLock, Function.update_apply]
    grind
  · simp only [Ownerships.setWait, Ownerships.acquire, setLock, Function.update_apply]
    grind
  · show q ∈ (s.setLock m l).line k ↔ _
    rw [hline]
    simp only [Ownerships.setWait, Ownerships.acquire, setLock, Function.update_apply]
    grind

/-- A wait gets in line. -/
theorem enqueue (hi : Inv s) (hm : (s.lock m).mx.requests ≠ none)
    (hp : ∀ m, s.wait p ≠ .waiting m ∧ s.wait p ≠ .granted m)
    (hl : l.Represents (s.line m ++ [p])) (hr : l.mx.requests ≠ none) :
    Inv ((s.setLock m l).setWait p (.waiting m)) := by
  have hline := line_setLock (s := s) (m := m) hl
  obtain ⟨hreturns, hrep, howned, hbal, hwait, hbound⟩ := hi
  refine ⟨hreturns, fun k => ?_, howned.congr (fun x t => ?_) fun t => ?_, fun k => ?_,
    fun k q => ?_, hbound⟩
  · show ((s.setLock m l).lock k).Represents ((s.setLock m l).line k)
    rw [hline]
    simp only [setLock, Function.update_apply]
    grind
  · cases x <;> simp only [Holds, Ownerships.setWait, setLock, Function.update_apply]
    grind
  · simp only [Ownerships.setWait, setLock, Function.update_apply]
    grind
  · simp only [Ownerships.setWait, setLock, Function.update_apply]
    grind
  · show q ∈ (s.setLock m l).line k ↔ _
    rw [hline]
    simp only [Ownerships.setWait, setLock, Function.update_apply]
    grind

/-- An object gives up a mutex that nobody waits for. -/
theorem giveUp_nil (hi : Inv s) {r : Option (Option Nat)} (ho : s.ptr o = some (some m))
    (hr : ∀ m, r ≠ some (some m)) (hl : l.Represents []) (hw : s.line m = [])
    (hreq : l.mx.requests = none) :
    Inv ({ s.setLock m l with unlocked := Function.update s.unlocked m (s.unlocked m + 1) }.setPtr
      o r) := by
  have hbound := hi.bound_setPtr o r
  have hline := line_setLock (s := s) (m := m) hl
  have hlocked := hi.owned.only_open (.ownership o) m ho
  obtain ⟨hreturns, hrep, howned, hbal, hwait, -⟩ := hi
  refine ⟨hreturns, fun k => ?_, howned.close (p := some m) (y := .ownership o)
    (by simp only [Holds]; grind) (fun x t => ?_) fun t => ?_, fun k => ?_, fun k q => ?_, hbound⟩
  · show ((s.setLock m l).lock k).Represents ((s.setLock m l).line k)
    rw [hline]
    simp only [setLock, Function.update_apply]
    grind
  · cases x <;> simp only [Holds, setPtr, setLock, Function.update_apply] <;> grind
  · simp only [setPtr, setLock, Function.update_apply]
    grind
  · simp only [setPtr, setLock, Function.update_apply]
    grind
  · show q ∈ (s.setLock m l).line k ↔ _
    rw [hline]
    refine Iff.trans ?_ (hwait k q)
    grind

/-- An object gives up a mutex, and the first wait in line gets it. -/
theorem giveUp_cons (hi : Inv s) {r : Option (Option Nat)} {ws : List Nat}
    (ho : s.ptr o = some (some m)) (hr : ∀ m, r ≠ some (some m)) (hl : l.Represents ws)
    (hw : s.line m = p :: ws) (hreq : l.mx.requests ≠ none) :
    Inv (((({ s.setLock m l with unlocked := Function.update s.unlocked m (s.unlocked m + 1) } :
      Ownerships).setWait p (.granted m)).acquire m).setPtr o r) := by
  have hbound := hi.bound_setPtr o r
  have hline := line_setLock (s := s) (m := m) hl
  have hlocked := hi.owned.only_open (.ownership o) m ho
  have hnodup := (hi.represents m).nodup
  rw [hw] at hnodup
  have hpw : p ∉ ws := (List.nodup_cons.mp hnodup).1
  obtain ⟨hreturns, hrep, howned, hbal, hwait, -⟩ := hi
  have hp : s.wait p = .waiting m := (hwait m p).mp (by rw [hw]; exact List.mem_cons_self)
  refine ⟨hreturns, fun k => ?_, howned.move (p := some m) (y := .ownership o)
    (by simp only [Holds]; grind) (.wait p) (fun x t => ?_) fun t => ?_, fun k => ?_,
    fun k q => ?_, hbound⟩
  · show ((s.setLock m l).lock k).Represents ((s.setLock m l).line k)
    rw [hline]
    simp only [setLock, Function.update_apply]
    grind
  · cases x <;> simp only [Holds, setPtr, Ownerships.setWait, Ownerships.acquire, setLock,
      Function.update_apply] <;> grind
  · simp only [setPtr, Ownerships.setWait, Ownerships.acquire, setLock, Function.update_apply]
    grind
  · simp only [setPtr, Ownerships.setWait, Ownerships.acquire, setLock, Function.update_apply]
    grind
  · have hk := hwait k q
    show q ∈ (s.setLock m l).line k ↔ _
    rw [hline]
    simp only [setPtr, Ownerships.setWait, Ownerships.acquire, setLock, Function.update_apply]
    grind

/-- What the deleter does. -/
theorem unlock (hi : Inv s) {q : Option Nat} (ho : s.ptr o = some q) {r : Option (Option Nat)}
    (hr : ∀ m, r ≠ some (some m)) : Inv ((s.unlock q).setPtr o r) := by
  cases q with
  | none => exact hi.setPtr_none (by simp [ho]) hr
  | some m =>
      have hreq := hi.owned.only_open (.ownership o) m ho
      have hrep := hi.represents m
      cases hw : s.line m with
      | nil =>
          rw [hw] at hrep
          obtain ⟨l, hrun, hl, hfree⟩ := hrep.unlock hreq
          simp only [Ownerships.unlock, hrun]
          exact hi.giveUp_nil ho hr hl hw hfree
      | cons p ws =>
          rw [hw] at hrep
          obtain ⟨l, hrun, hl, hlocked⟩ := hrep.unlock_cons hreq
          simp only [Ownerships.unlock, hrun]
          exact hi.giveUp_cons ho hr hl hw hlocked

/-- The mutexes know nothing of the objects. -/
theorem unlock_setPtr (s : Ownerships) (o : Nat) (r : Option (Option Nat)) (q : Option Nat) :
    (s.setPtr o r).unlock q = (s.unlock q).setPtr o r := by
  cases q with
  | none => rfl
  | some m =>
      simp only [Ownerships.unlock, setPtr]
      cases (s.lock m).unlock with
      | none => rfl
      | some x =>
          obtain ⟨l, next⟩ := x
          cases next <;> rfl

theorem unlock_ptr (s : Ownerships) (q : Option Nat) : (s.unlock q).ptr = s.ptr := by
  cases q with
  | none => rfl
  | some m =>
      simp only [Ownerships.unlock]
      cases (s.lock m).unlock with
      | none => rfl
      | some x =>
          obtain ⟨l, next⟩ := x
          cases next <;> rfl

theorem setLock_self (s : Ownerships) (m : Nat) : s.setLock m (s.lock m) = s := by
  simp only [setLock, Function.update_eq_self]

theorem step {a : Action} (hi : Inv s) (h : Ownerships.step s a = some s') : Inv s' := by
  cases a with
  | empty o =>
      obtain ⟨ho, rfl⟩ := Option.ite_some_none_eq_some.mp h
      exact hi.setPtr_none (by simp [ho]) (by simp)
  | tryLock m o =>
      by_cases ho : s.ptr o = none
      · by_cases hm : (s.lock m).mx.requests = none
        · obtain ⟨l, hrun, hl, hr⟩ := (hi.represents m).ready hm
          simp only [Ownerships.step, if_pos ho, hrun, Option.some.injEq] at h
          exact h ▸ hi.acquire hm ho hl hr
        · simp only [Ownerships.step, if_pos ho, (hi.represents m).ready_locked hm,
            Option.some.injEq, setLock_self] at h
          exact h ▸ hi.setPtr_none (by simp [ho]) (by simp)
      · simp only [Ownerships.step, if_neg ho, reduceCtorEq] at h
  | awaitReady m p =>
      by_cases hp : s.wait p = .fresh
      · by_cases hm : (s.lock m).mx.requests = none
        · obtain ⟨l, hrun, hl, hr⟩ := (hi.represents m).ready hm
          simp only [Ownerships.step, if_pos hp, hrun, Option.some.injEq] at h
          exact h ▸ hi.grant hm (by simp [hp]) hl hr
        · simp only [Ownerships.step, if_pos hp, (hi.represents m).ready_locked hm,
            Option.some.injEq, setLock_self] at h
          exact h ▸ hi.setWait (by simp [hp]) (by simp)
      · simp only [Ownerships.step, if_neg hp, reduceCtorEq] at h
  | subscribe p =>
      cases hp : s.wait p with
      | refused m =>
          by_cases hm : (s.lock m).mx.requests = none
          · obtain ⟨l, hrun, hl, hr⟩ := (hi.represents m).subscribe (p := p) hm
            simp only [Ownerships.step, hp, hrun, Option.some.injEq] at h
            exact h ▸ hi.grant hm (by simp [hp]) hl hr
          · have hmem : p ∉ s.line m := by simp [hi.waiting, hp]
            obtain ⟨l, hrun, hl, hr⟩ := (hi.represents m).subscribe_locked hm hmem
            simp only [Ownerships.step, hp, hrun, Option.some.injEq] at h
            exact h ▸ hi.enqueue hm (by simp [hp]) hl hr
      | fresh | waiting | granted | done => simp [Ownerships.step, hp] at h
  | awaitResume p o =>
      cases hp : s.wait p with
      | granted m =>
          simp only [Ownerships.step, hp] at h
          obtain ⟨ho, rfl⟩ := Option.ite_some_none_eq_some.mp h
          exact hi.awaitResume hp ho
      | fresh | refused | waiting | done => simp [Ownerships.step, hp] at h
  | release o =>
      cases ho : s.ptr o with
      | none => simp [Ownerships.step, ho] at h
      | some q =>
          simp only [Ownerships.step, ho, unlock_setPtr, Option.some.injEq] at h
          exact h ▸ hi.unlock ho (by simp)
  | destroy o =>
      cases ho : s.ptr o with
      | none => simp [Ownerships.step, ho] at h
      | some q =>
          simp only [Ownerships.step, ho, unlock_setPtr, Option.some.injEq] at h
          exact h ▸ hi.unlock ho (by simp)
  | moveConstruct o o' =>
      cases ho : s.ptr o <;> cases ho' : s.ptr o' <;>
        simp only [Ownerships.step, ho, ho', reduceCtorEq, Option.some.injEq] at h
      exact h ▸ hi.move ho' (by simp [ho])
  | moveAssign o o' =>
      cases ho : s.ptr o <;> cases ho' : s.ptr o' <;>
        simp only [Ownerships.step, ho, ho', reduceCtorEq, Option.some.injEq] at h
      next q r =>
      subst h
      by_cases hoo : o = o'
      · subst hoo
        obtain rfl : q = r := by rw [ho] at ho'; exact Option.some.inj ho'
        have heq : ((s.setPtr o (some none)).setPtr o (some q)) = s := by
          simp only [setPtr, Function.update_idem, ← ho, Function.update_eq_self]
        simp only [if_true, heq, Ownerships.unlock]
        exact hi
      · -- as if the mutex was given up before
        have hgive := hi.unlock ho (r := some none) (by simp)
        have hptr : ((s.unlock q).setPtr o (some none)).ptr o' = some r := by
          simp only [setPtr, unlock_ptr, Function.update_of_ne (Ne.symm hoo), ho']
        have heq : (((s.unlock q).setPtr o (some none)).setPtr o' (some none)).setPtr o (some r) =
            ((s.setPtr o' (some none)).setPtr o (some r)).unlock (if o = o' then none else q) := by
          rw [if_neg hoo, unlock_setPtr, unlock_setPtr]
          simp only [setPtr, Function.update_comm hoo, Function.update_idem]
        exact heq ▸ hgive.move hptr (by simp [setPtr])

end Inv

/-! ## Whoever waits is served -/

/-- The owner of the mutex gives it up, and the first wait in line gets it. -/
theorem release_of_cons (hi : Inv s) {m p o : Nat} {ws : List Nat} (hw : s.line m = p :: ws)
    (ho : s.ptr o = some (some m)) :
    ∃ s', step s (.release o) = some s' ∧ s'.wait p = .granted m ∧ s'.line m = ws := by
  have hrep := hi.represents m
  rw [hw] at hrep
  obtain ⟨l, hrun, hl, -⟩ := hrep.unlock_cons (hi.owned.only_open (.ownership o) m ho)
  refine ⟨(s.unlock (some m)).setPtr o (some none), ?_, ?_, ?_⟩
  · simp only [step, ho, Inv.unlock_setPtr]
  · simp [unlock, hrun, setWait, acquire, setPtr]
  · have hline := line_setLock (s := s) (m := m) hl m
    rw [if_pos rfl] at hline
    simpa [unlock, hrun, setWait, acquire, setPtr, line, setLock] using hline

/-- A wait that got the mutex makes an object of it first. -/
theorem serve_line (hi : Inv s) {m p : Nat} {ws : List Nat} (hw : s.line m = p :: ws) :
    ∃ as, Run.Meets step (OfHolder m) s as ∧ (Run.exec step s as).wait p = .granted m ∧
      (Run.exec step s as).line m = ws := by
  have hreq : (s.lock m).mx.requests ≠ none := fun hreq => by
    have hnil := ((hi.represents m).unlocked hreq).2
    rw [hw] at hnil
    cases hnil
  obtain ⟨x, hx⟩ := hi.owned.owner m hreq
  cases x with
  | ownership o =>
      obtain ⟨s', hs', hp, hline⟩ := release_of_cons hi hw hx
      refine ⟨[.release o], ⟨fun _ => hx, trivial⟩, ?_⟩
      rw [Run.exec_cons, Run.tryStep_of_some _ _ hs', Run.exec_nil]
      exact ⟨hp, hline⟩
  | wait q =>
      have hq : s.wait q = .granted m := hx
      obtain ⟨n, hn⟩ := hi.bound
      have hs : step s (.awaitResume q n) =
          some ((s.setWait q .done).setPtr n (some (some m))) := by
        simp only [step, hq, if_pos (hn n (Nat.le_refl n))]
      have howns : ((s.setWait q .done).setPtr n (some (some m))).Holds (.ownership n) m := by
        simp [Holds, setPtr]
      obtain ⟨s', hs', hp, hline⟩ := release_of_cons (hi.step hs) (o := n) hw howns
      refine ⟨[.awaitResume q n, .release n], ⟨fun _ => hx, ?_⟩, ?_⟩
      · rw [Run.tryStep_of_some _ _ hs]
        exact ⟨fun _ => howns, trivial⟩
      · rw [Run.exec_cons, Run.tryStep_of_some _ _ hs, Run.exec_cons,
          Run.tryStep_of_some _ _ hs', Run.exec_nil]
        exact ⟨hp, hline⟩

theorem exists_granted (hi : Inv s) {m p : Nat} (hp : s.wait p = .waiting m) :
    ∃ as, Run.Meets step (OfHolder m) s as ∧ (Run.exec step s as).wait p = .granted m := by
  have hmem := (hi.waiting m p).mpr hp
  obtain ⟨ws, hws⟩ : ∃ ws, s.line m = ws := ⟨_, rfl⟩
  rw [hws] at hmem
  induction ws generalizing s with
  | nil => cases hmem
  | cons q ws ih =>
      obtain ⟨as, has, hq, hline⟩ := serve_line hi hws
      by_cases hpq : p = q
      · exact ⟨as, has, hpq ▸ hq⟩
      · have hi' : Inv (Run.exec step s as) := Run.exec_inv (fun _ _ _ hi h => hi.step h) hi as
        have hmem' : p ∈ ws := (List.mem_cons.mp hmem).resolve_left hpq
        obtain ⟨bs, hbs, hgranted⟩ := ih hi' ((hi'.waiting m p).mp (hline ▸ hmem')) hmem' hline
        refine ⟨as ++ bs, (Run.meets_append ..).mpr ⟨has, hbs⟩, ?_⟩
        rw [Run.exec_append]
        exact hgranted

theorem inv_exec (as : List Action) : Inv (Run.exec step {} as) :=
  Run.exec_inv (fun _ _ _ hi h => hi.step h) inv_init as

theorem oneOwner_of_inv (hi : Inv s) : OneOwner s where
  returns := hi.returns
  owned := hi.owned
  balanced := hi.balanced
  in_order m := (hi.represents m).history
  waiting := hi.waiting
  nobody m hm := ((hi.represents m).unlocked hm).2
  served _ _ := exists_granted hi

/-- **One owner**: whatever is done with `ownership` objects and waits, a mutex that is locked has
one owner, who gives it up once, and every wait gets it in turn. -/
theorem oneOwner_exec (as : List Action) : OneOwner (Run.exec step {} as) :=
  oneOwner_of_inv (inv_exec as)

end Ownerships

end Mutex

end Cocls
