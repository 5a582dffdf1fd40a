import Cocls.Signal
import Mathlib.Data.List.Nodup

/-!
# Cocls.Signal.Delivery

Every run of a signal.

A listener that waits is a link of the chain, and one that is taken is either in
the rest of the chain that is walked or in the suspend point (`InvAt`).  What a
step does to the listeners it does not name is nothing, so `Good`, what holds of
one listener, is kept by looking at the one that moves.
-/

namespace Cocls

namespace Signal

variable {V : Type*}

/-! ## One listener -/

/-- The value that a listener which is taken is going to receive. -/
def Listener.pending (alive : Bool) (emitted : List V) (l : Listener V) : List (Nat × V) :=
  if l.place = .taken ∧ alive = true then
    (emitted.getLast?).toList.map fun v => (emitted.length - 1, v)
  else []

/-- The exception that a coroutine which is taken is going to get. -/
def Listener.cancelPending (alive : Bool) (l : Listener V) : Nat :=
  if l.kind = .coroutine ∧ l.place = .taken ∧ alive = false then 1 else 0

/-- What a callback answered so far. -/
def Listener.Answered (alive : Bool) (l : Listener V) : Prop :=
  match l.place with
  | .waiting | .taken => l.answers = List.replicate l.received.length true
  | .inside => ∃ k, l.answers = List.replicate k true ∧ l.received.length = k + 1
  | .running => False
  | .deleted =>
      (alive = false ∧ l.answers = List.replicate l.received.length true) ∨
        ∃ k, l.answers = List.replicate k true ++ [false] ∧ l.received.length = k + 1

/-- What a listener is owed. -/
structure Due (emitted : List V) (l : Listener V) : Prop where
  genuine : ∀ e ∈ l.owed, emitted[e.1]? = some e.2
  once : (l.owed.map Prod.fst).Pairwise (· < ·)
  joined : l.joined ≤ emitted.length
  fromNext : ∀ e ∈ l.owed, l.joined ≤ e.1
  callbackAll : l.kind = .callback → false ∉ l.answers →
    l.owed.map Prod.fst = List.range' l.joined (emitted.length - l.joined)

/-- What holds of a listener in every state. -/
structure Good (alive : Bool) (emitted : List V) (l : Listener V) : Prop where
  due : Due emitted l
  received : l.received ++ l.pending alive emitted = l.owed
  callback : l.kind = .callback → l.Answered alive
  coroutine : l.kind = .coroutine →
    l.answers = [] ∧ l.place ≠ .inside ∧ l.place ≠ .deleted
  deletes : l.deletes = if l.place = .deleted then 1 else 0
  cancels : l.cancels + l.cancelPending alive =
    if l.kind = .coroutine ∧ l.atEnd = true then 1 else 0
  atEnd : alive = true → l.atEnd = false
  gone : alive = false → l.place ≠ .waiting ∧ l.place ≠ .inside
  taken : alive = true → l.place = .taken → emitted ≠ []

section Good

variable {alive : Bool} {emitted : List V} {l l' : Listener V} {v : V}

theorem Listener.pending_eq_nil (h : l.place ≠ .taken ∨ alive = false) :
    l.pending alive emitted = [] :=
  if_neg (by rintro ⟨hp, ha⟩; rcases h with h | h <;> simp_all)

/-- A listener that is new. -/
theorem due_new (kind : Kind) (p : Place) (emitted : List V) :
    Due emitted { kind := kind, place := p, joined := emitted.length } where
  genuine := by simp
  once := by simp
  joined := Nat.le_refl _
  fromNext := by simp
  callbackAll := by simp

/-- What is owed does not depend on where the listener is. -/
theorem Due.congr (h : Due emitted l) (hk : l'.kind = l.kind) (hj : l'.joined = l.joined)
    (ho : l'.owed = l.owed) (ha : false ∉ l'.answers → false ∉ l.answers) : Due emitted l' where
  genuine := ho ▸ h.genuine
  once := ho ▸ h.once
  joined := hj ▸ h.joined
  fromNext := by
    rw [ho, hj]
    exact h.fromNext
  callbackAll hk' hn := by
    rw [ho, hj]
    exact h.callbackAll (hk ▸ hk') (ha hn)

/-- The values emitted so far stay where they are. -/
theorem Due.genuine_snoc (h : Due emitted l) (v : V) :
    ∀ e ∈ l.owed, (emitted ++ [v])[e.1]? = some e.2 := by
  intro e he
  have hg := h.genuine e he
  rw [List.getElem?_append_left (List.getElem?_eq_some_iff.mp hg).1, hg]

theorem Due.joined_snoc (h : Due emitted l) (v : V) : l.joined ≤ (emitted ++ [v]).length := by
  rw [List.length_append]
  exact Nat.le_add_right_of_le h.joined

/-- A listener that is taken by an emission is owed its value. -/
theorem Due.snoc (h : Due emitted l) (v : V) :
    Due (emitted ++ [v]) { l with place := .taken, owed := l.owed ++ [(emitted.length, v)] } where
  genuine e he := by
    rcases List.mem_append.mp he with he | he
    · exact h.genuine_snoc v e he
    · rw [List.mem_singleton.mp he, List.getElem?_concat_length]
  once := by
    rw [List.map_append, List.pairwise_append]
    refine ⟨h.once, List.pairwise_singleton _ _, fun k hk n hn => ?_⟩
    obtain ⟨e, he, rfl⟩ := List.mem_map.mp hk
    rw [List.map_singleton, List.mem_singleton] at hn
    rw [hn]
    exact (List.getElem?_eq_some_iff.mp (h.genuine e he)).1
  joined := h.joined_snoc v
  fromNext e he := by
    rcases List.mem_append.mp he with he | he
    · exact h.fromNext e he
    · rw [List.mem_singleton.mp he]
      exact h.joined
  callbackAll hk hn := by
    have hj := h.joined
    rw [List.map_append, h.callbackAll hk hn, List.length_append, List.length_singleton,
      show emitted.length + 1 - l.joined = emitted.length - l.joined + 1 by omega,
      List.range'_concat]
    simp [Nat.add_sub_cancel' hj]

/-- A new listener that waits. -/
theorem good_new (kind : Kind) (emitted : List V) :
    Good true emitted { kind := kind, joined := emitted.length } where
  due := due_new kind .waiting emitted
  received := rfl
  callback _ := rfl
  coroutine _ := ⟨rfl, by simp, by simp⟩
  deletes := rfl
  cancels := by simp [Listener.cancelPending]
  atEnd _ := rfl
  gone := by simp
  taken := by simp

/-- A coroutine that comes when the state is gone. -/
theorem good_late (emitted : List V) :
    Good false emitted { kind := .coroutine, joined := emitted.length, place := .running } where
  due := due_new .coroutine .running emitted
  received := rfl
  callback := by simp
  coroutine _ := ⟨rfl, by simp, by simp⟩
  deletes := rfl
  cancels := by simp [Listener.cancelPending]
  atEnd := by simp
  gone := by simp
  taken := by simp

/-- A listener that is not taken received all it is owed. -/
theorem Good.received_eq (h : Good alive emitted l) (hp : l.place ≠ .taken ∨ alive = false) :
    l.received = l.owed := by
  have hr := h.received
  rwa [Listener.pending_eq_nil hp, List.append_nil] at hr

/-- A listener that is taken by an emission is owed one more. -/
theorem Good.received_snoc (h : Good true emitted l) (hp : l.place = .taken)
    (hv : emitted.getLast? = some v) : l.received ++ [(emitted.length - 1, v)] = l.owed := by
  have hr := h.received
  rwa [Listener.pending, if_pos ⟨hp, rfl⟩, hv] at hr

/-- A callback that is neither waiting, taken nor inside is deleted. -/
theorem Good.deleted_of_callback (h : Good alive emitted l) (hk : l.kind = .callback)
    (hw : l.place ≠ .waiting) (ht : l.place ≠ .taken) (hi : l.place ≠ .inside) :
    l.place = .deleted := by
  have ha := h.callback hk
  cases hp : l.place with
  | waiting => exact absurd hp hw
  | taken => exact absurd hp ht
  | inside => exact absurd hp hi
  | running => simp [Listener.Answered, hp] at ha
  | deleted => rfl

/-- **An emission takes a listener that waits.** -/
theorem Good.emit (h : Good true emitted l) (hp : l.place = .waiting) (v : V) :
    Good true (emitted ++ [v])
      { l with place := .taken, owed := l.owed ++ [(emitted.length, v)] } where
  due := h.due.snoc v
  received := by
    rw [Listener.pending, if_pos ⟨rfl, rfl⟩]
    simp [h.received_eq (.inl (by rw [hp]; decide))]
  callback hk := by
    have ha := h.callback hk
    simp only [Listener.Answered, hp] at ha ⊢
    exact ha
  coroutine hk := ⟨(h.coroutine hk).1, by simp, by simp⟩
  deletes := by
    rw [h.deletes, hp]
    rfl
  cancels := by
    have hc := h.cancels
    simp only [Listener.cancelPending, hp] at hc ⊢
    simpa using hc
  atEnd := h.atEnd
  gone := by simp
  taken _ _ := by simp

/-- An emission finds a listener that does not wait. -/
theorem Good.unmoved (h : Good true emitted l) (hw : l.place ≠ .waiting) (ht : l.place ≠ .taken)
    (hi : l.place ≠ .inside) (v : V) : Good true (emitted ++ [v]) l where
  due := by
    refine ⟨h.due.genuine_snoc v, h.due.once, h.due.joined_snoc v, h.due.fromNext, fun hk hn => ?_⟩
    -- it returned `false`: the state is there
    have ha := h.callback hk
    simp only [Listener.Answered, h.deleted_of_callback hk hw ht hi, Bool.true_eq_false, false_and,
      false_or] at ha
    obtain ⟨k, hk, -⟩ := ha
    exact absurd (hk ▸ List.mem_append_right _ List.mem_cons_self) hn
  received := by
    rw [Listener.pending_eq_nil (.inl ht), List.append_nil]
    exact h.received_eq (.inl ht)
  callback := h.callback
  coroutine := h.coroutine
  deletes := h.deletes
  cancels := h.cancels
  atEnd := h.atEnd
  gone := h.gone
  taken _ hp := absurd hp ht

/-- **The state goes**, with a listener that waits. -/
theorem Good.destroy (h : Good true emitted l) (hp : l.place = .waiting) :
    Good false emitted { l with place := .taken, atEnd := true } where
  due := h.due.congr rfl rfl rfl id
  received := by
    rw [Listener.pending_eq_nil (.inr rfl), List.append_nil]
    exact h.received_eq (.inl (by rw [hp]; decide))
  callback hk := by
    have ha := h.callback hk
    simp only [Listener.Answered, hp] at ha ⊢
    exact ha
  coroutine hk := ⟨(h.coroutine hk).1, by simp, by simp⟩
  deletes := by
    rw [h.deletes, hp]
    rfl
  cancels := by
    have hc := h.cancels
    simp only [Listener.cancelPending, hp, h.atEnd rfl] at hc ⊢
    simpa using hc
  atEnd := by simp
  gone := by simp
  taken := by simp

/-- The state goes, and the listener does not wait. -/
theorem Good.outlive (h : Good true emitted l) (hw : l.place ≠ .waiting) (ht : l.place ≠ .taken)
    (hi : l.place ≠ .inside) : Good false emitted l where
  due := h.due
  received := by
    rw [Listener.pending_eq_nil (.inr rfl), List.append_nil]
    exact h.received_eq (.inl ht)
  callback hk := by
    have ha := h.callback hk
    simp only [Listener.Answered, h.deleted_of_callback hk hw ht hi, Bool.true_eq_false, false_and,
      false_or] at ha ⊢
    exact .inr ha
  coroutine := h.coroutine
  deletes := h.deletes
  cancels := by
    have hc := h.cancels
    simp only [Listener.cancelPending, ht, false_and, and_false, if_false] at hc ⊢
    exact hc
  atEnd := by simp
  gone _ := ⟨hw, hi⟩
  taken := by simp

/-- A listener that has what it is owed goes to another place while the state is there. -/
theorem Good.move (h : Good true emitted l) (hk : l'.kind = l.kind) (hj : l'.joined = l.joined)
    (ho : l'.owed = l.owed) (hd : l'.deletes = l.deletes) (hc : l'.cancels = l.cancels)
    (he : l'.atEnd = l.atEnd) (ha : false ∉ l'.answers → false ∉ l.answers)
    (hp : l.place ≠ .deleted) (hp' : l'.place ≠ .deleted ∧ l'.place ≠ .taken)
    (hr : l'.received = l'.owed) (hcallback : l'.kind = .callback → l'.Answered true)
    (hcoroutine : l'.kind = .coroutine → l'.answers = [] ∧ l'.place ≠ .inside) :
    Good true emitted l' where
  due := h.due.congr hk hj ho ha
  received := by rw [Listener.pending_eq_nil (.inl hp'.2), List.append_nil, hr]
  callback := hcallback
  coroutine hk := ⟨(hcoroutine hk).1, (hcoroutine hk).2, hp'.1⟩
  deletes := by rw [hd, h.deletes, if_neg hp, if_neg hp'.1]
  cancels := by
    have hc₀ := h.cancels
    simp only [Listener.cancelPending, Bool.true_eq_false, and_false, if_false] at hc₀ ⊢
    rw [hc, hk, he, hc₀]
  atEnd ha := he ▸ h.atEnd ha
  gone := by simp
  taken _ hp := absurd hp hp'.2

/-- The function of a callback is called with the value. -/
theorem Good.call (h : Good true emitted l) (hk : l.kind = .callback) (hp : l.place = .taken)
    (hv : emitted.getLast? = some v) :
    Good true emitted
      { l with place := .inside, received := l.received ++ [(emitted.length - 1, v)] } := by
  refine h.move rfl rfl rfl rfl rfl rfl id (by rw [hp]; decide) ⟨by simp, by simp⟩
    (h.received_snoc hp hv) (fun _ => ?_) (fun hk' => ?_)
  · have ha := h.callback hk
    simp only [Listener.Answered, hp] at ha
    exact ⟨l.received.length, ha, by simp⟩
  · rw [hk] at hk'
    cases hk'

/-- A callback whose function returned `true` waits again. -/
theorem Good.answerTrue (h : Good true emitted l) (hp : l.place = .inside) :
    Good true emitted { l with place := .waiting, answers := l.answers ++ [true] } := by
  refine h.move rfl rfl rfl rfl rfl rfl (fun hn hf => hn (List.mem_append_left _ hf))
    (by rw [hp]; decide) ⟨by simp, by simp⟩ (h.received_eq (.inl (by rw [hp]; decide)))
    (fun hk => ?_) (fun hk => absurd hp (h.coroutine hk).2.1)
  have ha := h.callback hk
  simp only [Listener.Answered, hp] at ha ⊢
  obtain ⟨k, ha, hlen⟩ := ha
  rw [ha, hlen, List.replicate_succ']

/-- A coroutine gets the value. -/
theorem Good.resume (h : Good true emitted l) (hk : l.kind = .coroutine) (hp : l.place = .taken)
    (hv : emitted.getLast? = some v) :
    Good true emitted
      { l with place := .running, received := l.received ++ [(emitted.length - 1, v)] } := by
  refine h.move rfl rfl rfl rfl rfl rfl id (by rw [hp]; decide) ⟨by simp, by simp⟩
    (h.received_snoc hp hv) (fun hk' => ?_) (fun hk => ⟨(h.coroutine hk).1, by simp⟩)
  rw [hk] at hk'
  cases hk'

/-- A coroutine awaits the emitter again. -/
theorem Good.again (h : Good true emitted l) (hp : l.place = .running) :
    Good true emitted { l with place := .waiting } := by
  refine h.move rfl rfl rfl rfl rfl rfl id (by rw [hp]; decide) ⟨by simp, by simp⟩
    (h.received_eq (.inl (by rw [hp]; decide))) (fun hk => ?_)
    (fun hk => ⟨(h.coroutine hk).1, by simp⟩)
  have ha := h.callback hk
  simp only [Listener.Answered, hp] at ha

/-- A callback whose function returned `false` deletes itself. -/
theorem Good.answerFalse (h : Good true emitted l) (hp : l.place = .inside) :
    Good true emitted
      { l with place := .deleted, answers := l.answers ++ [false], deletes := l.deletes + 1 } where
  due := h.due.congr rfl rfl rfl fun hn =>
    absurd (List.mem_append_right _ List.mem_cons_self) hn
  received := by
    rw [Listener.pending_eq_nil (.inl (by simp)), List.append_nil]
    exact h.received_eq (.inl (by rw [hp]; decide))
  callback hk := by
    have ha := h.callback hk
    simp only [Listener.Answered, hp] at ha ⊢
    obtain ⟨k, ha, hlen⟩ := ha
    exact .inr ⟨k, by rw [ha], hlen⟩
  coroutine hk := absurd hp (h.coroutine hk).2.1
  deletes := by
    rw [h.deletes, hp]
    rfl
  cancels := by
    have hc := h.cancels
    simp only [Listener.cancelPending, hp] at hc ⊢
    simpa using hc
  atEnd := h.atEnd
  gone := by simp
  taken := by simp

/-- A callback deletes itself when the state is gone. -/
theorem Good.delete (h : Good false emitted l) (hk : l.kind = .callback) (hp : l.place = .taken) :
    Good false emitted { l with place := .deleted, deletes := l.deletes + 1 } where
  due := h.due.congr rfl rfl rfl id
  received := by
    rw [Listener.pending_eq_nil (.inr rfl), List.append_nil]
    exact h.received_eq (.inr rfl)
  callback hk := by
    have ha := h.callback hk
    simp only [Listener.Answered, hp] at ha
    exact .inl ⟨rfl, ha⟩
  coroutine hk' := by
    rw [hk] at hk'
    cases hk'
  deletes := by
    rw [h.deletes, hp]
    rfl
  cancels := by
    have hc := h.cancels
    simp only [Listener.cancelPending, hk] at hc ⊢
    simpa using hc
  atEnd := h.atEnd
  gone := by simp
  taken := by simp

/-- A coroutine gets the exception. -/
theorem Good.cancel (h : Good false emitted l) (hk : l.kind = .coroutine) (hp : l.place = .taken) :
    Good false emitted { l with place := .running, cancels := l.cancels + 1 } where
  due := h.due.congr rfl rfl rfl id
  received := by
    rw [Listener.pending_eq_nil (.inr rfl), List.append_nil]
    exact h.received_eq (.inr rfl)
  callback hk' := by
    rw [hk] at hk'
    cases hk'
  coroutine hk := ⟨(h.coroutine hk).1, by simp, by simp⟩
  deletes := by
    rw [h.deletes, hp]
    rfl
  cancels := by
    have hc := h.cancels
    simp only [Listener.cancelPending, hk, hp] at hc ⊢
    simpa using hc
  atEnd := h.atEnd
  gone := by simp
  taken := by simp

end Good

/-! ## All listeners -/

/-- Listener `i` is at `p`. -/
def Stands (listener : Nat → Option (Listener V)) (p : Place) (i : Nat) : Prop :=
  ∃ l, listener i = some l ∧ l.place = p

/-- The invariant; `xs` are the links of the chain and `ws` those left to walk. -/
structure InvAt (s : Signal V) (xs ws : List Nat) : Prop where
  chain : Links s.next s.chain (xs.map .object) none
  rest : Links s.next s.walk.chain (ws.map .object) none
  nodup : xs.Nodup
  line : (ws ++ s.ready).Nodup
  waiting : ∀ i, i ∈ xs ↔ Stands s.listener .waiting i
  taken : ∀ i, i ∈ ws ++ s.ready ↔ Stands s.listener .taken i
  ready : ∀ i ∈ s.ready, ∀ l, s.listener i = some l → l.kind = .coroutine
  inside : ∀ i, (∃ chain, s.walk = .inside i chain) ↔ Stands s.listener .inside i
  good : ∀ i l, s.listener i = some l → Good s.alive s.emitted l
  cur : s.alive = true → s.curVal = s.emitted.getLast?
  noFault : s.fault = false

section Stands

variable {listener : Nat → Option (Listener V)} {p q : Place} {i j : Nat} {l : Listener V}

theorem Stands.unique (hp : Stands listener p i) (hq : Stands listener q i) : p = q := by
  obtain ⟨l, hl, rfl⟩ := hp
  obtain ⟨l', hl', rfl⟩ := hq
  rw [hl] at hl'
  rw [Option.some.inj hl']

/-- Where the others are when listener `i` becomes `l`. -/
theorem stands_update :
    Stands (Function.update listener i (some l)) p j ↔
      if j = i then l.place = p else Stands listener p j := by
  by_cases hj : j = i
  · subst hj
    simp [Stands]
  · simp [Stands, hj]

/-- Where the listeners are when all that wait are taken. -/
theorem stands_takeAll {s : Signal V} {f : Listener V → Listener V}
    (hf : ∀ l, (f l).place = l.place) :
    Stands (s.takeAll f) p i ↔
      Stands s.listener p i ∧ p ≠ .waiting ∨ Stands s.listener .waiting i ∧ p = .taken := by
  cases hl : s.listener i with
  | none => simp [Stands, takeAll, hl]
  | some l =>
      by_cases hw : l.place = .waiting
      · simp [Stands, takeAll, hl, hw, hf]
        grind
      · simp [Stands, takeAll, hl, hw]
        grind

end Stands

/-- Subscribing puts the listener on top of the chain. -/
theorem subscribe_eq (s : Signal V) (i : Nat) :
    s.subscribe i = { s with
      chain := some (.object i), next := Function.update s.next (.object i) s.chain } := by
  rw [subscribe, Awaiter.subscribe_eq]

/-- The function of a callback is called. -/
theorem resumeCallback_of_alive {s : Signal V} {l : Listener V} {v : V} (i : Nat)
    (chain : Option Awaiter) (ha : s.alive = true) (hp : l.place ≠ .deleted)
    (hv : s.curVal = some v) :
    s.resumeCallback i l chain =
      { s.set i { l with place := .inside, received := l.received ++ [s.numbered v] } with
        walk := .inside i chain } := by
  rw [resumeCallback, if_neg hp, if_pos ha, awaitResume, if_pos ha, hv]

/-- A callback finds the state gone. -/
theorem resumeCallback_of_gone {s : Signal V} {l : Listener V} (i : Nat) (chain : Option Awaiter)
    (ha : s.alive = false) (hp : l.place ≠ .deleted) :
    s.resumeCallback i l chain =
      { s.set i { l with place := .deleted, deletes := l.deletes + 1 } with
        walk := .loop chain } := by
  rw [resumeCallback, if_neg hp, if_neg (by rw [ha]; decide)]

section Inv

variable {s s' : Signal V} {xs ws : List Nat} {i : Nat} {l : Listener V}

theorem object_mem_iff {xs : List Nat} : Awaiter.object i ∈ xs.map Awaiter.object ↔ i ∈ xs := by
  simp

/-- Nobody is left to walk when there is no walk. -/
theorem InvAt.walk_nil (h : InvAt s xs ws) (hw : s.walk.chain = none) : ws = [] := by
  have hr := h.rest
  cases ws with
  | nil => rfl
  | cons w ws =>
      rw [hw] at hr
      cases hr.1

/-- At rest no listener is taken, and no function of a callback runs. -/
theorem InvAt.at_rest (h : InvAt s xs ws) (hr : s.AtRest) (hi : s.listener i = some l) :
    l.place ≠ .taken ∧ l.place ≠ .inside := by
  obtain ⟨hw, hready⟩ := hr
  constructor
  · intro hp
    have hmem := (h.taken i).mpr ⟨l, hi, hp⟩
    rw [h.walk_nil (by rw [hw]; rfl), hready] at hmem
    cases hmem
  · intro hp
    obtain ⟨c, hc⟩ := (h.inside i).mpr ⟨l, hi, hp⟩
    rw [hw] at hc
    cases hc

/-- The walk goes on as it was, and listener `i` is not inside. -/
theorem InvAt.inside_ne_iff (h : InvAt s xs ws) (hi : ¬ Stands s.listener .inside i) (j : Nat) :
    (∃ chain, s.walk = .inside j chain) ↔ j ≠ i ∧ ∃ chain, s.walk = .inside j chain := by
  constructor
  · rintro hj
    refine ⟨?_, hj⟩
    rintro rfl
    exact hi ((h.inside j).mp hj)
  · exact fun hj => hj.2

/-- A listener that does not wait and is not taken subscribes. -/
theorem InvAt.subscribe (h : InvAt s xs ws) (hg : Good s.alive s.emitted l)
    (hp : l.place = .waiting) (hw : ¬ Stands s.listener .waiting i)
    (ht : ¬ Stands s.listener .taken i) {walk : Walk} (hwalk : walk.chain = s.walk.chain)
    (hin : ∀ j, (∃ chain, walk = .inside j chain) ↔ j ≠ i ∧ ∃ chain, s.walk = .inside j chain) :
    InvAt (({ s.set i l with walk := walk } : Signal V).subscribe i) (i :: xs) ws := by
  have hx : i ∉ xs := fun hm => hw ((h.waiting i).mp hm)
  have hl : i ∉ ws ++ s.ready := fun hm => ht ((h.taken i).mp hm)
  have hx' : Awaiter.object i ∉ xs.map .object := fun hm => hx (object_mem_iff.mp hm)
  have hw' : Awaiter.object i ∉ ws.map .object :=
    fun hm => hl (List.mem_append_left _ (object_mem_iff.mp hm))
  rw [subscribe_eq]
  refine ⟨Links.push hx' h.chain, ?_, List.nodup_cons.mpr ⟨hx, h.nodup⟩, h.line, fun j => ?_,
    fun j => ?_, fun j hj l' hl' => ?_, fun j => ?_, fun j l' hl' => ?_, h.cur, h.noFault⟩
  · exact (Links.update_iff hw').mpr (by rw [hwalk]; exact h.rest)
  · rw [List.mem_cons, h.waiting, set, stands_update]
    split <;> simp_all
  · show j ∈ ws ++ s.ready ↔ Stands (Function.update s.listener i (some l)) _ _
    rw [h.taken, stands_update]
    split
    · next hj => simp [hj, hp, ht]
    · rfl
  · have hne : j ≠ i := by
      rintro rfl
      exact hl (List.mem_append_right _ hj)
    exact h.ready j hj l' (by simpa [set, hne] using hl')
  · show (∃ chain, walk = _) ↔ Stands (Function.update s.listener i (some l)) _ _
    rw [hin, h.inside, stands_update]
    split
    · next hj => simp [hj, hp]
    · next hj => simp [hj]
  · by_cases hj : j = i
    · subst hj
      obtain rfl : l = l' := by simpa [set] using hl'
      exact hg
    · exact h.good j l' (by simpa [set, hj] using hl')

theorem not_stands_of_none {p : Place} (hi : s.listener i = none) : ¬ Stands s.listener p i := by
  rintro ⟨l, hl, -⟩
  rw [hi] at hl
  cases hl

theorem not_stands_of_place {p q : Place} (hi : s.listener i = some l) (hq : l.place = q)
    (hp : q ≠ p) : ¬ Stands s.listener p i :=
  fun hs => hp (Stands.unique ⟨l, hi, hq⟩ hs)

/-- A callback is connected. -/
theorem InvAt.connect (h : InvAt s xs ws) (ha : s.alive = true) (hi : s.listener i = none) :
    InvAt ((s.set i { kind := .callback, joined := s.emitted.length }).subscribe i) (i :: xs) ws :=
  h.subscribe (ha ▸ good_new .callback s.emitted) rfl (not_stands_of_none hi)
    (not_stands_of_none hi) rfl (h.inside_ne_iff (not_stands_of_none hi))

/-- A listener that does not wait goes to a place out of both lists; the walk or the suspend
point goes on without it. -/
theorem InvAt.leave (h : InvAt s xs ws) (hg : Good s.alive s.emitted l)
    (hp : l.place ≠ .waiting ∧ l.place ≠ .taken) (hw : ¬ Stands s.listener .waiting i)
    {next : Awaiter.Nexts} (walk : Walk) {ready ws' : List Nat}
    (hchain : Links next s.chain (xs.map .object) none)
    (hrest : Links next walk.chain (ws'.map .object) none) (hline : (ws' ++ ready).Nodup)
    (hmem : ∀ j, j ∈ ws' ++ ready ↔ j ≠ i ∧ j ∈ ws ++ s.ready) (hready : ready ⊆ s.ready)
    (hin : ∀ j, (∃ chain, walk = .inside j chain) ↔
      if j = i then l.place = .inside else ∃ chain, s.walk = .inside j chain) :
    InvAt { s.set i l with next := next, walk := walk, ready := ready } xs ws' := by
  refine ⟨hchain, hrest, h.nodup, hline, fun j => ?_, fun j => ?_, fun j hj l' hl' => ?_,
    fun j => ?_, fun j l' hl' => ?_, h.cur, h.noFault⟩
  · show j ∈ xs ↔ Stands (Function.update s.listener i (some l)) _ _
    rw [h.waiting, stands_update]
    split
    · next hj => simp [hj, hp.1, hw]
    · rfl
  · show j ∈ ws' ++ ready ↔ Stands (Function.update s.listener i (some l)) _ _
    rw [hmem, h.taken, stands_update]
    split
    · next hj => simp [hj, hp.2]
    · next hj => simp [hj]
  · have hne : j ≠ i := ((hmem j).mp (List.mem_append_right _ hj)).1
    exact h.ready j (hready hj) l' (by simpa [set, hne] using hl')
  · show (∃ chain, walk = _) ↔ Stands (Function.update s.listener i (some l)) _ _
    rw [hin, stands_update]
    split
    · rfl
    · exact h.inside j
  · by_cases hj : j = i
    · subst hj
      obtain rfl : l = l' := by simpa [set] using hl'
      exact hg
    · exact h.good j l' (by simpa [set, hj] using hl')

/-- A coroutine that is not suspended awaits the emitter. -/
theorem InvAt.awaitSuspend (h : InvAt s xs ws) (hw : ∀ p, p ≠ .running → ¬ Stands s.listener p i)
    (hagain : s.alive = true → Good true s.emitted { l with place := .waiting })
    (hlate : s.alive = false → Good false s.emitted { l with place := .running }) :
    ∃ xs', InvAt (s.awaitSuspend i l) xs' ws := by
  have hnot := hw .waiting (by decide)
  have hin := h.inside_ne_iff (hw .inside (by decide))
  rw [Signal.awaitSuspend]
  split
  · next ha =>
    exact ⟨i :: xs, h.subscribe (ha ▸ hagain ha) rfl hnot (hw .taken (by decide)) rfl hin⟩
  · next ha =>
    rw [Bool.not_eq_true] at ha
    refine ⟨xs, h.leave (ha ▸ hlate ha) ⟨by simp, by simp⟩ hnot s.walk h.chain h.rest h.line ?_
      (List.Subset.refl _) fun j => ?_⟩
    · intro j
      refine ⟨fun hj => ⟨?_, hj⟩, fun hj => hj.2⟩
      rintro rfl
      exact hw .taken (by decide) ((h.taken j).mp hj)
    · rw [hin]
      split <;> simp_all

/-- The chain is taken for a walk. -/
theorem InvAt.takeAll (h : InvAt s xs ws) (hr : s.AtRest) (f : Listener V → Listener V)
    (hf : ∀ l, (f l).place = l.place) {alive : Bool} {emitted : List V} {curVal : Option V}
    (hwait : ∀ l, Good s.alive s.emitted l → l.place = .waiting →
      Good alive emitted (f { l with place := .taken }))
    (hother : ∀ l, Good s.alive s.emitted l → l.place ≠ .waiting → l.place ≠ .taken →
      l.place ≠ .inside → Good alive emitted l)
    (hcur : alive = true → curVal = emitted.getLast?) :
    InvAt { s.resumeChain with
      listener := s.takeAll f, alive := alive, curVal := curVal, emitted := emitted } [] xs := by
  have hready := hr.2
  refine ⟨rfl, h.chain, List.nodup_nil, ?_, fun i => ?_, fun i => ?_, fun i hi l hl => ?_,
    fun i => ?_, fun i l hl => ?_, hcur, h.noFault⟩
  · simpa [resumeChain, hready] using h.nodup
  · show i ∈ [] ↔ Stands (s.takeAll f) _ _
    rw [stands_takeAll hf]
    simp
  · show i ∈ xs ++ s.ready ↔ Stands (s.takeAll f) _ _
    have hnone : ¬ Stands s.listener .taken i := fun ⟨l, hl, hp⟩ => (h.at_rest hr hl).1 hp
    rw [hready, List.append_nil, h.waiting, stands_takeAll hf]
    simp [hnone]
  · have hi : i ∈ s.ready := hi
    rw [hready] at hi
    cases hi
  · show (∃ chain, Walk.loop s.chain = _) ↔ Stands (s.takeAll f) _ _
    have hnone : ¬ Stands s.listener .inside i := fun ⟨l, hl, hp⟩ => (h.at_rest hr hl).2 hp
    rw [stands_takeAll hf]
    simp [hnone]
  · obtain ⟨l₀, hl₀, rfl⟩ := Option.map_eq_some_iff.mp hl
    have hg := h.good i l₀ hl₀
    obtain ⟨ht, hin⟩ := h.at_rest hr hl₀
    split
    · next hw => exact hwait l₀ hg hw
    · next hw => exact hother l₀ hg hw ht hin

/-- One round of the walk. -/
theorem InvAt.round (h : InvAt s xs ws) {y : Awaiter} (hwalk : s.walk = .loop (some y)) :
    ∃ ws', InvAt (s.resumeLink y) xs ws' ∧ ws'.length + 1 = ws.length := by
  have hrest := h.rest
  rw [hwalk] at hrest
  cases ws with
  | nil => cases hrest
  | cons i ws =>
      obtain ⟨hy, hrest⟩ := hrest
      obtain rfl : y = .object i := Option.some.inj hy
      obtain ⟨l, hl, hp⟩ := (h.taken i).mp List.mem_cons_self
      have hg := h.good i l hl
      obtain ⟨hi, hline⟩ := List.nodup_cons.mp h.line
      have hnot : ¬ Stands s.listener .waiting i := not_stands_of_place hl hp (by decide)
      have hx : Awaiter.object i ∉ xs.map .object :=
        fun hm => hnot ((h.waiting i).mp (object_mem_iff.mp hm))
      have hw : Awaiter.object i ∉ ws.map .object :=
        fun hm => hi (List.mem_append_left _ (object_mem_iff.mp hm))
      have hchain' := (Links.update_iff (v := none) hx).mpr h.chain
      have hrest' := (Links.update_iff (v := none) hw).mpr hrest
      -- the listener leaves the line
      have hmem : ∀ j, j ∈ ws ++ s.ready ↔ j ≠ i ∧ j ∈ i :: ws ++ s.ready := by
        intro j
        rw [List.cons_append, List.mem_cons]
        refine ⟨fun hj => ⟨fun hji => hi (hji ▸ hj), .inr hj⟩, ?_⟩
        rintro ⟨hne, hj | hj⟩
        · exact absurd hj hne
        · exact hj
      have hwalk' : ∀ j, ¬ ∃ chain, s.walk = .inside j chain := by simp [hwalk]
      refine ⟨ws, ?_, rfl⟩
      have hdel : l.place ≠ .deleted := by rw [hp]; decide
      simp only [resumeLink, hl]
      cases hk : l.kind with
      | coroutine =>
          have hperm : (ws ++ (s.ready ++ [i])).Perm (i :: ws ++ s.ready) := by
            rw [← List.append_assoc]
            exact List.perm_append_singleton i _
          refine ⟨hchain', hrest', h.nodup, hperm.nodup_iff.mpr h.line, h.waiting,
            fun j => hperm.mem_iff.trans (h.taken j), fun j hj l' hl' => ?_, fun j => ?_, h.good,
            h.cur, h.noFault⟩
          · rcases List.mem_append.mp hj with hj | hj
            · exact h.ready j hj l' hl'
            · rw [List.mem_singleton.mp hj] at hl'
              have hl' : s.listener i = some l' := hl'
              rw [hl] at hl'
              rw [← Option.some.inj hl', hk]
          · rw [← h.inside j, hwalk]
            simp
      | callback =>
          by_cases ha : s.alive = true
          · rw [ha] at hg
            obtain ⟨v, hv⟩ : ∃ v, s.emitted.getLast? = some v :=
              Option.isSome_iff_exists.mp (by simpa using hg.taken rfl hp)
            have hcur := (h.cur ha).trans hv
            rw [resumeCallback_of_alive i _ (by exact ha) hdel (by exact hcur)]
            refine h.leave (ha ▸ hg.call hk hp hv) ⟨by simp, by simp⟩ hnot
              (.inside i (s.next (.object i))) hchain' hrest' hline hmem (List.Subset.refl _)
              fun j => ?_
            by_cases hj : j = i <;> simp [hj, hwalk', eq_comm]
          · rw [Bool.not_eq_true] at ha
            rw [ha] at hg
            rw [resumeCallback_of_gone i _ (by exact ha) hdel]
            refine h.leave (ha ▸ hg.delete hk hp) ⟨by simp, by simp⟩ hnot
              (.loop (s.next (.object i))) hchain' hrest' hline hmem (List.Subset.refl _) fun j => ?_
            by_cases hj : j = i <;> simp [hj, hwalk']

/-- The function of a callback returns. -/
theorem InvAt.answered (h : InvAt s xs ws) {chain : Option Awaiter} (more : Bool)
    (hwalk : s.walk = .inside i chain) (hl : s.listener i = some l) :
    ∃ xs', InvAt (s.answered i l chain more) xs' ws := by
  have hp : l.place = .inside := by
    obtain ⟨l', hl', hp⟩ := (h.inside i).mp ⟨chain, hwalk⟩
    rw [hl] at hl'
    rw [Option.some.inj hl', hp]
  have hg := h.good i l hl
  have ha : s.alive = true := by
    rw [← Bool.not_eq_false]
    exact fun ha => (hg.gone ha).2 hp
  have hrest : Links s.next chain (ws.map .object) none := by
    have hr := h.rest
    rwa [hwalk] at hr
  have hw : ¬ Stands s.listener .waiting i := not_stands_of_place hl hp (by decide)
  have ht : ¬ Stands s.listener .taken i := not_stands_of_place hl hp (by decide)
  rw [ha] at hg
  simp only [Signal.answered]
  split
  · next hm =>
    subst hm
    exact ⟨i :: xs, h.subscribe (ha ▸ hg.answerTrue hp) rfl hw ht (by rw [hwalk]; rfl)
      (by simp [hwalk, eq_comm])⟩
  · next hm =>
    rw [Bool.not_eq_true] at hm
    subst hm
    refine ⟨xs, h.leave (ha ▸ hg.answerFalse hp) ⟨by simp, by simp⟩ hw (.loop chain) h.chain hrest
      h.line ?_ (List.Subset.refl _) ?_⟩
    · intro j
      refine ⟨fun hj => ⟨?_, hj⟩, fun hj => hj.2⟩
      rintro rfl
      exact ht ((h.taken j).mp hj)
    · intro j
      by_cases hj : j = i
      · simp [hj]
      · simp [hj, hwalk, Ne.symm hj]

/-- The suspend point resumes a coroutine. -/
theorem InvAt.resumed (h : InvAt s xs ws) (hwalk : s.walk = .idle) (hi : i ∈ s.ready)
    (hl : s.listener i = some l) : InvAt (s.resumed i l) xs ws := by
  obtain rfl := h.walk_nil (by rw [hwalk]; rfl)
  have hline : s.ready.Nodup := h.line
  have hp : l.place = .taken := by
    obtain ⟨l', hl', hp⟩ := (h.taken i).mp hi
    rw [hl] at hl'
    rw [Option.some.inj hl', hp]
  have hk := h.ready i hi l hl
  have hg := h.good i l hl
  have hw : ¬ Stands s.listener .waiting i := not_stands_of_place hl hp (by decide)
  have hmem : ∀ j, j ∈ [] ++ s.ready.erase i ↔ j ≠ i ∧ j ∈ [] ++ s.ready :=
    fun j => hline.mem_erase_iff
  have hleave : ∀ l', Good s.alive s.emitted l' → l'.place = .running →
      InvAt ({ s with ready := s.ready.erase i }.set i l') xs [] := by
    intro l' hg' hp'
    refine h.leave hg' (by rw [hp']; exact ⟨by decide, by decide⟩) hw s.walk h.chain h.rest
      (hline.erase i) hmem List.erase_subset fun j => ?_
    rw [hwalk]
    by_cases hj : j = i <;> simp [hj, hp']
  by_cases ha : s.alive = true
  · rw [ha] at hg
    obtain ⟨v, hv⟩ : ∃ v, s.emitted.getLast? = some v :=
      Option.isSome_iff_exists.mp (by simpa using hg.taken rfl hp)
    have hres : s.awaitResume = some v := by rw [awaitResume, if_pos ha, h.cur ha, hv]
    simp only [Signal.resumed, hres]
    exact hleave _ (ha ▸ hg.resume hk hp hv) rfl
  · have hres : s.awaitResume = none := if_neg ha
    rw [Bool.not_eq_true] at ha
    rw [ha] at hg
    simp only [Signal.resumed, hres]
    exact hleave _ (ha ▸ hg.cancel hk hp) rfl

/-- The invariant, for some lists. -/
def Inv (s : Signal V) : Prop := ∃ xs ws, InvAt s xs ws

/-- Every step keeps the invariant. -/
theorem Inv.step {a : Action V} (h : Inv s) (hs : s.step a = some s') : Inv s' := by
  obtain ⟨xs, ws, h⟩ := h
  cases a with
  | connect i =>
      simp only [Signal.step, Option.ite_none_right_eq_some, Option.some.injEq] at hs
      obtain ⟨⟨ha, hi⟩, rfl⟩ := hs
      exact ⟨_, ws, h.connect ha hi⟩
  | await i =>
      simp only [Signal.step] at hs
      split at hs
      · next hi =>
        obtain rfl := Option.some.inj hs
        obtain ⟨xs', h'⟩ := h.awaitSuspend (l := { kind := .coroutine, joined := s.emitted.length })
          (fun p _ => not_stands_of_none hi) (fun _ => good_new _ _) (fun _ => good_late _)
        exact ⟨xs', ws, h'⟩
      · next l hi =>
        simp only [Option.ite_none_right_eq_some, Option.some.injEq] at hs
        obtain ⟨hp, rfl⟩ := hs
        have hg := h.good i l hi
        obtain ⟨xs', h'⟩ := h.awaitSuspend (l := l)
          (fun p hne => not_stands_of_place hi hp (Ne.symm hne))
          (fun ha => (ha ▸ hg).again hp)
          (fun ha => by
            rw [← hp]
            exact ha ▸ hg)
        exact ⟨xs', ws, h'⟩
  | emit v =>
      simp only [Signal.step, Option.ite_none_right_eq_some, Option.some.injEq] at hs
      obtain ⟨⟨ha, hr⟩, rfl⟩ := hs
      refine ⟨[], xs, h.takeAll hr (fun l => { l with owed := l.owed ++ [(s.emitted.length, v)] })
        (fun _ => rfl) (fun l hg hp => ?_) (fun l hg hw ht hin => ?_) (by simp)⟩
      · rw [ha] at hg
        exact ha ▸ hg.emit hp v
      · rw [ha] at hg
        exact ha ▸ hg.unmoved hw ht hin v
  | round =>
      simp only [Signal.step] at hs
      split at hs
      · next hw =>
        obtain rfl := Option.some.inj hs
        obtain rfl := h.walk_nil (by rw [hw]; rfl)
        refine ⟨xs, [], h.chain, rfl, h.nodup, h.line, h.waiting, h.taken, h.ready, fun i => ?_,
          h.good, h.cur, h.noFault⟩
        rw [← h.inside i, hw]
        simp
      · next y hw =>
        obtain rfl := Option.some.inj hs
        obtain ⟨ws', h', -⟩ := h.round hw
        exact ⟨xs, ws', h'⟩
      · cases hs
      · cases hs
  | answer more =>
      simp only [Signal.step] at hs
      split at hs
      · next i chain hw =>
        obtain ⟨l, hl, rfl⟩ := Option.map_eq_some_iff.mp hs
        obtain ⟨xs', h'⟩ := h.answered more hw hl
        exact ⟨xs', ws, h'⟩
      · cases hs
      · cases hs
  | resume i =>
      simp only [Signal.step, Option.ite_none_right_eq_some] at hs
      obtain ⟨⟨hw, hi⟩, hs⟩ := hs
      obtain ⟨l, hl, rfl⟩ := Option.map_eq_some_iff.mp hs
      exact ⟨xs, ws, h.resumed hw hi hl⟩
  | destroy =>
      simp only [Signal.step, Option.ite_none_right_eq_some, Option.some.injEq] at hs
      obtain ⟨⟨ha, hr⟩, rfl⟩ := hs
      refine ⟨[], xs, h.takeAll hr (fun l => { l with atEnd := true }) (fun _ => rfl)
        (fun l hg hp => ?_) (fun l hg hw ht hin => ?_) (by simp)⟩
      · rw [ha] at hg
        exact hg.destroy hp
      · rw [ha] at hg
        exact hg.outlive hw ht hin

theorem inv_init : Inv ({} : Signal V) :=
  ⟨[], [], rfl, rfl, List.nodup_nil, List.nodup_nil, by simp [Stands], by simp [Stands], by simp,
    by simp [Stands], by simp, fun _ => rfl, rfl⟩

/-! ## Every run -/

/-- After `true`s only, `false` is the last answer. -/
theorem eq_nil_of_answers {before after : List Bool} {k : Nat}
    (h : List.replicate k true ++ [false] = before ++ false :: after) :
    after = [] ∧ before.length = k := by
  induction before generalizing k with
  | nil =>
      cases k with
      | zero => simpa using h
      | succ k => simp [List.replicate_succ] at h
  | cons b bs ih =>
      cases k with
      | zero => simp at h
      | succ k =>
          rw [List.replicate_succ, List.cons_append, List.cons_append, List.cons.injEq] at h
          obtain ⟨ha, hb⟩ := ih h.2
          exact ⟨ha, by rw [List.length_cons, hb]⟩

/-- A listener with an answer `false` is a deleted callback, and this was its last answer. -/
theorem Good.stopped {alive : Bool} {emitted : List V} (hg : Good alive emitted l)
    (hf : false ∈ l.answers) : l.kind = .callback ∧ l.place = .deleted ∧
      ∃ k, l.answers = List.replicate k true ++ [false] ∧ l.received.length = k + 1 := by
  cases hk : l.kind with
  | coroutine =>
      rw [(hg.coroutine hk).1] at hf
      cases hf
  | callback =>
      have ha := hg.callback hk
      cases hp : l.place with
      | waiting | taken =>
          simp only [Listener.Answered, hp] at ha
          rw [ha] at hf
          simp at hf
      | inside =>
          simp only [Listener.Answered, hp] at ha
          obtain ⟨k, ha, -⟩ := ha
          rw [ha] at hf
          simp at hf
      | running => simp only [Listener.Answered, hp] at ha
      | deleted =>
          simp only [Listener.Answered, hp] at ha
          rcases ha with ⟨-, ha⟩ | ha
          · rw [ha] at hf
            simp at hf
          · exact ⟨rfl, rfl, ha⟩

/-- A deleted listener is a callback, and the state is gone or it returned `false`. -/
theorem Good.deleted {alive : Bool} {emitted : List V} (hg : Good alive emitted l)
    (hp : l.place = .deleted) : l.kind = .callback ∧ (alive = false ∨ false ∈ l.answers) := by
  cases hk : l.kind with
  | coroutine => exact absurd hp (hg.coroutine hk).2.2
  | callback =>
      have ha := hg.callback hk
      simp only [Listener.Answered, hp] at ha
      rcases ha with ⟨ha, -⟩ | ⟨k, ha, -⟩
      · exact ⟨rfl, .inl ha⟩
      · exact ⟨rfl, .inr (ha ▸ List.mem_append_right _ List.mem_cons_self)⟩

/-- What holds of a listener is what is asked of it. -/
theorem InvAt.served (h : InvAt s xs ws) (hl : s.listener i = some l) : Served s i l := by
  have hg := h.good i l hl
  have hcancel : s.alive = false → s.AtRest → l.cancels =
      if l.kind = .coroutine ∧ l.atEnd = true then 1 else 0 := by
    intro ha hr
    have hc := hg.cancels
    rwa [Listener.cancelPending, if_neg fun hp => (h.at_rest hr hl).1 hp.2.1, Nat.add_zero] at hc
  refine ⟨hg.received ▸ List.prefix_append _ _,
    fun hr => hg.received_eq (.inl (h.at_rest hr hl).1), hg.due.genuine,
    hg.due.once, hg.due.fromNext, hg.due.callbackAll, fun before after hans => ?_, ?_,
    fun hd => ?_, fun hk ha hr => ?_, ?_, hcancel⟩
  · obtain ⟨-, hp, k, hk, hlen⟩ :=
      hg.stopped (hans ▸ List.mem_append_right _ List.mem_cons_self)
    obtain ⟨hafter, hbefore⟩ := eq_nil_of_answers (hk.symm.trans hans)
    refine ⟨hafter, by rw [hlen, hbefore], fun chain hw => ?_⟩
    exact not_stands_of_place hl hp (by decide) ((h.inside i).mp ⟨chain, hw⟩)
  · rw [hg.deletes]
    split <;> omega
  · rw [hg.deletes] at hd
    exact hg.deleted (by simpa using hd)
  · obtain ⟨ht, hin⟩ := h.at_rest hr hl
    rw [hg.deletes, if_pos (hg.deleted_of_callback hk (hg.gone ha).1 ht hin)]
  · have hc := hg.cancels
    omega

theorem resumeCallback_walk (i : Nat) (l : Listener V) {chain : Option Awaiter}
    (hw : s.walk = .loop chain) : (s.resumeCallback i l chain).walk = .loop chain ∨
      (s.resumeCallback i l chain).walk = .inside i chain := by
  unfold resumeCallback
  split
  · exact .inl hw
  · split
    · split
      · exact .inl hw
      · exact .inr rfl
    · exact .inl rfl

/-- The walk goes on behind the link, or calls its function first. -/
theorem resumeLink_walk (s : Signal V) (y : Awaiter) :
    (s.resumeLink y).walk = .loop (s.next y) ∨
      ∃ i, (s.resumeLink y).walk = .inside i (s.next y) := by
  cases y with
  | theInstance | disabled => exact .inl rfl
  | object i =>
      cases hl : s.listener i with
      | none => exact .inl (by simp only [resumeLink, hl])
      | some l =>
          cases hk : l.kind with
          | coroutine => exact .inl (by simp only [resumeLink, hl, hk])
          | callback =>
              simp only [resumeLink, hl, hk]
              exact (resumeCallback_walk i l (by rfl)).imp_right fun hw => ⟨i, hw⟩

theorem answered_walk (s : Signal V) (i : Nat) (l : Listener V) (chain : Option Awaiter)
    (more : Bool) : (s.answered i l chain more).walk = .loop chain := by
  cases more
  · rfl
  · simp [answered, subscribe_eq]

variable (more : Bool)

/-- The walk comes to its end; by induction on the number of links that are left. -/
theorem InvAt.walkEnds (n : Nat) (h : InvAt s xs ws) (hn : ws.length = n) {chain : Option Awaiter}
    (hw : s.walk = .loop chain) : ∃ as : List (Action V), (∀ a ∈ as, a.Continues more) ∧
      (Run.exec Signal.step s as).walk = .idle := by
  have hrest := h.rest
  rw [hw] at hrest
  induction n generalizing s xs ws chain with
  | zero =>
      obtain rfl := List.eq_nil_of_length_eq_zero hn
      obtain rfl : chain = none := hrest
      exact ⟨[.round], by simp [Action.Continues], by simp [Run.tryStep, Signal.step, hw]⟩
  | succ n ih =>
      obtain ⟨i, ws, rfl⟩ := List.exists_cons_of_length_eq_add_one hn
      obtain rfl : chain = some (.object i) := hrest.1
      have hs : s.step .round = some (s.resumeLink (.object i)) := by simp only [Signal.step, hw]
      obtain ⟨ws', h', hlen⟩ := h.round hw
      have hlen' : ws'.length = n := by omega
      rcases resumeLink_walk s (.object i) with hw' | ⟨j, hw'⟩
      · have hrest' := h'.rest
        rw [hw'] at hrest'
        obtain ⟨as, has, hidle⟩ := ih h' hlen' hw' hrest'
        refine ⟨.round :: as, ?_, by rw [Run.exec_cons, Run.tryStep_of_some _ _ hs]; exact hidle⟩
        simpa [Action.Continues] using has
      · -- the link is a callback: its function returns
        obtain ⟨l, hl, -⟩ := (h'.inside j).mp ⟨_, hw'⟩
        obtain ⟨xs'', h''⟩ := h'.answered more hw' hl
        have hs' : (s.resumeLink (.object i)).step (.answer more) =
            some ((s.resumeLink (.object i)).answered j l (s.next (.object i)) more) := by
          simp only [Signal.step, hw', hl, Option.map_some]
        have hw'' := answered_walk (s.resumeLink (.object i)) j l (s.next (.object i)) more
        have hrest'' := h''.rest
        rw [hw''] at hrest''
        obtain ⟨as, has, hidle⟩ := ih h'' hlen' hw'' hrest''
        refine ⟨.round :: .answer more :: as, ?_, ?_⟩
        · simpa [Action.Continues] using has
        · rw [Run.exec_cons, Run.tryStep_of_some _ _ hs, Run.exec_cons, Run.tryStep_of_some _ _ hs']
          exact hidle

/-- The suspend point resumes all its coroutines. -/
theorem InvAt.flushed (n : Nat) (h : InvAt s xs ws) (hn : s.ready.length = n)
    (hw : s.walk = .idle) : ∃ as : List (Action V), (∀ a ∈ as, a.Continues more) ∧
      (Run.exec Signal.step s as).AtRest := by
  induction n generalizing s xs ws with
  | zero => exact ⟨[], by simp, hw, List.eq_nil_of_length_eq_zero hn⟩
  | succ n ih =>
      obtain ⟨i, ready, hready⟩ := List.exists_cons_of_length_eq_add_one hn
      have hi : i ∈ s.ready := hready ▸ List.mem_cons_self
      obtain ⟨l, hl, -⟩ := (h.taken i).mp (List.mem_append_right _ hi)
      have hs : s.step (.resume i) = some (s.resumed i l) := by
        simp only [Signal.step, hw, hi, true_and, if_true, hl, Option.map_some]
      have hfields : (s.resumed i l).walk = s.walk ∧ (s.resumed i l).ready = s.ready.erase i := by
        simp only [Signal.resumed]
        split <;> exact ⟨rfl, rfl⟩
      have hlen : (s.resumed i l).ready.length = n := by
        rw [hfields.2, List.length_erase_of_mem hi]
        omega
      obtain ⟨as, has, hrest⟩ := ih (h.resumed hw hi hl) hlen (hfields.1.trans hw)
      refine ⟨.resume i :: as, ?_, by rw [Run.exec_cons, Run.tryStep_of_some _ _ hs]; exact hrest⟩
      simpa [Action.Continues] using has

/-- An emission that goes on comes to its end. -/
theorem Inv.comesToRest (h : Inv s) : ∃ as : List (Action V),
    (∀ a ∈ as, a.Continues more) ∧ (Run.exec Signal.step s as).AtRest := by
  -- up to the end of the walk
  obtain ⟨as, has, hidle⟩ : ∃ as : List (Action V), (∀ a ∈ as, a.Continues more) ∧
      (Run.exec Signal.step s as).walk = .idle := by
    obtain ⟨xs, ws, h⟩ := h
    cases hw : s.walk with
    | idle => exact ⟨[], by simp, hw⟩
    | loop chain => exact h.walkEnds more _ rfl hw
    | inside i chain =>
        obtain ⟨l, hl, -⟩ := (h.inside i).mp ⟨chain, hw⟩
        obtain ⟨xs', h'⟩ := h.answered more hw hl
        have hs : s.step (.answer more) = some (s.answered i l chain more) := by
          simp only [Signal.step, hw, hl, Option.map_some]
        obtain ⟨as, has, hidle⟩ := h'.walkEnds more _ rfl (answered_walk s i l chain more)
        refine ⟨.answer more :: as, ?_, ?_⟩
        · simpa [Action.Continues] using has
        · rw [Run.exec_cons, Run.tryStep_of_some _ _ hs]
          exact hidle
  obtain ⟨xs, ws, h'⟩ := Run.exec_inv (fun _ _ _ h hs => h.step hs) h as
  obtain ⟨bs, hbs, hrest⟩ := h'.flushed more _ rfl hidle
  refine ⟨as ++ bs, fun a ha => ?_, by rw [Run.exec_append]; exact hrest⟩
  rcases List.mem_append.mp ha with ha | ha
  · exact has a ha
  · exact hbs a ha

end Inv

/-- **Signal delivery**: in every run each listener receives every value emitted while it was
waiting exactly once and in the order of the emissions, a callback that returned `false` is not
called again, every callback object is deleted once, and every coroutine still waiting when the
state goes gets its exception once. -/
theorem delivers_exec (as : List (Action V)) : Delivers (Run.exec step ({} : Signal V) as) := by
  have hstep : ∀ (s : Signal V) a s', Inv s → s.step a = some s' → Inv s' :=
    fun _ _ _ h hs => h.step hs
  have h := Run.exec_inv hstep inv_init as
  obtain ⟨xs, ws, hat⟩ := id h
  exact ⟨fun _ _ hl => hat.served hl, hat.noFault, fun more => h.comesToRest more⟩

end Signal

end Cocls
