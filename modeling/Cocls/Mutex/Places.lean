import Mathlib.Data.List.Perm.Basic
import Cocls.Mutex.Steps

/-!
# Cocls.Mutex.Places

Where the linked awaiters are while the steps of the mutex interleave.

At any moment there is one *token*: nobody has it (`free`), or the party whose
awaiter is alone at the bottom of `_requests` and who will find that it owns the
mutex (`claim`, `sub`), or the party that owns the mutex or runs `unlock`
(`own`).  Every linked awaiter is in one place: on the stack of requests, on the
stack taken by `build_queue`, held in a local variable, or in `_queue`.  `Shape`
says for every position of the token how the mutex stores the places.
-/

namespace Cocls

namespace Mutex

/-! ## Where the linked awaiters are -/

/-- The linked awaiters by place: `stack`, the requests above the doorman, newest
first; `moved`, what `build_queue` has still to move; `held`, in a local
variable; `queue`, in `_queue`. -/
structure Places where
  stack : List Awaiter := []
  moved : List Awaiter := []
  held : List Awaiter := []
  queue : List Awaiter := []

/-- The linked awaiters that `build_queue` or `_queue` has. -/
def Places.taken (l : Places) : List Awaiter := l.moved ++ l.held ++ l.queue

/-- All linked awaiters. -/
def Places.all (l : Places) : List Awaiter := l.stack ++ l.taken

/-- The requests end at the doorman, `_queue` ends at null. -/
structure Chains (m : Mutex) (l : Places) : Prop where
  stack : Links m.next m.requests l.stack (some doorman)
  queue : Links m.next m.queue l.queue none

/-- How the awaiters are stored while `build_queue(stop)` runs. -/
def BuildShape (m : Mutex) (stop : Awaiter) (l : Places) : Build → Prop
  | .exchange =>
      l.stack = [] ∧ l.held = [] ∧ l.queue = [] ∧ m.queue = none ∧
        Links m.next m.requests l.moved (some stop)
  | .loop req => l.held = [] ∧ Chains m l ∧ Links m.next req l.moved (some stop)
  | .readQueue x req => l.held = [x] ∧ Chains m l ∧ Links m.next req l.moved (some stop)
  | .writeNext x req q =>
      l.held = [x] ∧ Chains m l ∧ Links m.next req l.moved (some stop) ∧ q = m.queue
  | .writeQueue x req =>
      l.held = [x] ∧ Chains m l ∧ Links m.next req l.moved (some stop) ∧ m.next x = m.queue

/-- How the awaiters are stored at each position of an owner. -/
def OwnShape (m : Mutex) (l : Places) : OwnPc → Prop
  | .owner | .testQueue => l.moved = [] ∧ l.held = [] ∧ Chains m l
  | .exchange => l.moved = [] ∧ l.held = [] ∧ Chains m l ∧ m.queue = none
  | .build b => BuildShape m doorman l b ∧ l.taken ≠ []
  | .readFirst => l.moved = [] ∧ l.held = [] ∧ Chains m l ∧ l.queue ≠ []
  | .readQueue f => l.moved = [] ∧ l.held = [] ∧ Chains m l ∧ l.queue.head? = some f
  | .readNext f q => l.moved = [] ∧ l.held = [] ∧ Chains m l ∧ l.queue.head? = some f ∧ q = f
  | .writeQueue f n =>
      l.moved = [] ∧ l.held = [] ∧ Chains m l ∧ l.queue.head? = some f ∧ n = m.next f
  | .writeNext f | .resume f => l.moved = [] ∧ l.held = [f] ∧ Chains m l
  | .none | .released | .fault => False

/-- Who has the ownership, or is the only one who can take it. -/
inductive Token where
  | free
  | claim (p : Nat)
  | sub (p : Nat) (b : Build)
  | own (p : Nat) (o : OwnPc)

/-- How the mutex stores the linked awaiters, by the position of the token. -/
def Shape (m : Mutex) (l : Places) : Token → Prop
  | .free => l = {} ∧ m.requests = none ∧ m.queue = none
  | .claim p => BuildShape m (.object p) l .exchange ∧ m.next (.object p) = none
  | .sub p b => BuildShape m (.object p) l b
  | .own _ o => OwnShape m l o

/-! ## Writes that do not disturb the places -/

section Frame

variable {m m' : Mutex} {l : Places} {stop : Awaiter}

theorem mem_all {a : Awaiter} :
    a ∈ l.all ↔ a ∈ l.stack ∨ a ∈ l.moved ∨ a ∈ l.held ∨ a ∈ l.queue := by
  simp [Places.all, Places.taken]

/-- The chains depend on the `_next` fields of the linked awaiters only. -/
theorem Chains.agree (h : Chains m l) (hr : m'.requests = m.requests) (hq : m'.queue = m.queue)
    (hn : ∀ a ∈ l.all, m.next a = m'.next a) : Chains m' l where
  stack := by
    rw [hr]
    exact (Links.agree fun a ha => hn a (mem_all.mpr (.inl ha))).mp h.stack
  queue := by
    rw [hq]
    exact (Links.agree fun a ha => hn a (mem_all.mpr (.inr (.inr (.inr ha))))).mp h.queue

theorem BuildShape.agree {b : Build} (h : BuildShape m stop l b) (hr : m'.requests = m.requests)
    (hq : m'.queue = m.queue) (hn : ∀ a ∈ l.all, m.next a = m'.next a) :
    BuildShape m' stop l b := by
  have hmoved : ∀ a ∈ l.moved, m.next a = m'.next a :=
    fun a ha => hn a (mem_all.mpr (.inr (.inl ha)))
  cases b with
  | exchange =>
      obtain ⟨hs, hh, hqu, hqn, hm⟩ := h
      exact ⟨hs, hh, hqu, hq.trans hqn, hr ▸ (Links.agree hmoved).mp hm⟩
  | loop req =>
      obtain ⟨hh, hc, hm⟩ := h
      exact ⟨hh, hc.agree hr hq hn, (Links.agree hmoved).mp hm⟩
  | readQueue x req =>
      obtain ⟨hh, hc, hm⟩ := h
      exact ⟨hh, hc.agree hr hq hn, (Links.agree hmoved).mp hm⟩
  | writeNext x req q =>
      obtain ⟨hh, hc, hm, hqq⟩ := h
      exact ⟨hh, hc.agree hr hq hn, (Links.agree hmoved).mp hm, hqq.trans hq.symm⟩
  | writeQueue x req =>
      obtain ⟨hh, hc, hm, hx⟩ := h
      have hxmem : x ∈ l.all := mem_all.mpr (.inr (.inr (.inl (by simp [hh]))))
      exact ⟨hh, hc.agree hr hq hn, (Links.agree hmoved).mp hm,
        by rw [← hn x hxmem, hx, hq]⟩

theorem OwnShape.agree {o : OwnPc} (h : OwnShape m l o) (hr : m'.requests = m.requests)
    (hq : m'.queue = m.queue) (hn : ∀ a ∈ l.all, m.next a = m'.next a) : OwnShape m' l o := by
  cases o with
  | owner | testQueue => exact ⟨h.1, h.2.1, h.2.2.agree hr hq hn⟩
  | exchange => exact ⟨h.1, h.2.1, h.2.2.1.agree hr hq hn, hq.trans h.2.2.2⟩
  | build b => exact ⟨h.1.agree hr hq hn, h.2⟩
  | readFirst => exact ⟨h.1, h.2.1, h.2.2.1.agree hr hq hn, h.2.2.2⟩
  | readQueue f => exact ⟨h.1, h.2.1, h.2.2.1.agree hr hq hn, h.2.2.2⟩
  | readNext f q => exact ⟨h.1, h.2.1, h.2.2.1.agree hr hq hn, h.2.2.2⟩
  | writeQueue f n =>
      obtain ⟨hm, hh, hc, hf, hn'⟩ := h
      have hfmem : f ∈ l.all := mem_all.mpr (.inr (.inr (.inr (List.mem_of_mem_head? hf))))
      exact ⟨hm, hh, hc.agree hr hq hn, hf, hn'.trans (hn f hfmem)⟩
  | writeNext f | resume f => exact ⟨h.1, h.2.1, h.2.2.agree hr hq hn⟩
  | none | released | fault => exact h.elim

/-- Writing the `_next` field of an awaiter that is not linked, and whose party
does not claim the mutex, keeps the shape. -/
theorem Shape.update {tok : Token} {a : Awaiter} {v : Option Awaiter} (h : Shape m l tok)
    (ha : a ∉ l.all) (hc : ∀ p, tok = .claim p → a ≠ .object p) :
    Shape { m with next := Function.update m.next a v } l tok := by
  have hn : ∀ x ∈ l.all, m.next x = Function.update m.next a v x := by
    intro x hx
    rw [Function.update_of_ne]
    exact fun hxa => ha (hxa ▸ hx)
  cases tok with
  | free => exact h
  | claim p =>
      refine ⟨h.1.agree rfl rfl hn, ?_⟩
      show Function.update m.next a v (.object p) = none
      rw [Function.update_of_ne (hc p rfl).symm]
      exact h.2
  | sub p b => exact BuildShape.agree h rfl rfl hn
  | own p o => exact OwnShape.agree h rfl rfl hn

end Frame

/-! ## Publishing an awaiter -/

section Push

variable {m : Mutex} {l : Places} {stop a : Awaiter}

theorem Chains.push (h : Chains m l) (hn : m.next a = m.requests) :
    Chains { m with requests := some a } { l with stack := a :: l.stack } where
  stack := ⟨rfl, by rw [hn]; exact h.stack⟩
  queue := h.queue

/-- A published awaiter joins the stack, or what `build_queue` will take. -/
theorem BuildShape.push {b : Build} (h : BuildShape m stop l b) (hn : m.next a = m.requests) :
    ∃ l', BuildShape { m with requests := some a } stop l' b ∧ l'.all.Perm (a :: l.all) ∧
      (l.taken ≠ [] → l'.taken ≠ []) := by
  cases b with
  | exchange =>
      obtain ⟨hs, hh, hqu, hqn, hm⟩ := h
      refine ⟨{ l with moved := a :: l.moved },
        ⟨hs, hh, hqu, hqn, rfl, by rw [hn]; exact hm⟩, ?_, by simp [Places.taken]⟩
      simp [Places.all, Places.taken, hs]
  | loop _ | readQueue _ _ | writeNext _ _ _ | writeQueue _ _ =>
      exact ⟨{ l with stack := a :: l.stack }, ⟨h.1, h.2.1.push hn, h.2.2⟩,
        by simp [Places.all, Places.taken], id⟩

theorem OwnShape.push {o : OwnPc} (h : OwnShape m l o) (hn : m.next a = m.requests) :
    ∃ l', OwnShape { m with requests := some a } l' o ∧ l'.all.Perm (a :: l.all) := by
  have hperm : ({ l with stack := a :: l.stack } : Places).all.Perm (a :: l.all) := by
    simp [Places.all, Places.taken]
  cases o with
  | owner | testQueue =>
      exact ⟨{ l with stack := a :: l.stack }, ⟨h.1, h.2.1, h.2.2.push hn⟩, hperm⟩
  | exchange | readFirst | readQueue _ | readNext _ _ | writeQueue _ _ =>
      exact ⟨{ l with stack := a :: l.stack }, ⟨h.1, h.2.1, h.2.2.1.push hn, h.2.2.2⟩, hperm⟩
  | build b =>
      obtain ⟨l', hl', hp, htaken⟩ := h.1.push hn
      exact ⟨l', ⟨hl', htaken h.2⟩, hp⟩
  | writeNext _ | resume _ =>
      exact ⟨{ l with stack := a :: l.stack }, ⟨h.1, h.2.1, h.2.2.push hn⟩, hperm⟩
  | none | released | fault => exact h.elim

/-- Publishing an awaiter over a nonempty `_requests` keeps the shape, with one
more awaiter linked. -/
theorem Shape.push {tok : Token} (h : Shape m l tok) (hf : tok ≠ .free)
    (hn : m.next a = m.requests) :
    ∃ l', Shape { m with requests := some a } l' tok ∧ l'.all.Perm (a :: l.all) := by
  cases tok with
  | free => exact absurd rfl hf
  | claim p =>
      obtain ⟨l', hl', hp, -⟩ := h.1.push hn
      exact ⟨l', ⟨hl', h.2⟩, hp⟩
  | sub p b =>
      obtain ⟨l', hl', hp, -⟩ := BuildShape.push h hn
      exact ⟨l', hl', hp⟩
  | own p o => exact OwnShape.push h hn

theorem BuildShape.requests_ne_none {b : Build} (h : BuildShape m stop l b) :
    m.requests ≠ none := by
  cases b with
  | exchange => exact Links.start_ne_none h.2.2.2.2
  | loop _ | readQueue _ _ | writeNext _ _ _ | writeQueue _ _ =>
      exact Links.start_ne_none h.2.1.stack

/-- `_requests` is null exactly while the token is free. -/
theorem Shape.free_iff {tok : Token} (h : Shape m l tok) : m.requests = none ↔ tok = .free := by
  constructor
  · intro hr
    cases tok with
    | free => rfl
    | claim p => exact absurd hr h.1.requests_ne_none
    | sub p b => exact absurd hr (BuildShape.requests_ne_none h)
    | own p o =>
        cases o with
        | owner | testQueue | writeNext _ | resume _ =>
            exact absurd hr (Links.start_ne_none h.2.2.stack)
        | exchange | readFirst | readQueue _ | readNext _ _ | writeQueue _ _ =>
            exact absurd hr (Links.start_ne_none h.2.2.1.stack)
        | build b => exact absurd hr h.1.requests_ne_none
        | none | released | fault => exact h.elim
  · rintro rfl
    exact h.2.1

end Push

/-- At every position `_queue` is the chain of its place. -/
theorem Shape.queue {m : Mutex} {l : Places} {tok : Token} (h : Shape m l tok) :
    Links m.next m.queue l.queue none := by
  have hbuild : ∀ {stop b}, BuildShape m stop l b → Links m.next m.queue l.queue none := by
    intro stop b hb
    cases b with
    | exchange =>
        obtain ⟨-, -, hq, hqn, -⟩ := hb
        rw [hq, hqn]
        rfl
    | loop _ | readQueue _ _ | writeNext _ _ _ | writeQueue _ _ => exact hb.2.1.queue
  cases tok with
  | free =>
      obtain ⟨rfl, -, hq⟩ := h
      exact hq
  | claim p => exact hbuild h.1
  | sub p b => exact hbuild h
  | own p o =>
      cases o with
      | owner | testQueue | writeNext _ | resume _ => exact h.2.2.queue
      | exchange | readFirst | readQueue _ | readNext _ _ | writeQueue _ _ => exact h.2.2.1.queue
      | build b => exact hbuild h.1
      | none | released | fault => exact h.elim

/-! ## One step of build_queue -/

/-- A step of `build_queue` keeps its shape and the set of taken awaiters, and it
returns only when everything taken is in `_queue`. -/
theorem buildStep_spec {m : Mutex} {stop : Awaiter} {l : Places} {b : Build}
    (h : BuildShape m stop l b) (hnd : l.all.Nodup) (hstop : stop ∉ l.all) :
    (∃ m' b' l', buildStep m stop b = (m', some b') ∧ BuildShape m' stop l' b' ∧
      l'.stack = l.stack ∧ l'.taken.Perm l.taken) ∨
    (buildStep m stop b = (m, none) ∧ l.moved = [] ∧ l.held = [] ∧ Chains m l) := by
  cases b with
  | exchange =>
      obtain ⟨hs, hh, hqu, hqn, hm⟩ := h
      refine .inl ⟨_, _, l, rfl, ⟨hh, ⟨?_, ?_⟩, hm⟩, rfl, List.Perm.refl _⟩
      · rw [hs]
        rfl
      · rw [hqu]
        exact hqn
  | loop req =>
      obtain ⟨hh, hc, hm⟩ := h
      have hstop' : ∀ x ∈ l.moved, some stop ≠ some x := by
        rintro x hx ⟨⟩
        exact hstop (mem_all.mpr (.inr (.inl hx)))
      cases req with
      | none => exact absurd rfl (Links.start_ne_none hm)
      | some x =>
          by_cases hx : x = stop
          · have hmoved : l.moved = [] := (Links.eq_end_iff hm hstop').mp (by rw [hx])
            exact .inr ⟨by rw [buildStep, if_pos hx], hmoved, hh, hc⟩
          · cases hmv : l.moved with
            | nil =>
                rw [hmv] at hm
                exact absurd (Option.some.inj hm) hx
            | cons y ys =>
                rw [hmv] at hm
                obtain ⟨hxy, hrest⟩ := hm
                obtain rfl := Option.some.inj hxy
                refine .inl ⟨m, .readQueue x (m.next x), { l with moved := ys, held := [x] },
                  by rw [buildStep, if_neg hx], ⟨rfl, ⟨hc.stack, hc.queue⟩, hrest⟩, rfl, ?_⟩
                simp [Places.taken, hmv, hh, List.perm_middle]
  | readQueue x req =>
      exact .inl ⟨m, _, l, rfl, ⟨h.1, h.2.1, h.2.2, rfl⟩, rfl, List.Perm.refl _⟩
  | writeNext x req q =>
      obtain ⟨hh, hc, hm, rfl⟩ := h
      have hx : x ∉ l.stack ∧ x ∉ l.moved ∧ x ∉ l.queue := by
        simp only [Places.all, Places.taken, hh, List.append_assoc, List.nodup_append',
          List.disjoint_left, List.mem_append, List.mem_singleton] at hnd
        refine ⟨fun hmem => ?_, fun hmem => ?_, fun hmem => ?_⟩
        · exact hnd.2.2 hmem (.inr (.inl rfl))
        · exact hnd.2.1.2.2 hmem (.inl rfl)
        · exact hnd.2.1.2.1.2.2 rfl hmem
      refine .inl ⟨_, _, l, rfl, ⟨hh, ⟨?_, ?_⟩, ?_, ?_⟩, rfl, List.Perm.refl _⟩
      · exact (Links.update_iff hx.1).mpr hc.stack
      · exact (Links.update_iff hx.2.2).mpr hc.queue
      · exact (Links.update_iff hx.2.1).mpr hm
      · exact Function.update_self x m.queue m.next
  | writeQueue x req =>
      obtain ⟨hh, hc, hm, hx⟩ := h
      refine .inl ⟨_, _, { l with held := [], queue := x :: l.queue }, rfl,
        ⟨rfl, ⟨hc.stack, rfl, ?_⟩, hm⟩, rfl, ?_⟩
      · show Links m.next (m.next x) l.queue none
        rw [hx]
        exact hc.queue
      · simp [Places.taken, hh]

end Mutex

end Cocls
