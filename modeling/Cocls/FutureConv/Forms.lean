import Cocls.FutureConv
import Cocls.Owners

/-!
# Cocls.FutureConv.Forms

Every run of a convertor, in each of its forms.

A pending target has exactly one promise: in `_prom`, with a converter, or
outside.  The rest is said of each charge by itself (`Charge.Good`), and a step
concerns one charge.
-/

namespace Cocls

namespace FutureConv

open Owners (Owned)

variable {T U E : Type*} {f : Form} {canceled : E}

/-! ## One charge -/

theorem Verdict.nothing_or (v : Verdict U E) : Verdict.nothing.or v = v := rfl

theorem Verdict.or_of_ne {v : Verdict U E} (h : v ≠ .nothing) (w : Verdict U E) : v.or w = v := by
  cases v with
  | nothing => exact absurd rfl h
  | gave r => rfl
  | passed => rfl

theorem Verdict.or_ne_nothing (v : Verdict U E) {w : Verdict U E} (h : w ≠ .nothing) :
    v.or w ≠ .nothing := by
  cases v with
  | nothing => exact h
  | gave r => simp [Verdict.or]
  | passed => simp [Verdict.or]

/-- What one charge has come to. -/
structure Charge.Good (canceled : E) (target : Nat → Target U E) (c : Charge T U E) : Prop where
  waiting : c.place = .waiting → c.source = none ∧ c.calls = [] ∧ c.verdict = .nothing
  inside : ∀ p, c.place = .inside p → (∃ v, c.source = some (.value v) ∧ c.calls = [.value v]) ∧
    (c.verdict = .nothing → p = c.target) ∧ (c.verdict ≠ .nothing → p = none)
  returned : c.place = .returned → ∃ r, c.source = some r ∧
    (r.thrown canceled = none → c.calls = [r] ∧ c.verdict ≠ .nothing) ∧
    ∀ e, r.thrown canceled = some e →
      c.calls = [] ∧ ∀ t, c.target = some t → target t = .resolved (.exception e)
  gave : ∀ t r, c.target = some t → c.verdict = .gave r → target t = .resolved r

namespace Charge

variable {target target' : Nat → Target U E} {c : Charge T U E} {p : Option Nat}

/-- A resolved future stays as it is. -/
theorem Good.mono (h : c.Good canceled target)
    (hkeep : ∀ t r, target t = .resolved r → target' t = .resolved r) :
    c.Good canceled target' where
  waiting := h.waiting
  inside := h.inside
  returned hp := by
    obtain ⟨r, hr, hvalue, hfail⟩ := h.returned hp
    refine ⟨r, hr, hvalue, fun e he => ⟨(hfail e he).1, fun t ht => ?_⟩⟩
    exact hkeep t _ ((hfail e he).2 t ht)
  gave t r ht hr := hkeep t r (h.gave t r ht hr)

theorem good_new (p : Option Nat) : ({ target := p } : Charge T U E).Good canceled target where
  waiting _ := ⟨rfl, rfl, rfl⟩
  inside p hp := by cases hp
  returned hp := by cases hp
  gave t r _ hr := by cases hr

/-- The converter gives `r`, or parts with its promise. -/
theorem Good.decide (h : c.Good canceled target) (hin : c.place = .inside p) {place : Place}
    (hplace : place = .inside none ∨ place = .returned) {v : Verdict U E} (hv : v ≠ .nothing)
    (hkeep : ∀ t r, target t = .resolved r → target' t = .resolved r)
    (hgave : ∀ t r, p = some t → v = .gave r → target' t = .resolved r) :
    ({ c with place := place, verdict := c.verdict.or v } : Charge T U E).Good
      canceled target' where
  waiting hp := by
    obtain rfl | rfl := hplace <;> cases hp
  inside q hq := by
    refine ⟨(h.inside p hin).1, fun hnone => ?_, fun _ => ?_⟩
    · exact absurd hnone (Verdict.or_ne_nothing c.verdict hv)
    · obtain rfl | rfl := hplace <;> cases hq
      rfl
  returned _ := by
    obtain ⟨⟨w, hsource, hcalls⟩, -⟩ := h.inside p hin
    refine ⟨.value w, hsource, fun _ => ⟨hcalls, Verdict.or_ne_nothing c.verdict hv⟩, ?_⟩
    intro e he
    cases he
  gave t r ht hr := by
    by_cases hc : c.verdict = .nothing
    · rw [hc] at hr
      exact hgave t r (((h.inside p hin).2.1 hc).trans ht) hr
    · refine hkeep t r (h.gave t r ht ?_)
      rwa [Verdict.or_of_ne hc] at hr

/-- The resume function finds that the source failed. -/
theorem Good.fail (h : c.Good canceled target) (hw : c.place = .waiting) {r : Stored T E} {e : E}
    (hr : r.thrown canceled = some e)
    (ht : ∀ t, c.target = some t → target' t = .resolved (.exception e)) :
    ({ c with source := some r, place := .returned } : Charge T U E).Good canceled target' where
  waiting hp := by cases hp
  inside p hp := by cases hp
  returned _ := by
    refine ⟨r, rfl, fun hnone => ?_, fun e' he' => ⟨(h.waiting hw).2.1, ?_⟩⟩
    · rw [hr] at hnone
      cases hnone
    · obtain rfl : e = e' := Option.some.inj (hr.symm.trans he')
      exact ht
  gave t q _ hq := by simp [(h.waiting hw).2.2] at hq

/-- It calls the converter. -/
theorem Good.enter (h : c.Good canceled target) (hw : c.place = .waiting) (v : T) :
    ({ c with source := some (.value v), place := .inside c.target
              calls := c.calls ++ [.value v] } : Charge T U E).Good canceled target where
  waiting hp := by cases hp
  inside p hp := by
    cases hp
    obtain ⟨-, hcalls, hverdict⟩ := h.waiting hw
    exact ⟨⟨v, rfl, by simp [hcalls]⟩, fun _ => rfl, fun hn => absurd hverdict hn⟩
  returned hp := by cases hp
  gave t q _ hq := by simp [(h.waiting hw).2.2] at hq

end Charge

namespace Convertor

variable {s s' : Convertor T U E}

/-! ## Futures and their promises -/

section Settle

variable (p : Option Nat) (r : Stored U E)

@[simp] theorem settle_prom : (s.settle p r).prom = s.prom := by cases p <;> rfl

@[simp] theorem settle_outside : (s.settle p r).outside = s.outside := by cases p <;> rfl

@[simp] theorem settle_charge : (s.settle p r).charge = s.charge := by cases p <;> rfl

theorem settle_target_self (t : Nat) : (s.settle (some t) r).target t = .resolved r :=
  Function.update_self _ _ _

theorem settle_target_of_ne {t : Nat} (h : p ≠ some t) : (s.settle p r).target t = s.target t := by
  cases p with
  | none => rfl
  | some u => exact Function.update_of_ne (fun htu => h (by rw [htu])) _ _

theorem settle_pending (t : Nat) :
    (s.settle p r).target t = .pending ↔ p ≠ some t ∧ s.target t = .pending := by
  by_cases h : p = some t
  · subst h
    simp [settle_target_self]
  · simp [settle_target_of_ne p r h, h]

end Settle

/-- Who has the promise of a future. -/
inductive Holder where
  | prom
  | converter (k : Nat)
  | outside

/-- The promise of `t` is there. -/
def Holds (s : Convertor T U E) : Holder → Nat → Prop
  | .prom, t => s.prom = some t
  | .converter k, t => (s.charge k).place = .inside (some t)
  | .outside, t => s.outside t = true

section Holds

variable {k : Nat} {c : Charge T U E} (x : Holder) (t : Nat)

/-- The converter has no promise any more. -/
theorem holds_release {p : Option Nat} (hin : (s.charge k).place = .inside p)
    (hc : ∀ t, c.place ≠ .inside (some t)) :
    (s.setCharge k c).Holds x t ↔ s.Holds x t ∧ ¬ (x = .converter k ∧ p = some t) := by
  cases x with
  | prom | outside => simp [Holds, setCharge]
  | converter j =>
      by_cases hj : j = k
      · subst hj
        simp [Holds, setCharge, hc, hin]
      · simp [Holds, setCharge, hj]

/-- The promise goes along with the resume function, if that comes to the converter. -/
theorem holds_resumed (hwaiting : (s.charge k).place = .waiting) :
    (({ s with prom := none, due := false } : Convertor T U E).setCharge k c).Holds x t ↔
      (x = .converter k ∧ c.place = .inside (some t)) ∨
        (s.Holds x t ∧ ¬ (x = .prom ∧ s.prom = some t)) := by
  cases x with
  | prom | outside => simp [Holds, setCharge]
  | converter j =>
      by_cases hj : j = k
      · subst hj
        simp [Holds, setCharge, hwaiting]
      · simp [Holds, setCharge, hj]

/-- One more promise is outside. -/
theorem holds_outside (u : Nat) :
    ({ s with outside := Function.update s.outside u true } : Convertor T U E).Holds x t ↔
      (x = .outside ∧ some u = some t) ∨ s.Holds x t := by
  cases x with
  | prom | converter j => simp [Holds]
  | outside =>
      by_cases htu : t = u
      · simp [Holds, htu]
      · simp [Holds, htu, Ne.symm htu]

/-- A promise is outside no more. -/
theorem holds_not_outside (u : Nat) :
    ({ s with outside := Function.update s.outside u false } : Convertor T U E).Holds x t ↔
      s.Holds x t ∧ ¬ (x = .outside ∧ some u = some t) := by
  cases x with
  | prom | converter j => simp [Holds]
  | outside =>
      by_cases htu : t = u
      · simp [Holds, htu]
      · simp [Holds, htu, Ne.symm htu]

end Holds

/-- Where `_fut` and the registration stand. -/
def Phase (s : Convertor T U E) : Prop :=
  match s.fut with
  | .unused => s.registering = false ∧ s.due = false
  | .pending subscribed => s.registering = !subscribed ∧ s.due = false
  | .ready _ => s.registering = false ∨ s.due = false

structure Inv (canceled : E) (s : Convertor T U E) : Prop where
  owned : Owned s.Holds fun t => s.target t = .pending
  good : ∀ k, (s.charge k).Good canceled s.target
  fresh : ∀ k, s.charges ≤ k → (s.charge k).place = .waiting
  current : s.busy = true →
    ∃ k, s.charges = k + 1 ∧ (s.charge k).place = .waiting ∧ (s.charge k).target = s.prom
  idle : s.busy = false → s.prom = none
  phase : s.Phase

theorem inv_init : Inv canceled ({} : Convertor T U E) where
  owned := .of_none (fun t ht => by cases ht) fun x t hx => by cases x <;> cases hx
  good _ := Charge.good_new none
  fresh _ _ := rfl
  current h := by cases h
  idle _ := rfl
  phase := ⟨rfl, rfl⟩

/-- A resolved future is nobody's. -/
theorem Inv.not_resolved (h : Inv canceled s) {x : Holder} {t : Nat} (hx : s.Holds x t)
    (r : Stored U E) : s.target t ≠ .resolved r := by
  rw [h.owned.only_open x t hx]
  simp

/-- A promise that is held settles a pending future. -/
theorem Inv.settle_keeps (h : Inv canceled s) {p : Option Nat}
    (hp : ∀ t, p = some t → ∃ x, s.Holds x t) (r : Stored U E) :
    ∀ t q, s.target t = .resolved q → (s.settle p r).target t = .resolved q := by
  intro t q hq
  rw [settle_target_of_ne, hq]
  intro hpt
  obtain ⟨x, hx⟩ := hp t hpt
  exact h.not_resolved hx q hq

/-- A promise is made for a new future. -/
theorem make_keeps {t : Nat} (ht : s.target t = .unused) (u : Nat) (r : Stored U E)
    (hr : s.target u = .resolved r) : Function.update s.target t .pending u = .resolved r := by
  rw [Function.update_of_ne, hr]
  rintro rfl
  rw [ht] at hr
  cases hr

/-- One charge changes, and targets that are resolved stay so. -/
theorem Inv.good_update (h : Inv canceled s) {k : Nat} {c : Charge T U E}
    {target : Nat → Target U E} (hkeep : ∀ t r, s.target t = .resolved r → target t = .resolved r)
    (hgood : c.Good canceled target) (j : Nat) :
    (Function.update s.charge k c j).Good canceled target := by
  by_cases hj : j = k
  · subst hj
    simpa only [Function.update_self] using hgood
  · simpa only [Function.update_of_ne hj] using (h.good j).mono hkeep

/-! ## The converter -/

/-- **A step of the converter**: one charge, its target and the promises outside. -/
theorem Inv.converter {k : Nat} {c : Charge T U E} {target : Nat → Target U E}
    {outside : Nat → Bool} (h : Inv canceled s) (hk : (s.charge k).place ≠ .waiting)
    (hkeep : ∀ t r, s.target t = .resolved r → target t = .resolved r)
    (hgood : c.Good canceled target)
    (howned : Owned (({ s with target := target, outside := outside } : Convertor T U E).setCharge
      k c).Holds fun t => target t = .pending) :
    Inv canceled (({ s with target := target, outside := outside } : Convertor T U E).setCharge
      k c) where
  owned := howned
  good := h.good_update hkeep hgood
  fresh j hj := by
    have hjk : j ≠ k := fun hjk => hk (hjk ▸ h.fresh j hj)
    simpa [setCharge, hjk] using h.fresh j hj
  current hb := by
    obtain ⟨j, hj, hplace, htarget⟩ := h.current hb
    have hjk : j ≠ k := fun hjk => hk (hjk ▸ hplace)
    refine ⟨j, hj, ?_, ?_⟩
    · simpa [setCharge, hjk] using hplace
    · simpa [setCharge, hjk] using htarget
  idle := h.idle
  phase := h.phase

theorem settle_eq (p : Option Nat) (r : Stored U E) : s.settle p r =
    { s with target := (s.settle p r).target, outside := s.outside } := by
  cases p <;> rfl

section Converter

variable {k : Nat} {p : Option Nat} {place : Place}

/-- It settles its target, or finds its promise empty. -/
theorem Inv.give (h : Inv canceled s) (hin : (s.charge k).place = .inside p)
    (hplace : place = .inside none ∨ place = .returned) (r : Stored U E) :
    Inv canceled (s.give k p r place) := by
  have hnot : ∀ t, place ≠ .inside (some t) := by
    obtain rfl | rfl := hplace <;> simp
  have hholds : ∀ t, p = some t → s.Holds (.converter k) t := fun t ht => by
    rw [Holds, hin, ht]
  have hkeep := h.settle_keeps (fun t ht => ⟨_, hholds t ht⟩) r
  rw [Convertor.give, settle_eq]
  refine h.converter (by simp [hin]) hkeep ?_ ?_
  · refine (h.good k).decide hin hplace (by simp) hkeep fun t q ht hq => ?_
    cases hq
    subst ht
    exact settle_target_self r t
  · exact h.owned.close hholds (fun x t => holds_release x t hin hnot) (settle_pending p r)

/-- The construction of the value does not throw, since there is no target. -/
theorem Inv.giveThrows (h : Inv canceled s) (hin : (s.charge k).place = .inside none)
    (hplace : place = .inside none ∨ place = .returned) (w : U) :
    Inv canceled (s.giveThrows k w place) :=
  h.give hin hplace (.value w)

/-- It parts with its promise; `outside` says where the promise is then. -/
theorem Inv.movePromise (h : Inv canceled s) (hin : (s.charge k).place = .inside p) :
    Inv canceled { s.part k with outside := match p with
      | none => s.outside
      | some t => Function.update s.outside t true } := by
  have hholds : ∀ t, p = some t → s.Holds (.converter k) t := fun t ht => by
    rw [Holds, hin, ht]
  refine h.converter (by simp [hin]) (fun _ _ hr => hr) ?_ ?_
  · exact (h.good k).decide hin (.inl rfl) (by simp) (fun _ _ hr => hr) fun t q _ hq => by cases hq
  · refine h.owned.move hholds .outside (fun x t => ?_) fun t => Iff.rfl
    have hrelease : (s.part k).Holds x t ↔ _ := holds_release x t hin (by simp)
    rw [← hrelease]
    cases p with
    | none => exact ⟨.inr, fun hx => hx.resolve_left (by simp)⟩
    | some u => exact holds_outside (s := s.part k) x t u

end Converter

/-! ## Charging -/

theorem busy_eq_false : s.busy = false ↔
    s.fut.isPending = false ∧ s.registering = false ∧ s.due = false := by
  simp [busy, and_assoc]

/-- `_prom` is free, and the promise that the convertor is charged with goes there. -/
theorem Inv.start (h : Inv canceled s) (hidle : s.busy = false) {p : Option Nat} (b : Begun T E)
    {target : Nat → Target U E} {outside : Nat → Bool} {charge : Nat → Charge T U E}
    (hgood : ∀ j, (charge j).Good canceled target)
    (hfresh : ∀ j, s.charges ≤ j → (charge j).place = .waiting)
    (howned : Owned
      ({ s with prom := p, target := target, outside := outside, charge := charge } :
        Convertor T U E).Holds fun t => target t = .pending) :
    Inv canceled (({ s with target := target, outside := outside, charge := charge } :
      Convertor T U E).start p b) := by
  have hprom := h.idle hidle
  obtain ⟨-, hreg, hdue⟩ := busy_eq_false.mp hidle
  simp only [Convertor.start, hprom, settle]
  exact {
    owned := by
      refine howned.congr (fun x t => ?_) fun t => Iff.rfl
      cases x with
      | prom | outside => rfl
      | converter j =>
          by_cases hj : j = s.charges
          · subst hj
            simp [Holds, hfresh]
          · simp [Holds, hj]
    good := fun j => by
      by_cases hj : j = s.charges
      · subst hj
        simpa only [Function.update_self] using Charge.good_new p
      · simpa only [Function.update_of_ne hj] using hgood j
    fresh := fun j hj => by
      have hjk : j ≠ s.charges := fun hjk => by
        subst hjk
        exact absurd hj (by simp)
      simpa only [Function.update_of_ne hjk] using hfresh j (Nat.le_of_succ_le hj)
    current := fun _ => ⟨s.charges, rfl, by simp, by simp⟩
    idle := fun hb => by simp [busy] at hb
    phase := by
      cases b <;> simp [Phase, Begun.source, hdue] }

theorem Inv.charge (h : Inv canceled s) (hidle : s.busy = false) {t : Nat}
    (ht : s.target t = .unused) (b : Begun T E) :
    Inv canceled
      (({ s with target := Function.update s.target t .pending } : Convertor T U E).start
        (some t) b) := by
  have hprom := h.idle hidle
  refine h.start hidle b (fun j => (h.good j).mono (make_keeps ht)) h.fresh ?_
  refine h.owned.add (p := some t) (fun u hu => ?_) .prom (fun x u => ?_) fun u => ?_
  · cases hu
    simp [ht]
  · cases x <;> simp [Holds, hprom]
  · by_cases hut : u = t
    · simp [hut]
    · simp [hut, Ne.symm hut]

theorem Inv.chargeWith (h : Inv canceled s) (hidle : s.busy = false) {t : Nat}
    (ht : s.outside t = true) (b : Begun T E) :
    Inv canceled
      (({ s with outside := Function.update s.outside t false } : Convertor T U E).start
        (some t) b) := by
  have hprom := h.idle hidle
  refine h.start hidle b h.good h.fresh ?_
  refine h.owned.move (p := some t) (y := .outside) (fun u hu => ?_) .prom (fun x u => ?_)
    fun u => Iff.rfl
  · cases hu
    exact ht
  · rw [← holds_not_outside]
    cases x <;> simp [Holds, hprom]

theorem Inv.recharge (h : Inv canceled s) (hidle : s.busy = false) {k : Nat} {p : Option Nat}
    (hin : (s.charge k).place = .inside p) (b : Begun T E) :
    Inv canceled ((s.part k).start p b) := by
  have hprom := h.idle hidle
  have hk : (s.charge k).place ≠ .waiting := by simp [hin]
  refine h.start hidle b (fun j => ?_) (fun j hj => ?_) ?_
  · refine h.good_update (fun _ _ hr => hr) ?_ j
    exact (h.good k).decide hin (.inl rfl) (by simp) (fun _ _ hr => hr)
      fun t q _ hq => by cases hq
  · have hjk : j ≠ k := fun hjk => hk (hjk ▸ h.fresh j hj)
    simpa only [Function.update_of_ne hjk] using h.fresh j hj
  · refine h.owned.move (p := p) (y := .converter k) (fun t ht => by rw [Holds, hin, ht]) .prom
      (fun x t => ?_) fun t => Iff.rfl
    have hrelease : (s.part k).Holds x t ↔ _ := holds_release x t hin (by simp)
    rw [← hrelease]
    cases x <;> simp [Holds, part, setCharge, hprom]

theorem Inv.chargeWithNone (h : Inv canceled s) (hidle : s.busy = false) (b : Begun T E) :
    Inv canceled (s.start none b) := by
  refine h.start hidle b h.good h.fresh (h.owned.congr (fun x t => ?_) fun t => Iff.rfl)
  cases x <;> simp [Holds, h.idle hidle]

/-! ## The source -/

theorem Inv.subscribe (h : Inv canceled s) (hs : s.subscribe = some s') : Inv canceled s' := by
  have hphase := h.phase
  rw [Convertor.subscribe] at hs
  split at hs
  · next subscribed hreg hfut =>
    obtain rfl := Option.some.inj hs
    simp only [Phase, hfut, hreg] at hphase
    exact { h with
      owned := h.owned.congr (fun x t => by cases x <;> rfl) fun t => Iff.rfl
      current := fun _ => h.current (by simp [busy, hreg])
      idle := fun hb => by simp [busy, Source.isPending] at hb
      phase := ⟨rfl, hphase.2⟩ }
  · next r hreg hfut =>
    obtain rfl := Option.some.inj hs
    exact { h with
      owned := h.owned.congr (fun x t => by cases x <;> rfl) fun t => Iff.rfl
      current := fun _ => h.current (by simp [busy, hreg])
      idle := fun hb => by simp [busy] at hb
      phase := by simp [Phase, hfut] }
  · cases hs

theorem Inv.resolve (h : Inv canceled s) {arg : PromiseArg T E} (hs : s.resolve arg = some s') :
    Inv canceled s' := by
  have hphase := h.phase
  rw [Convertor.resolve] at hs
  split at hs
  · next subscribed hfut =>
    obtain rfl := Option.some.inj hs
    simp only [Phase, hfut] at hphase
    exact { h with
      owned := h.owned.congr (fun x t => by cases x <;> rfl) fun t => Iff.rfl
      current := fun _ => h.current (by simp [busy, hfut, Source.isPending])
      idle := fun hb => by
        simp only [busy, hphase.1, Source.isPending] at hb
        cases subscribed <;> simp at hb
      phase := by cases subscribed <;> simp [Phase, hphase.1] }
  · cases hs
  · cases hs

/-- The resume function has taken the promise along. -/
theorem Inv.resumed (h : Inv canceled s) {r : Stored T E} (hfut : s.fut = .ready r)
    (hreg : s.registering = false) {k : Nat} (hk : s.charges = k + 1) {c : Charge T U E}
    {target : Nat → Target U E}
    (hkeep : ∀ t q, s.target t = .resolved q → target t = .resolved q)
    (hgood : c.Good canceled target)
    (howned : Owned (({ s with prom := none, due := false, target := target } :
      Convertor T U E).setCharge k c).Holds fun t => target t = .pending) :
    Inv canceled (({ s with prom := none, due := false, target := target } :
      Convertor T U E).setCharge k c) where
  owned := howned
  good := h.good_update hkeep hgood
  fresh j hj := by
    have hjk : j ≠ k := by
      rintro rfl
      exact absurd (hk ▸ hj : j + 1 ≤ j) (by omega)
    simpa [setCharge, hjk] using h.fresh j hj
  current hb := by simp [busy, setCharge, hfut, hreg, Source.isPending] at hb
  idle _ := rfl
  phase := by simp [Phase, setCharge, hfut]

/-- **The resume function**: it comes to the converter of the charge, or settles the target. -/
theorem Inv.resume (h : Inv canceled s)
    (hpass : ∀ r, s.fut = .ready r → f.dereferences = true ∨ r.thrown canceled = none)
    (hs : s.resume f canceled = some s') : Inv canceled s' := by
  rw [Convertor.resume] at hs
  split at hs
  · next r hdue hfut =>
    have hphase := h.phase
    simp only [Phase, hfut, hdue] at hphase
    obtain ⟨k, hk, hplace, htarget⟩ := h.current (by simp [busy, hdue])
    have hreg : s.registering = false := hphase.resolve_right (by simp)
    have hprom : ∀ t, s.prom = some t → s.Holds .prom t := fun t ht => ht
    have hlast : s.charges - 1 = k := by omega
    simp only [hlast] at hs
    split at hs
    · next e hderef hthrown =>
      -- `*_fut` throws, and the target gets what it threw
      obtain rfl := Option.some.inj hs
      have hkeep := h.settle_keeps (fun t ht => ⟨_, hprom t ht⟩) (.exception e)
      have hsettle : ∀ t, (({ s with prom := none, due := false } : Convertor T U E).settle s.prom
          (.exception e)).target t = (s.settle s.prom (.exception e)).target t := by
        intro t
        cases s.prom <;> rfl
      rw [settle_eq]
      refine h.resumed hfut hreg hk (fun t q hq => (hsettle t).trans (hkeep t q hq)) ?_ ?_
      · refine (h.good k).fail hplace hthrown fun t ht => ?_
        rw [hsettle, ← htarget, ht, settle_target_self]
      · refine h.owned.close hprom (fun x t => ?_) fun t => by
          rw [hsettle, settle_pending]
        exact (holds_resumed x t hplace).trans (by simp)
    · next hne =>
      -- the converter is called
      obtain rfl := Option.some.inj hs
      have hvalue : ∃ v, r = .value v := by
        have hnone : r.thrown canceled = none := by
          obtain hderef | hnone := hpass r hfut
          · cases hthrown : r.thrown canceled with
            | none => rfl
            | some e => exact absurd hthrown (hne e hderef)
          · exact hnone
        cases r with
        | value v => exact ⟨v, rfl⟩
        | notValue => cases hnone
        | exception e => cases hnone
      obtain ⟨v, rfl⟩ := hvalue
      rw [← htarget]
      refine h.resumed hfut hreg hk (fun _ _ hq => hq) ((h.good k).enter hplace v) ?_
      refine h.owned.move hprom (.converter k) (fun x t => ?_) fun t => Iff.rfl
      exact (holds_resumed x t hplace).trans (by simp [htarget])
  · cases hs

/-! ## Promises outside -/

theorem Inv.make (h : Inv canceled s) {t : Nat} (ht : s.target t = .unused) :
    Inv canceled { s with target := Function.update s.target t .pending
                          outside := Function.update s.outside t true } := by
  exact { h with
    owned := by
      refine h.owned.add (p := some t) (fun u hu => ?_) .outside
        (fun x u => holds_outside x u t) fun u => ?_
      · cases hu
        simp [ht]
      · by_cases hut : u = t
        · simp [hut]
        · simp [hut, Ne.symm hut]
    good := fun k => (h.good k).mono (make_keeps ht) }

theorem Inv.call (h : Inv canceled s) {t : Nat} (ht : s.outside t = true) (r : Stored U E) :
    Inv canceled ({ s with outside := Function.update s.outside t false }.settle (some t) r) := by
  have hkeep := h.settle_keeps (p := some t) (fun u hu => ⟨.outside, by cases hu; exact ht⟩) r
  exact { h with
    owned := by
      refine h.owned.close (p := some t) (y := .outside) (fun u hu => by cases hu; exact ht)
        (fun x u => holds_not_outside (s := s) x u t) fun u => settle_pending (some t) r u
    good := fun k => (h.good k).mono hkeep }

/-! ## Every run -/

/-- **Step lemma**. -/
theorem Inv.step {a : Action T U E} (h : Inv canceled s) (hpass : Passes f canceled s a)
    (hs : s.step f canceled a = some s') : Inv canceled s' := by
  cases a with
  | make t =>
      simp only [Convertor.step] at hs
      split at hs
      · next ht =>
        obtain rfl := Option.some.inj hs
        exact h.make ht
      · cases hs
      · cases hs
  | call t arg =>
      simp only [Convertor.step] at hs
      split at hs
      · next ht =>
        obtain rfl := Option.some.inj hs
        exact h.call ht arg.stored
      · cases hs
  | charge t b =>
      simp only [Convertor.step] at hs
      split at hs
      · next hidle ht =>
        obtain rfl := Option.some.inj hs
        exact h.charge hidle ht b
      · cases hs
  | chargeWith p b =>
      cases p with
      | none =>
          simp only [Convertor.step] at hs
          split at hs
          · cases hs
          · next hidle =>
            obtain rfl := Option.some.inj hs
            exact h.chargeWithNone (by simpa using hidle) b
      | some t =>
          simp only [Convertor.step] at hs
          split at hs
          · next hc =>
            obtain rfl := Option.some.inj hs
            exact h.chargeWith (by simpa using hc.1) hc.2 b
          · cases hs
  | recharge k b =>
      simp only [Convertor.step] at hs
      split at hs
      · next p hidle _ hin =>
        obtain rfl := Option.some.inj hs
        exact h.recharge hidle hin b
      · cases hs
  | resolve arg => exact h.resolve hs
  | subscribe => exact h.subscribe hs
  | resume => exact h.resume hpass hs
  | callPromise k arg =>
      simp only [Convertor.step] at hs
      split at hs
      · next p _ hin =>
        obtain rfl := Option.some.inj hs
        exact h.give hin (.inl rfl) arg.stored
      · cases hs
  | callThrows k w =>
      simp only [Convertor.step] at hs
      split at hs
      · next p _ hin =>
        obtain rfl := Option.some.inj hs
        cases p with
        | none => exact h.giveThrows hin (.inl rfl) w
        | some t => exact absurd hin (hpass t)
      · cases hs
  | movePromise k =>
      simp only [Convertor.step] at hs
      split at hs
      · next _ hin =>
        obtain rfl := Option.some.inj hs
        exact h.movePromise hin
      · next t _ hin =>
        obtain rfl := Option.some.inj hs
        exact h.movePromise hin
      · cases hs
  | ret k w =>
      simp only [Convertor.step] at hs
      split at hs
      · next p _ hin =>
        obtain rfl := Option.some.inj hs
        exact h.give hin (.inr rfl) (.value w)
      · cases hs
  | retThrows k w =>
      simp only [Convertor.step] at hs
      split at hs
      · next p _ hin =>
        obtain rfl := Option.some.inj hs
        cases p with
        | none => exact h.giveThrows hin (.inr rfl) w
        | some t => exact absurd hin (hpass t)
      · cases hs
  | finish k =>
      simp only [Convertor.step] at hs
      split at hs
      · next p _ hin =>
        obtain rfl := Option.some.inj hs
        exact h.give hin (.inr rfl) .notValue
      · cases hs
  | throw k e =>
      simp only [Convertor.step] at hs
      split at hs
      · next p hin =>
        obtain rfl := Option.some.inj hs
        exact h.give hin (.inr rfl) (.exception e)
      · cases hs
      · cases hs

/-! ## What the futures get -/

theorem Inv.source_cases (h : Inv canceled s) {k : Nat} {r : Stored T E}
    (hr : (s.charge k).source = some r) :
    (r.thrown canceled = none → (s.charge k).calls = [r]) ∧
      ∀ e, r.thrown canceled = some e → (s.charge k).calls = [] ∧
        ∀ t, (s.charge k).target = some t → s.target t = .resolved (.exception e) := by
  cases hplace : (s.charge k).place with
  | waiting =>
      rw [((h.good k).waiting hplace).1] at hr
      cases hr
  | inside p =>
      obtain ⟨⟨v, hv, hcalls⟩, -⟩ := (h.good k).inside p hplace
      obtain rfl : Stored.value v = r := Option.some.inj (hv.symm.trans hr)
      exact ⟨fun _ => hcalls, fun e he => by cases he⟩
  | returned =>
      obtain ⟨r', hr', hvalue, hfail⟩ := (h.good k).returned hplace
      obtain rfl : r' = r := Option.some.inj (hr'.symm.trans hr)
      exact ⟨fun hnone => (hvalue hnone).1, hfail⟩

theorem resume_prom (hdue : s.due = true) {r : Stored T E} (hfut : s.fut = .ready r) :
    (Run.tryStep (step f canceled) s .resume).prom = none := by
  have hs : ∃ s', s.resume f canceled = some s' ∧ s'.prom = none := by
    rw [Convertor.resume, hdue, hfut]
    split
    · next heq =>
      cases heq
      split
      · exact ⟨_, rfl, by simp [setCharge]⟩
      · exact ⟨_, rfl, rfl⟩
    · next hne => exact (hne r rfl rfl).elim
  obtain ⟨s', hs, hprom⟩ := hs
  rw [Run.tryStep_of_some _ _ (show step f canceled s .resume = some s' from hs), hprom]

/-- `resume()` is called when it is due, also by `subscribe` that comes too late. -/
theorem Inv.arrives (h : Inv canceled s) {r : Stored T E} (hfut : s.fut = .ready r) :
    (Run.exec (Convertor.step f canceled) s [.subscribe, .resume]).prom = none := by
  rw [Run.exec_cons, Run.exec_cons, Run.exec_nil]
  cases hreg : s.registering with
  | true =>
      have hsub : Convertor.step f canceled s .subscribe =
          some { s with registering := false, due := true } := by
        simp only [Convertor.step, Convertor.subscribe, hreg, hfut]
      rw [Run.tryStep_of_some _ _ hsub]
      exact resume_prom rfl hfut
  | false =>
      have hsub : Convertor.step f canceled s .subscribe = none := by
        simp only [Convertor.step, Convertor.subscribe, hreg]
      rw [Run.tryStep_of_none _ _ hsub]
      cases hdue : s.due with
      | true => exact resume_prom hdue hfut
      | false =>
          have hres : Convertor.step f canceled s .resume = none := by
            simp only [Convertor.step, Convertor.resume, hdue]
          rw [Run.tryStep_of_none _ _ hres]
          exact h.idle (by simp [busy, hfut, hreg, hdue, Source.isPending])

theorem Inv.passesOn (h : Inv canceled s) : PassesOn f canceled s where
  failed k r e hr he := (h.source_cases hr).2 e he
  called k v hv := (h.source_cases hv).1 rfl
  early k hnone := by
    cases hplace : (s.charge k).place with
    | waiting => exact ((h.good k).waiting hplace).2.1
    | inside p =>
        obtain ⟨⟨v, hv, -⟩, -⟩ := (h.good k).inside p hplace
        rw [hnone] at hv
        cases hv
    | returned =>
        obtain ⟨r, hr, -⟩ := (h.good k).returned hplace
        rw [hnone] at hr
        cases hr
  receives k t r ht hr := (h.good k).gave t r ht hr
  ends k v hplace hv := by
    obtain ⟨r, hr, hvalue, -⟩ := (h.good k).returned hplace
    obtain rfl : r = .value v := Option.some.inj (hr.symm.trans hv)
    exact (hvalue rfl).2
  pending t ht := by
    obtain ⟨x, hx⟩ := h.owned.owner t ht
    cases x with
    | outside => exact .inl hx
    | converter k => exact .inr (.inl ⟨k, hx⟩)
    | prom =>
        refine .inr (.inr ⟨hx, ?_⟩)
        have hphase := h.phase
        by_contra hnot
        simp only [UnderWay, not_or, Bool.not_eq_true] at hnot
        obtain ⟨hdue, hreg, hfut⟩ := hnot
        have hprom : s.prom = none := h.idle (by
          rw [busy_eq_false]
          refine ⟨?_, hreg, hdue⟩
          cases hf : s.fut with
          | unused | ready r => rfl
          | pending subscribed =>
              simp only [Phase, hf, hreg] at hphase
              cases subscribed with
              | true => exact absurd hf hfut
              | false => simp at hphase)
        rw [Holds, hprom] at hx
        cases hx
  arrives r hfut := h.arrives hfut

/-- A value whose construction throws is lost, and its target with it. -/
theorem Inv.lost (h : Inv canceled s) {k t : Nat} {w : U} {place : Place}
    (hin : (s.charge k).place = .inside (some t)) :
    ¬ PassesOn f canceled (s.giveThrows k w place) := by
  intro hp
  obtain ⟨-, htarget, hnot⟩ := (h.good k).inside _ hin
  have hverdict : (s.charge k).verdict = .nothing := by
    by_contra hne
    cases hnot hne
  have hpending := h.owned.only_open (.converter k) t hin
  have hreceives := hp.receives k t (.value w)
    (by simp [Convertor.giveThrows, setCharge, ← htarget hverdict])
    (by simp [Convertor.giveThrows, setCharge, hverdict, Verdict.nothing_or])
  have hsame : s.target t = .resolved (.value w) := hreceives
  rw [hpending] at hsame
  cases hsame

/-- A step that the code does not provide for shows at once. -/
theorem Inv.not_passesOn {a : Action T U E} (h : Inv canceled s) (hbad : ¬ Passes f canceled s a)
    (hs : s.step f canceled a = some s') : ¬ PassesOn f canceled s' := by
  cases a with
  | resume =>
      simp only [Passes, not_forall, not_or, Bool.not_eq_true] at hbad
      obtain ⟨r, hfut, hderef, hthrown⟩ := hbad
      obtain ⟨e, he⟩ := Option.ne_none_iff_exists'.mp hthrown
      simp only [Convertor.step, Convertor.resume, hfut, hderef] at hs
      split at hs
      · next r' _ heq =>
        cases heq
        obtain rfl := Option.some.inj hs
        intro hp
        have hcalls := (hp.failed (s.charges - 1) r e (by simp [setCharge]) he).1
        simp [setCharge] at hcalls
      · cases hs
  | callThrows k w | retThrows k w =>
      simp only [Passes, not_forall, not_not] at hbad
      obtain ⟨t, hin⟩ := hbad
      simp only [Convertor.step] at hs
      split at hs
      · obtain rfl := Option.some.inj hs
        exact h.lost hin
      · cases hs
  | make | call | charge | chargeWith | recharge | resolve | subscribe | callPromise | movePromise
  | ret | finish | throw => exact absurd trivial hbad

/-- **Failures**: a convertor passes failures on in every state of a run exactly if the converter
of a form that does not take the value of the source is only called when the source has one, and
no value of the target throws while it is constructed. -/
theorem passesOn_iff (f : Form) (canceled : E) (as : List (Action T U E)) :
    (∀ n, PassesOn f canceled (Run.exec (step f canceled) ({} : Convertor T U E) (as.take n))) ↔
      Run.Meets (step f canceled) (Passes f canceled) ({} : Convertor T U E) as :=
  Run.safe_iff_meets (fun _ _ _ h hpass hs => h.step hpass hs)
    (fun _ _ _ h hbad hs => h.not_passesOn hbad hs) (fun _ h => h.passesOn) inv_init as

/-- The source of a convertor without a value is dropped: the converter is called. -/
def droppedRun : List (Action Unit Nat Nat) :=
  [.charge 0 .pending, .subscribe, .resolve .drop, .resume]

theorem passesOn_fails : ¬ ∀ n, PassesOn .memberVoid 9
    (Run.exec (step .memberVoid 9) ({} : Convertor Unit Nat Nat) (droppedRun.take n)) := by
  intro h
  have hcalls := ((h 4).failed 0 .notValue 9 rfl rfl).1
  cases hcalls

end Convertor

end FutureConv

end Cocls
