import Cocls.Mutex.Places

/-!
# Cocls.Mutex.Exclusion

Mutual exclusion under every interleaving.

The linked awaiters are exactly those of the waiting parties, each in one place.
`InvAt` ties the token and the places to the positions of all parties.  Every
step keeps it except one: a `subscribe` that re-reads its `_next` as null after
an `unlock` has nulled it.  Such a step makes a second owner, or an owner that
was already resumed.  Hence a run is exclusive in every state it passes exactly
when it takes no such step (`exclusive_iff`).
-/

namespace Cocls

namespace Mutex

/-! ## The invariant -/

/-- The party that has the token. -/
def Token.party : Token → Option Nat
  | .free => none
  | .claim p | .sub p _ | .own p _ => some p

/-- Nobody else than the party has the token. -/
def Token.Within (tok : Token) (p : Nat) : Prop := ∀ q, tok.party = some q → q = p

theorem Token.within_free {p : Nat} : Token.free.Within p := by simp [Within, party]

theorem Token.within_claim {p : Nat} : (Token.claim p).Within p := by simp [Within, party]

theorem Token.within_sub {p : Nat} {b : Build} : (Token.sub p b).Within p := by
  simp [Within, party]

theorem Token.within_own {p : Nat} {o : OwnPc} : (Token.own p o).Within p := by
  simp [Within, party]

/-- A position of an owner. -/
def Owning : OwnPc → Prop
  | .none | .released | .fault => False
  | _ => True

/-- The party waits: its `subscribe` has published its awaiter over another one,
and nobody has resumed it. -/
def Waits (c : CallPc) (o : OwnPc) : Prop :=
  o = .none ∧ (c = .returned true ∨ ∃ old, c = .reread (some old))

/-- A position at which a party cannot have been given the mutex. -/
def Early : CallPc → Prop
  | .idle | .refused | .ready _ | .exchange | .reread none | .build _ => True
  | .reread (some _) | .acquired | .returned _ => False

/-- What the token and the linked awaiters say about one party. -/
structure PartyAt (tok : Token) (linked : Prop) (p : Nat) (c : CallPc) (o : OwnPc)
    (resumed : Bool) : Prop where
  linked_iff : linked ↔ Waits c o
  claims : c = .reread none ↔ tok = .claim p
  builds : ∀ b, c = .build b ↔ tok = .sub p b
  owns : ∀ o', Owning o' → (o = o' ↔ tok = .own p o')
  early : Early c → o = .none ∧ resumed = false
  granted : ∀ old, c = .reread (some old) → o ≠ .none → resumed = true
  alone : c = .returned false → resumed = false
  no_fault : o ≠ .fault

section PartyAt

variable {tok tok' : Token} {linked : Prop} {p : Nat} {c : CallPc} {o : OwnPc} {r : Bool}

/-- A party without the token is at none of the positions that go with it. -/
theorem PartyAt.party_ne (h : PartyAt tok linked p c o r) (hc : c ≠ .reread none)
    (hb : ∀ b, c ≠ .build b) (ho : ¬ Owning o) (hs : ∀ q, tok = .own p q → Owning q) :
    tok.party ≠ some p := by
  cases tok with
  | free => simp [Token.party]
  | claim q =>
      rintro ⟨⟩
      exact hc (h.claims.mpr rfl)
  | sub q b =>
      rintro ⟨⟩
      exact hb b ((h.builds b).mpr rfl)
  | own q o' =>
      rintro ⟨⟩
      have heq : o = o' := (h.owns o' (hs o' rfl)).mpr rfl
      exact ho (heq ▸ hs o' rfl)

/-- A token that is not the party's may go from and to other parties. -/
theorem PartyAt.pass (h : PartyAt tok linked p c o r) (hne : tok.party ≠ some p)
    (hne' : tok'.party ≠ some p) : PartyAt tok' linked p c o r where
  linked_iff := h.linked_iff
  claims :=
    ⟨fun hc => absurd (by rw [h.claims.mp hc]; rfl) hne, fun ht => absurd (by rw [ht]; rfl) hne'⟩
  builds b :=
    ⟨fun hc => absurd (by rw [(h.builds b).mp hc]; rfl) hne,
      fun ht => absurd (by rw [ht]; rfl) hne'⟩
  owns o' ho :=
    ⟨fun hc => absurd (by rw [(h.owns o' ho).mp hc]; rfl) hne,
      fun ht => absurd (by rw [ht]; rfl) hne'⟩
  early := h.early
  granted := h.granted
  alone := h.alone
  no_fault := h.no_fault

/-- A party without the token, anywhere in its call where it does not need it. -/
theorem PartyAt.of_party_ne (hne : tok.party ≠ some p) (hc : c ≠ .reread none)
    (hb : ∀ b, c ≠ .build b) (hl : linked ↔ Waits c .none) :
    PartyAt tok linked p c .none false where
  linked_iff := hl
  claims := ⟨fun h => absurd h hc, fun ht => absurd (by rw [ht]; rfl) hne⟩
  builds b := ⟨fun h => absurd h (hb b), fun ht => absurd (by rw [ht]; rfl) hne⟩
  owns o' ho :=
    ⟨fun h => by subst h; exact ho.elim, fun ht => absurd (by rw [ht]; rfl) hne⟩
  early _ := ⟨rfl, rfl⟩
  granted _ _ h := absurd rfl h
  alone _ := rfl
  no_fault := by simp

/-- An early party does not wait. -/
theorem not_waits_of_early (he : Early c) : ¬ Waits c o := by
  rintro ⟨-, h | ⟨old, h⟩⟩ <;> rw [h] at he <;> exact he

end PartyAt

theorem Shape.owning {m : Mutex} {l : Places} {p : Nat} {o : OwnPc} (h : Shape m l (.own p o)) :
    Owning o := by
  cases o <;> trivial

namespace Parties

/-- The state of all parties, given the token and the places of the linked
awaiters. -/
structure InvAt (s : Parties) (tok : Token) (l : Places) : Prop where
  shape : Shape s.mx l tok
  nodup : l.all.Nodup
  objects : ∀ a ∈ l.all, ∃ p, a = .object p
  party : ∀ p, PartyAt tok (.object p ∈ l.all) p (s.call p) (s.own p) (s.resumed p)

/-- The invariant of every run without a late re-read. -/
def Inv (s : Parties) : Prop := ∃ tok l, s.InvAt tok l

theorem inv_init : Inv {} := by
  refine ⟨.free, {}, ⟨rfl, rfl, rfl⟩, by simp [Places.all, Places.taken],
    by simp [Places.all, Places.taken], fun p => ?_⟩
  exact PartyAt.of_party_ne (by simp [Token.party]) (by simp) (by simp)
    (by simp [Places.all, Places.taken, Waits])

section Consequences

variable {s : Parties} {tok : Token} {l : Places} {p : Nat}

theorem InvAt.doorman_not_mem (hi : s.InvAt tok l) : doorman ∉ l.all := by
  intro hmem
  obtain ⟨p, hp⟩ := hi.objects doorman hmem
  simp [doorman] at hp

/-- A party elsewhere than at the positions of the token does not have it. -/
theorem InvAt.party_ne (hi : s.InvAt tok l) (hc : s.call p ≠ .reread none)
    (hb : ∀ b, s.call p ≠ .build b) (ho : ¬ Owning (s.own p)) : tok.party ≠ some p :=
  (hi.party p).party_ne hc hb ho fun _ hq => (hq ▸ hi.shape).owning

/-- An early party without the token: its awaiter is not linked, and nothing was
granted to it. -/
theorem InvAt.of_early (hi : s.InvAt tok l) (he : Early (s.call p)) (hc : s.call p ≠ .reread none)
    (hb : ∀ b, s.call p ≠ .build b) :
    tok.party ≠ some p ∧ .object p ∉ l.all ∧ s.own p = .none ∧ s.resumed p = false := by
  obtain ⟨ho, hr⟩ := (hi.party p).early he
  refine ⟨hi.party_ne hc hb (by rw [ho]; exact id), ?_, ho, hr⟩
  exact fun hmem => not_waits_of_early he ((hi.party p).linked_iff.mp hmem)

/-- **The moving lemma**: a step that moves the parties `M` only keeps the
invariant, when the token and the links of the others stay theirs and the moved
parties are where the new token says. -/
theorem InvAt.move (hi : s.InvAt tok l) {s' : Parties} {tok' : Token} {l' : Places}
    (M : Nat → Prop) (hshape : Shape s'.mx l' tok') (hnd : l'.all.Nodup)
    (hobj : ∀ a ∈ l'.all, ∃ p, a = .object p)
    (hlinks : ∀ q, ¬ M q → (.object q ∈ l'.all ↔ .object q ∈ l.all))
    (htok : tok' = tok ∨ ∀ q, ¬ M q → tok.party ≠ some q ∧ tok'.party ≠ some q)
    (hothers : ∀ q, ¬ M q → s'.call q = s.call q ∧ s'.own q = s.own q ∧ s'.resumed q = s.resumed q)
    (hmoved : ∀ q, M q → PartyAt tok' (.object q ∈ l'.all) q (s'.call q) (s'.own q) (s'.resumed q)) :
    s'.InvAt tok' l' where
  shape := hshape
  nodup := hnd
  objects := hobj
  party q := by
    by_cases hq : M q
    · exact hmoved q hq
    · obtain ⟨hc, ho, hr⟩ := hothers q hq
      have hold := hi.party q
      rw [hc, ho, hr, propext (hlinks q hq)]
      rcases htok with rfl | htok
      · exact hold
      · exact hold.pass (htok q hq).1 (htok q hq).2

/-- A step that moves one party only, and links the same awaiters. -/
theorem InvAt.moveOne (hi : s.InvAt tok l) {s' : Parties} {tok' : Token} {l' : Places}
    (hshape : Shape s'.mx l' tok') (hperm : l'.all.Perm l.all)
    (htok : tok' = tok ∨ tok.Within p ∧ tok'.Within p)
    (hothers : ∀ q, q ≠ p → s'.call q = s.call q ∧ s'.own q = s.own q ∧ s'.resumed q = s.resumed q)
    (hmoved : PartyAt tok' (.object p ∈ l.all) p (s'.call p) (s'.own p) (s'.resumed p)) :
    s'.InvAt tok' l' := by
  refine hi.move (fun q => q = p) hshape (hperm.nodup_iff.mpr hi.nodup) ?_ ?_ ?_ hothers ?_
  · exact fun a ha => hi.objects a (hperm.mem_iff.mp ha)
  · exact fun q _ => hperm.mem_iff
  · rcases htok with htok | ⟨h, h'⟩
    · exact .inl htok
    · exact .inr fun q hq => ⟨fun hp => hq (h q hp), fun hp => hq (h' q hp)⟩
  · rintro q rfl
    rw [propext (hperm.mem_iff (a := .object q))]
    exact hmoved

end Consequences

/-! ## The calls -/

section Calls

variable {s s' : Parties} {tok : Token} {l : Places} {p : Nat} {spurious : Bool}

/-- A party at rest is neither the owner nor waiting. -/
theorem InvAt.of_atRest (hi : s.InvAt tok l) (h : s.AtRest p) :
    tok.party ≠ some p ∧ .object p ∉ l.all := by
  unfold AtRest at h
  have hw := (hi.party p).linked_iff
  split at h
  all_goals first | exact h.elim | skip
  all_goals
    rename_i ho hc
    refine ⟨hi.party_ne (by simp [hc]) (by simp [hc]) (by simp [ho, Owning]), ?_⟩
    rw [hw]
    simp [Waits, ho, hc]

theorem InvAt.start (hi : s.InvAt tok l) {tries : Bool} (h : s.start p tries = some s') :
    s'.InvAt tok l := by
  unfold Parties.start at h
  split at h
  · rename_i hrest
    obtain ⟨hne, hmem⟩ := hi.of_atRest hrest
    obtain rfl := Option.some.inj h
    refine hi.moveOne (p := p) ?_ (List.Perm.refl _) (.inl rfl) ?_ ?_
    · refine hi.shape.update hmem ?_
      rintro q rfl hq
      cases hq
      exact hne rfl
    · intro q hq
      simp [hq]
    · simp only [Function.update_self]
      exact PartyAt.of_party_ne hne (by simp) (by simp) (by simp [hmem, Waits])
  · cases h

theorem InvAt.callReady (hi : s.InvAt tok l) {tries : Bool} (hc : s.call p = .ready tries)
    (h : s.callStep p spurious = some s') : s'.Inv := by
  obtain ⟨hne, hmem, ho, hr⟩ :=
    hi.of_early (p := p) (by simp [hc, Early]) (by simp [hc]) (by simp [hc])
  by_cases hreq : s.mx.requests = none
  · -- nobody has the mutex: the token goes to this party
    obtain rfl := hi.shape.free_iff.mp hreq
    obtain ⟨rfl, -, hq⟩ := hi.shape
    simp only [callStep, hc, ready, if_pos hreq, Option.some.injEq] at h
    subst h
    refine ⟨.own p .owner, {}, hi.moveOne (p := p) ⟨rfl, rfl, rfl, hq⟩ (List.Perm.refl _)
      (.inr ⟨Token.within_free, Token.within_own⟩) ?_ ?_⟩
    · intro q hq
      simp [hq]
    · constructor <;> simp [hr, hmem, Waits, Early]
  · simp only [callStep, hc, ready, if_neg hreq, Option.some.injEq] at h
    subst h
    refine ⟨tok, l, hi.moveOne (p := p) hi.shape (List.Perm.refl _) (.inl rfl) ?_ ?_⟩
    · intro q hq
      simp [hq]
    · simp only [Function.update_self, ho, hr]
      cases tries
      · exact PartyAt.of_party_ne hne (by simp) (by simp) (by simp [hmem, Waits])
      · exact PartyAt.of_party_ne hne (by simp) (by simp) (by simp [hmem, Waits])

/-- The awaiter is published: over nothing, and the party claims the mutex; or
over another awaiter, and the party waits. -/
theorem InvAt.callPublish (hi : s.InvAt tok l) (hc : s.call p = .exchange)
    (hn : s.mx.next (.object p) = s.mx.requests) :
    Inv { s with mx := { s.mx with requests := some (.object p) },
                 call := Function.update s.call p (.reread s.mx.requests) } := by
  obtain ⟨hne, hmem, ho, hr⟩ :=
    hi.of_early (p := p) (by simp [hc, Early]) (by simp [hc]) (by simp [hc])
  cases hreq : s.mx.requests with
  | none =>
      obtain rfl := hi.shape.free_iff.mp hreq
      obtain ⟨rfl, -, hq⟩ := hi.shape
      refine ⟨.claim p, {}, hi.moveOne (p := p) ⟨⟨rfl, rfl, rfl, hq, rfl⟩, hn.trans hreq⟩
        (List.Perm.refl _) (.inr ⟨Token.within_free, Token.within_claim⟩) ?_ ?_⟩
      · intro q hq
        simp [hq]
      · constructor <;> simp [ho, hr, hmem, Waits]
        rintro o ho rfl
        exact ho
  | some old =>
      have hfree : tok ≠ .free := by
        intro ht
        rw [hi.shape.free_iff.mpr ht] at hreq
        cases hreq
      obtain ⟨l', hl', hperm⟩ := hi.shape.push hfree hn
      refine ⟨tok, l', hi.move (fun q => q = p) hl' ?_ ?_ ?_ (.inl rfl) ?_ ?_⟩
      · exact hperm.nodup_iff.mpr (List.nodup_cons.mpr ⟨hmem, hi.nodup⟩)
      · intro a ha
        rcases List.mem_cons.mp (hperm.mem_iff.mp ha) with rfl | ha
        · exact ⟨p, rfl⟩
        · exact hi.objects a ha
      · intro q hq
        rw [hperm.mem_iff, List.mem_cons]
        simp [hq]
      · intro q hq
        simp [hq]
      · rintro q rfl
        simp only [Function.update_self, ho, hr]
        exact PartyAt.of_party_ne hne (by simp) (by simp)
          (by simp [Waits, hperm.mem_iff])

theorem InvAt.callExchange (hi : s.InvAt tok l) (hc : s.call p = .exchange)
    (h : s.callStep p spurious = some s') : s'.Inv := by
  by_cases hex : spurious = false ∧ s.mx.requests = s.mx.next (.object p)
  · simp only [callStep, hc, Awaiter.compareExchangeWeak, if_pos hex, Option.some.injEq] at h
    subst h
    rw [← hex.2]
    exact hi.callPublish hc hex.2.symm
  · simp only [callStep, hc, Awaiter.compareExchangeWeak, if_neg hex, Option.some.injEq] at h
    subst h
    obtain ⟨hne, hmem, -, -⟩ :=
      hi.of_early (p := p) (by simp [hc, Early]) (by simp [hc]) (by simp [hc])
    refine ⟨tok, l, hi.moveOne (p := p) ?_ (List.Perm.refl _) (.inl rfl) ?_ (hi.party p)⟩
    · refine hi.shape.update hmem ?_
      rintro q rfl hq
      cases hq
      exact hne rfl
    · exact fun q _ => ⟨rfl, rfl, rfl⟩

/-- A prompt re-read decides rightly who owns the mutex. -/
theorem InvAt.callReread (hi : s.InvAt tok l) {old : Option Awaiter} (hc : s.call p = .reread old)
    (hprompt : s.mx.next (.object p) = none → old = none)
    (h : s.callStep p spurious = some s') : s'.Inv := by
  have hp := hi.party p
  cases old with
  | none =>
      -- published over nothing: nobody else has written its `_next` since
      obtain rfl : tok = .claim p := hp.claims.mp hc
      obtain ⟨ho, hr⟩ := hp.early (by simp [hc, Early])
      have hmem : .object p ∉ l.all := by
        rw [hp.linked_iff]
        simp [Waits, hc]
      obtain ⟨hb, hn⟩ := hi.shape
      simp only [callStep, hc, if_pos hn, Option.some.injEq] at h
      subst h
      refine ⟨.sub p .exchange, l, hi.moveOne (p := p) hb (List.Perm.refl _)
        (.inr ⟨Token.within_claim, Token.within_sub⟩) ?_ ?_⟩
      · intro q hq
        simp [hq]
      · constructor <;> simp [ho, hr, hmem, Waits, eq_comm]
        rintro o ho rfl
        exact ho
  | some a =>
      -- published over another awaiter, and still linked or resumed since
      have hn : s.mx.next (.object p) ≠ none := fun hn => by cases hprompt hn
      simp only [callStep, hc, if_neg hn, Option.some.injEq] at h
      subst h
      refine ⟨tok, l, hi.moveOne (p := p) hi.shape (List.Perm.refl _) (.inl rfl) ?_ ?_⟩
      · intro q hq
        simp [hq]
      · simp only [Function.update_self]
        constructor
        · rw [hp.linked_iff]
          simp [Waits, hc]
        · simp [← hp.claims, hc]
        · simp [← hp.builds, hc]
        · exact hp.owns
        · simp [Early]
        · simp
        · simp
        · exact hp.no_fault

theorem InvAt.callBuild (hi : s.InvAt tok l) {b : Build} (hc : s.call p = .build b)
    (h : s.callStep p spurious = some s') : s'.Inv := by
  have hp := hi.party p
  obtain rfl : tok = .sub p b := (hp.builds b).mp hc
  obtain ⟨ho, hr⟩ := hp.early (by simp [hc, Early])
  have hmem : .object p ∉ l.all := by
    rw [hp.linked_iff]
    simp [Waits, hc]
  obtain ⟨m', b', l', hstep, hshape, hstack, htaken⟩ | ⟨hstep, hmoved, hheld, hchains⟩ :=
    buildStep_spec hi.shape hi.nodup hmem
  · simp only [callStep, hc, hstep, Option.some.injEq] at h
    subst h
    have hperm : l'.all.Perm l.all := by
      rw [Places.all, Places.all, hstack]
      exact htaken.append_left _
    refine ⟨.sub p b', l', hi.moveOne (p := p) hshape hperm
      (.inr ⟨Token.within_sub, Token.within_sub⟩) ?_ ?_⟩
    · intro q hq
      simp [hq]
    · constructor <;> simp [ho, hr, hmem, Waits, eq_comm]
      rintro o ho rfl
      exact ho
  · -- everything taken is in `_queue`: the party owns the mutex
    simp only [callStep, hc, hstep, Option.some.injEq] at h
    subst h
    refine ⟨.own p .owner, l, hi.moveOne (p := p) ⟨hmoved, hheld, hchains⟩ (List.Perm.refl _)
      (.inr ⟨Token.within_sub, Token.within_own⟩) ?_ ?_⟩
    · intro q hq
      simp [hq]
    · constructor <;> simp [hr, hmem, Waits, Early]

theorem InvAt.callStep (hi : s.InvAt tok l) (hprompt : s.Prompt (.call p spurious))
    (h : s.callStep p spurious = some s') : s'.Inv := by
  cases hc : s.call p with
  | ready tries => exact hi.callReady hc h
  | exchange => exact hi.callExchange hc h
  | reread old => exact hi.callReread hc (hprompt old hc) h
  | build b => exact hi.callBuild hc h
  | idle | refused | acquired | returned _ => simp [Parties.callStep, hc] at h

end Calls

/-! ## The steps of an owner -/

section Owner

variable {s s' : Parties} {tok : Token} {l : Places} {p : Nat} {o : OwnPc}

/-- What is known of an owner: it has the token, its awaiter is not linked, and
its call is over. -/
theorem InvAt.of_owning (hi : s.InvAt tok l) (hp : s.own p = o) (ho : Owning o) :
    tok = .own p o ∧ OwnShape s.mx l o ∧ .object p ∉ l.all ∧ ¬ Early (s.call p) := by
  have hparty := hi.party p
  obtain rfl : tok = .own p o := (hparty.owns o ho).mp hp
  have hne : s.own p ≠ .none := by
    rw [hp]
    rintro rfl
    exact ho
  refine ⟨rfl, hi.shape, ?_, fun he => hne (hparty.early he).1⟩
  rw [hparty.linked_iff]
  exact fun hw => hne hw.1

/-- The owner goes on to the next position `o'`, which the mutex is in shape for. -/
theorem InvAt.ownGo (hi : s.InvAt tok l) (hp : s.own p = o) (ho : Owning o) {m' : Mutex}
    (l' : Places) {o' : OwnPc} (ho' : Owning o') (hshape : OwnShape m' l' o')
    (hperm : l'.all.Perm l.all) :
    Inv { s with mx := m', own := Function.update s.own p o' } := by
  obtain ⟨rfl, -, hmem, hearly⟩ := hi.of_owning hp ho
  have hparty := hi.party p
  refine ⟨.own p o', l', hi.moveOne (p := p) hshape hperm
    (.inr ⟨Token.within_own, Token.within_own⟩) ?_ ?_⟩
  · intro q hq
    simp [hq]
  · have hne' : o' ≠ .none ∧ o' ≠ .fault := by
      constructor <;> (rintro rfl; exact ho')
    constructor
    · simp [hmem, Waits, hne'.1]
    · simp [hparty.claims]
    · simp [hparty.builds]
    · simp
    · exact fun he => absurd he hearly
    · intro old hc _
      refine hparty.granted old hc ?_
      rw [hp]
      rintro rfl
      exact ho
    · exact hparty.alone
    · simp [hne'.2]

theorem InvAt.ownTestQueue (hi : s.InvAt tok l) (hp : s.own p = .testQueue)
    (h : s.ownStep p = some s') : s'.Inv := by
  obtain ⟨-, ⟨hm, hh, hc⟩, -, -⟩ := hi.of_owning hp trivial
  simp only [ownStep, hp, Option.some.injEq] at h
  subst h
  refine hi.ownGo hp trivial l ?_ ?_ (List.Perm.refl _)
  · split <;> trivial
  · split
    · rename_i hq
      exact ⟨hm, hh, hc, hq⟩
    · rename_i hq
      refine ⟨hm, hh, hc, fun hnil => hq ?_⟩
      rw [Links.start_eq_head? hc.queue, hnil]
      rfl

theorem InvAt.ownExchange (hi : s.InvAt tok l) (hp : s.own p = .exchange)
    (h : s.ownStep p = some s') : s'.Inv := by
  obtain ⟨rfl, ⟨hm, hh, hc, hqn⟩, hmem, hearly⟩ := hi.of_owning hp trivial
  have hqueue : l.queue = [] := by
    rw [← List.head?_eq_none_iff, ← Links.start_eq_head? hc.queue]
    exact hqn
  have hdoor : ∀ x ∈ l.stack, some doorman ≠ some x := by
    rintro x hx ⟨⟩
    exact hi.doorman_not_mem (mem_all.mpr (.inl hx))
  have hstack := Links.eq_end_iff hc.stack hdoor
  by_cases hreq : s.mx.requests = some doorman
  · -- nobody waits: the token is free again
    have hl : l = {} := by
      obtain ⟨stack, moved, held, queue⟩ := l
      simp_all
    simp only [ownStep, hp, if_pos hreq, Option.some.injEq] at h
    subst h
    have hparty := hi.party p
    refine ⟨.free, l, hi.moveOne (p := p) ⟨hl, rfl, hqn⟩ (List.Perm.refl _)
      (.inr ⟨Token.within_own, Token.within_free⟩) ?_ ?_⟩
    · intro q hq
      simp [hq]
    · constructor
      · simp [hmem, Waits]
      · simp [hparty.claims]
      · simp [hparty.builds]
      · intro o' ho'
        simp only [Function.update_self, reduceCtorEq, iff_false]
        rintro rfl
        exact ho'
      · exact fun he => absurd he hearly
      · intro old hc' _
        exact hparty.granted old hc' (by simp [hp])
      · exact hparty.alone
      · simp
  · -- requests have come in: `build_queue` will take them
    simp only [ownStep, hp, if_neg hreq, Option.some.injEq] at h
    subst h
    have hne : l.stack ≠ [] := fun hnil => hreq (hstack.mpr hnil)
    refine hi.ownGo hp trivial { moved := l.stack } trivial
      ⟨⟨rfl, rfl, rfl, hqn, hc.stack⟩, by simpa [Places.taken] using hne⟩ ?_
    simp [Places.all, Places.taken, hm, hh, hqueue]

theorem InvAt.ownBuild (hi : s.InvAt tok l) {b : Build} (hp : s.own p = .build b)
    (h : s.ownStep p = some s') : s'.Inv := by
  obtain ⟨rfl, ⟨hb, htk⟩, -, -⟩ := hi.of_owning hp trivial
  obtain ⟨m', b', l', hstep, hshape, hstack, htaken⟩ | ⟨hstep, hmoved, hheld, hchains⟩ :=
    buildStep_spec hb hi.nodup hi.doorman_not_mem
  · simp only [ownStep, hp, hstep, Option.some.injEq] at h
    subst h
    refine hi.ownGo hp trivial _ trivial ⟨hshape, ?_⟩ ?_
    · intro hnil
      rw [hnil] at htaken
      exact htk htaken.symm.eq_nil
    · rw [Places.all, Places.all, hstack]
      exact htaken.append_left _
  · simp only [ownStep, hp, hstep, Option.some.injEq] at h
    subst h
    refine hi.ownGo hp trivial _ trivial ⟨hmoved, hheld, hchains, ?_⟩ (List.Perm.refl _)
    simpa [Places.taken, hmoved, hheld] using htk

/-- Reading `_queue` and `_queue->_next`, which the owner alone touches. -/
theorem InvAt.ownRead (hi : s.InvAt tok l) (hp : s.own p = o)
    (ho : o = .readFirst ∨ (∃ f, o = .readQueue f) ∨ ∃ f q, o = .readNext f q)
    (h : s.ownStep p = some s') : s'.Inv := by
  obtain rfl | ⟨f, rfl⟩ | ⟨f, q, rfl⟩ := ho
  · obtain ⟨rfl, ⟨hm, hh, hc, hne⟩, -, -⟩ := hi.of_owning hp trivial
    have hhead := Links.start_eq_head? hc.queue
    cases hq : s.mx.queue with
    | none => exact absurd (List.head?_eq_none_iff.mp (hhead ▸ hq)) hne
    | some first =>
        simp only [ownStep, hp, hq, Option.some.injEq] at h
        subst h
        exact hi.ownGo hp trivial _ trivial ⟨hm, hh, hc, hhead ▸ hq⟩ (List.Perm.refl _)
  · obtain ⟨rfl, ⟨hm, hh, hc, hf⟩, -, -⟩ := hi.of_owning hp trivial
    have hq : s.mx.queue = some f := (Links.start_eq_head? hc.queue).trans hf
    simp only [ownStep, hp, hq, Option.some.injEq] at h
    subst h
    exact hi.ownGo hp trivial _ trivial ⟨hm, hh, hc, hf, rfl⟩ (List.Perm.refl _)
  · obtain ⟨rfl, ⟨hm, hh, hc, hf, rfl⟩, -, -⟩ := hi.of_owning hp trivial
    simp only [ownStep, hp, Option.some.injEq] at h
    subst h
    exact hi.ownGo hp trivial _ trivial ⟨hm, hh, hc, hf, rfl⟩ (List.Perm.refl _)

/-- Unlinking the first awaiter of `_queue`. -/
theorem InvAt.ownWriteQueue (hi : s.InvAt tok l) {f : Awaiter} {n : Option Awaiter}
    (hp : s.own p = .writeQueue f n) (h : s.ownStep p = some s') : s'.Inv := by
  obtain ⟨rfl, ⟨hm, hh, hc, hf, rfl⟩, -, -⟩ := hi.of_owning hp trivial
  obtain ⟨queue, hqueue⟩ : ∃ queue, l.queue = f :: queue := List.head?_eq_some_iff.mp hf
  simp only [ownStep, hp, Option.some.injEq] at h
  subst h
  refine hi.ownGo hp trivial { l with held := [f], queue := queue } trivial
    ⟨hm, rfl, hc.stack, ?_⟩ ?_
  · have hlinks := hc.queue
    rw [hqueue] at hlinks
    exact hlinks.2
  · simp [Places.all, Places.taken, hm, hh, hqueue]

theorem InvAt.ownWriteNext (hi : s.InvAt tok l) {f : Awaiter} (hp : s.own p = .writeNext f)
    (h : s.ownStep p = some s') : s'.Inv := by
  obtain ⟨rfl, ⟨hm, hh, hc⟩, -, -⟩ := hi.of_owning hp trivial
  have hnd := hi.nodup
  simp only [Places.all, Places.taken, hm, hh, List.nil_append, List.nodup_append',
    List.disjoint_left, List.mem_append, List.mem_singleton] at hnd
  have hstack : f ∉ l.stack := fun hmem => hnd.2.2 hmem (.inl rfl)
  have hqueue : f ∉ l.queue := fun hmem => hnd.2.1.2.2 rfl hmem
  simp only [ownStep, hp, Option.some.injEq] at h
  subst h
  exact hi.ownGo hp trivial _ trivial ⟨hm, hh, (Links.update_iff hstack).mpr hc.stack,
    (Links.update_iff hqueue).mpr hc.queue⟩ (List.Perm.refl _)

/-- The hand-over: the token and the ownership go to the party resumed. -/
theorem InvAt.ownResume (hi : s.InvAt tok l) {f : Awaiter} (hp : s.own p = .resume f)
    (h : s.ownStep p = some s') : s'.Inv := by
  obtain ⟨rfl, ⟨hm, hh, hc⟩, hmem, hearly⟩ := hi.of_owning hp trivial
  have hf : f ∈ l.all := mem_all.mpr (.inr (.inr (.inl (by simp [hh]))))
  obtain ⟨q, rfl⟩ := hi.objects f hf
  have hqp : q ≠ p := by
    rintro rfl
    exact hmem hf
  have hparty := hi.party p
  obtain ⟨hqo, hqc⟩ := (hi.party q).linked_iff.mp hf
  simp only [ownStep, hp, Option.some.injEq] at h
  subst h
  have hperm : l.all.Perm (.object q :: ({ l with held := [] } : Places).all) := by
    simp only [Places.all, Places.taken, hm, hh, List.nil_append, List.singleton_append]
    exact List.perm_middle
  have hnd := List.nodup_cons.mp (hperm.nodup_iff.mp hi.nodup)
  refine ⟨.own q .owner, { l with held := [] }, hi.move (fun r => r = p ∨ r = q)
    ⟨hm, rfl, hc.stack, hc.queue⟩ hnd.2 ?_ ?_ (.inr ?_) ?_ ?_⟩
  · exact fun a ha => hi.objects a (hperm.mem_iff.mpr (List.mem_cons_of_mem _ ha))
  · intro r hr
    rw [hperm.mem_iff, List.mem_cons]
    simp [(not_or.mp hr).2]
  · intro r hr
    obtain ⟨hrp, hrq⟩ := not_or.mp hr
    exact ⟨fun h => hrp (Token.within_own r h), fun h => hrq (Token.within_own r h)⟩
  · intro r hr
    obtain ⟨hrp, hrq⟩ := not_or.mp hr
    simp [hrp, hrq]
  · rintro r (rfl | rfl)
    · -- the party that passes the mutex on
      have hmem' : .object r ∉ ({ l with held := [] } : Places).all :=
        fun h => hmem (hperm.mem_iff.mpr (List.mem_cons_of_mem _ h))
      constructor
      · simp [hmem', Waits, hqp.symm]
      · simp [hparty.claims]
      · simp [hparty.builds]
      · intro o' ho'
        simp only [Function.update_of_ne hqp.symm, Function.update_self, Token.own.injEq, hqp,
          false_and, iff_false]
        rintro rfl
        exact ho'
      · exact fun he => absurd he hearly
      · intro old hc' _
        simp only [Function.update_of_ne hqp.symm]
        exact hparty.granted old hc' (by simp [hp])
      · simpa [hqp.symm] using hparty.alone
      · simp [hqp.symm]
    · -- the party that was waiting
      constructor
      · simp [hnd.1, Waits]
      · obtain hqc | ⟨old, hqc⟩ := hqc <;> simp [hqc]
      · obtain hqc | ⟨old, hqc⟩ := hqc <;> simp [hqc]
      · simp
      · obtain hqc | ⟨old, hqc⟩ := hqc <;> simp [hqc, Early]
      · simp
      · obtain hqc | ⟨old, hqc⟩ := hqc <;> simp [hqc]
      · simp

theorem InvAt.ownStep (hi : s.InvAt tok l) (h : s.ownStep p = some s') : s'.Inv := by
  cases hp : s.own p with
  | testQueue => exact hi.ownTestQueue hp h
  | exchange => exact hi.ownExchange hp h
  | build b => exact hi.ownBuild hp h
  | readFirst => exact hi.ownRead hp (.inl rfl) h
  | readQueue f => exact hi.ownRead hp (.inr (.inl ⟨f, rfl⟩)) h
  | readNext f q => exact hi.ownRead hp (.inr (.inr ⟨f, q, rfl⟩)) h
  | writeQueue f n => exact hi.ownWriteQueue hp h
  | writeNext f => exact hi.ownWriteNext hp h
  | resume f => exact hi.ownResume hp h
  | none | owner | released | fault => simp [Parties.ownStep, hp] at h

end Owner

/-! ## Exclusion -/

/-- **Step lemma**: a step that is not a late re-read keeps the invariant. -/
theorem inv_step {s s' : Parties} {a : Action} (hinv : s.Inv) (hprompt : s.Prompt a)
    (h : s.step a = some s') : s'.Inv := by
  obtain ⟨tok, l, hi⟩ := hinv
  cases a with
  | lock p => exact ⟨tok, l, hi.start h⟩
  | tryLock p => exact ⟨tok, l, hi.start h⟩
  | call p spurious => exact hi.callStep hprompt h
  | own p => exact hi.ownStep h
  | release p =>
      simp only [step] at h
      split at h
      · rename_i hp
        obtain rfl := Option.some.inj h
        obtain ⟨-, hshape, -, -⟩ := hi.of_owning hp trivial
        exact hi.ownGo hp trivial l trivial hshape (List.Perm.refl _)
      · cases h

section Exclusive

variable {s s' : Parties} {tok : Token} {l : Places} {p : Nat}

/-- The party that holds the ownership has the token. -/
theorem InvAt.party_of_holds (hi : s.InvAt tok l) (h : s.Holds p) : tok.party = some p := by
  have hp := hi.party p
  obtain ⟨hn, hr, hf⟩ | ⟨b, hb⟩ := h
  · have ho : Owning (s.own p) := by
      cases hown : s.own p <;> simp_all [Owning]
    rw [(hp.owns _ ho).mp rfl]
    rfl
  · rw [(hp.builds b).mp hb]
    rfl

/-- The invariant says what mutual exclusion asks. -/
theorem InvAt.exclusive (hi : s.InvAt tok l) : s.Exclusive where
  one_owner p q hp hq :=
    Option.some.inj ((hi.party_of_holds hp).symm.trans (hi.party_of_holds hq))
  not_both p hr := by
    constructor
    · intro hc
      rw [(hi.party p).alone hc] at hr
      cases hr
    · intro b hc
      rw [((hi.party p).early (by simp [hc, Early])).2] at hr
      cases hr
  no_doorman :=
    ⟨l.queue, hi.shape.queue,
      fun hmem => hi.doorman_not_mem (mem_all.mpr (.inr (.inr (.inr hmem))))⟩
  no_fault p := (hi.party p).no_fault

/-- While an awaiter is linked and its `_next` is null, another party holds the
ownership. -/
theorem InvAt.exists_holds (hi : s.InvAt tok l) (hmem : .object p ∈ l.all)
    (hn : s.mx.next (.object p) = none) : ∃ q, s.Holds q := by
  cases tok with
  | free =>
      obtain ⟨rfl, -, -⟩ := hi.shape
      simp [Places.all, Places.taken] at hmem
  | claim q =>
      -- everything linked is on the stack above the claiming awaiter
      obtain ⟨⟨hs, hh, hq, -, hm⟩, -⟩ := hi.shape
      have hmoved : .object p ∈ l.moved := by simpa [mem_all, hs, hh, hq] using hmem
      exact absurd hn (Links.next_ne_none hm hmoved)
  | sub q b => exact ⟨q, .inr ⟨b, ((hi.party q).builds b).mpr rfl⟩⟩
  | own q o =>
      have ho := hi.shape.owning
      have hown := ((hi.party q).owns o ho).mpr rfl
      refine ⟨q, .inl ?_⟩
      rw [hown]
      cases o <;> simp_all [Owning]

/-- A late re-read ends the exclusion: its party now believes that it owns the
mutex, while another one does or while it was resumed as the owner itself. -/
theorem not_exclusive_of_late {a : Action} (hinv : s.Inv) (hlate : ¬ s.Prompt a)
    (h : s.step a = some s') : ¬ s'.Exclusive := by
  obtain ⟨tok, l, hi⟩ := hinv
  cases a with
  | lock _ | tryLock _ | release _ | own _ => exact absurd trivial hlate
  | call p spurious =>
      simp only [Prompt, not_forall] at hlate
      obtain ⟨old, hc, hn, hover⟩ := hlate
      obtain ⟨a, rfl⟩ := Option.ne_none_iff_exists'.mp hover
      simp only [step, Parties.callStep, hc, if_pos hn, Option.some.injEq] at h
      subst h
      intro hex
      by_cases ho : s.own p = .none
      · -- the party still waits, so somebody else has the mutex
        have hmem : .object p ∈ l.all := (hi.party p).linked_iff.mpr ⟨ho, .inr ⟨a, hc⟩⟩
        obtain ⟨q, hq⟩ := hi.exists_holds hmem hn
        have hqp : q ≠ p := by
          rintro rfl
          simp [Holds, ho, hc] at hq
        refine hqp (hex.one_owner q p ?_ (.inr ⟨.exchange, by simp⟩))
        simpa [Holds, hqp] using hq
      · -- the party was already resumed as the owner
        exact (hex.not_both p ((hi.party p).granted a hc ho)).2 .exchange (by simp)

end Exclusive

/-- **Mutual exclusion**: a run is exclusive in every state it passes exactly
when no step of it is a late re-read. -/
theorem exclusive_iff (acts : List Action) :
    (∀ n, Exclusive (Run.exec step {} (acts.take n))) ↔ Run.Meets step Prompt {} acts := by
  apply Run.safe_iff_meets
  · exact fun s a s' hi hp h => inv_step hi hp h
  · exact fun s a s' hi hp h => not_exclusive_of_late hi hp h
  · rintro s ⟨tok, l, hi⟩
    exact hi.exclusive
  · exact inv_init

/-- Party 1 publishes its awaiter over the doorman; party 0 unlocks, hands the
mutex over to party 1 and thereby nulls its `_next`; only then party 1 re-reads
it and runs `build_queue` up to itself, which takes the doorman into `_queue`. -/
def lateRun : List Action :=
  [.tryLock 0, .call 0 false, .lock 1, .call 1 false, .call 1 false, .call 1 false,
    .release 0] ++ List.replicate 14 (.own 0) ++ List.replicate 7 (.call 1 false)

theorem exclusive_fails : ¬ ∀ acts, Exclusive (Run.exec step {} acts) := by
  intro h
  have hex := h lateRun
  exact (hex.not_both 1 (by decide)).1 (by decide)

end Parties

end Mutex

end Cocls
