import Cocls.Generator

/-!
# Cocls.Generator.Access

The ways to access a generator: blocking `next()` and `value()`, `co_await` of
`next()`, a call that returns a future, and iterators.

Each access of a client has a number.  It sets `_caller` and resumes the body;
when the body gets to `co_yield` or to its end, `yield_suspend` resumes whom the
access left in `_caller`: the blocked thread, the coroutine, or the future.
Between the two the body may suspend in `co_await` as often as it likes.  The
client chooses the way of each access anew, and does not start an access before
the one before it completed.
-/

namespace Cocls

namespace Generator

variable {σ T E : Type*}

inductive Mode where
  /-- blocking `next()` and `value()` -/
  | next
  /-- `co_await next()` and `value()` -/
  | coAwaitNext
  /-- the generator is called; the future is read -/
  | future
  /-- `begin()` or `++it`; `it` is compared with `end()` and read -/
  | iterator
deriving DecidableEq, Repr

/-- A generator and the client that accesses it. -/
structure Client (σ T E : Type*) where
  gen : Coroutine σ T E
  /-- the number of accesses -/
  count : Nat := 0
  /-- the access in progress -/
  pending : Option (Nat × Mode) := none
  /-- the accesses whose coroutine was resumed -/
  woken : List Nat := []
  /-- what the accesses reported -/
  reports : List (Nat × Report T E) := []
  /-- the accesses that resumed the body -/
  resumed : List Nat := []
  /-- how often the body ran to a suspension -/
  steps : Nat := 0

namespace Client

inductive Action where
  | access (m : Mode)
  /-- the body runs to its next suspension -/
  | body
  /-- the body is resumed from its `co_await` -/
  | wake
  /-- the client goes on after its access -/
  | finish
deriving DecidableEq, Repr

def start (b : σ) : Client σ T E := { gen := .fresh b }

/-- What a client reads from an iterator: it is at the end if its `_next` is false. -/
def readIterator (p : PromiseType T E) : Report T E :=
  let next := p.awaitResume
  if next = false then .ended else p.value

section Access

variable (s : Client σ T E)

/-- The access reports at once. -/
def answered (r : Report T E) : Client σ T E :=
  { s with count := s.count + 1, reports := s.reports ++ [(s.count, r)] }

/-- The access in mode `m` resumed the body. -/
def resumedBody (m : Mode) (g : Coroutine σ T E) : Client σ T E :=
  { s with gen := g, count := s.count + 1, pending := some (s.count, m)
           resumed := s.resumed ++ [s.count] }

/-- `next_sync`, up to `h.resume()`. -/
def nextSync (m : Mode) : Option (Client σ T E) :=
  let p := s.gen.promise
  if p.caller ≠ none then none
  else if s.gen.place.isDone then some (s.answered .noMoreValues)
  else
    (s.gen.resume { p with block := false, caller := some .internal
                           internal := some .sync }).map (s.resumedBody m)

/-- `next_async`, and the generator that it returns is resumed. -/
def nextAsync (m : Mode) : Option (Client σ T E) :=
  (s.gen.nextAsync s.count).map fun r =>
    if r.2 then s.resumedBody m r.1
    else ({ s with gen := r.1 } : Client σ T E).answered .noMoreValues

/-- `next_future`, up to `h.resume()`. -/
def nextFuture (m : Mode) : Option (Client σ T E) :=
  let p := s.gen.promise
  if p.caller ≠ none then none
  else if s.gen.place.isDone then some (s.answered .noMoreValues)
  else
    (s.gen.resume { p with awaiting := some s.count, caller := some .internal
                           internal := some .future }).map (s.resumedBody m)

/-- The client starts an access. -/
def access (m : Mode) : Option (Client σ T E) :=
  if s.pending ≠ none then none
  else
    match m with
    -- `next_awt::operator bool`
    | .next | .iterator => if s.gen.promise.done then some (s.answered .ended) else s.nextSync m
    -- `next_awt::await_ready`
    | .coAwaitNext => if s.gen.promise.done then some (s.answered .ended) else s.nextAsync m
    | .future => s.nextFuture m

/-- `caller->resume()`. -/
def resumeCaller : Option Caller → Option (Client σ T E)
  | none => none
  | some (.awaiter k) => some { s with woken := k :: s.woken }
  | some .internal =>
      let p := s.gen.promise
      match p.internal with
      | none => none
      | some .sync => some { s with gen := { s.gen with promise := p.unblockSync } }
      | some .future =>
          match p.awaiting with
          | none => some s
          | some k =>
              some { s with gen := { s.gen with promise := { p with awaiting := none } }
                            reports := s.reports ++ [(k, p.unblockFuture)] }

/-- The client goes on after access `k`. -/
def finish (k : Nat) : Mode → Option (Client σ T E)
  | .next =>
      if s.gen.promise.block then
        some { s with pending := none, reports := s.reports ++ [(k, s.gen.promise.readNext)] }
      else none
  | .iterator =>
      if s.gen.promise.block then
        some { s with pending := none, reports := s.reports ++ [(k, readIterator s.gen.promise)] }
      else none
  | .coAwaitNext =>
      if k ∈ s.woken then
        some { s with pending := none, reports := s.reports ++ [(k, s.gen.promise.readNext)] }
      else none
  | .future => if s.gen.promise.awaiting = none then some { s with pending := none } else none

/-- One step. -/
def step (body : σ → BodyStep σ T E) (s : Client σ T E) : Action → Option (Client σ T E)
  | .access m => s.access m
  | .body =>
      match s.gen.runBody body with
      | none => none
      | some (g, .awaits) => some { s with gen := g, steps := s.steps + 1 }
      | some (g, .resumes c) =>
          ({ s with gen := g, steps := s.steps + 1 } : Client σ T E).resumeCaller c
  | .wake => s.gen.wake.map fun g => { s with gen := g }
  | .finish =>
      match s.pending with
      | none => none
      | some (k, m) => s.finish k m

end Access

/-! ## What the accesses report -/

/-- The `n` accesses of a client follow the body `body`, started in `b`. -/
structure Agrees (body : σ → BodyStep σ T E) (b : σ) (n : Nat) (s : Client σ T E) : Prop where
  counted : s.count = n
  /-- every access is in progress or has reported -/
  accounted : ∀ k < n, k < s.reports.length ∨ ∃ m, s.pending = some (k, m)
  /-- the accesses report in their order, each of them once -/
  inOrder : s.reports.map Prod.fst = List.range s.reports.length
  /-- an access that completed reported -/
  reported : s.pending = none → s.reports.length = s.count
  /-- the `i`-th access reports the `i`-th outcome of the body, up to the end of the body -/
  stream : s.reports.map Prod.snd <+: outcomes body b s.steps ∨
    Ended (outcomes body b s.steps) ∧ outcomes body b s.steps <+: s.reports.map Prod.snd
  /-- until the next access `value()` is what the last one reported -/
  holds : s.pending = none → ∀ r, (outcomes body b s.steps).getLast? = some r → r ≠ .ended →
    s.gen.promise.value = r
  /-- every access before the end of the body resumes it once -/
  resumedOnce : s.resumed = List.range s.resumed.length
  /-- the body runs to its next `co_yield` or its end whenever it is resumed -/
  toNextYield : s.resumed.length =
    (outcomes body b s.steps).length + if s.gen.place.atWork then 1 else 0
  /-- an access that is in progress goes on, as soon as the body does -/
  goesOn : s.pending ≠ none → (s.step body .body).isSome ∨ (s.step body .wake).isSome ∨
    (s.step body .finish).isSome
  /-- after an access, before the end of the body, every access is possible -/
  accepts : s.pending = none → ¬ Ended (outcomes body b s.steps) →
    ∀ m, (s.step body (.access m)).isSome

/-! ## The phases of an access -/

/-- Access `k` in mode `m` left its caller in the promise. -/
def Charged (p : PromiseType T E) (k : Nat) : Mode → Prop
  | .next | .iterator => p.caller = some .internal ∧ p.internal = some .sync ∧ p.block = false
  | .coAwaitNext => p.caller = some (.awaiter k)
  | .future => p.caller = some .internal ∧ p.internal = some .future ∧ p.awaiting = some k

/-- The caller of access `k` in mode `m` was resumed; `vs` are the outcomes before, and `r` is
the outcome of this access. -/
def Answered (s : Client σ T E) (k : Nat) (vs : List (Report T E)) (r : Report T E) : Mode → Prop
  | .next | .iterator => s.gen.promise.block = true ∧ s.reports.map Prod.snd = vs
  | .coAwaitNext => k ∈ s.woken ∧ s.reports.map Prod.snd = vs
  | .future => s.gen.promise.awaiting = none ∧ s.reports.map Prod.snd = vs ++ [r]

/-- Where a client is in its accesses; `os` are the outcomes of the body so far. -/
inductive Phase (s : Client σ T E) (os : List (Report T E)) : Prop
  | idle (b : σ) (hp : s.pending = none) (hpl : s.gen.place = .suspended b)
      (hc : s.gen.promise.caller = none) (hn : s.count = s.reports.length)
      (hr : s.reports.map Prod.snd = os) (hres : s.resumed = List.range s.count)
      (hw : ∀ k ∈ s.woken, k < s.count)
  | busy (k : Nat) (m : Mode) (hp : s.pending = some (k, m)) (hpl : s.gen.place.atWork = true)
      (hc : Charged s.gen.promise k m) (hn : s.count = k + 1) (hk : s.reports.length = k)
      (hr : s.reports.map Prod.snd = os) (hres : s.resumed = List.range (k + 1))
      (hw : ∀ j ∈ s.woken, j < k)
  | arrived (k : Nat) (m : Mode) (vs : List (Report T E)) (r : Report T E)
      (hp : s.pending = some (k, m)) (hpl : s.gen.place.atWork = false)
      (hc : s.gen.promise.caller = none) (hn : s.count = k + 1) (hk : vs.length = k)
      (hos : os = vs ++ [r]) (ha : Answered s k vs r m) (hres : s.resumed = List.range (k + 1))
      (hw : ∀ j ∈ s.woken, j < k + 1)
  | finished (hp : s.pending = none) (hpl : s.gen.place = .done) (hn : s.count = s.reports.length)
      (hos : os <+: s.reports.map Prod.snd) (hres : s.resumed = List.range os.length)

/-- The invariant. -/
structure Inv (body : σ → BodyStep σ T E) (b : σ) (s : Client σ T E) : Prop where
  inOrder : s.reports.map Prod.fst = List.range s.reports.length
  place : s.gen.place.At (position body b s.steps)
  shows : Shows s.gen.promise (outcomes body b s.steps)
  phase : Phase s (outcomes body b s.steps)

variable {body : σ → BodyStep σ T E} {b : σ} {s s' : Client σ T E}

/-- An iterator reads the same as `next()` and `value()`. -/
theorem readIterator_eq (p : PromiseType T E) : readIterator p = p.readNext := by
  rw [readIterator, PromiseType.readNext]
  cases p.awaitResume <;> rfl

/-! ## Every step -/

/-- The numbers of the reports, one more report. -/
theorem map_fst_snoc {rs : List (Nat × Report T E)} {k : Nat} {r : Report T E}
    (h : rs.map Prod.fst = List.range rs.length) (hk : rs.length = k) :
    (rs ++ [(k, r)]).map Prod.fst = List.range (rs ++ [(k, r)]).length := by
  rw [List.map_append, h, List.length_append, List.length_singleton, List.range_succ, hk]
  rfl

/-- An access of an idle generator resumes the body. -/
theorem Inv.resumedBody (h : Inv body b s) {b' : σ} {m : Mode} {p : PromiseType T E}
    (hpl : s.gen.place = .suspended b') (hn : s.count = s.reports.length)
    (hr : s.reports.map Prod.snd = outcomes body b s.steps) (hres : s.resumed = List.range s.count)
    (hw : ∀ k ∈ s.woken, k < s.count) (hc : Charged p s.count m)
    (hsh : Shows p (outcomes body b s.steps)) : Inv body b (s.resumedBody m ⟨p, .running b'⟩) := by
  have hat := h.place
  rw [hpl] at hat
  exact ⟨h.inOrder, hat, hsh, .busy s.count m rfl rfl hc rfl hn.symm hr
    (by rw [Client.resumedBody, hres, List.range_succ]) hw⟩

/-- An access after the end of the body reports at once. -/
theorem Inv.answered (h : Inv body b s) {p : PromiseType T E} {r : Report T E}
    (hp : s.pending = none) (hpl : s.gen.place = .done) (hn : s.count = s.reports.length)
    (hos : outcomes body b s.steps <+: s.reports.map Prod.snd)
    (hres : s.resumed = List.range (outcomes body b s.steps).length)
    (hsh : Shows p (outcomes body b s.steps)) :
    Inv body b (({ s with gen := { s.gen with promise := p } } : Client σ T E).answered r) := by
  refine ⟨map_fst_snoc h.inOrder hn.symm, h.place, hsh, .finished hp hpl ?_ ?_ hres⟩
  · simp [Client.answered, hn]
  · simp only [Client.answered, List.map_append]
    exact hos.trans (List.prefix_append _ _)

/-- **A client starts an access.** -/
theorem Inv.access (h : Inv body b s) {m : Mode} (hs : s.access m = some s') : Inv body b s' := by
  have hpend : s.pending = none := by
    by_contra hne
    simp [Client.access, hne] at hs
  simp only [Client.access, hpend, ne_eq, not_true_eq_false, if_false] at hs
  cases h.phase with
  | busy k m' hp => rw [hpend] at hp; cases hp
  | arrived k m' vs r hp => rw [hpend] at hp; cases hp
  | idle b' hp hpl hc hn hr hres hw =>
      have hpos : position body b s.steps = some b' := by
        have := h.place
        rwa [hpl] at this
      have hvals : Values (outcomes body b s.steps) := by
        have := values_or_ended body b s.steps
        rwa [hpos] at this
      have hd := (h.shows.of_values hvals).1
      have hnd : s.gen.place.isDone = false := by rw [hpl]; rfl
      have hresume : ∀ p, s.gen.resume p = some ⟨p, .running b'⟩ := by
        intro p
        rw [Coroutine.resume, hpl]
      have hgo : ∀ p, Charged p s.count m → Shows p (outcomes body b s.steps) →
          Inv body b (s.resumedBody m ⟨p, .running b'⟩) :=
        fun p => h.resumedBody hpl hn hr hres hw
      cases m with
      | next =>
          simp only [hd, Client.nextSync, hc, hnd, hresume] at hs
          rw [← Option.some.inj hs]
          exact hgo _ ⟨rfl, rfl, rfl⟩ (h.shows.congr hd.symm rfl rfl)
      | iterator =>
          simp only [hd, Client.nextSync, hc, hnd, hresume] at hs
          rw [← Option.some.inj hs]
          exact hgo _ ⟨rfl, rfl, rfl⟩ (h.shows.congr hd.symm rfl rfl)
      | coAwaitNext =>
          simp only [hd, Client.nextAsync, Coroutine.nextAsync, hc, hnd, hresume] at hs
          rw [← Option.some.inj hs]
          exact hgo _ rfl (h.shows.congr hd.symm rfl rfl)
      | future =>
          simp only [Client.nextFuture, hc, hnd, hresume] at hs
          rw [← Option.some.inj hs]
          exact hgo _ ⟨rfl, rfl, rfl⟩ (h.shows.congr rfl rfl rfl)
  | finished hp hpl hn hos hres =>
      have hdone : s.gen.place.isDone = true := by rw [hpl]; rfl
      have hgo : ∀ p r, Shows p (outcomes body b s.steps) →
          Inv body b (({ s with gen := { s.gen with promise := p } } : Client σ T E).answered r) :=
        fun p r hsh => h.answered hp hpl hn hos hres hsh
      have hsame : ∀ r, Inv body b (s.answered r) := fun r => hgo s.gen.promise r h.shows
      cases m <;> simp only [Client.nextSync, Client.nextAsync, Coroutine.nextAsync,
        Client.nextFuture, hdone, if_true] at hs
      case future =>
        split at hs
        · cases hs
        · rw [← Option.some.inj hs]; exact hsame _
      case coAwaitNext =>
        split at hs
        · rw [← Option.some.inj hs]; exact hsame _
        · split at hs
          · cases hs
          · rw [← Option.some.inj hs]; exact hgo _ _ (h.shows.congr rfl rfl rfl)
      all_goals
        split at hs
        · rw [← Option.some.inj hs]; exact hsame _
        · split at hs
          · cases hs
          · rw [← Option.some.inj hs]; exact hsame _

/-- The phase of a client whose body is at work. -/
theorem Phase.of_atWork {os : List (Report T E)} (h : Phase s os)
    (hw : s.gen.place.atWork = true) : ∃ k m, s.pending = some (k, m) ∧
      Charged s.gen.promise k m ∧ s.count = k + 1 ∧ s.reports.length = k ∧
      s.reports.map Prod.snd = os ∧ s.resumed = List.range (k + 1) ∧ ∀ j ∈ s.woken, j < k := by
  cases h with
  | busy k m hp hpl hc hn hk hr hres hw => exact ⟨k, m, hp, hc, hn, hk, hr, hres, hw⟩
  | idle b' hp hpl => rw [hpl] at hw; cases hw
  | arrived k m vs r hp hpl => rw [hpl] at hw; cases hw
  | finished hp hpl => rw [hpl] at hw; cases hw

/-- **The body runs to its next suspension**: at `co_yield` and at its end it resumes the
caller that the access left. -/
theorem Inv.runBody (h : Inv body b s) (hs : s.step body .body = some s') : Inv body b s' := by
  simp only [Client.step] at hs
  split at hs
  · cases hs
  · next g hrun =>
    obtain ⟨k, m, hp, hc, hn, hk, hr, hres, hw⟩ := h.phase.of_atWork (atWork_of_runBody hrun)
    obtain ⟨-, hpr, hwork, hat, hos⟩ | ⟨r, hx, -⟩ := runBody_cases hrun h.place h.shows
    · rw [← Option.some.inj hs]
      refine ⟨h.inOrder, hat, ?_, ?_⟩
      · simp only [hos, hpr]
        exact h.shows
      · simp only [hos]
        exact .busy k m hp hwork (by simp only [hpr]; exact hc) hn hk hr hres hw
    · cases hx
  · next g c hrun =>
    obtain ⟨k, m, hp, hc, hn, hk, hr, hres, hw⟩ := h.phase.of_atWork (atWork_of_runBody hrun)
    obtain ⟨hx, -⟩ | ⟨r, hx, hwork, hat, hos, hsh, hpr⟩ := runBody_cases hrun h.place h.shows
    · cases hx
    · obtain rfl : c = s.gen.promise.caller := Ran.resumes.inj hx
      have hcaller : g.promise.caller = none := by rw [hpr]
      have hinternal : g.promise.internal = s.gen.promise.internal := by rw [hpr]
      have hawaiting : g.promise.awaiting = s.gen.promise.awaiting := by rw [hpr]
      have hlen : (outcomes body b s.steps).length = k := by rw [← hr, List.length_map, hk]
      have hsnoc : Shows g.promise (outcomes body b (s.steps + 1)) := by
        rw [hos]
        exact (shows_snoc _ _ _).mpr hsh
      have hw' : ∀ j ∈ s.woken, j < k + 1 := fun j hj => Nat.lt_succ_of_lt (hw j hj)
      cases m with
      | next =>
          obtain ⟨hcl, hin, -⟩ := hc
          simp only [Client.resumeCaller, hcl, hinternal, hin, Option.some.injEq] at hs
          subst hs
          exact ⟨h.inOrder, hat, hsnoc.congr rfl rfl rfl,
            .arrived k .next _ r hp hwork hcaller hn hlen hos ⟨rfl, hr⟩ hres hw'⟩
      | iterator =>
          obtain ⟨hcl, hin, -⟩ := hc
          simp only [Client.resumeCaller, hcl, hinternal, hin, Option.some.injEq] at hs
          subst hs
          exact ⟨h.inOrder, hat, hsnoc.congr rfl rfl rfl,
            .arrived k .iterator _ r hp hwork hcaller hn hlen hos ⟨rfl, hr⟩ hres hw'⟩
      | coAwaitNext =>
          have hcl : s.gen.promise.caller = some (.awaiter k) := hc
          simp only [Client.resumeCaller, hcl, Option.some.injEq] at hs
          subst hs
          refine ⟨h.inOrder, hat, hsnoc, .arrived k .coAwaitNext _ r hp hwork hcaller hn hlen hos
            ⟨List.mem_cons_self, hr⟩ hres ?_⟩
          intro j hj
          rcases List.mem_cons.mp hj with rfl | hj
          · exact Nat.lt_succ_self j
          · exact hw' j hj
      | future =>
          obtain ⟨hcl, hin, haw⟩ := hc
          simp only [Client.resumeCaller, hcl, hinternal, hin, hawaiting, haw,
            Option.some.injEq] at hs
          subst hs
          refine ⟨map_fst_snoc h.inOrder hk, hat, hsnoc.congr rfl rfl rfl,
            .arrived k .future _ r hp hwork hcaller hn hlen hos ⟨rfl, ?_⟩ hres hw'⟩
          rw [List.map_append, hr, List.map_singleton, hsh.read.2]

/-- The body is resumed from its `co_await`. -/
theorem Inv.wake (h : Inv body b s) (hs : s.step body .wake = some s') : Inv body b s' := by
  obtain ⟨g, hg, rfl⟩ := Option.map_eq_some_iff.mp hs
  have hat := h.place
  simp only [Coroutine.wake] at hg
  split at hg
  · next b' hpl =>
    obtain rfl := Option.some.inj hg
    rw [hpl] at hat
    obtain ⟨k, m, hp, hc, hn, hk, hr, hres, hw⟩ := h.phase.of_atWork (by rw [hpl]; rfl)
    exact ⟨h.inOrder, hat, h.shows, .busy k m hp rfl hc hn hk hr hres hw⟩
  · cases hg

/-- No access is in progress, and the body is not at work. -/
theorem Phase.of_rest {os : List (Report T E)} (hp : s.pending = none)
    (hpl : s.gen.place.atWork = false) (hc : s.gen.promise.caller = none)
    (hn : s.count = s.reports.length) (hr : s.reports.map Prod.snd = os)
    (hres : s.resumed = List.range s.count) (hw : ∀ k ∈ s.woken, k < s.count) : Phase s os := by
  have hlen : os.length = s.count := by rw [← hr, List.length_map, hn]
  cases hplace : s.gen.place with
  | suspended b' => exact .idle b' hp hplace hc hn hr hres hw
  | running b' => rw [hplace] at hpl; cases hpl
  | awaiting b' => rw [hplace] at hpl; cases hpl
  | done => exact .finished hp hplace hn (hr ▸ List.prefix_rfl) (by rw [hlen]; exact hres)

/-- **The client goes on after its access**, with the outcome of the body. -/
theorem Inv.finish (h : Inv body b s) (hs : s.step body .finish = some s') : Inv body b s' := by
  simp only [Client.step] at hs
  cases h.phase with
  | idle b' hp => rw [hp] at hs; cases hs
  | finished hp => rw [hp] at hs; cases hs
  | busy k m hp hpl hc hn hk hr hres hw =>
      -- the caller was not resumed yet
      rw [hp] at hs
      cases m with
      | next => simp [Client.finish, hc.2.2] at hs
      | iterator => simp [Client.finish, hc.2.2] at hs
      | coAwaitNext =>
          have hnot : k ∉ s.woken := fun hk' => Nat.lt_irrefl k (hw k hk')
          simp [Client.finish, hnot] at hs
      | future => simp [Client.finish, hc.2.2] at hs
  | arrived k m vs r hp hpl hc hn hk hos ha hres hw =>
      have hsh : Shows s.gen.promise [r] := by
        rw [← shows_snoc _ vs, ← hos]
        exact h.shows
      have hwc : ∀ j ∈ s.woken, j < s.count := by rw [hn]; exact hw
      have hresc : s.resumed = List.range s.count := by rw [hn]; exact hres
      rw [hp] at hs
      -- the report of a client that reads the promise now
      have hread : ∀ r', r' = r → s.reports.map Prod.snd = vs →
          Inv body b { s with pending := none, reports := s.reports ++ [(k, r')] } := by
        rintro r' rfl hr
        have hlen : s.reports.length = k := by rw [← hk, ← hr, List.length_map]
        refine ⟨map_fst_snoc h.inOrder hlen, h.place, h.shows,
          .of_rest rfl hpl hc ?_ ?_ hresc hwc⟩
        · rw [List.length_append, List.length_singleton, hlen, hn]
        · rw [List.map_append, hr, hos]
          rfl
      cases m with
      | next =>
          simp only [Client.finish, ha.1, if_true, Option.some.injEq] at hs
          rw [← hs]
          exact hread _ hsh.read.1 ha.2
      | iterator =>
          simp only [Client.finish, ha.1, if_true, Option.some.injEq] at hs
          rw [← hs]
          exact hread _ ((readIterator_eq _).trans hsh.read.1) ha.2
      | coAwaitNext =>
          simp only [Client.finish, ha.1, if_true, Option.some.injEq] at hs
          rw [← hs]
          exact hread _ hsh.read.1 ha.2
      | future =>
          simp only [Client.finish, ha.1, if_true, Option.some.injEq] at hs
          rw [← hs]
          have hlen : s.reports.length = k + 1 := by
            rw [← hk, ← List.length_map Prod.snd, ha.2, List.length_append, List.length_singleton]
          exact ⟨h.inOrder, h.place, h.shows,
            .of_rest rfl hpl hc (hn.trans hlen.symm) (ha.2.trans hos.symm) hresc hwc⟩

theorem Inv.step (h : Inv body b s) {a : Action} (hs : s.step body a = some s') :
    Inv body b s' := by
  cases a with
  | access m => exact h.access hs
  | body => exact h.runBody hs
  | wake => exact h.wake hs
  | finish => exact h.finish hs

theorem inv_start (body : σ → BodyStep σ T E) (b : σ) : Inv body b (start b) :=
  ⟨rfl, rfl, ⟨rfl, rfl, rfl⟩, .idle b rfl rfl rfl rfl rfl rfl fun _ h => (by cases h)⟩

/-! ## Every run -/

/-- The caller that an access left can be resumed. -/
theorem Charged.resumeCaller {g : Coroutine σ T E} {k : Nat} {m : Mode}
    (hc : Charged s.gen.promise k m) (hin : g.promise.internal = s.gen.promise.internal) (n : Nat) :
    (({ s with gen := g, steps := n } : Client σ T E).resumeCaller s.gen.promise.caller).isSome := by
  cases m with
  | next => simp [Client.resumeCaller, hc.1, hin, hc.2.1]
  | iterator => simp [Client.resumeCaller, hc.1, hin, hc.2.1]
  | coAwaitNext =>
      have hcl : s.gen.promise.caller = some (.awaiter k) := hc
      simp [Client.resumeCaller, hcl]
  | future =>
      simp only [Client.resumeCaller, hc.1, hin, hc.2.1]
      split <;> rfl

/-- An access in progress goes on as soon as the body does. -/
theorem Inv.goesOn (h : Inv body b s) (hp : s.pending ≠ none) :
    (s.step body .body).isSome ∨ (s.step body .wake).isSome ∨ (s.step body .finish).isSome := by
  cases h.phase with
  | idle b' hp' => exact absurd hp' hp
  | finished hp' => exact absurd hp' hp
  | busy k m hp' hpl hc hn hk hr hres hw =>
      cases hplace : s.gen.place with
      | suspended b' => rw [hplace] at hpl; cases hpl
      | done => rw [hplace] at hpl; cases hpl
      | awaiting b' => exact .inr (.inl (by simp [Client.step, Coroutine.wake, hplace]))
      | running b' =>
          left
          simp only [Client.step]
          cases hrun : s.gen.runBody body with
          | none => simp [Coroutine.runBody, hplace] at hrun
          | some gx =>
              obtain ⟨g, x⟩ := gx
              cases x with
              | awaits => rfl
              | resumes c =>
                  obtain ⟨hx, -⟩ | ⟨r, hx, -, -, -, -, hpr⟩ := runBody_cases hrun h.place h.shows
                  · cases hx
                  · rw [Ran.resumes.inj hx]
                    exact hc.resumeCaller (by rw [hpr]) _
  | arrived k m vs r hp' hpl hc hn hk hos ha =>
      right; right
      simp only [Client.step, hp']
      cases m with
      | next => simp [Client.finish, ha.1]
      | iterator => simp [Client.finish, ha.1]
      | coAwaitNext => simp [Client.finish, ha.1]
      | future => simp [Client.finish, ha.1]

/-- Where the body is at its end it ended. -/
theorem Inv.ended (h : Inv body b s) (hpl : s.gen.place = .done) :
    Ended (outcomes body b s.steps) := by
  have hpos : position body b s.steps = none := by
    have := h.place
    rwa [hpl] at this
  have := values_or_ended body b s.steps
  rwa [hpos] at this

/-- Before the end of the body a client without an access in progress starts any. -/
theorem Inv.accepts (h : Inv body b s) (hp : s.pending = none)
    (hend : ¬ Ended (outcomes body b s.steps)) (m : Mode) :
    (s.step body (.access m)).isSome := by
  cases h.phase with
  | busy k m' hp' => rw [hp] at hp'; cases hp'
  | arrived k m' vs r hp' => rw [hp] at hp'; cases hp'
  | finished hp' hpl => exact absurd (h.ended hpl) hend
  | idle b' hp' hpl hc =>
      cases m <;> cases hd : s.gen.promise.done <;>
        simp [Client.step, Client.access, Client.nextSync, Client.nextAsync, Client.nextFuture,
          Coroutine.nextAsync, Coroutine.resume, Place.isDone, hp, hc, hd, hpl]

/-- The last outcome of the body is what `value()` gives. -/
theorem Inv.value (h : Inv body b s) {r : Report T E}
    (hl : (outcomes body b s.steps).getLast? = some r) (hr : r ≠ .ended) :
    s.gen.promise.value = r := by
  refine Shows.value ?_ hr
  have hsh := h.shows
  rw [Shows, hl] at hsh
  rw [Shows, List.getLast?_singleton]
  exact hsh

/-- How far the reports are. -/
theorem Inv.stream (h : Inv body b s) : s.reports.map Prod.snd <+: outcomes body b s.steps ∨
    Ended (outcomes body b s.steps) ∧ outcomes body b s.steps <+: s.reports.map Prod.snd := by
  cases h.phase with
  | idle b' hp hpl hc hn hr => rw [hr]; exact .inl List.prefix_rfl
  | busy k m hp hpl hc hn hk hr => rw [hr]; exact .inl List.prefix_rfl
  | finished hp hpl hn hos => exact .inr ⟨h.ended hpl, hos⟩
  | arrived k m vs r hp hpl hc hn hk hos ha =>
      left
      rw [hos]
      cases m with
      | next => rw [ha.2]; exact List.prefix_append _ _
      | iterator => rw [ha.2]; exact List.prefix_append _ _
      | coAwaitNext => rw [ha.2]; exact List.prefix_append _ _
      | future => exact ha.2 ▸ List.prefix_rfl

/-- How often the accesses resumed the body. -/
theorem Inv.resumed (h : Inv body b s) : s.resumed = List.range
    ((outcomes body b s.steps).length + if s.gen.place.atWork then 1 else 0) := by
  cases h.phase with
  | idle b' hp hpl hc hn hr hres =>
      rw [hres, hn, ← List.length_map Prod.snd, hr, hpl]
      rfl
  | busy k m hp hpl hc hn hk hr hres =>
      rw [hres, hpl, ← hk, ← List.length_map Prod.snd, hr]
      rfl
  | arrived k m vs r hp hpl hc hn hk hos ha hres =>
      rw [hres, hpl, hos, List.length_append, hk]
      rfl
  | finished hp hpl hn hos hres => rw [hres, hpl]; rfl

/-- The access that has not reported is in progress. -/
theorem Inv.accounted (h : Inv body b s) {k : Nat} (hk : k < s.count) :
    k < s.reports.length ∨ ∃ m, s.pending = some (k, m) := by
  cases h.phase with
  | idle b' hp hpl hc hn => exact .inl (hn ▸ hk)
  | finished hp hpl hn => exact .inl (hn ▸ hk)
  | busy j m hp hpl hc hn hj =>
      rcases Nat.lt_or_ge k j with hlt | hge
      · exact .inl (hj ▸ hlt)
      · obtain rfl : k = j := by omega
        exact .inr ⟨m, hp⟩
  | arrived j m vs r hp hpl hc hn hj hos ha =>
      rcases Nat.lt_or_ge k j with hlt | hge
      · refine .inl ?_
        rw [← List.length_map Prod.snd]
        cases m with
        | next | iterator | coAwaitNext =>
            rw [ha.2]
            omega
        | future =>
            rw [ha.2, List.length_append]
            omega
      · obtain rfl : k = j := by omega
        exact .inr ⟨m, hp⟩

theorem Inv.agrees (h : Inv body b s) : Agrees body b s.count s where
  counted := rfl
  accounted _ hk := h.accounted hk
  inOrder := h.inOrder
  reported hp := by
    cases h.phase with
    | idle b' _ hpl hc hn => exact hn.symm
    | finished _ hpl hn => exact hn.symm
    | busy k m hp' => rw [hp] at hp'; cases hp'
    | arrived k m vs r hp' => rw [hp] at hp'; cases hp'
  stream := h.stream
  holds _ _ hl hr := h.value hl hr
  resumedOnce := by rw [h.resumed, List.length_range]
  toNextYield := by rw [h.resumed, List.length_range]
  goesOn := h.goesOn
  accepts := h.accepts

/-- The client starts an access. -/
def Action.isAccess : Action → Bool
  | .access _ => true
  | .body | .wake | .finish => false

theorem count_of_access {m : Mode} (h : s.access m = some s') : s'.count = s.count + 1 := by
  have hsync : ∀ m, s.nextSync m = some s' → s'.count = s.count + 1 := fun m h => by
    rw [Client.nextSync] at h
    grind [Client.answered, Client.resumedBody, Option.map_eq_some_iff]
  have hasync : ∀ m, s.nextAsync m = some s' → s'.count = s.count + 1 := fun m h => by
    obtain ⟨r, -, rfl⟩ := Option.map_eq_some_iff.mp h
    split <;> rfl
  have hfuture : ∀ m, s.nextFuture m = some s' → s'.count = s.count + 1 := fun m h => by
    rw [Client.nextFuture] at h
    grind [Client.answered, Client.resumedBody, Option.map_eq_some_iff]
  cases m <;> simp only [Client.access] at h <;> grind [Client.answered]

theorem count_of_resumeCaller {c : Option Caller} (h : s.resumeCaller c = some s') :
    s'.count = s.count := by
  unfold Client.resumeCaller at h
  grind

theorem count_of_finish {k : Nat} {m : Mode} (h : s.finish k m = some s') :
    s'.count = s.count := by
  cases m <;> grind [Client.finish]

theorem count_of_step {a : Action} (h : s.step body a = some s') :
    s'.count = s.count + if a.isAccess then 1 else 0 := by
  cases a with
  | access m => exact count_of_access h
  | body =>
      simp only [Client.step] at h
      split at h
      · cases h
      · rw [← Option.some.inj h]
        rfl
      · have hcount := count_of_resumeCaller h
        exact hcount
  | wake =>
      obtain ⟨g, -, rfl⟩ := Option.map_eq_some_iff.mp h
      rfl
  | finish =>
      simp only [Client.step] at h
      split at h
      · cases h
      · exact count_of_finish h

/-- **All ways to access a generator agree**: for every body and every sequence of accesses,
the `i`-th access reports the `i`-th value that the body yields, and the first one after the
last value the end of the body; each access resumes the body once, to its next `co_yield`. -/
theorem agrees_exec (body : σ → BodyStep σ T E) (b : σ) (as : List Action) :
    Agrees body b ((Run.taken (step body) (start b) as).countP Action.isAccess)
      (Run.exec (step body) (start b) as) := by
  have hcount := Run.exec_countP count Action.isAccess
    (fun s a s' (h : step body s a = some s') => count_of_step h) (start b) as
  rw [show (start b : Client σ T E).count = 0 from rfl, Nat.zero_add] at hcount
  rw [← hcount]
  exact (Run.exec_inv (fun _ _ _ h hs => h.step hs) (inv_start body b) as).agrees

end Client

end Generator

end Cocls
