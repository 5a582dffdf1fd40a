import Cocls.Links

/-!
# Cocls.Awaiter

Awaiters and their collectors.  An `awaiter` is linked through its `_next`
field; a collector is one atomic `awaiter *`, the top of a stack of awaiters.
Two static awaiters serve as markers: `awaiter::instance` (the doorman of a
mutex, the state of a future nobody has a promise for) and `awaiter::disabled`
(a collector that is closed for good).
-/

namespace Cocls

/-- The awaiters of a program: the two static markers and the objects, each
with an address of its own. -/
inductive Awaiter where
  | theInstance
  | disabled
  | object (address : Nat)
deriving DecidableEq, Repr

namespace Awaiter

/-- The `_next` fields of all awaiters. -/
abbrev Nexts := Awaiter → Option Awaiter

/-- `chain.compare_exchange_weak(_next, this)`: when the collector `top` holds
what `_next` says, it becomes `this`; otherwise, or when the exchange fails
spuriously, `_next` becomes what the collector holds. -/
def compareExchangeWeak (top : Option Awaiter) (next : Nexts) (this : Awaiter)
    (spurious : Bool) : Option Awaiter × Nexts × Bool :=
  if spurious = false ∧ top = next this then (some this, next, true)
  else (top, Function.update next this top, false)

/-- The loop of `awaiter::subscribe`, with nobody interfering: `none` when
`fuel` attempts were not enough. -/
def subscribe (this : Awaiter) :
    (fuel : Nat) → Option Awaiter → Nexts → Option (Option Awaiter × Nexts)
  | 0, _, _ => none
  | fuel + 1, top, next =>
      match compareExchangeWeak top next this false with
      | (top, next, true) => some (top, next)
      | (top, next, false) => subscribe this fuel top next

/-- Two attempts are enough: the awaiter ends on top of what the collector held. -/
theorem subscribe_eq (this : Awaiter) (fuel : Nat) (top : Option Awaiter) (next : Nexts) :
    subscribe this (fuel + 2) top next = some (some this, Function.update next this top) := by
  by_cases h : top = next this
  · simp [subscribe, compareExchangeWeak, h]
  · simp [subscribe, compareExchangeWeak, h]

/-- One attempt of `awaiter::subscribe_check_ready`: `true`, subscribed; `false`,
the collector is in the ready state and `_next` is null again; `none`, the loop
goes on. -/
def subscribeCheckReady (readyState : Awaiter) (top : Option Awaiter) (next : Nexts)
    (this : Awaiter) (spurious : Bool) : Option Awaiter × Nexts × Option Bool :=
  match compareExchangeWeak top next this spurious with
  | (top, next, true) => (top, next, some true)
  | (top, next, false) =>
      if next this = some readyState then (top, Function.update next this none, some false)
      else (top, next, none)

section SubscribeCheckReady

variable {readyState this : Awaiter} {top : Option Awaiter} {next : Nexts} {spurious : Bool}

/-- The exchange succeeds: the awaiter is on top of what the collector held. -/
theorem subscribeCheckReady_of_exchanged (h : spurious = false ∧ top = next this) :
    subscribeCheckReady readyState top next this spurious = (some this, next, some true) := by
  simp [subscribeCheckReady, compareExchangeWeak, h]

/-- The exchange fails on a collector in the ready state. -/
theorem subscribeCheckReady_of_ready (h : ¬ (spurious = false ∧ top = next this))
    (htop : top = some readyState) :
    subscribeCheckReady readyState top next this spurious =
      (top, Function.update next this none, some false) := by
  subst htop
  simp [subscribeCheckReady, compareExchangeWeak, h]

/-- The exchange fails otherwise: `_next` is what the collector holds. -/
theorem subscribeCheckReady_of_retry (h : ¬ (spurious = false ∧ top = next this))
    (htop : top ≠ some readyState) :
    subscribeCheckReady readyState top next this spurious =
      (top, Function.update next this top, none) := by
  simp [subscribeCheckReady, compareExchangeWeak, h, htop]

/-- The loop of `subscribe_check_ready`, with nobody interfering: `none` when
`fuel` attempts were not enough. -/
def subscribeCheckReadyLoop (readyState this : Awaiter) :
    (fuel : Nat) → Option Awaiter → Nexts → Option (Option Awaiter × Nexts × Bool)
  | 0, _, _ => none
  | fuel + 1, top, next =>
      match subscribeCheckReady readyState top next this false with
      | (top, next, some subscribed) => some (top, next, subscribed)
      | (top, next, none) => subscribeCheckReadyLoop readyState this fuel top next

/-- On a collector in the ready state one attempt refuses the awaiter. -/
theorem subscribeCheckReadyLoop_of_ready (fuel : Nat) (h : next this ≠ some readyState) :
    subscribeCheckReadyLoop readyState this (fuel + 1) (some readyState) next =
      some (some readyState, Function.update next this none, false) := by
  rw [subscribeCheckReadyLoop, subscribeCheckReady_of_ready (fun hex => h hex.2.symm) rfl]

/-- Otherwise two attempts are enough to subscribe it. -/
theorem subscribeCheckReadyLoop_of_open (fuel : Nat) (h : top ≠ some readyState) :
    subscribeCheckReadyLoop readyState this (fuel + 2) top next =
      some (some this, Function.update next this top, true) := by
  by_cases hex : top = next this
  · rw [subscribeCheckReadyLoop, subscribeCheckReady_of_exchanged ⟨rfl, hex⟩, hex,
      Function.update_eq_self]
  · rw [subscribeCheckReadyLoop, subscribeCheckReady_of_retry (fun h => hex h.2) h]
    simp only []
    rw [subscribeCheckReadyLoop, subscribeCheckReady_of_exchanged ⟨rfl, by simp⟩]

end SubscribeCheckReady

/-- `resume_chain_lk`: unlink the awaiters of the chain and resume them, in order;
`none` when `fuel` rounds were not enough. -/
def resumeChainLk : (fuel : Nat) → Option Awaiter → Nexts → Option (List Awaiter × Nexts)
  | _, none, next => some ([], next)
  | 0, some _, _ => none
  | fuel + 1, some y, next =>
      (resumeChainLk fuel (next y) (Function.update next y none)).map fun r => (y :: r.1, r.2)

/-- It resumes exactly the awaiters of the chain and writes no other `_next`. -/
theorem resumeChainLk_spec {xs : List Awaiter} :
    ∀ {fuel : Nat} {chain : Option Awaiter} {next : Nexts}, Links next chain xs none → xs.Nodup →
      xs.length ≤ fuel →
      ∃ next', resumeChainLk fuel chain next = some (xs, next') ∧
        ∀ a, a ∉ xs → next' a = next a := by
  induction xs with
  | nil =>
      intro fuel chain next hlinks hnd hfuel
      obtain rfl : chain = none := hlinks
      exact ⟨next, by rw [resumeChainLk], fun _ _ => rfl⟩
  | cons x xs ih =>
      intro fuel chain next hlinks hnd hfuel
      obtain ⟨rfl, hrest⟩ := hlinks
      obtain ⟨hx, hnd⟩ := List.nodup_cons.mp hnd
      cases fuel with
      | zero => simp at hfuel
      | succ fuel =>
          have hfuel : xs.length ≤ fuel := by simpa using hfuel
          obtain ⟨next', hrun, hframe⟩ :=
            ih ((Links.update_iff (v := none) hx).mpr hrest) hnd hfuel
          refine ⟨next', by rw [resumeChainLk, hrun]; rfl, ?_⟩
          intro a ha
          obtain ⟨hax, haxs⟩ := not_or.mp (fun h => ha (List.mem_cons.mpr h))
          rw [hframe a haxs, Function.update_of_ne hax]

end Awaiter

end Cocls
