import DeepSeekWebToApi.AccountPool.Ledger
import Mathlib.Algebra.BigOperators.Group.List.Basic
import Mathlib.Algebra.Order.Group.Multiset

/- Managed requests through the resolver (`internal/auth/request.go`):
   `acquireManagedRequestAuth`, `SwitchAccount` and `Release`, run by many requests on one
   pool in any order.

   A request is where its handler stands in these functions (`Phase`), the fields of its
   `RequestAuth`, and a record of what its pool calls did to `inUse`: the slots they
   added and the slots they removed. `ensureManagedToken` answers as it likes; what it
   does to health and store on the way are events of their own, which may happen at any
   time. A request that fails to acquire returns an error and its handler releases
   nothing.

   A `SwitchAccount` that returns false leaves the account it gave back in `AccountID`, and
   the handler's `Release` gives it back again. `slots_balanced`: every request frees just
   the slots it took in the runs where such a second release finds no slot of that
   account in use, and accounts are served under their identifiers. -/
namespace DeepSeekWebToApi.Auth
open GoStrings Config AccountPool

inductive Phase where
  /-- the loop of `acquireManagedRequestAuth` -/
  | acquiring
  /-- `ensureManagedToken` of that loop -/
  | ensuring
  /-- the handler, with the account it was given -/
  | serving
  /-- the loop of `SwitchAccount` -/
  | switching
  /-- `ensureManagedToken` of that loop -/
  | switchEnsuring
  /-- the handler, after a `SwitchAccount` that returned false -/
  | switchFailed
  /-- after `Release`, or after an error of `acquireManagedRequestAuth` -/
  | done
  deriving DecidableEq, Repr

structure Request where
  target : Bytes
  allowOverflow : Bool
  phase : Phase := .acquiring
  accountID : Bytes := []
  triedAccounts : List Bytes := []
  /-- whether a turn of `AcquireWait` ended in the queue -/
  queued : Bool := false
  /-- the slots this request's calls took, by key -/
  acquired : Multiset Bytes := 0
  /-- the slots this request's calls freed, by key -/
  freed : Multiset Bytes := 0

structure Resolver where
  pool : Pool Nat
  requests : List Request := []

inductive Event where
  /-- a request enters `acquireManagedRequestAuth` -/
  | arrive (target : Bytes) (allowOverflow : Bool)
  /-- a turn of `AcquireWait` or `AcquireWaitPreferred` -/
  | turn (now : Int) (r : Nat)
  /-- the request's context is done -/
  | giveUp (r : Nat)
  /-- `ensureManagedToken` returns, without an error or with one -/
  | ensured (r : Nat) (ok : Bool)
  | switchAccount (r : Nat)
  | release (r : Nat)
  | clearHealth (id : Bytes)
  | markTransient (now : Int) (id : Bytes) (state : HealthState) (untilTime : Int) (reason : Bytes)
  | markBlocked (now : Int) (id : Bytes) (state : HealthState) (reason : Bytes)
  | applyRuntimeLimits (maxInflightPerAccount maxQueueSize globalMaxInflight : Int)
  | edit (store : Store)

/-- What the request asks of the pool. -/
def Request.demand (a : Request) : Demand :=
  let exclude id := a.triedAccounts.contains id
  if a.phase = .acquiring then
    if a.allowOverflow then .preferred a.target exclude else .wait a.target exclude
  else .wait [] exclude

/-- The loop head of `acquireManagedRequestAuth`: every account has been tried. -/
def Request.exhausted (a : Request) (store : Store) : Bool :=
  a.phase = .acquiring ∧ (a.target = [] ∨ a.allowOverflow) ∧
    a.triedAccounts.length ≥ store.accounts.length

/-- `tried[a.AccountID] = true`. -/
def Request.tryAccount (a : Request) : Request :=
  { a with triedAccounts := a.triedAccounts.insert a.accountID }

/-- `AcquireWait` returned false. -/
def Request.failed (a : Request) : Request :=
  { a with phase := if a.phase = .switching then .switchFailed else .done, queued := false }

/-- `AcquireWait` returned an account. -/
def Request.given (a : Request) (accountID : Bytes) : Request :=
  { a with
    accountID
    phase := if a.phase = .switching then .switchEnsuring else .ensuring
    queued := false }

/-- Request `r` becomes `a` and the pool `q`; the request's record takes up the difference. -/
def Resolver.act (s : Resolver) (r : Nat) (a : Request) (q : Pool Nat) : Resolver :=
  { pool := q
    requests := s.requests.set r
      { a with
        acquired := a.acquired + (q.inUse - s.pool.inUse)
        freed := a.freed + (s.pool.inUse - q.inUse) } }

def Resolver.turn (now : Int) (s : Resolver) (r : Nat) (a : Request) (p : Pool Nat) : Resolver :=
  match p.acquireTurn now r a.demand with
  | (.acquired acc, q) => s.act r (a.given acc.identifier) q
  | (.refused, q) => s.act r a.failed q
  | (.queued, q) => s.act r { a with queued := true } q

def Resolver.step (s : Resolver) : Event → Option Resolver
  | .arrive target allowOverflow =>
    some { s with requests := s.requests ++ [{ target, allowOverflow }] }
  | .turn now r =>
    match s.requests[r]? with
    | none => none
    | some a =>
      if a.phase ≠ .acquiring ∧ a.phase ≠ .switching then none
      else if a.queued then
        -- only a closed channel ends the wait
        if r ∈ s.pool.woken then
          some (s.turn now r a { s.pool with woken := s.pool.woken.erase r })
        else none
      else if a.exhausted s.pool.store then some (s.act r { a with phase := .done } s.pool)
      else some (s.turn now r a s.pool)
  | .giveUp r =>
    match s.requests[r]? with
    | none => none
    | some a =>
      if a.phase ≠ .acquiring ∧ a.phase ≠ .switching then none
      else
        let p := if a.queued then (s.pool.removeWaiterLocked r).2 else s.pool
        some (s.act r a.failed { p with woken := p.woken.erase r })
  | .ensured r ok =>
    match s.requests[r]? with
    | none => none
    | some a =>
      if a.phase ≠ .ensuring ∧ a.phase ≠ .switchEnsuring then none
      else if ok then some (s.act r { a with phase := .serving } s.pool)
      else
        let next :=
          if a.phase = .switchEnsuring then .switching
          else if a.target ≠ [] ∧ ¬ a.allowOverflow then .done
          else .acquiring
        some (s.act r { a.tryAccount with phase := next } (s.pool.release a.accountID))
  | .switchAccount r =>
    match s.requests[r]? with
    | none => none
    | some a =>
      if a.phase ≠ .serving ∧ a.phase ≠ .switchFailed then none
      else if a.accountID ≠ [] then
        some (s.act r { a.tryAccount with phase := .switching } (s.pool.release a.accountID))
      else some (s.act r { a with phase := .switching } s.pool)
  | .release r =>
    match s.requests[r]? with
    | none => none
    | some a =>
      if a.phase ≠ .serving ∧ a.phase ≠ .switchFailed then none
      else some (s.act r { a with phase := .done } (s.pool.release a.accountID))
  | .clearHealth id => some { s with pool := s.pool.clearHealth id }
  | .markTransient now id state untilTime reason =>
    some { s with pool := s.pool.markTransientAccount now id state untilTime reason }
  | .markBlocked now id state reason =>
    some { s with pool := s.pool.markBlockedAccount now id state reason }
  | .applyRuntimeLimits maxInflight maxQueue globalMax =>
    some { s with pool := s.pool.applyRuntimeLimits maxInflight maxQueue globalMax }
  | .edit store => some { s with pool := { s.pool with store := store } }

/-- Every request frees no slot but its own, and all of its own by its end. -/
def Resolver.SlotBalance (s : Resolver) : Prop :=
  ∀ a ∈ s.requests, a.freed ≤ a.acquired ∧ (a.phase = .done → a.freed = a.acquired)

/-- Requests are served under identifiers, and after a failed `SwitchAccount` the next release
    of the request finds no slot of its account in use. -/
def Resolver.Careful (s : Resolver) : Event → Prop
  | .turn _ r => ∀ a, s.requests[r]? = some a → Canonical s.pool a.demand
  | .switchAccount r => ∀ a, s.requests[r]? = some a → a.phase = .switchFailed →
      s.pool.inUse.count a.accountID = 0
  | .release r => ∀ a, s.requests[r]? = some a → a.phase = .switchFailed →
      s.pool.inUse.count a.accountID = 0
  | _ => True

/-! The invariant: each request's record leaves it the slot its phase says it holds, and the
    slots in use are those. -/

def Phase.holds : Phase → Bool
  | .ensuring | .serving | .switchEnsuring => true
  | .acquiring | .switching | .switchFailed | .done => false

theorem Phase.holds_acquiring {p : Phase} (h : ¬ (p ≠ .acquiring ∧ p ≠ .switching)) :
    p.holds = false := by
  cases p <;> simp_all [Phase.holds]

theorem Phase.holds_ensuring {p : Phase} (h : ¬ (p ≠ .ensuring ∧ p ≠ .switchEnsuring)) :
    p.holds = true := by
  cases p <;> simp_all [Phase.holds]

theorem Request.failed_holds (a : Request) : a.failed.phase.holds = false := by
  unfold Request.failed
  split <;> rfl

/-- The slot the request holds. -/
def Request.slot (a : Request) : Multiset Bytes := if a.phase.holds then {a.accountID} else 0

structure Resolver.Balanced (s : Resolver) : Prop where
  slots : s.pool.inUse = (s.requests.map Request.slot).sum
  records : ∀ a ∈ s.requests, a.acquired = a.freed + a.slot
  named : ∀ a ∈ s.requests, a.phase.holds → a.accountID ≠ []

theorem Resolver.Balanced.slotBalance {s : Resolver} (h : s.Balanced) : s.SlotBalance := by
  intro a ha
  rw [h.records a ha]
  refine ⟨Multiset.le_add_right _ _, fun hdone => ?_⟩
  rw [Request.slot, hdone]
  exact (add_zero _).symm

/-- What two multisets lose and gain on each other. -/
theorem sub_add_comm_of_add_eq {α : Type} [DecidableEq α] {p q x y : Multiset α}
    (h : q + x = p + y) : x + (q - p) = p - q + y := by
  have hq : q - p + q ∩ p = q := Multiset.sub_add_inter q p
  have hp : p - q + q ∩ p = p := by
    rw [Multiset.inter_comm]
    exact Multiset.sub_add_inter p q
  refine add_right_cancel (b := q ∩ p) ?_
  calc x + (q - p) + q ∩ p = (q - p + q ∩ p) + x := by rw [add_assoc, add_comm]
    _ = (p - q + q ∩ p) + y := by rw [hq, hp, h]
    _ = p - q + y + q ∩ p := by rw [add_right_comm]

section Balanced
variable {s : Resolver}

/-- The slots of the other requests stay when one request is replaced. -/
theorem sum_slots_set {l : List Request} {r : Nat} {a : Request} (hr : l[r]? = some a)
    (b : Request) :
    ((l.set r b).map Request.slot).sum + a.slot = (l.map Request.slot).sum + b.slot := by
  obtain ⟨hlt, rfl⟩ := List.getElem?_eq_some_iff.mp hr
  have hold := ((List.getElem_cons_eraseIdx_perm hlt).map Request.slot).sum_eq
  have hlt' : r < (l.set r b).length := by rwa [List.length_set]
  have hnew := ((List.getElem_cons_eraseIdx_perm hlt').map Request.slot).sum_eq
  rw [List.getElem_set_self, List.eraseIdx_set_eq] at hnew
  rw [← hold, ← hnew, List.map_cons, List.map_cons, List.sum_cons, List.sum_cons,
    add_comm, ← add_assoc, add_right_comm]

/-- An action of one request keeps the balance when the pool's slots and the request's slot
    change alike. -/
theorem Resolver.Balanced.act (h : s.Balanced) {r : Nat} {a₀ a : Request}
    (hr : s.requests[r]? = some a₀) {q : Pool Nat}
    (hlog : a.acquired = a₀.acquired ∧ a.freed = a₀.freed)
    (hslots : q.inUse + a₀.slot = s.pool.inUse + a.slot)
    (hnamed : a.phase.holds → a.accountID ≠ []) : (s.act r a q).Balanced := by
  have hrec := h.records a₀ (List.mem_of_getElem? hr)
  refine ⟨?_, fun b hb => ?_, fun b hb => ?_⟩
  · refine add_right_cancel (b := a₀.slot) ?_
    rw [Resolver.act, sum_slots_set hr, ← h.slots]
    exact hslots
  · rcases List.mem_or_eq_of_mem_set hb with hb | rfl
    · exact h.records b hb
    · have hdiff := sub_add_comm_of_add_eq hslots
      simp only [hlog.1, hlog.2, hrec, Request.slot] at hdiff ⊢
      rw [add_assoc, hdiff, add_assoc]
  · rcases List.mem_or_eq_of_mem_set hb with hb | rfl
    · exact h.named b hb
    · exact hnamed

theorem Resolver.Balanced.ofPool (h : s.Balanced) {q : Pool Nat} (hq : q.inUse = s.pool.inUse) :
    Resolver.Balanced { s with pool := q } :=
  ⟨hq.trans h.slots, h.records, h.named⟩

/-- A request that holds its slot finds it in the pool. -/
theorem Resolver.Balanced.mem_inUse (h : s.Balanced) {r : Nat} {a : Request}
    (hr : s.requests[r]? = some a) (hold : a.phase.holds = true) : a.accountID ∈ s.pool.inUse := by
  obtain ⟨hlt, rfl⟩ := List.getElem?_eq_some_iff.mp hr
  have hsum := ((List.getElem_cons_eraseIdx_perm hlt).map Request.slot).sum_eq
  rw [List.map_cons, List.sum_cons, ← h.slots, Request.slot, if_pos hold] at hsum
  rw [← hsum]
  exact Multiset.mem_add.mpr (Or.inl (Multiset.mem_singleton_self _))

section Act
variable (h : s.Balanced) {r : Nat} {a₀ a : Request} (hr : s.requests[r]? = some a₀)
  (hlog : a.acquired = a₀.acquired ∧ a.freed = a₀.freed)
include h hr hlog

/-- The request moves on without touching the slots. -/
theorem Resolver.Balanced.moveOn {q : Pool Nat} (hq : q.inUse = s.pool.inUse)
    (hslot : a.slot = a₀.slot) (hnamed : a.phase.holds → a.accountID ≠ []) :
    (s.act r a q).Balanced :=
  h.act hr hlog (by rw [hq, hslot]) hnamed

/-- The request gives back the slot it holds. -/
theorem Resolver.Balanced.giveBack (hold : a₀.phase.holds = true) (hfree : a.phase.holds = false) :
    (s.act r a (s.pool.release a₀.accountID)).Balanced := by
  have hid := h.named a₀ (List.mem_of_getElem? hr) hold
  refine h.act hr hlog ?_ (fun hh => absurd hh (by rw [hfree]; exact Bool.false_ne_true))
  rw [release_inUse _ hid, Request.slot, if_pos hold, Request.slot, hfree,
    if_neg Bool.false_ne_true, add_zero, add_comm, Multiset.singleton_add]
  exact Multiset.cons_erase (h.mem_inUse hr hold)

/-- The request gives back an account it no longer holds, and nobody holds. -/
theorem Resolver.Balanced.giveBackAgain (hnot : a₀.phase.holds = false)
    (hfree : a.phase.holds = false) (hnone : s.pool.inUse.count a₀.accountID = 0) :
    (s.act r a (s.pool.release a₀.accountID)).Balanced := by
  refine h.moveOn hr hlog ?_ ?_ (fun hh => absurd hh (by rw [hfree]; exact Bool.false_ne_true))
  · simp only [Pool.release, if_pos hnone, ite_self]
  · rw [Request.slot, Request.slot, hnot, hfree]
    rfl

/-- A release by the handler: of the slot it holds, or after a failed `SwitchAccount`. -/
theorem Resolver.Balanced.handlerGivesBack
    (hphase : ¬ (a₀.phase ≠ .serving ∧ a₀.phase ≠ .switchFailed)) (hfree : a.phase.holds = false)
    (hnone : a₀.phase = .switchFailed → s.pool.inUse.count a₀.accountID = 0) :
    (s.act r a (s.pool.release a₀.accountID)).Balanced := by
  by_cases hfailed : a₀.phase = .switchFailed
  · exact h.giveBackAgain hr hlog (by rw [hfailed]; rfl) hfree (hnone hfailed)
  · have hserving : a₀.phase = .serving := by
      by_contra hne
      exact hphase ⟨hne, hfailed⟩
    exact h.giveBack hr hlog (by rw [hserving]; rfl) hfree

end Act

/-- A turn of `AcquireWait` for a caller served under identifiers. -/
theorem Resolver.Balanced.turn (h : s.Balanced) {now : Int} {r : Nat} {a : Request}
    (hr : s.requests[r]? = some a) (hphase : a.phase.holds = false) {p : Pool Nat}
    (hp : p.inUse = s.pool.inUse) (hc : Canonical p a.demand) : (s.turn now r a p).Balanced := by
  have hslot : a.slot = 0 := by rw [Request.slot, hphase]; rfl
  have hspec := attempt_spec now p a.demand
  unfold Resolver.turn
  rcases acquireTurn_cases now p r a.demand with ⟨acc, q, hatt, hturn⟩ | ⟨q, hatt, hturn⟩
  · rw [hturn]
    rw [hatt] at hspec
    cases hspec with
    | acquired q key acc swept wanted usable found =>
      have hholds : (a.given key).phase.holds = true := by
        unfold Request.given
        split <;> rfl
      simp only [hc key acc wanted found]
      refine h.act hr ⟨rfl, rfl⟩ ?_ (fun _ => usable.named)
      rw [hslot, add_zero, Request.slot, if_pos hholds]
      simp only [Request.given, Pool.take, swept.inUse, hp]
      rw [add_comm, Multiset.singleton_add]
  · rw [hatt] at hspec
    cases hspec with
    | failed q swept none_usable =>
      have hq : q.inUse = s.pool.inUse := swept.inUse.trans hp
      have hfailed := a.failed_holds
      rcases hturn with hturn | hturn <;> rw [hturn]
      · refine h.moveOn (a := { a with queued := true }) hr ⟨rfl, rfl⟩ hq rfl (fun hh => ?_)
        rw [hphase] at hh
        cases hh
      · refine h.moveOn (a := a.failed) hr ⟨rfl, rfl⟩ hq ?_ (fun hh => ?_)
        · rw [hslot, Request.slot, hfailed]
          rfl
        · rw [hfailed] at hh
          cases hh

/-- A careful event keeps the balance. -/
theorem Resolver.Balanced.step (h : s.Balanced) {e : Event} (hc : s.Careful e) {t : Resolver}
    (ht : s.step e = some t) : t.Balanced := by
  cases e with
  | arrive target allowOverflow =>
    cases ht
    refine ⟨?_, fun a ha => ?_, fun a ha hh => ?_⟩
    · rw [List.map_append, List.sum_append, ← h.slots, List.map_singleton, List.sum_singleton]
      exact (add_zero _).symm
    · rcases List.mem_append.mp ha with ha | ha
      · exact h.records a ha
      · rw [List.mem_singleton.mp ha]
        rfl
    · rcases List.mem_append.mp ha with ha | ha
      · exact h.named a ha hh
      · rw [List.mem_singleton.mp ha] at hh
        cases hh
  | turn now r =>
    simp only [Resolver.step] at ht
    split at ht
    · cases ht
    next a hr =>
    split at ht
    · cases ht
    next hphase =>
    have hfree := Phase.holds_acquiring hphase
    split at ht
    · split at ht
      · cases ht
        exact h.turn hr hfree rfl (hc a hr)
      · cases ht
    split at ht
    · cases ht
      refine h.moveOn (a := { a with phase := .done }) hr ⟨rfl, rfl⟩ rfl ?_ (fun hh => by cases hh)
      rw [Request.slot, Request.slot, hfree]
      rfl
    · cases ht
      exact h.turn hr hfree rfl (hc a hr)
  | giveUp r =>
    simp only [Resolver.step] at ht
    split at ht
    · cases ht
    next a hr =>
    split at ht
    · cases ht
    next hphase =>
    cases ht
    have hfree := Phase.holds_acquiring hphase
    refine h.moveOn (a := a.failed) hr ⟨rfl, rfl⟩ ?_ ?_ (fun hh => ?_)
    · simp only
      split
      · exact (removeWaiterLocked_sameSlots s.pool r).inUse
      · rfl
    · rw [Request.slot, Request.slot, hfree, a.failed_holds]
      rfl
    · rw [a.failed_holds] at hh
      cases hh
  | ensured r ok =>
    simp only [Resolver.step] at ht
    split at ht
    · cases ht
    next a hr =>
    split at ht
    · cases ht
    next hphase =>
    have hold := Phase.holds_ensuring hphase
    split at ht
    · cases ht
      refine h.moveOn (a := { a with phase := .serving }) hr ⟨rfl, rfl⟩ rfl ?_ (fun _ => ?_)
      · rw [Request.slot, Request.slot, hold]
        rfl
      · exact h.named a (List.mem_of_getElem? hr) hold
    · cases ht
      refine h.giveBack hr ⟨rfl, rfl⟩ hold ?_
      -- the next phase is a loop head or the end
      simp only
      split
      · rfl
      split <;> rfl
  | switchAccount r =>
    simp only [Resolver.step] at ht
    split at ht
    · cases ht
    next a hr =>
    split at ht
    · cases ht
    next hphase =>
    split at ht
    · cases ht
      exact h.handlerGivesBack hr ⟨rfl, rfl⟩ hphase rfl (hc a hr)
    · next hid =>
      cases ht
      have hsame : s.pool.release a.accountID = s.pool := if_pos (not_not.mp hid)
      have hback := h.handlerGivesBack (a := { a with phase := .switching }) hr ⟨rfl, rfl⟩ hphase
        rfl (hc a hr)
      rwa [hsame] at hback
  | release r =>
    simp only [Resolver.step] at ht
    split at ht
    · cases ht
    next a hr =>
    split at ht
    · cases ht
    next hphase =>
    cases ht
    exact h.handlerGivesBack hr ⟨rfl, rfl⟩ hphase rfl (hc a hr)
  | clearHealth id =>
    cases ht
    exact h.ofPool (clearHealth_sameSlots s.pool id).inUse
  | markTransient now id state untilTime reason =>
    cases ht
    exact h.ofPool (markTransientAccount_sameSlots s.pool now id state untilTime reason).inUse
  | markBlocked now id state reason =>
    cases ht
    exact h.ofPool (markBlockedAccount_sameSlots s.pool now id state reason).inUse
  | applyRuntimeLimits maxInflight maxQueue globalMax =>
    cases ht
    exact h.ofPool (notifyWaiterLocked_inUse _)
  | edit store =>
    cases ht
    exact h.ofPool rfl

end Balanced

/-- The resolver of a new pool, before any request. -/
def Resolver.start (now : Int) (store : Store) (runtime : Runtime) : Resolver :=
  { pool := newPool now store runtime }

theorem Resolver.start_balanced (now : Int) (store : Store) (runtime : Runtime) :
    (Resolver.start now store runtime).Balanced :=
  ⟨rfl, fun _ ha => absurd ha List.not_mem_nil, fun _ ha => absurd ha List.not_mem_nil⟩

/-- In every careful run each request frees exactly the slots it took. -/
theorem slots_balanced (now : Int) (store : Store) (runtime : Runtime) (events : List Event)
    (h : Runs.Meets Resolver.step Resolver.Careful (Resolver.start now store runtime) events) :
    Runs.Always Resolver.step Resolver.SlotBalance (Resolver.start now store runtime) events :=
  (Runs.always_of_meets (fun _ _ _ hs hc ht => hs.step hc ht) events _
    (Resolver.start_balanced now store runtime) h).mono (fun _ hs => hs.slotBalance)

theorem slots_balanced_example :
    Runs.Always Resolver.step Resolver.SlotBalance (Resolver.start 0 oneAccountStore {})
      [.arrive (lit "a@x.io") false, .turn 0 0, .ensured 0 true, .switchAccount 0, .giveUp 0,
        .release 0] := by
  refine slots_balanced 0 oneAccountStore {} _ (fun s₁ h₁ => ⟨trivial, fun s₂ h₂ => ⟨?_, fun s₃ h₃ =>
    ⟨trivial, fun s₄ h₄ => ⟨?_, fun s₅ h₅ => ⟨trivial, fun _ _ => ⟨?_, trivial⟩⟩⟩⟩⟩⟩)
  · cases h₁
    intro a ha key acc hwants hfound
    obtain rfl := Option.some.inj ha
    obtain rfl : key = lit "a@x.io" := hwants.2
    have : oneAccountStore.findAccount (lit "a@x.io") = some { email := lit "a@x.io" } := by decide
    obtain rfl := Option.some.inj (this.symm.trans hfound)
    decide
  · cases h₁
    cases h₂
    cases h₃
    intro a ha hphase
    obtain rfl := Option.some.inj ha
    exact absurd hphase (by decide +kernel)
  · -- the switch failed, and its slot was the only one in use
    cases h₁
    cases h₂
    cases h₃
    cases h₄
    cases h₅
    intro a ha _
    obtain rfl := Option.some.inj ha
    decide +kernel

/-- A request whose `SwitchAccount` found no other account gives its account back twice, the
    second time out of the slots of another request. -/
theorem failed_switch_frees_other_slot :
    ¬ Runs.Always Resolver.step Resolver.SlotBalance (Resolver.start 0 oneAccountStore {})
      [.arrive [] false, .arrive [] false, .turn 0 0, .ensured 0 true, .turn 0 1, .ensured 1 true,
        .switchAccount 0, .turn 0 0, .giveUp 0, .release 0] := by
  intro h
  have hrun : (Runs.run Resolver.step (Resolver.start 0 oneAccountStore {})
      [.arrive [] false, .arrive [] false, .turn 0 0, .ensured 0 true, .turn 0 1, .ensured 1 true,
        .switchAccount 0, .turn 0 0, .giveUp 0, .release 0]).map
      (fun s => (s.pool.inUse, s.requests.map (fun a => (a.acquired, a.freed)))) =
        some (0, [({lit "a@x.io"}, {lit "a@x.io", lit "a@x.io"}), ({lit "a@x.io"}, 0)]) := by
    decide +kernel
  obtain ⟨s, hs, hobs⟩ := Option.map_eq_some_iff.mp hrun
  have hrecords := (Prod.mk.inj hobs).2
  have hmem : ({lit "a@x.io"}, {lit "a@x.io", lit "a@x.io"}) ∈
      s.requests.map (fun a => (a.acquired, a.freed)) := by
    rw [hrecords]
    exact List.mem_cons_self
  obtain ⟨a, ha, hrec⟩ := List.mem_map.mp hmem
  obtain ⟨hacq, hfreed⟩ := Prod.mk.inj hrec
  have hle := Multiset.card_le_card (h.final hs a ha).1
  rw [hacq, hfreed] at hle
  exact absurd hle (by decide)

end DeepSeekWebToApi.Auth
