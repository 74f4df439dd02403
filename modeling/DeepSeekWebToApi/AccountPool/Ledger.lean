import DeepSeekWebToApi.AccountPool.Acquire
import DeepSeekWebToApi.Lib.Runs

/- Leases against slots. A request holds a lease on an account from a successful
   acquire until it releases `acc.Identifier()`; the pool counts slots under the key
   the acquire was served under, and forgets all of them in `Reset`.

   `slot_counted_under_identifier_iff`: a target is counted under the identity of the account
   it resolves to exactly when it is spelled as that identity (or the account is
   disabled and never served). `leases_within_limits`: the leases stay within the
   limits in every run that resets the pool only when no lease is live, serves callers
   under identifiers only, and has a global limit. -/
namespace DeepSeekWebToApi.AccountPool
open GoStrings Config

variable {W : Type}

section Notify
variable (p : Pool W)

@[simp] theorem notifyWaiterLocked_inUse : p.notifyWaiterLocked.inUse = p.inUse := by
  unfold Pool.notifyWaiterLocked
  split <;> rfl

@[simp] theorem notifyWaiterLocked_maxInflight :
    p.notifyWaiterLocked.maxInflightPerAccount = p.maxInflightPerAccount := by
  unfold Pool.notifyWaiterLocked
  split <;> rfl

@[simp] theorem notifyWaiterLocked_globalMax :
    p.notifyWaiterLocked.globalMaxInflight = p.globalMaxInflight := by
  unfold Pool.notifyWaiterLocked
  split <;> rfl

end Notify

/-- The two pools have the same slots taken and the same limits. -/
structure SameSlots (p q : Pool W) : Prop where
  inUse : q.inUse = p.inUse
  maxInflight : q.maxInflightPerAccount = p.maxInflightPerAccount
  globalMax : q.globalMaxInflight = p.globalMaxInflight

section SameSlots
variable (p : Pool W)

theorem SameSlots.refl : SameSlots p p := ⟨rfl, rfl, rfl⟩

theorem Swept.sameSlots {now : Int} {p q : Pool W} (h : Swept now p q) : SameSlots p q :=
  ⟨h.inUse, h.maxInflight, h.globalMax⟩

theorem setHealth_sameSlots (id : Bytes) (h : Health) : SameSlots p (p.setHealth id h) := by
  constructor <;> simp [Pool.setHealth]

theorem clearHealth_sameSlots (id : Bytes) : SameSlots p (p.clearHealth id) := by
  unfold Pool.clearHealth
  split
  · exact SameSlots.refl p
  · constructor <;> simp

theorem markTransientAccount_sameSlots (now : Int) (id : Bytes) (state : HealthState)
    (untilTime : Int) (reason : Bytes) :
    SameSlots p (p.markTransientAccount now id state untilTime reason) := by
  unfold Pool.markTransientAccount
  split
  · exact SameSlots.refl p
  split
  · exact clearHealth_sameSlots p id
  · exact setHealth_sameSlots p id _

theorem markBlockedAccount_sameSlots (now : Int) (id : Bytes) (state : HealthState)
    (reason : Bytes) : SameSlots p (p.markBlockedAccount now id state reason) := by
  unfold Pool.markBlockedAccount
  split
  · exact SameSlots.refl p
  · exact setHealth_sameSlots p id _

theorem removeWaiterLocked_sameSlots [DecidableEq W] (waiter : W) :
    SameSlots p (p.removeWaiterLocked waiter).2 := by
  unfold Pool.removeWaiterLocked
  split <;> exact ⟨rfl, rfl, rfl⟩

end SameSlots

theorem release_limits (p : Pool W) (id : Bytes) :
    (p.release id).maxInflightPerAccount = p.maxInflightPerAccount ∧
      (p.release id).globalMaxInflight = p.globalMaxInflight := by
  unfold Pool.release
  split
  · exact ⟨rfl, rfl⟩
  split
  · exact ⟨rfl, rfl⟩
  · simp

theorem release_inUse (p : Pool W) {id : Bytes} (h : id ≠ []) :
    (p.release id).inUse = p.inUse.erase id := by
  unfold Pool.release
  rw [if_neg h]
  split
  · next hc => exact (Multiset.erase_of_notMem (Multiset.count_eq_zero.mp hc)).symm
  · rw [notifyWaiterLocked_inUse]

/-! Spellings of one account. -/

/-- The slot `q` took over `p` is one of the account's: releasing the account frees it, it
    counts against the account's limit, and the account was not blocked. -/
structure CountedUnder (now : Int) (p q : Pool W) (acc : Account) : Prop where
  restored : (q.release acc.identifier).inUse = p.inUse
  counted : q.inUse.count acc.identifier = p.inUse.count acc.identifier + 1
  within : (q.inUse.count acc.identifier : Int) ≤ q.maxInflightPerAccount
  unblocked : p.liveHealth now acc.identifier = none

theorem take_countedUnder {now : Int} {p q : Pool W} {acc : Account} (hsw : Swept now p q)
    (hu : Usable now p acc.identifier) : CountedUnder now p (q.take acc.identifier) acc where
  restored := by
    rw [release_inUse _ hu.named]
    simp only [Pool.take, Multiset.erase_cons_head, hsw.inUse]
  counted := by simp only [Pool.take, Multiset.count_cons_self, hsw.inUse]
  within := by
    have := hu.slot
    simp only [Pool.take, Multiset.count_cons_self, hsw.inUse, hsw.maxInflight]
    omega
  unblocked := hu.healthy

/-- A target is always counted under the identity of the account it resolves to exactly when
    it is that identity, disabled accounts apart. -/
theorem slot_counted_under_identifier_iff {s : Store} {target : Bytes} {acc : Account}
    (ht : target ≠ []) (hf : s.findAccount target = some acc) :
    (∀ (now : Int) (p q : Pool W) (exclude : Bytes → Bool) (acc' : Account), p.store = s →
        p.acquireLocked now target exclude = (some acc', q) → CountedUnder now p q acc') ↔
      (acc.disabled = true ∨ target = acc.identifier) := by
  constructor
  · intro h
    by_contra hno
    rw [not_or] at hno
    -- an empty pool serves the target and counts it under the spelling
    let p : Pool W := { store := s }
    have hu : Usable 0 p target :=
      ⟨ht, ⟨acc, hf, Bool.eq_false_iff.mpr hno.1⟩, rfl, by simp [p], fun h => absurd h (by simp [p])⟩
    have hspec := acquireLocked_spec 0 p target (fun _ => false)
    have hwants : Demand.Wants p.queue (.wait target (fun _ => false)) target :=
      ⟨rfl, by rw [if_pos ht]⟩
    generalize hx : p.acquireLocked 0 target (fun _ => false) = x at hspec
    cases hspec with
    | failed q swept none_usable => exact none_usable target hwants hu
    | acquired q key acc' swept wanted usable found =>
      have hkey : key = target := by
        have := wanted.2
        rwa [if_pos ht] at this
      rw [hkey] at found hx
      obtain rfl : acc = acc' := Option.some.inj (hf.symm.trans found)
      have hcount := (h 0 p _ _ acc rfl hx).counted
      simp only [Pool.take, swept.inUse] at hcount
      rw [Multiset.count_cons_of_ne (fun heq => hno.2 heq.symm)] at hcount
      omega
  · intro hc now p q exclude acc' hs hx
    have hspec := acquireLocked_spec now p target exclude
    rw [hx] at hspec
    cases hspec with
    | acquired r key acc' swept wanted usable found =>
      have hkey : key = target := by
        have := wanted.2
        rwa [if_pos ht] at this
      rw [hkey, hs] at found
      obtain rfl : acc = acc' := Option.some.inj (hf.symm.trans found)
      rw [hkey] at usable ⊢
      rcases hc with hdis | hid
      · obtain ⟨acc', h, hen⟩ := usable.enabled
        rw [hs, hf] at h
        obtain rfl := Option.some.inj h
        rw [hdis] at hen
        cases hen
      · rw [hid] at usable ⊢
        exact take_countedUnder swept usable

/-- One account, named by its mobile number. -/
def phoneStore : Store := rebuildIndexes [{ mobile := lit "+8613800138000" }]

theorem slot_counted_under_identifier_example :
    CountedUnder 0 ({ store := phoneStore } : Pool Unit)
      (Pool.acquireLocked 0 { store := phoneStore } (lit "+8613800138000") (fun _ => false)).2
      { mobile := lit "+8613800138000" } :=
  have hf : phoneStore.findAccount (lit "+8613800138000") =
      some { mobile := lit "+8613800138000" } := by decide
  (slot_counted_under_identifier_iff (by decide) hf).mpr (Or.inr (by decide)) 0
    { store := phoneStore } _ _ _ rfl (Prod.ext (by decide +kernel) rfl)

/-- A mobile number without its country code is counted apart: the account's own count stays
    at zero, and releasing the account leaves the slot taken. -/
theorem mobile_spelling_counted_apart :
    phoneStore.findAccount (lit "13800138000") = some { mobile := lit "+8613800138000" } ∧
      ∃ q : Pool Unit,
        Pool.acquireLocked 0 { store := phoneStore } (lit "13800138000") (fun _ => false) =
          (some { mobile := lit "+8613800138000" }, q) ∧
        q.inUse.count (lit "+8613800138000") = 0 ∧
        (q.release (lit "+8613800138000")).inUse = { lit "13800138000" } ∧
        ¬ CountedUnder 0 { store := phoneStore } q { mobile := lit "+8613800138000" } := by
  refine ⟨by decide, _, Prod.ext (by decide +kernel) rfl, by decide +kernel, by decide +kernel, ?_⟩
  intro h
  exact absurd h.counted (by decide +kernel)

/-! The ledger of live leases. -/

/-- A live lease: the account the request will release, and how many resets came before. -/
structure Lease where
  account : Bytes
  epoch : Nat

/-- The pool with its live leases. `freed` records each slot a release gave back: the epoch of
    the lease released and the epoch the slot was taken in (all slots of the pool are
    taken since its last reset). -/
structure Ledger where
  pool : Pool Nat
  leases : List Lease := []
  epoch : Nat := 0
  freed : List (Nat × Nat) := []

/-- The accounts of the live leases. -/
def Ledger.leased (s : Ledger) : Multiset Bytes := (s.leases.map Lease.account : List Bytes)

/-- The pool's calls, the ends of requests, and the edits of the store by admin requests. -/
inductive Event where
  | acquire (now : Int) (target : Bytes) (exclude : Bytes → Bool)
  | acquireTurn (now : Int) (waiter : Nat) (d : Demand)
  | cancel (waiter : Nat)
  | release (lease : Nat)
  | clearHealth (id : Bytes)
  | markTransient (now : Int) (id : Bytes) (state : HealthState) (untilTime : Int) (reason : Bytes)
  | markBlocked (now : Int) (id : Bytes) (state : HealthState) (reason : Bytes)
  | edit (store : Store)
  | reset (now : Int)

def Ledger.grant (s : Ledger) (account : Bytes) : Ledger :=
  { s with leases := { account, epoch := s.epoch } :: s.leases }

/-- One event. A reset that would change the limits is outside the runs considered. -/
def Ledger.step (s : Ledger) : Event → Option Ledger
  | .acquire now target exclude =>
    match s.pool.acquireLocked now target exclude with
    | (some acc, p) => some (Ledger.grant { s with pool := p } acc.identifier)
    | (none, p) => some { s with pool := p }
  | .acquireTurn now waiter d =>
    match s.pool.acquireTurn now waiter d with
    | (.acquired acc, p) => some (Ledger.grant { s with pool := p } acc.identifier)
    | (_, p) => some { s with pool := p }
  | .cancel waiter => some { s with pool := (s.pool.removeWaiterLocked waiter).2 }
  | .release i =>
    match s.leases[i]? with
    | none => none
    | some lease =>
      some { s with
        pool := s.pool.release lease.account
        leases := s.leases.eraseIdx i
        freed :=
          if lease.account ≠ [] ∧ s.pool.inUse.count lease.account ≠ 0 then
            (lease.epoch, s.epoch) :: s.freed
          else s.freed }
  | .clearHealth id => some { s with pool := s.pool.clearHealth id }
  | .markTransient now id state untilTime reason =>
    some { s with pool := s.pool.markTransientAccount now id state untilTime reason }
  | .markBlocked now id state reason =>
    some { s with pool := s.pool.markBlockedAccount now id state reason }
  | .edit store => some { s with pool := { s.pool with store := store } }
  | .reset now =>
    if (s.pool.reset now).maxInflightPerAccount = s.pool.maxInflightPerAccount ∧
        (s.pool.reset now).globalMaxInflight = s.pool.globalMaxInflight then
      some { s with pool := s.pool.reset now, epoch := s.epoch + 1 }
    else none

/-- The live leases respect both limits, and no release of a lease taken before a reset freed
    a slot taken after it. -/
structure Ledger.WithinLimits (s : Ledger) : Prop where
  perAccount : ∀ id, (s.leased.count id : Int) ≤ s.pool.maxInflightPerAccount
  overall : (s.leased.card : Int) ≤ s.pool.globalMaxInflight
  freed : ∀ x ∈ s.freed, ¬ x.1 < x.2

/-- Every key the caller can be served under is the identifier of its account. -/
def Canonical (p : Pool W) (d : Demand) : Prop :=
  ∀ key acc, d.Wants p.queue key → p.store.findAccount key = some acc → acc.identifier = key

/-- Callers are served under identifiers and under a global limit, and the pool is reset only
    when no lease is live. -/
def Ledger.Orderly (s : Ledger) : Event → Prop
  | .acquire _ target exclude =>
    Canonical s.pool (.wait target exclude) ∧ 0 < s.pool.globalMaxInflight
  | .acquireTurn _ _ d => Canonical s.pool d ∧ 0 < s.pool.globalMaxInflight
  | .reset _ => s.leases = []
  | _ => True

/-! The invariant: the slots in use are the accounts of the live leases, all taken since the
    last reset. -/

structure Ledger.Balanced (s : Ledger) : Prop where
  slots : s.pool.inUse = s.leased
  named : ∀ l ∈ s.leases, l.account ≠ []
  current : ∀ l ∈ s.leases, l.epoch = s.epoch
  perAccount : ∀ id, (s.pool.inUse.count id : Int) ≤ s.pool.maxInflightPerAccount
  overall : (s.pool.inUse.card : Int) ≤ s.pool.globalMaxInflight
  freed : ∀ x ∈ s.freed, ¬ x.1 < x.2

theorem Ledger.Balanced.withinLimits {s : Ledger} (h : s.Balanced) : s.WithinLimits where
  perAccount := h.slots ▸ h.perAccount
  overall := h.slots ▸ h.overall
  freed := h.freed

section Balanced
variable {s : Ledger}

theorem Ledger.Balanced.sameSlots (h : s.Balanced) {q : Pool Nat} (hq : SameSlots s.pool q) :
    Ledger.Balanced { s with pool := q } where
  slots := hq.inUse.trans h.slots
  named := h.named
  current := h.current
  perAccount id := by
    rw [hq.inUse, hq.maxInflight]
    exact h.perAccount id
  overall := by
    rw [hq.inUse, hq.globalMax]
    exact h.overall
  freed := h.freed

/-- A slot taken under the account's own name is a new lease. -/
theorem Ledger.Balanced.take (h : s.Balanced) {now : Int} {q : Pool Nat} {key : Bytes}
    (hsw : Swept now s.pool q) (hu : Usable now s.pool key)
    (hpos : 0 < s.pool.globalMaxInflight) :
    (Ledger.grant { s with pool := q.take key } key).Balanced where
  slots := by
    simp only [Ledger.grant, Pool.take, hsw.inUse, h.slots, Ledger.leased, List.map_cons,
      Multiset.cons_coe]
  named l hl := by
    simp only [Ledger.grant, List.mem_cons] at hl
    rcases hl with rfl | hl
    · exact hu.named
    · exact h.named l hl
  current l hl := by
    simp only [Ledger.grant, List.mem_cons] at hl
    rcases hl with rfl | hl
    · rfl
    · exact h.current l hl
  perAccount id := by
    simp only [Ledger.grant, Pool.take, hsw.inUse, hsw.maxInflight]
    by_cases hid : id = key
    · have := hu.slot
      rw [hid, Multiset.count_cons_self]
      omega
    · rw [Multiset.count_cons_of_ne hid]
      exact h.perAccount id
  overall := by
    have := hu.globalSlot hpos
    simp only [Ledger.grant, Pool.take, hsw.inUse, hsw.globalMax, Multiset.card_cons]
    omega
  freed := h.freed

section Attempt
variable (h : s.Balanced) {now : Int} {d : Demand}
include h

theorem Ledger.Balanced.acquired (hc : Canonical s.pool d) (hpos : 0 < s.pool.globalMaxInflight)
    {acc : Account} {q : Pool Nat} (hq : s.pool.attempt now d = (some acc, q)) :
    (Ledger.grant { s with pool := q } acc.identifier).Balanced := by
  have hspec := attempt_spec now s.pool d
  rw [hq] at hspec
  cases hspec with
  | acquired q key acc swept wanted usable found =>
    rw [hc key acc wanted found]
    exact h.take swept usable hpos

theorem Ledger.Balanced.notAcquired {q : Pool Nat} (hq : s.pool.attempt now d = (none, q)) :
    Ledger.Balanced { s with pool := q } := by
  have hspec := attempt_spec now s.pool d
  rw [hq] at hspec
  cases hspec with
  | failed q swept none_usable => exact h.sameSlots swept.sameSlots

end Attempt

theorem Ledger.Balanced.release (h : s.Balanced) {i : Nat} {lease : Lease}
    (hi : s.leases[i]? = some lease) :
    Ledger.Balanced { s with
      pool := s.pool.release lease.account
      leases := s.leases.eraseIdx i
      freed :=
        if lease.account ≠ [] ∧ s.pool.inUse.count lease.account ≠ 0 then
          (lease.epoch, s.epoch) :: s.freed
        else s.freed } := by
  have hmem := List.mem_of_getElem? hi
  have hin : (s.pool.release lease.account).inUse = s.pool.inUse.erase lease.account :=
    release_inUse s.pool (h.named lease hmem)
  have hle : (s.pool.release lease.account).inUse ≤ s.pool.inUse := by
    rw [hin]
    exact Multiset.erase_le _ _
  obtain ⟨hmax, hglobal⟩ := release_limits s.pool lease.account
  refine ⟨?_, fun l hl => h.named l (List.mem_of_mem_eraseIdx hl),
    fun l hl => h.current l (List.mem_of_mem_eraseIdx hl), fun id => ?_, ?_, fun x hx => ?_⟩
  · obtain ⟨hlt, rfl⟩ := List.getElem?_eq_some_iff.mp hi
    have hperm := (List.getElem_cons_eraseIdx_perm hlt).map Lease.account
    rw [hin, h.slots, Ledger.leased, Ledger.leased, ← Multiset.coe_eq_coe.mpr hperm, List.map_cons,
      ← Multiset.cons_coe, Multiset.erase_cons_head]
  · have := h.perAccount id
    have := Multiset.count_le_of_le id hle
    simp only [hmax]
    omega
  · have := h.overall
    have := Multiset.card_le_card hle
    simp only [hglobal]
    omega
  · simp only at hx
    split at hx
    · rcases List.mem_cons.mp hx with rfl | hx
      · rw [h.current lease hmem]
        exact Nat.lt_irrefl _
      · exact h.freed x hx
    · exact h.freed x hx

/-- An orderly event keeps the ledger balanced. -/
theorem Ledger.Balanced.step (h : s.Balanced) {e : Event} (ho : s.Orderly e) {t : Ledger}
    (ht : s.step e = some t) : t.Balanced := by
  cases e with
  | acquire now target exclude =>
    simp only [Ledger.step] at ht
    split at ht
    · next acc q heq =>
      cases ht
      exact h.acquired ho.1 ho.2 heq
    · next q heq =>
      cases ht
      exact h.notAcquired (d := .wait target exclude) heq
  | acquireTurn now waiter d =>
    simp only [Ledger.step] at ht
    rcases acquireTurn_cases now s.pool waiter d with ⟨acc, q, hatt, hturn⟩ | ⟨q, hatt, hturn⟩
    · rw [hturn] at ht
      cases ht
      exact h.acquired ho.1 ho.2 hatt
    · have hq := h.notAcquired hatt
      rcases hturn with hturn | hturn <;> rw [hturn] at ht <;> cases ht
      · exact hq.sameSlots ⟨rfl, rfl, rfl⟩
      · exact hq
  | cancel waiter =>
    cases ht
    exact h.sameSlots (removeWaiterLocked_sameSlots s.pool waiter)
  | release i =>
    simp only [Ledger.step] at ht
    split at ht
    · cases ht
    · next lease hi =>
      cases ht
      exact h.release hi
  | clearHealth id =>
    cases ht
    exact h.sameSlots (clearHealth_sameSlots s.pool id)
  | markTransient now id state untilTime reason =>
    cases ht
    exact h.sameSlots (markTransientAccount_sameSlots s.pool now id state untilTime reason)
  | markBlocked now id state reason =>
    cases ht
    exact h.sameSlots (markBlockedAccount_sameSlots s.pool now id state reason)
  | edit store =>
    cases ht
    exact h.sameSlots ⟨rfl, rfl, rfl⟩
  | reset now =>
    simp only [Ledger.step] at ht
    split at ht
    swap
    · cases ht
    next hlimits =>
    cases ht
    have hnone : s.pool.inUse = 0 := by
      rw [h.slots, Ledger.leased, show s.leases = [] from ho]
      rfl
    refine ⟨?_, ?_, ?_, fun id => ?_, ?_, h.freed⟩
    · rw [Ledger.leased, show s.leases = [] from ho]
      rfl
    · simp [show s.leases = [] from ho]
    · simp [show s.leases = [] from ho]
    · have := h.perAccount id
      rw [hnone] at this
      rw [hlimits.1]
      exact this
    · have := h.overall
      rw [hnone] at this
      rw [hlimits.2]
      exact this

end Balanced

theorem runtimeAccountMaxInflight_pos (r : Runtime) : 0 < r.runtimeAccountMaxInflight := by
  unfold Runtime.runtimeAccountMaxInflight
  split
  · next h => exact h
  · cases hf : r.envAccountMaxInflight.filter (fun n => n > 0) with
    | none => decide
    | some n => simpa using (Option.filter_eq_some_iff.mp hf).2

theorem runtimeGlobalMaxInflight_nonneg (r : Runtime) (defaultSize : Int) :
    0 ≤ r.runtimeGlobalMaxInflight defaultSize := by
  unfold Runtime.runtimeGlobalMaxInflight
  split
  · next h => exact Int.le_of_lt h
  · cases hf : r.envGlobalMaxInflight.filter (fun n => n > 0) with
    | none =>
      rw [Option.getD_none]
      split <;> omega
    | some n =>
      have hn : 0 < n := by simpa using (Option.filter_eq_some_iff.mp hf).2
      exact Int.le_of_lt hn

/-- The ledger of a new pool. -/
def Ledger.start (now : Int) (store : Store) (runtime : Runtime) : Ledger :=
  { pool := newPool now store runtime }

theorem Ledger.start_balanced (now : Int) (store : Store) (runtime : Runtime) :
    (Ledger.start now store runtime).Balanced where
  slots := rfl
  named _ hl := absurd hl List.not_mem_nil
  current _ hl := absurd hl List.not_mem_nil
  perAccount _ := Int.le_of_lt (runtimeAccountMaxInflight_pos runtime)
  overall := runtimeGlobalMaxInflight_nonneg runtime _
  freed _ hx := absurd hx List.not_mem_nil

/-- In every run of a new pool whose events are orderly the leases stay within the limits. -/
theorem leases_within_limits (now : Int) (store : Store) (runtime : Runtime) (events : List Event)
    (h : Runs.Meets Ledger.step Ledger.Orderly (Ledger.start now store runtime) events) :
    Runs.Always Ledger.step Ledger.WithinLimits (Ledger.start now store runtime) events :=
  (Runs.always_of_meets (fun _ _ _ hs ho ht => hs.step ho ht) events _
    (Ledger.start_balanced now store runtime) h).mono (fun _ hs => hs.withinLimits)

def oneAccountStore : Store := rebuildIndexes [{ email := lit "a@x.io" }]

/-- One request at a time on each account. -/
def oneAtATime : Runtime := { accountMaxInflight := 1 }

theorem leases_within_limits_example :
    Runs.Always Ledger.step Ledger.WithinLimits (Ledger.start 0 oneAccountStore oneAtATime)
      [.acquire 0 (lit "a@x.io") (fun _ => false), .acquire 0 (lit "a@x.io") (fun _ => false),
        .release 0, .reset 0, .acquire 0 (lit "a@x.io") (fun _ => false)] := by
  have hcanonical : ∀ p : Pool Nat, p.store = oneAccountStore →
      Canonical p (.wait (lit "a@x.io") (fun _ => false)) := by
    intro p hp key acc hwants hfound
    obtain rfl : key = lit "a@x.io" := by
      have := hwants.2
      rwa [if_pos (by decide)] at this
    have : oneAccountStore.findAccount (lit "a@x.io") = some { email := lit "a@x.io" } := by decide
    rw [hp] at hfound
    obtain rfl := Option.some.inj (this.symm.trans hfound)
    decide
  refine leases_within_limits 0 oneAccountStore oneAtATime _
    (fun s hs => ⟨?_, fun t ht =>
      ⟨?_, fun u hu => ⟨trivial, fun v hv => ⟨?_, fun w _ => ⟨?_, trivial⟩⟩⟩⟩⟩)
  · exact ⟨hcanonical _ rfl, by decide +kernel⟩
  · cases hs
    exact ⟨hcanonical _ rfl, by decide +kernel⟩
  · cases hs
    cases ht
    cases hu
    exact rfl
  · cases hs
    cases ht
    cases hu
    cases hv
    exact ⟨hcanonical _ rfl, by decide +kernel⟩

/-- A reset while a request is running lets a second request onto the same account. -/
theorem reset_overcommits_account :
    ¬ Runs.Always Ledger.step Ledger.WithinLimits (Ledger.start 0 oneAccountStore oneAtATime)
      [.acquire 0 [] (fun _ => false), .reset 0, .acquire 0 [] (fun _ => false)] := by
  intro h
  have hrun : (Runs.run Ledger.step (Ledger.start 0 oneAccountStore oneAtATime)
      [.acquire 0 [] (fun _ => false), .reset 0, .acquire 0 [] (fun _ => false)]).map
        (fun s => (s.leased.count (lit "a@x.io"), s.pool.maxInflightPerAccount)) = some (2, 1) := by
    decide +kernel
  obtain ⟨s, hs, hcount⟩ := Option.map_eq_some_iff.mp hrun
  obtain ⟨hcount, hmax⟩ := Prod.mk.inj hcount
  have := (h.final hs).perAccount (lit "a@x.io")
  rw [hcount, hmax] at this
  exact absurd this (by decide)

end DeepSeekWebToApi.AccountPool
