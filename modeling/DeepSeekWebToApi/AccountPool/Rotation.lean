import DeepSeekWebToApi.AccountPool.Ledger
import DeepSeekWebToApi.Config.Identity
import DeepSeekWebToApi.Lib.LeastRecent
import DeepSeekWebToApi.Lib.Runs

/- The rotation of the pool: between two resets the queue is in the order of the last
   acquisitions, and an acquire without a target takes the first account of that order it may
   take.

   The queue holds identifiers. Two accounts with one identifier are queued twice, and the look-up
   gives the last of them in the list, which may be a disabled one; the rotation is by last
   acquisition exactly where neither happens. -/
namespace DeepSeekWebToApi.AccountPool
open GoStrings Config

variable {W : Type}

/-! Looking up what is queued. -/

theorem indexAccounts_isSome : ∀ (n : Nat) (l : List Account) (m : Bytes → Option Nat) {k : Bytes}, k ≠ [] →
    ((m k).isSome = true ∨ ∃ a ∈ l, a.identifier = k) → (indexAccounts n l m k).isSome = true
  | _, [], _, _, _, h => h.resolve_right fun ⟨_, ha, _⟩ => absurd ha List.not_mem_nil
  | n, a :: rest, m, k, hk, h => by
    refine indexAccounts_isSome (n + 1) rest _ hk ?_
    by_cases ha : a.identifier = k
    · rw [if_pos (ha ▸ hk), ha, Function.update_self]
      exact Or.inl rfl
    · refine h.imp (fun hm => ?_) fun ⟨b, hb, hid⟩ => ?_
      · split
        · rw [Function.update_of_ne (Ne.symm ha)]
          exact hm
        · exact hm
      · rcases List.mem_cons.mp hb with rfl | hb
        · exact absurd hid ha
        · exact ⟨b, hb, hid⟩

theorem trimSpace_identifier (acc : Account) : trimSpace acc.identifier = acc.identifier := by
  rw [Account.identifier]
  split
  · exact trimSpace_idem _
  · split
    · exact trimSpace_idem _
    · rfl

/-- An identifier of an account in the list is looked up as itself. -/
theorem findAccount_identifier {accounts : List Account} {acc : Account} (ha : acc ∈ accounts)
    (hid : acc.identifier ≠ []) :
    ∃ found, (rebuildIndexes accounts).findAccount acc.identifier = some found ∧ found.identifier = acc.identifier := by
  have hsome := indexAccounts_isSome 0 accounts (fun _ => none) hid (Or.inr ⟨acc, ha, rfl⟩)
  obtain ⟨i, hi⟩ := Option.isSome_iff_exists.mp hsome
  rcases indexAccounts_hit 0 accounts _ hi with hnone | ⟨found, -, hfound, hkey⟩
  · cases hnone
  rw [Nat.sub_zero] at hfound
  have hlt : i < accounts.length := (List.getElem?_eq_some_iff.mp hfound).1
  have hindex : (rebuildIndexes accounts).findAccountIndexLocked acc.identifier = some i := by
    have hmap : (rebuildIndexes accounts).accMap acc.identifier = some i := hi
    have hfirst : ((rebuildIndexes accounts).accMap acc.identifier).filter (· < accounts.length) = some i := by
      rw [hmap, Option.filter_some, if_pos (decide_eq_true hlt)]
    have hhead : ∃ others, lookupCandidates acc.identifier = acc.identifier :: others := by
      rw [lookupCandidates]
      split_ifs
      · exact ⟨_, rfl⟩
      · exact ⟨_, rfl⟩
    obtain ⟨others, hothers⟩ := hhead
    rw [Store.findAccountIndexLocked, hothers, List.findSome?_cons]
    rw [show (rebuildIndexes accounts).accounts = accounts from rfl, hfirst]
  refine ⟨found, ?_, hkey⟩
  rw [Store.findAccount, trimSpace_identifier, hindex]
  exact hfound

/-- The identifiers `Reset` queues. -/
def enabledIDs (accounts : List Account) : List Bytes := (poolAccounts accounts).map Account.identifier

theorem mem_enabledIDs {accounts : List Account} {id : Bytes} (h : id ∈ enabledIDs accounts) :
    id ≠ [] ∧ ∃ found, (rebuildIndexes accounts).findAccount id = some found ∧ found.identifier = id := by
  obtain ⟨acc, hacc, rfl⟩ := List.mem_map.mp h
  rw [poolAccounts, List.mem_filter, List.mem_append] at hacc
  obtain ⟨hmem, henabled⟩ := hacc
  have hid : acc.identifier ≠ [] := of_decide_eq_true (Bool.and_eq_true_iff.mp henabled).2
  refine ⟨hid, findAccount_identifier ?_ hid⟩
  exact hmem.elim List.mem_of_mem_filter List.mem_of_mem_filter

/-- The look-up gives an account that is enabled. -/
def Resolves (store : Store) (id : Bytes) : Prop :=
  ((store.findAccount id).any (fun acc => !acc.disabled)) = true

instance (store : Store) (id : Bytes) : Decidable (Resolves store id) := inferInstanceAs (Decidable (_ = true))

theorem resolves_iff {store : Store} {id : Bytes} :
    Resolves store id ↔ ∃ acc, store.findAccount id = some acc ∧ acc.disabled = false := by
  rw [Resolves]
  cases store.findAccount id with
  | none => simp
  | some acc => simp

/-! The first account. -/

theorem tryAcquireFrom_first (now : Int) (exclude : Bytes → Bool) : ∀ (ids : List Bytes) (p : Pool W)
    {acc : Account} {q : Pool W}, tryAcquireFrom now exclude ids p = (some acc, q) →
    ∃ before key after r, ids = before ++ key :: after ∧ (∀ id ∈ before, exclude id = true ∨ ¬ Usable now p id) ∧
      exclude key = false ∧ Usable now p key ∧ p.store.findAccount key = some acc ∧ Swept now p r ∧ q = r.take key
  | [], p, acc, q, h => by
    rw [tryAcquireFrom] at h
    cases congrArg Prod.fst h
  | id :: rest, p, acc, q, h => by
    have hsw := canAcquireIDLocked_swept now p id
    have huse := canAcquireIDLocked_fst now p id
    -- an id that is passed over goes in front of those the rest passes over
    have hpass : ∀ {p' : Pool W}, Swept now p p' → (exclude id = true ∨ ¬ Usable now p id) →
        tryAcquireFrom now exclude rest p' = (some acc, q) →
        ∃ before key after r, id :: rest = before ++ key :: after ∧
          (∀ id ∈ before, exclude id = true ∨ ¬ Usable now p id) ∧ exclude key = false ∧ Usable now p key ∧
          p.store.findAccount key = some acc ∧ Swept now p r ∧ q = r.take key := by
      intro p' hswept hid hrest
      obtain ⟨before, key, after, r, rfl, hbefore, hkey, husable, hfound, hr, rfl⟩ :=
        tryAcquireFrom_first now exclude rest p' hrest
      refine ⟨id :: before, key, after, r, rfl, fun i hi => ?_, hkey, hswept.usable_iff.mp husable, hswept.store ▸ hfound,
        hswept.trans hr, rfl⟩
      rcases List.mem_cons.mp hi with rfl | hi
      · exact hid
      · exact (hbefore i hi).imp_right fun hno hu => hno (hswept.usable_iff.mpr hu)
    rw [tryAcquireFrom] at h
    by_cases hex : exclude id = true
    · rw [if_pos hex] at h
      exact hpass (Swept.refl now p) (Or.inl hex) h
    rw [if_neg hex] at h
    split at h
    · next p' heq =>
      rw [heq] at hsw huse
      exact hpass hsw (Or.inr fun hu => Bool.false_ne_true (huse.mpr hu)) h
    · next p' heq =>
      rw [heq] at hsw huse
      have husable := huse.mp rfl
      obtain ⟨found, hfound, -⟩ := husable.enabled
      have hfound' : p'.store.findAccount id = some found := hsw.store ▸ hfound
      rw [hfound'] at h
      obtain ⟨hacc, hq⟩ := Prod.mk.inj h
      exact ⟨[], id, rest, p', rfl, fun i hi => absurd hi List.not_mem_nil, Bool.eq_false_iff.mpr hex, husable,
        hfound.trans hacc, hsw, hq.symm⟩

/-! Calls between two resets. -/

/-- A call without a target: `Acquire`, a turn of `AcquireWait`, `Release`, and what changes an
    account's health. -/
inductive Turn (W : Type) where
  | acquire (now : Int) (exclude : Bytes → Bool)
  | acquireWait (now : Int) (waiter : W) (exclude : Bytes → Bool)
  | release (id : Bytes)
  | markTransient (now : Int) (id : Bytes) (state : HealthState) (untilTime : Int) (reason : Bytes)
  | markBlocked (now : Int) (id : Bytes) (state : HealthState) (reason : Bytes)
  | clearHealth (id : Bytes)

/-- The account a turn of the waiting loop ends with. -/
def Outcome.account : Outcome → Option Account
  | .acquired acc => some acc
  | .refused => none
  | .queued => none

/-- The account a call acquires, and the pool after it. -/
def Turn.apply (p : Pool W) : Turn W → Option Account × Pool W
  | .acquire now exclude => p.acquireLocked now [] exclude
  | .acquireWait now waiter exclude =>
    ((p.acquireTurn now waiter (.wait [] exclude)).1.account, (p.acquireTurn now waiter (.wait [] exclude)).2)
  | .release id => (none, p.release id)
  | .markTransient now id state untilTime reason => (none, p.markTransientAccount now id state untilTime reason)
  | .markBlocked now id state reason => (none, p.markBlockedAccount now id state reason)
  | .clearHealth id => (none, p.clearHealth id)

/-- The clock and the exclusions of a call that acquires. -/
def Turn.demand : Turn W → Option (Int × (Bytes → Bool))
  | .acquire now exclude => some (now, exclude)
  | .acquireWait now _ exclude => some (now, exclude)
  | _ => none

/-- A pool, and the identifiers acquired since the reset. -/
structure Rotation (W : Type) where
  pool : Pool W
  acquired : List Bytes

def Rotation.step (s : Rotation W) (t : Turn W) : Option (Rotation W) :=
  some ⟨(t.apply s.pool).2, s.acquired ++ ((t.apply s.pool).1.map Account.identifier).toList⟩

/-- The queue holds the identifiers in the order of their last acquisition. -/
def Rotation.InOrder (ids : List Bytes) (s : Rotation W) : Prop :=
  s.pool.queue.Perm ids ∧ s.pool.queue = LeastRecent.order ids s.acquired

/-- An identifier that is not excluded, healthy and below its limit. -/
def eligible (now : Int) (exclude : Bytes → Bool) (p : Pool W) (id : Bytes) : Bool :=
  !exclude id && (p.liveHealth now id).isNone && decide ((p.inUse.count id : Int) < p.maxInflightPerAccount)

/-- A call that acquires an account acquires the first one in the queue it may acquire. -/
def Rotation.TakesFirst (s : Rotation W) (t : Turn W) : Prop :=
  ∀ now exclude acc, t.demand = some (now, exclude) → (t.apply s.pool).1 = some acc →
    s.pool.queue.find? (eligible now exclude s.pool) = some acc.identifier

/-! What a call does. -/

/-- The two pools have the same accounts in the same order. -/
structure SameQueue (p q : Pool W) : Prop where
  store : q.store = p.store
  queue : q.queue = p.queue

theorem Swept.sameQueue {now : Int} {p q : Pool W} (h : Swept now p q) : SameQueue p q := ⟨h.store, h.queue⟩

theorem notifyWaiterLocked_sameQueue {p q : Pool W} (h : SameQueue p q) : SameQueue p q.notifyWaiterLocked := by
  rw [Pool.notifyWaiterLocked]
  split
  · exact h
  · exact ⟨h.store, h.queue⟩

theorem setHealth_sameQueue (p : Pool W) (id : Bytes) (h : Health) : SameQueue p (p.setHealth id h) :=
  notifyWaiterLocked_sameQueue ⟨rfl, rfl⟩

theorem clearHealth_sameQueue (p : Pool W) (id : Bytes) : SameQueue p (p.clearHealth id) := by
  rw [Pool.clearHealth]
  split
  · exact ⟨rfl, rfl⟩
  · exact notifyWaiterLocked_sameQueue ⟨rfl, rfl⟩

theorem release_sameQueue (p : Pool W) (id : Bytes) : SameQueue p (p.release id) := by
  rw [Pool.release]
  split_ifs
  · exact ⟨rfl, rfl⟩
  · exact ⟨rfl, rfl⟩
  · exact notifyWaiterLocked_sameQueue ⟨rfl, rfl⟩

theorem markTransientAccount_sameQueue (now : Int) (p : Pool W) (id : Bytes) (state : HealthState) (untilTime : Int)
    (reason : Bytes) : SameQueue p (p.markTransientAccount now id state untilTime reason) := by
  rw [Pool.markTransientAccount]
  split_ifs
  · exact ⟨rfl, rfl⟩
  · exact setHealth_sameQueue p id _
  · exact clearHealth_sameQueue p id

theorem markBlockedAccount_sameQueue (now : Int) (p : Pool W) (id : Bytes) (state : HealthState) (reason : Bytes) :
    SameQueue p (p.markBlockedAccount now id state reason) := by
  rw [Pool.markBlockedAccount]
  split_ifs
  · exact ⟨rfl, rfl⟩
  · exact setHealth_sameQueue p id _

/-- A slot of the first account of the queue that can be acquired. -/
structure Took (now : Int) (exclude : Bytes → Bool) (p : Pool W) (acc : Account) (q : Pool W) (key : Bytes) : Prop where
  usable : Usable now p key
  found : p.store.findAccount key = some acc
  allowed : exclude key = false
  first : ∃ before after, p.queue = before ++ key :: after ∧ ∀ id ∈ before, exclude id = true ∨ ¬ Usable now p id
  pool : ∃ r, Swept now p r ∧ q = r.take key

theorem acquireLocked_cases (now : Int) (p : Pool W) (exclude : Bytes → Bool) :
    (∃ q, p.acquireLocked now [] exclude = (none, q) ∧ Swept now p q) ∨
      ∃ acc q key, p.acquireLocked now [] exclude = (some acc, q) ∧ Took now exclude p acc q key := by
  have htry : p.acquireLocked now [] exclude = tryAcquireFrom now exclude p.queue p := if_neg fun h => h rfl
  rw [htry]
  have hspec := tryAcquireFrom_spec now exclude p.queue p
  rcases hx : tryAcquireFrom now exclude p.queue p with ⟨_ | acc, q⟩
  · rw [hx] at hspec
    cases hspec with
    | failed _ swept _ => exact Or.inl ⟨q, rfl, swept⟩
  · obtain ⟨before, key, after, r, hqueue, hbefore, hkey, husable, hfound, hr, hq⟩ := tryAcquireFrom_first now exclude _ _ hx
    exact Or.inr ⟨acc, q, key, rfl, husable, hfound, hkey, ⟨before, after, hqueue, hbefore⟩, r, hr, hq⟩

/-- A call leaves the queue alone, or takes a slot of the first account it can. -/
theorem apply_cases (p : Pool W) (t : Turn W) :
    ((t.apply p).1 = none ∧ SameQueue p (t.apply p).2) ∨
      ∃ now exclude acc q key, t.demand = some (now, exclude) ∧ t.apply p = (some acc, q) ∧
        Took now exclude p acc q key := by
  cases t with
  | acquire now exclude =>
    rcases acquireLocked_cases now p exclude with ⟨q, heq, hswept⟩ | ⟨acc, q, key, heq, htook⟩
    · rw [Turn.apply, heq]
      exact Or.inl ⟨rfl, hswept.sameQueue⟩
    · exact Or.inr ⟨now, exclude, acc, q, key, rfl, heq, htook⟩
  | acquireWait now waiter exclude =>
    rcases acquireLocked_cases now p exclude with ⟨q, heq, hswept⟩ | ⟨acc, q, key, heq, htook⟩
    · have hattempt : p.attempt now (.wait [] exclude) = (none, q) := heq
      have hsame := hswept.sameQueue
      rw [Turn.apply, Pool.acquireTurn, hattempt]
      dsimp only
      split
      · exact Or.inl ⟨rfl, hsame.store, hsame.queue⟩
      · exact Or.inl ⟨rfl, hsame⟩
    · have hattempt : p.attempt now (.wait [] exclude) = (some acc, q) := heq
      refine Or.inr ⟨now, exclude, acc, q, key, rfl, ?_, htook⟩
      rw [Turn.apply, Pool.acquireTurn, hattempt]
      rfl
  | release id => exact Or.inl ⟨rfl, release_sameQueue p id⟩
  | markTransient now id state untilTime reason =>
    exact Or.inl ⟨rfl, markTransientAccount_sameQueue now p id state untilTime reason⟩
  | markBlocked now id state reason => exact Or.inl ⟨rfl, markBlockedAccount_sameQueue now p id state reason⟩
  | clearHealth id => exact Or.inl ⟨rfl, clearHealth_sameQueue p id⟩

/-! Runs. -/

/-- Every queued identifier is queued once and gives an enabled account, or none of them does. -/
def OneAccountEach (accounts : List Account) : Prop :=
  (∀ id ∈ enabledIDs accounts, ¬ Resolves (rebuildIndexes accounts) id) ∨
    (enabledIDs accounts).Nodup ∧ ∀ id ∈ enabledIDs accounts, Resolves (rebuildIndexes accounts) id

/-- What the calls keep. -/
structure Rotation.Kept (accounts : List Account) (s : Rotation W) : Prop where
  store : s.pool.store = rebuildIndexes accounts
  queue : s.pool.queue = LeastRecent.order (enabledIDs accounts) s.acquired
  perm : s.pool.queue.Perm (enabledIDs accounts)

section kept
variable {accounts : List Account} {s : Rotation W}

/-- An identifier in front of the first one that is usable is not eligible. -/
theorem Took.find {now : Int} {exclude : Bytes → Bool} {p q : Pool W} {acc : Account} {key : Bytes}
    (h : Took now exclude p acc q key) (hresolves : ∀ id ∈ p.queue, id ≠ [] ∧ Resolves p.store id) :
    p.queue.find? (eligible now exclude p) = some key := by
  obtain ⟨before, after, hqueue, hbefore⟩ := h.first
  refine List.find?_eq_some_iff_append.mpr ⟨?_, before, after, hqueue, fun id hid => ?_⟩
  · rw [eligible, h.allowed, h.usable.healthy, decide_eq_true h.usable.slot]
    rfl
  · obtain ⟨hnamed, hfound⟩ := hresolves id (hqueue ▸ List.mem_append_left _ hid)
    rw [Bool.not_eq_true', Bool.eq_false_iff]
    intro heligible
    rw [eligible, Bool.and_eq_true, Bool.and_eq_true, Bool.not_eq_true', Option.isNone_iff_eq_none,
      decide_eq_true_iff] at heligible
    obtain ⟨⟨hallowed, hhealthy⟩, hslot⟩ := heligible
    refine (hbefore id hid).elim (fun hex => ?_) fun hno => hno ?_
    · rw [hallowed] at hex
      cases hex
    · exact ⟨hnamed, resolves_iff.mp hfound, hhealthy, hslot, h.usable.globalSlot⟩

theorem Rotation.Kept.step (h : s.Kept accounts) (hone : OneAccountEach accounts) (t : Turn W) {s' : Rotation W}
    (hstep : s.step t = some s') : s.TakesFirst t ∧ s'.Kept accounts := by
  cases hstep
  rcases apply_cases s.pool t with ⟨hnone, hsame⟩ | ⟨now, exclude, acc, q, key, hdemand, heq, htook⟩
  · refine ⟨fun now exclude acc _ hsome => ?_, ⟨hsame.store.trans h.store, ?_, hsame.queue.symm ▸ h.perm⟩⟩
    · rw [hnone] at hsome
      cases hsome
    · rw [hnone, Option.map_none, Option.toList_none, List.append_nil]
      exact hsame.queue.trans h.queue
  · obtain ⟨before, after, hqueue, -⟩ := htook.first
    have hmem : key ∈ enabledIDs accounts :=
      h.perm.mem_iff.mp (hqueue ▸ List.mem_append_right _ List.mem_cons_self)
    have hkey : Resolves (rebuildIndexes accounts) key := resolves_iff.mpr (h.store ▸ htook.usable.enabled)
    obtain ⟨hnodup, hresolves⟩ := hone.resolve_left fun hno => hno key hmem hkey
    -- the account found has the identifier it was looked up with
    have hid : acc.identifier = key := by
      obtain ⟨-, found, hfound, hfoundid⟩ := mem_enabledIDs hmem
      rw [← h.store, htook.found] at hfound
      exact (congrArg Account.identifier (Option.some.inj hfound)).trans hfoundid
    have hfirst : s.pool.queue.find? (eligible now exclude s.pool) = some key := by
      refine htook.find fun id hmem' => ?_
      have hin := h.perm.mem_iff.mp hmem'
      exact ⟨(mem_enabledIDs hin).1, h.store ▸ hresolves id hin⟩
    obtain ⟨r, hswept, rfl⟩ := htook.pool
    have hbump : (r.take key).queue = s.pool.queue.erase key ++ [key] := by
      have hin : key ∈ r.queue := hswept.queue ▸ h.perm.mem_iff.mpr hmem
      rw [Pool.take, bumpQueue, if_pos hin, hswept.queue]
    refine ⟨fun now' exclude' acc' hdemand' hsome => ?_, ?_⟩
    · rw [hdemand] at hdemand'
      cases hdemand'
      rw [heq] at hsome
      cases hsome
      rw [hfirst, hid]
    · rw [heq]
      refine ⟨hswept.store.trans h.store, ?_, ?_⟩
      · rw [hbump, Option.map_some, Option.toList_some, hid, h.queue]
        exact (LeastRecent.order_concat hnodup key).symm
      · rw [hbump]
        exact ((List.perm_append_singleton key _).trans (List.perm_cons_erase (h.perm.mem_iff.mpr hmem)).symm).trans h.perm

end kept

/-- The pool behind a reset. -/
def Rotation.start (now : Int) (p : Pool W) : Rotation W := ⟨p.reset now, []⟩

theorem Rotation.start_kept (now : Int) (p : Pool W) (accounts : List Account) :
    (Rotation.start now { p with store := rebuildIndexes accounts }).Kept accounts :=
  ⟨rfl, (LeastRecent.order_nil _).symm, List.Perm.refl _⟩

/-! Two identifiers alone. -/

/-- A pool without slots taken in which neither of two identifiers is blocked. -/
structure Idle (accounts : List Account) (a b : Bytes) (p : Pool W) : Prop where
  store : p.store = rebuildIndexes accounts
  inUse : p.inUse = 0
  limit : 0 < p.maxInflightPerAccount
  first : p.liveHealth 0 a = none
  second : p.liveHealth 0 b = none

theorem notifyWaiterLocked_health (p : Pool W) : p.notifyWaiterLocked.health = p.health := by
  rw [Pool.notifyWaiterLocked]
  split
  · rfl
  · rfl

theorem clearHealth_health (p : Pool W) {id : Bytes} (h : id ≠ []) :
    (p.clearHealth id).health = Function.update p.health id none := by
  rw [Pool.clearHealth, if_neg h, notifyWaiterLocked_health]

theorem clearHealth_live (p : Pool W) {id id' : Bytes} (h : id ≠ []) (hid : id' = id ∨ p.liveHealth 0 id' = none) :
    (p.clearHealth id).liveHealth 0 id' = none := by
  rw [Pool.liveHealth, clearHealth_health p h]
  by_cases heq : id' = id
  · rw [heq, Function.update_self]
    rfl
  · rw [Function.update_of_ne heq]
    exact hid.resolve_left heq

theorem release_health (p : Pool W) (id : Bytes) : (p.release id).health = p.health := by
  rw [Pool.release]
  split_ifs
  · rfl
  · rfl
  · exact notifyWaiterLocked_health _

section idle
variable {accounts : List Account} {a b : Bytes} {p : Pool W}

theorem idle_cleared (now : Int) (p : Pool W) (ha : a ≠ []) (hb : b ≠ []) :
    Idle accounts a b (((Pool.reset now { p with store := rebuildIndexes accounts }).clearHealth a).clearHealth b) := by
  generalize hreset : Pool.reset now { p with store := rebuildIndexes accounts } = q
  have hstore : q.store = rebuildIndexes accounts := hreset ▸ rfl
  have hinUse : q.inUse = 0 := hreset ▸ rfl
  have hlimit : 0 < q.maxInflightPerAccount := by
    rw [← hreset]
    exact runtimeAccountMaxInflight_pos p.runtime
  have hslots := clearHealth_sameSlots q a
  have hslots' := clearHealth_sameSlots (q.clearHealth a) b
  refine ⟨?_, hslots'.inUse.trans (hslots.inUse.trans hinUse), ?_, ?_, ?_⟩
  · exact (clearHealth_sameQueue _ b).store.trans ((clearHealth_sameQueue q a).store.trans hstore)
  · rw [hslots'.maxInflight, hslots.maxInflight]
    exact hlimit
  · exact clearHealth_live _ hb (Or.inr (clearHealth_live q ha (Or.inl rfl)))
  · exact clearHealth_live _ hb (Or.inl rfl)

/-- All identifiers but two. -/
def allBut (a b : Bytes) (id : Bytes) : Bool := decide (id ≠ a ∧ id ≠ b)

/-- Where only the first of the two can be acquired, it is. -/
theorem Idle.acquire (h : Idle accounts a b p) (ha : a ∈ enabledIDs accounts) (hqueue : a ∈ p.queue)
    (hresolves : Resolves (rebuildIndexes accounts) a) (hb : b = a ∨ ¬ Resolves (rebuildIndexes accounts) b) :
    ∃ acc q, p.acquireLocked 0 [] (allBut a b) = (some acc, q) ∧ acc.identifier = a ∧
      ∃ r, Swept 0 p r ∧ q = r.take a := by
  obtain ⟨hnamed, found, hfound, hfoundid⟩ := mem_enabledIDs ha
  have husable : Usable 0 p a := by
    refine ⟨hnamed, h.store ▸ resolves_iff.mp hresolves, h.first, ?_, fun hglobal => ?_⟩
    · rw [h.inUse]
      exact h.limit
    · rw [h.inUse]
      exact hglobal
  rcases acquireLocked_cases 0 p (allBut a b) with ⟨q, heq, -⟩ | ⟨acc, q, key, heq, htook⟩
  · have hspec := acquireLocked_spec 0 p [] (allBut a b)
    rw [heq] at hspec
    cases hspec with
    | failed _ _ none_usable => exact absurd husable (none_usable a ⟨by simp [allBut], hqueue⟩)
  · -- the other one is not enabled
    have hkey : key = a := by
      have hallowed := htook.allowed
      rw [allBut, decide_eq_false_iff_not, not_and_not_right] at hallowed
      by_contra hne
      have hkeyb : key = b := hallowed hne
      refine hb.elim (fun hsame => hne (hkeyb.trans hsame)) fun hno => hno ?_
      exact resolves_iff.mpr (hkeyb ▸ h.store ▸ htook.usable.enabled)
    subst hkey
    refine ⟨acc, q, heq, ?_, htook.pool⟩
    have hacc := htook.found
    rw [h.store, hfound] at hacc
    exact (congrArg Account.identifier (Option.some.inj hacc)).symm.trans hfoundid

/-- The slot is free again after a release. -/
theorem Idle.released (h : Idle accounts a b p) {r : Pool W} (hr : Swept 0 p r) (ha : a ≠ []) :
    Idle accounts a b ((r.take a).release a) := by
  have hlive : ∀ id, ((r.take a).release a).liveHealth 0 id = p.liveHealth 0 id := by
    intro id
    rw [Pool.liveHealth, release_health]
    exact hr.live id
  refine ⟨?_, ?_, ?_, (hlive a).trans h.first, (hlive b).trans h.second⟩
  · exact (release_sameQueue _ a).store.trans (hr.store.trans h.store)
  · rw [release_inUse _ ha, Pool.take, Multiset.erase_cons_head, hr.inUse, h.inUse]
  · rw [(release_limits _ a).1]
    exact hr.maxInflight.symm ▸ h.limit

end idle

/-! The rotation. -/

/-- Along the calls behind a reset the queue is in the order of the last acquisitions, and each
    acquire takes the first account it may take. -/
def RotatesByLastAcquisition (now : Int) (p : Pool W) (turns : List (Turn W)) : Prop :=
  Runs.Always Rotation.step (Rotation.InOrder (enabledIDs p.store.accounts)) (Rotation.start now p) turns ∧
    Runs.Meets Rotation.step Rotation.TakesFirst (Rotation.start now p) turns

/-- Both identifiers unblocked, one acquired, released, and acquired again. -/
def probe (a b : Bytes) : List (Turn W) :=
  [.clearHealth a, .clearHealth b, .acquire 0 (allBut a b), .release a, .acquire 0 (allBut a b)]

/-- In a rotation by last acquisition an identifier that can be acquired is queued once, and so
    can every other one. -/
theorem once_of_probe {now : Int} {p : Pool W} {accounts : List Account} {a b : Bytes} (ha : a ∈ enabledIDs accounts)
    (hb : b ∈ enabledIDs accounts) (hresolves : Resolves (rebuildIndexes accounts) a)
    (hother : b = a ∨ ¬ Resolves (rebuildIndexes accounts) b)
    (h : RotatesByLastAcquisition now { p with store := rebuildIndexes accounts } (probe a b)) :
    (enabledIDs accounts).count a = 1 ∧ b = a := by
  obtain ⟨hane, -⟩ := mem_enabledIDs ha
  obtain ⟨hbne, -⟩ := mem_enabledIDs hb
  obtain ⟨horder, hfirst⟩ := h
  generalize hreset : Pool.reset now { p with store := rebuildIndexes accounts } = q
  have hidle : Idle accounts a b ((q.clearHealth a).clearHealth b) := hreset ▸ idle_cleared now p hane hbne
  have hqueue : ((q.clearHealth a).clearHealth b).queue = enabledIDs accounts := by
    rw [(clearHealth_sameQueue _ b).queue, (clearHealth_sameQueue q a).queue, ← hreset]
    rfl
  obtain ⟨acc, _, heq, hid, r, hr, rfl⟩ := hidle.acquire ha (hqueue ▸ ha) hresolves hother
  have hthird : Rotation.step ⟨(q.clearHealth a).clearHealth b, []⟩ (.acquire 0 (allBut a b)) =
      some ⟨r.take a, [a]⟩ := by
    rw [Rotation.step, Turn.apply, heq, Option.map_some, Option.toList_some, hid, List.nil_append]
  have horder' : Runs.Always Rotation.step (Rotation.InOrder (enabledIDs accounts)) ⟨r.take a, [a]⟩
      [.release a, .acquire 0 (allBut a b)] := by
    rw [Rotation.start, hreset] at horder
    exact ((horder.2 _ rfl).2 _ rfl).2 _ hthird
  have hfirst' : Runs.Meets Rotation.step Rotation.TakesFirst ⟨r.take a, [a]⟩
      [.release a, .acquire 0 (allBut a b)] := by
    rw [Rotation.start, hreset] at hfirst
    exact (((hfirst _ rfl).2 _ rfl).2 _ hthird).2
  have hlast : (r.take a).queue = (enabledIDs accounts).filter (· ≠ a) ++ [a] := by
    rw [horder'.1.2, LeastRecent.order]
    simp only [List.mem_singleton]
    rfl
  refine ⟨?_, ?_⟩
  · have hout : a ∉ (enabledIDs accounts).filter (· ≠ a) := by simp
    rw [← horder'.1.1.count_eq a, hlast, List.count_append, List.count_eq_zero_of_not_mem hout, List.count_singleton_self]
  · -- the other one is in front of it when it is acquired again
    by_contra hne
    have hidle' := hidle.released hr hane
    have hqueue' : ((r.take a).release a).queue = (enabledIDs accounts).filter (· ≠ a) ++ [a] :=
      (release_sameQueue _ a).queue.trans hlast
    have hback : a ∈ ((r.take a).release a).queue := hqueue' ▸ List.mem_append_right _ (List.mem_singleton.mpr rfl)
    obtain ⟨acc', q', heq', hid', -⟩ := hidle'.acquire ha hback hresolves hother
    have hfind := ((hfirst' _ rfl).2 _ rfl).1 0 (allBut a b) acc' rfl (congrArg Prod.fst heq')
    have heligible : eligible 0 (allBut a b) ((r.take a).release a) b = true := by
      rw [eligible, hidle'.second, hidle'.inUse]
      simp [allBut, hidle'.limit]
    have hsome : (((enabledIDs accounts).filter (· ≠ a)).find?
        (eligible 0 (allBut a b) ((r.take a).release a))).isSome = true :=
      List.find?_isSome.mpr ⟨b, List.mem_filter.mpr ⟨hb, decide_eq_true hne⟩, heligible⟩
    obtain ⟨c, hc⟩ := Option.isSome_iff_exists.mp hsome
    have hca : c ≠ a := of_decide_eq_true (List.mem_filter.mp (List.mem_of_find?_eq_some hc)).2
    have hfound : ((r.take a).release a).queue.find? (eligible 0 (allBut a b) ((r.take a).release a)) = some c := by
      rw [hqueue', List.find?_append, hc]
      rfl
    exact hca (Option.some.inj (hfound.symm.trans (hfind.trans (congrArg some hid'))))

/-- Over all runs the rotation is by last acquisition exactly where each queued identifier stands
    for one account. -/
theorem rotates_by_last_acquisition_iff (now : Int) (p : Pool W) (accounts : List Account) :
    (∀ turns, RotatesByLastAcquisition now { p with store := rebuildIndexes accounts } turns) ↔
      OneAccountEach accounts := by
  constructor
  · intro h
    by_cases hany : ∃ a ∈ enabledIDs accounts, Resolves (rebuildIndexes accounts) a
    · obtain ⟨a, ha, hresolves⟩ := hany
      have hall : ∀ b ∈ enabledIDs accounts, Resolves (rebuildIndexes accounts) b := by
        intro b hb
        by_contra hno
        obtain ⟨-, rfl⟩ := once_of_probe ha hb hresolves (Or.inr hno) (h _)
        exact hno hresolves
      refine Or.inr ⟨List.nodup_iff_count_eq_one.mpr fun b hb => ?_, hall⟩
      exact (once_of_probe hb hb (hall b hb) (Or.inl rfl) (h _)).1
    · exact Or.inl fun id hid hresolves => hany ⟨id, hid, hresolves⟩
  · intro hone turns
    have hkept := Rotation.start_kept now p accounts
    refine ⟨?_, ?_⟩
    · have halways := Runs.always_inv (fun s t s' hs hstep => (Rotation.Kept.step hs hone t hstep).2) turns _ hkept
      exact halways.mono fun s hs => ⟨hs.perm, hs.queue⟩
    · exact Runs.meets_of_inv (fun s t s' hs _ hstep => Rotation.Kept.step hs hone t hstep) turns hkept fun _ _ => trivial

/-- An account that is listed twice, and another one. -/
def doubledAccounts : List Account := [{ email := lit "a@x.io" }, { email := lit "a@x.io" }, { email := lit "b@x.io" }]

/-- After the first acquire the account that was acquired is still in front. -/
theorem doubled_account_stays_first :
    ¬ RotatesByLastAcquisition 0 ({ store := rebuildIndexes doubledAccounts } : Pool Unit)
        [.acquire 0 (fun _ => false)] ∧
      ((Rotation.step (Rotation.start 0 ({ store := rebuildIndexes doubledAccounts } : Pool Unit))
        (.acquire 0 (fun _ => false))).map (fun s => (s.pool.queue, s.acquired))) =
        some ([lit "a@x.io", lit "b@x.io", lit "a@x.io"], [lit "a@x.io"]) := by
  refine ⟨fun h => ?_, by decide +kernel⟩
  have horder := (h.1.2 _ rfl).2
  revert horder
  decide +kernel

end DeepSeekWebToApi.AccountPool
