import DeepSeekWebToApi.Config.Store
import Mathlib.Data.Multiset.Count
import Mathlib.Data.Multiset.AddSub

/- The account pool (`internal/account`): which accounts are in use, which are
   blocked, and who waits for one.

   Every function here is one critical section under `p.mu`; its argument `now` is
   what `time.Now()` answers inside it, in nanoseconds since the zero time. The map
   `inUse` has positive counts only (`Release` deletes an entry at one), so it is a
   multiset of keys: its multiplicities are the counts, its cardinality the sum
   `currentInUseLocked`. A waiter is a channel; `W` says what the model knows about the
   caller behind it, and `woken` holds the channels that were closed and whose
   callers have not run since. Session affinity is not part of the slots and is left
   out. -/
namespace DeepSeekWebToApi.AccountPool
open GoStrings Config

inductive HealthState where
  | healthy | disabled | rateLimited | temporarilyMuted | invalidCredentials | permanentlyBanned
  deriving DecidableEq, Repr

structure Health where
  state : HealthState
  /-- the zero time for a state that does not run out -/
  untilTime : Int := 0
  reason : Bytes := []
  updatedAt : Int := 0
  deriving DecidableEq, Repr

def isTransientHealth (state : HealthState) : Bool :=
  state = .temporarilyMuted ∨ state = .rateLimited

/-- A transient state that has run out; it blocks nothing and is deleted when it is read. -/
def Health.expired (now : Int) (h : Health) : Bool :=
  isTransientHealth h.state && !(now < h.untilTime : Bool)

structure Pool (W : Type) where
  store : Store
  runtime : Runtime := {}
  queue : List Bytes := []
  inUse : Multiset Bytes := 0
  waiters : List W := []
  woken : List W := []
  health : Bytes → Option Health := fun _ => none
  maxInflightPerAccount : Int := 2
  maxQueueSize : Int := 0
  globalMaxInflight : Int := 0

variable {W : Type}

/-! Waiters (`pool_waiters.go`). -/

def Pool.notifyWaiterLocked (p : Pool W) : Pool W :=
  match p.waiters with
  | [] => p
  | waiter :: rest => { p with waiters := rest, woken := p.woken ++ [waiter] }

def Pool.drainWaitersLocked (p : Pool W) : Pool W :=
  { p with waiters := [], woken := p.woken ++ p.waiters }

def Pool.removeWaiterLocked [DecidableEq W] (p : Pool W) (waiter : W) : Bool × Pool W :=
  if waiter ∈ p.waiters then (true, { p with waiters := p.waiters.erase waiter }) else (false, p)

def Pool.canQueueLocked (p : Pool W) (target : Bytes) (exclude : Bytes → Bool) : Bool :=
  if target ≠ [] ∧ (exclude target ∨ p.store.findAccount target = none) then false
  else if p.maxQueueSize ≤ 0 then false
  else p.waiters.length < p.maxQueueSize

/-! Acquiring (`pool_acquire.go`, `pool_limits.go`). -/

def Pool.accountHealthLocked (now : Int) (p : Pool W) (id : Bytes) : Option Health × Pool W :=
  match p.health id with
  | none => (none, p)
  | some h =>
    if h.expired now then (none, { p with health := Function.update p.health id none })
    else (some h, p)

def Pool.canAcquireIDLocked (now : Int) (p : Pool W) (id : Bytes) : Bool × Pool W :=
  if id = [] then (false, p)
  else
    match p.store.findAccount id with
    | none => (false, p)
    | some acc =>
      if acc.disabled then (false, p)
      else
        match p.accountHealthLocked now id with
        | (some _, p) => (false, p)
        | (none, p) =>
          if (p.inUse.count id : Int) ≥ p.maxInflightPerAccount then (false, p)
          else if p.globalMaxInflight > 0 ∧ (p.inUse.card : Int) ≥ p.globalMaxInflight then (false, p)
          else (true, p)

/-- Move an account to the tail of the queue. -/
def bumpQueue (queue : List Bytes) (id : Bytes) : List Bytes :=
  if id ∈ queue then queue.erase id ++ [id] else queue

/-- Count a slot under `id`. -/
def Pool.take (p : Pool W) (id : Bytes) : Pool W :=
  { p with inUse := id ::ₘ p.inUse, queue := bumpQueue p.queue id }

/-- The loop of `tryAcquire` over the rest of the queue. -/
def tryAcquireFrom (now : Int) (exclude : Bytes → Bool) :
    List Bytes → Pool W → Option Account × Pool W
  | [], p => (none, p)
  | id :: rest, p =>
    if exclude id then tryAcquireFrom now exclude rest p
    else
      match p.canAcquireIDLocked now id with
      | (false, p) => tryAcquireFrom now exclude rest p
      | (true, p) =>
        match p.store.findAccount id with
        | none => tryAcquireFrom now exclude rest p
        | some acc => (some acc, p.take id)

def Pool.tryAcquire (now : Int) (p : Pool W) (exclude : Bytes → Bool) : Option Account × Pool W :=
  tryAcquireFrom now exclude p.queue p

def Pool.acquireLocked (now : Int) (p : Pool W) (target : Bytes) (exclude : Bytes → Bool) :
    Option Account × Pool W :=
  if target ≠ [] then
    if exclude target then (none, p)
    else
      match p.canAcquireIDLocked now target with
      | (false, p) => (none, p)
      | (true, p) =>
        match p.store.findAccount target with
        | none => (none, p)
        | some acc => (some acc, p.take target)
  else p.tryAcquire now exclude

def Pool.acquirePreferredLocked (now : Int) (p : Pool W) (preferred : Bytes)
    (exclude : Bytes → Bool) : Option Account × Pool W :=
  if preferred ≠ [] then
    match p.acquireLocked now preferred exclude with
    | (some acc, p) => (some acc, p)
    | (none, p) => p.tryAcquire now exclude
  else p.tryAcquire now exclude

/-- What a caller asks for: `AcquireWait` with its target (`Acquire` too), or
    `AcquireWaitPreferred`. -/
inductive Demand where
  | wait (target : Bytes) (exclude : Bytes → Bool)
  | preferred (id : Bytes) (exclude : Bytes → Bool)

def Pool.attempt (now : Int) (p : Pool W) : Demand → Option Account × Pool W
  | .wait target exclude => p.acquireLocked now target exclude
  | .preferred id exclude => p.acquirePreferredLocked now id exclude

def Pool.canQueue (p : Pool W) : Demand → Bool
  | .wait target exclude => p.canQueueLocked target exclude
  | .preferred _ exclude => p.canQueueLocked [] exclude

inductive Outcome where
  | acquired (acc : Account)
  | refused
  | queued

/-- One turn of the loops of `AcquireWait` and `AcquireWaitPreferred`, up to the `select`. -/
def Pool.acquireTurn (now : Int) (p : Pool W) (waiter : W) (d : Demand) : Outcome × Pool W :=
  match p.attempt now d with
  | (some acc, p) => (.acquired acc, p)
  | (none, p) =>
    if p.canQueue d then (.queued, { p with waiters := p.waiters ++ [waiter] })
    else (.refused, p)

/-! Releasing, health and limits (`pool_core.go`, `health.go`, `pool_limits.go`). -/

def Pool.release (p : Pool W) (id : Bytes) : Pool W :=
  if id = [] then p
  else if p.inUse.count id = 0 then p
  else Pool.notifyWaiterLocked { p with inUse := p.inUse.erase id }

def Pool.clearHealth (p : Pool W) (id : Bytes) : Pool W :=
  if id = [] then p
  else Pool.notifyWaiterLocked { p with health := Function.update p.health id none }

/-- Set an account's health and wake a waiter, as both kinds of marks end. -/
def Pool.setHealth (p : Pool W) (id : Bytes) (h : Health) : Pool W :=
  Pool.notifyWaiterLocked { p with health := Function.update p.health id (some h) }

def Pool.markTransientAccount (now : Int) (p : Pool W) (id : Bytes) (state : HealthState)
    (untilTime : Int) (reason : Bytes) : Pool W :=
  if id = [] then p
  else if ¬ now < untilTime then p.clearHealth id
  else p.setHealth id { state, untilTime, reason, updatedAt := now }

def Pool.markBlockedAccount (now : Int) (p : Pool W) (id : Bytes) (state : HealthState)
    (reason : Bytes) : Pool W :=
  if id = [] then p else p.setHealth id { state, reason, updatedAt := now }

def Pool.applyRuntimeLimits (p : Pool W) (maxInflightPerAccount maxQueueSize globalMaxInflight : Int) :
    Pool W :=
  let maxInflightPerAccount := if maxInflightPerAccount ≤ 0 then 1 else maxInflightPerAccount
  let perAccount := maxInflightPerAccount * p.store.accounts.length
  Pool.notifyWaiterLocked
    { p with
      maxInflightPerAccount := maxInflightPerAccount
      maxQueueSize := if maxQueueSize < 0 then 0 else maxQueueSize
      globalMaxInflight :=
        if globalMaxInflight ≤ 0 then
          if perAccount ≤ 0 then maxInflightPerAccount else perAccount
        else globalMaxInflight }

/-! Reset (`pool_core.go`). -/

/-- `time.Unix(sec, 0)`, in nanoseconds since the zero time. -/
def unixTime (sec : Int) : Int := (sec + 62135596800) * 1000000000

def persistedCooldownHealth (now : Int) (acc : Account) : Option Health :=
  let untilTime := unixTime acc.cooldownUntilUnix
  let restored (state : HealthState) : Health :=
    { state, untilTime, reason := lit "restored persisted cooldown", updatedAt := now }
  if ¬ now < untilTime then none
  else if acc.cooldownState = accountCooldownRateLimited then some (restored .rateLimited)
  else if acc.cooldownState = accountCooldownTemporarilyMuted then some (restored .temporarilyMuted)
  else none

def defaultRecommendedConcurrency (accountCount maxInflightPerAccount : Int) : Int :=
  if accountCount ≤ 0 then 0
  else accountCount * (if maxInflightPerAccount ≤ 0 then 2 else maxInflightPerAccount)

/-- The accounts `Reset` queues: the enabled ones that have a name, those with a token first
    (the stable sort by "has a token" is a partition). -/
def poolAccounts (accounts : List Account) : List Account :=
  (accounts.filter (·.token ≠ []) ++ accounts.filter (·.token = [])).filter
    (fun a => !a.disabled && a.identifier ≠ [])

def persistedHealth (now : Int) (accounts : List Account) : Bytes → Option Health :=
  accounts.foldl (fun m a =>
    match persistedCooldownHealth now a with
    | some h => Function.update m a.identifier (some h)
    | none => m) (fun _ => none)

def Pool.reset (now : Int) (p : Pool W) : Pool W :=
  let accounts := poolAccounts p.store.accounts
  let ids := accounts.map Account.identifier
  let persisted := persistedHealth now accounts
  let maxInflight := p.runtime.runtimeAccountMaxInflight
  let recommended := defaultRecommendedConcurrency ids.length maxInflight
  { p.drainWaitersLocked with
    queue := ids
    inUse := 0
    health := fun id =>
      (persisted id).or (if id ∈ ids then (p.health id).filter (fun h => !h.expired now) else none)
    maxInflightPerAccount := maxInflight
    maxQueueSize := p.runtime.runtimeAccountMaxQueue recommended
    globalMaxInflight := p.runtime.runtimeGlobalMaxInflight recommended }

def newPool (now : Int) (store : Store) (runtime : Runtime) : Pool W :=
  Pool.reset now { store, runtime, maxInflightPerAccount := runtime.runtimeAccountMaxInflight }

end DeepSeekWebToApi.AccountPool
