import DeepSeekWebToApi.AccountPool.Acquire
import DeepSeekWebToApi.Lib.Runs

/- Waking queued callers. Every event that may free a slot wakes the waiter at the
   head of the queue, whatever it waits for; a woken caller runs its turn again and
   passes nothing on. A waiter is given by what its caller asks for, and the store and
   the clock stand still.

   `NoLostWakeup`: when nobody woken is left to run, nobody queued could be served.
   Only the last woken caller can break it. `wakeups_not_lost` keeps it in the runs where
   that caller, whenever it runs its turn, takes the last slot any queued caller
   could use; `cancellation_keeps_wakeups` allows woken callers to give up
   instead, as long as the last one leaves no usable slot behind. -/
namespace DeepSeekWebToApi.AccountPool
open GoStrings Config

/-- When no woken caller is left to run, no queued caller would be served. -/
def NoLostWakeup (now : Int) (p : Pool Demand) : Prop :=
  p.woken = [] → ∀ d ∈ p.waiters, (p.attempt now d).1 = none

inductive QueueEvent where
  | call (d : Demand)
  | retry (waiter : Nat)
  | release (id : Bytes)
  | clearHealth (id : Bytes)
  | markTransient (id : Bytes) (state : HealthState) (untilTime : Int) (reason : Bytes)
  | applyRuntimeLimits (maxInflightPerAccount maxQueueSize globalMaxInflight : Int)

/-- One event at time `now`; `retry i` is the turn of the woken caller at place `i`. -/
def Pool.queueStep (now : Int) (p : Pool Demand) : QueueEvent → Option (Pool Demand)
  | .call d => some (p.acquireTurn now d d).2
  | .retry i =>
    match p.woken[i]? with
    | none => none
    | some d => some (Pool.acquireTurn now { p with woken := p.woken.eraseIdx i } d d).2
  | .release id => some (p.release id)
  | .clearHealth id => some (p.clearHealth id)
  | .markTransient id state untilTime reason =>
    some (p.markTransientAccount now id state untilTime reason)
  | .applyRuntimeLimits maxInflight maxQueue globalMax =>
    some (p.applyRuntimeLimits maxInflight maxQueue globalMax)

/-- The caller `d` would take the last slot that `key` can be served from: one slot is left
    over all accounts and `d` can use some account, or one is left under `key` and `d`
    can use nothing else. -/
def TakesLastSlot (now : Int) (p : Pool Demand) (d : Demand) (key : Bytes) : Prop :=
  (0 < p.globalMaxInflight ∧ (p.inUse.card : Int) + 1 = p.globalMaxInflight ∧
      ∃ k, d.Wants p.queue k ∧ Usable now p k) ∨
    ((p.inUse.count key : Int) + 1 = p.maxInflightPerAccount ∧ d.Wants p.queue key ∧
      ∀ k, d.Wants p.queue k → Usable now p k → k = key)

/-- The last woken caller runs its turn only when it takes the last slot of every key a
    queued caller could use. -/
def Pool.PassesOn (now : Int) (p : Pool Demand) : QueueEvent → Prop
  | .retry _ => ∀ d, p.woken = [d] → ∀ d' ∈ p.waiters, ∀ key, d'.Wants p.queue key →
      Usable now p key → TakesLastSlot now p d key
  | _ => True

section Waking
variable {now : Int} {p q : Pool Demand} {d : Demand}

theorem attempt_none_iff : (p.attempt now d).1 = none ↔ ∀ key, d.Wants p.queue key → ¬ Usable now p key := by
  have hspec := attempt_spec now p d
  generalize p.attempt now d = x at hspec
  cases hspec with
  | acquired q key acc swept wanted usable found =>
    exact iff_of_false (by simp) (fun h => h key wanted usable)
  | failed q swept none_usable => exact iff_of_true rfl none_usable

theorem noLostWakeup_iff : NoLostWakeup now p ↔
    (p.woken = [] → ∀ d ∈ p.waiters, ∀ key, d.Wants p.queue key → ¬ Usable now p key) := by
  simp only [NoLostWakeup, attempt_none_iff]

/-- Who waits makes no difference to what is usable. -/
theorem Usable.with_waiters {waiters woken : List Demand} {key : Bytes} :
    Usable now { p with waiters := waiters, woken := woken } key ↔ Usable now p key :=
  ⟨fun h => ⟨h.named, h.enabled, h.healthy, h.slot, h.globalSlot⟩,
    fun h => ⟨h.named, h.enabled, h.healthy, h.slot, h.globalSlot⟩⟩

/-- Waking the head waiter leaves somebody to run, or nobody waiting. -/
theorem notifyWaiterLocked_noLostWakeup (now : Int) (p : Pool Demand) :
    NoLostWakeup now p.notifyWaiterLocked := by
  unfold Pool.notifyWaiterLocked
  split
  · next hw =>
    intro _ d hd
    rw [hw] at hd
    exact absurd hd List.not_mem_nil
  · intro hw
    exact absurd hw (by simp)

theorem mem_bumpQueue {queue : List Bytes} {id key : Bytes} :
    key ∈ bumpQueue queue id ↔ key ∈ queue := by
  unfold bumpQueue
  split
  · next hm =>
    have hperm := (List.perm_cons_erase hm).symm
    rw [List.mem_append, List.mem_singleton, or_comm, ← List.mem_cons]
    exact hperm.mem_iff
  · rfl

theorem wants_bumpQueue {queue : List Bytes} {id key : Bytes} :
    d.Wants (bumpQueue queue id) key ↔ d.Wants queue key := by
  cases d <;> simp only [Demand.Wants, mem_bumpQueue]

/-- A key usable after a slot was taken was usable before, and has another slot. -/
theorem Usable.of_take {id key : Bytes} (h : Usable now (q.take id) key) (hsw : Swept now p q) :
    Usable now p key ∧ (0 < p.globalMaxInflight → (p.inUse.card : Int) + 1 < p.globalMaxInflight) ∧
      (key = id → (p.inUse.count key : Int) + 1 < p.maxInflightPerAccount) := by
  obtain ⟨hn, he, hh, hs, hg⟩ := h
  simp only [Pool.take, hsw.store] at he
  simp only [Pool.take, hsw.inUse, hsw.maxInflight] at hs
  simp only [Pool.take, hsw.inUse, hsw.globalMax, Multiset.card_cons] at hg
  have hlive : p.liveHealth now key = none := (hsw.live key).symm.trans hh
  have hle := Multiset.count_le_count_cons key id p.inUse
  refine ⟨⟨hn, he, hlive, by omega, fun hpos => ?_⟩, fun hpos => ?_, fun heq => ?_⟩
  · have := hg hpos
    omega
  · have := hg hpos
    omega
  · rw [heq, Multiset.count_cons_self] at hs
    rw [heq]
    omega

/-- A caller's turn loses no wake-up when it takes the last slot of every key a queued caller
    could use. -/
theorem acquireTurn_noLostWakeup
    (h : p.woken = [] → ∀ d' ∈ p.waiters, ∀ key, d'.Wants p.queue key → Usable now p key →
      TakesLastSlot now p d key) :
    NoLostWakeup now (p.acquireTurn now d d).2 := by
  have hspec := attempt_spec now p d
  rcases acquireTurn_cases now p d d with ⟨acc, q, hatt, hturn⟩ | ⟨q, hatt, hturn⟩
  · rw [hturn, noLostWakeup_iff]
    rw [hatt] at hspec
    cases hspec with
    | acquired q id acc swept wanted usable found =>
      intro hw d' hd' key hkey hu
      obtain ⟨hbefore, hglobal, hcount⟩ := hu.of_take swept
      simp only [Pool.take, swept.woken] at hw
      simp only [Pool.take, swept.waiters] at hd'
      simp only [Pool.take, swept.queue, wants_bumpQueue] at hkey
      rcases h hw d' hd' key hkey hbefore with ⟨hpos, hcard, -⟩ | ⟨hlast, -, honly⟩
      · have := hglobal hpos
        omega
      · have := hcount (honly id wanted usable).symm
        omega
  · rw [hatt] at hspec
    cases hspec with
    | failed q swept none_usable =>
      -- nobody was served: neither the caller nor anybody queued has a usable key
      have hquiet : p.woken = [] → ∀ d' ∈ p.waiters ++ [d], ∀ key, d'.Wants p.queue key →
          ¬ Usable now p key := by
        intro hw d' hd' key hkey hu
        rcases List.mem_append.mp hd' with hd' | hd'
        · rcases h hw d' hd' key hkey hu with ⟨-, -, k, hk, huk⟩ | ⟨-, hwant, -⟩
          · exact none_usable k hk huk
          · exact none_usable key hwant hu
        · rw [List.mem_singleton] at hd'
          exact none_usable key (hd' ▸ hkey) hu
      rcases hturn with hturn | hturn <;> rw [hturn, noLostWakeup_iff]
      · intro hw d' hd' key hkey hu
        simp only [swept.woken] at hw
        simp only [swept.waiters] at hd'
        simp only [swept.queue] at hkey
        exact hquiet hw d' hd' key hkey (swept.usable_iff.mp (Usable.with_waiters.mp hu))
      · intro hw d' hd' key hkey hu
        rw [swept.woken] at hw
        rw [swept.waiters] at hd'
        rw [swept.queue] at hkey
        exact hquiet hw d' (List.mem_append_left _ hd') key hkey (swept.usable_iff.mp hu)

theorem takesLastSlot_with_waiters {waiters woken : List Demand} {key : Bytes} (h : TakesLastSlot now p d key) :
    TakesLastSlot now { p with waiters := waiters, woken := woken } d key := by
  rcases h with ⟨hpos, hcard, k, hk, hu⟩ | ⟨hlast, hwant, honly⟩
  · exact Or.inl ⟨hpos, hcard, k, hk, Usable.with_waiters.mpr hu⟩
  · exact Or.inr ⟨hlast, hwant, fun k hk hu => honly k hk (Usable.with_waiters.mp hu)⟩

theorem eraseIdx_eq_nil {α : Type} {l : List α} {i : Nat} {a : α} (hi : l[i]? = some a)
    (h : l.eraseIdx i = []) : l = [a] := by
  obtain ⟨hlt, rfl⟩ := List.getElem?_eq_some_iff.mp hi
  have hlen := List.length_eraseIdx_of_lt hlt
  rw [h, List.length_nil] at hlen
  match l, i with
  | [b], 0 => rfl
  | [b], i + 1 => simp at hlt
  | b :: c :: l, i => simp at hlen

/-- The turn of a woken caller. -/
theorem retry_noLostWakeup {i : Nat} (hi : p.woken[i]? = some d)
    (h : p.woken = [d] → ∀ d' ∈ p.waiters, ∀ key, d'.Wants p.queue key → Usable now p key →
      TakesLastSlot now p d key) :
    NoLostWakeup now (Pool.acquireTurn now { p with woken := p.woken.eraseIdx i } d d).2 := by
  refine acquireTurn_noLostWakeup (fun hw d' hd' key hkey hu => ?_)
  exact takesLastSlot_with_waiters
    (h (eraseIdx_eq_nil hi hw) d' hd' key hkey (Usable.with_waiters.mp hu))

theorem clearHealth_noLostWakeup (h : NoLostWakeup now p) (id : Bytes) :
    NoLostWakeup now (p.clearHealth id) := by
  unfold Pool.clearHealth
  split
  · exact h
  · exact notifyWaiterLocked_noLostWakeup now _

/-- An event that passes the wake-up on loses none. -/
theorem queueStep_noLostWakeup {e : QueueEvent} (h : NoLostWakeup now p) (hc : p.PassesOn now e)
    (hq : p.queueStep now e = some q) : NoLostWakeup now q := by
  cases e with
  | call d =>
    cases hq
    rw [noLostWakeup_iff] at h
    exact acquireTurn_noLostWakeup (fun hw d' hd' key hkey hu => absurd hu (h hw d' hd' key hkey))
  | retry i =>
    simp only [Pool.queueStep] at hq
    split at hq
    · cases hq
    · next d hi =>
      cases hq
      exact retry_noLostWakeup hi (hc d)
  | release id =>
    cases hq
    unfold Pool.release
    split
    · exact h
    split
    · exact h
    · exact notifyWaiterLocked_noLostWakeup now _
  | clearHealth id =>
    cases hq
    exact clearHealth_noLostWakeup h id
  | markTransient id state untilTime reason =>
    cases hq
    unfold Pool.markTransientAccount
    split
    · exact h
    split
    · exact clearHealth_noLostWakeup h id
    · exact notifyWaiterLocked_noLostWakeup now _
  | applyRuntimeLimits maxInflight maxQueue globalMax =>
    cases hq
    exact notifyWaiterLocked_noLostWakeup now _

/-- A queued caller that would be served while nobody is left to run. -/
theorem not_noLostWakeup (hw : p.woken = [])
    (hs : true ∈ p.waiters.map (fun d => (p.attempt now d).1.isSome)) : ¬ NoLostWakeup now p := by
  intro h
  obtain ⟨d, hd, hsome⟩ := List.mem_map.mp hs
  rw [h hw d hd] at hsome
  cases hsome

theorem newPool_noLostWakeup (now start : Int) (store : Store) (runtime : Runtime) :
    NoLostWakeup now (newPool start store runtime) :=
  fun _ _ hd => absurd hd List.not_mem_nil

end Waking

/-- In every run of a new pool in which the last woken caller always takes the last slot any
    queued caller could use, no wake-up is lost. -/
theorem wakeups_not_lost (now start : Int) (store : Store) (runtime : Runtime)
    (events : List QueueEvent)
    (h : Runs.Meets (Pool.queueStep now) (Pool.PassesOn now) (newPool start store runtime) events) :
    Runs.Always (Pool.queueStep now) (NoLostWakeup now) (newPool start store runtime) events :=
  Runs.always_of_meets (fun _ _ _ hp hc hq => queueStep_noLostWakeup hp hc hq) events _
    (newPool_noLostWakeup now start store runtime) h

/-- Two accounts of one slot each. -/
def twoAccountStore : Store :=
  rebuildIndexes [{ email := lit "a@x.io" }, { email := lit "b@x.io" }]

def onlyAccount (id : Bytes) : Demand := .wait id (fun _ => false)

theorem wakeups_not_lost_example :
    Runs.Always (Pool.queueStep 0) (NoLostWakeup 0)
      (newPool 0 twoAccountStore { accountMaxInflight := 1 })
      [.call (onlyAccount (lit "a@x.io")), .call (onlyAccount (lit "a@x.io")),
        .call (onlyAccount (lit "a@x.io")), .release (lit "a@x.io"), .retry 0] := by
  refine wakeups_not_lost 0 0 twoAccountStore _ _ (fun p hp => ⟨trivial, fun q hq => ⟨trivial,
    fun r hr => ⟨trivial, fun t ht => ⟨trivial, fun u _ => ⟨?_, trivial⟩⟩⟩⟩⟩)
  cases hp
  cases hq
  cases hr
  cases ht
  -- the caller that is still queued wants the slot the woken one takes
  intro d hd d' hd' key hkey _
  obtain rfl : onlyAccount (lit "a@x.io") = d := List.head_eq_of_cons_eq hd
  obtain rfl : d' = onlyAccount (lit "a@x.io") := List.mem_singleton.mp hd'
  have ha : ∀ {queue k}, (onlyAccount (lit "a@x.io")).Wants queue k → k = lit "a@x.io" := by
    intro queue k hk
    have := hk.2
    rwa [if_pos (by decide)] at this
  obtain rfl := ha hkey
  exact Or.inr ⟨by decide +kernel, hkey, fun k hk _ => ha hk⟩

/-- The slot of the second account is offered to a caller that waits for the first one; it
    queues again, and the caller that waits for the second account is never woken. -/
theorem wakeup_lost_to_other_target :
    ¬ Runs.Always (Pool.queueStep 0) (NoLostWakeup 0)
      (newPool 0 twoAccountStore { accountMaxInflight := 1 })
      [.call (onlyAccount (lit "a@x.io")), .call (onlyAccount (lit "b@x.io")),
        .call (onlyAccount (lit "a@x.io")), .call (onlyAccount (lit "b@x.io")),
        .release (lit "b@x.io"), .retry 0] := by
  intro h
  have hrun : (Runs.run (Pool.queueStep 0) (newPool 0 twoAccountStore { accountMaxInflight := 1 })
      [.call (onlyAccount (lit "a@x.io")), .call (onlyAccount (lit "b@x.io")),
        .call (onlyAccount (lit "a@x.io")), .call (onlyAccount (lit "b@x.io")),
        .release (lit "b@x.io"), .retry 0]).map
      (fun p => (p.woken.length, p.waiters.map (fun d => (p.attempt 0 d).1.isSome))) =
        some (0, [true, false]) := by decide +kernel
  obtain ⟨p, hp, hobs⟩ := Option.map_eq_some_iff.mp hrun
  obtain ⟨hwoken, hserved⟩ := Prod.mk.inj hobs
  refine not_noLostWakeup (List.length_eq_zero_iff.mp hwoken) ?_ (h.final hp)
  rw [hserved]
  exact List.mem_cons_self

/-! Cancellation. The callers here take any account, and a woken caller may find its context
    done and return instead of running its turn. Its channel has left the queue when it was
    closed, so `removeWaiterLocked` finds nothing to remove, and its answer is not read. -/

def anyAccount : Demand := .wait [] (fun _ => false)

inductive CancelEvent where
  | call
  | retry (waiter : Nat)
  | cancel (waiter : Nat)
  | release (id : Bytes)
  | clearHealth (id : Bytes)
  | markTransient (id : Bytes) (state : HealthState) (untilTime : Int) (reason : Bytes)

/-- The event of the queue, or the place of the woken caller that gives up. -/
def CancelEvent.toQueueEvent : CancelEvent → QueueEvent ⊕ Nat
  | .call => .inl (.call anyAccount)
  | .retry i => .inl (.retry i)
  | .cancel i => .inr i
  | .release id => .inl (.release id)
  | .clearHealth id => .inl (.clearHealth id)
  | .markTransient id state untilTime reason => .inl (.markTransient id state untilTime reason)

def Pool.cancelStep (now : Int) (p : Pool Demand) (e : CancelEvent) : Option (Pool Demand) :=
  match e.toQueueEvent with
  | .inl e => p.queueStep now e
  | .inr i => if i < p.woken.length then some { p with woken := p.woken.eraseIdx i } else none

/-- At most one slot can still be taken by a caller that takes any account. -/
def AtMostOneSlot (now : Int) (p : Pool Demand) : Prop :=
  ∀ key ∈ p.queue, Usable now p key →
    0 < p.globalMaxInflight ∧ (p.inUse.card : Int) + 1 = p.globalMaxInflight ∨
      (p.inUse.count key : Int) + 1 = p.maxInflightPerAccount ∧
        ∀ k ∈ p.queue, Usable now p k → k = key

/-- While others are queued, the last woken caller runs its turn only when at most one slot is
    left, and gives up only when none is. -/
def Pool.HandsOver (now : Int) (p : Pool Demand) : CancelEvent → Prop
  | .retry _ => p.woken.length = 1 → p.waiters ≠ [] → AtMostOneSlot now p
  | .cancel _ => p.woken.length = 1 → p.waiters ≠ [] → ∀ key ∈ p.queue, ¬ Usable now p key
  | _ => True

/-- `d` is queued or woken. -/
def Waiting (p : Pool Demand) (d : Demand) : Prop := d ∈ p.waiters ∨ d ∈ p.woken

section Cancel
variable {now : Int} {p q : Pool Demand} {d : Demand}

theorem notifyWaiterLocked_waiting (h : Waiting p.notifyWaiterLocked d) : Waiting p d := by
  unfold Pool.notifyWaiterLocked at h
  split at h
  · exact h
  · next w rest hw =>
    rcases h with h | h
    · exact Or.inl (hw ▸ List.mem_cons_of_mem w h)
    · rcases List.mem_append.mp h with h | h
      · exact Or.inr h
      · exact Or.inl (hw ▸ List.mem_cons.mpr (Or.inl (List.mem_singleton.mp h)))

theorem acquireTurn_waiting {d d' : Demand} (h : Waiting (p.acquireTurn now d d).2 d') :
    Waiting p d' ∨ d' = d := by
  have hspec := attempt_spec now p d
  rcases acquireTurn_cases now p d d with ⟨acc, q, hatt, hturn⟩ | ⟨q, hatt, hturn⟩
  · rw [hturn] at h
    rw [hatt] at hspec
    cases hspec with
    | acquired q id acc swept wanted usable found =>
      simp only [Waiting, Pool.take, swept.waiters, swept.woken] at h
      exact Or.inl h
  · rw [hatt] at hspec
    cases hspec with
    | failed q swept none_usable =>
      rcases hturn with hturn | hturn <;> rw [hturn] at h <;>
        simp only [Waiting, swept.waiters, swept.woken, List.mem_append, List.mem_singleton] at h
      · rcases h with (h | h) | h
        · exact Or.inl (Or.inl h)
        · exact Or.inr h
        · exact Or.inl (Or.inr h)
      · exact Or.inl h

theorem clearHealth_waiting {id : Bytes} (h : Waiting (p.clearHealth id) d) : Waiting p d := by
  unfold Pool.clearHealth at h
  split at h
  · exact h
  · have := notifyWaiterLocked_waiting h
    exact this

/-- Only a call adds a caller. -/
theorem queueStep_waiting {e : QueueEvent} (hq : p.queueStep now e = some q) (h : Waiting q d) :
    Waiting p d ∨ e = .call d := by
  cases e with
  | call d' =>
    cases hq
    exact (acquireTurn_waiting h).imp_right (fun heq => by rw [heq])
  | retry i =>
    simp only [Pool.queueStep] at hq
    split at hq
    · cases hq
    · next d' hi =>
      cases hq
      rcases acquireTurn_waiting h with (h | h) | heq
      · exact Or.inl (Or.inl h)
      · exact Or.inl (Or.inr (List.mem_of_mem_eraseIdx h))
      · exact Or.inl (Or.inr (heq ▸ List.mem_of_getElem? hi))
  | release id =>
    cases hq
    unfold Pool.release at h
    split at h
    · exact Or.inl h
    split at h
    · exact Or.inl h
    · have := notifyWaiterLocked_waiting h
      exact Or.inl this
  | clearHealth id =>
    cases hq
    exact Or.inl (clearHealth_waiting h)
  | markTransient id state untilTime reason =>
    cases hq
    unfold Pool.markTransientAccount at h
    split at h
    · exact Or.inl h
    split at h
    · exact Or.inl (clearHealth_waiting h)
    · have := notifyWaiterLocked_waiting h
      exact Or.inl this
  | applyRuntimeLimits maxInflight maxQueue globalMax =>
    cases hq
    have := notifyWaiterLocked_waiting h
    exact Or.inl this

/-- Nothing is lost and every caller takes any account. -/
structure UntargetedQuiet (now : Int) (p : Pool Demand) : Prop where
  quiet : NoLostWakeup now p
  untargeted : ∀ d, Waiting p d → d = anyAccount

theorem anyAccount_wants {queue : List Bytes} {key : Bytes} :
    anyAccount.Wants queue key ↔ key ∈ queue := by
  simp [anyAccount, Demand.Wants]

variable {e : CancelEvent}

theorem toQueueEvent_call (he : e.toQueueEvent = .inl (.call d)) : d = anyAccount := by
  cases e <;> cases he
  rfl

theorem toQueueEvent_cancel {i : Nat} (he : e.toQueueEvent = .inr i) : e = .cancel i := by
  cases e <;> cases he
  rfl

theorem UntargetedQuiet.passesOn (h : UntargetedQuiet now p) {e' : QueueEvent} (he : e.toQueueEvent = .inl e')
    (hc : p.HandsOver now e) : p.PassesOn now e' := by
  cases e with
  | retry i =>
    cases he
    intro d hw d' hd' key hkey hu
    obtain rfl := h.untargeted d (Or.inr (hw ▸ List.mem_cons_self))
    obtain rfl := h.untargeted d' (Or.inl hd')
    rw [anyAccount_wants] at hkey
    rcases hc (by rw [hw]; rfl) (List.ne_nil_of_mem hd') key hkey hu with ⟨hpos, hcard⟩ | ⟨hlast, honly⟩
    · exact Or.inl ⟨hpos, hcard, key, anyAccount_wants.mpr hkey, hu⟩
    · exact Or.inr ⟨hlast, anyAccount_wants.mpr hkey, fun k hk => honly k (anyAccount_wants.mp hk)⟩
  | cancel i => cases he
  | _ =>
    cases he
    trivial

theorem cancelStep_untargetedQuiet (h : UntargetedQuiet now p) (hc : p.HandsOver now e)
    (hq : p.cancelStep now e = some q) : UntargetedQuiet now q := by
  unfold Pool.cancelStep at hq
  split at hq
  · next e' he =>
    refine ⟨queueStep_noLostWakeup h.quiet (h.passesOn he hc) hq, fun d hd => ?_⟩
    rcases queueStep_waiting hq hd with hd | rfl
    · exact h.untargeted d hd
    · exact toQueueEvent_call he
  · next i he =>
    split at hq
    swap
    · cases hq
    next hi =>
    cases hq
    replace hc : p.HandsOver now (.cancel i) := toQueueEvent_cancel he ▸ hc
    refine ⟨?_, fun d hd => h.untargeted d (hd.imp_right List.mem_of_mem_eraseIdx)⟩
    rw [noLostWakeup_iff]
    intro hw d hd key hkey hu
    obtain rfl := h.untargeted d (Or.inl hd)
    have hlen := List.length_eraseIdx_of_lt hi
    rw [show p.woken.eraseIdx i = [] from hw, List.length_nil] at hlen
    exact hc (by omega) (List.ne_nil_of_mem hd) key (anyAccount_wants.mp hkey)
      (Usable.with_waiters.mp hu)

end Cancel

/-- In every run of a new pool with untargeted callers, no wake-up is lost, by a cancellation
    or otherwise, if the last woken caller always hands over. -/
theorem cancellation_keeps_wakeups (now start : Int) (store : Store) (runtime : Runtime)
    (events : List CancelEvent)
    (h : Runs.Meets (Pool.cancelStep now) (Pool.HandsOver now) (newPool start store runtime) events) :
    Runs.Always (Pool.cancelStep now) (NoLostWakeup now) (newPool start store runtime) events :=
  (Runs.always_of_meets (fun _ _ _ hp hc hq => cancelStep_untargetedQuiet hp hc hq) events _
    ⟨newPool_noLostWakeup now start store runtime,
      fun _ hd => absurd hd (not_or.mpr ⟨List.not_mem_nil, List.not_mem_nil⟩)⟩ h).mono
    (fun _ hp => hp.quiet)

theorem cancellation_keeps_wakeups_example :
    Runs.Always (Pool.cancelStep 0) (NoLostWakeup 0)
      (newPool 0 twoAccountStore { accountMaxInflight := 1 })
      [.call, .call, .call, .call, .release (lit "a@x.io"), .call, .cancel 0] := by
  refine cancellation_keeps_wakeups 0 0 twoAccountStore _ _ (fun p hp => ⟨trivial, fun q hq =>
    ⟨trivial, fun r hr => ⟨trivial, fun t ht => ⟨trivial, fun u hu => ⟨trivial, fun v hv =>
      ⟨trivial, fun w _ => ⟨?_, trivial⟩⟩⟩⟩⟩⟩⟩)
  cases hp
  cases hq
  cases hr
  cases ht
  cases hu
  cases hv
  -- another caller has taken the slot: the one queued behind misses nothing
  intro _ _ key hkey husable
  have hslot := husable.slot
  clear husable
  revert key
  decide +kernel

/-- The woken caller gives up, and the slot it was woken for is offered to nobody. -/
theorem cancellation_swallows_wakeup :
    ¬ Runs.Always (Pool.cancelStep 0) (NoLostWakeup 0)
      (newPool 0 twoAccountStore { accountMaxInflight := 1 })
      [.call, .call, .call, .call, .release (lit "a@x.io"), .cancel 0] := by
  intro h
  have hrun : (Runs.run (Pool.cancelStep 0) (newPool 0 twoAccountStore { accountMaxInflight := 1 })
      [.call, .call, .call, .call, .release (lit "a@x.io"), .cancel 0]).map
      (fun p => (p.woken.length, p.waiters.map (fun d => (p.attempt 0 d).1.isSome))) =
        some (0, [true]) := by decide +kernel
  obtain ⟨p, hp, hobs⟩ := Option.map_eq_some_iff.mp hrun
  obtain ⟨hwoken, hserved⟩ := Prod.mk.inj hobs
  refine not_noLostWakeup (List.length_eq_zero_iff.mp hwoken) ?_ (h.final hp)
  rw [hserved]
  exact List.mem_cons_self

end DeepSeekWebToApi.AccountPool
