import DeepSeekWebToApi.AccountPool.Core

/- What an attempt to acquire does, said once. A key is `Usable` when
   `canAcquireIDLocked` would accept it; an attempt succeeds exactly when some key the
   caller wants is usable, takes one slot under such a key, and otherwise changes
   nothing but health entries that have run out (`Swept`). -/
namespace DeepSeekWebToApi.AccountPool
open GoStrings Config

variable {W : Type}

/-- The health that blocks an account at time `now`. -/
def Pool.liveHealth (now : Int) (p : Pool W) (id : Bytes) : Option Health :=
  (p.health id).filter (fun h => !h.expired now)

/-- What `canAcquireIDLocked` asks of a key. -/
structure Usable (now : Int) (p : Pool W) (id : Bytes) : Prop where
  named : id ≠ []
  enabled : ∃ acc, p.store.findAccount id = some acc ∧ acc.disabled = false
  healthy : p.liveHealth now id = none
  slot : (p.inUse.count id : Int) < p.maxInflightPerAccount
  globalSlot : 0 < p.globalMaxInflight → (p.inUse.card : Int) < p.globalMaxInflight

/-- The same pool, up to health entries that have run out at time `now`. -/
structure Swept (now : Int) (p q : Pool W) : Prop where
  only : q = { p with health := q.health }
  live : ∀ id, q.liveHealth now id = p.liveHealth now id

section Swept
variable {now : Int} {p q r : Pool W}

theorem Swept.refl (now : Int) (p : Pool W) : Swept now p p := ⟨rfl, fun _ => rfl⟩

theorem Swept.trans (h : Swept now p q) (h' : Swept now q r) : Swept now p r := by
  refine ⟨?_, fun id => (h'.live id).trans (h.live id)⟩
  rw [h'.only, h.only]

theorem Swept.store (h : Swept now p q) : q.store = p.store := by rw [h.only]
theorem Swept.queue (h : Swept now p q) : q.queue = p.queue := by rw [h.only]
theorem Swept.inUse (h : Swept now p q) : q.inUse = p.inUse := by rw [h.only]
theorem Swept.waiters (h : Swept now p q) : q.waiters = p.waiters := by rw [h.only]
theorem Swept.woken (h : Swept now p q) : q.woken = p.woken := by rw [h.only]

theorem Swept.maxInflight (h : Swept now p q) :
    q.maxInflightPerAccount = p.maxInflightPerAccount := by rw [h.only]

theorem Swept.globalMax (h : Swept now p q) : q.globalMaxInflight = p.globalMaxInflight := by
  rw [h.only]

theorem Swept.usable_iff (h : Swept now p q) {id : Bytes} : Usable now q id ↔ Usable now p id := by
  constructor
  · rintro ⟨hn, he, hh, hs, hg⟩
    rw [h.store] at he
    rw [h.live] at hh
    rw [h.inUse, h.maxInflight] at hs
    rw [h.inUse, h.globalMax] at hg
    exact ⟨hn, he, hh, hs, hg⟩
  · rintro ⟨hn, he, hh, hs, hg⟩
    rw [← h.store] at he
    rw [← h.live] at hh
    rw [← h.inUse, ← h.maxInflight] at hs
    rw [← h.inUse, ← h.globalMax] at hg
    exact ⟨hn, he, hh, hs, hg⟩

end Swept

/-! `canAcquireIDLocked`. -/

theorem accountHealthLocked_fst (now : Int) (p : Pool W) (id : Bytes) :
    (p.accountHealthLocked now id).1 = p.liveHealth now id := by
  unfold Pool.accountHealthLocked Pool.liveHealth
  cases p.health id with
  | none => rfl
  | some h => cases hx : h.expired now <;> simp [hx, Option.filter_some]

theorem accountHealthLocked_swept (now : Int) (p : Pool W) (id : Bytes) :
    Swept now p (p.accountHealthLocked now id).2 := by
  unfold Pool.accountHealthLocked
  cases hh : p.health id with
  | none => exact Swept.refl now p
  | some h =>
    by_cases hx : h.expired now = true
    swap
    · simp only [if_neg hx]
      exact Swept.refl now p
    · simp only [if_pos hx]
      refine ⟨rfl, fun id' => ?_⟩
      by_cases hid : id' = id
      · simp [Pool.liveHealth, hid, hh, hx, Option.filter_some]
      · simp [Pool.liveHealth, Function.update_of_ne hid]

theorem canAcquireIDLocked_swept (now : Int) (p : Pool W) (id : Bytes) :
    Swept now p (p.canAcquireIDLocked now id).2 := by
  have hsw := accountHealthLocked_swept now p id
  unfold Pool.canAcquireIDLocked
  split
  · exact Swept.refl now p
  split
  · exact Swept.refl now p
  split
  · exact Swept.refl now p
  split
  · next heq =>
    rw [heq] at hsw
    exact hsw
  · next heq =>
    rw [heq] at hsw
    split
    · exact hsw
    split <;> exact hsw

theorem canAcquireIDLocked_fst (now : Int) (p : Pool W) (id : Bytes) :
    (p.canAcquireIDLocked now id).1 = true ↔ Usable now p id := by
  have hsw := accountHealthLocked_swept now p id
  have hfst := accountHealthLocked_fst now p id
  unfold Pool.canAcquireIDLocked
  split
  · next hid => exact iff_of_false Bool.false_ne_true (fun hu => hu.named hid)
  next hid =>
  split
  · next hacc =>
    refine iff_of_false Bool.false_ne_true (fun hu => ?_)
    obtain ⟨acc, h, -⟩ := hu.enabled
    rw [hacc] at h
    cases h
  next acc hacc =>
  split
  · next hdis =>
    refine iff_of_false Bool.false_ne_true (fun hu => ?_)
    obtain ⟨acc', h, hen⟩ := hu.enabled
    rw [hacc] at h
    obtain rfl := Option.some.inj h
    rw [hdis] at hen
    cases hen
  next hdis =>
  split
  · next heq =>
    refine iff_of_false Bool.false_ne_true (fun hu => ?_)
    rw [heq] at hfst
    rw [hu.healthy] at hfst
    cases hfst
  next q heq =>
  rw [heq] at hsw hfst
  rw [hsw.inUse, hsw.maxInflight, hsw.globalMax]
  split
  · next hc => exact iff_of_false Bool.false_ne_true (fun hu => absurd hu.slot (Int.not_lt.mpr hc))
  next hc =>
  split
  · next hg =>
    refine iff_of_false Bool.false_ne_true (fun hu => ?_)
    exact absurd (hu.globalSlot hg.1) (Int.not_lt.mpr hg.2)
  · next hg =>
    refine iff_of_true rfl ⟨hid, ⟨acc, hacc, Bool.eq_false_iff.mpr hdis⟩, hfst.symm,
      Int.not_le.mp hc, fun hpos => Int.not_le.mp (fun hle => hg ⟨hpos, hle⟩)⟩

/-! Attempts. -/

/-- The keys a caller can be served under. -/
def Demand.Wants (queue : List Bytes) : Demand → Bytes → Prop
  | .wait target exclude, id => exclude id = false ∧ (if target ≠ [] then id = target else id ∈ queue)
  | .preferred first exclude, id => exclude id = false ∧ (first ≠ [] ∧ id = first ∨ id ∈ queue)

/-- What an attempt for one of the keys `wants` answers: a slot under a usable key, or
    nothing because no key is usable. -/
inductive Attempted (now : Int) (p : Pool W) (wants : Bytes → Prop) :
    Option Account × Pool W → Prop
  | acquired (q : Pool W) (key : Bytes) (acc : Account) (swept : Swept now p q) (wanted : wants key)
      (usable : Usable now p key) (found : p.store.findAccount key = some acc) :
      Attempted now p wants (some acc, q.take key)
  | failed (q : Pool W) (swept : Swept now p q) (none_usable : ∀ key, wants key → ¬ Usable now p key) :
      Attempted now p wants (none, q)

section Attempts
variable {now : Int} {p : Pool W}

theorem Attempted.congr {wants wants' : Bytes → Prop} (h : ∀ id, wants id ↔ wants' id)
    {x : Option Account × Pool W} (ha : Attempted now p wants x) : Attempted now p wants' x := by
  cases ha with
  | acquired q key acc swept wanted usable found =>
    exact .acquired q key acc swept ((h key).mp wanted) usable found
  | failed q swept none_usable =>
    exact .failed q swept (fun key hk => none_usable key ((h key).mpr hk))

/-- A sweep before an attempt makes no difference. -/
theorem Attempted.of_swept {wants : Bytes → Prop} {q : Pool W} (hpq : Swept now p q)
    {x : Option Account × Pool W} (ha : Attempted now q wants x) : Attempted now p wants x := by
  cases ha with
  | acquired r key acc swept wanted usable found =>
    exact .acquired r key acc (hpq.trans swept) wanted (hpq.usable_iff.mp usable)
      (hpq.store ▸ found)
  | failed r swept none_usable =>
    exact .failed r (hpq.trans swept) (fun key hk hu => none_usable key hk (hpq.usable_iff.mpr hu))

/-- An attempt for one more key, tried first and found unusable. -/
theorem Attempted.cons {wants : Bytes → Prop} (id : Bytes)
    (hid : wants id → ¬ Usable now p id) {x : Option Account × Pool W} {rest : Bytes → Prop}
    (hrest : ∀ key, wants key ↔ key = id ∧ wants id ∨ rest key)
    (ha : Attempted now p rest x) : Attempted now p wants x := by
  cases ha with
  | acquired q key acc swept wanted usable found =>
    exact .acquired q key acc swept ((hrest key).mpr (Or.inr wanted)) usable found
  | failed q swept none_usable =>
    refine .failed q swept (fun key hk => ?_)
    rcases (hrest key).mp hk with ⟨rfl, hw⟩ | hr
    · exact hid hw
    · exact none_usable key hr

theorem tryAcquireFrom_spec (now : Int) (exclude : Bytes → Bool) : ∀ (ids : List Bytes) (p : Pool W),
    Attempted now p (fun id => exclude id = false ∧ id ∈ ids) (tryAcquireFrom now exclude ids p)
  | [], p => .failed p (Swept.refl now p) (fun _ h => absurd h.2 List.not_mem_nil)
  | id :: rest, p => by
    have hsw := canAcquireIDLocked_swept now p id
    have huse := canAcquireIDLocked_fst now p id
    have hwants : ∀ key, (exclude key = false ∧ key ∈ id :: rest) ↔
        key = id ∧ (exclude id = false ∧ id ∈ id :: rest) ∨ (exclude key = false ∧ key ∈ rest) := by
      intro key
      rw [List.mem_cons]
      constructor
      · rintro ⟨he, rfl | hm⟩
        · exact Or.inl ⟨rfl, he, List.mem_cons_self⟩
        · exact Or.inr ⟨he, hm⟩
      · rintro (⟨rfl, he, -⟩ | ⟨he, hm⟩)
        · exact ⟨he, Or.inl rfl⟩
        · exact ⟨he, Or.inr hm⟩
    rw [tryAcquireFrom]
    by_cases hex : exclude id = true
    · rw [if_pos hex]
      refine (tryAcquireFrom_spec now exclude rest p).cons id (fun hw => ?_) hwants
      rw [hex] at hw
      cases hw.1
    rw [if_neg hex]
    split
    · -- the key is not usable
      next q heq =>
      rw [heq] at hsw huse
      have hno : ¬ Usable now p id := fun hu => Bool.false_ne_true (huse.mpr hu)
      exact ((tryAcquireFrom_spec now exclude rest q).of_swept hsw).cons id (fun _ => hno) hwants
    · next q heq =>
      rw [heq] at hsw huse
      have hu := huse.mp rfl
      obtain ⟨acc, hacc, -⟩ := hu.enabled
      have hq : q.store.findAccount id = some acc := hsw.store ▸ hacc
      rw [hq]
      exact .acquired q id acc hsw ⟨Bool.eq_false_iff.mpr hex, List.mem_cons_self⟩ hu hacc

theorem acquireLocked_spec (now : Int) (p : Pool W) (target : Bytes) (exclude : Bytes → Bool) :
    Attempted now p (Demand.Wants p.queue (.wait target exclude))
      (p.acquireLocked now target exclude) := by
  have hsw := canAcquireIDLocked_swept now p target
  have huse := canAcquireIDLocked_fst now p target
  unfold Pool.acquireLocked
  by_cases ht : target ≠ []
  · have hwants : ∀ key, Demand.Wants p.queue (.wait target exclude) key ↔
        exclude key = false ∧ key = target := by
      intro key
      rw [Demand.Wants, if_pos ht]
    rw [if_pos ht]
    split
    · next hex =>
      refine .failed p (Swept.refl now p) (fun key hk => ?_)
      obtain ⟨he, rfl⟩ := (hwants key).mp hk
      rw [hex] at he
      cases he
    · next hex =>
      split
      · next q heq =>
        rw [heq] at hsw huse
        refine .failed q hsw (fun key hk hu => ?_)
        obtain ⟨-, rfl⟩ := (hwants key).mp hk
        exact Bool.false_ne_true (huse.mpr hu)
      · next q heq =>
        rw [heq] at hsw huse
        have hu := huse.mp rfl
        obtain ⟨acc, hacc, -⟩ := hu.enabled
        have hq : q.store.findAccount target = some acc := hsw.store ▸ hacc
        rw [hq]
        exact .acquired q target acc hsw
          ((hwants target).mpr ⟨Bool.eq_false_iff.mpr hex, rfl⟩) hu hacc
  · rw [if_neg ht]
    refine (tryAcquireFrom_spec now exclude p.queue p).congr (fun id => ?_)
    rw [Demand.Wants, if_neg ht]

theorem acquirePreferredLocked_spec (now : Int) (p : Pool W) (preferred : Bytes)
    (exclude : Bytes → Bool) :
    Attempted now p (Demand.Wants p.queue (.preferred preferred exclude))
      (p.acquirePreferredLocked now preferred exclude) := by
  have htry : ∀ q : Pool W, Attempted now q (fun id => exclude id = false ∧ id ∈ q.queue)
      (q.tryAcquire now exclude) := fun q => tryAcquireFrom_spec now exclude q.queue q
  unfold Pool.acquirePreferredLocked
  by_cases ht : preferred ≠ []
  · rw [if_pos ht]
    have hfirst := acquireLocked_spec now p preferred exclude
    split
    · next acc q heq =>
      rw [heq] at hfirst
      cases hfirst with
      | acquired q key acc swept wanted usable found =>
        rw [Demand.Wants, if_pos ht] at wanted
        exact .acquired q key acc swept ⟨wanted.1, Or.inl ⟨ht, wanted.2⟩⟩ usable found
    · next q heq =>
      rw [heq] at hfirst
      cases hfirst with
      | failed _ swept none_usable =>
        have hrest := (htry q).of_swept swept
        rw [swept.queue] at hrest
        refine hrest.cons preferred (fun hw => ?_) (fun key => ?_)
        · exact none_usable preferred (by rw [Demand.Wants, if_pos ht]; exact ⟨hw.1, rfl⟩)
        · constructor
          · rintro ⟨he, ⟨-, rfl⟩ | hm⟩
            · exact Or.inl ⟨rfl, he, Or.inl ⟨ht, rfl⟩⟩
            · exact Or.inr ⟨he, hm⟩
          · rintro (⟨rfl, hw⟩ | ⟨he, hm⟩)
            · exact hw
            · exact ⟨he, Or.inr hm⟩
  · rw [if_neg ht]
    refine (htry p).congr (fun id => ?_)
    constructor
    · rintro ⟨he, hm⟩
      exact ⟨he, Or.inr hm⟩
    · rintro ⟨he, ⟨h, -⟩ | hm⟩
      · exact absurd h ht
      · exact ⟨he, hm⟩

/-- Any attempt serves a usable key the caller wants, or finds none. -/
theorem attempt_spec (now : Int) (p : Pool W) (d : Demand) :
    Attempted now p (d.Wants p.queue) (p.attempt now d) := by
  cases d with
  | wait target exclude => exact acquireLocked_spec now p target exclude
  | preferred preferred exclude => exact acquirePreferredLocked_spec now p preferred exclude

/-- What one turn of the waiting loops comes to. -/
theorem acquireTurn_cases (now : Int) (p : Pool W) (waiter : W) (d : Demand) :
    (∃ acc q, p.attempt now d = (some acc, q) ∧ p.acquireTurn now waiter d = (.acquired acc, q)) ∨
    (∃ q, p.attempt now d = (none, q) ∧
      (p.acquireTurn now waiter d = (.queued, { q with waiters := q.waiters ++ [waiter] }) ∨
        p.acquireTurn now waiter d = (.refused, q))) := by
  unfold Pool.acquireTurn
  split
  · next acc q heq => exact Or.inl ⟨acc, q, heq, rfl⟩
  · next q heq =>
    refine Or.inr ⟨q, heq, ?_⟩
    split
    · exact Or.inl rfl
    · exact Or.inr rfl

end Attempts

end DeepSeekWebToApi.AccountPool
