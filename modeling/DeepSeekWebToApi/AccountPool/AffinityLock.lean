import Mathlib.Data.List.Basic
import Mathlib.Logic.Function.Basic
import DeepSeekWebToApi.Lib.Runs
import DeepSeekWebToApi.Lib.Strings

/- The lock that `Affinity.Lock` gives out for a session key. Two kinds of mutex are at work:
   `a.mu` guards the table of lock objects and their reference counts, the mutex of a lock
   object is the one the callers of `Lock` wait for. `unlock` drops the second before it takes
   the first, and whoever brings the count of an object to zero takes it out of the table.

   A call is one goroutine on its way through `Lock` and the function it returns. Every access
   to shared data is a step of its own, and the steps of all calls interleave freely. A lock
   object is the number of objects made before it.

   What is proved of every run: the callers that `Lock` let through for one key are never two
   (`Exclusive`), the count of an object in the table is the number of calls that took a
   reference and have not given it back (`Counted`), an object with a holder or a waiter stays
   in the table (`Kept`), and the table is empty behind the last call (`Emptied`). -/
namespace DeepSeekWebToApi.AccountPool.AffinityLock
open GoStrings Runs

/-- Where a call is in `Lock` and in the function it returned. -/
inductive Phase where
  /-- At `a.mu.Lock()`. -/
  | entering (key : Bytes)
  /-- At `a.locks[key]`, with `a.mu`. -/
  | looking (key : Bytes)
  /-- At `l.refs++`, with `a.mu`. -/
  | counting (key : Bytes) (l : Nat)
  /-- At `a.mu.Unlock()`. -/
  | counted (key : Bytes) (l : Nat)
  /-- At `l.mu.Lock()`. -/
  | waiting (key : Bytes) (l : Nat)
  /-- `Lock` has returned, `l.mu.Unlock()` is still to come. -/
  | holding (key : Bytes) (l : Nat)
  /-- In `unlock` at `a.mu.Lock()`. -/
  | leaving (key : Bytes) (l : Nat)
  /-- At `l.refs--`, with `a.mu`. -/
  | releasing (key : Bytes) (l : Nat)
  /-- At the test for `delete`, with `a.mu`. -/
  | released (key : Bytes) (l : Nat)
  /-- At the last `a.mu.Unlock()`. -/
  | closing
  /-- `Lock` returned the function that does nothing. -/
  | unguarded
  | done
  deriving DecidableEq

/-- The call has `a.mu`. -/
def Phase.inside : Phase → Bool
  | .looking _ | .counting _ _ | .counted _ _ | .releasing _ _ | .released _ _ | .closing => true
  | _ => false

/-- The lock object the call has in its hands, and the key it found it under. -/
def Phase.lock : Phase → Option (Bytes × Nat)
  | .counting key l | .counted key l | .waiting key l | .holding key l | .leaving key l
  | .releasing key l | .released key l => some (key, l)
  | _ => none

/-- The call has taken a reference to `l` and not given it back. -/
def Phase.refers (l : Nat) : Phase → Bool
  | .counted _ m | .waiting _ m | .holding _ m | .leaving _ m | .releasing _ m => m == l
  | _ => false

/-- The call holds `l` or waits for it. -/
def Phase.attends (l : Nat) : Phase → Bool
  | .counted _ m | .waiting _ m | .holding _ m => m == l
  | _ => false

def Phase.holds (l : Nat) : Phase → Bool
  | .holding _ m => m == l
  | _ => false

structure Locks where
  /-- `a.mu` is locked. -/
  mu : Bool
  locks : Bytes → Option Nat
  refs : Nat → Int
  /-- `l.mu` is locked. -/
  held : Nat → Bool
  made : Nat
  calls : List Phase

def Locks.start : Locks := ⟨false, fun _ => none, fun _ => 0, fun _ => false, 0, []⟩

def Locks.goto (s : Locks) (i : Nat) (p : Phase) : Locks := { s with calls := s.calls.set i p }

/-- The next step of the call `i`, which is at the phase given; `none` while it has to wait. -/
def Locks.advance (s : Locks) (i : Nat) : Phase → Option Locks
  | .entering key => if s.mu then none else some ({ s with mu := true }.goto i (.looking key))
  | .looking key =>
    match s.locks key with
    | some l => some (s.goto i (.counting key l))
    | none =>
      some ({ s with
        locks := Function.update s.locks key (some s.made)
        refs := Function.update s.refs s.made 0
        held := Function.update s.held s.made false
        made := s.made + 1 }.goto i (.counting key s.made))
  | .counting key l =>
    some ({ s with refs := Function.update s.refs l (s.refs l + 1) }.goto i (.counted key l))
  | .counted key l => some ({ s with mu := false }.goto i (.waiting key l))
  | .waiting key l =>
    if s.held l then none
    else some ({ s with held := Function.update s.held l true }.goto i (.holding key l))
  | .holding key l => some ({ s with held := Function.update s.held l false }.goto i (.leaving key l))
  | .leaving key l => if s.mu then none else some ({ s with mu := true }.goto i (.releasing key l))
  | .releasing key l =>
    some ({ s with refs := Function.update s.refs l (s.refs l - 1) }.goto i (.released key l))
  | .released key l =>
    if s.refs l ≤ 0 ∧ s.locks key = some l then
      some ({ s with locks := Function.update s.locks key none }.goto i .closing)
    else some (s.goto i .closing)
  | .closing => some ({ s with mu := false }.goto i .done)
  | .unguarded => some (s.goto i .done)
  | .done => none

inductive Action where
  /-- A goroutine calls `Lock(key)`. -/
  | call (key : Bytes)
  | advance (i : Nat)

def step (s : Locks) : Action → Option Locks
  | .call key =>
    some { s with calls := s.calls ++ [if key = [] then .unguarded else .entering key] }
  | .advance i => s.calls[i]?.bind (s.advance i)

/-! ## Counting the calls in a phase -/

section
variable {α : Type} {f : α → Bool} {l : List α} {i : Nat}

theorem countP_set {a : α} (h : l[i]? = some a) (b : α) :
    (l.set i b).countP f + (f a).toNat = l.countP f + (f b).toNat := by
  induction l generalizing i with
  | nil => cases h
  | cons x xs ih =>
    cases i with
    | zero =>
      obtain rfl : x = a := by simpa using h
      rw [List.set_cons_zero, List.countP_cons, List.countP_cons]
      cases f x <;> cases f b <;> simp
    | succ j =>
      have hrest := ih (i := j) (by simpa using h)
      rw [List.set_cons_succ, List.countP_cons, List.countP_cons]
      omega

/-- Of a kind that occurs at most once there is one place. -/
theorem place_unique {i j : Nat} {a b : α} (hone : l.countP f ≤ 1) (hi : l[i]? = some a) (hj : l[j]? = some b)
    (ha : f a = true) (hb : f b = true) : i = j := by
  induction l generalizing i j with
  | nil => cases hi
  | cons x xs ih =>
    have hpos : ∀ {k : Nat} {c : α}, xs[k]? = some c → f c = true → 0 < xs.countP f := by
      intro k c hk hc
      exact List.countP_pos_iff.mpr ⟨c, List.mem_of_getElem? hk, hc⟩
    rw [List.countP_cons] at hone
    cases i with
    | zero =>
      cases j with
      | zero => rfl
      | succ j =>
        obtain rfl : x = a := by simpa using hi
        have := hpos (by simpa using hj) hb
        rw [if_pos ha] at hone
        omega
    | succ i =>
      cases j with
      | zero =>
        obtain rfl : x = b := by simpa using hj
        have := hpos (by simpa using hi) ha
        rw [if_pos hb] at hone
        omega
      | succ j =>
        have hrest : i = j := ih (by omega) (by simpa using hi) (by simpa using hj)
        rw [hrest]

/-- What is in a list behind a change is the new element or was at another place. -/
theorem mem_set_cases {b c : α} (h : c ∈ l.set i b) : c = b ∨ ∃ j, j ≠ i ∧ l[j]? = some c := by
  obtain ⟨j, hj⟩ := List.mem_iff_getElem?.mp h
  rw [List.getElem?_set] at hj
  split at hj
  · split at hj
    · exact Or.inl (Option.some.inj hj).symm
    · cases hj
  · next hne => exact Or.inr ⟨j, fun h => hne h.symm, hj⟩

theorem mem_set_of_ne {a b c : α} (h : l[i]? = some a) (hc : c ∈ l) (hne : c ≠ a) : c ∈ l.set i b := by
  obtain ⟨j, hj⟩ := List.mem_iff_getElem?.mp hc
  have hij : i ≠ j := by
    rintro rfl
    exact hne (Option.some.inj (hj.symm.trans h))
  exact List.mem_iff_getElem?.mpr ⟨j, by rw [List.getElem?_set_ne hij]; exact hj⟩

theorem mem_set_self {a b : α} (h : l[i]? = some a) : b ∈ l.set i b := by
  obtain ⟨hlt, -⟩ := List.getElem?_eq_some_iff.mp h
  exact List.mem_iff_getElem?.mpr ⟨i, by rw [List.getElem?_set_self hlt]⟩

end

/-! ## What the mutexes and the counts stand for -/

/-- Each mutex is locked by the one call that has it, and each count is that of the calls that refer
    to the object. -/
structure Counts (s : Locks) : Prop where
  guard : s.calls.countP Phase.inside = s.mu.toNat
  held : ∀ l, s.calls.countP (Phase.holds l) = (s.held l).toNat
  refs : ∀ l, s.refs l = (s.calls.countP (Phase.refers l) : Int)

/-- The table and the calls agree on the object of a key, and no object is there for nobody. -/
structure Tabled (s : Locks) : Prop where
  entry : ∀ p ∈ s.calls, ∀ key l, p.lock = some (key, l) → s.locks key = some l
  made : ∀ key l, s.locks key = some l → l < s.made
  apart : ∀ key key' l, s.locks key = some l → s.locks key' = some l → key = key'
  live : ∀ key l, s.locks key = some l → ∃ p ∈ s.calls, p.lock = some (key, l)

variable {p : Phase} {l : Nat}

theorem Phase.lock_of_refers (h : p.refers l = true) : ∃ key, p.lock = some (key, l) := by
  cases p <;> simp [Phase.refers, Phase.lock] at h ⊢ <;> exact h

variable {key : Bytes}

theorem Phase.refers_or_inside (h : p.lock = some (key, l)) : p.refers l = true ∨ p.inside = true := by
  cases p <;> simp_all [Phase.refers, Phase.lock, Phase.inside]

theorem Phase.refers_of_attends (h : p.attends l = true) : p.refers l = true := by
  cases p <;> simp_all [Phase.refers, Phase.attends]

variable {s t : Locks} {i : Nat}

/-- A step that leaves the table alone and keeps the object in the hands of its call. -/
theorem Tabled.goto {a b : Phase} (h : Tabled s) (hi : s.calls[i]? = some a)
    (hcalls : t.calls = s.calls.set i b) (hlocks : t.locks = s.locks) (hmade : t.made = s.made)
    (hlock : b.lock = a.lock) : Tabled t := by
  refine ⟨?_, ?_, ?_, ?_⟩
  · intro p hp key l hpl
    rw [hcalls] at hp
    rw [hlocks]
    rcases mem_set_cases hp with rfl | ⟨j, -, hj⟩
    · exact h.entry a (List.mem_of_getElem? hi) key l (hlock ▸ hpl)
    · exact h.entry p (List.mem_of_getElem? hj) key l hpl
  · intro key l hl
    rw [hlocks] at hl
    rw [hmade]
    exact h.made key l hl
  · intro key key' l hl hl'
    rw [hlocks] at hl hl'
    exact h.apart key key' l hl hl'
  · intro key l hl
    rw [hlocks] at hl
    rw [hcalls]
    obtain ⟨p, hp, hpl⟩ := h.live key l hl
    by_cases hpa : p = a
    · exact ⟨b, mem_set_self hi, by rw [hlock, ← hpa]; exact hpl⟩
    · exact ⟨p, mem_set_of_ne hi hp hpa, hpl⟩

variable {s : Locks}

/-- A call that finds an object for its key. -/
theorem Tabled.found (h : Tabled s) (hi : s.calls[i]? = some (.looking key)) (hl : s.locks key = some l) :
    Tabled (s.goto i (.counting key l)) := by
  refine ⟨?_, h.made, h.apart, ?_⟩
  · intro p hp key' l' hpl
    rcases mem_set_cases hp with rfl | ⟨j, -, hj⟩
    · obtain ⟨rfl, rfl⟩ : key = key' ∧ l = l' := by simpa [Phase.lock] using hpl
      exact hl
    · exact h.entry p (List.mem_of_getElem? hj) key' l' hpl
  · intro key' l' hl'
    obtain ⟨p, hp, hpl⟩ := h.live key' l' hl'
    have hne : p ≠ .looking key := by
      rintro rfl
      cases hpl
    exact ⟨p, mem_set_of_ne hi hp hne, hpl⟩

/-- A call that puts a new object into the table. -/
theorem Tabled.created (h : Tabled s) (hi : s.calls[i]? = some (.looking key)) (hnone : s.locks key = none)
    (hcalls : t.calls = s.calls.set i (.counting key s.made))
    (hlocks : t.locks = Function.update s.locks key (some s.made)) (hmade : t.made = s.made + 1) :
    Tabled t := by
  have hcases : ∀ {key' l'}, t.locks key' = some l' →
      key' = key ∧ l' = s.made ∨ key' ≠ key ∧ s.locks key' = some l' := by
    intro key' l' hl'
    rw [hlocks] at hl'
    by_cases hk : key' = key
    · subst hk
      rw [Function.update_self] at hl'
      exact Or.inl ⟨rfl, (Option.some.inj hl').symm⟩
    · rw [Function.update_of_ne hk] at hl'
      exact Or.inr ⟨hk, hl'⟩
  refine ⟨?_, ?_, ?_, ?_⟩
  · intro p hp key' l' hpl
    rw [hcalls] at hp
    rw [hlocks]
    rcases mem_set_cases hp with rfl | ⟨j, -, hj⟩
    · obtain ⟨rfl, rfl⟩ : key = key' ∧ s.made = l' := by simpa [Phase.lock] using hpl
      exact Function.update_self ..
    · have hl' := h.entry p (List.mem_of_getElem? hj) key' l' hpl
      have hk : key' ≠ key := by
        rintro rfl
        rw [hnone] at hl'
        cases hl'
      rw [Function.update_of_ne hk]
      exact hl'
  · intro key' l' hl'
    rw [hmade]
    rcases hcases hl' with ⟨-, rfl⟩ | ⟨-, hl'⟩
    · exact Nat.lt_succ_self _
    · exact Nat.lt_succ_of_lt (h.made key' l' hl')
  · intro key₁ key₂ l' h₁ h₂
    rcases hcases h₁ with ⟨rfl, rfl⟩ | ⟨-, h₁⟩ <;> rcases hcases h₂ with ⟨rfl, heq⟩ | ⟨-, h₂⟩
    · rfl
    · exact absurd (h.made _ _ h₂) (Nat.lt_irrefl _)
    · rw [heq] at h₁
      exact absurd (h.made _ _ h₁) (Nat.lt_irrefl _)
    · exact h.apart _ _ _ h₁ h₂
  · intro key' l' hl'
    rw [hcalls]
    rcases hcases hl' with ⟨rfl, rfl⟩ | ⟨-, hl'⟩
    · exact ⟨_, mem_set_self hi, rfl⟩
    · obtain ⟨p, hp, hpl⟩ := h.live key' l' hl'
      have hne : p ≠ .looking key := by
        rintro rfl
        cases hpl
      exact ⟨p, mem_set_of_ne hi hp hne, hpl⟩

/-- A call that leaves an object to those who still refer to it. -/
theorem Tabled.left (h : Tabled s) (hc : Counts s) (hi : s.calls[i]? = some (.released key l))
    (hkeep : ¬ (s.refs l ≤ 0 ∧ s.locks key = some l)) : Tabled (s.goto i .closing) := by
  have hl : s.locks key = some l := h.entry _ (List.mem_of_getElem? hi) key l rfl
  refine ⟨?_, h.made, h.apart, ?_⟩
  · intro p hp key' l' hpl
    rcases mem_set_cases hp with rfl | ⟨j, -, hj⟩
    · cases hpl
    · exact h.entry p (List.mem_of_getElem? hj) key' l' hpl
  · intro key' l' hl'
    obtain ⟨p, hp, hpl⟩ := h.live key' l' hl'
    by_cases hpa : p = .released key l
    · -- its own entry: a positive count names another call, and that call found it under this key
      subst hpa
      obtain ⟨rfl, rfl⟩ : key = key' ∧ l = l' := by simpa [Phase.lock] using hpl
      have hpos : 0 < s.calls.countP (Phase.refers l) := by
        have hrefs : ¬ s.refs l ≤ 0 := fun hle => hkeep ⟨hle, hl⟩
        rw [hc.refs l] at hrefs
        omega
      obtain ⟨q, hq, hqr⟩ := List.countP_pos_iff.mp hpos
      obtain ⟨key₂, hql⟩ := Phase.lock_of_refers hqr
      have hkey : key₂ = key := h.apart key₂ key l (h.entry q hq key₂ l hql) hl
      have hne : q ≠ .released key l := by
        rintro rfl
        cases hqr
      exact ⟨q, mem_set_of_ne hi hq hne, hkey ▸ hql⟩
    · exact ⟨p, mem_set_of_ne hi hp hpa, hpl⟩

/-- A call that takes out the object nobody refers to any more. -/
theorem Tabled.deleted (h : Tabled s) (hc : Counts s) (hi : s.calls[i]? = some (.released key l))
    (hzero : s.refs l ≤ 0) : Tabled ({ s with locks := Function.update s.locks key none }.goto i .closing) := by
  have hl : s.locks key = some l := h.entry _ (List.mem_of_getElem? hi) key l rfl
  have hcases : ∀ {key' l'}, Function.update s.locks key none key' = some l' →
      key' ≠ key ∧ s.locks key' = some l' := by
    intro key' l' hl'
    by_cases hk : key' = key
    · subst hk
      rw [Function.update_self] at hl'
      cases hl'
    · rw [Function.update_of_ne hk] at hl'
      exact ⟨hk, hl'⟩
  refine ⟨?_, ?_, ?_, ?_⟩
  · intro p hp key' l' hpl
    rcases mem_set_cases hp with rfl | ⟨j, hji, hj⟩
    · cases hpl
    · have hpm : p ∈ s.calls := List.mem_of_getElem? hj
      have hl' := h.entry p hpm key' l' hpl
      have hk : key' ≠ key := by
        rintro rfl
        obtain rfl : l = l' := Option.some.inj (hl.symm.trans hl')
        rcases Phase.refers_or_inside hpl with hr | hin
        · have hpos : 0 < s.calls.countP (Phase.refers l) := List.countP_pos_iff.mpr ⟨p, hpm, hr⟩
          rw [hc.refs l] at hzero
          omega
        · -- a second call with `a.mu`
          have hone : s.calls.countP Phase.inside ≤ 1 := hc.guard ▸ Bool.toNat_le s.mu
          exact hji (place_unique hone hj hi hin rfl)
      show Function.update s.locks key none key' = some l'
      rw [Function.update_of_ne hk]
      exact hl'
  · intro key' l' hl'
    exact h.made key' l' (hcases hl').2
  · intro key₁ key₂ l' h₁ h₂
    exact h.apart key₁ key₂ l' (hcases h₁).2 (hcases h₂).2
  · intro key' l' hl'
    obtain ⟨hk, hl'⟩ := hcases hl'
    obtain ⟨p, hp, hpl⟩ := h.live key' l' hl'
    have hne : p ≠ .released key l := by
      rintro rfl
      obtain ⟨rfl, -⟩ : key = key' ∧ l = l' := by simpa [Phase.lock] using hpl
      exact hk rfl
    exact ⟨p, mem_set_of_ne hi hp hne, hpl⟩

/-! ## A step of a call -/

/-- A step that changes a mutex or a count by as much as its call changes phase. -/
theorem Counts.goto {a b : Phase} (h : Counts s) (hi : s.calls[i]? = some a)
    (hcalls : t.calls = s.calls.set i b) (hmu : t.mu.toNat + a.inside.toNat = s.mu.toNat + b.inside.toNat)
    (hheld : ∀ l, (t.held l).toNat + (a.holds l).toNat = (s.held l).toNat + (b.holds l).toNat)
    (hrefs : ∀ l, t.refs l + (a.refers l).toNat = s.refs l + (b.refers l).toNat) : Counts t := by
  refine ⟨?_, fun l => ?_, fun l => ?_⟩
  · have hset := countP_set (f := Phase.inside) hi b
    have hguard := h.guard
    rw [hcalls]
    omega
  · have hset := countP_set (f := Phase.holds l) hi b
    have hsl := h.held l
    have htl := hheld l
    rw [hcalls]
    omega
  · have hset := countP_set (f := Phase.refers l) hi b
    have hsl := h.refs l
    have htl := hrefs l
    rw [hcalls]
    omega

theorem Counts.mu_of_inside {a : Phase} (h : Counts s) (hi : s.calls[i]? = some a) (ha : a.inside = true) :
    s.mu = true := by
  have hpos : 0 < s.calls.countP Phase.inside := List.countP_pos_iff.mpr ⟨a, List.mem_of_getElem? hi, ha⟩
  rw [h.guard] at hpos
  cases hmu : s.mu with
  | true => rfl
  | false =>
    rw [hmu] at hpos
    exact absurd hpos (Nat.lt_irrefl 0)

theorem Counts.held_of_holding (h : Counts s) (hi : s.calls[i]? = some (.holding key l)) : s.held l = true := by
  have hpos : 0 < s.calls.countP (Phase.holds l) :=
    List.countP_pos_iff.mpr ⟨_, List.mem_of_getElem? hi, by simp [Phase.holds]⟩
  rw [h.held l] at hpos
  cases hheld : s.held l with
  | true => rfl
  | false =>
    rw [hheld] at hpos
    exact absurd hpos (Nat.lt_irrefl 0)

/-- Nobody refers to an object that is still to be made. -/
theorem Tabled.unmade (h : Tabled s) : s.calls.countP (Phase.refers s.made) = 0 := by
  refine List.countP_eq_zero.mpr fun p hp hr => ?_
  obtain ⟨key, hpl⟩ := Phase.lock_of_refers hr
  exact absurd (h.made key s.made (h.entry p hp key s.made hpl)) (Nat.lt_irrefl _)

theorem Phase.refers_of_holds (h : p.holds l = true) : p.refers l = true := by
  cases p <;> simp_all [Phase.refers, Phase.holds]

theorem Counts.unmade (h : Counts s) (ht : Tabled s) : s.refs s.made = 0 ∧ s.held s.made = false := by
  have hzero := ht.unmade
  refine ⟨by rw [h.refs, hzero]; rfl, ?_⟩
  have hle : s.calls.countP (Phase.holds s.made) ≤ s.calls.countP (Phase.refers s.made) :=
    List.countP_mono_left fun p _ hp => Phase.refers_of_holds hp
  rw [hzero, h.held] at hle
  cases hheld : s.held s.made with
  | false => rfl
  | true =>
    rw [hheld] at hle
    exact absurd hle (by decide)

structure Inv (s : Locks) : Prop where
  counts : Counts s
  tabled : Tabled s

/-- Every step of a call keeps the counts and the table. -/
theorem Inv.advance {a : Phase} (h : Inv s) (hi : s.calls[i]? = some a) (ht : s.advance i a = some t) : Inv t := by
  obtain ⟨hc, htab⟩ := h
  cases a with
  | entering _ | leaving _ _ =>
    simp only [Locks.advance] at ht
    split at ht
    · cases ht
    · next hmu =>
      cases ht
      refine ⟨hc.goto hi rfl ?_ (fun l => rfl) (fun l => rfl), htab.goto hi rfl rfl rfl rfl⟩
      simp [Locks.goto, Phase.inside, hmu]
  | looking key =>
    simp only [Locks.advance] at ht
    split at ht
    · next l hl =>
      cases ht
      exact ⟨hc.goto hi rfl rfl (fun l => rfl) (fun l => rfl), htab.found hi hl⟩
    · next hnone =>
      cases ht
      obtain ⟨hrefs, hheld⟩ := hc.unmade htab
      refine ⟨hc.goto hi rfl rfl (fun l => ?_) (fun l => ?_), htab.created hi hnone rfl rfl rfl⟩
      · rcases eq_or_ne l s.made with rfl | hl
        · simp [Locks.goto, Phase.holds, hheld]
        · simp [Locks.goto, Phase.holds, Function.update_of_ne hl]
      · rcases eq_or_ne l s.made with rfl | hl
        · simp [Locks.goto, Phase.refers, hrefs]
        · simp [Locks.goto, Phase.refers, Function.update_of_ne hl]
  | counting _ l | releasing _ l =>
    cases ht
    refine ⟨hc.goto hi rfl rfl (fun l => rfl) (fun m => ?_), htab.goto hi rfl rfl rfl rfl⟩
    rcases eq_or_ne m l with rfl | hm
    · simp [Locks.goto, Phase.refers]
    · simp [Locks.goto, Phase.refers, Function.update_of_ne hm, hm.symm]
  | counted _ _ | closing =>
    cases ht
    have hmu := hc.mu_of_inside hi rfl
    refine ⟨hc.goto hi rfl ?_ (fun l => rfl) (fun l => rfl), htab.goto hi rfl rfl rfl rfl⟩
    simp [Locks.goto, Phase.inside, hmu]
  | waiting key l =>
    simp only [Locks.advance] at ht
    split at ht
    · cases ht
    · next hfree =>
      cases ht
      refine ⟨hc.goto hi rfl rfl (fun m => ?_) (fun l => rfl), htab.goto hi rfl rfl rfl rfl⟩
      rcases eq_or_ne m l with rfl | hm
      · simp [Locks.goto, Phase.holds, hfree]
      · simp [Locks.goto, Phase.holds, Function.update_of_ne hm, hm.symm]
  | holding key l =>
    cases ht
    have hheld := hc.held_of_holding hi
    refine ⟨hc.goto hi rfl rfl (fun m => ?_) (fun l => rfl), htab.goto hi rfl rfl rfl rfl⟩
    rcases eq_or_ne m l with rfl | hm
    · simp [Locks.goto, Phase.holds, hheld]
    · simp [Locks.goto, Phase.holds, Function.update_of_ne hm, hm.symm]
  | released key l =>
    simp only [Locks.advance] at ht
    split at ht
    · next hdel =>
      cases ht
      exact ⟨hc.goto hi rfl rfl (fun l => rfl) (fun l => rfl), htab.deleted hc hi hdel.1⟩
    · next hkeep =>
      cases ht
      exact ⟨hc.goto hi rfl rfl (fun l => rfl) (fun l => rfl), htab.left hc hi hkeep⟩
  | unguarded =>
    cases ht
    exact ⟨hc.goto hi rfl rfl (fun l => rfl) (fun l => rfl), htab.goto hi rfl rfl rfl rfl⟩
  | done => cases ht

/-- A call that comes in has no mutex and no object yet. -/
theorem Inv.call (h : Inv s) (hin : p.inside = false) (hlock : p.lock = none) :
    Inv { s with calls := s.calls ++ [p] } := by
  have hrefers : ∀ l, p.refers l = false := by
    intro l
    refine Bool.eq_false_iff.mpr fun hr => ?_
    obtain ⟨key, hpl⟩ := Phase.lock_of_refers hr
    rw [hlock] at hpl
    cases hpl
  have hholds : ∀ l, p.holds l = false := by
    intro l
    refine Bool.eq_false_iff.mpr fun hh => ?_
    exact Bool.noConfusion ((hrefers l).symm.trans (Phase.refers_of_holds hh))
  obtain ⟨hc, htab⟩ := h
  refine ⟨⟨?_, fun l => ?_, fun l => ?_⟩, ⟨?_, htab.made, htab.apart, ?_⟩⟩
  · simp [List.countP_append, hin, hc.guard]
  · simp [List.countP_append, hholds l, hc.held l]
  · simp [List.countP_append, hrefers l, hc.refs l]
  · intro q hq key l hql
    rcases List.mem_append.mp hq with hq | hq
    · exact htab.entry q hq key l hql
    · obtain rfl : q = p := by simpa using hq
      rw [hlock] at hql
      cases hql
  · intro key l hl
    obtain ⟨q, hq, hql⟩ := htab.live key l hl
    exact ⟨q, List.mem_append_left _ hq, hql⟩

theorem Inv.next {a : Action} (h : Inv s) (ht : step s a = some t) : Inv t := by
  cases a with
  | call key =>
    cases ht
    by_cases hkey : key = []
    · exact h.call (by rw [if_pos hkey]; rfl) (by rw [if_pos hkey]; rfl)
    · exact h.call (by rw [if_neg hkey]; rfl) (by rw [if_neg hkey]; rfl)
  | advance i =>
    obtain ⟨p, hp, hadv⟩ := Option.bind_eq_some_iff.mp ht
    exact h.advance hp hadv

theorem Inv.start : Inv Locks.start := by
  refine ⟨⟨rfl, fun _ => rfl, fun _ => rfl⟩, ⟨?_, ?_, ?_, ?_⟩⟩
  · intro p hp
    cases hp
  · intro key l hl
    cases hl
  · intro key key' l hl
    cases hl
  · intro key l hl
    cases hl

/-- No step takes an object that a call refers to out of the table or puts another in its place. -/
theorem Inv.locks_kept {a : Action} (h : Inv s) (hp : p ∈ s.calls) (hr : p.refers l = true)
    (hpl : p.lock = some (key, l)) (ht : step s a = some t) : t.locks key = some l := by
  have hl : s.locks key = some l := h.tabled.entry p hp key l hpl
  cases a with
  | call _ =>
    cases ht
    exact hl
  | advance i =>
    obtain ⟨q, hq, hadv⟩ := Option.bind_eq_some_iff.mp ht
    cases q with
    | looking key' =>
      simp only [Locks.advance] at hadv
      split at hadv
      · cases hadv
        exact hl
      · next hnone =>
        cases hadv
        have hne : key ≠ key' := by
          rintro rfl
          rw [hnone] at hl
          cases hl
        exact (Function.update_of_ne hne _ _).trans hl
    | released key' l' =>
      simp only [Locks.advance] at hadv
      split at hadv
      · next hdel =>
        cases hadv
        have hne : key ≠ key' := by
          rintro rfl
          obtain rfl : l = l' := Option.some.inj (hl.symm.trans hdel.2)
          have hpos : 0 < s.calls.countP (Phase.refers l) := List.countP_pos_iff.mpr ⟨p, hp, hr⟩
          have hzero := hdel.1
          rw [h.counts.refs l] at hzero
          omega
        exact (Function.update_of_ne hne _ _).trans hl
      · cases hadv
        exact hl
    | entering _ | waiting _ _ | leaving _ _ =>
      simp only [Locks.advance] at hadv
      split at hadv
      · cases hadv
      · cases hadv
        exact hl
    | counting _ _ | counted _ _ | holding _ _ | releasing _ _ | closing | unguarded =>
      cases hadv
      exact hl
    | done => cases hadv

/-! ## Every run -/

/-- No two calls are between the return of `Lock` and the unlock for one key. -/
def Exclusive (s : Locks) : Prop :=
  ∀ (i j : Nat) key l l',
    s.calls[i]? = some (.holding key l) → s.calls[j]? = some (.holding key l') → i = j

/-- The count of an object in the table is that of the calls that hold it, wait for it, or have
    dropped its mutex and not yet counted it down. -/
def Counted (s : Locks) : Prop :=
  ∀ key l, s.locks key = some l → s.refs l = (s.calls.countP (Phase.refers l) : Int)

/-- An object with a holder or a waiter is the table's for its key, and is so behind every step. -/
def Kept (s : Locks) : Prop :=
  ∀ p ∈ s.calls, ∀ key l, p.attends l = true → p.lock = some (key, l) →
    s.locks key = some l ∧ ∀ a t, step s a = some t → t.locks key = some l

/-- Behind the last call the table is empty. -/
def Emptied (s : Locks) : Prop :=
  (∀ p ∈ s.calls, p = .done) → ∀ key, s.locks key = none

theorem Inv.exclusive (h : Inv s) : Exclusive s := by
  intro i j key l l' hi hj
  have hl := h.tabled.entry _ (List.mem_of_getElem? hi) key l rfl
  have hl' := h.tabled.entry _ (List.mem_of_getElem? hj) key l' rfl
  -- both found their object under the key, so it is one object and one mutex
  obtain rfl : l = l' := Option.some.inj (hl.symm.trans hl')
  have hone : s.calls.countP (Phase.holds l) ≤ 1 := h.counts.held l ▸ Bool.toNat_le (s.held l)
  exact place_unique hone hi hj (by simp [Phase.holds]) (by simp [Phase.holds])

theorem Inv.emptied (h : Inv s) : Emptied s := by
  intro hdone key
  cases hl : s.locks key with
  | none => rfl
  | some l =>
    obtain ⟨p, hp, hpl⟩ := h.tabled.live key l hl
    rw [hdone p hp] at hpl
    cases hpl

/-- Whatever calls come and however their steps interleave. -/
theorem lock_guards (actions : List Action) :
    Always step (fun s => Exclusive s ∧ Counted s ∧ Kept s ∧ Emptied s) Locks.start actions := by
  have hinv : Always step Inv Locks.start actions :=
    always_inv (fun _ _ _ hs ht => hs.next ht) actions _ Inv.start
  refine hinv.mono fun s hs => ⟨hs.exclusive, fun _ l _ => hs.counts.refs l, ?_, hs.emptied⟩
  intro p hp key l ha hpl
  refine ⟨hs.tabled.entry p hp key l hpl, fun a t ht => ?_⟩
  exact hs.locks_kept hp (Phase.refers_of_attends ha) hpl ht

/-- One call that has dropped the mutex of its object and not yet counted it down: the object is in
    the table with a count of one, and nobody holds it or waits for it. -/
theorem leaver_counted :
    ∃ s, run step Locks.start [.call (lit "k"), .advance 0, .advance 0, .advance 0, .advance 0, .advance 0,
        .advance 0] = some s ∧
      s.locks (lit "k") = some 0 ∧ s.refs 0 = 1 ∧ s.calls.countP (Phase.attends 0) = 0 :=
  ⟨_, rfl, by decide, by decide, by decide⟩

end DeepSeekWebToApi.AccountPool.AffinityLock
