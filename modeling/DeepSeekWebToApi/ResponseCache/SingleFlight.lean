import Mathlib.Data.List.Basic
import Mathlib.Logic.Function.Basic
import DeepSeekWebToApi.Lib.Runs
import DeepSeekWebToApi.Lib.Strings

/- Single flight (`Wrap`, `waitForInflightOwner`, `acquireInflight`, `releaseInflight`). A
   request whose lookup missed either registers a slot for its key and runs upstream, or
   waits for the owner of the slot that is there; behind a wait without a result it tries
   once more. What a lookup finds, and when a wait times out or the client goes away, is
   decided outside.

   `releaseInflight` takes the slot out of the map under the lock and closes it behind the
   lock; the two halves are steps of their own, and other requests run in between. A slot is
   the number of slots made before it, and `makers` lists the requests that made them. -/
namespace DeepSeekWebToApi.ResponseCache.SingleFlight
open GoStrings

/-- Where a request is in `Wrap`. -/
inductive Phase where
  | idle
  /-- In `waitForInflightOwner`, for the first or the second time. -/
  | waiting (key : Bytes) (slot : Nat) (again : Bool)
  /-- Behind a first wait that gave nothing. -/
  | woken (key : Bytes)
  /-- In `next.ServeHTTP`, as the owner of a slot or without one. -/
  | serving (key : Bytes) (slot : Option Nat)
  /-- The owner at its deferred `releaseInflight`. -/
  | releasing (key : Bytes) (slot : Nat)
  /-- In `releaseInflight` behind the lock, with the slot it found. -/
  | closing (slot : Nat)
  | finished
  deriving DecidableEq

structure Flight where
  inflight : Bytes → Option Nat
  makers : List Nat
  /-- Every `close(slot.done)`: the request and the slot. -/
  closes : List (Nat × Nat)
  requests : Nat → Phase

def Flight.start : Flight := ⟨fun _ => none, [], [], fun _ => .idle⟩

def Flight.closed (s : Flight) (slot : Nat) : Prop := slot ∈ s.closes.map Prod.snd

instance (s : Flight) (slot : Nat) : Decidable (s.closed slot) := inferInstanceAs (Decidable (_ ∈ _))

def Flight.goto (s : Flight) (r : Nat) (p : Phase) : Flight :=
  { s with requests := Function.update s.requests r p }

/-- `acquireInflight` for the request `r`, and where it goes from there. -/
def Flight.acquireInflight (s : Flight) (r : Nat) (key : Bytes) (again : Bool) : Flight :=
  match s.inflight key with
  | some slot => s.goto r (.waiting key slot again)
  | none =>
    let slot := s.makers.length
    { s with inflight := Function.update s.inflight key (some slot), makers := s.makers ++ [r] }.goto r
      (.serving key (some slot))

/-- A wait that gave nothing: after the first the request tries to become the owner, after the second
    it runs upstream without a slot. -/
def afterWait (key : Bytes) (again : Bool) : Phase := if again then .serving key none else .woken key

inductive FineAction where
  | acquire (r : Nat) (key : Bytes)
  /-- The slot is closed and the lookup behind it hits or misses. -/
  | wake (r : Nat) (hit : Bool)
  | timeout (r : Nat)
  | cancel (r : Nat)
  | reacquire (r : Nat)
  /-- `next.ServeHTTP` and the `Set` of its result are over. -/
  | serve (r : Nat)
  | unregister (r : Nat)
  | close (r : Nat)

def fineStep (s : Flight) : FineAction → Option Flight
  | .acquire r key =>
    match s.requests r with
    | .idle => some (s.acquireInflight r key false)
    | _ => none
  | .wake r hit =>
    match s.requests r with
    | .waiting key slot again =>
      if s.closed slot then some (s.goto r (if hit then .finished else afterWait key again)) else none
    | _ => none
  | .timeout r =>
    match s.requests r with
    | .waiting key _ again => some (s.goto r (afterWait key again))
    | _ => none
  | .cancel r =>
    match s.requests r with
    | .waiting _ _ _ => some (s.goto r .finished)
    | _ => none
  | .reacquire r =>
    match s.requests r with
    | .woken key => some (s.acquireInflight r key true)
    | _ => none
  | .serve r =>
    match s.requests r with
    | .serving _ none => some (s.goto r .finished)
    | .serving key (some slot) => some (s.goto r (.releasing key slot))
    | _ => none
  | .unregister r =>
    match s.requests r with
    | .releasing key _ =>
      -- the slot is looked up by its key
      match s.inflight key with
      | none => some (s.goto r .finished)
      | some found =>
        some ({ s with inflight := Function.update s.inflight key none }.goto r (.closing found))
    | _ => none
  | .close r =>
    match s.requests r with
    | .closing slot => some ({ s with closes := s.closes ++ [(r, slot)] }.goto r .finished)
    | _ => none

/-- Between its `acquireInflight` and its `releaseInflight` a request owns its slot. -/
def Phase.Owns (key : Bytes) (slot : Nat) (p : Phase) : Prop :=
  p = .serving key (some slot) ∨ p = .releasing key slot

structure Flight.Sound (s : Flight) : Prop where
  oneOwner : ∀ key slot slot' r r', (s.requests r).Owns key slot → (s.requests r').Owns key slot' → r = r'
  /-- The slot of a wait is registered, closed, or about to be closed by its owner. -/
  waiters : ∀ r key slot again, s.requests r = .waiting key slot again →
    (s.inflight key = some slot ∧ ∃ owner, (s.requests owner).Owns key slot) ∨ s.closed slot ∨
      ∃ owner, s.makers[slot]? = some owner ∧ s.requests owner = .closing slot
  /-- A slot is closed by the request that acquired it, -/
  ownSlot : ∀ r slot, (r, slot) ∈ s.closes → s.makers[slot]? = some r
  /-- only once, -/
  once : (s.closes.map Prod.snd).Nodup
  /-- and until then it has its owner. -/
  noneLeft : ∀ r slot, s.makers[slot]? = some r →
    s.closed slot ∨ (∃ key, (s.requests r).Owns key slot) ∨ s.requests r = .closing slot

/-! What a step does. -/

/-- The phase has a slot to answer for. -/
def Phase.Holds (p : Phase) : Prop := (∃ key slot, p.Owns key slot) ∨ ∃ slot, p = .closing slot

theorem Phase.Owns.inj {p : Phase} {key key' : Bytes} {slot slot' : Nat} (h : p.Owns key slot)
    (h' : p.Owns key' slot') : key = key' ∧ slot = slot' := by
  rcases h with rfl | rfl <;> rcases h' with h' | h' <;> cases h' <;> exact ⟨rfl, rfl⟩

variable {key : Bytes}

theorem Phase.Owns.ne_closing {p : Phase} {slot slot' : Nat} (h : p.Owns key slot) : p ≠ .closing slot' := by
  rcases h with rfl | rfl <;> exact Phase.noConfusion

theorem holds_iff (p : Phase) : p.Holds ↔
    (∃ key slot, p = .serving key (some slot)) ∨ (∃ key slot, p = .releasing key slot) ∨
      ∃ slot, p = .closing slot := by
  simp only [Phase.Holds, Phase.Owns, exists_or, or_assoc]

theorem Flight.requests_goto (s : Flight) (r : Nat) (p : Phase) (r' : Nat) :
    (s.goto r p).requests r' = if r' = r then p else s.requests r' :=
  Function.update_apply s.requests r p r'

/-- A request without a slot went on without one; a wait is for a registered slot. -/
structure Moved (s t : Flight) : Prop where
  moved : ∃ r p, t = s.goto r p ∧ ¬ (s.requests r).Holds ∧ ¬ p.Holds ∧
    ∀ key slot again, p = .waiting key slot again → s.inflight key = some slot

/-- A request became the owner of a new slot. -/
structure Acquired (s t : Flight) (r : Nat) (key : Bytes) : Prop where
  before : ¬ (s.requests r).Holds
  free : s.inflight key = none
  after : t = Flight.goto (Flight.mk (Function.update s.inflight key (some s.makers.length))
    (s.makers ++ [r]) s.closes s.requests) r (.serving key (some s.makers.length))

/-- Every fine step is one of five things. -/
inductive Effect (s t : Flight) : Prop where
  | moved (h : Moved s t)
  | acquired {r : Nat} {key : Bytes} (h : Acquired s t r key)
  | served {r : Nat} {key : Bytes} {slot : Nat} (h : s.requests r = .serving key (some slot))
      (ht : t = s.goto r (.releasing key slot))
  | unregistered {r : Nat} {key : Bytes} {slot : Nat} (h : s.requests r = .releasing key slot)
      (ht : s.inflight key = none ∧ t = s.goto r .finished ∨
        ∃ found, s.inflight key = some found ∧
          t = { s with inflight := Function.update s.inflight key none }.goto r (.closing found))
  | closed {r slot : Nat} (h : s.requests r = .closing slot)
      (ht : t = { s with closes := s.closes ++ [(r, slot)] }.goto r .finished)

variable {s : Flight} {r : Nat}

theorem effect_acquireInflight (hr : ¬ (s.requests r).Holds) (key : Bytes) (again : Bool) :
    Effect s (s.acquireInflight r key again) := by
  rw [Flight.acquireInflight]
  cases hfree : s.inflight key with
  | some slot =>
    refine .moved ⟨r, .waiting key slot again, rfl, hr, ?_, ?_⟩
    · simp [holds_iff]
    · intro key' slot' again' heq
      cases heq
      exact hfree
  | none => exact .acquired ⟨hr, hfree, rfl⟩

theorem effect_goto {p : Phase} (hr : ¬ (s.requests r).Holds) (hp : ¬ p.Holds)
    (hw : ∀ key slot again, p ≠ .waiting key slot again) : Effect s (s.goto r p) :=
  .moved ⟨r, p, rfl, hr, hp, fun key slot again heq => absurd heq (hw key slot again)⟩

theorem afterWait_plain (key : Bytes) (again : Bool) :
    ¬ (afterWait key again).Holds ∧ ∀ key' slot again', afterWait key again ≠ .waiting key' slot again' := by
  cases again <;> simp [afterWait, holds_iff]

variable {s t : Flight}

theorem fineStep_effect {a : FineAction} (h : fineStep s a = some t) : Effect s t := by
  cases a with
  | acquire r key =>
    simp only [fineStep] at h
    split at h <;> cases h
    next hr => exact effect_acquireInflight (by simp [hr, holds_iff]) key false
  | wake r hit =>
    simp only [fineStep] at h
    split at h
    · next key slot again hr =>
      split_ifs at h with hclosed <;> cases h
      · exact effect_goto (by simp [hr, holds_iff]) (by simp [holds_iff]) (by simp)
      · exact effect_goto (by simp [hr, holds_iff]) (afterWait_plain key again).1 (afterWait_plain key again).2
    · cases h
  | timeout r =>
    simp only [fineStep] at h
    split at h <;> cases h
    next key slot again hr =>
      exact effect_goto (by simp [hr, holds_iff]) (afterWait_plain key again).1 (afterWait_plain key again).2
  | cancel r =>
    simp only [fineStep] at h
    split at h <;> cases h
    next hr => exact effect_goto (by simp [hr, holds_iff]) (by simp [holds_iff]) (by simp)
  | reacquire r =>
    simp only [fineStep] at h
    split at h <;> cases h
    next key hr => exact effect_acquireInflight (by simp [hr, holds_iff]) key true
  | serve r =>
    simp only [fineStep] at h
    split at h <;> cases h
    · next hr => exact effect_goto (by simp [hr, holds_iff]) (by simp [holds_iff]) (by simp)
    · next hr => exact .served hr rfl
  | unregister r =>
    simp only [fineStep] at h
    split at h
    · next key slot hr =>
      refine .unregistered hr ?_
      split at h <;> cases h
      · next hnone => exact Or.inl ⟨hnone, rfl⟩
      · next found hfound => exact Or.inr ⟨found, hfound, rfl⟩
    · cases h
  | close r =>
    simp only [fineStep] at h
    split at h <;> cases h
    next hr => exact .closed hr rfl

/-! The invariant of the fine steps. -/

structure Flight.Inv (s : Flight) : Prop where
  owner : ∀ r key slot, (s.requests r).Owns key slot →
    s.inflight key = some slot ∧ s.makers[slot]? = some r ∧ ¬ s.closed slot
  registered : ∀ key slot, s.inflight key = some slot → ∃ r, (s.requests r).Owns key slot
  closing : ∀ r slot, s.requests r = .closing slot → s.makers[slot]? = some r ∧ ¬ s.closed slot
  waiters : ∀ r key slot again, s.requests r = .waiting key slot again →
    s.inflight key = some slot ∨ s.closed slot ∨ ∃ r', s.requests r' = .closing slot
  ownSlot : ∀ r slot, (r, slot) ∈ s.closes → s.makers[slot]? = some r
  once : (s.closes.map Prod.snd).Nodup
  noneLeft : ∀ r slot, s.makers[slot]? = some r →
    s.closed slot ∨ (∃ key, (s.requests r).Owns key slot) ∨ s.requests r = .closing slot

theorem Flight.Inv.start : Flight.start.Inv where
  owner := by
    rintro r key slot (h | h) <;> cases h
  registered := fun _ _ h => absurd h (Option.some_ne_none _).symm
  closing := fun _ _ h => Phase.noConfusion h
  waiters := fun _ _ _ _ h => Phase.noConfusion h
  ownSlot := fun _ _ h => absurd h List.not_mem_nil
  once := List.nodup_nil
  noneLeft := fun _ _ h => absurd h (by simp [Flight.start])

theorem Flight.Inv.moved (h : s.Inv) (hm : Moved s t) : t.Inv := by
  obtain ⟨r, p, rfl, hr, hp, hwait⟩ := hm
  -- a request that answers for a slot, before or after, is another one
  have hother : ∀ {r'}, (s.requests r').Holds → (s.goto r p).requests r' = s.requests r' := by
    intro r' hr'
    rw [s.requests_goto, if_neg]
    rintro rfl
    exact hr hr'
  have hback : ∀ {r'}, ((s.goto r p).requests r').Holds → (s.goto r p).requests r' = s.requests r' := by
    intro r' hr'
    rw [s.requests_goto] at hr' ⊢
    split_ifs at hr' ⊢ with heq
    · exact absurd hr' hp
    · rfl
  refine ⟨fun r' key slot ho => ?_, fun key slot hreg => ?_, fun r' slot hc => ?_,
    fun r' key slot again hw => ?_, h.ownSlot, h.once, fun r' slot hmade => ?_⟩
  · rw [hback (Or.inl ⟨key, slot, ho⟩)] at ho
    exact h.owner r' key slot ho
  · obtain ⟨r', ho⟩ := h.registered key slot hreg
    refine ⟨r', ?_⟩
    rw [hother (Or.inl ⟨key, slot, ho⟩)]
    exact ho
  · rw [hback (Or.inr ⟨slot, hc⟩)] at hc
    exact h.closing r' slot hc
  · rw [s.requests_goto] at hw
    split_ifs at hw
    · exact Or.inl (hwait key slot again hw)
    · refine (h.waiters r' key slot again hw).imp id (Or.imp id ?_)
      rintro ⟨c, hc⟩
      refine ⟨c, ?_⟩
      rw [hother (Or.inr ⟨slot, hc⟩)]
      exact hc
  · refine (h.noneLeft r' slot hmade).imp id (Or.imp ?_ ?_)
    · rintro ⟨key, ho⟩
      refine ⟨key, ?_⟩
      rw [hother (Or.inl ⟨key, slot, ho⟩)]
      exact ho
    · intro hc
      rw [hother (Or.inr ⟨slot, hc⟩)]
      exact hc

theorem Flight.Inv.acquired (h : s.Inv) (ha : Acquired s t r key) : t.Inv := by
  obtain ⟨hr, hfree, rfl⟩ := ha
  have hother : ∀ {r'}, (s.requests r').Holds → r' ≠ r := by
    rintro r' hr' rfl
    exact hr hr'
  -- the new number is not in use
  have hnew : ¬ s.closed s.makers.length := by
    intro hc
    obtain ⟨⟨r', slot⟩, hmem, rfl⟩ := List.mem_map.mp hc
    have hsome := h.ownSlot r' s.makers.length hmem
    rw [List.getElem?_eq_none (Nat.le_refl _)] at hsome
    cases hsome
  have hmade : ∀ {slot r' : Nat}, s.makers[slot]? = some r' → (s.makers ++ [r])[slot]? = some r' := by
    intro slot r' hs
    obtain ⟨hlt, -⟩ := List.getElem?_eq_some_iff.mp hs
    rw [List.getElem?_append_left hlt]
    exact hs
  refine ⟨fun r' key' slot ho => ?_, fun key' slot hreg => ?_, fun r' slot hc => ?_,
    fun r' key' slot again hw => ?_, fun r' slot hc => hmade (h.ownSlot r' slot hc), h.once,
    fun r' slot hs => ?_⟩
  · simp only [Flight.requests_goto] at ho
    split_ifs at ho with heq
    · obtain ⟨rfl, rfl⟩ := ho.inj (Or.inl rfl)
      refine ⟨Function.update_self _ _ _, ?_, hnew⟩
      rw [heq]
      exact List.getElem?_concat_length
    · obtain ⟨hin, hs, hnc⟩ := h.owner r' key' slot ho
      refine ⟨?_, hmade hs, hnc⟩
      show Function.update s.inflight key _ key' = some slot
      rw [Function.update_of_ne, hin]
      rintro rfl
      exact absurd (hfree.symm.trans hin) (Option.some_ne_none slot).symm
  · simp only [Flight.requests_goto]
    change Function.update s.inflight key _ key' = some slot at hreg
    by_cases heq : key' = key
    · subst heq
      rw [Function.update_self] at hreg
      cases hreg
      exact ⟨r, by rw [if_pos rfl]; exact Or.inl rfl⟩
    · rw [Function.update_of_ne heq] at hreg
      obtain ⟨r', ho⟩ := h.registered key' slot hreg
      refine ⟨r', ?_⟩
      rw [if_neg (hother (Or.inl ⟨key', slot, ho⟩))]
      exact ho
  · simp only [Flight.requests_goto] at hc
    split_ifs at hc
    exact ⟨hmade (h.closing r' slot hc).1, (h.closing r' slot hc).2⟩
  · simp only [Flight.requests_goto] at hw ⊢
    split_ifs at hw
    rcases h.waiters r' key' slot again hw with hin | hc | ⟨c, hc⟩
    · refine Or.inl ?_
      show Function.update s.inflight key _ key' = some slot
      rw [Function.update_of_ne, hin]
      rintro rfl
      exact absurd (hfree.symm.trans hin) (Option.some_ne_none slot).symm
    · exact Or.inr (Or.inl hc)
    · refine Or.inr (Or.inr ⟨c, ?_⟩)
      rw [if_neg (hother (Or.inr ⟨slot, hc⟩))]
      exact hc
  · simp only [Flight.requests_goto]
    change (s.makers ++ [r])[slot]? = some r' at hs
    rcases Nat.lt_or_ge slot s.makers.length with hlt | hge
    · rw [List.getElem?_append_left hlt] at hs
      rcases h.noneLeft r' slot hs with hc | ⟨key', ho⟩ | hc
      · exact Or.inl hc
      · refine Or.inr (Or.inl ⟨key', ?_⟩)
        rw [if_neg (hother (Or.inl ⟨key', slot, ho⟩))]
        exact ho
      · refine Or.inr (Or.inr ?_)
        rw [if_neg (hother (Or.inr ⟨slot, hc⟩))]
        exact hc
    · obtain ⟨hlen, hval⟩ := List.getElem?_eq_some_iff.mp hs
      have hslot : slot = s.makers.length := by
        rw [List.length_append, List.length_singleton] at hlen
        omega
      subst hslot
      rw [List.getElem?_concat_length] at hs
      cases hs
      refine Or.inr (Or.inl ⟨key, ?_⟩)
      rw [if_pos rfl]
      exact Or.inl rfl

/-- The owner at its release owns what it owned before. -/
theorem Flight.Inv.served (h : s.Inv) {slot : Nat} (hr : s.requests r = .serving key (some slot)) :
    (s.goto r (.releasing key slot)).Inv := by
  have howns : ∀ r' key' slot', ((s.goto r (.releasing key slot)).requests r').Owns key' slot' ↔
      (s.requests r').Owns key' slot' := by
    intro r' key' slot'
    rw [s.requests_goto]
    split_ifs with heq
    · rw [heq, hr]
      simp [Phase.Owns]
    · rfl
  have hclosing : ∀ r' slot', (s.goto r (.releasing key slot)).requests r' = .closing slot' ↔
      s.requests r' = .closing slot' := by
    intro r' slot'
    rw [s.requests_goto]
    split_ifs with heq
    · simp [heq, hr]
    · rfl
  refine ⟨fun r' key' slot' ho => h.owner r' key' slot' ((howns r' key' slot').mp ho),
    fun key' slot' hreg => ?_, fun r' slot' hc => h.closing r' slot' ((hclosing r' slot').mp hc),
    fun r' key' slot' again hw => ?_, h.ownSlot, h.once, fun r' slot' hs => ?_⟩
  · obtain ⟨r', ho⟩ := h.registered key' slot' hreg
    exact ⟨r', (howns r' key' slot').mpr ho⟩
  · rw [s.requests_goto] at hw
    split_ifs at hw
    refine (h.waiters r' key' slot' again hw).imp id (Or.imp id ?_)
    rintro ⟨c, hc⟩
    exact ⟨c, (hclosing c slot').mpr hc⟩
  · refine (h.noneLeft r' slot' hs).imp id (Or.imp ?_ (hclosing r' slot').mpr)
    rintro ⟨key', ho⟩
    exact ⟨key', (howns r' key' slot').mpr ho⟩

/-- The slot found under the key is the one the request acquired. -/
theorem Flight.Inv.unregistered (h : s.Inv) {slot : Nat} (hr : s.requests r = .releasing key slot) :
    s.inflight key = some slot ∧
      Flight.Inv ({ s with inflight := Function.update s.inflight key none }.goto r (.closing slot)) := by
  have hown : (s.requests r).Owns key slot := Or.inr hr
  obtain ⟨hin, hmade, hopen⟩ := h.owner r key slot hown
  have hkey : ∀ {r' key' slot'}, (s.requests r').Owns key' slot' → r' ≠ r → key' ≠ key := by
    rintro r' key' slot' ho hne rfl
    obtain ⟨hin', hmade', -⟩ := h.owner r' key' slot' ho
    cases hin.symm.trans hin'
    exact hne (Option.some.inj (hmade'.symm.trans hmade))
  refine ⟨hin, fun r' key' slot' ho => ?_, fun key' slot' hreg => ?_, fun r' slot' hc => ?_,
    fun r' key' slot' again hw => ?_, h.ownSlot, h.once, fun r' slot' hs => ?_⟩
  · simp only [Flight.requests_goto] at ho
    split_ifs at ho with heq
    · exact absurd rfl ho.ne_closing
    · obtain ⟨hin', hrest⟩ := h.owner r' key' slot' ho
      refine ⟨?_, hrest⟩
      show Function.update s.inflight key none key' = some slot'
      rw [Function.update_of_ne (hkey ho heq), hin']
  · simp only [Flight.requests_goto]
    change Function.update s.inflight key none key' = some slot' at hreg
    have hne : key' ≠ key := by
      rintro rfl
      rw [Function.update_self] at hreg
      cases hreg
    rw [Function.update_of_ne hne] at hreg
    obtain ⟨r', ho⟩ := h.registered key' slot' hreg
    refine ⟨r', ?_⟩
    rw [if_neg]
    · exact ho
    · rintro rfl
      exact hne (ho.inj hown).1
  · simp only [Flight.requests_goto] at hc
    split_ifs at hc with heq
    · cases hc
      exact ⟨heq ▸ hmade, hopen⟩
    · exact h.closing r' slot' hc
  · simp only [Flight.requests_goto] at hw ⊢
    split_ifs at hw
    rcases h.waiters r' key' slot' again hw with hin' | hc | ⟨c, hc⟩
    · by_cases heq : key' = key
      · -- this wait is for the slot that is about to be closed
        subst heq
        cases hin.symm.trans hin'
        exact Or.inr (Or.inr ⟨r, if_pos rfl⟩)
      · refine Or.inl ?_
        show Function.update s.inflight key none key' = some slot'
        rw [Function.update_of_ne heq, hin']
    · exact Or.inr (Or.inl hc)
    · refine Or.inr (Or.inr ⟨c, ?_⟩)
      rw [if_neg]
      · exact hc
      · rintro rfl
        exact hown.ne_closing hc
  · simp only [Flight.requests_goto]
    by_cases heq : r' = r
    · subst heq
      rw [if_pos rfl]
      rcases h.noneLeft r' slot' hs with hc | ⟨key', ho⟩ | hc
      · exact Or.inl hc
      · exact Or.inr (Or.inr (by rw [(ho.inj hown).2]))
      · exact absurd hc hown.ne_closing
    · rw [if_neg heq]
      exact h.noneLeft r' slot' hs

theorem Flight.Inv.close (h : s.Inv) {r slot : Nat} (hr : s.requests r = .closing slot) :
    Flight.Inv ({ s with closes := s.closes ++ [(r, slot)] }.goto r .finished) := by
  obtain ⟨hmade, hopen⟩ := h.closing r slot hr
  have hclosed : ∀ slot', slot' ∈ (s.closes ++ [(r, slot)]).map Prod.snd ↔ s.closed slot' ∨ slot' = slot := by
    intro slot'
    rw [List.map_append, List.mem_append, List.map_singleton, List.mem_singleton, Flight.closed]
  -- who made another slot is another request
  have hother : ∀ {r' slot' : Nat}, s.makers[slot']? = some r' → r' ≠ r → slot' ≠ slot := by
    rintro r' slot' hs hne rfl
    exact hne (Option.some.inj (hs.symm.trans hmade))
  refine ⟨fun r' key' slot' ho => ?_, fun key' slot' hreg => ?_, fun r' slot' hc => ?_,
    fun r' key' slot' again hw => ?_, fun r' slot' hmem => ?_, ?_, fun r' slot' hs => ?_⟩
  · simp only [Flight.requests_goto] at ho
    split_ifs at ho with heq
    · rcases ho with ho | ho <;> cases ho
    · obtain ⟨hin, hs, hnc⟩ := h.owner r' key' slot' ho
      refine ⟨hin, hs, fun hc => ?_⟩
      exact ((hclosed slot').mp hc).elim hnc (hother hs heq)
  · simp only [Flight.requests_goto]
    obtain ⟨r', ho⟩ := h.registered key' slot' hreg
    refine ⟨r', ?_⟩
    rw [if_neg]
    · exact ho
    · rintro rfl
      exact ho.ne_closing hr
  · simp only [Flight.requests_goto] at hc
    split_ifs at hc with heq
    obtain ⟨hs, hnc⟩ := h.closing r' slot' hc
    refine ⟨hs, fun hc => ?_⟩
    exact ((hclosed slot').mp hc).elim hnc (hother hs heq)
  · simp only [Flight.requests_goto] at hw ⊢
    split_ifs at hw
    rcases h.waiters r' key' slot' again hw with hin | hc | ⟨c, hc⟩
    · exact Or.inl hin
    · exact Or.inr (Or.inl ((hclosed slot').mpr (Or.inl hc)))
    · by_cases heq : c = r
      · subst heq
        cases hr.symm.trans hc
        exact Or.inr (Or.inl ((hclosed slot).mpr (Or.inr rfl)))
      · exact Or.inr (Or.inr ⟨c, by rw [if_neg heq]; exact hc⟩)
  · rcases List.mem_append.mp hmem with hmem | hmem
    · exact h.ownSlot r' slot' hmem
    · cases List.mem_singleton.mp hmem
      exact hmade
  · show ((s.closes ++ [(r, slot)]).map Prod.snd).Nodup
    rw [List.map_append, List.map_singleton, List.nodup_append]
    refine ⟨h.once, List.pairwise_singleton _ _, fun a ha b hb => ?_⟩
    rw [List.mem_singleton.mp hb]
    rintro rfl
    exact hopen ha
  · simp only [Flight.requests_goto]
    rcases h.noneLeft r' slot' hs with hc | ⟨key', ho⟩ | hc
    · exact Or.inl ((hclosed slot').mpr (Or.inl hc))
    · refine Or.inr (Or.inl ⟨key', ?_⟩)
      rw [if_neg]
      · exact ho
      · rintro rfl
        exact ho.ne_closing hr
    · by_cases heq : r' = r
      · subst heq
        cases hr.symm.trans hc
        exact Or.inl ((hclosed slot).mpr (Or.inr rfl))
      · exact Or.inr (Or.inr (by rw [if_neg heq]; exact hc))

theorem Flight.Inv.fineStep {a : FineAction} (h : s.Inv) (hs : fineStep s a = some t) : t.Inv := by
  cases fineStep_effect hs with
  | moved hm => exact h.moved hm
  | acquired ha => exact h.acquired ha
  | served hr ht => exact ht ▸ h.served hr
  | unregistered hr ht =>
    obtain ⟨hin, hinv⟩ := h.unregistered hr
    rcases ht with ⟨hnone, -⟩ | ⟨found, hfound, rfl⟩
    · exact absurd (hnone.symm.trans hin) (Option.some_ne_none _).symm
    · cases hin.symm.trans hfound
      exact hinv
  | closed hr ht => exact ht ▸ h.close hr

theorem Flight.Inv.sound (h : s.Inv) : s.Sound where
  oneOwner := by
    intro key slot slot' r r' ho ho'
    obtain ⟨hin, hmade, -⟩ := h.owner r key slot ho
    obtain ⟨hin', hmade', -⟩ := h.owner r' key slot' ho'
    cases hin.symm.trans hin'
    exact Option.some.inj (hmade.symm.trans hmade')
  waiters := by
    intro r key slot again hw
    rcases h.waiters r key slot again hw with hin | hc | ⟨c, hc⟩
    · exact Or.inl ⟨hin, h.registered key slot hin⟩
    · exact Or.inr (Or.inl hc)
    · exact Or.inr (Or.inr ⟨c, (h.closing c slot hc).1, hc⟩)
  ownSlot := h.ownSlot
  once := h.once
  noneLeft := h.noneLeft

/-- In every interleaving each key has at most one owner, no wait is for a slot nobody will close, and
    every slot is closed once, by the request that acquired it. -/
theorem single_flight (as : List FineAction) : Runs.Always fineStep Flight.Sound Flight.start as := by
  have hinv : Runs.Always fineStep Flight.Inv Flight.start as :=
    Runs.always_inv (fun _ _ _ h hs => h.fineStep hs) as _ .start
  exact hinv.mono fun s h => h.sound

/-- Between the halves of a release, the slot a request waits for is neither registered nor closed. -/
theorem wait_between_halves : ∃ s, Runs.run fineStep Flight.start
      [.acquire 0 [], .acquire 1 [], .serve 0, .unregister 0] = some s ∧
    s.requests 1 = .waiting [] 0 false ∧ s.inflight [] = none ∧ ¬ s.closed 0 :=
  ⟨_, rfl, by decide, by decide, by decide⟩

end DeepSeekWebToApi.ResponseCache.SingleFlight
