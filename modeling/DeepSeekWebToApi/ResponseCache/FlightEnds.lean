import DeepSeekWebToApi.ResponseCache.SingleFlight

/- Requests in flight come to an end. A request has a number of steps left that its phase
   tells, so no interleaving keeps it going; and a request that waits has an owner to wait
   for, an owner behind the lock of its release, or a closed slot, so some request can
   always take a step that neither a clock nor a client has to take. -/
namespace DeepSeekWebToApi.ResponseCache.SingleFlight
open GoStrings

/-- The request that takes the step. -/
def FineAction.request : FineAction → Nat
  | .acquire r _ | .wake r _ | .timeout r | .cancel r | .reacquire r | .serve r | .unregister r
  | .close r => r

/-- The step is one of a request under way, and neither a timeout nor a cancelled context. -/
def FineAction.onward : FineAction → Bool
  | .acquire _ _ | .timeout _ | .cancel _ => false
  | .wake _ _ | .reacquire _ | .serve _ | .unregister _ | .close _ => true

/-- Some request under way can take a step of its own. -/
def Flight.CanGoOn (s : Flight) : Prop := ∃ a : FineAction, a.onward = true ∧ (fineStep s a).isSome = true

/-- The steps a request has left at most. -/
def Phase.left : Phase → Nat
  | .idle => 6
  | .waiting _ _ false => 5
  | .woken _ => 4
  | .serving _ (some _) => 3
  | .waiting _ _ true => 2
  | .releasing _ _ => 2
  | .serving _ none => 1
  | .closing _ => 1
  | .finished => 0

/-- The request is in `Wrap`. -/
def Phase.underway (p : Phase) : Prop := p ≠ .idle ∧ p ≠ .finished

theorem left_afterWait (key : Bytes) (slot : Nat) (again : Bool) :
    (afterWait key again).left < (Phase.waiting key slot again).left := by
  cases again <;> simp [afterWait, Phase.left]

/-- What acquires gets its slot or a wait, and the others stay where they are. -/
theorem acquireInflight_requests (s : Flight) (r : Nat) (key : Bytes) (again : Bool) :
    ∃ p, (s.acquireInflight r key again).requests = Function.update s.requests r p ∧
      p.left ≤ if again then 3 else 5 := by
  rw [Flight.acquireInflight]
  cases s.inflight key with
  | some slot => exact ⟨.waiting key slot again, rfl, by cases again <;> simp [Phase.left]⟩
  | none => exact ⟨.serving key (some s.makers.length), rfl, by cases again <;> simp [Phase.left]⟩

theorem moves_of {s t : Flight} {r : Nat} {p q : Phase} (hr : s.requests r = q)
    (ht : t.requests = Function.update s.requests r p) (hleft : p.left < q.left) :
    ∃ p, t.requests = Function.update s.requests r p ∧ p.left < (s.requests r).left :=
  ⟨p, ht, hr ▸ hleft⟩

/-- A step moves the request that takes it, to a phase with less left. -/
theorem fineStep_moves {s t : Flight} {a : FineAction} (h : fineStep s a = some t) :
    ∃ p, t.requests = Function.update s.requests a.request p ∧ p.left < (s.requests a.request).left := by
  cases a with
  | acquire r key =>
    simp only [fineStep] at h
    split at h <;> cases h
    next hr =>
      obtain ⟨p, hp, hleft⟩ := acquireInflight_requests s r key false
      exact moves_of hr hp (Nat.lt_succ_of_le hleft)
  | wake r hit =>
    simp only [fineStep] at h
    split at h
    · next key slot again hr =>
      have hless := left_afterWait key slot again
      split_ifs at h <;> cases h
      · exact moves_of hr rfl (Nat.zero_lt_of_lt hless)
      · exact moves_of hr rfl hless
    · cases h
  | timeout r =>
    simp only [fineStep] at h
    split at h <;> cases h
    next key slot again hr => exact moves_of hr rfl (left_afterWait key slot again)
  | cancel r =>
    simp only [fineStep] at h
    split at h <;> cases h
    next key slot again hr => exact moves_of hr rfl (Nat.zero_lt_of_lt (left_afterWait key slot again))
  | reacquire r =>
    simp only [fineStep] at h
    split at h <;> cases h
    next key hr =>
      obtain ⟨p, hp, hleft⟩ := acquireInflight_requests s r key true
      exact moves_of hr hp (Nat.lt_succ_of_le hleft)
  | serve r =>
    simp only [fineStep] at h
    split at h <;> cases h
    · next hr => exact moves_of hr rfl Nat.zero_lt_one
    · next hr => exact moves_of hr rfl (Nat.lt_succ_self 2)
  | unregister r =>
    simp only [fineStep] at h
    split at h
    · next hr =>
      split at h <;> cases h
      · exact moves_of hr rfl Nat.two_pos
      · exact moves_of hr rfl Nat.one_lt_two
    · cases h
  | close r =>
    simp only [fineStep] at h
    split at h <;> cases h
    next hr => exact moves_of hr rfl Nat.zero_lt_one

theorem fineStep_left (r : Nat) (s : Flight) (a : FineAction) (t : Flight) (h : fineStep s a = some t) :
    (t.requests r).left + (if decide (a.request = r) then 1 else 0) ≤ (s.requests r).left := by
  obtain ⟨p, hp, hleft⟩ := fineStep_moves h
  rw [hp, Function.update_apply]
  by_cases hr : r = a.request
  · subst hr
    simpa using Nat.succ_le_of_lt hleft
  · simp [hr, Ne.symm hr]

/-! Some request can go on. -/

/-- The owner of a slot can take its next step. -/
theorem Phase.Owns.onward {s : Flight} {r : Nat} {key : Bytes} {slot : Nat}
    (h : (s.requests r).Owns key slot) : s.CanGoOn := by
  rcases h with h | h
  · exact ⟨.serve r, rfl, by simp [fineStep, h]⟩
  · refine ⟨.unregister r, rfl, ?_⟩
    cases hfound : s.inflight key <;> simp [fineStep, h, hfound]

theorem Flight.Inv.onward {s : Flight} (h : s.Inv) {r : Nat} (hr : (s.requests r).underway) :
    s.CanGoOn := by
  have hclosing : ∀ c slot, s.requests c = .closing slot → s.CanGoOn :=
    fun c slot hc => ⟨.close c, rfl, by simp [SingleFlight.fineStep, hc]⟩
  cases hp : s.requests r with
  | idle => exact absurd hp hr.1
  | finished => exact absurd hp hr.2
  | waiting key slot again =>
    -- the slot is registered with its owner, closed, or behind the lock of its release
    rcases h.waiters r key slot again hp with hin | hclosed | ⟨c, hc⟩
    · obtain ⟨owner, howns⟩ := h.registered key slot hin
      exact howns.onward
    · exact ⟨.wake r true, rfl, by simp [SingleFlight.fineStep, hp, hclosed]⟩
    · exact hclosing c slot hc
  | woken key => exact ⟨.reacquire r, rfl, by simp [SingleFlight.fineStep, hp]⟩
  | serving key slot =>
    cases slot with
    | none => exact ⟨.serve r, rfl, by simp [SingleFlight.fineStep, hp]⟩
    | some slot => exact Phase.Owns.onward (Or.inl hp)
  | releasing key slot => exact Phase.Owns.onward (Or.inr hp)
  | closing slot => exact hclosing r slot hp

/-! What is left when no request is under way. -/

theorem Phase.Owns.underway {p : Phase} {key : Bytes} {slot : Nat} (h : p.Owns key slot) : p.underway := by
  rcases h with rfl | rfl <;> exact ⟨Phase.noConfusion, Phase.noConfusion⟩

theorem Flight.Inv.atRest {s : Flight} (h : s.Inv) (hrest : ∀ r, ¬ (s.requests r).underway) :
    (∀ key, s.inflight key = none) ∧ ∀ slot < s.makers.length, s.closed slot := by
  constructor
  · intro key
    cases hin : s.inflight key with
    | none => rfl
    | some slot =>
      obtain ⟨owner, howns⟩ := h.registered key slot hin
      exact absurd howns.underway (hrest owner)
  · intro slot hlt
    rcases h.noneLeft _ slot (List.getElem?_eq_getElem hlt) with hclosed | ⟨key, howns⟩ | hclosing
    · exact hclosed
    · exact absurd howns.underway (hrest _)
    · refine absurd ?_ (hrest s.makers[slot])
      rw [hclosing]
      exact ⟨Phase.noConfusion, Phase.noConfusion⟩

/-- Whatever the order of their steps, a request takes six steps at most, one can go on as long as one
    is under way, and in the end no slot is left in the map or open. -/
theorem flights_end (as : List FineAction) {t : Flight} (h : Runs.run fineStep .start as = some t) :
    (∀ r, as.countP (fun a => decide (a.request = r)) ≤ 6) ∧
      ((∃ r, (t.requests r).underway) → t.CanGoOn) ∧
      ((∀ r, ¬ (t.requests r).underway) →
        (∀ key, t.inflight key = none) ∧ ∀ slot < t.makers.length, t.closed slot) := by
  have hinv : t.Inv := Runs.run_inv (fun _ _ _ hs hstep => hs.fineStep hstep) as .start h
  refine ⟨fun r => ?_, fun hr => ?_, hinv.atRest⟩
  · have hcount := Runs.run_countP_le (fineStep_left r) as h
    have hstart : (Flight.start.requests r).left = 6 := rfl
    omega
  · obtain ⟨r, hr⟩ := hr
    exact hinv.onward hr

/-- Two requests on one key: the second waits until the first has closed its slot. -/
theorem flights_end_shared :
    ∃ t, Runs.run fineStep .start [.acquire 0 (lit "k"), .acquire 1 (lit "k"), .serve 0, .unregister 0] =
        some t ∧ t.requests 1 = .waiting (lit "k") 0 false ∧ t.CanGoOn := by
  refine ⟨_, rfl, rfl, ?_⟩
  exact (flights_end [.acquire 0 (lit "k"), .acquire 1 (lit "k"), .serve 0, .unregister 0] rfl).2.1
    ⟨1, Phase.noConfusion, Phase.noConfusion⟩

end DeepSeekWebToApi.ResponseCache.SingleFlight
