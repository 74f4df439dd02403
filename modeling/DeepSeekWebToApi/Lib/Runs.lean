import Mathlib.Data.List.Basic

/- Runs of a machine given by a partial step function. `run` executes a list of
   actions; an action the state does not allow ends the run without a result.
   `Always` says a property of every state the run passes through, `Meets` a
   condition on the state before each step it takes. `always_of_meets` is the
   invariant rule, `always_iff_meets` the exact form of it: when one step keeps
   the property exactly under the condition, a run has the property throughout
   exactly when every step it takes meets the condition. -/
namespace Runs

variable {σ α : Type} (step : σ → α → Option σ)

/-- The state after a list of actions. -/
def run : σ → List α → Option σ
  | s, [] => some s
  | s, a :: as =>
    match step s a with
    | some t => run t as
    | none => none

/-- `P` holds in every state the run passes through. -/
def Always (P : σ → Prop) : σ → List α → Prop
  | s, [] => P s
  | s, a :: as => P s ∧ ∀ t, step s a = some t → Always P t as

/-- `C` holds of the state before and the action of every step the run takes. -/
def Meets (C : σ → α → Prop) : σ → List α → Prop
  | _, [] => True
  | s, a :: as => ∀ t, step s a = some t → C s a ∧ Meets C t as

variable {step}

instance Meets.decidable {C : σ → α → Prop} [∀ s a, Decidable (C s a)] :
    ∀ (s : σ) (as : List α), Decidable (Meets step C s as)
  | _, [] => .isTrue trivial
  | s, a :: as =>
    match h : step s a with
    | none => .isTrue (fun t ht => absurd (h.symm.trans ht) (Option.some_ne_none t).symm)
    | some t =>
      have : Decidable (Meets step C t as) := decidable t as
      decidable_of_iff (C s a ∧ Meets step C t as)
        ⟨fun hm _ hu => Option.some.inj (h.symm.trans hu) ▸ hm, fun hm => hm t h⟩

variable {P : σ → Prop} {C : σ → α → Prop}

/-- A property every allowed step keeps under the condition holds throughout. -/
theorem always_of_meets (hstep : ∀ s a t, P s → C s a → step s a = some t → P t) :
    ∀ (as : List α) (s : σ), P s → Meets step C s as → Always step P s as
  | [], _, hs, _ => hs
  | a :: as, s, hs, hm => by
    refine ⟨hs, fun t ht => ?_⟩
    obtain ⟨hc, hrest⟩ := hm t ht
    exact always_of_meets hstep as t (hstep s a t hs hc ht) hrest

/-- A property that gives the condition, and that every step keeps, shows the condition met. -/
theorem meets_of_inv {Q : α → Prop} (hstep : ∀ s a t, P s → Q a → step s a = some t → C s a ∧ P t) :
    ∀ (as : List α) {s : σ}, P s → (∀ a ∈ as, Q a) → Meets step C s as
  | [], _, _, _ => trivial
  | a :: as, s, hs, hQ => by
    intro t ht
    obtain ⟨hc, hP⟩ := hstep s a t hs (hQ a List.mem_cons_self) ht
    exact ⟨hc, meets_of_inv hstep as hP fun b hb => hQ b (List.mem_cons_of_mem a hb)⟩

/-- Two conditions that come to the same in every state with a lasting property. -/
theorem meets_congr {C D : σ → α → Prop} (hstep : ∀ s a t, P s → step s a = some t → P t)
    (h : ∀ s a, P s → (C s a ↔ D s a)) : ∀ (as : List α) {s : σ}, P s → (Meets step C s as ↔ Meets step D s as)
  | [], _, _ => Iff.rfl
  | a :: as, s, hs => by
    refine forall_congr' fun t => imp_congr_right fun ht => ?_
    exact and_congr (h s a hs) (meets_congr hstep h as (hstep s a t hs ht))

/-- A property every allowed step keeps holds throughout. -/
theorem always_inv (hstep : ∀ s a t, P s → step s a = some t → P t) :
    ∀ (as : List α) (s : σ), P s → Always step P s as
  | [], _, hs => hs
  | a :: as, s, hs => ⟨hs, fun t ht => always_inv hstep as t (hstep s a t hs ht)⟩

theorem Always.start : ∀ {as : List α} {s : σ}, Always step P s as → P s
  | [], _, h => h
  | _ :: _, _, h => h.1

/-- Where a step keeps the property exactly under the condition, so does a run. -/
theorem always_iff_meets (hstep : ∀ s a t, P s → step s a = some t → (P t ↔ C s a)) :
    ∀ (as : List α) (s : σ), P s → (Always step P s as ↔ Meets step C s as)
  | [], _, hs => ⟨fun _ => trivial, fun _ => hs⟩
  | a :: as, s, hs => by
    constructor
    · intro ha t ht
      have hP : P t := (ha.2 t ht).start
      exact ⟨(hstep s a t hs ht).mp hP, (always_iff_meets hstep as t hP).mp (ha.2 t ht)⟩
    · intro hm
      refine ⟨hs, fun t ht => ?_⟩
      obtain ⟨hc, hrest⟩ := hm t ht
      have hP : P t := (hstep s a t hs ht).mpr hc
      exact (always_iff_meets hstep as t hP).mpr hrest

theorem Always.mono {P Q : σ → Prop} (h : ∀ s, P s → Q s) :
    ∀ {as : List α} {s : σ}, Always step P s as → Always step Q s as
  | [], s, hs => h s hs
  | _ :: _, s, hs => ⟨h s hs.1, fun t ht => (hs.2 t ht).mono h⟩

/-- What every step between states with the property keeps may be added to the property. -/
theorem Always.with_inv {P I : σ → Prop}
    (hstep : ∀ s a t, P s → I s → step s a = some t → P t → I t) :
    ∀ {as : List α} {s : σ}, I s → Always step P s as → Always step (fun s => P s ∧ I s) s as
  | [], _, hi, h => ⟨h, hi⟩
  | a :: _, s, hi, h => by
    refine ⟨⟨h.1, hi⟩, fun t ht => ?_⟩
    exact (h.2 t ht).with_inv hstep (hstep s a t h.1 hi ht (h.2 t ht).start)

/-- The last state of a completed run has every property the run always has. -/
theorem Always.final : ∀ {as : List α} {s t : σ}, Always step P s as → run step s as = some t → P t
  | [], s, t, hs, hr => by
    cases hr
    exact hs
  | a :: as, s, t, hs, hr => by
    simp only [run] at hr
    split at hr
    · next u hu => exact (hs.2 u hu).final hr
    · cases hr

/-- What every step keeps, the last state has. -/
theorem run_inv (hstep : ∀ s a t, P s → step s a = some t → P t) :
    ∀ (as : List α) {s t : σ}, P s → run step s as = some t → P t
  | [], s, t, hs, hr => by
    cases hr
    exact hs
  | a :: as, s, t, hs, hr => by
    simp only [run] at hr
    split at hr
    · next u hu => exact run_inv hstep as (hstep s a u hs hu) hr
    · cases hr

/-- A measure that every step of a kind lowers, and no step raises, bounds how many steps of the kind
    a run takes. -/
theorem run_countP_le {p : α → Bool} {μ : σ → Nat}
    (hstep : ∀ s a t, step s a = some t → μ t + (if p a then 1 else 0) ≤ μ s) :
    ∀ (as : List α) {s t : σ}, run step s as = some t → μ t + as.countP p ≤ μ s
  | [], s, t, hr => by
    cases hr
    exact Nat.le_refl _
  | a :: as, s, t, hr => by
    simp only [run] at hr
    split at hr
    · next u hu =>
      have hfirst := hstep s a u hu
      have hrest := run_countP_le hstep as hr
      rw [List.countP_cons]
      omega
    · cases hr

/-- Where a step keeps `P` exactly under the condition, and ends up in `L` for good otherwise, the
    last state tells whether every step met the condition. -/
theorem run_exact {P L : σ → Prop} (hkeep : ∀ s a t, P s → step s a = some t → C s a ∧ P t ∨ ¬ C s a ∧ L t)
    (hlost : ∀ s a t, L s → step s a = some t → L t) : ∀ (as : List α) {s t : σ}, P s → run step s as = some t →
      Meets step C s as ∧ P t ∨ ¬ Meets step C s as ∧ L t
  | [], s, t, hs, hr => by
    cases hr
    exact Or.inl ⟨trivial, hs⟩
  | a :: as, s, t, hs, hr => by
    simp only [run] at hr
    split at hr
    · next u hu =>
      rcases hkeep s a u hs hu with ⟨hc, hP⟩ | ⟨hc, hL⟩
      · have hiff : Meets step C s (a :: as) ↔ Meets step C u as := by
          refine ⟨fun h => (h u hu).2, fun h v hv => ?_⟩
          rw [hu] at hv
          cases hv
          exact ⟨hc, h⟩
        rw [hiff]
        exact run_exact hkeep hlost as hP hr
      · exact Or.inr ⟨fun h => hc (h u hu).1, run_inv hlost as hL hr⟩
    · cases hr

end Runs
