import Mathlib.Logic.Relation
import Mathlib.Order.Basic

/- Loops. A loop body looks at the state and ends the loop with a result, goes on
   with a new state, or panics (`none`). `loop` gives it one turn more than a measure
   of the first state. Where every turn decreases the measure the number of turns is no
   limit: the loop is its body followed by itself (`loop_eq`), and it answers unless a
   turn it comes to panics (`loop_ne_none_iff`). `loop_inv` is the invariant rule. -/
namespace GoLoop

/-- What a turn of a loop ends in. -/
inductive Turn (σ ρ : Type) where
  | done (r : ρ)
  | next (s : σ)

variable {σ ρ : Type}

/-- The state after a turn, in a loop that ends with one. -/
def Turn.state : Turn σ σ → σ
  | .done s => s
  | .next s => s

/-- The result of a loop that ends within `n` turns. -/
def turns (body : σ → Option (Turn σ ρ)) : Nat → σ → Option ρ
  | 0, _ => none
  | n + 1, s =>
    match body s with
    | none => none
    | some (.done r) => some r
    | some (.next t) => turns body n t

def loop (μ : σ → Nat) (body : σ → Option (Turn σ ρ)) (s : σ) : Option ρ := turns body (μ s + 1) s

/-- Every turn that goes on decreases the measure. -/
def Decreases (μ : σ → Nat) (body : σ → Option (Turn σ ρ)) : Prop :=
  ∀ s t, body s = some (.next t) → μ t < μ s

variable {μ : σ → Nat} {body : σ → Option (Turn σ ρ)}

/-- A loop over offsets ends where every turn starts below the bound and moves on. -/
theorem Decreases.of_moves {bound : Nat} {f : σ → Nat}
    (h : ∀ s t, body s = some (.next t) → f s < bound ∧ f s < f t) :
    Decreases (fun s => bound - f s) body := by
  intro s t ht
  have hs := h s t ht
  show bound - f t < bound - f s
  omega

/-- Turns beyond the measure are not used. -/
theorem Decreases.turns_eq (h : Decreases μ body) {n m : Nat} {s : σ} (hn : μ s < n)
    (hm : μ s < m) : turns body n s = turns body m s := by
  induction n generalizing m s with
  | zero => omega
  | succ n ih =>
    cases m with
    | zero => omega
    | succ m =>
      simp only [turns]
      split
      · rfl
      · rfl
      · next t ht =>
        have hlt := h s t ht
        exact ih (by omega) (by omega)

/-- A loop is its body followed by itself. -/
theorem Decreases.loop_eq (h : Decreases μ body) (s : σ) :
    loop μ body s =
      match body s with
      | none => none
      | some (.done r) => some r
      | some (.next t) => loop μ body t := by
  simp only [loop, turns]
  split
  · rfl
  · rfl
  · next t ht => exact h.turns_eq (h s t ht) (Nat.lt_succ_self _)

/-- `t` is a state the loop comes to from `s`. -/
def Visits (body : σ → Option (Turn σ ρ)) : σ → σ → Prop :=
  Relation.ReflTransGen (fun s t => body s = some (.next t))

/-- A loop goes on from every state it comes to. -/
theorem Decreases.loop_visits (h : Decreases μ body) {s t : σ} (hv : Visits body s t) :
    loop μ body s = loop μ body t := by
  induction hv using Relation.ReflTransGen.head_induction_on with
  | refl => rfl
  | head hstep _ ih =>
    rw [h.loop_eq, hstep]
    exact ih

theorem Decreases.loop_done (h : Decreases μ body) {s : σ} {r : ρ} (hs : body s = some (.done r)) :
    loop μ body s = some r := by
  rw [h.loop_eq, hs]

theorem Decreases.loop_next (h : Decreases μ body) {s t : σ} (hs : body s = some (.next t)) :
    loop μ body s = loop μ body t := by
  rw [h.loop_eq, hs]

/-- `t` is the state after `n` turns from `s`. -/
inductive After (body : σ → Option (Turn σ ρ)) : Nat → σ → σ → Prop
  | start (s : σ) : After body 0 s s
  | turn {n : Nat} {s t u : σ} (hs : body s = some (.next t)) (ht : After body n t u) : After body (n + 1) s u

/-- No turn comes behind a state whose turn does not go on. -/
theorem After.le {n m : Nat} {s t u : σ} (ht : After body n s t) (hlast : ∀ v, body t ≠ some (.next v))
    (hu : After body m s u) : m ≤ n := by
  induction ht generalizing m with
  | start s =>
    cases hu with
    | start _ => exact Nat.le_refl 0
    | turn hs _ => exact absurd hs (hlast _)
  | turn hs _ ih =>
    cases hu with
    | start _ => exact Nat.zero_le _
    | turn hs' hu =>
      cases hs.symm.trans hs'
      exact Nat.succ_le_succ (ih hlast hu)

/-- A loop comes, within as many turns as its measure, to a turn that does not go on, and answers
    what that turn does. -/
theorem Decreases.ends (h : Decreases μ body) (s : σ) : ∃ n t, n ≤ μ s ∧ After body n s t ∧
    (body t = none ∧ loop μ body s = none ∨ ∃ r, body t = some (.done r) ∧ loop μ body s = some r) := by
  induction hn : μ s using Nat.strongRecOn generalizing s with
  | _ k ih =>
    cases hs : body s with
    | none => exact ⟨0, s, Nat.zero_le _, .start s, Or.inl ⟨hs, by rw [h.loop_eq, hs]⟩⟩
    | some turn =>
      cases turn with
      | done r => exact ⟨0, s, Nat.zero_le _, .start s, Or.inr ⟨r, hs, h.loop_done hs⟩⟩
      | next t =>
        have hlt := h s t hs
        rw [hn] at hlt
        obtain ⟨n, u, hle, hafter, hend⟩ := ih (μ t) hlt t rfl
        rw [h.loop_next hs]
        exact ⟨n + 1, u, by omega, .turn hs hafter, hend⟩

/-- A loop answers exactly when no turn it comes to panics. -/
theorem Decreases.loop_ne_none_iff (h : Decreases μ body) {s : σ} :
    loop μ body s ≠ none ↔ ∀ t, Visits body s t → body t ≠ none := by
  constructor
  · intro hs t ht
    induction ht using Relation.ReflTransGen.head_induction_on with
    | refl =>
      intro hnone
      rw [h.loop_eq, hnone] at hs
      exact hs rfl
    | head hstep _ ih =>
      rw [h.loop_eq, hstep] at hs
      exact ih hs
  · intro hall
    -- the measure decreases along the turns
    induction hn : μ s using Nat.strongRecOn generalizing s with
    | _ n ih =>
      rw [h.loop_eq]
      split
      · next hnone => exact absurd hnone (hall s .refl)
      · exact Option.some_ne_none _
      · next t ht => exact ih (μ t) (hn ▸ h s t ht) (fun u hu => hall u (.head ht hu)) rfl

theorem turns_inv {I : σ → Prop} {Q : ρ → Prop}
    (hnext : ∀ s t, I s → body s = some (.next t) → I t)
    (hdone : ∀ s r, I s → body s = some (.done r) → Q r) :
    ∀ (n : Nat) {s : σ} {r : ρ}, I s → turns body n s = some r → Q r
  | 0, _, _, _, hr => by cases hr
  | n + 1, s, r, hs, hr => by
    simp only [turns] at hr
    split at hr
    · cases hr
    · next r' hbody =>
      cases hr
      exact hdone s r hs hbody
    · next t hbody => exact turns_inv hnext hdone n (hnext s t hs hbody) hr

/-- What holds at first, is kept by every turn and gives `Q` at the end, gives `Q` of the result. -/
theorem loop_inv {I : σ → Prop} {Q : ρ → Prop}
    (hnext : ∀ s t, I s → body s = some (.next t) → I t)
    (hdone : ∀ s r, I s → body s = some (.done r) → Q r) {s : σ} {r : ρ} (hs : I s)
    (hr : loop μ body s = some r) : Q r :=
  turns_inv hnext hdone _ hs hr

/-! Conditions on every turn. -/

/-- `C` holds of the states of the next `n` turns. -/
def passes (body : σ → Option (Turn σ ρ)) (C : σ → Prop) : Nat → σ → Prop
  | 0, _ => True
  | n + 1, s => C s ∧ ∀ t, body s = some (.next t) → passes body C n t

/-- `C` holds of every state the loop passes through. -/
def Along (μ : σ → Nat) (body : σ → Option (Turn σ ρ)) (C : σ → Prop) (s : σ) : Prop :=
  passes body C (μ s + 1) s

/-! What a loop leaves behind. -/

/-- The states of the next `n` turns. -/
def trailTurns (body : σ → Option (Turn σ ρ)) : Nat → σ → List σ
  | 0, _ => []
  | n + 1, s =>
    match body s with
    | some (.next t) => s :: trailTurns body n t
    | _ => [s]

/-- The states the loop passes through. -/
def trail (μ : σ → Nat) (body : σ → Option (Turn σ ρ)) (s : σ) : List σ := trailTurns body (μ s + 1) s

theorem turns_trail_inv {I : List σ → σ → Prop} {Q : List σ → ρ → Prop}
    (hnext : ∀ l s t, I l s → body s = some (.next t) → I (l ++ [s]) t)
    (hdone : ∀ l s r, I l s → body s = some (.done r) → Q (l ++ [s]) r) :
    ∀ (n : Nat) {l : List σ} {s : σ} {r : ρ}, I l s → turns body n s = some r →
      Q (l ++ trailTurns body n s) r
  | 0, _, _, _, _, hr => by cases hr
  | n + 1, l, s, r, hs, hr => by
    simp only [turns] at hr
    split at hr
    · cases hr
    · next r' hbody =>
      cases hr
      simp only [trailTurns, hbody]
      exact hdone l s r hs hbody
    · next t hbody =>
      simp only [trailTurns, hbody]
      rw [List.append_cons]
      exact turns_trail_inv hnext hdone n (hnext l s t hs hbody) hr

/-- The invariant rule for a state and the states before it. -/
theorem loop_trail_inv {I : List σ → σ → Prop} {Q : List σ → ρ → Prop}
    (hnext : ∀ l s t, I l s → body s = some (.next t) → I (l ++ [s]) t)
    (hdone : ∀ l s r, I l s → body s = some (.done r) → Q (l ++ [s]) r) {s : σ} {r : ρ}
    (hs : I [] s) (hr : loop μ body s = some r) : Q (trail μ body s) r :=
  turns_trail_inv hnext hdone _ hs hr

/-- Where a turn keeps `P` exactly under `C`, and ends up in `L` for good otherwise, the result
    and the states on the way tell whether every turn met `C`. -/
theorem loop_trail_exact {C : σ → Prop} {P L : List σ → σ → Prop} {Q M : List σ → ρ → Prop}
    (hkeep : ∀ l s t, P l s → C s → body s = some (.next t) → P (l ++ [s]) t)
    (hlose : ∀ l s t, P l s → ¬ C s → body s = some (.next t) → L (l ++ [s]) t)
    (hlost : ∀ l s t, L l s → body s = some (.next t) → L (l ++ [s]) t)
    (hP : ∀ l s r, P l s → body s = some (.done r) → C s ∧ Q (l ++ [s]) r)
    (hL : ∀ l s r, L l s → body s = some (.done r) → M (l ++ [s]) r) {s : σ} {r : ρ}
    (hs : P [] s) (hr : loop μ body s = some r) :
    Along μ body C s ∧ Q (trail μ body s) r ∨ ¬ Along μ body C s ∧ M (trail μ body s) r := by
  have hturns : ∀ (n : Nat) (l : List σ) (s : σ), P l s → turns body n s = some r →
      passes body C n s ∧ Q (l ++ trailTurns body n s) r ∨
        ¬ passes body C n s ∧ M (l ++ trailTurns body n s) r := by
    intro n
    induction n with
    | zero => intro l s _ hr; cases hr
    | succ n ih =>
      intro l s hs hr
      simp only [turns] at hr
      split at hr
      · cases hr
      · next r' hbody =>
        cases hr
        obtain ⟨hc, hr'⟩ := hP l s r hs hbody
        simp only [trailTurns, hbody]
        refine Or.inl ⟨⟨hc, fun t ht => ?_⟩, hr'⟩
        rw [hbody] at ht
        cases ht
      · next t hbody =>
        simp only [trailTurns, hbody]
        rw [List.append_cons]
        by_cases hc : C s
        · -- the turn is no obstacle: what follows decides
          have hiff : passes body C (n + 1) s ↔ passes body C n t := by
            refine ⟨fun h => h.2 t hbody, fun h => ⟨hc, fun t' ht' => ?_⟩⟩
            rw [hbody] at ht'
            cases ht'
            exact h
          rw [hiff]
          exact ih (l ++ [s]) t (hkeep l s t hs hc hbody) hr
        · exact Or.inr ⟨fun h => hc h.1,
            turns_trail_inv hlost hL n (hlose l s t hs hc hbody) hr⟩
  exact hturns _ [] s hs hr

/-- Where a turn keeps `P` exactly under `C`, and ends up in `L` for good otherwise, the result
    tells whether every turn met `C`. -/
theorem loop_exact {C P L : σ → Prop} {Q M : ρ → Prop}
    (hkeep : ∀ s t, P s → C s → body s = some (.next t) → P t)
    (hlose : ∀ s t, P s → ¬ C s → body s = some (.next t) → L t)
    (hlost : ∀ s t, L s → body s = some (.next t) → L t)
    (hP : ∀ s r, P s → body s = some (.done r) → C s ∧ Q r)
    (hL : ∀ s r, L s → body s = some (.done r) → M r) {s : σ} {r : ρ} (hs : P s)
    (hr : loop μ body s = some r) :
    Along μ body C s ∧ Q r ∨ ¬ Along μ body C s ∧ M r :=
  loop_trail_exact (P := fun _ => P) (L := fun _ => L) (Q := fun _ => Q) (M := fun _ => M)
    (fun _ => hkeep) (fun _ => hlose) (fun _ => hlost) (fun _ => hP) (fun _ => hL) hs hr

end GoLoop
