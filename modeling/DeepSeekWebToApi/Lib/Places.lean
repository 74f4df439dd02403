import Mathlib.Data.List.Basic

/- The places at which a list has an element of a kind, and the cut of a list before the last
   `k` of them: what is behind the cut starts with an element of the kind and has exactly `k`. -/
namespace Places

variable {α : Type} (p : α → Bool)

/-- The indices of the elements of the kind, counted from `n`. -/
def placesFrom (n : Nat) : List α → List Nat
  | [] => []
  | a :: l => if p a then n :: placesFrom (n + 1) l else placesFrom (n + 1) l

def places (l : List α) : List Nat := placesFrom p 0 l

variable {p}

theorem length_placesFrom : ∀ (n : Nat) (l : List α), (placesFrom p n l).length = l.countP p
  | _, [] => rfl
  | n, a :: l => by
    rw [placesFrom, List.countP_cons]
    split
    · next h => rw [List.length_cons, length_placesFrom]
    · next h => rw [length_placesFrom, Nat.add_zero]

theorem length_places (l : List α) : (places p l).length = l.countP p := length_placesFrom 0 l

/-- The place with `j` of the kind before it. -/
theorem placesFrom_get : ∀ {n i j : Nat} {l : List α}, (placesFrom p n l)[j]? = some i →
    ∃ u x v, l = u ++ x :: v ∧ i = n + u.length ∧ p x = true ∧ u.countP p = j
  | _, _, _, [], h => by cases h
  | n, i, j, a :: l, h => by
    rw [placesFrom] at h
    split at h
    · next ha =>
      cases j with
      | zero =>
        obtain rfl : n = i := by simpa using h
        exact ⟨[], a, l, rfl, rfl, ha, rfl⟩
      | succ j =>
        obtain ⟨u, x, v, rfl, rfl, hx, hu⟩ := placesFrom_get (by simpa using h)
        refine ⟨a :: u, x, v, rfl, ?_, hx, ?_⟩
        · rw [List.length_cons]
          omega
        · rw [List.countP_cons_of_pos ha, hu]
    · next ha =>
      obtain ⟨u, x, v, rfl, rfl, hx, hu⟩ := placesFrom_get h
      refine ⟨a :: u, x, v, rfl, ?_, hx, ?_⟩
      · rw [List.length_cons]
        omega
      · rw [List.countP_cons_of_neg ha, hu]

/-- The cut before the last `k` of the kind. -/
theorem exists_cut {l : List α} {k : Nat} (hpos : 0 < k) (hk : k ≤ l.countP p) :
    ∃ u x v, l = u ++ x :: v ∧ (places p l)[(places p l).length - k]? = some u.length ∧ p x = true ∧
      (x :: v).countP p = k := by
  have hlt : (places p l).length - k < (places p l).length := by
    rw [length_places]
    omega
  obtain ⟨u, x, v, hl, hi, hx, hu⟩ := placesFrom_get (List.getElem?_eq_getElem hlt)
  refine ⟨u, x, v, hl, ?_, hx, ?_⟩
  · rw [List.getElem?_eq_getElem hlt]
    exact congrArg some (hi.trans (Nat.zero_add _))
  · have hall : l.countP p = u.countP p + (x :: v).countP p := by rw [hl, List.countP_append]
    rw [length_places] at hu
    omega

/-- Before the cut there is something if the list has more than `k` of the kind. -/
theorem cut_pos {u v : List α} {x : α} {k : Nat} (hk : k < (u ++ x :: v).countP p) (hcut : (x :: v).countP p = k) :
    u ≠ [] := by
  rintro rfl
  rw [List.nil_append] at hk
  omega

end Places
