import Mathlib.Algebra.BigOperators.Ring.Finset
import Mathlib.Algebra.Order.BigOperators.Group.Finset
import Mathlib.Algebra.Order.Ring.Int
import Mathlib.Data.Set.Card

/- Jobs under way, each with a weight, and what the weights come to altogether. A number that
   every step changes by the weight the job had and the weight it has next is the sum of the
   weights in every state (`total_update`), so it is nothing when no job is left
   (`total_idle`) and bounds the number of jobs that count (`encard_le_total`). -/
namespace Tally

variable {ι J : Type} [DecidableEq ι]

/-- The weights of the jobs of `ids`. -/
def total (ids : Finset ι) (jobs : ι → Option J) (w : J → Int) : Int := ∑ i ∈ ids, (jobs i).elim 0 w

/-- All jobs are those of `ids`. -/
def Within (ids : Finset ι) (jobs : ι → Option J) : Prop := ∀ i, i ∉ ids → jobs i = none

variable {ids : Finset ι} {jobs jobs' : ι → Option J} {w w' : J → Int}

/-- Job `i` is replaced. -/
def Replaces (jobs jobs' : ι → Option J) (i : ι) (job : Option J) : Prop :=
  jobs' i = job ∧ ∀ j, j ≠ i → jobs' j = jobs j

theorem Within.insert (h : Within ids jobs) {i : ι} {job : Option J} (hr : Replaces jobs jobs' i job) :
    Within (insert i ids) jobs' := by
  intro j hj
  rw [Finset.mem_insert, not_or] at hj
  rw [hr.2 j hj.1]
  exact h j hj.2

theorem total_update (h : Within ids jobs) {i : ι} {job : Option J} (hr : Replaces jobs jobs' i job) :
    total (insert i ids) jobs' w = total ids jobs w - (jobs i).elim 0 w + job.elim 0 w := by
  have hsplit : ∀ t : ι → Option J, total (insert i ids) t w = (t i).elim 0 w + ∑ j ∈ ids.erase i, (t j).elim 0 w := by
    intro t
    rw [total, ← Finset.add_sum_erase _ _ (Finset.mem_insert_self i ids), Finset.erase_insert_eq_erase]
  have hsame : ∑ j ∈ ids.erase i, (jobs' j).elim 0 w = ∑ j ∈ ids.erase i, (jobs j).elim 0 w := by
    refine Finset.sum_congr rfl fun j hj => ?_
    rw [hr.2 j (Finset.ne_of_mem_erase hj)]
  have hwider : total (insert i ids) jobs w = total ids jobs w := by
    refine (Finset.sum_subset (Finset.subset_insert i ids) fun j _ hj => ?_).symm
    rw [h j hj]
    rfl
  rw [hsplit, hr.1, hsame, ← hwider, hsplit]
  omega

omit [DecidableEq ι] in
theorem total_idle (hidle : ∀ i, jobs i = none) : total ids jobs w = 0 := by
  refine Finset.sum_eq_zero fun i _ => ?_
  rw [hidle i]
  rfl

omit [DecidableEq ι] in
theorem total_mono (hw : ∀ j, w j ≤ w' j) : total ids jobs w ≤ total ids jobs w' := by
  refine Finset.sum_le_sum fun i _ => ?_
  cases jobs i with
  | none => exact le_refl 0
  | some j => exact hw j

omit [DecidableEq ι] in
theorem le_total (h : Within ids jobs) (hw : ∀ j, 0 ≤ w j) {i : ι} {j : J} (hi : jobs i = some j) :
    w j ≤ total ids jobs w := by
  have hmem : i ∈ ids := by
    by_contra hno
    rw [h i hno] at hi
    cases hi
  have hweight : ∀ k ∈ ids, 0 ≤ (jobs k).elim 0 w := by
    intro k _
    cases jobs k with
    | none => exact le_refl 0
    | some j => exact hw j
  have hle := Finset.single_le_sum hweight hmem
  rwa [hi] at hle

omit [DecidableEq ι] in
/-- The jobs that count are at most the total, where each of them weighs one. -/
theorem encard_le_total (h : Within ids jobs) (hw : ∀ j, 0 ≤ w j) {C : J → Prop} (hC : ∀ j, C j → 1 ≤ w j) :
    {i | ∃ j, jobs i = some j ∧ C j}.encard ≤ (total ids jobs w).toNat := by
  classical
  have hset : {i | ∃ j, jobs i = some j ∧ C j} ⊆ ↑(ids.filter fun i => ∃ j, jobs i = some j ∧ C j) := by
    rintro i ⟨j, hi, hj⟩
    refine Finset.mem_coe.mpr (Finset.mem_filter.mpr ⟨?_, j, hi, hj⟩)
    by_contra hno
    rw [h i hno] at hi
    cases hi
  have hone : ∀ i ∈ ids, (if ∃ j, jobs i = some j ∧ C j then 1 else 0 : Int) ≤ (jobs i).elim 0 w := by
    intro i _
    split
    · next hcounts =>
      obtain ⟨j, hi, hj⟩ := hcounts
      rw [hi]
      exact hC j hj
    · cases jobs i with
      | none => exact le_refl 0
      | some j => exact hw j
  have hcard : ((ids.filter fun i => ∃ j, jobs i = some j ∧ C j).card : Int) ≤ total ids jobs w := by
    rw [Finset.card_filter, Nat.cast_sum]
    simp only [Nat.cast_ite, Nat.cast_one, Nat.cast_zero]
    exact Finset.sum_le_sum hone
  calc {i | ∃ j, jobs i = some j ∧ C j}.encard
      ≤ (↑(ids.filter fun i => ∃ j, jobs i = some j ∧ C j) : Set ι).encard := Set.encard_le_encard hset
    _ = (ids.filter fun i => ∃ j, jobs i = some j ∧ C j).card := Set.encard_coe_eq_coe_finsetCard _
    _ ≤ (total ids jobs w).toNat := by
        have hnat : (ids.filter fun i => ∃ j, jobs i = some j ∧ C j).card ≤ (total ids jobs w).toNat := by omega
        exact_mod_cast hnat

end Tally
