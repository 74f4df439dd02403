import DeepSeekWebToApi.Lib.Sorting
import Mathlib.Logic.Function.Basic

/- Handing out items one by one to the bin with the least load. A run that gives every item to
   a bin of least load (`Greedy`) leaves each bin that received one at most one above every
   other (`Greedy.level`). -/
namespace LeastLoaded

section Greedy
variable {β : Type} [DecidableEq β]

/-- One more item for the bin. -/
def bump (load : β → Nat) (x : β) : β → Nat := Function.update load x (load x + 1)

theorem bump_self (load : β → Nat) (x : β) : bump load x x = load x + 1 := Function.update_self _ _ _

theorem bump_of_ne {load : β → Nat} {x y : β} (h : y ≠ x) : bump load x y = load y := Function.update_of_ne h _ _

theorem le_bump (load : β → Nat) (x y : β) : load y ≤ bump load x y := by
  by_cases h : y = x
  · rw [h, bump_self]
    exact Nat.le_succ _
  · rw [bump_of_ne h]

/-- The bins that receive the items, each of least load in the pool at its turn. -/
inductive Greedy (pool : β → Prop) : (β → Nat) → List β → (β → Nat) → Prop where
  | done (load : β → Nat) : Greedy pool load [] load
  | give {load after : β → Nat} {x : β} {xs : List β} (mem : pool x) (least : ∀ y, pool y → load x ≤ load y)
      (rest : Greedy pool (bump load x) xs after) : Greedy pool load (x :: xs) after

/-- The bin is at most one above every bin of the pool. -/
def Level (pool : β → Prop) (load : β → Nat) (x : β) : Prop := ∀ y, pool y → load x ≤ load y + 1

variable {pool : β → Prop} {load after : β → Nat} {x z : β}

theorem level_bump (least : ∀ y, pool y → load x ≤ load y) : Level pool (bump load x) x := by
  intro y hy
  have hle := le_bump load x y
  have hx := least y hy
  rw [bump_self]
  omega

theorem Level.bump (h : Level pool load z) (least : ∀ y, pool y → load x ≤ load y) :
    Level pool (bump load x) z := by
  by_cases hz : z = x
  · rw [hz]
    exact level_bump least
  · intro y hy
    rw [bump_of_ne hz]
    exact Nat.le_trans (h y hy) (Nat.succ_le_succ (le_bump load x y))

theorem Greedy.mem {xs : List β} (h : Greedy pool load xs after) : ∀ z ∈ xs, pool z := by
  induction h with
  | done load => exact fun z hz => absurd hz List.not_mem_nil
  | give mem least rest ih => exact List.forall_mem_cons.mpr ⟨mem, ih⟩

/-- A level bin stays level, and a bin that receives an item becomes so. -/
theorem Greedy.level {xs : List β} (h : Greedy pool load xs after) :
    (∀ z, Level pool load z → Level pool after z) ∧ ∀ z ∈ xs, Level pool after z := by
  induction h with
  | done load => exact ⟨fun _ hz => hz, fun z hz => absurd hz List.not_mem_nil⟩
  | give mem least rest ih =>
    refine ⟨fun z hz => ih.1 z (hz.bump least), List.forall_mem_cons.mpr ⟨ih.1 _ (level_bump least), ih.2⟩⟩

end Greedy

end LeastLoaded
