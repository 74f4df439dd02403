import Mathlib.Data.List.Dedup
import Mathlib.Data.List.Perm.Basic
import Mathlib.Data.List.Nodup

/- The order by last use: what was not used yet, in its first order, and then what was used, in
   the order of the last uses. Moving an item to the end when it is used keeps a list in this
   order, as long as no item is in it twice. -/
namespace LeastRecent

variable {α : Type} [DecidableEq α]

/-- Items ordered by last use; of the uses of an item `dedup` keeps the last one. -/
def order (items uses : List α) : List α := items.filter (· ∉ uses) ++ uses.dedup

theorem order_nil (items : List α) : order items [] = items := by simp [order]

theorem dedup_concat (a : α) : ∀ l : List α, (l ++ [a]).dedup = l.dedup.filter (· ≠ a) ++ [a]
  | [] => rfl
  | b :: l => by
    have ih := dedup_concat a l
    rw [List.cons_append]
    by_cases hl : b ∈ l
    · rw [List.dedup_cons_of_mem hl, List.dedup_cons_of_mem (List.mem_append_left _ hl), ih]
    · rw [List.dedup_cons_of_notMem hl]
      by_cases hb : b = a
      · rw [List.dedup_cons_of_mem (List.mem_append_right _ (List.mem_singleton.mpr hb)), ih,
          List.filter_cons_of_neg (by simp [hb])]
      · have hnot : b ∉ l ++ [a] := by simp [hl, hb]
        rw [List.dedup_cons_of_notMem hnot, ih, List.filter_cons_of_pos (by simp [hb]), List.cons_append]

variable {items uses : List α}

theorem order_nodup (h : items.Nodup) : (order items uses).Nodup := by
  refine List.nodup_append.mpr ⟨h.filter _, List.nodup_dedup _, fun a ha b hb hab => ?_⟩
  exact of_decide_eq_true (List.mem_filter.mp ha).2 (List.mem_dedup.mp (hab ▸ hb))

/-- A use moves the item to the end. -/
theorem order_concat [BEq α] [LawfulBEq α] (h : items.Nodup) (a : α) : order items (uses ++ [a]) = (order items uses).erase a ++ [a] := by
  rw [(order_nodup h).erase_eq_filter, order, order, dedup_concat, List.filter_append, List.filter_filter,
    List.append_assoc]
  refine congrArg₂ _ (List.filter_congr fun b _ => ?_) (congrArg (· ++ [a]) (List.filter_congr fun b _ => ?_))
  · by_cases hb : b = a
    · simp [hb]
    · simp [hb]
  · by_cases hb : b = a
    · simp [hb]
    · simp [hb]

end LeastRecent
