import Mathlib.Algebra.BigOperators.Group.List.Basic
import Mathlib.Data.List.Nodup

/- Tables: lists of rows, each under a key of its own. `upsert` is the SQL statement
   `INSERT .. ON CONFLICT DO UPDATE`. Sums over a table are followed through it. -/
namespace Table

variable {α κ μ : Type} [DecidableEq κ] {key : α → κ}

/-- Put a row in the place of the one with its key, or behind the others. -/
def upsert (key : α → κ) (a : α) (rows : List α) : List α :=
  if key a ∈ rows.map key then rows.map (fun b => if key b = key a then a else b) else rows ++ [a]

theorem map_key_upsert (a : α) (rows : List α) : (upsert key a rows).map key =
    if key a ∈ rows.map key then rows.map key else rows.map key ++ [key a] := by
  unfold upsert
  split_ifs
  · rw [List.map_map]
    refine List.map_congr_left fun b _ => ?_
    rw [Function.comp_apply]
    split_ifs with h
    · exact h.symm
    · rfl
  · rw [List.map_append, List.map_singleton]

variable {rows : List α}

theorem nodup_upsert {a : α} (h : (rows.map key).Nodup) : ((upsert key a rows).map key).Nodup := by
  rw [map_key_upsert]
  split_ifs with hmem
  · exact h
  · exact List.nodup_append.mpr ⟨h, List.nodup_singleton _, fun b hb c hc heq =>
      hmem (List.mem_singleton.mp hc ▸ heq ▸ hb)⟩

theorem mem_keys_upsert {a : α} {k : κ} : k ∈ (upsert key a rows).map key ↔ k = key a ∨ k ∈ rows.map key := by
  rw [map_key_upsert]
  split_ifs with hmem
  · exact ⟨Or.inr, fun h => h.elim (fun heq => heq ▸ hmem) id⟩
  · rw [List.mem_append, List.mem_singleton, or_comm]

theorem mem_upsert {a b : α} (h : b ∈ upsert key a rows) : b = a ∨ b ∈ rows ∧ key b ≠ key a := by
  unfold upsert at h
  split_ifs at h with hmem
  · obtain ⟨c, hc, rfl⟩ := List.mem_map.mp h
    split_ifs with heq
    · exact Or.inl rfl
    · exact Or.inr ⟨hc, heq⟩
  · rcases List.mem_append.mp h with hb | hb
    · exact Or.inr ⟨hb, fun heq => hmem (heq ▸ List.mem_map_of_mem hb)⟩
    · exact Or.inl (List.mem_singleton.mp hb)

theorem mem_upsert_self (a : α) (rows : List α) : a ∈ upsert key a rows := by
  unfold upsert
  split_ifs with hmem
  · obtain ⟨b, hb, heq⟩ := List.mem_map.mp hmem
    exact List.mem_map.mpr ⟨b, hb, if_pos heq⟩
  · exact List.mem_append_right rows List.mem_cons_self

theorem mem_upsert_of_ne {a b : α} (hb : b ∈ rows) (hne : key b ≠ key a) : b ∈ upsert key a rows := by
  unfold upsert
  split_ifs
  · exact List.mem_map.mpr ⟨b, hb, if_neg hne⟩
  · exact List.mem_append_left _ hb

variable [AddCommMonoid μ] (value : α → μ)

theorem sum_upsert_new {a : α} (h : key a ∉ rows.map key) :
    ((upsert key a rows).map value).sum = (rows.map value).sum + value a := by
  rw [upsert, if_neg h, List.map_append, List.sum_append, List.map_singleton, List.sum_singleton]

/-- The row that is replaced goes out of the sum. -/
theorem sum_replace {a old : α} (hkey : key old = key a) : ∀ {rows : List α}, (rows.map key).Nodup →
    old ∈ rows → ((rows.map (fun b => if key b = key a then a else b)).map value).sum + value old =
      (rows.map value).sum + value a
  | b :: rows, hnodup, hold => by
    rw [List.map_cons, List.nodup_cons] at hnodup
    rw [List.map_cons, List.map_cons, List.sum_cons, List.map_cons, List.sum_cons]
    rcases List.mem_cons.mp hold with rfl | hold
    · have hrest : rows.map (fun b => if key b = key a then a else b) = rows := by
        refine (List.map_congr_left fun c hc => if_neg fun heq => ?_).trans (List.map_id rows)
        exact hnodup.1 (hkey.trans heq.symm ▸ List.mem_map_of_mem hc)
      rw [if_pos hkey, hrest, add_comm (value a), add_assoc, add_comm (value a), ← add_assoc,
        add_comm (List.sum _)]
    · have hne : key b ≠ key a := fun heq =>
        hnodup.1 (heq.trans hkey.symm ▸ List.mem_map_of_mem hold)
      rw [if_neg hne, add_assoc, sum_replace hkey hnodup.2 hold, add_assoc]

theorem sum_upsert_old {a old : α} (hkey : key old = key a) (hnodup : (rows.map key).Nodup) (hold : old ∈ rows) :
    ((upsert key a rows).map value).sum + value old = (rows.map value).sum + value a := by
  rw [upsert, if_pos (hkey ▸ List.mem_map_of_mem hold), sum_replace value hkey hnodup hold]

omit [DecidableEq κ] in
/-- Rows that are taken out by their keys leave the others. -/
theorem filter_perm_take [BEq κ] [LawfulBEq κ] {rows sorted : List α} (hperm : sorted.Perm rows)
    (hnodup : (rows.map key).Nodup) (n : Nat) :
    (rows.filter (fun a => !((sorted.drop n).map key).contains (key a))).Perm (sorted.take n) := by
  have hsorted : ((sorted.take n ++ sorted.drop n).map key).Nodup := by
    rw [List.take_append_drop]
    exact (hperm.map key).nodup_iff.mpr hnodup
  rw [List.map_append, List.nodup_append] at hsorted
  have hsplit (p : α → Bool) :
      sorted.filter p = (sorted.take n).filter p ++ (sorted.drop n).filter p := by
    rw [← List.filter_append, List.take_append_drop]
  have htake : (sorted.take n).filter (fun a => !((sorted.drop n).map key).contains (key a)) =
      sorted.take n := by
    refine List.filter_eq_self.mpr fun a ha => ?_
    rw [Bool.not_eq_true', Bool.eq_false_iff, ne_eq, List.contains_iff_mem]
    exact fun hmem => hsorted.2.2 _ (List.mem_map_of_mem ha) _ hmem rfl
  have hdrop : (sorted.drop n).filter (fun a => !((sorted.drop n).map key).contains (key a)) = [] := by
    refine List.filter_eq_nil_iff.mpr fun a ha => ?_
    rw [Bool.not_eq_true, Bool.not_eq_false', List.contains_iff_mem]
    exact List.mem_map_of_mem ha
  refine (hperm.filter _).symm.trans ?_
  rw [hsplit, htake, hdrop, List.append_nil]

end Table
