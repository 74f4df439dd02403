import Mathlib.Data.List.Sort

/- Sorting by a comparison that refines an order: the items come out in that order, whatever the
   comparison does with equal ones. So the first one is least, and where no two items are equal
   in the order there is one result only. -/
namespace Sorting

variable {α : Type} {le r : α → α → Prop} [DecidableRel r]

theorem pairwise_orderedInsert (htrans : ∀ a b c, le a b → le b c → le a c) (hr : ∀ a b, r a b → le a b)
    (hn : ∀ a b, ¬ r a b → le b a) (a : α) : ∀ {l : List α}, l.Pairwise le → (l.orderedInsert r a).Pairwise le
  | [], _ => List.pairwise_singleton _ _
  | b :: l, h => by
    obtain ⟨hb, hl⟩ := List.pairwise_cons.mp h
    rw [List.orderedInsert]
    split_ifs with hab
    · refine List.pairwise_cons.mpr ⟨List.forall_mem_cons.mpr ⟨hr a b hab, fun c hc => ?_⟩, h⟩
      exact htrans a b c (hr a b hab) (hb c hc)
    · refine List.pairwise_cons.mpr ⟨fun c hc => ?_, pairwise_orderedInsert htrans hr hn a hl⟩
      rcases List.mem_cons.mp ((List.perm_orderedInsert r a l).mem_iff.mp hc) with rfl | hc
      · exact hn c b hab
      · exact hb c hc

theorem pairwise_insertionSort (htrans : ∀ a b c, le a b → le b c → le a c) (hr : ∀ a b, r a b → le a b)
    (hn : ∀ a b, ¬ r a b → le b a) : ∀ l : List α, (l.insertionSort r).Pairwise le
  | [] => List.Pairwise.nil
  | a :: l => by
    rw [List.insertionSort_cons]
    exact pairwise_orderedInsert htrans hr hn a (pairwise_insertionSort htrans hr hn l)

theorem head_insertionSort (le : α → α → Prop) (htrans : ∀ a b c, le a b → le b c → le a c) (hr : ∀ a b, r a b → le a b)
    (hn : ∀ a b, ¬ r a b → le b a) (hrefl : ∀ a, le a a) {l : List α} {a : α}
    (h : (l.insertionSort r).head? = some a) : a ∈ l ∧ ∀ b ∈ l, le a b := by
  have hperm := List.perm_insertionSort r l
  have hsorted := pairwise_insertionSort htrans hr hn l
  obtain ⟨rest, hrest⟩ := List.head?_eq_some_iff.mp h
  rw [hrest] at hperm hsorted
  refine ⟨hperm.mem_iff.mp List.mem_cons_self, fun b hb => ?_⟩
  rcases List.mem_cons.mp (hperm.mem_iff.mpr hb) with rfl | hb
  · exact hrefl _
  · exact (List.pairwise_cons.mp hsorted).1 b hb

end Sorting
