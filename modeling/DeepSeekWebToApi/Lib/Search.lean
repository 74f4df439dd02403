import DeepSeekWebToApi.Lib.Loop

/- Binary search for the place where a predicate on a range of indices stops to hold. The
   predicate reads an index and may panic on one out of range. -/
namespace Search
open GoLoop

/-- One turn of the search between two bounds. -/
def searchBody (p : Nat → Option Bool) (s : Nat × Nat) : Option (Turn (Nat × Nat) Nat) :=
  if s.1 < s.2 then
    let mid := s.1 + (s.2 - s.1) / 2
    (p mid).map (fun holds => .next (if holds then (mid + 1, s.2) else (s.1, mid)))
  else some (.done s.1)

def partitionPoint (p : Nat → Option Bool) (low high : Nat) : Option Nat :=
  loop (fun s => s.2 - s.1) (searchBody p) (low, high)

theorem searchBody_decreases (p : Nat → Option Bool) : Decreases (fun s => s.2 - s.1) (searchBody p) := by
  intro s t ht
  rw [searchBody] at ht
  split_ifs at ht with hlt
  · obtain ⟨holds, -, hnext⟩ := Option.map_eq_some_iff.mp ht
    cases hnext
    cases holds <;> simp <;> omega
  · cases ht

/-- Where the predicate holds below `k` exactly, the search finds `k`. -/
theorem partitionPoint_eq {p : Nat → Option Bool} {n k : Nat} (hp : ∀ i < n, p i = some (decide (i < k))) :
    ∀ {low high : Nat}, low ≤ k → k ≤ high → high ≤ n → partitionPoint p low high = some k := by
  intro low high
  -- each turn keeps `k` between the bounds
  induction hsize : high - low using Nat.strongRecOn generalizing low high with
  | _ size ih =>
    intro hlow hhigh hn
    rw [partitionPoint, (searchBody_decreases p).loop_eq, searchBody]
    by_cases hlt : low < high
    · simp only [if_pos hlt, hp (low + (high - low) / 2) (by omega)]
      by_cases hmid : low + (high - low) / 2 < k
      · simp only [hmid, decide_true, if_true, Option.map_some]
        exact ih (high - (low + (high - low) / 2 + 1)) (by omega) rfl (by omega) hhigh hn
      · simp only [hmid, decide_false, Bool.false_eq_true, if_false, Option.map_some]
        exact ih (low + (high - low) / 2 - low) (by omega) rfl hlow (by omega) (by omega)
    · rw [if_neg hlt]
      have hk : low = k := by omega
      simp [hk]

end Search
