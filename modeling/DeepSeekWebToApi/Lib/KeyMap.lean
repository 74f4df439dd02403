import DeepSeekWebToApi.Lib.Strings

/- Go maps with string keys, as lists in the ascending order of their keys, the order in which
   `json.Marshal` writes a map. -/
abbrev KeyMap (β : Type) := List (GoStrings.Bytes × β)

namespace KeyMap
open GoStrings

variable {β γ : Type}

def get (m : KeyMap β) (key : Bytes) : Option β := (m.find? (fun kv => kv.1 == key)).map Prod.snd

/-- Set a key, in its place in the order. -/
def insert (key : Bytes) (value : β) : KeyMap β → KeyMap β
  | [] => [(key, value)]
  | (k, v) :: m =>
    if key = k then (key, value) :: m
    else if key < k then (key, value) :: (k, v) :: m
    else (k, v) :: insert key value m

def erase (m : KeyMap β) (key : Bytes) : KeyMap β := m.filter (fun kv => kv.1 != key)

def Sorted (m : KeyMap β) : Prop := m.Pairwise (fun a b => a.1 < b.1)

variable {m : KeyMap β}

theorem Sorted.of_keys {n : KeyMap γ} (h : m.Sorted) (heq : n.map Prod.fst = m.map Prod.fst) : n.Sorted := by
  have hkeys : (m.map Prod.fst).Pairwise (· < ·) := List.pairwise_map.mpr h
  rw [← heq] at hkeys
  exact List.pairwise_map.mp hkeys

variable {key : Bytes} {value : β}

theorem mem_insert {kv : Bytes × β} : ∀ {m : KeyMap β},
    kv ∈ m.insert key value → kv = (key, value) ∨ kv ∈ m
  | [], h => Or.inl (List.mem_singleton.mp h)
  | (k, v) :: m, h => by
    rw [insert] at h
    split_ifs at h
    · exact (List.mem_cons.mp h).imp id (List.mem_cons_of_mem _)
    · exact List.mem_cons.mp h
    · rcases List.mem_cons.mp h with h | h
      · exact Or.inr (h ▸ List.mem_cons_self)
      · exact (mem_insert h).imp id (List.mem_cons_of_mem _)

theorem Sorted.insert : ∀ {m : KeyMap β}, m.Sorted →
    (m.insert key value).Sorted
  | [], _ => List.pairwise_singleton _ _
  | (k, v) :: m, h => by
    obtain ⟨hk, hm⟩ := List.pairwise_cons.mp h
    rw [KeyMap.insert]
    split_ifs with heq hlt
    · exact List.pairwise_cons.mpr ⟨heq ▸ hk, hm⟩
    · refine List.pairwise_cons.mpr ⟨List.forall_mem_cons.mpr ⟨hlt, ?_⟩, h⟩
      exact fun kv hkv => List.lt_trans hlt (hk kv hkv)
    · refine List.pairwise_cons.mpr ⟨fun kv hkv => ?_, Sorted.insert hm⟩
      rcases mem_insert hkv with rfl | hkv
      · refine List.not_le.mp fun hle => heq ?_
        exact List.le_antisymm hle (List.not_lt.mp hlt)
      · exact hk kv hkv

theorem get_cons (key k : Bytes) (v : β) (m : KeyMap β) :
    get ((key, v) :: m) k = if key = k then some v else get m k := by
  rw [get, List.find?_cons]
  by_cases h : key = k
  · rw [if_pos h, beq_iff_eq.mpr h]
    rfl
  · rw [if_neg h, beq_eq_false_iff_ne.mpr h]
    rfl

variable {k : Bytes}

theorem get_eq_none (h : ∀ kv ∈ m, k < kv.1) : m.get k = none := by
  refine Option.map_eq_none_iff.mpr (List.find?_eq_none.mpr fun kv hkv heq => ?_)
  exact List.lt_irrefl k (beq_iff_eq.mp heq ▸ h kv hkv)

theorem mem_of_get {v : β} (h : m.get k = some v) : (k, v) ∈ m := by
  obtain ⟨kv, hkv, rfl⟩ := Option.map_eq_some_iff.mp h
  have hkey : kv.1 = k := beq_iff_eq.mp (List.find?_some (p := fun kv : Bytes × β => kv.1 == k) hkv)
  rw [← hkey]
  exact List.mem_of_find?_eq_some hkv

theorem get_of_mem {v : β} : ∀ {m : KeyMap β}, m.Sorted → (k, v) ∈ m → m.get k = some v
  | (j, u) :: m, h, hmem => by
    obtain ⟨hj, hm⟩ := List.pairwise_cons.mp h
    rw [get_cons]
    rcases List.mem_cons.mp hmem with heq | hmem
    · obtain ⟨rfl, rfl⟩ := Prod.mk.inj heq
      exact if_pos rfl
    · have hne : j ≠ k := fun heq => List.lt_irrefl k (heq ▸ hj (k, v) hmem)
      rw [if_neg hne, get_of_mem hm hmem]

/-- A key behind all others goes to the end. -/
theorem insert_last : ∀ {m : KeyMap β},
    (∀ kv ∈ m, kv.1 < key) → m.insert key value = m ++ [(key, value)]
  | [], _ => rfl
  | (k, v) :: m, h => by
    obtain ⟨hk, hm⟩ := List.forall_mem_cons.mp h
    have hne : key ≠ k := fun heq => List.lt_irrefl k (heq ▸ hk)
    rw [insert, if_neg hne, if_neg (List.lt_asymm hk), insert_last hm, List.cons_append]

theorem get_insert (key k : Bytes) (value : β) : ∀ m : KeyMap β,
    (m.insert key value).get k = if key = k then some value else m.get k
  | [] => get_cons key k value []
  | (j, v) :: m => by
    rw [insert]
    by_cases hk : key = k
    · subst hk
      rw [if_pos rfl]
      split_ifs with heq hlt
      · rw [get_cons, if_pos rfl]
      · rw [get_cons, if_pos rfl]
      · rw [get_cons, if_neg (Ne.symm heq), get_insert key key value m, if_pos rfl]
    · rw [if_neg hk]
      split_ifs with heq hlt
      · rw [get_cons, get_cons, if_neg hk, if_neg (heq ▸ hk)]
      · rw [get_cons, if_neg hk]
      · rw [get_cons, get_cons, get_insert key k value m, if_neg hk]

theorem filter_insert {p : Bytes → Bool} (h : p key = false) (value : β) :
    ∀ m : KeyMap β, (m.insert key value).filter (fun kv => p kv.1) = m.filter (fun kv => p kv.1)
  | [] => by
    rw [insert, List.filter_cons, h]
    rfl
  | (j, v) :: m => by
    rw [insert]
    split_ifs with heq hlt
    · subst heq
      simp only [List.filter_cons, h, Bool.false_eq_true, if_false]
    · simp only [List.filter_cons, h, Bool.false_eq_true, if_false]
    · rw [List.filter_cons, List.filter_cons, filter_insert h value m]

theorem get_filter {p : Bytes × β → Bool} : ∀ {m : KeyMap β}, m.Sorted →
    get (m.filter p) k = (m.get k).filter (fun v => p (k, v))
  | [], _ => rfl
  | (j, v) :: m, h => by
    obtain ⟨hj, hm⟩ := List.pairwise_cons.mp h
    by_cases hk : j = k
    · subst hk
      rw [get_cons, if_pos rfl]
      cases hp : p (j, v) with
      | true => rw [List.filter_cons, if_pos hp, get_cons, if_pos rfl, Option.filter_some, if_pos hp]
      | false =>
        have hnone : get (m.filter p) j = none :=
          get_eq_none fun kv hkv => hj kv (List.mem_filter.mp hkv).1
        simp only [List.filter_cons, hp, Option.filter_some, Bool.false_eq_true, if_false, hnone]
    · rw [get_cons, if_neg hk, ← get_filter hm, List.filter_cons]
      split_ifs
      · rw [get_cons, if_neg hk]
      · rfl

theorem get_erase (key k : Bytes) : ∀ m : KeyMap β, (m.erase key).get k = if key = k then none else m.get k
  | [] => (ite_self none).symm
  | (j, v) :: m => by
    have ih := get_erase key k m
    rw [erase] at ih ⊢
    rw [List.filter_cons, get_cons]
    by_cases hj : j = key
    · subst hj
      simp only [bne_self_eq_false, Bool.false_eq_true, if_false, ih]
      split_ifs <;> rfl
    · rw [if_pos (bne_iff_ne.mpr hj), get_cons, ih]
      by_cases hk : j = k
      · subst hk
        rw [if_pos rfl, if_pos rfl, if_neg (Ne.symm hj)]
      · rw [if_neg hk, if_neg hk]

theorem isSome_get : (m.get k).isSome = true ↔ k ∈ m.map Prod.fst := by
  rw [get, Option.isSome_map, List.find?_isSome, List.mem_map]
  simp only [beq_iff_eq]

theorem Sorted.filter (h : m.Sorted) (p : Bytes × β → Bool) : Sorted (m.filter p) :=
  List.Pairwise.filter p h

theorem get_map (g : β → γ) (k : Bytes) : ∀ m : KeyMap β,
    get (m.map (fun kv => (kv.1, g kv.2))) k = (m.get k).map g
  | [] => rfl
  | (j, v) :: m => by
    rw [List.map_cons, get_cons, get_cons, get_map g k m]
    split_ifs <;> rfl

theorem map_insert (g : β → γ) (key : Bytes) (value : β) : ∀ m : KeyMap β,
    (m.insert key value).map (fun kv => (kv.1, g kv.2)) =
      KeyMap.insert key (g value) (m.map (fun kv => (kv.1, g kv.2)))
  | [] => rfl
  | (k, v) :: m => by
    rw [insert, List.map_cons, insert]
    split_ifs
    · rfl
    · rfl
    · rw [List.map_cons, map_insert g key value m]

/-! Sums over the values of a map. -/

def total (f : β → Int) (m : KeyMap β) : Int := (m.map (fun kv => f kv.2)).sum

@[simp] theorem total_nil (f : β → Int) : total f ([] : KeyMap β) = 0 := rfl

@[simp] theorem total_cons (f : β → Int) (kv : Bytes × β) (m : KeyMap β) :
    total f (kv :: m) = f kv.2 + total f m := by
  simp [total]

theorem total_filter_add (f : β → Int) (p : Bytes × β → Bool) : ∀ m : KeyMap β,
    total f (m.filter p) + total f (m.filter (fun kv => !p kv)) = total f m
  | [] => rfl
  | kv :: m => by
    have ih := total_filter_add f p m
    cases hp : p kv <;> simp [hp] <;> omega

theorem total_nonneg {f : β → Int} : ∀ {m : KeyMap β}, (∀ kv ∈ m, 0 ≤ f kv.2) → 0 ≤ total f m
  | [], _ => Int.le_refl 0
  | kv :: m, h => by
    obtain ⟨hkv, hm⟩ := List.forall_mem_cons.mp h
    have ih := total_nonneg hm
    rw [total_cons]
    omega

theorem total_insert (f : β → Int) (key : Bytes) (value : β) : ∀ {m : KeyMap β}, m.Sorted →
    total f (m.insert key value) = total f m - (m.get key).elim 0 f + f value
  | [], _ => by simp [insert, get]
  | (k, v) :: m, h => by
    obtain ⟨hk, hm⟩ := List.pairwise_cons.mp h
    rw [insert]
    by_cases heq : key = k
    · rw [if_pos heq, get_cons, if_pos heq.symm, total_cons, total_cons]
      simp only [Option.elim_some]
      omega
    · rw [if_neg heq, get_cons, if_neg (Ne.symm heq)]
      split_ifs with hlt
      · -- a key before the first one is not in the map
        have hnone : get m key = none := get_eq_none fun kv hkv => List.lt_trans hlt (hk kv hkv)
        simp only [hnone, total_cons, Option.elim_none]
        omega
      · rw [total_cons, total_cons, total_insert f key value hm]
        omega

theorem total_erase (f : β → Int) (h : m.Sorted) (hget : m.get key = some value) :
    total f (m.erase key) = total f m - f value := by
  induction m with
  | nil => cases hget
  | cons kv m ih =>
    obtain ⟨hk, hm⟩ := List.pairwise_cons.mp h
    rw [get_cons] at hget
    rw [erase, List.filter_cons]
    split_ifs at hget with heq
    · cases hget
      have hself : m.filter (fun kv => kv.1 != key) = m := by
        refine List.filter_eq_self.mpr fun a ha => bne_iff_ne.mpr fun hak => ?_
        have hlt : kv.1 < a.1 := hk a ha
        rw [heq, hak] at hlt
        exact List.lt_irrefl key hlt
      rw [if_neg (by simp [heq]), hself, total_cons]
      omega
    · have hrest := ih hm hget
      rw [erase] at hrest
      rw [if_pos (bne_iff_ne.mpr heq), total_cons, total_cons, hrest]
      omega

end KeyMap
