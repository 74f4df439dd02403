import DeepSeekWebToApi.Lib.RuneText
import DeepSeekWebToApi.Lib.UpperCase

/- Words and sets of ASCII in texts of any runes. A byte of ASCII is a rune of its own, so a
   word of ASCII begins at a rune of the text it is found in, and trimming by a set of ASCII
   runes goes byte by byte. -/
namespace GoStrings

/-! Runes of ASCII. -/

theorem group_ascii : ∀ (n : Nat) (s : Bytes), ∀ g ∈ splitRunesAux n s, g.1 < 0x80 → ∃ b : UInt8, g = (b.toNat, [b])
  | 0, _, _, hg, _ => absurd hg List.not_mem_nil
  | _ + 1, [], _, hg, _ => absurd hg List.not_mem_nil
  | n + 1, b :: s, g, hg, hascii => by
    rw [splitRunesAux, List.mem_cons] at hg
    rcases hg with rfl | hg
    · by_cases hb : b.toNat < 0x80
      · refine ⟨b, ?_⟩
        rw [decodeRune_ascii hb]
        rfl
      · exact absurd hascii (Nat.not_lt.mpr (decodeRune_outside (Nat.not_lt.mp hb) s))
    · exact group_ascii n _ g hg hascii

theorem encodeRune_of_lt {r : Nat} (h : r < 0x80) : encodeRune r = [r.toUInt8] := if_pos h

/-- Every byte of another rune is outside ASCII. -/
theorem encodeRune_of_le {r : Nat} (h : 0x80 ≤ r) : ∀ b ∈ encodeRune r, 0x80 ≤ b.toNat := by
  refine encodeRune_outside ?_
  rw [encodeRune, if_neg (Nat.not_lt.mpr h)]
  split_ifs <;> simp

theorem encodeRune_upper {b : UInt8} (h : b.toNat < 0x80) : encodeRune (upperRune b.toNat) = [upperAscii b] := by
  unfold upperRune upperAscii within
  simp only [if_pos h, Bool.and_eq_true, decide_eq_true_eq]
  split
  · next hlower =>
    rw [encodeRune, if_pos (by omega), List.singleton_inj, ← UInt8.toNat_inj, Nat.toUInt8_eq, UInt8.toNat_ofNat',
      UInt8.toNat_sub_of_le _ _ (UInt8.le_iff_toNat_le.mpr (Nat.le_trans (by decide) hlower.1))]
    exact Nat.mod_eq_of_lt (by omega)
  · rw [encodeRune, if_pos h, List.singleton_inj, Nat.toUInt8_eq]
    exact UInt8.ofNat_toNat

theorem toUpper_runes (s : Bytes) : toUpper s = (splitRunes s).flatMap (fun g => encodeRune (upperRune g.1)) := by
  unfold toUpper
  split
  · next hascii => exact flatMap_ascii encodeRune_upper hascii
  · rfl

/-! Trimming. -/

theorem trimRight_ascii {cutset : List Nat} (hcut : ∀ r ∈ cutset, r < 0x80) (s : Bytes) :
    trimRight s cutset = s.rdropWhile (fun b => cutset.contains b.toNat) := by
  induction s using List.reverseRecOn with
  | nil => rfl
  | append_singleton u b ih =>
    rw [List.rdropWhile_concat]
    by_cases hb : b.toNat < 0x80
    · have hsplit : splitRunes (u ++ [b]) = splitRunes u ++ [(b.toNat, [b])] := by
        rw [splitRunes_append_ascii hb [] u, splitRunes_ascii hb]
        rfl
      rw [trimRight, hsplit, List.rdropWhile_concat]
      split
      · exact ih
      · rw [← hsplit, joinRunes_splitRunes]
    · -- the last rune has the byte `b` and is none of the set
      have hno : ∀ r, 0x80 ≤ r → ¬ cutset.contains r = true := fun r hr hmem =>
        absurd (hcut r (List.contains_iff_mem.mp hmem)) (Nat.not_lt.mpr hr)
      rw [if_neg (hno _ (Nat.not_lt.mp hb)), trimRight]
      have hself : (splitRunes (u ++ [b])).rdropWhile (fun g => cutset.contains g.1) = splitRunes (u ++ [b]) := by
        refine List.rdropWhile_eq_self_iff.mpr fun hne => hno _ (Nat.not_lt.mp fun hascii => ?_)
        obtain ⟨c, hc⟩ := group_ascii _ _ _ (List.getLast_mem hne) hascii
        have hjoin := joinRunes_splitRunes (u ++ [b])
        rw [← List.dropLast_append_getLast hne, hc, joinRunes, List.flatMap_append] at hjoin
        have hlast : [c] = [b] := List.append_inj_right' hjoin rfl
        rw [hc, List.singleton_inj.mp hlast] at hascii
        exact hb hascii
      rw [hself, joinRunes_splitRunes]

/-! Words. -/

section words
variable {w : List Nat}

theorem hasPrefix_word : ∀ {w : List Nat} (_ : ∀ r ∈ w, r < 0x80) (rs : List Nat),
    hasPrefix (encode rs) (encode w) = w.isPrefixOf rs
  | [], _, rs => by
    cases rs with
    | nil => rfl
    | cons r rs => rfl
  | a :: w, hw, [] => by
    obtain ⟨ha, -⟩ := List.forall_mem_cons.mp hw
    rw [encode, encode, List.flatMap_cons, encodeRune_of_lt ha]
    rfl
  | a :: w, hw, r :: rs => by
    obtain ⟨ha, hw'⟩ := List.forall_mem_cons.mp hw
    have ih : hasPrefix (rs.flatMap encodeRune) (w.flatMap encodeRune) = w.isPrefixOf rs := hasPrefix_word hw' rs
    rw [encode, encode, List.flatMap_cons, List.flatMap_cons, encodeRune_of_lt ha, List.isPrefixOf]
    by_cases hr : r < 0x80
    · rw [encodeRune_of_lt hr, hasPrefix, List.singleton_append, List.singleton_append, List.isPrefixOf, ← hasPrefix, ih]
      refine congrArg (· && _) ?_
      rw [Bool.eq_iff_iff, beq_iff_eq, beq_iff_eq, ← UInt8.toNat_inj, toNat_toUInt8 (by omega), toNat_toUInt8 (by omega)]
    · have hne : (a == r) = false := beq_eq_false_iff_ne.mpr (by omega)
      obtain ⟨c, v, hc⟩ := List.exists_cons_of_ne_nil (encodeRune_ne_nil r)
      have hbyte := encodeRune_of_le (Nat.not_lt.mp hr) c (hc ▸ List.mem_cons_self)
      have hne' : (a.toUInt8 == c) = false := by
        refine beq_eq_false_iff_ne.mpr fun heq => ?_
        rw [← heq, toNat_toUInt8 (by omega)] at hbyte
        omega
      rw [hne, hc, hasPrefix, List.singleton_append, List.cons_append, List.isPrefixOf, hne', Bool.false_and,
        Bool.false_and]

/-- Nothing of ASCII begins among bytes outside of it. -/
theorem index_outside {a : UInt8} {word : Bytes} (ha : a.toNat < 0x80) (t : Bytes) : ∀ {u : Bytes},
    (∀ b ∈ u, 0x80 ≤ b.toNat) → index (u ++ t) (a :: word) = (index t (a :: word)).map (· + u.length)
  | [], _ => by simp
  | b :: u, h => by
    obtain ⟨hb, hu⟩ := List.forall_mem_cons.mp h
    have hno : hasPrefix (b :: u ++ t) (a :: word) = false := by
      rw [hasPrefix, List.cons_append, List.isPrefixOf, beq_eq_false_iff_ne.mpr (fun heq => ?_), Bool.false_and]
      rw [heq] at ha
      omega
    rw [List.cons_append, index, ← List.cons_append, hno, if_neg Bool.false_ne_true, index_outside ha t hu,
      Option.map_map, List.length_cons]
    refine congrArg (Option.map · _) (funext fun i => ?_)
    simp only [Function.comp_apply]
    omega

/-- The items in front of the first place where the runes of the items begin with a word. -/
def beforeWord {α : Type} (rune : α → Nat) (w : List Nat) : List α → Option (List α)
  | [] => none
  | a :: l => if w.isPrefixOf (rune a :: l.map rune) then some [] else (beforeWord rune w l).map (a :: ·)

/-- A word of ASCII is found behind the encoding of the runes in front of it. -/
theorem index_word {α : Type} (rune : α → Nat) (hw : ∀ r ∈ w, r < 0x80) (hne : w ≠ []) : ∀ l : List α,
    index (encode (l.map rune)) (encode w) = (beforeWord rune w l).map (fun before => (encode (before.map rune)).length)
  | [] => by
    obtain ⟨a, v, rfl⟩ := List.exists_cons_of_ne_nil hne
    obtain ⟨ha, -⟩ := List.forall_mem_cons.mp hw
    rw [encode, encode, List.flatMap_cons, encodeRune_of_lt ha]
    rfl
  | a :: l => by
    have ih := index_word rune hw hne l
    have hstart := hasPrefix_word hw ((a :: l).map rune)
    rw [beforeWord, ← List.map_cons]
    by_cases hp : w.isPrefixOf ((a :: l).map rune) = true
    · rw [if_pos hp, index.eq_def, hstart, if_pos hp]
      rfl
    · rw [if_neg hp, Option.map_map]
      have hskip : index (encode ((a :: l).map rune)) (encode w) =
          (index (encode (l.map rune)) (encode w)).map (· + (encodeRune (rune a)).length) := by
        obtain ⟨c, v, rfl⟩ := List.exists_cons_of_ne_nil hne
        obtain ⟨hc, -⟩ := List.forall_mem_cons.mp hw
        have hword : encode (c :: v) = c.toUInt8 :: encode v := by
          rw [encode, List.flatMap_cons, encodeRune_of_lt hc]
          rfl
        have hcons : encode ((a :: l).map rune) = encodeRune (rune a) ++ encode (l.map rune) := rfl
        rw [hword] at hstart ⊢
        rw [hcons] at hstart ⊢
        by_cases ha : rune a < 0x80
        · rw [encodeRune_of_lt ha, List.singleton_append] at hstart ⊢
          rw [index, hstart, if_neg hp]
          rfl
        · exact index_outside (by rw [toNat_toUInt8 (by omega)]; exact hc) _ (encodeRune_of_le (Nat.not_lt.mp ha))
      rw [hskip, ih, Option.map_map]
      refine congrArg (Option.map · _) (funext fun before => ?_)
      simp only [Function.comp_apply, List.map_cons, encode, List.flatMap_cons, List.length_append]
      omega

end words

end GoStrings
