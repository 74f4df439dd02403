import DeepSeekWebToApi.Lib.CaseFold
import DeepSeekWebToApi.Lib.Utf8

/- The text functions on encoded runes: they trim, split and fold the runes and encode the
   result. Lower-casing twice is lower-casing once, and neither adds nor removes white space. -/
namespace GoStrings

/-! Lower case. -/

/-- The first and the last rune a range is moved to. -/
def CaseRange.target (c : CaseRange) : Nat × Nat :=
  ((c.lo + c.delta).toNat, (c.hi + c.delta).toNat)

/-- No rune lands in `d`: the ranges are apart, or they alternate. -/
def CaseRange.misses (c d : CaseRange) : Bool :=
  Nat.blt c.target.2 d.lo || Nat.blt d.hi c.target.1 ||
    ((c.stride == 2 || c.lo == c.hi) && d.stride == 2 && (c.target.1 + d.lo) % 2 == 1)

theorem caseRanges_misses : caseRanges.all (fun c => caseRanges.all c.misses) = true := by
  decide +kernel

/-- White space outside ASCII stands in these gaps of the table. -/
def spaceGaps : List (Nat × Nat) :=
  [(0x80, 0xBF), (0x1680, 0x1680), (0x2000, 0x2029), (0x202F, 0x205F), (0x3000, 0x3000),
   (0xD800, 0xDFFF)]

/-- A range and its target lie between the gaps; `i` and `k` come from beyond ASCII. -/
def CaseRange.plain (c : CaseRange) : Bool :=
  0 < c.lo + c.delta && 0x80 ≤ c.lo && c.lo ≤ c.hi && c.target.2 < 0x110000 &&
    (0x80 ≤ c.target.1 || (c.lo == c.hi && (c.target.1 == 0x69 || c.target.1 == 0x6B))) &&
    spaceGaps.all (fun gap =>
      (c.hi < gap.1 || gap.2 < c.lo) && (c.target.2 < gap.1 || gap.2 < c.target.1))

theorem caseRanges_plain : caseRanges.all CaseRange.plain = true := by
  decide +kernel

/-- What lower-casing does to a rune. -/
inductive Lowers : Nat → Nat → Prop
  | same (r : Nat) : Lowers r r
  | ascii {r : Nat} (hlo : 0x41 ≤ r) (hhi : r ≤ 0x5A) : Lowers r (r + 32)
  | range {r t : Nat} {c : CaseRange} (hc : c ∈ caseRanges) (hlo : c.lo ≤ r) (hhi : r ≤ c.hi)
      (hstride : (r - c.lo) % c.stride = 0) (ht : t = (r + c.delta).toNat) : Lowers r t

theorem lowerRune_lowers (r : Nat) : Lowers r (lowerRune r) := by
  unfold lowerRune
  split_ifs with hascii hupper
  · exact .ascii hupper.1 hupper.2
  · exact .same r
  · split
    · next c hc =>
      have hin := List.find?_some hc
      simp only [Bool.and_eq_true, decide_eq_true_eq, beq_iff_eq] at hin
      exact .range (List.mem_of_find?_eq_some hc) hin.1.1 hin.1.2 hin.2 rfl
    · exact .same r

/-- The facts of the table at a rune of a range. -/
theorem CaseRange.at {r : Nat} {c : CaseRange} (hc : c ∈ caseRanges) (hlo : c.lo ≤ r)
    (hhi : r ≤ c.hi) : 0x80 ≤ r ∧ c.target.1 + (r - c.lo) = (r + c.delta).toNat ∧
      (r + c.delta).toNat ≤ c.target.2 ∧ c.target.2 < 0x110000 ∧
      (0x80 ≤ (r + c.delta).toNat ∨ (r + c.delta).toNat = 0x69 ∨ (r + c.delta).toNat = 0x6B) ∧
      ∀ gap ∈ spaceGaps, (r < gap.1 ∨ gap.2 < r) ∧
        ((r + c.delta).toNat < gap.1 ∨ gap.2 < (r + c.delta).toNat) := by
  have hplain := List.all_eq_true.mp caseRanges_plain c hc
  simp only [CaseRange.plain, Bool.and_eq_true, Bool.or_eq_true, List.all_eq_true,
    decide_eq_true_eq, beq_iff_eq] at hplain
  simp only [CaseRange.target] at hplain ⊢
  obtain ⟨⟨⟨⟨⟨hpos, h80⟩, hle⟩, hmax⟩, hascii⟩, hgaps⟩ := hplain
  refine ⟨by omega, by omega, by omega, hmax, by omega, fun gap hgap => ?_⟩
  have hgap := hgaps gap hgap
  omega

theorem lowerRune_idem (r : Nat) : lowerRune (lowerRune r) = lowerRune r := by
  have hlow := lowerRune_lowers r
  generalize hr : lowerRune r = t at hlow ⊢
  cases hlow with
  | same => exact hr
  | ascii hlo hhi =>
    unfold lowerRune
    rw [if_pos (by omega), if_neg (by omega)]
  | range hc hlo hhi hstride ht =>
    obtain ⟨_, hshift, hmax, _, hascii, _⟩ := CaseRange.at hc hlo hhi
    rw [← ht] at hshift hmax hascii
    unfold lowerRune
    by_cases hsmall : t < 0x80
    · rw [if_pos hsmall, if_neg (by omega)]
    · have hnone : caseRanges.find?
          (fun d => d.lo ≤ t && t ≤ d.hi && (t - d.lo) % d.stride == 0) = none := by
        refine List.find?_eq_none.mpr fun d hd hin => ?_
        have hmiss := List.all_eq_true.mp (List.all_eq_true.mp caseRanges_misses _ hc) d hd
        simp only [CaseRange.misses, Bool.and_eq_true, Bool.or_eq_true, decide_eq_true_eq,
          beq_iff_eq, Nat.blt_eq] at hin hmiss
        rcases hmiss with (hmiss | hmiss) | ⟨⟨heven, hd2⟩, hodd⟩
        · omega
        · omega
        · -- the two ranges alternate, so the moved rune is between two of the other
          rw [hd2] at hin
          rcases heven with hc2 | hone
          · rw [hc2] at hstride
            omega
          · omega
      rw [if_neg hsmall, hnone]

theorem not_isSpace_of_gaps {r : Nat} (h80 : 0x80 ≤ r)
    (hgaps : ∀ gap ∈ spaceGaps, r < gap.1 ∨ gap.2 < r) : isSpace r = false := by
  simp only [spaceGaps, List.forall_mem_cons, List.not_mem_nil, false_implies, implies_true,
    and_true] at hgaps
  simp only [isSpace, Bool.or_eq_false_iff, Bool.and_eq_false_iff, decide_eq_false_iff_not,
    beq_eq_false_iff_ne]
  omega

theorem isSpace_lowerRune (r : Nat) : isSpace (lowerRune r) = isSpace r := by
  have hlow := lowerRune_lowers r
  generalize lowerRune r = t at hlow ⊢
  cases hlow with
  | same => rfl
  | ascii hlo hhi =>
    rw [Bool.eq_iff_iff]
    simp only [isSpace, Bool.or_eq_true, Bool.and_eq_true, decide_eq_true_eq, beq_iff_eq]
    omega
  | range hc hlo hhi hstride ht =>
    obtain ⟨h80, _, _, _, hascii, hgaps⟩ := CaseRange.at hc hlo hhi
    rw [← ht] at hascii hgaps
    rw [not_isSpace_of_gaps h80 (fun gap hgap => (hgaps gap hgap).1)]
    rcases hascii with h | h | h
    · exact not_isSpace_of_gaps h (fun gap hgap => (hgaps gap hgap).2)
    · rw [h]
      decide
    · rw [h]
      decide

theorem Scalar.lowerRune {r : Nat} (h : Scalar r) : Scalar (lowerRune r) := by
  have hlow := lowerRune_lowers r
  generalize GoStrings.lowerRune r = t at hlow ⊢
  cases hlow with
  | same => exact h
  | ascii hlo hhi =>
    unfold Scalar
    omega
  | range hc hlo hhi hstride ht =>
    obtain ⟨_, _, hmax, hlimit, _, hgaps⟩ := CaseRange.at hc hlo hhi
    rw [← ht] at hmax hgaps
    have hsurrogate := (hgaps (0xD800, 0xDFFF) (by decide)).2
    unfold Scalar
    omega

/-- On ASCII a map of the runes is a map of the bytes. -/
theorem flatMap_ascii {f : Nat → Nat} {g : UInt8 → UInt8}
    (h : ∀ {b : UInt8}, b.toNat < 0x80 → encodeRune (f b.toNat) = [g b]) : ∀ {s : Bytes}, s.all (· < 0x80) = true →
    s.map g = (splitRunes s).flatMap (fun r => encodeRune (f r.1))
  | [], _ => rfl
  | b :: s, hascii => by
    rw [List.all_cons, Bool.and_eq_true, decide_eq_true_eq] at hascii
    have hb : b.toNat < 0x80 := UInt8.lt_iff_toNat_lt.mp hascii.1
    rw [splitRunes_ascii hb, List.flatMap_cons, h hb, ← flatMap_ascii h hascii.2]
    rfl

theorem toLower_runes (s : Bytes) :
    toLower s = (splitRunes s).flatMap (fun g => encodeRune (lowerRune g.1)) := by
  unfold toLower
  split
  · next hascii => exact flatMap_ascii encodeRune_ascii hascii
  · rfl

theorem toLower_encode {rs : List Nat} (h : ∀ r ∈ rs, Scalar r) :
    toLower (encode rs) = encode (rs.map lowerRune) := by
  rw [toLower_runes, splitRunes_encode h, List.flatMap_map, encode, List.flatMap_map]

theorem trimSpace_encode {rs : List Nat} (h : ∀ r ∈ rs, Scalar r) :
    trimSpace (encode rs) = encode ((rs.dropWhile isSpace).rdropWhile isSpace) := by
  have hspace : isSpaceRune ∘ (fun r => (r, encodeRune r)) = isSpace := rfl
  rw [trimSpace, splitRunes_encode h, List.dropWhile_map, hspace, List.rdropWhile, ← List.map_reverse,
    List.dropWhile_map, hspace, ← List.map_reverse, joinRunes_pairs]
  rfl

theorem toLower_eq_encode (s : Bytes) : toLower s = encode ((splitRunes s).map (fun g => lowerRune g.1)) := by
  rw [toLower_runes, encode, List.flatMap_map]

theorem lowered_scalar (s : Bytes) : ∀ r ∈ (splitRunes s).map (fun g => lowerRune g.1), Scalar r :=
  List.forall_mem_map.mpr fun g hg => (splitRunes_scalar _ g hg).lowerRune

theorem toLower_trimSpace (s : Bytes) : toLower (trimSpace s) = trimSpace (toLower s) := by
  have hkind : isSpace ∘ (fun g : Nat × Bytes => lowerRune g.1) = isSpaceRune :=
    funext fun g => isSpace_lowerRune g.1
  rw [toLower_eq_encode, splitRunes_trimSpace, toLower_eq_encode s, trimSpace_encode (lowered_scalar s),
    List.dropWhile_map, hkind, List.rdropWhile, List.rdropWhile, ← List.map_reverse, List.dropWhile_map, hkind,
    ← List.map_reverse]

theorem toLower_idem (s : Bytes) : toLower (toLower s) = toLower s := by
  rw [toLower_eq_encode s, toLower_encode (lowered_scalar s), List.map_map]
  exact congrArg encode (List.map_congr_left fun g _ => lowerRune_idem g.1)

/-- Trimming and lower-casing a second time changes nothing. -/
theorem lower_trim_idem (s : Bytes) : toLower (trimSpace (toLower (trimSpace s))) = toLower (trimSpace s) := by
  rw [toLower_trimSpace, toLower_idem, ← toLower_trimSpace, trimSpace_idem]

/-! Texts put together at the first byte of a rune. -/

variable {b : UInt8}

/-- A byte that extends no rune ends the one before it. -/
theorem splitRunes_append_lead (hb : b.toNat < 0x80 ∨ 0xC0 ≤ b.toNat) (v : Bytes) : ∀ u : Bytes,
    splitRunes (u ++ b :: v) = splitRunes u ++ splitRunes (b :: v)
  | [] => rfl
  | c :: u => by
    have hwidth : (decodeRune (c :: u ++ b :: v)).2 ≤ (c :: u).length := by
      by_contra hlong
      -- the rune has more than one byte, and one of them is `b`
      have hmem : b ∈ ((c :: u ++ b :: v).take (decodeRune (c :: u ++ b :: v)).2).tail := by
        rw [List.take_append, List.take_of_length_le (by omega), List.cons_append, List.tail_cons,
          List.mem_append]
        refine Or.inr ?_
        obtain ⟨k, hk⟩ := Nat.exists_eq_add_of_lt (Nat.not_le.mp hlong)
        rw [hk, show (c :: u).length + k + 1 - (c :: u).length = k + 1 by omega]
        exact List.mem_cons_self
      have htail := decodeRune_tail c (u ++ b :: v) b hmem
      omega
    have hdec := decodeRune_append (List.cons_ne_nil c u) hwidth
    have hpos := decodeRune_width_pos c u
    rw [List.cons_append, splitRunes_cons, ← List.cons_append, ← hdec, splitRunes_cons c u,
      List.take_append_of_le_length (by rw [hdec]; exact hwidth),
      List.drop_append_of_le_length (by rw [hdec]; exact hwidth),
      splitRunes_append_lead hb v, List.cons_append]
  termination_by u => u.length
  decreasing_by
    rw [List.length_drop, List.length_cons]
    omega

theorem IsUtf8.splitRunes_behind {w : Bytes} (h : IsUtf8 w) (hne : w ≠ []) (u v : Bytes) :
    splitRunes (u ++ (w ++ v)) = splitRunes u ++ splitRunes (w ++ v) := by
  obtain ⟨rs, -, rfl⟩ := h
  obtain ⟨r, rs, rfl⟩ := List.exists_cons_of_ne_nil (show rs ≠ [] from fun hnil => hne (by rw [hnil]; rfl))
  obtain ⟨b, x, hb, hlead⟩ := encodeRune_lead r
  rw [encode, List.flatMap_cons, hb]
  exact splitRunes_append_lead hlead _ u

theorem splitRunes_append_ascii (hb : b.toNat < 0x80) (v u : Bytes) :
    splitRunes (u ++ b :: v) = splitRunes u ++ splitRunes (b :: v) :=
  splitRunes_append_lead (Or.inl hb) v u

theorem splitRunes_solid : ∀ {s : Bytes}, (∀ b ∈ s, b.toNat < 0x80 ∧ isSpace b.toNat = false) →
    ∀ g ∈ splitRunes s, ¬ isSpaceRune g = true
  | [], _, g, hg => absurd hg List.not_mem_nil
  | b :: s, h, g, hg => by
    obtain ⟨hb, hs⟩ := List.forall_mem_cons.mp h
    rw [splitRunes_ascii hb.1] at hg
    rcases List.mem_cons.mp hg with rfl | hg
    · rw [isSpaceRune, hb.2]
      exact Bool.false_ne_true
    · exact splitRunes_solid hs g hg

/-- A text without white space is left as it is. -/
theorem trimSpace_of_solid {s : Bytes} (h : ∀ b ∈ s, b.toNat < 0x80 ∧ isSpace b.toNat = false) :
    trimSpace s = s := by
  have hsolid := splitRunes_solid h
  have hfront : (splitRunes s).dropWhile isSpaceRune = splitRunes s :=
    List.dropWhile_eq_self_iff.mpr fun hl => hsolid _ (List.getElem_mem hl)
  have hback : (splitRunes s).rdropWhile isSpaceRune = splitRunes s :=
    List.rdropWhile_eq_self_iff.mpr fun hl => hsolid _ (List.getLast_mem hl)
  rw [trimSpace, hfront, hback, joinRunes_splitRunes]

/-- A white space byte at the end is trimmed off. -/
theorem trimSpace_append_space (hb : b.toNat < 0x80) (hspace : isSpace b.toNat = true) (s : Bytes) :
    trimSpace (s ++ [b]) = trimSpace s := by
  have hrune : isSpaceRune (b.toNat, [b]) = true := hspace
  have hlast : splitRunes [b] = [(b.toNat, [b])] := by
    rw [splitRunes_ascii hb]
    rfl
  rw [trimSpace, splitRunes_append_ascii hb, hlast, List.dropWhile_append]
  split_ifs with hall
  · rw [List.dropWhile_cons_of_pos hrune, trimSpace, List.isEmpty_iff.mp hall]
    rfl
  · rw [List.rdropWhile_concat_pos _ _ _ hrune]
    rfl

/-- A text that begins with a byte that is no white space is trimmed at its end. -/
theorem trimSpace_solid (hb : b.toNat < 0x80) (hsolid : isSpace b.toNat = false) (s : Bytes) :
    ∃ t, trimSpace (b :: s) = b :: t ∧ t <+: s := by
  have hdrop : (splitRunes (b :: s)).dropWhile isSpaceRune = (b.toNat, [b]) :: splitRunes s := by
    rw [splitRunes_ascii hb]
    exact List.dropWhile_cons_of_neg (by simp [isSpaceRune, hsolid])
  obtain ⟨rest, hrest⟩ := List.rdropWhile_prefix isSpaceRune ((b.toNat, [b]) :: splitRunes s)
  have hkept : ((b.toNat, [b]) :: splitRunes s).rdropWhile isSpaceRune ≠ [] := by
    intro hnil
    have hall := List.rdropWhile_eq_nil_iff.mp hnil (b.toNat, [b]) List.mem_cons_self
    simp [isSpaceRune, hsolid] at hall
  obtain ⟨g, gs, hgs⟩ := List.exists_cons_of_ne_nil hkept
  rw [hgs, List.cons_append] at hrest
  obtain ⟨rfl, hgs'⟩ := List.cons.inj hrest
  refine ⟨joinRunes gs, ?_, joinRunes rest, ?_⟩
  · rw [trimSpace, hdrop, hgs]
    rfl
  · rw [joinRunes, joinRunes, ← List.flatMap_append, hgs']
    exact joinRunes_splitRunes s

variable {α : Type}

/-- What stands in front of an item that is kept is kept. -/
theorem rdropWhile_behind {p : α → Bool} {a : α} (ha : p a = false) (xs ys : List α) :
    (xs ++ a :: ys).rdropWhile p = xs ++ a :: ys.rdropWhile p := by
  have hreverse : (xs ++ a :: ys).reverse = ys.reverse ++ a :: xs.reverse := by simp
  rw [List.rdropWhile, hreverse, List.dropWhile_append, List.dropWhile_cons_of_neg (by rw [ha]; decide),
    List.rdropWhile]
  split
  · next h => simp [List.isEmpty_iff.mp h]
  · simp

theorem rdropWhile_start {p : α → Bool} {xs : List α} (h : ∀ x ∈ xs.getLast?, p x = false) (ys : List α) :
    xs <+: (xs ++ ys).rdropWhile p := by
  rcases List.eq_nil_or_concat xs with rfl | ⟨xs, x, rfl⟩
  · exact List.nil_prefix
  · rw [List.concat_eq_append, List.append_assoc, List.singleton_append, rdropWhile_behind (h x (by simp))]
    exact ⟨ys.rdropWhile p, by simp⟩

theorem rdropWhile_getLast (p : α → Bool) (xs : List α) : ∀ x ∈ (xs.rdropWhile p).getLast?, p x = false := by
  intro x hx
  obtain ⟨hne, rfl⟩ := List.mem_getLast?_eq_getLast hx
  exact Bool.eq_false_iff.mpr (List.rdropWhile_last_not p xs hne)

/-- What is left of a list when both its ends are trimmed is kept in front of another. -/
theorem trim_start (p : α → Bool) (xs ys : List α) :
    (xs.dropWhile p).rdropWhile p <+: ((xs ++ ys).dropWhile p).rdropWhile p := by
  rw [List.dropWhile_append]
  split
  · next hnil =>
    rw [List.isEmpty_iff.mp hnil]
    exact List.nil_prefix
  · obtain ⟨rest, hrest⟩ := List.rdropWhile_prefix p (xs.dropWhile p)
    have hstart := rdropWhile_start (rdropWhile_getLast p (xs.dropWhile p)) (rest ++ ys)
    rwa [← List.append_assoc, hrest] at hstart

/-- A list that is trimmed at both ends is kept inside another. -/
theorem trim_within {p : α → Bool} {xs : List α} (h : (xs.dropWhile p).rdropWhile p = xs) (us ys : List α) :
    xs <:+: ((us ++ (xs ++ ys)).dropWhile p).rdropWhile p := by
  have hlast : ∀ x ∈ xs.getLast?, p x = false := by
    rw [← h]
    exact rdropWhile_getLast p _
  rw [List.dropWhile_append]
  split
  · have hstart := trim_start p xs ys
    rw [h] at hstart
    exact hstart.isInfix
  · cases xs with
    | nil => exact List.nil_infix
    | cons x xs =>
      have hwhole := @rdropWhile_start _ p (us.dropWhile p ++ x :: xs) (by simpa using hlast) ys
      rw [List.append_assoc] at hwhole
      exact (List.suffix_append _ _).isInfix.trans hwhole.isInfix

theorem trimSpace_start {first : Bytes} (h : IsUtf8 first) (t : Bytes) :
    trimSpace first <+: trimSpace (first ++ t) := by
  rw [trimSpace, trimSpace, h.splitRunes_append]
  exact joinRunes_start (trim_start isSpaceRune _ _)

/-- A word of runes that neither begins nor ends with white space. -/
abbrev Solid (w : Bytes) : Prop := w ≠ [] ∧ w = encode ((splitRunes w).map Prod.fst) ∧ trimSpace w = w

theorem Solid.isUtf8 {w : Bytes} (h : Solid w) : IsUtf8 w :=
  ⟨_, List.forall_mem_map.mpr fun g hg => splitRunes_scalar _ g hg, h.2.1⟩

theorem Solid.toLower {w : Bytes} (h : Solid w) : Solid (toLower w) := by
  refine ⟨?_, ?_, by rw [← toLower_trimSpace, h.2.2]⟩
  · obtain ⟨b, s, rfl⟩ := List.exists_cons_of_ne_nil h.1
    rw [toLower_runes, splitRunes_cons, List.flatMap_cons]
    exact List.append_ne_nil_of_left_ne_nil (encodeRune_ne_nil _) _
  · rw [toLower_eq_encode, splitRunes_encode (lowered_scalar w), List.map_map]
    exact congrArg encode (List.map_id _).symm

/-- Trimming neither makes such a word nor takes one away. -/
theorem contains_trimSpace {w : Bytes} (h : Solid w) (t : Bytes) : contains (trimSpace t) w = contains t w := by
  rw [Bool.eq_iff_iff, contains_iff_within, contains_iff_within]
  refine ⟨fun hin => hin.trans (trimSpace_within t), ?_⟩
  rintro ⟨u, v, rfl⟩
  have hsplit : splitRunes (u ++ w ++ v) = splitRunes u ++ (splitRunes w ++ splitRunes v) := by
    rw [← h.isUtf8.splitRunes_append, List.append_assoc]
    exact h.isUtf8.splitRunes_behind h.1 u v
  have hruns : ((splitRunes w).dropWhile isSpaceRune).rdropWhile isSpaceRune = splitRunes w := by
    rw [← splitRunes_trimSpace, h.2.2]
  have hin := trim_within hruns (splitRunes u) (splitRunes v)
  rw [← hsplit] at hin
  have hjoin := joinRunes_within hin
  rwa [joinRunes_splitRunes] at hjoin

/-- A cut of white space at the end leaves a trimmed text in front of it. -/
theorem trimRight_keeps {first : Bytes} (h : IsUtf8 first) (htrim : trimSpace first = first) {cutset : List Nat}
    (hcut : ∀ r ∈ cutset, isSpace r = true) (t : Bytes) : first <+: trimRight (first ++ t) cutset := by
  have hlast : ∀ g ∈ (splitRunes first).getLast?, cutset.contains g.1 = false := by
    intro g hg
    rw [← htrim, splitRunes_trimSpace] at hg
    refine Bool.eq_false_iff.mpr fun hmem => ?_
    have hsolid : isSpace g.1 = false := rdropWhile_getLast isSpaceRune _ g hg
    rw [hcut g.1 (List.contains_iff_mem.mp hmem)] at hsolid
    cases hsolid
  have hjoin := joinRunes_start (rdropWhile_start hlast (splitRunes t))
  rwa [joinRunes_splitRunes, ← h.splitRunes_append] at hjoin

theorem IsUtf8.toLower_append {u : Bytes} (h : IsUtf8 u) (v : Bytes) :
    toLower (u ++ v) = toLower u ++ toLower v := by
  rw [toLower_runes, h.splitRunes_append, List.flatMap_append, ← toLower_runes, ← toLower_runes]

theorem IsUtf8.trimSpace {s : Bytes} (h : IsUtf8 s) : IsUtf8 (trimSpace s) := by
  obtain ⟨rs, hrs, rfl⟩ := h
  refine ⟨_, fun r hr => hrs r ?_, trimSpace_encode hrs⟩
  exact (List.dropWhile_suffix _).subset ((List.rdropWhile_prefix _ _).subset hr)

theorem toLower_cons_ascii (hb : b.toNat < 0x80) (v : Bytes) :
    toLower (b :: v) = lowerAscii b :: toLower v := by
  rw [toLower_runes, splitRunes_ascii hb, List.flatMap_cons, encodeRune_ascii hb, ← toLower_runes]
  rfl

theorem toLower_ascii_append (r : Bytes) : ∀ {w : Bytes}, (∀ b ∈ w, b.toNat < 0x80) →
    toLower (w ++ r) = w.map lowerAscii ++ toLower r
  | [], _ => rfl
  | b :: w, h => by
    obtain ⟨hb, hw⟩ := List.forall_mem_cons.mp h
    rw [List.cons_append, toLower_cons_ascii hb, toLower_ascii_append r hw]
    rfl

end GoStrings
