import DeepSeekWebToApi.Lib.Unicode

/- More of Go's `strings`: searching from the right, counting, trimming by a set of
   runes, splitting after a byte, and slices. A slice expression out of range
   panics; `slice` and `sliceFrom` answer `none` there. -/
namespace GoStrings

/-- `s[i:]`. -/
def sliceFrom (s : Bytes) (i : Nat) : Option Bytes := if i ≤ s.length then some (s.drop i) else none

theorem sliceFrom_eq_some_iff {s t : Bytes} {i : Nat} :
    sliceFrom s i = some t ↔ i ≤ s.length ∧ s.drop i = t := by
  unfold sliceFrom
  split
  · next h => simp [h]
  · next h => simp [h]

/-- `s[i:j]`. -/
def slice (s : Bytes) (i j : Nat) : Option Bytes :=
  if i ≤ j ∧ j ≤ s.length then some ((s.drop i).take (j - i)) else none

def hasSuffix (s p : Bytes) : Bool := p.isSuffixOf s

/-- `strings.TrimSuffix`. -/
def trimSuffix (s p : Bytes) : Bytes := if hasSuffix s p then s.take (s.length - p.length) else s

/-- `strings.LastIndex(s, sub)`. -/
def lastIndex : Bytes → Bytes → Option Nat
  | [], sub => if sub = [] then some 0 else none
  | b :: s, sub =>
    match lastIndex s sub with
    | some i => some (i + 1)
    | none => if hasPrefix (b :: s) sub then some 0 else none

/-- Occurrences of `sub` after the next `skip` bytes, none overlapping the one before. -/
def countFrom (sub : Bytes) : Nat → Bytes → Nat
  | _, [] => 0
  | skip + 1, _ :: s => countFrom sub skip s
  | 0, b :: s =>
    if hasPrefix (b :: s) sub then countFrom sub (sub.length - 1) s + 1 else countFrom sub 0 s

/-- `strings.Count(s, sub)` for a `sub` that is not empty. -/
def count (s sub : Bytes) : Nat := countFrom sub 0 s

/-- `replaceAll` after the next `skip` bytes. -/
def replaceAllFrom (old new : Bytes) : Nat → Bytes → Bytes
  | _, [] => []
  | skip + 1, _ :: s => replaceAllFrom old new skip s
  | 0, b :: s =>
    if hasPrefix (b :: s) old then new ++ replaceAllFrom old new (old.length - 1) s
    else b :: replaceAllFrom old new 0 s

/-- `strings.ReplaceAll(s, old, new)` for an `old` that is not empty. -/
def replaceAll (s old new : Bytes) : Bytes := replaceAllFrom old new 0 s

/-- `strings.TrimLeft` for the runes of a cutset. -/
def trimLeft (s : Bytes) (cutset : List Nat) : Bytes :=
  joinRunes ((splitRunes s).dropWhile (fun g => cutset.contains g.1))

/-- `strings.TrimRight` for the runes of a cutset. -/
def trimRight (s : Bytes) (cutset : List Nat) : Bytes :=
  joinRunes ((splitRunes s).rdropWhile (fun g => cutset.contains g.1))

/-- The runes of a string literal. -/
def runes (s : String) : List Nat := s.toList.map Char.toNat

/-- `strings.ContainsAny`. -/
def containsAny (s : Bytes) (chars : List Nat) : Bool :=
  (splitRunes s).any (fun g => chars.contains g.1)

/-- `strings.SplitAfter` at a byte: the pieces with the byte they end in. -/
def splitAfter (sep : UInt8) : Bytes → List Bytes
  | [] => [[]]
  | b :: s =>
    if b = sep then [b] :: splitAfter sep s
    else
      match splitAfter sep s with
      | piece :: pieces => (b :: piece) :: pieces
      | [] => [[b]]

/-- `strings.Split` at a byte. -/
def split (sep : UInt8) : Bytes → List Bytes
  | [] => [[]]
  | b :: s =>
    if b = sep then [] :: split sep s
    else
      match split sep s with
      | piece :: pieces => (b :: piece) :: pieces
      | [] => [[b]]

/-- `strings.Join`. -/
def join (sep : Bytes) (pieces : List Bytes) : Bytes := sep.intercalate pieces

theorem split_ne_nil (sep : UInt8) : ∀ s : Bytes, split sep s ≠ []
  | [] => by simp [split]
  | b :: s => by
    rw [split]
    split
    · simp
    · split <;> simp

theorem split_append_sep (sep : UInt8) : ∀ s t : Bytes,
    split sep (s ++ sep :: t) = split sep s ++ split sep t
  | [], t => by simp [split]
  | b :: s, t => by
    rw [List.cons_append, split, split_append_sep sep s t, split]
    split
    · rfl
    · cases h : split sep s with
      | nil => exact absurd h (split_ne_nil sep s)
      | cons piece pieces => rfl

/-- Splitting what was joined gives the pieces of the pieces. -/
theorem split_join (sep : UInt8) : ∀ {pieces : List Bytes}, pieces ≠ [] →
    split sep (join [sep] pieces) = pieces.flatMap (split sep)
  | [p], _ => by simp [join]
  | p :: q :: pieces, _ => by
    have ih : split sep (join [sep] (q :: pieces)) = (q :: pieces).flatMap (split sep) :=
      split_join sep (by simp)
    rw [join, List.intercalate_cons_cons, List.append_assoc, List.singleton_append,
      split_append_sep, List.flatMap_cons, ← ih, join]

/-- The ASCII letter a rune is a case variant of, in lower case; other runes stay. U+017F and
    U+212A are the variants of `s` and `k` outside ASCII. -/
def foldRune (r : Nat) : Nat :=
  if 0x41 ≤ r ∧ r ≤ 0x5A then r + 32
  else if r = 0x17F then 0x73
  else if r = 0x212A then 0x6B
  else r

/-- `strings.EqualFold` where one of the texts is ASCII. -/
def equalFold (s t : Bytes) : Bool :=
  (splitRunes s).map (fun g => foldRune g.1) = (splitRunes t).map (fun g => foldRune g.1)

theorem index_hasPrefix : ∀ {s sub : Bytes} {i : Nat}, index s sub = some i →
    hasPrefix (s.drop i) sub = true
  | [], sub, i, h => by
    unfold index at h
    split at h
    · next hp =>
      cases h
      exact hp
    · cases h
  | b :: s, sub, i, h => by
    unfold index at h
    split at h
    · next hp =>
      cases h
      exact hp
    · obtain ⟨j, hj, rfl⟩ := Option.map_eq_some_iff.mp h
      rw [List.drop_succ_cons]
      exact index_hasPrefix hj

theorem first_at_start {s sub : Bytes} {i : Nat} (hp : hasPrefix s sub = true) : some 0 = some i ↔
    hasPrefix (s.drop i) sub = true ∧ ∀ j < i, hasPrefix (s.drop j) sub = false := by
  constructor
  · rintro ⟨⟩
    exact ⟨hp, fun j hj => absurd hj (Nat.not_lt_zero j)⟩
  · rintro ⟨-, hmin⟩
    cases i with
    | zero => rfl
    | succ i => exact absurd ((hmin 0 (Nat.succ_pos i)).symm.trans hp) (by decide)

theorem index_eq_some_iff : ∀ {s sub : Bytes} {i : Nat}, index s sub = some i ↔
    hasPrefix (s.drop i) sub = true ∧ ∀ j < i, hasPrefix (s.drop j) sub = false
  | [], sub, i => by
    unfold index
    split
    · next hp => exact first_at_start hp
    · next hp =>
      refine ⟨nofun, fun h => ?_⟩
      rw [List.drop_nil] at h
      exact absurd h.1 hp
  | b :: s, sub, i => by
    unfold index
    split
    · next hp => exact first_at_start hp
    · next hp =>
      cases i with
      | zero =>
        refine ⟨fun h => ?_, fun h => absurd h.1 hp⟩
        obtain ⟨j, -, hj⟩ := Option.map_eq_some_iff.mp h
        cases hj
      | succ i =>
        have hstep : (index s sub).map (· + 1) = some (i + 1) ↔ index s sub = some i := by
          cases index s sub <;> simp
        rw [hstep, index_eq_some_iff, List.drop_succ_cons]
        refine and_congr_right fun _ => ⟨fun h j hj => ?_, fun h j hj => ?_⟩
        · cases j with
          | zero => exact Bool.eq_false_iff.mpr hp
          | succ j => exact h j (Nat.lt_of_succ_lt_succ hj)
        · exact h (j + 1) (Nat.succ_lt_succ hj)

theorem index_eq_none_iff {s sub : Bytes} :
    index s sub = none ↔ ∀ j, hasPrefix (s.drop j) sub = false := by
  constructor
  · intro hnone j
    -- the least offset of an occurrence would be the index
    induction j using Nat.strongRecOn with
    | _ j ih =>
      by_contra hp
      rw [Bool.not_eq_false] at hp
      rw [index_eq_some_iff.mpr ⟨hp, ih⟩] at hnone
      cases hnone
  · intro h
    cases hi : index s sub with
    | none => rfl
    | some i => exact absurd ((h i).symm.trans (index_hasPrefix hi)) (by decide)

theorem index_of_not_contains {s sub : Bytes} (h : contains s sub = false) : index s sub = none := by
  rwa [contains, Option.isSome_eq_false_iff, Option.isNone_iff_eq_none] at h

theorem contains_iff_within {s sub : Bytes} : contains s sub = true ↔ sub <:+: s := by
  constructor
  · intro h
    obtain ⟨i, hi⟩ := Option.isSome_iff_exists.mp h
    exact (List.isPrefixOf_iff_prefix.mp (index_hasPrefix hi)).isInfix.trans (List.drop_suffix i s).isInfix
  · rintro ⟨u, v, rfl⟩
    by_contra hno
    have hfalse := index_eq_none_iff.mp (index_of_not_contains (Bool.eq_false_iff.mpr hno)) u.length
    rw [List.append_assoc, List.drop_left, Bool.eq_false_iff] at hfalse
    exact hfalse (List.isPrefixOf_iff_prefix.mpr (List.prefix_append sub v))

theorem not_contains_within {s t sub : Bytes} (h : contains s sub = false) (hts : t <:+: s) :
    contains t sub = false := by
  rw [Bool.eq_false_iff, Ne, contains_iff_within] at h ⊢
  exact fun hsub => h (hsub.trans hts)

theorem replaceAll_eq_self (old new : Bytes) : ∀ {s : Bytes}, contains s old = false →
    replaceAll s old new = s
  | [], _ => rfl
  | b :: s, h => by
    have hno : hasPrefix (b :: s) old = false := index_eq_none_iff.mp (index_of_not_contains h) 0
    have htail : contains s old = false := not_contains_within h (List.suffix_cons b s).isInfix
    have ih := replaceAll_eq_self old new htail
    rw [replaceAll] at ih ⊢
    rw [replaceAllFrom, hno, ih]
    rfl

/-- What stands in front of the first copy is kept. -/
theorem replaceAll_keeps {old new : Bytes} : ∀ {first s : Bytes}, first <+: s →
    (∀ i < first.length, ¬ old <+: s.drop i) → first <+: replaceAll s old new
  | [], _, _, _ => List.nil_prefix
  | b :: first, s, hfirst, h => by
    obtain ⟨rest, rfl⟩ := hfirst
    have hhere : ¬ hasPrefix (b :: (first ++ rest)) old = true :=
      fun hpre => h 0 (Nat.succ_pos _) (List.isPrefixOf_iff_prefix.mp hpre)
    have hrest : first <+: replaceAll (first ++ rest) old new := replaceAll_keeps (List.prefix_append first rest)
      (fun i hi => h (i + 1) (Nat.succ_lt_succ hi))
    rw [List.cons_append, replaceAll, replaceAllFrom, if_neg hhere]
    exact List.prefix_cons_inj b |>.mpr hrest

theorem lastIndex_append {w sub : Bytes} {j : Nat} (h : lastIndex w sub = some j) :
    ∀ s : Bytes, lastIndex (s ++ w) sub = some (s.length + j)
  | [] => by rw [List.nil_append, h, List.length_nil, Nat.zero_add]
  | b :: s => by
    rw [List.cons_append, lastIndex, lastIndex_append h s, List.length_cons]
    simp only [Option.some.injEq]
    omega

theorem lastIndex_hasPrefix : ∀ {s sub : Bytes} {i : Nat}, lastIndex s sub = some i →
    hasPrefix (s.drop i) sub = true
  | [], sub, i, h => by
    rw [lastIndex] at h
    split_ifs at h with hsub
    cases h
    rw [hsub]
    rfl
  | b :: s, sub, i, h => by
    rw [lastIndex] at h
    split at h
    · next j hj =>
      cases h
      rw [List.drop_succ_cons]
      exact lastIndex_hasPrefix hj
    · split_ifs at h with hhere
      cases h
      exact hhere

theorem lastIndex_eq_none {c : UInt8} : ∀ {s : Bytes}, c ∉ s → lastIndex s [c] = none
  | [], _ => rfl
  | b :: s, h => by
    have hb : c ≠ b := fun hb => h (hb ▸ List.mem_cons_self)
    rw [lastIndex, lastIndex_eq_none fun hs => h (List.mem_cons_of_mem b hs)]
    simp [hasPrefix, List.isPrefixOf, hb]

/-- A prefix of the text after an offset lies in the text. -/
theorem le_length_of_hasPrefix_drop {s p : Bytes} {i : Nat} (hp : p ≠ [])
    (h : hasPrefix (s.drop i) p = true) : i + p.length ≤ s.length := by
  have hle : p.length ≤ (s.drop i).length := (List.isPrefixOf_iff_prefix.mp h).length_le
  have hpos : 0 < p.length := List.length_pos_iff.mpr hp
  rw [List.length_drop] at hle
  omega

theorem lt_length_of_head_drop {s : Bytes} {i : Nat} {ch : UInt8}
    (h : (s.drop i).head? = some ch) : i < s.length := by
  by_contra hge
  rw [List.drop_eq_nil_of_le (Nat.le_of_not_lt hge)] at h
  cases h

example : count (lit "aaaa") (lit "aa") = 2 := by decide
example : lastIndex (lit "a<b<c") (lit "<") = some 3 := by decide
example : splitAfter '\n'.toUInt8 (lit "a\n\nb") = [lit "a\n", lit "\n", lit "b"] := by decide
example : trimRight (lit "x ｜|") (runes " |｜") = lit "x" := by decide

/-! Runes outside ASCII. -/

theorem le_decodeTail : ∀ {ranges : List (Nat × Nat)} {r r' : Nat} {s : Bytes},
    decodeTail r ranges s = some r' → r * 64 ^ ranges.length ≤ r'
  | [], r, r', _, h => by
    cases h
    simp
  | (lo, hi) :: ranges, r, r', b :: s, h => by
    rw [decodeTail] at h
    split at h
    · have ih := le_decodeTail h
      have hmono := Nat.mul_le_mul_right (64 ^ ranges.length) (Nat.le_add_right (r * 64) (b.toNat - 0x80))
      rw [List.length_cons, Nat.pow_succ, Nat.mul_comm (64 ^ ranges.length) 64, ← Nat.mul_assoc]
      exact Nat.le_trans hmono ih
    · cases h

theorem leadByte_ascii {x r : Nat} (h : leadByte x = some (r, [])) : x < 0x80 := by
  unfold leadByte at h
  split_ifs at h
  · assumption
  all_goals simp at h

/-- The first byte to follow lifts a rune over ASCII even where the lead byte has no share. -/
theorem leadByte_lift {x r lo hi : Nat} {ranges : List (Nat × Nat)}
    (h : leadByte x = some (r, (lo, hi) :: ranges)) :
    0x80 ≤ (r * 64 + (lo - 0x80)) * 64 ^ ranges.length := by
  unfold leadByte at h
  split_ifs at h
  all_goals simp only [Option.some.injEq, Prod.mk.injEq, List.cons.injEq, reduceCtorEq, and_false] at h
  all_goals
    obtain ⟨rfl, ⟨rfl, rfl⟩, rfl⟩ := h
    simp only [List.length_cons, List.length_nil, Nat.reducePow, Nat.reduceAdd]
    omega

/-- A rune that starts with a byte outside ASCII lies outside ASCII. -/
theorem decodeRune_outside {b : UInt8} (hb : 0x80 ≤ b.toNat) (s : Bytes) :
    0x80 ≤ (decodeRune (b :: s)).1 := by
  have herror : 0x80 ≤ runeError := by decide
  rw [decodeRune]
  cases hl : leadByte b.toNat with
  | none => exact herror
  | some p =>
    obtain ⟨r, ranges⟩ := p
    cases ht : decodeTail r ranges s with
    | none => simpa only [ht] using herror
    | some r' =>
      simp only [ht]
      cases ranges with
      | nil => exact absurd (leadByte_ascii hl) (Nat.not_lt.mpr hb)
      | cons p ranges =>
        cases s with
        | nil => cases ht
        | cons c s =>
          rw [decodeTail] at ht
          split at ht
          · next hc =>
            simp only [within, Bool.and_eq_true, decide_eq_true_eq] at hc
            have hlift := leadByte_lift hl
            have hle := le_decodeTail ht
            have hmono := Nat.mul_le_mul_right (64 ^ ranges.length)
              (Nat.add_le_add_left (Nat.sub_le_sub_right hc.1 0x80) (r * 64))
            omega
          · cases ht

theorem decodeRune_ascii {b : UInt8} (hb : b.toNat < 0x80) (s : Bytes) :
    decodeRune (b :: s) = (b.toNat, 1) := by
  have hlead : leadByte b.toNat = some (b.toNat, []) := if_pos hb
  simp only [decodeRune, hlead, decodeTail]
  rfl

theorem splitRunes_ascii {b : UInt8} (hb : b.toNat < 0x80) (s : Bytes) :
    splitRunes (b :: s) = (b.toNat, [b]) :: splitRunes s := by
  rw [splitRunes_cons, decodeRune_ascii hb]
  rfl

/-- Trimming by a set of ASCII runes goes byte by byte. -/
theorem trimLeft_ascii {cutset : List Nat} (hcut : ∀ r ∈ cutset, r < 0x80) : ∀ s : Bytes,
    trimLeft s cutset = s.dropWhile (fun b => cutset.contains b.toNat)
  | [] => rfl
  | b :: s => by
    by_cases hb : b.toNat < 0x80
    · rw [trimLeft, splitRunes_ascii hb, List.dropWhile_cons, List.dropWhile_cons]
      split
      · exact trimLeft_ascii hcut s
      · rw [← splitRunes_ascii hb, joinRunes_splitRunes]
    · have hno : ∀ r, 0x80 ≤ r → ¬ cutset.contains r = true := fun r hr hmem =>
        absurd (hcut r (List.contains_iff_mem.mp hmem)) (Nat.not_lt.mpr hr)
      have hb := Nat.not_lt.mp hb
      rw [trimLeft, splitRunes_cons, List.dropWhile_cons, if_neg (hno _ (decodeRune_outside hb s)),
        List.dropWhile_cons, if_neg (hno _ hb), ← splitRunes_cons, joinRunes_splitRunes]

theorem trimRight_start (s : Bytes) (cutset : List Nat) : trimRight s cutset <+: s := by
  have hjoin := joinRunes_start (List.rdropWhile_prefix (fun g : Nat × Bytes => cutset.contains g.1) (splitRunes s))
  rwa [joinRunes_splitRunes] at hjoin

end GoStrings
