import DeepSeekWebToApi.Lib.Unicode

/- Encoding and decoding of runes. `decodeRune` reads back what `encodeRune` wrote, whatever
   follows, so the runes of an encoded text are the runes it was made of. -/
namespace GoStrings

/-- A Unicode scalar value: a code point that is no surrogate. -/
def Scalar (r : Nat) : Prop := r < 0xD800 ∨ 0xE000 ≤ r ∧ r < 0x110000

instance Scalar.decidable (r : Nat) : Decidable (Scalar r) := inferInstanceAs (Decidable (_ ∨ _))

/-- The text of a list of runes. -/
def encode (rs : List Nat) : Bytes := rs.flatMap encodeRune

/-- A text in UTF-8. -/
def IsUtf8 (s : Bytes) : Prop := ∃ rs, (∀ r ∈ rs, Scalar r) ∧ s = encode rs

theorem toNat_toUInt8 {n : Nat} (h : n < 0x100) : n.toUInt8.toNat = n := by
  rw [Nat.toUInt8_eq, UInt8.toNat_ofNat', Nat.mod_eq_of_lt h]

theorem within_iff {lo hi : Nat} {b : UInt8} : within lo hi b = true ↔ lo ≤ b.toNat ∧ b.toNat ≤ hi := by
  simp only [within, Bool.and_eq_true, decide_eq_true_eq]

/-- A byte in range extends a rune. -/
theorem decodeTail_cons {r lo hi n : Nat} {ranges : List (Nat × Nat)} {s : Bytes} (hn : n < 0x100)
    (hlo : lo ≤ n) (hhi : n ≤ hi) :
    decodeTail r ((lo, hi) :: ranges) (n.toUInt8 :: s) = decodeTail (r * 64 + (n - 0x80)) ranges s := by
  have hwithin : within lo hi n.toUInt8 = true := by
    rw [within_iff, toNat_toUInt8 hn]
    exact ⟨hlo, hhi⟩
  rw [decodeTail, if_pos hwithin, toNat_toUInt8 hn]

/-- The two bytes of a rune from 0x80 on. -/
theorem decodeRune_two {r : Nat} (hlo : 0x80 ≤ r) (hhi : r < 0x800) (v : Bytes) :
    decodeRune ((0xC0 + r / 64).toUInt8 :: (0x80 + r % 64).toUInt8 :: v) = (r, 2) := by
  have hlead : leadByte (0xC0 + r / 64) = some (r / 64, [(0x80, 0xBF)]) := by
    unfold leadByte
    rw [if_neg (by omega), if_neg (by omega), if_pos (by omega)]
    simp only [Option.some.injEq, Prod.mk.injEq, and_true]
    omega
  simp only [decodeRune, toNat_toUInt8 (show 0xC0 + r / 64 < 0x100 by omega), hlead]
  rw [decodeTail_cons (by omega) (by omega) (by omega), decodeTail]
  simp only [List.length_cons, List.length_nil, Prod.mk.injEq, and_true]
  omega

/-- The three bytes of a rune from 0x800 on that is no surrogate. -/
theorem decodeRune_three {r : Nat} (hlo : 0x800 ≤ r) (hhi : r < 0x10000) (hr : Scalar r) (v : Bytes) :
    decodeRune ((0xE0 + r / 4096).toUInt8 :: (0x80 + r / 64 % 64).toUInt8 ::
      (0x80 + r % 64).toUInt8 :: v) = (r, 3) := by
  have hscalar : r < 0xD800 ∨ 0xE000 ≤ r := hr.imp_right And.left
  obtain ⟨lo, hi, hlead, hsecond⟩ : ∃ lo hi,
      leadByte (0xE0 + r / 4096) = some (r / 4096, [(lo, hi), (0x80, 0xBF)]) ∧
        lo ≤ 0x80 + r / 64 % 64 ∧ 0x80 + r / 64 % 64 ≤ hi := by
    unfold leadByte
    rw [if_neg (by omega), if_neg (by omega), if_neg (by omega)]
    by_cases h0 : r / 4096 = 0
    · rw [if_pos (by omega), h0]
      exact ⟨0xA0, 0xBF, rfl, by omega, by omega⟩
    · rw [if_neg (by omega)]
      by_cases hD : r / 4096 = 0xD
      · rw [if_pos (by omega), hD]
        exact ⟨0x80, 0x9F, rfl, by omega, by omega⟩
      · rw [if_neg (by omega), if_pos (by omega)]
        refine ⟨0x80, 0xBF, ?_, by omega, by omega⟩
        rw [Nat.add_sub_cancel_left]
  simp only [decodeRune, toNat_toUInt8 (show 0xE0 + r / 4096 < 0x100 by omega), hlead]
  rw [decodeTail_cons (by omega) hsecond.1 hsecond.2, decodeTail_cons (by omega) (by omega) (by omega),
    decodeTail]
  simp only [List.length_cons, List.length_nil, Prod.mk.injEq, and_true]
  omega

/-- The four bytes of a rune from 0x10000 on. -/
theorem decodeRune_four {r : Nat} (hlo : 0x10000 ≤ r) (hhi : r < 0x110000) (v : Bytes) :
    decodeRune ((0xF0 + r / 262144).toUInt8 :: (0x80 + r / 4096 % 64).toUInt8 ::
      (0x80 + r / 64 % 64).toUInt8 :: (0x80 + r % 64).toUInt8 :: v) = (r, 4) := by
  obtain ⟨lo, hi, hlead, hsecond⟩ : ∃ lo hi,
      leadByte (0xF0 + r / 262144) =
        some (r / 262144, [(lo, hi), (0x80, 0xBF), (0x80, 0xBF)]) ∧
        lo ≤ 0x80 + r / 4096 % 64 ∧ 0x80 + r / 4096 % 64 ≤ hi := by
    unfold leadByte
    rw [if_neg (by omega), if_neg (by omega), if_neg (by omega), if_neg (by omega),
      if_neg (by omega), if_neg (by omega)]
    by_cases h0 : r / 262144 = 0
    · rw [if_pos (by omega), h0]
      exact ⟨0x90, 0xBF, rfl, by omega, by omega⟩
    · rw [if_neg (by omega)]
      by_cases h4 : r / 262144 = 4
      · rw [if_neg (by omega), if_pos (by omega), h4]
        exact ⟨0x80, 0x8F, rfl, by omega, by omega⟩
      · rw [if_pos (by omega)]
        refine ⟨0x80, 0xBF, ?_, by omega, by omega⟩
        rw [Nat.add_sub_cancel_left]
  simp only [decodeRune, toNat_toUInt8 (show 0xF0 + r / 262144 < 0x100 by omega), hlead]
  rw [decodeTail_cons (by omega) hsecond.1 hsecond.2, decodeTail_cons (by omega) (by omega) (by omega),
    decodeTail_cons (by omega) (by omega) (by omega), decodeTail]
  simp only [List.length_cons, List.length_nil, Prod.mk.injEq, and_true]
  omega

/-- Decoding reads back an encoded rune, whatever follows. -/
theorem decodeRune_encodeRune {r : Nat} (h : Scalar r) (v : Bytes) :
    decodeRune (encodeRune r ++ v) = (r, (encodeRune r).length) := by
  have hscalar : r < 0xD800 ∨ 0xE000 ≤ r ∧ r < 0x110000 := h
  unfold encodeRune
  split_ifs with h1 h2 h3 h4
  · have hlead : leadByte r = some (r, []) := by
      unfold leadByte
      exact if_pos h1
    simp only [List.cons_append, List.nil_append, decodeRune,
      toNat_toUInt8 (show r < 0x100 by omega), hlead, decodeTail]
    rfl
  · exact decodeRune_two (by omega) h2 v
  · simp only [Bool.or_eq_true, Bool.and_eq_true, decide_eq_true_eq] at h3
    omega
  · exact decodeRune_three (by omega) h4 h v
  · simp only [Bool.or_eq_true, Bool.and_eq_true, decide_eq_true_eq] at h3
    exact decodeRune_four (by omega) (by omega) v

theorem encodeRune_ne_nil (r : Nat) : encodeRune r ≠ [] := by
  unfold encodeRune
  split_ifs <;> exact List.cons_ne_nil _ _

/-- An encoded text in front of another keeps its runes. -/
theorem splitRunes_encode_append (v : Bytes) : ∀ {rs : List Nat}, (∀ r ∈ rs, Scalar r) →
    splitRunes (encode rs ++ v) = rs.map (fun r => (r, encodeRune r)) ++ splitRunes v
  | [], _ => rfl
  | r :: rs, h => by
    obtain ⟨hr, hrs⟩ := List.forall_mem_cons.mp h
    obtain ⟨b, u, hb⟩ := List.exists_cons_of_ne_nil (encodeRune_ne_nil r)
    have htext : encode (r :: rs) ++ v = b :: (u ++ (encode rs ++ v)) := by
      rw [encode, List.flatMap_cons, hb, List.append_assoc]
      rfl
    have hsplit : b :: (u ++ (encode rs ++ v)) = encodeRune r ++ (encode rs ++ v) := by
      rw [hb]
      rfl
    rw [htext, splitRunes_cons, hsplit, decodeRune_encodeRune hr, List.take_left, List.drop_left,
      splitRunes_encode_append v hrs]
    rfl

/-- The runes of an encoded text. -/
theorem splitRunes_encode {rs : List Nat} (h : ∀ r ∈ rs, Scalar r) :
    splitRunes (encode rs) = rs.map (fun r => (r, encodeRune r)) := by
  have happend := splitRunes_encode_append [] h
  rw [List.append_nil] at happend
  exact happend.trans (List.append_nil _)

theorem IsUtf8.splitRunes_append {u : Bytes} (h : IsUtf8 u) (v : Bytes) :
    splitRunes (u ++ v) = splitRunes u ++ splitRunes v := by
  obtain ⟨rs, hrs, rfl⟩ := h
  rw [splitRunes_encode_append v hrs, splitRunes_encode hrs]

/-- A rune begins with a byte that extends none. -/
theorem encodeRune_lead (r : Nat) : ∃ b u, encodeRune r = b :: u ∧ (b.toNat < 0x80 ∨ 0xC0 ≤ b.toNat) := by
  unfold encodeRune
  split_ifs with h1 h2 h3 h4
  · exact ⟨_, _, rfl, Or.inl (by rw [toNat_toUInt8 (by omega)]; exact h1)⟩
  · exact ⟨_, _, rfl, Or.inr (by rw [toNat_toUInt8 (by omega)]; omega)⟩
  · exact ⟨_, _, rfl, Or.inr (by decide)⟩
  · exact ⟨_, _, rfl, Or.inr (by rw [toNat_toUInt8 (by omega)]; omega)⟩
  · simp only [Bool.or_eq_true, Bool.and_eq_true, decide_eq_true_eq] at h3
    exact ⟨_, _, rfl, Or.inr (by rw [toNat_toUInt8 (by omega)]; omega)⟩

theorem joinRunes_pairs (rs : List Nat) : joinRunes (rs.map (fun r => (r, encodeRune r))) = encode rs := by
  rw [joinRunes, encode, List.flatMap_map]

/-! Decoded runes. -/

theorem decodeTail_some {r lo hi r' : Nat} {ranges : List (Nat × Nat)} {s : Bytes}
    (h : decodeTail r ((lo, hi) :: ranges) s = some r') : ∃ b v, s = b :: v ∧ lo ≤ b.toNat ∧
      b.toNat ≤ hi ∧ decodeTail (r * 64 + (b.toNat - 0x80)) ranges v = some r' := by
  cases s with
  | nil => cases h
  | cons b v =>
    rw [decodeTail] at h
    split at h
    · next hb =>
      obtain ⟨hlo, hhi⟩ := within_iff.mp hb
      exact ⟨b, v, rfl, hlo, hhi, h⟩
    · cases h

theorem leadByte_scalar {x r r' : Nat} {ranges : List (Nat × Nat)} {s : Bytes}
    (hl : leadByte x = some (r, ranges)) (h : decodeTail r ranges s = some r') : Scalar r' := by
  unfold Scalar
  unfold leadByte at hl
  split_ifs at hl
  all_goals obtain ⟨rfl, rfl⟩ := Prod.mk.inj (Option.some.inj hl)
  · rw [decodeTail, Option.some.injEq] at h
    omega
  all_goals obtain ⟨b, v, -, hlo, hhi, h⟩ := decodeTail_some h
  · rw [decodeTail, Option.some.injEq] at h
    omega
  all_goals obtain ⟨b', v', -, hlo', hhi', h⟩ := decodeTail_some h
  · rw [decodeTail, Option.some.injEq] at h
    omega
  · rw [decodeTail, Option.some.injEq] at h
    omega
  · rw [decodeTail, Option.some.injEq] at h
    omega
  all_goals obtain ⟨b'', v'', -, hlo'', hhi'', h⟩ := decodeTail_some h
  all_goals
    rw [decodeTail, Option.some.injEq] at h
    omega

/-- A decoded rune is a scalar value. -/
theorem decodeRune_scalar (s : Bytes) : Scalar (decodeRune s).1 := by
  have herror : Scalar runeError := by decide
  cases s with
  | nil => exact herror
  | cons b s =>
    simp only [decodeRune]
    split
    · next r ranges hl =>
      split
      · next r' ht => exact leadByte_scalar hl ht
      · exact herror
    · exact herror

theorem splitRunes_scalar : ∀ (n : Nat) {s : Bytes}, ∀ g ∈ splitRunesAux n s, Scalar g.1
  | 0, _, _, hg => by cases hg
  | _ + 1, [], _, hg => by cases hg
  | n + 1, b :: s, g, hg => by
    simp only [splitRunesAux, List.mem_cons] at hg
    rcases hg with rfl | hg
    · exact decodeRune_scalar (b :: s)
    · exact splitRunes_scalar n g hg

/-! Texts in UTF-8. -/

theorem encode_append (rs qs : List Nat) : encode (rs ++ qs) = encode rs ++ encode qs :=
  List.flatMap_append

theorem IsUtf8.append {s t : Bytes} (hs : IsUtf8 s) (ht : IsUtf8 t) : IsUtf8 (s ++ t) := by
  obtain ⟨rs, hrs, rfl⟩ := hs
  obtain ⟨qs, hqs, rfl⟩ := ht
  exact ⟨rs ++ qs, List.forall_mem_append.mpr ⟨hrs, hqs⟩, (encode_append rs qs).symm⟩

theorem isUtf8_nil : IsUtf8 [] := ⟨[], nofun, rfl⟩

theorem isUtf8_ascii : ∀ {t : Bytes}, t.all (· < 0x80) = true → IsUtf8 t
  | [], _ => isUtf8_nil
  | b :: t, h => by
    rw [List.all_cons, Bool.and_eq_true, decide_eq_true_eq] at h
    have hb : b.toNat < 0x80 := UInt8.lt_iff_toNat_lt.mp h.1
    have hfirst : IsUtf8 [b] := by
      refine ⟨[b.toNat], List.forall_mem_singleton.mpr (Or.inl (by omega)), ?_⟩
      rw [encode, List.flatMap_singleton, encodeRune, if_pos hb, Nat.toUInt8_eq, UInt8.ofNat_toNat]
    exact hfirst.append (isUtf8_ascii h.2)

end GoStrings
