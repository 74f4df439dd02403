import DeepSeekWebToApi.Lib.Text
import Mathlib.Data.List.Forall2

/- Texts that `strings.ToLower` keeps in step: every rune is well formed and as long as
   its lower-case form. Then a text and its lower-cased copy agree byte by byte, up to
   case in ASCII and up to the value of the bytes outside it. -/
namespace GoStrings

/-- A rune that decodes from its own bytes, whatever follows, and keeps its length. -/
structure EvenRune (r : Nat) (u : Bytes) : Prop where
  decodes : ∀ v, decodeRune (u ++ v) = (r, u.length)
  length : (encodeRune (lowerRune r)).length = u.length
  bytes : (∃ b, u = [b] ∧ b.toNat < 0x80 ∧ r = b.toNat) ∨ 2 ≤ u.length ∧ ∀ b ∈ u, 0x80 ≤ b.toNat

/-- A text of such runes. -/
inductive Even : Bytes → Prop
  | nil : Even []
  | rune {r : Nat} {u s : Bytes} (h : EvenRune r u) (hs : Even s) : Even (u ++ s)

theorem EvenRune.ne_nil {r : Nat} {u : Bytes} (h : EvenRune r u) : u ≠ [] := by
  rcases h.bytes with ⟨b, rfl, -⟩ | ⟨hlen, -⟩
  · exact List.cons_ne_nil b []
  · exact List.length_pos_iff.mp (by omega)

/-- A rune that keeps its length is well formed: an ill-formed byte becomes three bytes. -/
theorem evenRune_of_length {b : UInt8} {s : Bytes}
    (h : (encodeRune (lowerRune (decodeRune (b :: s)).1)).length = (decodeRune (b :: s)).2) :
    EvenRune (decodeRune (b :: s)).1 ((b :: s).take (decodeRune (b :: s)).2) := by
  have hwidth : ((b :: s).take (decodeRune (b :: s)).2).length = (decodeRune (b :: s)).2 :=
    List.length_take_of_le (decodeRune_width_le _)
  have hill : (encodeRune (lowerRune runeError)).length ≠ 1 := by decide
  refine ⟨?_, by rw [hwidth]; exact h, ?_⟩
  · intro v
    rw [hwidth]
    simp only [decodeRune] at h ⊢
    cases hl : leadByte b.toNat with
    | none =>
      simp only [hl] at h
      exact absurd h hill
    | some p =>
      obtain ⟨r, ranges⟩ := p
      simp only [hl] at h ⊢
      cases ht : decodeTail r ranges s with
      | none =>
        simp only [ht] at h
        exact absurd h hill
      | some r' =>
        have hlen : ranges.length ≤ (s.take ranges.length).length := by
          rw [List.length_take_of_le (decodeTail_length ht)]
        have htail : decodeTail r ranges (s.take ranges.length ++ v) = some r' := by
          rw [decodeTail_append ranges r _ v (Or.inr hlen),
            ← decodeTail_append ranges r _ (s.drop ranges.length) (Or.inr hlen),
            List.take_append_drop, ht]
        simp only [List.take_succ_cons, List.cons_append, hl, htail]
  · simp only [decodeRune] at h ⊢
    cases hl : leadByte b.toNat with
    | none =>
      simp only [hl] at h
      exact absurd h hill
    | some p =>
      obtain ⟨r, ranges⟩ := p
      obtain ⟨hnil, hcons, hlo⟩ := leadByte_ranges hl
      simp only [hl] at h ⊢
      cases ht : decodeTail r ranges s with
      | none =>
        simp only [ht] at h
        exact absurd h hill
      | some r' =>
        simp only [List.take_succ_cons]
        cases hranges : ranges with
        | nil =>
          rw [hranges] at hl ht hnil
          cases ht
          exact Or.inl ⟨b, rfl, leadByte_ascii hl, hnil rfl⟩
        | cons p ps =>
          rw [← hranges]
          have hle := decodeTail_length ht
          refine Or.inr ⟨?_, ?_⟩
          · rw [List.length_cons, List.length_take_of_le hle, hranges]
            simp
          · intro c hc
            rcases List.mem_cons.mp hc with rfl | hc
            · exact hcons (by rw [hranges]; exact List.cons_ne_nil _ _)
            · exact (decodeTail_bytes hlo ht c hc).1

/-- Lower-casing keeps the length of every rune. -/
theorem even_of_runes : ∀ (n : Nat) {s : Bytes}, s.length ≤ n →
    (∀ g ∈ splitRunes s, (encodeRune (lowerRune g.1)).length = g.2.length) → Even s
  | _, [], _, _ => .nil
  | n + 1, b :: s, hn, h => by
    rw [splitRunes_cons] at h
    have hhead := h _ List.mem_cons_self
    rw [List.length_take_of_le (decodeRune_width_le _)] at hhead
    have hpos := decodeRune_width_pos b s
    rw [← List.take_append_drop (decodeRune (b :: s)).2 (b :: s)]
    refine .rune (evenRune_of_length hhead) (even_of_runes n ?_ fun g hg =>
      h g (List.mem_cons_of_mem _ hg))
    rw [List.length_drop, List.length_cons] at *
    omega

/-! A text and its copy, byte by byte. -/

/-- What lower-casing does to a byte: ASCII loses its case, other bytes stay outside ASCII. -/
def FoldsTo (a b : UInt8) : Prop :=
  a.toNat < 0x80 ∧ b = lowerAscii a ∨ 0x80 ≤ a.toNat ∧ 0x80 ≤ b.toNat

/-- A text and its copy are in step. -/
def Folds (s t : Bytes) : Prop := List.Forall₂ FoldsTo s t

theorem splitRunes_even {r : Nat} {u s : Bytes} (h : EvenRune r u) :
    splitRunes (u ++ s) = (r, u) :: splitRunes s := by
  obtain ⟨b, v, rfl⟩ := List.exists_cons_of_ne_nil h.ne_nil
  have hdec : decodeRune (b :: (v ++ s)) = (r, (b :: v).length) := h.decodes s
  have hsplit : b :: (v ++ s) = (b :: v) ++ s := rfl
  rw [List.cons_append, splitRunes_cons, hdec, hsplit, List.take_left, List.drop_left]

theorem encodeRune_outside {r : Nat} (h : 2 ≤ (encodeRune r).length) :
    ∀ b ∈ encodeRune r, 0x80 ≤ b.toNat := by
  have hbyte : ∀ n : Nat, 0x80 ≤ n → n < 0x100 → 0x80 ≤ n.toUInt8.toNat := by
    intro n hlo hhi
    rw [Nat.toUInt8_eq, UInt8.toNat_ofNat', Nat.mod_eq_of_lt hhi]
    exact hlo
  unfold encodeRune at h ⊢
  split_ifs at h ⊢ with h1 h2 h3 h4
  · simp at h
  · simp only [List.forall_mem_cons, List.not_mem_nil, false_implies, implies_true, and_true]
    exact ⟨hbyte _ (by omega) (by omega), hbyte _ (by omega) (by omega)⟩
  · decide +kernel
  · simp only [List.forall_mem_cons, List.not_mem_nil, false_implies, implies_true, and_true]
    exact ⟨hbyte _ (by omega) (by omega), hbyte _ (by omega) (by omega),
      hbyte _ (by omega) (by omega)⟩
  · simp only [Bool.or_eq_true, decide_eq_true_eq, not_or] at h3
    simp only [List.forall_mem_cons, List.not_mem_nil, false_implies, implies_true, and_true]
    exact ⟨hbyte _ (by omega) (by omega), hbyte _ (by omega) (by omega),
      hbyte _ (by omega) (by omega), hbyte _ (by omega) (by omega)⟩

theorem encodeRune_ascii {b : UInt8} (h : b.toNat < 0x80) :
    encodeRune (lowerRune b.toNat) = [lowerAscii b] := by
  unfold lowerRune lowerAscii within
  simp only [if_pos h, Bool.and_eq_true, decide_eq_true_eq]
  split
  · next hupper =>
    rw [encodeRune, if_pos (by omega), List.singleton_inj, ← UInt8.toNat_inj, Nat.toUInt8_eq,
      UInt8.toNat_ofNat', UInt8.toNat_add]
    rfl
  · rw [encodeRune, if_pos h, List.singleton_inj, Nat.toUInt8_eq]
    exact UInt8.ofNat_toNat

theorem folds_outside : ∀ {s t : Bytes}, s.length = t.length → (∀ b ∈ s, 0x80 ≤ b.toNat) →
    (∀ b ∈ t, 0x80 ≤ b.toNat) → Folds s t
  | [], [], _, _, _ => .nil
  | a :: s, b :: t, hlen, hs, ht => by
    refine .cons (Or.inr ⟨hs a List.mem_cons_self, ht b List.mem_cons_self⟩)
      (folds_outside (Nat.succ.inj hlen) ?_ ?_)
    · exact fun c hc => hs c (List.mem_cons_of_mem a hc)
    · exact fun c hc => ht c (List.mem_cons_of_mem b hc)

theorem EvenRune.folds {r : Nat} {u : Bytes} (h : EvenRune r u) :
    Folds u (encodeRune (lowerRune r)) := by
  rcases h.bytes with ⟨b, rfl, hb, rfl⟩ | ⟨hlen, hbytes⟩
  · rw [encodeRune_ascii hb]
    exact .cons (Or.inl ⟨hb, rfl⟩) .nil
  · have hlong : 2 ≤ (encodeRune (lowerRune r)).length := by rw [h.length]; exact hlen
    exact folds_outside h.length.symm hbytes (encodeRune_outside hlong)

/-- A text of such runes and its lower-cased copy are in step. -/
theorem Even.folds {s : Bytes} (h : Even s) : Folds s (toLower s) := by
  unfold toLower
  split
  · next hascii =>
    rw [Folds, List.forall₂_map_right_iff, List.forall₂_same]
    intro b hb
    exact Or.inl ⟨UInt8.lt_iff_toNat_lt.mp (of_decide_eq_true (List.all_eq_true.mp hascii b hb)), rfl⟩
  · clear * - h
    induction h with
    | nil => exact .nil
    | rune hu _ ih =>
      rw [splitRunes_even hu, List.flatMap_cons]
      exact List.rel_append hu.folds ih

section Folds
variable {s t : Bytes}

theorem Folds.length_eq (h : Folds s t) : t.length = s.length := (List.Forall₂.length_eq h).symm

theorem Folds.drop (h : Folds s t) (i : Nat) : Folds (s.drop i) (t.drop i) := List.forall₂_drop i h

end Folds

end GoStrings
