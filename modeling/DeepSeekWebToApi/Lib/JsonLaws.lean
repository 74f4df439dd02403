import DeepSeekWebToApi.Lib.Json

/- What was written is read back: strings, numbers, then values by induction on their
   structure. Reading takes what belongs to the value and leaves the rest alone. -/
namespace GoJson
open GoStrings

/-! Strings. -/

theorem hexValue_hexDigit {n : Nat} (h : n < 16) : hexValue (hexDigit n) = some n := by
  have hall : ∀ n < 16, hexValue (hexDigit n) = some n := by decide
  exact hall n h

variable {r : Nat}

theorem readHex4_digits (h : r < 0x10000) (s : Bytes) :
    readHex4 (hexDigit (r / 4096 % 16) :: hexDigit (r / 256 % 16) :: hexDigit (r / 16 % 16) ::
      hexDigit (r % 16) :: s) = some (r, s) := by
  simp only [readHex4, hexValue_hexDigit (Nat.mod_lt _ (show 0 < 16 by decide)),
    Option.bind_eq_bind, Option.bind_some, Option.pure_def, Option.some.injEq, Prod.mk.injEq, and_true]
  omega

theorem readEscape_hex (h : r < 0x10000) (hplain : isSurrogate r = false) (s : Bytes) :
    readEscape ((escapeHex r).drop 1 ++ s) = some (r, s) := by
  have hhex := readHex4_digits h s
  simp only [escapeHex, List.drop_succ_cons, List.drop_zero, List.cons_append, List.nil_append,
    readEscape, hhex, hplain, Option.bind_eq_bind, Option.bind_some]
  rfl

/-- The first byte of a rune that is written as it is. -/
theorem encodeRune_head (h : 0x20 ≤ r) (hquote : r ≠ 0x22) (hslash : r ≠ 0x5C) :
    ∃ b u, encodeRune r = b :: u ∧ b ≠ 0x22 ∧ b ≠ 0x5C ∧ ¬ b < 0x20 := by
  have hbyte : ∀ n : Nat, n < 0x100 → 0x20 ≤ n → n ≠ 0x22 → n ≠ 0x5C →
      n.toUInt8 ≠ 0x22 ∧ n.toUInt8 ≠ 0x5C ∧ ¬ n.toUInt8 < 0x20 := by
    intro n hn hlo hq hs
    simp only [ne_eq, ← UInt8.toNat_inj, UInt8.lt_iff_toNat_lt, toNat_toUInt8 hn]
    exact ⟨hq, hs, Nat.not_lt.mpr hlo⟩
  unfold encodeRune
  split_ifs with h1 h2 h3 h4
  · exact ⟨_, _, rfl, hbyte r (by omega) h hquote hslash⟩
  · exact ⟨_, _, rfl, hbyte _ (by omega) (by omega) (by omega) (by omega)⟩
  · exact ⟨0xEF, _, rfl, by decide, by decide, by decide⟩
  · exact ⟨_, _, rfl, hbyte _ (by omega) (by omega) (by omega) (by omega)⟩
  · simp only [Bool.or_eq_true, decide_eq_true_eq, not_or] at h3
    exact ⟨_, _, rfl, hbyte _ (by omega) (by omega) (by omega) (by omega)⟩

variable {s t : Bytes}

theorem readRunes_escape {n : Nat} (h : readEscape s = some (r, t)) :
    readRunes (n + 1) (0x5C :: s) = (readRunes n t).map (fun p => (r :: p.1, p.2)) := by
  rw [readRunes, if_neg (by decide), if_pos rfl, h]
  simp only [Option.bind_eq_bind, Option.bind_some]
  cases readRunes n t <;> rfl

/-- A rune that was written is read back. -/
theorem readRunes_escapeRune (hr : Scalar r) (n : Nat) (s : Bytes) :
    readRunes (n + 1) (escapeRune r ++ s) = (readRunes n s).map (fun p => (r :: p.1, p.2)) := by
  unfold escapeRune
  split_ifs with h1 h2 h3 h4 h5 h6 h7 h8
  · subst h1
    exact readRunes_escape rfl
  · subst h2
    exact readRunes_escape rfl
  · subst h3
    exact readRunes_escape rfl
  · subst h4
    exact readRunes_escape rfl
  · subst h5
    exact readRunes_escape rfl
  · subst h6
    exact readRunes_escape rfl
  · subst h7
    exact readRunes_escape rfl
  · refine readRunes_escape (readEscape_hex (by omega) ?_ s)
    simp only [isSurrogate, Bool.and_eq_false_iff, decide_eq_false_iff_not]
    omega
  · obtain ⟨b, u, hu, hquote, hslash, hctrl⟩ := encodeRune_head (r := r) (by omega) h1 h2
    have hdec := decodeRune_encodeRune hr s
    rw [hu, List.cons_append] at hdec ⊢
    rw [readRunes, if_neg hquote, if_neg hslash, if_neg hctrl]
    simp only [hdec]
    rw [← List.cons_append, List.drop_left]
    cases readRunes n s <;> rfl

theorem readRunes_quoteRune {g : Nat × Bytes} (hg : Scalar g.1) (n : Nat) (s : Bytes) :
    readRunes (n + 1) (quoteRune g ++ s) = (readRunes n s).map (fun p => (g.1 :: p.1, p.2)) := by
  unfold quoteRune
  split_ifs with herror
  · rw [herror.1]
    exact readRunes_escape (readEscape_hex (by decide) (by decide) s)
  · exact readRunes_escapeRune hg n s

theorem readRunes_flatMap : ∀ {gs : List (Nat × Bytes)} {n : Nat}, (∀ g ∈ gs, Scalar g.1) →
    gs.length < n → ∀ rest,
    readRunes n (gs.flatMap quoteRune ++ 0x22 :: rest) = some (gs.map Prod.fst, rest)
  | [], n + 1, _, _, rest => by
    rw [List.flatMap_nil, List.nil_append, readRunes, if_pos rfl]
    rfl
  | g :: gs, n + 1, h, hn, rest => by
    obtain ⟨hg, hgs⟩ := List.forall_mem_cons.mp h
    rw [List.flatMap_cons, List.append_assoc, readRunes_quoteRune hg,
      readRunes_flatMap hgs (Nat.lt_of_succ_lt_succ hn) rest]
    rfl

theorem quoteRune_ne_nil (g : Nat × Bytes) : quoteRune g ≠ [] := by
  unfold quoteRune escapeRune
  split_ifs
  all_goals first | exact encodeRune_ne_nil g.1 | exact List.cons_ne_nil _ _

theorem length_le_flatMap : ∀ gs : List (Nat × Bytes), gs.length ≤ (gs.flatMap quoteRune).length
  | [] => Nat.le_refl 0
  | g :: gs => by
    have hpos := List.length_pos_iff.mpr (quoteRune_ne_nil g)
    have ih := length_le_flatMap gs
    rw [List.flatMap_cons, List.length_append, List.length_cons]
    omega

/-- A text as it is read back: U+FFFD stands for a byte that is no UTF-8. -/
def sanitize (s : Bytes) : Bytes := encode ((splitRunes s).map Prod.fst)

theorem sanitize_isUtf8 {s : Bytes} (h : IsUtf8 s) : sanitize s = s := by
  obtain ⟨rs, hrs, rfl⟩ := h
  rw [sanitize, splitRunes_encode hrs, List.map_map]
  exact congrArg encode (List.map_id rs)

/-- A text that was quoted is read back. -/
theorem readString_quote (s rest : Bytes) :
    ∃ t, quote s ++ rest = 0x22 :: t ∧ readString t = some (sanitize s, rest) := by
  refine ⟨(splitRunes s).flatMap quoteRune ++ 0x22 :: rest, ?_, ?_⟩
  · rw [quote]
    simp only [List.cons_append, List.append_assoc, List.nil_append]
  · have hlen := length_le_flatMap (splitRunes s)
    have hscalar : ∀ g ∈ splitRunes s, Scalar g.1 := splitRunes_scalar _
    rw [readString, readRunes_flatMap hscalar
      (by rw [List.length_append, List.length_cons]; omega)]
    rfl

/-! Numbers. -/

/-- What may follow a value in a text. -/
def Stops (rest : Bytes) : Prop :=
  ∀ b, rest.head? = some b → b = 0x2C ∨ b = 0x5D ∨ b = 0x7D

def IsNumber (text : Bytes) : Prop := readNumber .start text = some (text, [])

theorem NumState.next_stop (st : NumState) : st.next 0x2C = none ∧ st.next 0x5D = none ∧
    st.next 0x7D = none := by
  cases st <;> decide

theorem readNumber_append {rest : Bytes} (hrest : Stops rest) : ∀ {text : Bytes} {st : NumState},
    readNumber st text = some (text, []) → readNumber st (text ++ rest) = some (text, rest)
  | [], st, h => by
    rw [readNumber] at h
    split at h
    · next hfinal =>
      cases rest with
      | nil => rw [List.nil_append, readNumber, if_pos hfinal]
      | cons b rest =>
        have hnext : st.next b = none := by
          obtain ⟨h1, h2, h3⟩ := st.next_stop
          rcases hrest b rfl with rfl | rfl | rfl
          · exact h1
          · exact h2
          · exact h3
        simp only [List.nil_append, readNumber, hnext, hfinal, if_true]
    · cases h
  | b :: text, st, h => by
    rw [readNumber] at h
    rw [List.cons_append, readNumber]
    split at h
    · next st' hst =>
      obtain ⟨p, hp, heq⟩ := Option.map_eq_some_iff.mp h
      obtain ⟨htext, hnil⟩ := Prod.mk.inj heq
      have hp' : p = (text, []) := Prod.ext (List.cons.inj htext).2 hnil
      rw [hp'] at hp
      simp only [readNumber_append hrest hp]
      rfl
    · split at h
      · cases h
      · cases h

theorem IsNumber.head {text : Bytes} (h : IsNumber text) :
    ∃ b u, text = b :: u ∧ (b = 0x2D ∨ isDigit b = true) := by
  cases text with
  | nil => cases h
  | cons b u =>
    refine ⟨b, u, rfl, ?_⟩
    have hread : readNumber .start (b :: u) = some (b :: u, []) := h
    rw [readNumber, NumState.next] at hread
    by_cases hneg : b = 0x2D
    · exact Or.inl hneg
    · refine Or.inr ?_
      by_contra hdigit
      have hzero : b ≠ 0x30 := by
        rintro rfl
        exact hdigit (by decide)
      simp only [hneg, hzero, hdigit, if_false] at hread
      cases hread

theorem ne_of_number {b c : UInt8} (h : b = 0x2D ∨ isDigit b = true)
    (hc : c ≠ 0x2D ∧ isDigit c = false) : b ≠ c := by
  rintro rfl
  rcases h with h | h
  · exact hc.1 h
  · exact Bool.noConfusion (h.symm.trans hc.2)

variable {b : UInt8}

theorem not_blank_of_number (h : b = 0x2D ∨ isDigit b = true) : isBlank b = false := by
  simp only [isBlank, Bool.or_eq_false_iff, beq_eq_false_iff_ne]
  exact ⟨⟨⟨ne_of_number h (by decide), ne_of_number h (by decide)⟩, ne_of_number h (by decide)⟩,
    ne_of_number h (by decide)⟩

/-! Values. -/

mutual
/-- A value as it is read back when `d` levels are left. A key that comes again, after its
    bytes were replaced, replaces the value. -/
def Json.readBack : Nat → Json → Option Json
  | _, .null => some .null
  | _, .bool b => some (.bool b)
  | _, .num text => if readNumber .start text = some (text, []) then some (.num text) else none
  | _, .str s => some (.str (sanitize s))
  | d, .arr items => if d = 0 then none else (readBackItems (d - 1) items).map .arr
  | d, .obj m => if d = 0 then none else (readBackFields (d - 1) [] m).map .obj
def readBackItems : Nat → List Json → Option (List Json)
  | _, [] => some []
  | d, item :: items =>
    (item.readBack d).bind (fun u => (readBackItems d items).map (fun us => u :: us))
def readBackFields : Nat → Fields → List (Bytes × Json) → Option Fields
  | _, acc, [] => some acc
  | d, acc, (key, v) :: m =>
    (v.readBack d).bind (fun u => readBackFields d (acc.insert (sanitize key) u) m)
end

theorem skipBlanks_cons (h : isBlank b = false) (s : Bytes) : skipBlanks (b :: s) = b :: s := by
  rw [skipBlanks, List.dropWhile_cons, h]
  rfl

theorem quote_head (s : Bytes) : ∃ u, quote s = 0x22 :: u := ⟨_, rfl⟩

/-- The first byte of a value. -/
theorem marshal_head {d : Nat} {v : Json} : ∀ {t : Json}, t.readBack d = some v →
    ∃ b u, marshal t = b :: u ∧ isBlank b = false ∧ b ≠ 0x5D ∧ b ≠ 0x7D
  | .null, _ => ⟨0x6E, _, by rw [marshal]; rfl, by decide, by decide, by decide⟩
  | .bool true, _ => ⟨0x74, _, by rw [marshal]; rfl, by decide, by decide, by decide⟩
  | .bool false, _ => ⟨0x66, _, by rw [marshal]; rfl, by decide, by decide, by decide⟩
  | .num text, h => by
    rw [Json.readBack] at h
    split_ifs at h with hnum
    obtain ⟨b, u, hu, hb⟩ := IsNumber.head hnum
    exact ⟨b, u, by rw [marshal, hu], not_blank_of_number hb, ne_of_number hb (by decide),
      ne_of_number hb (by decide)⟩
  | .str s, _ => ⟨0x22, _, by rw [marshal]; rfl, by decide, by decide, by decide⟩
  | .arr [], _ => ⟨0x5B, _, by rw [marshal]; rfl, by decide, by decide, by decide⟩
  | .arr (item :: items), _ => ⟨0x5B, _, by rw [marshal], by decide, by decide, by decide⟩
  | .obj [], _ => ⟨0x7B, _, by rw [marshal]; rfl, by decide, by decide, by decide⟩
  | .obj ((key, value) :: fields), _ =>
    ⟨0x7B, _, by rw [marshal], by decide, by decide, by decide⟩

/-! One turn of the reader at each kind of value. -/

section turns
variable {n d : Nat} {s : Bytes}

theorem readValue_number {text : Bytes} (h : IsNumber text) (hs : Stops s) :
    readValue (n + 1) d (text ++ s) = some (.num text, s) := by
  have hread := readNumber_append hs h
  obtain ⟨b, u, rfl, hb⟩ := h.head
  rw [readValue, List.cons_append, skipBlanks_cons (not_blank_of_number hb)]
  split
  · next heq => cases heq
  · next heq => exact absurd (List.cons.inj heq).1 (ne_of_number hb (by decide))
  · next heq => exact absurd (List.cons.inj heq).1 (ne_of_number hb (by decide))
  · next heq => exact absurd (List.cons.inj heq).1 (ne_of_number hb (by decide))
  · next heq => exact absurd (List.cons.inj heq).1 (ne_of_number hb (by decide))
  · next heq => exact absurd (List.cons.inj heq).1 (ne_of_number hb (by decide))
  · next heq => exact absurd (List.cons.inj heq).1 (ne_of_number hb (by decide))
  · next heq =>
    rw [← heq, ← List.cons_append, hread]
    rfl

theorem readValue_string (text : Bytes) :
    readValue (n + 1) d (quote text ++ s) = some (.str (sanitize text), s) := by
  obtain ⟨t, ht, hread⟩ := readString_quote text s
  rw [readValue, ht, skipBlanks_cons (by decide)]
  simp only [hread, Option.map_some]

end turns

theorem stops_items (items : List Json) (rest : Bytes) : Stops (marshalItems items ++ rest) := by
  intro b hb
  cases items with
  | nil =>
    rw [marshalItems] at hb
    exact Or.inr (Or.inl (Option.some.inj hb).symm)
  | cons item items =>
    rw [marshalItems] at hb
    exact Or.inl (Option.some.inj hb).symm

theorem stops_fields (fields : Fields) (rest : Bytes) : Stops (marshalFields fields ++ rest) := by
  intro b hb
  cases fields with
  | nil =>
    rw [marshalFields] at hb
    exact Or.inr (Or.inr (Option.some.inj hb).symm)
  | cons field fields =>
    rw [marshalFields] at hb
    exact Or.inl (Option.some.inj hb).symm

theorem marshal_length_pos {d : Nat} {t v : Json} (h : t.readBack d = some v) : 0 < (marshal t).length := by
  obtain ⟨b, u, hu, _⟩ := marshal_head h
  rw [hu]
  exact Nat.succ_pos _

theorem marshalItems_length_pos (items : List Json) : 0 < (marshalItems items).length := by
  cases items <;> rw [marshalItems] <;> exact Nat.succ_pos _

theorem marshalFields_length_pos (fields : Fields) : 0 < (marshalFields fields).length := by
  cases fields <;> rw [marshalFields] <;> exact Nat.succ_pos _

variable {n d : Nat}

theorem readValue_open_items {s : Bytes} (hblank : isBlank b = false) (hclose : b ≠ 0x5D) :
    readValue (n + 1) (d + 1) (0x5B :: b :: s) = readItems n d [] (b :: s) := by
  rw [readValue, skipBlanks_cons (by decide)]
  simp only [Nat.add_one_ne_zero, if_false, skipBlanks_cons hblank, Nat.add_sub_cancel]
  split
  · next heq => exact absurd (List.cons.inj heq).1 hclose
  · rfl

theorem readValue_open_fields {s : Bytes} (hblank : isBlank b = false) (hclose : b ≠ 0x7D) :
    readValue (n + 1) (d + 1) (0x7B :: b :: s) = readFields n d [] (b :: s) := by
  rw [readValue, skipBlanks_cons (by decide)]
  simp only [Nat.add_one_ne_zero, if_false, skipBlanks_cons hblank, Nat.add_sub_cancel]
  split
  · next heq => exact absurd (List.cons.inj heq).1 hclose
  · rfl

theorem readItems_comma {acc : List Json} {item : Json} (h : readValue n d s = some (item, 0x2C :: t)) :
    readItems (n + 1) d acc s = readItems n d (acc ++ [item]) t := by
  rw [readItems, h]
  rfl

theorem readItems_close {acc : List Json} {item : Json} (h : readValue n d s = some (item, 0x5D :: t)) :
    readItems (n + 1) d acc s = some (.arr (acc ++ [item]), t) := by
  rw [readItems, h]
  rfl

theorem readFields_comma {acc : Fields} {key : Bytes} {value : Json}
    (h : readValue n d s = some (value, 0x2C :: t)) : readFields (n + 1) d acc (quote key ++ 0x3A :: s) =
      readFields n d (acc.insert (sanitize key) value) t := by
  obtain ⟨u, hu, hread⟩ := readString_quote key (0x3A :: s)
  rw [readFields, hu, skipBlanks_cons (by decide)]
  simp only [hread, Option.bind_eq_bind, Option.bind_some, skipBlanks_cons (b := 0x3A) (by decide), h]
  rfl

theorem readFields_close {acc : Fields} {key : Bytes} {value : Json}
    (h : readValue n d s = some (value, 0x7D :: t)) : readFields (n + 1) d acc (quote key ++ 0x3A :: s) =
      some (.obj (acc.insert (sanitize key) value), t) := by
  obtain ⟨u, hu, hread⟩ := readString_quote key (0x3A :: s)
  rw [readFields, hu, skipBlanks_cons (by decide)]
  simp only [hread, Option.bind_eq_bind, Option.bind_some, skipBlanks_cons (b := 0x3A) (by decide), h]
  rfl

mutual
/-- A value that was written is read back; its own length is enough turns. -/
theorem readValue_marshal : ∀ {t u : Json} {n d : Nat} {rest : Bytes}, Stops rest →
    t.readBack d = some u → (marshal t).length ≤ n + 1 →
    readValue (n + 1) d (marshal t ++ rest) = some (u, rest)
  | .null, u, n, d, rest, _, h, _ => by
    rw [Json.readBack, Option.some.injEq] at h
    rw [marshal, readValue, ← h]
    rfl
  | .bool true, u, n, d, rest, _, h, _ => by
    rw [Json.readBack, Option.some.injEq] at h
    rw [marshal, readValue, ← h]
    rfl
  | .bool false, u, n, d, rest, _, h, _ => by
    rw [Json.readBack, Option.some.injEq] at h
    rw [marshal, readValue, ← h]
    rfl
  | .num text, u, n, d, rest, hrest, h, _ => by
    rw [Json.readBack] at h
    split_ifs at h with hnum
    rw [marshal, ← Option.some.inj h]
    exact readValue_number hnum hrest
  | .str s, u, n, d, rest, _, h, _ => by
    rw [Json.readBack, Option.some.injEq] at h
    rw [marshal, ← h]
    exact readValue_string s
  | .arr [], u, n, d, rest, _, h, _ => by
    rw [Json.readBack] at h
    split_ifs at h with hd
    obtain ⟨d, rfl⟩ := Nat.exists_eq_succ_of_ne_zero hd
    rw [readBackItems, Option.map_some, Option.some.injEq] at h
    rw [marshal, readValue, ← h]
    rfl
  | .arr (item :: items), u, n, d, rest, _, h, hn => by
    rw [Json.readBack] at h
    split_ifs at h with hd
    obtain ⟨d, rfl⟩ := Nat.exists_eq_succ_of_ne_zero hd
    obtain ⟨us, hus, rfl⟩ := Option.map_eq_some_iff.mp h
    rw [readBackItems] at hus
    obtain ⟨v, hv, hus⟩ := Option.bind_eq_some_iff.mp hus
    obtain ⟨vs, hvs, rfl⟩ := Option.map_eq_some_iff.mp hus
    have hpos := marshalItems_length_pos items
    have hpos' := marshal_length_pos hv
    rw [marshal, List.length_cons, List.length_append] at hn
    obtain ⟨n, rfl⟩ := Nat.exists_eq_add_of_le' (show 2 ≤ n by omega)
    have hread := readValue_marshal (n := n) (stops_items items rest) hv (by omega)
    obtain ⟨b, w, hw, hblank, hclose, _⟩ := marshal_head hv
    rw [marshal, List.cons_append, List.append_assoc]
    rw [hw, List.cons_append] at hread ⊢
    rw [readValue_open_items hblank hclose]
    exact readItems_marshal hread hvs (by omega)
  | .obj [], u, n, d, rest, _, h, _ => by
    rw [Json.readBack] at h
    split_ifs at h with hd
    obtain ⟨d, rfl⟩ := Nat.exists_eq_succ_of_ne_zero hd
    rw [readBackFields, Option.map_some, Option.some.injEq] at h
    rw [marshal, readValue, ← h]
    rfl
  | .obj ((key, value) :: fields), u, n, d, rest, _, h, hn => by
    rw [Json.readBack] at h
    split_ifs at h with hd
    obtain ⟨d, rfl⟩ := Nat.exists_eq_succ_of_ne_zero hd
    obtain ⟨m, hm, rfl⟩ := Option.map_eq_some_iff.mp h
    rw [readBackFields] at hm
    obtain ⟨v, hv, hm⟩ := Option.bind_eq_some_iff.mp hm
    have hpos := marshalFields_length_pos fields
    have hpos' := marshal_length_pos hv
    simp only [marshal, List.length_cons, List.length_append] at hn
    obtain ⟨n, rfl⟩ := Nat.exists_eq_add_of_le' (show 2 ≤ n by omega)
    have hread := readValue_marshal (n := n) (stops_fields fields rest) hv (by omega)
    have hrest := readFields_marshal hread hm (by omega)
    obtain ⟨w, hw⟩ := quote_head key
    simp only [marshal, List.cons_append, List.append_assoc]
    rw [hw, List.cons_append] at hrest ⊢
    rw [readValue_open_fields (by decide) (by decide)]
    exact hrest
theorem readItems_marshal : ∀ {items us : List Json} {item : Json} {acc : List Json} {n d : Nat}
    {s rest : Bytes}, readValue n d s = some (item, marshalItems items ++ rest) →
    readBackItems d items = some us → (marshalItems items).length ≤ n →
    readItems (n + 1) d acc s = some (.arr (acc ++ item :: us), rest)
  | [], us, item, acc, n, d, s, rest, h, hus, _ => by
    rw [readBackItems, Option.some.injEq] at hus
    rw [marshalItems] at h
    rw [← hus]
    exact readItems_close h
  | item' :: items, us, item, acc, n, d, s, rest, h, hus, hn => by
    rw [readBackItems] at hus
    obtain ⟨v, hv, hus⟩ := Option.bind_eq_some_iff.mp hus
    obtain ⟨vs, hvs, rfl⟩ := Option.map_eq_some_iff.mp hus
    have hpos := marshalItems_length_pos items
    have hpos' := marshal_length_pos hv
    rw [marshalItems, List.length_cons, List.length_append] at hn
    rw [marshalItems, List.cons_append, List.append_assoc] at h
    rw [readItems_comma h]
    obtain ⟨n, rfl⟩ := Nat.exists_eq_add_of_le' (show 2 ≤ n by omega)
    have hread := readValue_marshal (n := n) (stops_items items rest) hv (by omega)
    rw [readItems_marshal hread hvs (by omega), List.append_assoc]
    rfl
theorem readFields_marshal : ∀ {fields m : Fields} {key : Bytes} {value : Json} {acc : Fields}
    {n d : Nat} {s rest : Bytes}, readValue n d s = some (value, marshalFields fields ++ rest) →
    readBackFields d (acc.insert (sanitize key) value) fields = some m →
    (marshalFields fields).length ≤ n →
    readFields (n + 1) d acc (quote key ++ 0x3A :: s) = some (.obj m, rest)
  | [], m, key, value, acc, n, d, s, rest, h, hm, _ => by
    rw [readBackFields, Option.some.injEq] at hm
    rw [marshalFields] at h
    rw [readFields_close h, hm]
    rfl
  | (key', value') :: fields, m, key, value, acc, n, d, s, rest, h, hm, hn => by
    rw [readBackFields] at hm
    obtain ⟨v, hv, hm⟩ := Option.bind_eq_some_iff.mp hm
    have hpos := marshalFields_length_pos fields
    have hpos' := marshal_length_pos hv
    simp only [marshalFields, List.length_cons, List.length_append] at hn
    simp only [marshalFields, List.cons_append, List.append_assoc] at h
    rw [readFields_comma h]
    obtain ⟨n, rfl⟩ := Nat.exists_eq_add_of_le' (show 2 ≤ n by omega)
    have hread := readValue_marshal (n := n) (stops_fields fields rest) hv (by omega)
    exact readFields_marshal hread hm (by omega)
end

mutual
/-- More levels do not change what is read back. -/
theorem Json.readBack_mono : ∀ {t u : Json} {d e : Nat}, d ≤ e → t.readBack d = some u → t.readBack e = some u
  | .null, u, d, e, _, h => h
  | .bool b, u, d, e, _, h => h
  | .num text, u, d, e, _, h => by
    rw [Json.readBack] at h ⊢
    exact h
  | .str s, u, d, e, _, h => h
  | .arr items, u, d, e, hde, h => by
    rw [Json.readBack] at h ⊢
    split_ifs at h with hd
    obtain ⟨us, hus, rfl⟩ := Option.map_eq_some_iff.mp h
    rw [if_neg (by omega), readBackItems_mono (by omega) hus]
    rfl
  | .obj m, u, d, e, hde, h => by
    rw [Json.readBack] at h ⊢
    split_ifs at h with hd
    obtain ⟨us, hus, rfl⟩ := Option.map_eq_some_iff.mp h
    rw [if_neg (by omega), readBackFields_mono (by omega) hus]
    rfl
theorem readBackItems_mono : ∀ {items us : List Json} {d e : Nat}, d ≤ e →
    readBackItems d items = some us → readBackItems e items = some us
  | [], us, d, e, _, h => by
    rw [readBackItems] at h ⊢
    exact h
  | item :: items, us, d, e, hde, h => by
    rw [readBackItems] at h ⊢
    obtain ⟨u, hu, h⟩ := Option.bind_eq_some_iff.mp h
    obtain ⟨us, hus, rfl⟩ := Option.map_eq_some_iff.mp h
    rw [Json.readBack_mono hde hu, Option.bind_some, readBackItems_mono hde hus]
    rfl
theorem readBackFields_mono : ∀ {m : List (Bytes × Json)} {acc us : Fields} {d e : Nat}, d ≤ e →
    readBackFields d acc m = some us → readBackFields e acc m = some us
  | [], acc, us, d, e, _, h => by
    rw [readBackFields] at h ⊢
    exact h
  | (key, v) :: m, acc, us, d, e, hde, h => by
    rw [readBackFields] at h ⊢
    obtain ⟨u, hu, h⟩ := Option.bind_eq_some_iff.mp h
    rw [Json.readBack_mono hde hu, Option.bind_some]
    exact readBackFields_mono hde h
end

/-- What was written is read back. -/
theorem decode_marshal {t u : Json} (h : t.readBack maxDepth = some u) :
    decode (marshal t) = some u := by
  have hstop : Stops [] := fun b hb => by cases hb
  have hread := readValue_marshal hstop h (Nat.le_succ _)
  rw [List.append_nil] at hread
  rw [decode, hread]
  rfl

end GoJson
