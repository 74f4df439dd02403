import DeepSeekWebToApi.Lib.JsonLaws

/- What the reader returns is well formed, and a well-formed value is read back as it is, so
   such values are known by their texts. -/
namespace GoJson
open GoStrings

mutual
/-- A value the decoder returns when `d` levels are left: texts are UTF-8, numbers have
    the form of one, keys ascend. -/
def Json.Wf : Nat → Json → Prop
  | _, .null => True
  | _, .bool _ => True
  | _, .num text => IsNumber text
  | _, .str s => IsUtf8 s
  | d, .arr items => 0 < d ∧ ItemsWf (d - 1) items
  | d, .obj fields => 0 < d ∧ KeyMap.Sorted fields ∧ FieldsWf (d - 1) fields
def ItemsWf : Nat → List Json → Prop
  | _, [] => True
  | d, item :: items => item.Wf d ∧ ItemsWf d items
def FieldsWf : Nat → List (Bytes × Json) → Prop
  | _, [] => True
  | d, (key, value) :: fields => IsUtf8 key ∧ value.Wf d ∧ FieldsWf d fields
end

theorem hexValue_lt {b : UInt8} {n : Nat} (h : hexValue b = some n) : n < 16 := by
  unfold hexValue at h
  split_ifs at h with h1 h2 h3
  · obtain ⟨hlo, hhi⟩ := within_iff.mp h1
    rw [Option.some.injEq] at h
    omega
  · obtain ⟨hlo, hhi⟩ := within_iff.mp h2
    rw [Option.some.injEq] at h
    omega
  · obtain ⟨hlo, hhi⟩ := within_iff.mp h3
    rw [Option.some.injEq] at h
    omega

theorem readHex4_lt {s t : Bytes} {r : Nat} (h : readHex4 s = some (r, t)) : r < 0x10000 := by
  unfold readHex4 at h
  split at h
  · obtain ⟨a, ha, h⟩ := Option.bind_eq_some_iff.mp h
    obtain ⟨b, hb, h⟩ := Option.bind_eq_some_iff.mp h
    obtain ⟨c, hc, h⟩ := Option.bind_eq_some_iff.mp h
    obtain ⟨d, hd, h⟩ := Option.bind_eq_some_iff.mp h
    have ha := hexValue_lt ha
    have hb := hexValue_lt hb
    have hc := hexValue_lt hc
    have hd := hexValue_lt hd
    obtain ⟨hr, _⟩ := Prod.mk.inj (Option.some.inj h)
    omega
  · cases h

theorem readLowSurrogate_scalar {high : Nat} {s t : Bytes} {r : Nat} (hhigh : 0xD800 ≤ high)
    (h : readLowSurrogate high s = some (r, t)) : Scalar r := by
  unfold readLowSurrogate at h
  split at h
  · obtain ⟨⟨low, u⟩, _, h⟩ := Option.bind_eq_some_iff.mp h
    simp only at h
    split_ifs at h with hlow
    obtain ⟨hr, _⟩ := Prod.mk.inj (Option.some.inj h)
    unfold Scalar
    omega
  · cases h

theorem readEscape_scalar {s t : Bytes} {r : Nat} (h : readEscape s = some (r, t)) : Scalar r := by
  unfold readEscape at h
  split at h
  case h_9 =>
    obtain ⟨⟨r', u⟩, hhex, h⟩ := Option.bind_eq_some_iff.mp h
    have hlt := readHex4_lt hhex
    simp only [isSurrogate, Bool.and_eq_true, decide_eq_true_eq] at h
    split_ifs at h with hsurrogate
    · split at h
      · next pair hpair =>
        obtain rfl := Option.some.inj h
        exact readLowSurrogate_scalar hsurrogate.1 hpair
      · obtain ⟨hr, _⟩ := Prod.mk.inj (Option.some.inj h)
        rw [← hr]
        decide
    · obtain ⟨hr, _⟩ := Prod.mk.inj (Option.some.inj h)
      unfold Scalar
      omega
  case h_10 => cases h
  all_goals
    obtain ⟨hr, _⟩ := Prod.mk.inj (Option.some.inj h)
    rw [← hr]
    decide

theorem readRunes_scalar : ∀ {n : Nat} {s t : Bytes} {rs : List Nat},
    readRunes n s = some (rs, t) → ∀ r ∈ rs, Scalar r
  | 0, s, t, rs, h => by cases h
  | n + 1, [], t, rs, h => by cases h
  | n + 1, b :: s, t, rs, h => by
    rw [readRunes] at h
    split_ifs at h with hquote hslash hctrl
    · obtain ⟨hrs, _⟩ := Prod.mk.inj (Option.some.inj h)
      rw [← hrs]
      exact fun r hr => absurd hr List.not_mem_nil
    · obtain ⟨⟨r, u⟩, hr, h⟩ := Option.bind_eq_some_iff.mp h
      obtain ⟨⟨rs', v⟩, hrs, h⟩ := Option.bind_eq_some_iff.mp h
      obtain ⟨heq, _⟩ := Prod.mk.inj (Option.some.inj h)
      rw [← heq]
      exact List.forall_mem_cons.mpr ⟨readEscape_scalar hr, readRunes_scalar hrs⟩
    · obtain ⟨⟨rs', v⟩, hrs, h⟩ := Option.bind_eq_some_iff.mp h
      obtain ⟨heq, _⟩ := Prod.mk.inj (Option.some.inj h)
      rw [← heq]
      exact List.forall_mem_cons.mpr ⟨decodeRune_scalar _, readRunes_scalar hrs⟩

theorem readString_isUtf8 {s t u : Bytes} (h : readString s = some (t, u)) : IsUtf8 t := by
  obtain ⟨p, hp, heq⟩ := Option.map_eq_some_iff.mp h
  obtain ⟨ht, _⟩ := Prod.mk.inj heq
  exact ⟨p.1, readRunes_scalar hp, ht.symm⟩

theorem readNumber_self : ∀ {s : Bytes} {st : NumState} {text rest : Bytes},
    readNumber st s = some (text, rest) → readNumber st text = some (text, [])
  | [], st, text, rest, h => by
    rw [readNumber] at h
    split_ifs at h with hfinal
    obtain ⟨rfl, _⟩ := Prod.mk.inj (Option.some.inj h)
    rw [readNumber, if_pos hfinal]
  | b :: s, st, text, rest, h => by
    rw [readNumber] at h
    split at h
    · next st' hst =>
      obtain ⟨p, hp, heq⟩ := Option.map_eq_some_iff.mp h
      obtain ⟨rfl, _⟩ := Prod.mk.inj heq
      simp only [readNumber, hst, readNumber_self hp]
      rfl
    · split_ifs at h with hfinal
      obtain ⟨rfl, _⟩ := Prod.mk.inj (Option.some.inj h)
      rw [readNumber, if_pos hfinal]

theorem itemsWf_iff {d : Nat} : ∀ {items : List Json},
    ItemsWf d items ↔ ∀ item ∈ items, item.Wf d
  | [] => by simp only [ItemsWf, List.not_mem_nil, false_implies, implies_true]
  | item :: items => by rw [ItemsWf, itemsWf_iff, List.forall_mem_cons]

theorem fieldsWf_iff {d : Nat} : ∀ {fields : Fields},
    FieldsWf d fields ↔ ∀ kv ∈ fields, IsUtf8 kv.1 ∧ kv.2.Wf d
  | [] => by simp only [FieldsWf, List.not_mem_nil, false_implies, implies_true]
  | (key, value) :: fields => by
    rw [FieldsWf, fieldsWf_iff, List.forall_mem_cons, and_assoc]

/-! Values the reader returns. -/

theorem readWord_wf {d : Nat} {word s rest : Bytes} {value t : Json} (hvalue : value.Wf d)
    (h : readWord word value s = some (t, rest)) : t.Wf d := by
  rw [readWord] at h
  split_ifs at h
  obtain ⟨rfl, _⟩ := Prod.mk.inj (Option.some.inj h)
  exact hvalue

mutual
theorem readValue_wf : ∀ {n d : Nat} {s rest : Bytes} {t : Json},
    readValue n d s = some (t, rest) → t.Wf d
  | 0, d, s, rest, t, h => by
    rw [readValue] at h
    cases h
  | n + 1, d, s, rest, t, h => by
    rw [readValue] at h
    split at h
    · cases h
    · split_ifs at h with hd
      split at h
      · obtain ⟨rfl, _⟩ := Prod.mk.inj (Option.some.inj h)
        rw [Json.Wf, FieldsWf]
        exact ⟨Nat.pos_iff_ne_zero.mpr hd, List.Pairwise.nil, trivial⟩
      · obtain ⟨fields, rfl, hsorted, hfields⟩ :=
          readFields_wf h List.Pairwise.nil (by rw [FieldsWf]; trivial)
        rw [Json.Wf]
        exact ⟨Nat.pos_iff_ne_zero.mpr hd, hsorted, hfields⟩
    · split_ifs at h with hd
      split at h
      · obtain ⟨rfl, _⟩ := Prod.mk.inj (Option.some.inj h)
        rw [Json.Wf, ItemsWf]
        exact ⟨Nat.pos_iff_ne_zero.mpr hd, trivial⟩
      · obtain ⟨items, rfl, hitems⟩ := readItems_wf h (by rw [ItemsWf]; trivial)
        rw [Json.Wf]
        exact ⟨Nat.pos_iff_ne_zero.mpr hd, hitems⟩
    · obtain ⟨p, hp, heq⟩ := Option.map_eq_some_iff.mp h
      obtain ⟨rfl, _⟩ := Prod.mk.inj heq
      rw [Json.Wf]
      exact readString_isUtf8 hp
    · exact readWord_wf (by rw [Json.Wf]; trivial) h
    · exact readWord_wf (by rw [Json.Wf]; trivial) h
    · exact readWord_wf (by rw [Json.Wf]; trivial) h
    · obtain ⟨p, hp, heq⟩ := Option.map_eq_some_iff.mp h
      obtain ⟨rfl, _⟩ := Prod.mk.inj heq
      rw [Json.Wf]
      exact readNumber_self hp
theorem readItems_wf : ∀ {n d : Nat} {acc : List Json} {s rest : Bytes} {t : Json},
    readItems n d acc s = some (t, rest) → ItemsWf d acc → ∃ items, t = .arr items ∧ ItemsWf d items
  | 0, d, acc, s, rest, t, h, _ => by
    rw [readItems] at h
    cases h
  | n + 1, d, acc, s, rest, t, h, hacc => by
    rw [readItems] at h
    obtain ⟨⟨item, u⟩, hitem, h⟩ := Option.bind_eq_some_iff.mp h
    have hitems : ItemsWf d (acc ++ [item]) := by
      rw [itemsWf_iff, List.forall_mem_append, List.forall_mem_singleton]
      exact ⟨itemsWf_iff.mp hacc, readValue_wf hitem⟩
    simp only at h
    split at h
    · exact readItems_wf h hitems
    · obtain ⟨rfl, _⟩ := Prod.mk.inj (Option.some.inj h)
      exact ⟨_, rfl, hitems⟩
    · cases h
theorem readFields_wf : ∀ {n d : Nat} {acc : Fields} {s rest : Bytes} {t : Json},
    readFields n d acc s = some (t, rest) → acc.Sorted → FieldsWf d acc →
    ∃ fields, t = .obj fields ∧ KeyMap.Sorted fields ∧ FieldsWf d fields
  | 0, d, acc, s, rest, t, h, _, _ => by
    rw [readFields] at h
    cases h
  | n + 1, d, acc, s, rest, t, h, hsorted, hacc => by
    rw [readFields] at h
    split at h
    · obtain ⟨⟨key, u⟩, hkey, h⟩ := Option.bind_eq_some_iff.mp h
      simp only at h
      split at h
      · obtain ⟨⟨value, v⟩, hvalue, h⟩ := Option.bind_eq_some_iff.mp h
        have hfields : FieldsWf d (acc.insert key value) := by
          refine fieldsWf_iff.mpr fun kv hkv => ?_
          rcases KeyMap.mem_insert hkv with rfl | hkv
          · exact ⟨readString_isUtf8 hkey, readValue_wf hvalue⟩
          · exact fieldsWf_iff.mp hacc kv hkv
        simp only at h
        split at h
        · exact readFields_wf h hsorted.insert hfields
        · obtain ⟨rfl, _⟩ := Prod.mk.inj (Option.some.inj h)
          exact ⟨_, rfl, hsorted.insert, hfields⟩
        · cases h
      · cases h
    · cases h
end

theorem decode_wf {s : Bytes} {t : Json} (h : decode s = some t) : t.Wf maxDepth := by
  unfold decode at h
  split at h
  · next value rest hread =>
    split_ifs at h
    obtain rfl := Option.some.inj h
    exact readValue_wf hread
  · cases h

/-! Well-formed values are read back as they are. -/

/-- Where the keys are ascending UTF-8, the fields are read back one by one. -/
theorem readBackFields_sorted {d : Nat} {g : Json → Json} : ∀ {m acc : Fields},
    KeyMap.Sorted (acc ++ m) → (∀ kv ∈ m, IsUtf8 kv.1 ∧ kv.2.readBack d = some (g kv.2)) →
    readBackFields d acc m = some (acc ++ m.map (fun kv => (kv.1, g kv.2)))
  | [], acc, _, _ => by rw [readBackFields, List.map_nil, List.append_nil]
  | (key, v) :: m, acc, hsorted, h => by
    obtain ⟨⟨hkey, hv⟩, hm⟩ := List.forall_mem_cons.mp h
    have hlast : ∀ kv ∈ acc, kv.1 < key := fun kv hkv =>
      (List.pairwise_append.mp hsorted).2.2 kv hkv _ List.mem_cons_self
    have hsorted' : KeyMap.Sorted ((acc ++ [(key, g v)]) ++ m) := by
      rw [KeyMap.Sorted, List.append_assoc, ← List.pairwise_map (f := Prod.fst) (R := (· < ·))] at *
      simpa only [List.map_append, List.map_cons, List.singleton_append] using hsorted
    rw [readBackFields, hv, Option.bind_some, sanitize_isUtf8 hkey, KeyMap.insert_last hlast,
      readBackFields_sorted hsorted' hm, List.append_assoc]
    rfl

mutual
theorem Json.Wf.readBack : ∀ {t : Json} {d : Nat}, t.Wf d → t.readBack d = some t
  | .null, d, _ => by rw [Json.readBack]
  | .bool b, d, _ => by rw [Json.readBack]
  | .num text, d, h => by
    rw [Json.Wf] at h
    rw [Json.readBack]
    exact if_pos h
  | .str s, d, h => by
    rw [Json.Wf] at h
    rw [Json.readBack, sanitize_isUtf8 h]
  | .arr items, d, h => by
    rw [Json.Wf] at h
    rw [Json.readBack, if_neg (Nat.pos_iff_ne_zero.mp h.1), readBackItems_of_wf h.2]
    rfl
  | .obj m, d, h => by
    rw [Json.Wf] at h
    have hfields : readBackFields (d - 1) [] m = some ([] ++ m.map (fun kv => (kv.1, id kv.2))) :=
      readBackFields_sorted h.2.1 (fields_readBack_of_wf h.2.2)
    rw [Json.readBack, if_neg (Nat.pos_iff_ne_zero.mp h.1), hfields, List.nil_append]
    exact congrArg (fun m => some (Json.obj m)) (List.map_id m)
theorem readBackItems_of_wf : ∀ {items : List Json} {d : Nat}, ItemsWf d items →
    readBackItems d items = some items
  | [], d, _ => by rw [readBackItems]
  | item :: items, d, h => by
    rw [ItemsWf] at h
    rw [readBackItems, h.1.readBack, readBackItems_of_wf h.2]
    rfl
theorem fields_readBack_of_wf : ∀ {m : List (Bytes × Json)} {d : Nat}, FieldsWf d m →
    ∀ kv ∈ m, IsUtf8 kv.1 ∧ kv.2.readBack d = some kv.2
  | [], d, _ => nofun
  | (key, v) :: m, d, h => by
    rw [FieldsWf] at h
    exact List.forall_mem_cons.mpr ⟨⟨h.1, h.2.1.readBack⟩, fields_readBack_of_wf h.2.2⟩
end

end GoJson
