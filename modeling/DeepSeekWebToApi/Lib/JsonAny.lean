import DeepSeekWebToApi.Lib.JsonCodec

/- Values that are not of one fixed type: `float64` through a number format, `map[string]string`,
   and the values of an `any`, as `json.Marshal` writes and `json.Unmarshal` reads them. -/
namespace GoJson
open GoStrings

/-- The `float64` values, of which the two zeros are one (they are equal in Go). `format` is the
    text `json.Marshal` writes, none for NaN and the infinities, and `parse` reads one: the
    shortest text that stands for a number is read as the number, and what is read is finite. -/
structure FloatFormat (F : Type) where
  zero : F
  positive : F → Bool
  format : F → Option Bytes
  parse : Bytes → Option F
  number : ∀ {f s}, format f = some s → IsNumber s
  parses : ∀ {f s}, format f = some s → parse s = some f
  finite : ∀ {f s}, parse s = some f → (format f).isSome

/-- A format that has the whole numbers only. -/
def wholeNumbers : FloatFormat Int where
  zero := 0
  positive n := 0 < n
  format n := some (formatInt n)
  parse := parseInt
  number h := Option.some.inj h ▸ isNumber_formatInt _
  parses h := Option.some.inj h ▸ parseInt_formatInt _
  finite _ := rfl

/-- `float64`. -/
def Codec.float {F : Type} (φ : FloatFormat F) : Codec F where
  zero := φ.zero
  fits f := (φ.format f).isSome
  write f := .num ((φ.format f).getD [])
  read
    | .num text => φ.parse text
    | .null => some φ.zero
    | _ => none
  clean := id
  Plain _ := True
  depth := 0
  clean_zero := rfl
  clean_plain _ := rfl
  reads {f d} hfits _ := by
    obtain ⟨s, hs⟩ := Option.isSome_iff_exists.mp hfits
    refine ⟨.num s, ?_, φ.parses hs⟩
    rw [hs, Option.getD_some, Json.readBack]
    exact if_pos (φ.number hs)

/-! `map[string]string`. -/

def readTexts : Fields → Option (KeyMap Bytes)
  | [] => some []
  | (k, v) :: m => (Codec.text.read v).bind (fun s => (readTexts m).map (fun texts => (k, s) :: texts))

def asTexts (m : KeyMap Bytes) : Fields := m.map (fun kv => (kv.1, .str kv.2))

/-- A map after its keys and texts are cleaned; where two keys become the same the last one
    counts. -/
def cleanTexts (acc m : KeyMap Bytes) : KeyMap Bytes :=
  m.foldl (fun acc kv => acc.insert (sanitize kv.1) (sanitize kv.2)) acc

theorem readTexts_asTexts : ∀ m : KeyMap Bytes, readTexts (asTexts m) = some m
  | [] => rfl
  | (k, s) :: m => by
    have ih := readTexts_asTexts m
    rw [asTexts] at ih
    rw [asTexts, List.map_cons, readTexts, ih]
    rfl

theorem readBackFields_asTexts {d : Nat} : ∀ m acc : KeyMap Bytes,
    readBackFields d (asTexts acc) (asTexts m) = some (asTexts (cleanTexts acc m))
  | [], acc => by
    rw [asTexts.eq_def [], List.map_nil, readBackFields]
    rfl
  | (k, s) :: m, acc => by
    have hinsert : (asTexts acc).insert (sanitize k) (.str (sanitize s)) =
        asTexts (acc.insert (sanitize k) (sanitize s)) := (KeyMap.map_insert Json.str _ _ acc).symm
    rw [asTexts.eq_def ((k, s) :: m), List.map_cons, readBackFields, Json.readBack, Option.bind_some, hinsert]
    exact readBackFields_asTexts m _

theorem readBack_asTexts {d : Nat} (hd : 1 ≤ d) (m : KeyMap Bytes) :
    (Json.obj (asTexts m)).readBack d = some (.obj (asTexts (cleanTexts [] m))) := by
  have hback : readBackFields (d - 1) [] (asTexts m) = some (asTexts (cleanTexts [] m)) :=
    readBackFields_asTexts m []
  rw [Json.readBack, if_neg (by omega), hback]
  rfl

theorem cleanTexts_utf8 {m : KeyMap Bytes} (hsorted : m.Sorted) (h : ∀ kv ∈ m, IsUtf8 kv.1 ∧ IsUtf8 kv.2) :
    cleanTexts [] m = m := by
  have hkeys : (asTexts m).map Prod.fst = m.map Prod.fst := List.map_map
  have hback : readBackFields 0 [] (asTexts m) = some ([] ++ (asTexts m).map (fun kv => (kv.1, id kv.2))) := by
    refine readBackFields_sorted (hsorted.of_keys hkeys) (List.forall_mem_map.mpr fun kv hkv => ⟨(h kv hkv).1, ?_⟩)
    rw [Json.readBack, sanitize_isUtf8 (h kv hkv).2]
    rfl
  have hsame := Option.some.inj ((readBackFields_asTexts m []).symm.trans hback)
  rw [List.nil_append, show (asTexts m).map (fun kv => (kv.1, id kv.2)) = asTexts m from List.map_id _] at hsame
  have hread := congrArg readTexts hsame
  rw [readTexts_asTexts, readTexts_asTexts] at hread
  exact Option.some.inj hread

def Codec.texts : Codec (KeyMap Bytes) where
  zero := []
  fits _ := true
  write m := .obj (asTexts m)
  read
    | .obj m => readTexts m
    | .null => some []
    | _ => none
  clean := cleanTexts []
  Plain m := m.Sorted ∧ ∀ kv ∈ m, IsUtf8 kv.1 ∧ IsUtf8 kv.2
  depth := 1
  clean_zero := rfl
  clean_plain h := cleanTexts_utf8 h.1 h.2
  reads {m _} _ hd := ⟨_, readBack_asTexts hd m, readTexts_asTexts _⟩

/-! The values of an `any`. -/

/-- A value in an `any`. What is neither of a type the decoder gives to an `any` nor nil is
    known by what `json.Marshal` writes for it, if it does. -/
inductive Any (F : Type) where
  | nil
  | bool (b : Bool)
  | float (f : F)
  | text (s : Bytes)
  | slice (items : List (Any F))
  | map (entries : List (Bytes × Any F))
  | other (written : Option Json)

section any
variable {F : Type} (φ : FloatFormat F)

mutual
/-- What `json.Marshal` writes, if it does not fail. -/
def Any.write : Any F → Option Json
  | .nil => some .null
  | .bool b => some (.bool b)
  | .float f => (φ.format f).map .num
  | .text s => some (.str s)
  | .slice items => (writeItems items).map .arr
  | .map entries => (writeEntries entries).map .obj
  | .other written => written
def writeItems : List (Any F) → Option (List Json)
  | [] => some []
  | a :: items => a.write.bind (fun t => (writeItems items).map (fun ts => t :: ts))
def writeEntries : List (Bytes × Any F) → Option (List (Bytes × Json))
  | [] => some []
  | (k, a) :: entries => a.write.bind (fun t => (writeEntries entries).map (fun ts => (k, t) :: ts))
end

mutual
/-- What `json.Unmarshal` puts into an `any`; a number beyond the floats is an error. -/
def Any.read : Json → Option (Any F)
  | .null => some .nil
  | .bool b => some (.bool b)
  | .num text => (φ.parse text).map .float
  | .str s => some (.text s)
  | .arr items => (readAnyItems items).map .slice
  | .obj fields => (readEntries fields).map .map
def readAnyItems : List Json → Option (List (Any F))
  | [] => some []
  | t :: items => (Any.read t).bind (fun a => (readAnyItems items).map (fun as => a :: as))
def readEntries : List (Bytes × Json) → Option (List (Bytes × Any F))
  | [] => some []
  | (k, t) :: fields => (Any.read t).bind (fun a => (readEntries fields).map (fun as => (k, a) :: as))
end

/-- `json.Marshal`. -/
def Any.marshal (a : Any F) : Option Bytes := (a.write φ).map GoJson.marshal

/-- `json.Unmarshal` into an `any`. -/
def Any.unmarshal (s : Bytes) : Option (Any F) := (decode s).bind (Any.read φ)

mutual
/-- A value of a type the decoder gives to an `any`, nested at most `d` levels: floats are
    finite, texts are UTF-8, maps are in the order of their keys. -/
def Any.Plain : Nat → Any F → Prop
  | _, .nil => True
  | _, .bool _ => True
  | _, .float f => (φ.format f).isSome
  | _, .text s => IsUtf8 s
  | d, .slice items => 0 < d ∧ PlainItems (d - 1) items
  | d, .map entries => 0 < d ∧ KeyMap.Sorted entries ∧ PlainEntries (d - 1) entries
  | _, .other _ => False
def PlainItems : Nat → List (Any F) → Prop
  | _, [] => True
  | d, a :: items => a.Plain d ∧ PlainItems d items
def PlainEntries : Nat → List (Bytes × Any F) → Prop
  | _, [] => True
  | d, (k, a) :: entries => IsUtf8 k ∧ a.Plain d ∧ PlainEntries d entries
end

variable {φ}

theorem map_fst_writeEntries : ∀ {entries : List (Bytes × Any F)} {fields : List (Bytes × Json)},
    writeEntries φ entries = some fields → fields.map Prod.fst = entries.map Prod.fst
  | [], fields, h => by
    rw [writeEntries] at h
    rw [← Option.some.inj h]
    rfl
  | (k, a) :: entries, fields, h => by
    rw [writeEntries] at h
    obtain ⟨t, _, h⟩ := Option.bind_eq_some_iff.mp h
    obtain ⟨ts, hts, rfl⟩ := Option.map_eq_some_iff.mp h
    rw [List.map_cons, List.map_cons, map_fst_writeEntries hts]

theorem map_fst_readEntries : ∀ {fields : List (Bytes × Json)} {entries : List (Bytes × Any F)},
    readEntries φ fields = some entries → entries.map Prod.fst = fields.map Prod.fst
  | [], entries, h => by
    rw [readEntries] at h
    rw [← Option.some.inj h]
    rfl
  | (k, t) :: fields, entries, h => by
    rw [readEntries] at h
    obtain ⟨a, _, h⟩ := Option.bind_eq_some_iff.mp h
    obtain ⟨as, has, rfl⟩ := Option.map_eq_some_iff.mp h
    rw [List.map_cons, List.map_cons, map_fst_readEntries has]

mutual
/-- Such a value is written, and read back. -/
theorem Any.Plain.writes : ∀ {a : Any F} {d : Nat}, a.Plain φ d →
    ∃ t, a.write φ = some t ∧ t.Wf d ∧ Any.read φ t = some a
  | .nil, d, _ => ⟨.null, by rw [Any.write], by rw [Json.Wf]; trivial, by rw [Any.read]⟩
  | .bool b, d, _ => ⟨.bool b, by rw [Any.write], by rw [Json.Wf]; trivial, by rw [Any.read]⟩
  | .float f, d, h => by
    rw [Any.Plain] at h
    obtain ⟨s, hs⟩ := Option.isSome_iff_exists.mp h
    refine ⟨.num s, by rw [Any.write, hs]; rfl, by rw [Json.Wf]; exact φ.number hs, ?_⟩
    rw [Any.read, φ.parses hs]
    rfl
  | .text s, d, h => by
    rw [Any.Plain] at h
    exact ⟨.str s, by rw [Any.write], by rw [Json.Wf]; exact h, by rw [Any.read]⟩
  | .slice items, d, h => by
    rw [Any.Plain] at h
    obtain ⟨ts, hwrite, hwf, hread⟩ := plainItems_writes h.2
    refine ⟨.arr ts, by rw [Any.write, hwrite]; rfl, by rw [Json.Wf]; exact ⟨h.1, hwf⟩, ?_⟩
    rw [Any.read, hread]
    rfl
  | .map entries, d, h => by
    rw [Any.Plain] at h
    obtain ⟨ts, hwrite, hwf, hread⟩ := plainEntries_writes h.2.2
    refine ⟨.obj ts, by rw [Any.write, hwrite]; rfl, ?_, by rw [Any.read, hread]; rfl⟩
    rw [Json.Wf]
    exact ⟨h.1, h.2.1.of_keys (map_fst_writeEntries hwrite), hwf⟩
  | .other written, d, h => by
    rw [Any.Plain] at h
    exact h.elim
theorem plainItems_writes : ∀ {items : List (Any F)} {d : Nat}, PlainItems φ d items →
    ∃ ts, writeItems φ items = some ts ∧ ItemsWf d ts ∧ readAnyItems φ ts = some items
  | [], d, _ => ⟨[], by rw [writeItems], by rw [ItemsWf]; trivial, by rw [readAnyItems]⟩
  | a :: items, d, h => by
    rw [PlainItems] at h
    obtain ⟨t, hwrite, hwf, hread⟩ := h.1.writes
    obtain ⟨ts, hwrites, hwfs, hreads⟩ := plainItems_writes h.2
    refine ⟨t :: ts, by rw [writeItems, hwrite, hwrites]; rfl, by rw [ItemsWf]; exact ⟨hwf, hwfs⟩, ?_⟩
    rw [readAnyItems, hread, hreads]
    rfl
theorem plainEntries_writes : ∀ {entries : List (Bytes × Any F)} {d : Nat}, PlainEntries φ d entries →
    ∃ ts, writeEntries φ entries = some ts ∧ FieldsWf d ts ∧ readEntries φ ts = some entries
  | [], d, _ => ⟨[], by rw [writeEntries], by rw [FieldsWf]; trivial, by rw [readEntries]⟩
  | (k, a) :: entries, d, h => by
    rw [PlainEntries] at h
    obtain ⟨t, hwrite, hwf, hread⟩ := h.2.1.writes
    obtain ⟨ts, hwrites, hwfs, hreads⟩ := plainEntries_writes h.2.2
    refine ⟨(k, t) :: ts, by rw [writeEntries, hwrite, hwrites]; rfl, ?_, ?_⟩
    · rw [FieldsWf]
      exact ⟨h.1, hwf, hwfs⟩
    · rw [readEntries, hread, hreads]
      rfl
end

mutual
/-- What is read from a well-formed tree is such a value. -/
theorem Json.Wf.plain : ∀ {t : Json} {d : Nat} {a : Any F}, t.Wf d → Any.read φ t = some a →
    a.Plain φ d
  | .null, d, a, _, h => by
    rw [Any.read, Option.some.injEq] at h
    rw [← h, Any.Plain]
    trivial
  | .bool b, d, a, _, h => by
    rw [Any.read, Option.some.injEq] at h
    rw [← h, Any.Plain]
    trivial
  | .num text, d, a, _, h => by
    rw [Any.read] at h
    obtain ⟨f, hf, rfl⟩ := Option.map_eq_some_iff.mp h
    rw [Any.Plain]
    exact φ.finite hf
  | .str s, d, a, hwf, h => by
    rw [Any.read, Option.some.injEq] at h
    rw [Json.Wf] at hwf
    rw [← h, Any.Plain]
    exact hwf
  | .arr items, d, a, hwf, h => by
    rw [Any.read] at h
    rw [Json.Wf] at hwf
    obtain ⟨as, has, rfl⟩ := Option.map_eq_some_iff.mp h
    rw [Any.Plain]
    exact ⟨hwf.1, itemsWf_plain hwf.2 has⟩
  | .obj fields, d, a, hwf, h => by
    rw [Any.read] at h
    rw [Json.Wf] at hwf
    obtain ⟨as, has, rfl⟩ := Option.map_eq_some_iff.mp h
    rw [Any.Plain]
    exact ⟨hwf.1, hwf.2.1.of_keys (map_fst_readEntries has), fieldsWf_plain hwf.2.2 has⟩
theorem itemsWf_plain : ∀ {items : List Json} {d : Nat} {as : List (Any F)}, ItemsWf d items →
    readAnyItems φ items = some as → PlainItems φ d as
  | [], d, as, _, h => by
    rw [readAnyItems, Option.some.injEq] at h
    rw [← h, PlainItems]
    trivial
  | t :: items, d, as, hwf, h => by
    rw [readAnyItems] at h
    rw [ItemsWf] at hwf
    obtain ⟨a, ha, h⟩ := Option.bind_eq_some_iff.mp h
    obtain ⟨as, has, rfl⟩ := Option.map_eq_some_iff.mp h
    rw [PlainItems]
    exact ⟨hwf.1.plain ha, itemsWf_plain hwf.2 has⟩
theorem fieldsWf_plain : ∀ {fields : List (Bytes × Json)} {d : Nat} {as : List (Bytes × Any F)},
    FieldsWf d fields → readEntries φ fields = some as → PlainEntries φ d as
  | [], d, as, _, h => by
    rw [readEntries, Option.some.injEq] at h
    rw [← h, PlainEntries]
    trivial
  | (k, t) :: fields, d, as, hwf, h => by
    rw [readEntries] at h
    rw [FieldsWf] at hwf
    obtain ⟨a, ha, h⟩ := Option.bind_eq_some_iff.mp h
    obtain ⟨as, has, rfl⟩ := Option.map_eq_some_iff.mp h
    rw [PlainEntries]
    exact ⟨hwf.1, hwf.2.1.plain ha, fieldsWf_plain hwf.2.2 has⟩
end

theorem plainEntries_iff {d : Nat} : ∀ {entries : KeyMap (Any F)},
    PlainEntries φ d entries ↔ ∀ kv ∈ entries, IsUtf8 kv.1 ∧ kv.2.Plain φ d
  | [] => by simp only [PlainEntries, List.not_mem_nil, false_implies, implies_true]
  | (k, a) :: entries => by rw [PlainEntries, plainEntries_iff, List.forall_mem_cons, and_assoc]

/-! Copies by way of JSON. -/

/-- The value nests less than the decoder allows, so it may be an item of an array. -/
def Any.Shallow (φ : FloatFormat F) (a : Any F) : Prop :=
  ((a.write φ).bind (Json.readBack (maxDepth - 1))).isSome = true

/-- A value the decoder gives is its own copy. -/
theorem Any.Plain.copy {a : Any F} (h : a.Plain φ maxDepth) :
    (a.marshal φ).bind (Any.unmarshal φ) = some a := by
  obtain ⟨t, hwrite, hwf, hread⟩ := h.writes
  rw [Any.marshal, hwrite, Option.map_some, Option.bind_some, Any.unmarshal, decode_marshal hwf.readBack,
    Option.bind_some, hread]

/-- The copy of a copy. -/
theorem Any.copy_copy {a b : Any F} (h : (a.marshal φ).bind (Any.unmarshal φ) = some b) :
    (b.marshal φ).bind (Any.unmarshal φ) = some b := by
  obtain ⟨s, _, hs⟩ := Option.bind_eq_some_iff.mp h
  obtain ⟨t, ht, hread⟩ := Option.bind_eq_some_iff.mp hs
  exact ((decode_wf ht).plain hread).copy

/-- Where the items are shallow, their array is copied item by item. -/
theorem writes_items : ∀ {as bs : List (Any F)}, (∀ a ∈ as, a.Shallow φ) →
    List.Forall₂ (fun a b => (a.marshal φ).bind (Any.unmarshal φ) = some b) as bs →
    ∃ ts us, writeItems φ as = some ts ∧ readBackItems (maxDepth - 1) ts = some us ∧
      readAnyItems φ us = some bs
  | [], _, _, .nil => ⟨[], [], by rw [writeItems], by rw [readBackItems], by rw [readAnyItems]⟩
  | a :: as, b :: bs, hshallow, .cons hab hrest => by
    obtain ⟨ha, has⟩ := List.forall_mem_cons.mp hshallow
    obtain ⟨ts, us, hwrites, hbacks, hreads⟩ := writes_items has hrest
    obtain ⟨u, hu⟩ := Option.isSome_iff_exists.mp ha
    obtain ⟨t, hwrite, hback⟩ := Option.bind_eq_some_iff.mp hu
    rw [Any.marshal, hwrite, Option.map_some, Option.bind_some, Any.unmarshal,
      decode_marshal (Json.readBack_mono (Nat.sub_le _ _) hback), Option.bind_some] at hab
    refine ⟨t :: ts, u :: us, ?_, ?_, ?_⟩
    · rw [writeItems, hwrite, hwrites]
      rfl
    · rw [readBackItems, hback, hbacks]
      rfl
    · rw [readAnyItems, hab, hreads]
      rfl

theorem copy_slice {as bs : List (Any F)} (hshallow : ∀ a ∈ as, a.Shallow φ)
    (h : List.Forall₂ (fun a b => (a.marshal φ).bind (Any.unmarshal φ) = some b) as bs) :
    ((Any.slice as).marshal φ).bind (Any.unmarshal φ) = some (.slice bs) := by
  obtain ⟨ts, us, hwrites, hbacks, hreads⟩ := writes_items hshallow h
  have hback : (Json.arr ts).readBack maxDepth = some (.arr us) := by
    rw [Json.readBack, if_neg (by decide), hbacks]
    rfl
  rw [Any.marshal, Any.write, hwrites, Option.map_some, Option.map_some, Option.bind_some, Any.unmarshal,
    decode_marshal hback, Option.bind_some, Any.read, hreads]
  rfl

end any

end GoJson
