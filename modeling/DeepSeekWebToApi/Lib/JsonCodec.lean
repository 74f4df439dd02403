import DeepSeekWebToApi.Lib.JsonWf
import Mathlib.Data.Nat.Digits.Lemmas

/- Values of Go types in JSON. A codec says how `json.Marshal` writes the values of a type and
   how `json.Unmarshal` reads them into a fresh variable; a struct has a codec made of its
   fields, each under its tag. What is read back is the value that was written, up to bytes
   that are no UTF-8. The order in which Go writes the fields of a struct is left out: an
   object is read the same in every order. -/
namespace GoJson
open GoStrings

/-! Integers. -/

def formatNat (n : Nat) : Bytes :=
  if n = 0 then [0x30] else (Nat.digits 10 n).reverse.map (fun d => (0x30 + d).toUInt8)

/-- `strconv.FormatInt` in base ten. -/
def formatInt (n : Int) : Bytes :=
  if n < 0 then 0x2D :: formatNat n.natAbs else formatNat n.natAbs

def parseDigits (s : Bytes) : Option Nat :=
  if s ≠ [] ∧ s.all isDigit then some (s.foldl (fun n b => n * 10 + (b.toNat - 0x30)) 0) else none

/-- `strconv.ParseInt` in base ten, on the text of a JSON number. -/
def parseInt : Bytes → Option Int
  | 0x2D :: s => (parseDigits s).map (fun n : Nat => -(n : Int))
  | s => (parseDigits s).map (fun n : Nat => (n : Int))

theorem digit_byte {d : Nat} (h : d < 10) : isDigit (0x30 + d).toUInt8 = true ∧
    (0x30 + d).toUInt8.toNat = 0x30 + d := by
  have hbyte := toNat_toUInt8 (show 0x30 + d < 0x100 by omega)
  refine ⟨within_iff.mpr ?_, hbyte⟩
  rw [hbyte]
  omega

theorem formatNat_digits (n : Nat) : ∃ ds : List Nat, ds ≠ [] ∧ (∀ d ∈ ds, d < 10) ∧
    formatNat n = ds.map (fun d => (0x30 + d).toUInt8) ∧ ds.foldl (fun n d => n * 10 + d) 0 = n ∧
    (ds.head? = some 0 → ds = [0]) := by
  by_cases h : n = 0
  · exact ⟨[0], List.cons_ne_nil _ _, by decide, by rw [formatNat, if_pos h]; rfl, h.symm, fun _ => rfl⟩
  · refine ⟨(Nat.digits 10 n).reverse, ?_, ?_, by rw [formatNat, if_neg h], ?_, fun hhead => ?_⟩
    · rw [ne_eq, List.reverse_eq_nil_iff, Nat.digits_eq_nil_iff_eq_zero]
      exact h
    · exact fun d hd => Nat.digits_lt_base (by decide) (List.mem_reverse.mp hd)
    · have hvalue := Nat.ofDigits_digits 10 n
      rw [Nat.ofDigits_eq_foldr] at hvalue
      rw [List.foldl_reverse]
      refine Eq.trans (congrArg (fun f => List.foldr f 0 (Nat.digits 10 n)) ?_) hvalue
      funext d m
      rw [Nat.add_comm, Nat.mul_comm]
      rfl
    · -- the leading digit of a positive number is not zero
      have hne : Nat.digits 10 n ≠ [] := Nat.digits_ne_nil_iff_ne_zero.mpr h
      rw [List.head?_reverse, List.getLast?_eq_some_getLast hne, Option.some.injEq] at hhead
      exact absurd hhead (Nat.getLast_digit_ne_zero 10 h)

theorem parseDigits_formatNat (n : Nat) : parseDigits (formatNat n) = some n := by
  obtain ⟨ds, hne, hlt, hformat, hvalue, _⟩ := formatNat_digits n
  have hall : (formatNat n).all isDigit = true := by
    rw [hformat, List.all_map, List.all_eq_true]
    exact fun d hd => (digit_byte (hlt d hd)).1
  have hnonempty : formatNat n ≠ [] := by
    rw [hformat, ne_eq, List.map_eq_nil_iff]
    exact hne
  rw [parseDigits, if_pos ⟨hnonempty, hall⟩, hformat, List.foldl_map, ← hvalue]
  refine congrArg some (List.foldl_ext _ _ 0 fun m d hd => ?_)
  rw [(digit_byte (hlt d hd)).2, Nat.add_sub_cancel_left]

theorem parseInt_formatInt (n : Int) : parseInt (formatInt n) = some n := by
  by_cases h : n < 0
  · rw [formatInt, if_pos h, parseInt, parseDigits_formatNat, Option.map_some, Option.some.injEq]
    omega
  · have hplain : parseInt (formatNat n.natAbs) =
        (parseDigits (formatNat n.natAbs)).map (fun n : Nat => (n : Int)) := by
      rw [parseInt]
      intro s hs
      obtain ⟨ds, hne, hlt, hformat, _⟩ := formatNat_digits n.natAbs
      obtain ⟨d, ds, rfl⟩ := List.exists_cons_of_ne_nil hne
      rw [hformat, List.map_cons, List.cons.injEq] at hs
      have hdigit := (digit_byte (hlt d List.mem_cons_self)).1
      rw [hs.1] at hdigit
      exact absurd hdigit (by decide)
    rw [formatInt, if_neg h, hplain, parseDigits_formatNat, Option.map_some, Option.some.injEq]
    omega

theorem readNumber_int : ∀ {s : Bytes}, s.all isDigit = true → readNumber .int s = some (s, [])
  | [], _ => rfl
  | b :: s, h => by
    rw [List.all_cons, Bool.and_eq_true] at h
    rw [readNumber, NumState.next, if_pos h.1]
    simp only [readNumber_int h.2, Option.map_some]

/-- The scanner takes the digits of a number, in front or behind a sign. -/
theorem readNumber_formatNat {st : NumState} (n : Nat) (hzero : st.next 0x30 = some .zero)
    (hdigit : ∀ b, isDigit b = true → b ≠ 0x30 → st.next b = some .int) :
    readNumber st (formatNat n) = some (formatNat n, []) := by
  obtain ⟨ds, hne, hlt, hformat, _, hlead⟩ := formatNat_digits n
  obtain ⟨d, ds, rfl⟩ := List.exists_cons_of_ne_nil hne
  by_cases hd : d = 0
  · obtain rfl : ds = [] := (List.cons.inj (hlead (by rw [hd]; rfl))).2
    subst hd
    rw [hformat, List.map_singleton, readNumber]
    simp only [Nat.add_zero, show (0x30 : Nat).toUInt8 = 0x30 from rfl, hzero]
    rfl
  · obtain ⟨hbyte, hvalue⟩ := digit_byte (hlt d List.mem_cons_self)
    have hne30 : (0x30 + d).toUInt8 ≠ 0x30 := fun heq => by
      rw [heq] at hvalue
      have : (0x30 : UInt8).toNat = 0x30 := rfl
      omega
    have hrest : (ds.map (fun d => (0x30 + d).toUInt8)).all isDigit = true := by
      rw [List.all_map, List.all_eq_true]
      exact fun e he => (digit_byte (hlt e (List.mem_cons_of_mem d he))).1
    rw [hformat, List.map_cons, readNumber]
    simp only [hdigit _ hbyte hne30, readNumber_int hrest, Option.map_some]

theorem isNumber_formatInt (n : Int) : IsNumber (formatInt n) := by
  unfold IsNumber formatInt
  split_ifs
  · have hread : readNumber .neg (formatNat n.natAbs) = some (formatNat n.natAbs, []) := by
      refine readNumber_formatNat _ rfl fun b hb hne => ?_
      rw [NumState.next, if_neg hne, if_pos hb]
    rw [readNumber, NumState.next, if_pos rfl]
    simp only [hread, Option.map_some]
  · refine readNumber_formatNat _ rfl fun b hb hne => ?_
    have hsign : b ≠ 0x2D := by
      rintro rfl
      exact absurd hb (by decide)
    rw [NumState.next, if_neg hsign, if_neg hne, if_pos hb]

/-! Codecs. -/

/-- How the values of a type are written, and read into a fresh variable. `clean` is the value
    that is read back, which is the value itself where its texts are UTF-8 (`Plain`); `fits` fails
    where `json.Marshal` does. -/
structure Codec (α : Type) where
  zero : α
  fits : α → Bool
  write : α → Json
  read : Json → Option α
  clean : α → α
  Plain : α → Prop
  depth : Nat
  clean_zero : clean zero = zero
  clean_plain : ∀ {a : α}, Plain a → clean a = a
  reads : ∀ {a : α} {d : Nat}, fits a = true → depth ≤ d →
    ∃ u, (write a).readBack d = some u ∧ read u = some (clean a)

namespace Codec

/-- `string`. -/
def text : Codec Bytes where
  zero := []
  fits _ := true
  write s := .str s
  read
    | .str s => some s
    | .null => some []
    | _ => none
  clean := sanitize
  Plain := IsUtf8
  depth := 0
  clean_zero := rfl
  clean_plain := sanitize_isUtf8
  reads _ _ := ⟨_, by rw [Json.readBack], rfl⟩

/-- `bool`. -/
def flag : Codec Bool where
  zero := false
  fits _ := true
  write b := .bool b
  read
    | .bool b => some b
    | .null => some false
    | _ => none
  clean := id
  Plain _ := True
  depth := 0
  clean_zero := rfl
  clean_plain _ := rfl
  reads _ _ := ⟨_, by rw [Json.readBack], rfl⟩

/-- `int` and `int64`; a number beyond 64 bits is no value of the type. -/
def int : Codec Int where
  zero := 0
  fits n := -2 ^ 63 ≤ n && n < 2 ^ 63
  write n := .num (formatInt n)
  read
    | .num t => (parseInt t).filter (fun n => -2 ^ 63 ≤ n && n < 2 ^ 63)
    | .null => some 0
    | _ => none
  clean := id
  Plain _ := True
  depth := 0
  clean_zero := rfl
  clean_plain _ := rfl
  reads h _ := by
    refine ⟨_, by rw [Json.readBack]; exact if_pos (isNumber_formatInt _), ?_⟩
    simp only [parseInt_formatInt, Option.filter, h, if_true, id]

/-- A type with the values of another one. -/
def via {α β : Type} (c : Codec β) (f : α → β) (g : β → α) (h : ∀ a, g (f a) = a) (zero : α)
    (hzero : f zero = c.zero) : Codec α where
  zero := zero
  fits a := c.fits (f a)
  write a := c.write (f a)
  read t := (c.read t).map g
  clean a := g (c.clean (f a))
  Plain a := c.Plain (f a)
  depth := c.depth
  clean_zero := by rw [hzero, c.clean_zero, ← hzero, h]
  clean_plain hplain := by rw [c.clean_plain hplain, h]
  reads hfits hd := by
    obtain ⟨u, hu, hread⟩ := c.reads hfits hd
    exact ⟨u, hu, by rw [hread]; rfl⟩

def int64 : Codec Int64 := int.via Int64.toInt Int64.ofInt Int64.ofInt_toInt 0 rfl

/-- A pointer; `null` is the nil pointer. -/
def pointer {α : Type} (c : Codec α) (h : ∀ a d, (c.write a).readBack d ≠ some .null) :
    Codec (Option α) where
  zero := none
  fits a := a.all c.fits
  write
    | some a => c.write a
    | none => .null
  read
    | .null => some none
    | t => (c.read t).map some
  clean a := a.map c.clean
  Plain a := ∀ x ∈ a, c.Plain x
  depth := c.depth
  clean_zero := rfl
  clean_plain {a} hplain := by
    cases a with
    | none => rfl
    | some a => exact congrArg some (c.clean_plain (hplain a rfl))
  reads {a d} hfits hd := by
    cases a with
    | none => exact ⟨.null, by rw [Json.readBack], rfl⟩
    | some a =>
      obtain ⟨u, hu, hread⟩ := c.reads hfits hd
      refine ⟨u, hu, ?_⟩
      have hsome : (c.read u).map some = some (Option.map c.clean (some a)) := by
        rw [hread]
        rfl
      cases u with
      | null => exact absurd hu (h a d)
      | _ => exact hsome

def optFlag : Codec (Option Bool) :=
  flag.pointer fun b d h => by
    rw [flag, Json.readBack] at h
    cases h

def optInt : Codec (Option Int64) :=
  int64.pointer fun n d h => by
    have hnum : (int64.write n).readBack d = some (.num (formatInt n.toInt)) := by
      rw [show int64.write n = .num (formatInt n.toInt) from rfl, Json.readBack]
      exact if_pos (isNumber_formatInt _)
    rw [hnum] at h
    cases h

/-- The items of a slice. -/
def readItemsWith {α : Type} (read : Json → Option α) : List Json → Option (List α)
  | [] => some []
  | t :: ts => (read t).bind (fun a => (readItemsWith read ts).map (fun as => a :: as))

theorem readItemsWith_reads {α : Type} (c : Codec α) {d : Nat} (hd : c.depth ≤ d) :
    ∀ {as : List α}, as.all c.fits = true → ∃ us, readBackItems d (as.map c.write) = some us ∧
      readItemsWith c.read us = some (as.map c.clean)
  | [], _ => ⟨[], by rw [List.map_nil, readBackItems], rfl⟩
  | a :: as, h => by
    rw [List.all_cons, Bool.and_eq_true] at h
    obtain ⟨u, hu, hread⟩ := c.reads h.1 hd
    obtain ⟨us, hus, hreads⟩ := readItemsWith_reads c hd h.2
    refine ⟨u :: us, ?_, ?_⟩
    · rw [List.map_cons, readBackItems, hu, hus]
      rfl
    · rw [readItemsWith, hread, hreads]
      rfl

/-- A slice; the empty slices are not told apart. -/
def list {α : Type} (c : Codec α) : Codec (List α) where
  zero := []
  fits as := as.all c.fits
  write as := .arr (as.map c.write)
  read
    | .arr ts => readItemsWith c.read ts
    | .null => some []
    | _ => none
  clean as := as.map c.clean
  Plain as := ∀ a ∈ as, c.Plain a
  depth := c.depth + 1
  clean_zero := rfl
  clean_plain hplain := (List.map_congr_left fun a ha => c.clean_plain (hplain a ha)).trans (List.map_id _)
  reads {as d} hfits hd := by
    obtain ⟨us, hus, hread⟩ := readItemsWith_reads c (Nat.le_sub_one_of_lt hd) hfits
    refine ⟨.arr us, ?_, hread⟩
    rw [Json.readBack, if_neg (by omega), hus]
    rfl

end Codec

/-! Structs. -/

/-- A field of a struct. `omits` says which values `json.Marshal` leaves out. -/
structure StructField (σ : Type) where
  name : Bytes
  α : Type
  codec : Codec α
  get : σ → α
  set : σ → α → σ
  omits : α → Bool

section structs
variable {σ : Type}

def StructField.put (s : σ) (m : Fields) (f : StructField σ) : Fields :=
  if f.omits (f.get s) then m else m.insert f.name (f.codec.write (f.get s))

/-- The fields that are written, added to an object. -/
def writeFields (fields : List (StructField σ)) (s : σ) (m : Fields) : Fields := fields.foldl (StructField.put s) m

def StructField.readFrom (f : StructField σ) (m : Fields) : Option f.α :=
  match m.get f.name with
  | some v => f.codec.read v
  | none => some f.codec.zero

/-- Set the fields an object has; the others are set to zero. Names are matched as they stand:
    that `encoding/json` also takes a name in other letter case is left out. -/
def readStruct : List (StructField σ) → Fields → σ → Option σ
  | [], _, s => some s
  | f :: fields, m, s => (f.readFrom m).bind (fun a => readStruct fields m (f.set s a))

/-- Set every field to a value. -/
def setAll (fields : List (StructField σ)) (value : (f : StructField σ) → f.α) (s : σ) : σ :=
  fields.foldl (fun s f => f.set s (value f)) s

/-- What is read back of a field. -/
def StructField.readsBack (s : σ) (f : StructField σ) : f.α :=
  if f.omits (f.get s) then f.codec.zero else f.codec.clean (f.get s)

theorem readStruct_eq {m : Fields} {value : (f : StructField σ) → f.α} : ∀ {fields : List (StructField σ)} {s : σ},
    (∀ f ∈ fields, f.readFrom m = some (value f)) →
    readStruct fields m s = some (setAll fields value s)
  | [], s, _ => rfl
  | f :: fields, s, h => by
    obtain ⟨hf, hfields⟩ := List.forall_mem_cons.mp h
    rw [readStruct, hf, Option.bind_some, readStruct_eq hfields]
    rfl

theorem setAll_congr {value value' : (f : StructField σ) → f.α} : ∀ {fields : List (StructField σ)} {s : σ},
    (∀ f ∈ fields, value f = value' f) → setAll fields value s = setAll fields value' s
  | [], s, _ => rfl
  | f :: fields, s, h => by
    obtain ⟨hf, hfields⟩ := List.forall_mem_cons.mp h
    rw [setAll, List.foldl_cons, hf]
    exact setAll_congr hfields

variable {s : σ}

theorem StructField.get_put (f : StructField σ) (m : Fields) (k : Bytes) : (f.put s m).get k =
    if f.name = k ∧ f.omits (f.get s) = false then some (f.codec.write (f.get s)) else m.get k := by
  unfold StructField.put
  by_cases homit : f.omits (f.get s) = true
  · rw [if_pos homit, if_neg]
    rw [homit]
    exact fun h => Bool.noConfusion h.2
  · rw [if_neg homit, KeyMap.get_insert]
    simp only [Bool.eq_false_iff.mpr homit, and_true]

theorem get_writeFields_of_notMem {k : Bytes} : ∀ {fields : List (StructField σ)} {m : Fields},
    (∀ f ∈ fields, f.name ≠ k) → (writeFields fields s m).get k = m.get k
  | [], m, _ => rfl
  | f :: fields, m, h => by
    obtain ⟨hf, hfields⟩ := List.forall_mem_cons.mp h
    have ih := @get_writeFields_of_notMem k fields (f.put s m) hfields
    rw [StructField.get_put, if_neg (fun hk => hf hk.1)] at ih
    exact ih

/-- A field with a name of its own is found where it was written. -/
theorem get_writeFields : ∀ {fields : List (StructField σ)} {m : Fields} {f : StructField σ},
    (fields.map StructField.name).Nodup → f ∈ fields → m.get f.name = none →
    (writeFields fields s m).get f.name =
      if f.omits (f.get s) then none else some (f.codec.write (f.get s))
  | g :: fields, m, f, hnames, hf, habsent => by
    rw [List.map_cons, List.nodup_cons] at hnames
    rcases List.mem_cons.mp hf with rfl | hf
    · have hother : ∀ h ∈ fields, h.name ≠ f.name := fun h hh heq =>
        hnames.1 (heq ▸ List.mem_map_of_mem hh)
      have hget : (writeFields fields s (f.put s m)).get f.name = (f.put s m).get f.name :=
        get_writeFields_of_notMem hother
      rw [StructField.get_put, habsent] at hget
      refine hget.trans ?_
      by_cases homit : f.omits (f.get s) = true
      · rw [if_pos homit, if_neg]
        rw [homit]
        exact fun h => Bool.noConfusion h.2
      · rw [if_neg homit, if_pos ⟨rfl, Bool.eq_false_iff.mpr homit⟩]
    · have hne : g.name ≠ f.name := fun heq => hnames.1 (heq ▸ List.mem_map_of_mem hf)
      have hskip : (g.put s m).get f.name = none := by
        rw [StructField.get_put, if_neg (fun h => hne h.1), habsent]
      exact @get_writeFields fields (g.put s m) f hnames.2 hf hskip

theorem mem_writeFields {kv : Bytes × Json} : ∀ {fields : List (StructField σ)} {m : Fields},
    kv ∈ writeFields fields s m → kv ∈ m ∨
      ∃ f ∈ fields, f.omits (f.get s) = false ∧ kv = (f.name, f.codec.write (f.get s))
  | [], m, h => Or.inl h
  | g :: fields, m, h => by
    rcases @mem_writeFields kv fields (g.put s m) h with h | ⟨f, hf, hkv⟩
    · unfold StructField.put at h
      split_ifs at h with homit
      · exact Or.inl h
      · rcases KeyMap.mem_insert h with h | h
        · exact Or.inr ⟨g, List.mem_cons_self, Bool.eq_false_iff.mpr homit, h⟩
        · exact Or.inl h
    · exact Or.inr ⟨f, List.mem_cons_of_mem g hf, hkv⟩

theorem writeFields_sorted : ∀ {fields : List (StructField σ)} {m : Fields}, m.Sorted →
    (writeFields fields s m).Sorted
  | [], m, h => h
  | f :: fields, m, h => by
    have hput : (f.put s m).Sorted := by
      unfold StructField.put
      split_ifs
      · exact h
      · exact h.insert
    exact @writeFields_sorted fields (f.put s m) hput

theorem filter_writeFields {p : Bytes → Bool} : ∀ {fields : List (StructField σ)} {m : Fields},
    (∀ f ∈ fields, p f.name = false) →
    (writeFields fields s m).filter (fun kv => p kv.1) = m.filter (fun kv => p kv.1)
  | [], m, _ => rfl
  | f :: fields, m, h => by
    obtain ⟨hf, hfields⟩ := List.forall_mem_cons.mp h
    refine (@filter_writeFields p fields (f.put s m) hfields).trans ?_
    unfold StructField.put
    split_ifs
    · rfl
    · exact KeyMap.filter_insert hf _ m

/-- The fields of a struct, as far as their names and values go. -/
structure FieldsOk (fields : List (StructField σ)) (d : Nat) (s : σ) : Prop where
  names : (fields.map StructField.name).Nodup
  ascii : ∀ f ∈ fields, f.name.all (· < 0x80) = true
  fits : ∀ f ∈ fields, f.omits (f.get s) = false → f.codec.fits (f.get s) = true
  depth : ∀ f ∈ fields, f.codec.depth ≤ d

/-- Fields written into an object of other fields are read back. -/
theorem FieldsOk.reads {fields : List (StructField σ)} {d : Nat} (h : FieldsOk fields d s) {m : Fields}
    (hsorted : m.Sorted) (hm : ∀ kv ∈ m, IsUtf8 kv.1 ∧ kv.2.readBack d = some kv.2)
    (habsent : ∀ f ∈ fields, m.get f.name = none) :
    ∃ m', readBackFields d [] (writeFields fields s m) = some m' ∧
      (∀ f ∈ fields, f.readFrom m' = some (f.readsBack s)) ∧
      ∀ p : Bytes → Bool, (∀ f ∈ fields, p f.name = false) →
        m'.filter (fun kv => p kv.1) = m.filter (fun kv => p kv.1) := by
  let g : Json → Json := fun v => (v.readBack d).getD v
  have hwritten : ∀ f ∈ fields, f.omits (f.get s) = false →
      ∃ u, (f.codec.write (f.get s)).readBack d = some u ∧ f.codec.read u = some (f.codec.clean (f.get s)) :=
    fun f hf homit => f.codec.reads (h.fits f hf homit) (h.depth f hf)
  have hback : ∀ kv ∈ writeFields fields s m, IsUtf8 kv.1 ∧ kv.2.readBack d = some (g kv.2) := by
    intro kv hkv
    rcases mem_writeFields hkv with hkv | ⟨f, hf, homit, rfl⟩
    · obtain ⟨hkey, hv⟩ := hm kv hkv
      refine ⟨hkey, ?_⟩
      simp only [g, hv, Option.getD_some]
    · obtain ⟨u, hu, _⟩ := hwritten f hf homit
      refine ⟨isUtf8_ascii (h.ascii f hf), ?_⟩
      simp only [g, hu, Option.getD_some]
  refine ⟨_, readBackFields_sorted (writeFields_sorted hsorted) hback, fun f hf => ?_, fun p hp => ?_⟩
  · rw [List.nil_append, StructField.readFrom, KeyMap.get_map, get_writeFields h.names hf (habsent f hf),
      StructField.readsBack]
    by_cases homit : f.omits (f.get s) = true
    · rw [if_pos homit, if_pos homit]
      rfl
    · obtain ⟨u, hu, hread⟩ := hwritten f hf (Bool.eq_false_iff.mpr homit)
      rw [if_neg homit, if_neg homit]
      simp only [g, Option.map_some, hu, Option.getD_some, hread]
  · have hsame : ∀ kv ∈ m.filter (fun kv => p kv.1), (kv.1, g kv.2) = kv := fun kv hkv => by
      simp only [g, (hm kv (List.mem_of_mem_filter hkv)).2, Option.getD_some]
    rw [List.nil_append, List.filter_map]
    refine (congrArg _ (filter_writeFields hp)).trans ?_
    exact (List.map_congr_left hsame).trans (List.map_id _)

/-- Nothing but the zero value is left out. -/
def StructField.Keeps (f : StructField σ) : Prop := ∀ a, f.omits a = true → a = f.codec.zero

/-- The codec of a struct whose fields are all marked `omitempty` or always written. -/
def Codec.struct (zero : σ) (fields : List (StructField σ)) (levels : Nat)
    (names : (fields.map StructField.name).Nodup := by decide)
    (ascii : ∀ f ∈ fields, f.name.all (· < 0x80) = true := by decide)
    (depth : ∀ f ∈ fields, f.codec.depth ≤ levels := by decide)
    (keeps : ∀ f ∈ fields, f.Keeps := by simp)
    (clean_zero : setAll fields (fun f => f.codec.clean (f.get zero)) zero = zero := by rfl)
    (whole : ∀ s, setAll fields (fun f => f.get s) zero = s := by rintro ⟨⟩; rfl) : Codec σ where
  zero := zero
  fits s := fields.all (fun f => f.omits (f.get s) || f.codec.fits (f.get s))
  write s := .obj (writeFields fields s [])
  read
    | .obj m => readStruct fields m zero
    | .null => some zero
    | _ => none
  clean s := setAll fields (fun f => f.codec.clean (f.get s)) zero
  Plain s := ∀ f ∈ fields, f.codec.Plain (f.get s)
  depth := levels + 1
  clean_zero := clean_zero
  clean_plain {s} hplain := (setAll_congr fun f hf => f.codec.clean_plain (hplain f hf)).trans (whole s)
  reads {s d} hfits hd := by
    have hok : FieldsOk fields (d - 1) s := by
      refine ⟨names, ascii, fun f hf homit => ?_, fun f hf => ?_⟩
      · have hf := List.all_eq_true.mp hfits f hf
        rwa [homit, Bool.false_or] at hf
      · have hf := depth f hf
        omega
    obtain ⟨m', hm', hread, _⟩ := hok.reads List.Pairwise.nil nofun (fun _ _ => rfl)
    refine ⟨.obj m', ?_, ?_⟩
    · rw [Json.readBack, if_neg (by omega), hm']
      rfl
    · refine (readStruct_eq hread).trans (congrArg some (setAll_congr fun f hf => ?_))
      rw [StructField.readsBack]
      split_ifs with homit
      · rw [keeps f hf _ homit, f.codec.clean_zero]
      · rfl

/-! Fields by their tags. -/

namespace StructField
variable {α : Type} {codec : Codec α} {name : String}

/-- A field without `omitempty`, or of a struct type, which is never empty. -/
def always (codec : Codec α) (name : String) (get : σ → α) (set : σ → α → σ) : StructField σ :=
  { name := lit name, α := α, codec := codec, get := get, set := set, omits := fun _ => false }

/-- A field marked `omitempty`. -/
def omitEmpty [DecidableEq α] (codec : Codec α) (name : String) (get : σ → α) (set : σ → α → σ) : StructField σ :=
  { name := lit name, α := α, codec := codec, get := get, set := set
    omits := fun a => decide (a = codec.zero) }

/-- A slice marked `omitempty`. -/
def omitEmptyList (codec : Codec α) (name : String) (get : σ → List α) (set : σ → List α → σ) : StructField σ :=
  { name := lit name, α := List α, codec := .list codec, get := get, set := set, omits := List.isEmpty }

@[simp] theorem always_keeps {get : σ → α} {set : σ → α → σ} : (always codec name get set).Keeps :=
  fun _ h => Bool.noConfusion h

@[simp] theorem omitEmpty_keeps [DecidableEq α] {get : σ → α} {set : σ → α → σ} :
    (omitEmpty codec name get set).Keeps :=
  show ∀ a : α, decide (a = codec.zero) = true → a = codec.zero from fun _ h => of_decide_eq_true h

@[simp] theorem omitEmptyList_keeps {get : σ → List α} {set : σ → List α → σ} :
    (omitEmptyList codec name get set).Keeps := fun _ h => List.isEmpty_iff.mp h

end StructField

end structs

end GoJson
