import DeepSeekWebToApi.Lib.KeyMap
import DeepSeekWebToApi.Lib.Utf8

/- JSON as Go's `encoding/json` writes and reads it. An object is a Go map: its fields are
   kept in the order of their keys, in which `json.Marshal` writes them, and a key that
   comes again replaces the value. A number is known by its text (`json.Number`). A text
   is read as runes: bytes that are no UTF-8 and lone surrogates become U+FFFD. -/
namespace GoJson
open GoStrings

inductive Json where
  | null
  | bool (b : Bool)
  | num (text : Bytes)
  | str (s : Bytes)
  | arr (items : List Json)
  | obj (fields : List (Bytes × Json))
  deriving Repr, Inhabited

mutual
def Json.same : Json → Json → Bool
  | .null, .null => true
  | .bool a, .bool b => a == b
  | .num a, .num b => a == b
  | .str a, .str b => a == b
  | .arr a, .arr b => sameItems a b
  | .obj a, .obj b => sameFields a b
  | _, _ => false
def sameItems : List Json → List Json → Bool
  | [], [] => true
  | a :: as, b :: bs => a.same b && sameItems as bs
  | _, _ => false
def sameFields : List (Bytes × Json) → List (Bytes × Json) → Bool
  | [], [] => true
  | (j, a) :: as, (k, b) :: bs => j == k && a.same b && sameFields as bs
  | _, _ => false
end

/-- A `map[string]any`. -/
abbrev Fields := KeyMap Json

/-! Writing. -/

def hexDigit (n : Nat) : UInt8 := if n < 10 then (0x30 + n).toUInt8 else (0x57 + n).toUInt8

/-- `hex.EncodeToString`. -/
def hexEncode (s : Bytes) : Bytes :=
  s.flatMap (fun b => [hexDigit (b.toNat / 16), hexDigit (b.toNat % 16)])

/-- `\u` and four hexadecimal digits. -/
def escapeHex (r : Nat) : Bytes :=
  [0x5C, 0x75, hexDigit (r / 4096 % 16), hexDigit (r / 256 % 16), hexDigit (r / 16 % 16),
    hexDigit (r % 16)]

/-- A rune in a string; `<`, `>` and `&` are escaped as well. -/
def escapeRune (r : Nat) : Bytes :=
  if r = 0x22 then [0x5C, 0x22]
  else if r = 0x5C then [0x5C, 0x5C]
  else if r = 0x08 then [0x5C, 0x62]
  else if r = 0x0C then [0x5C, 0x66]
  else if r = 0x0A then [0x5C, 0x6E]
  else if r = 0x0D then [0x5C, 0x72]
  else if r = 0x09 then [0x5C, 0x74]
  else if r < 0x20 ∨ r = 0x3C ∨ r = 0x3E ∨ r = 0x26 ∨ r = 0x2028 ∨ r = 0x2029 then escapeHex r
  else encodeRune r

/-- A rune of a text: bytes that are no UTF-8 are written as the escape of U+FFFD. -/
def quoteRune (g : Nat × Bytes) : Bytes :=
  if g.1 = runeError ∧ g.2.length = 1 then escapeHex runeError else escapeRune g.1

def quote (s : Bytes) : Bytes := 0x22 :: ((splitRunes s).flatMap quoteRune ++ [0x22])

mutual
/-- `json.Marshal`. -/
def marshal : Json → Bytes
  | .null => lit "null"
  | .bool true => lit "true"
  | .bool false => lit "false"
  | .num text => text
  | .str s => quote s
  | .arr [] => lit "[]"
  | .arr (item :: items) => 0x5B :: (marshal item ++ marshalItems items)
  | .obj [] => lit "\x7b\x7d"
  | .obj ((key, value) :: fields) =>
    0x7B :: (quote key ++ (0x3A :: (marshal value ++ marshalFields fields)))
/-- The items behind the first one, and the bracket. -/
def marshalItems : List Json → Bytes
  | [] => [0x5D]
  | item :: items => 0x2C :: (marshal item ++ marshalItems items)
/-- The fields behind the first one, and the brace. -/
def marshalFields : List (Bytes × Json) → Bytes
  | [] => [0x7D]
  | (key, value) :: fields =>
    0x2C :: (quote key ++ (0x3A :: (marshal value ++ marshalFields fields)))
end

/-! Reading. -/

def isBlank (b : UInt8) : Bool := b == 0x20 || b == 0x09 || b == 0x0D || b == 0x0A

def skipBlanks (s : Bytes) : Bytes := s.dropWhile isBlank

def hexValue (b : UInt8) : Option Nat :=
  if within 0x30 0x39 b then some (b.toNat - 0x30)
  else if within 0x61 0x66 b then some (b.toNat - 0x57)
  else if within 0x41 0x46 b then some (b.toNat - 0x37)
  else none

/-- Four hexadecimal digits. -/
def readHex4 : Bytes → Option (Nat × Bytes)
  | a :: b :: c :: d :: s => do
    let a ← hexValue a
    let b ← hexValue b
    let c ← hexValue c
    let d ← hexValue d
    return (a * 4096 + b * 256 + c * 16 + d, s)
  | _ => none

def isSurrogate (r : Nat) : Bool := 0xD800 ≤ r && r < 0xE000

/-- The low surrogate behind a high one. -/
def readLowSurrogate (high : Nat) : Bytes → Option (Nat × Bytes)
  | 0x5C :: 0x75 :: s => do
    let (low, s) ← readHex4 s
    if high < 0xDC00 ∧ 0xDC00 ≤ low ∧ low < 0xE000 then
      return ((high - 0xD800) * 0x400 + (low - 0xDC00) + 0x10000, s)
    none
  | _ => none

/-- What follows a backslash. -/
def readEscape : Bytes → Option (Nat × Bytes)
  | 0x22 :: s => some (0x22, s)
  | 0x5C :: s => some (0x5C, s)
  | 0x2F :: s => some (0x2F, s)
  | 0x62 :: s => some (0x08, s)
  | 0x66 :: s => some (0x0C, s)
  | 0x6E :: s => some (0x0A, s)
  | 0x72 :: s => some (0x0D, s)
  | 0x74 :: s => some (0x09, s)
  | 0x75 :: s => do
    let (r, s) ← readHex4 s
    if isSurrogate r then
      match readLowSurrogate r s with
      | some pair => return pair
      | none => return (runeError, s)
    return (r, s)
  | _ => none

/-- The runes of a string behind its opening quote, and what follows the closing one. -/
def readRunes : Nat → Bytes → Option (List Nat × Bytes)
  | 0, _ => none
  | _ + 1, [] => none
  | n + 1, b :: s =>
    if b = 0x22 then some ([], s)
    else if b = 0x5C then do
      let (r, s) ← readEscape s
      let (rs, s) ← readRunes n s
      return (r :: rs, s)
    else if b < 0x20 then none
    else do
      let d := decodeRune (b :: s)
      let (rs, s) ← readRunes n ((b :: s).drop d.2)
      return (d.1 :: rs, s)

def readString (s : Bytes) : Option (Bytes × Bytes) :=
  (readRunes s.length s).map (fun p => (encode p.1, p.2))

/-- The states of the scanner in a number. -/
inductive NumState where
  | start | neg | zero | int | dot | frac | exp | expSign | expInt
  deriving DecidableEq, Repr

def isDigit (b : UInt8) : Bool := within 0x30 0x39 b

def NumState.next : NumState → UInt8 → Option NumState
  | .start, b =>
    if b = 0x2D then some .neg else if b = 0x30 then some .zero
    else if isDigit b then some .int else none
  | .neg, b => if b = 0x30 then some .zero else if isDigit b then some .int else none
  | .zero, b => if b = 0x2E then some .dot else if b = 0x65 ∨ b = 0x45 then some .exp else none
  | .int, b =>
    if isDigit b then some .int else if b = 0x2E then some .dot
    else if b = 0x65 ∨ b = 0x45 then some .exp else none
  | .dot, b => if isDigit b then some .frac else none
  | .frac, b => if isDigit b then some .frac else if b = 0x65 ∨ b = 0x45 then some .exp else none
  | .exp, b =>
    if b = 0x2B ∨ b = 0x2D then some .expSign else if isDigit b then some .expInt else none
  | .expSign, b => if isDigit b then some .expInt else none
  | .expInt, b => if isDigit b then some .expInt else none

def NumState.final : NumState → Bool
  | .zero => true
  | .int => true
  | .frac => true
  | .expInt => true
  | _ => false

/-- The text of a number, and what follows it. -/
def readNumber : NumState → Bytes → Option (Bytes × Bytes)
  | st, [] => if st.final then some ([], []) else none
  | st, b :: s =>
    match st.next b with
    | some st' => (readNumber st' s).map (fun p => (b :: p.1, p.2))
    | none => if st.final then some ([], b :: s) else none

def readWord (word : Bytes) (value : Json) (s : Bytes) : Option (Json × Bytes) :=
  if hasPrefix s word then some (value, s.drop word.length) else none

mutual
/-- A value, with `n` turns and `d` levels left. -/
def readValue : Nat → Nat → Bytes → Option (Json × Bytes)
  | 0, _, _ => none
  | n + 1, d, s =>
    match skipBlanks s with
    | [] => none
    | 0x7B :: s =>
      if d = 0 then none
      else
        match skipBlanks s with
        | 0x7D :: s => some (.obj [], s)
        | s => readFields n (d - 1) [] s
    | 0x5B :: s =>
      if d = 0 then none
      else
        match skipBlanks s with
        | 0x5D :: s => some (.arr [], s)
        | s => readItems n (d - 1) [] s
    | 0x22 :: s => (readString s).map (fun p => (.str p.1, p.2))
    | 0x6E :: s => readWord (lit "null") .null (0x6E :: s)
    | 0x74 :: s => readWord (lit "true") (.bool true) (0x74 :: s)
    | 0x66 :: s => readWord (lit "false") (.bool false) (0x66 :: s)
    | b :: s => (readNumber .start (b :: s)).map (fun p => (.num p.1, p.2))
/-- The items of an array behind those in `acc`. -/
def readItems : Nat → Nat → List Json → Bytes → Option (Json × Bytes)
  | 0, _, _, _ => none
  | n + 1, d, acc, s => do
    let (item, s) ← readValue n d s
    match skipBlanks s with
    | 0x2C :: s => readItems n d (acc ++ [item]) s
    | 0x5D :: s => return (.arr (acc ++ [item]), s)
    | _ => none
/-- The fields of an object besides those in `acc`. -/
def readFields : Nat → Nat → Fields → Bytes → Option (Json × Bytes)
  | 0, _, _, _ => none
  | n + 1, d, acc, s =>
    match skipBlanks s with
    | 0x22 :: s => do
      let (key, s) ← readString s
      match skipBlanks s with
      | 0x3A :: s => do
        let (value, s) ← readValue n d s
        match skipBlanks s with
        | 0x2C :: s => readFields n d (acc.insert key value) s
        | 0x7D :: s => return (.obj (acc.insert key value), s)
        | _ => none
      | _ => none
    | _ => none
end

/-- The scanner's `maxNestingDepth`. -/
def maxDepth : Nat := 10000

/-- One value and nothing but blanks behind it. -/
def decode (s : Bytes) : Option Json :=
  match readValue (s.length + 1) maxDepth s with
  | some (value, rest) => if skipBlanks rest = [] then some value else none
  | none => none

example : (decode (lit "\x7b\"b\":[1.5e3,\"\\u00e9\\n\"],\"a\":null,\"b\":true\x7d")).map marshal =
    some (lit "\x7b\"a\":null,\"b\":true\x7d") := by decide +kernel

end GoJson
