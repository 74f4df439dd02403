import DeepSeekWebToApi.Lib.Regexp

/- Values of tool call inputs and what turns a text into one: the JSON repairs
   (`toolcalls_json_repair.go`), string inputs (`toolcalls_input_parse.go`) and loose
   arrays (`toolcalls_array_parse.go`; its entry points that read XML are in `Markup`).
   The decoders of Go's standard library are the fields of `GoStd`. -/
namespace DeepSeekWebToApi.Toolcall
open GoStrings GoRegexp

/-- What `json.Unmarshal` decodes to. A number is known by its text. -/
inductive Value where
  | null
  | bool (b : Bool)
  | num (text : Bytes)
  | str (s : Bytes)
  | arr (items : List Value)
  | obj (fields : List (Bytes × Value))
  deriving Repr, Inhabited

/-- A `map[string]any`: keys with their values, each key once. `nil` is the empty map. -/
abbrev Obj := List (Bytes × Value)

def Obj.get (m : Obj) (key : Bytes) : Option Value := (m.find? (fun kv => kv.1 == key)).map Prod.snd

def Obj.set : Obj → Bytes → Value → Obj
  | [], key, value => [(key, value)]
  | (k, v) :: m, key, value => if k = key then (key, value) :: m else (k, v) :: Obj.set m key value

/-- A key that comes again collects its values in an array (`appendMarkupValue`; also the step of
    `appendXMLChildValue`). -/
def appendMarkupValue (out : Obj) (key : Bytes) (value : Value) : Obj :=
  match out.get key with
  | none => out.set key value
  | some (.arr current) => out.set key (.arr (current ++ [value]))
  | some current => out.set key (.arr [current, value])

/-- A token of `encoding/xml`, with the local names of elements. -/
inductive XmlToken where
  | startElement (name : Bytes)
  | endElement (name : Bytes)
  | charData (text : Bytes)
  | other
  deriving DecidableEq, Repr

/-- The decoders the parser calls. -/
structure GoStd where
  /-- `json.Unmarshal` into an `any`; `none` is an error -/
  unmarshal : Bytes → Option Value
  /-- `json.Marshal`, which fails on none of these values -/
  marshal : Value → Bytes
  /-- the tokens an `xml.Decoder` yields before its first error -/
  xmlTokens : Bytes → List XmlToken
  /-- `html.UnescapeString`, which works in place -/
  unescape : Bytes → Bytes
  unescape_le : ∀ s, (unescape s).length ≤ s.length

/-- `json.Unmarshal` into a map that is not nil afterwards. -/
def GoStd.unmarshalMap (std : GoStd) (s : Bytes) : Option Obj :=
  match std.unmarshal s with
  | some (.obj m) => some m
  | _ => none

/-! Repairs of JSON texts. -/

def isHexRune (r : Nat) : Bool :=
  (0x30 ≤ r && r ≤ 0x39) || (0x61 ≤ r && r ≤ 0x66) || (0x41 ≤ r && r ≤ 0x46)

/-- Backslashes that start no JSON escape are doubled. -/
def repairBackslashRunes : List Nat → Bytes
  | [] => []
  | r :: rest =>
    if r ≠ 0x5C then encodeRune r ++ repairBackslashRunes rest
    else
      match rest with
      | [] => lit "\\\\"
      | next :: rest' =>
        if (runes "\"\\/bfnrt").contains next then
          lit "\\" ++ encodeRune next ++ repairBackslashRunes rest'
        else
          match next, rest' with
          | 0x75, a :: b :: c :: d :: rest'' =>
            if [a, b, c, d].all isHexRune then
              lit "\\u" ++ [a, b, c, d].flatMap encodeRune ++ repairBackslashRunes rest''
            else lit "\\\\" ++ repairBackslashRunes (0x75 :: a :: b :: c :: d :: rest'')
          | next, rest' => lit "\\\\" ++ repairBackslashRunes (next :: rest')

def repairInvalidJSONBackslashes (s : Bytes) : Bytes :=
  if ¬ contains s (lit "\\") then s else repairBackslashRunes ((splitRunes s).map Prod.fst)

def isLetter (r : Nat) : Bool := (0x61 ≤ r && r ≤ 0x7A) || (0x41 ≤ r && r ≤ 0x5A)

def unquotedKeyPattern : Re :=
  .seqs [.group 1 (.seq (.oneOf "\x7b,") .spaces),
    .group 2 (.seq (.rune (fun r => isLetter r || r == 0x5F)) (.star true (.rune isWordRune))),
    .spaces, .text ":"]

/-- An object with at most one level of objects inside. -/
def shallowObjectPattern : Re :=
  .seqs [.text "\x7b",
    .star true (.alt (.noneOf "\x7b\x7d")
      (.seqs [.text "\x7b", .star true (.noneOf "\x7b\x7d"), .text "\x7d"])),
    .text "\x7d"]

def missingArrayBracketsPattern : Re :=
  .seq (.group 1 (.seq (.text ":") .spaces))
    (.group 2 (.seq shallowObjectPattern
      (.plus (.seqs [.spaces, .text ",", .spaces, shallowObjectPattern]))))

def repairLooseJSON (s : Bytes) : Bytes :=
  let s := trimSpace s
  if s = [] then s
  else
    let s := unquotedKeyPattern.replaceAll s
      (fun m => m.text s 1 ++ lit "\"" ++ m.text s 2 ++ lit "\":")
    missingArrayBracketsPattern.replaceAll s
      (fun m => m.text s 1 ++ lit "[" ++ m.text s 2 ++ lit "]")

/-! String inputs. -/

def isPathLikeKey (key : Bytes) : Bool :=
  let k := toLower (trimSpace key)
  contains k (lit "path") || contains k (lit "file")

/-- `unicode.IsControl`. -/
def isControl (r : Nat) : Bool := r ≤ 0x1F || (0x7F ≤ r && r ≤ 0x9F)

def containsControlRune (s : Bytes) : Bool := (splitRunes s).any (fun g => isControl g.1)

def escapeControlRune (r : Nat) : Bytes :=
  if r = 0x08 then lit "\\b"
  else if r = 0x0C then lit "\\f"
  else if r = 0x0A then lit "\\n"
  else if r = 0x0D then lit "\\r"
  else if r = 0x09 then lit "\\t"
  else encodeRune r

def escapeControlRunes (s : Bytes) : Bytes := (splitRunes s).flatMap (fun g => escapeControlRune g.1)

mutual
def repairPathLikeControlChars : Obj → Obj
  | [] => []
  | (k, v) :: m => (k, repairField k v) :: repairPathLikeControlChars m

def repairField (k : Bytes) : Value → Value
  | .obj fields => .obj (repairPathLikeControlChars fields)
  | .arr items => .arr (repairItems items)
  | .str s => .str (if isPathLikeKey k && containsControlRune s then escapeControlRunes s else s)
  | v => v

/-- Only the objects among the items are looked into. -/
def repairItems : List Value → List Value
  | [] => []
  | .obj fields :: items => .obj (repairPathLikeControlChars fields) :: repairItems items
  | v :: items => v :: repairItems items
end

/-- The string case of `parseToolCallInput`: as it is, with repaired backslashes, with repaired
    keys and brackets, or else as raw text. -/
def parseStringInput (std : GoStd) (x : Bytes) : Obj :=
  let raw := trimSpace (std.unescape x)
  if raw = [] then []
  else
    match std.unmarshalMap raw with
    | some parsed => repairPathLikeControlChars parsed
    | none =>
      let attempt (repaired : Bytes) : Option Obj :=
        if repaired ≠ raw then std.unmarshalMap repaired else none
      match (attempt (repairInvalidJSONBackslashes raw)).or (attempt (repairLooseJSON raw)) with
      | some parsed => repairPathLikeControlChars parsed
      | none => [(lit "_raw", .str raw)]

def parseToolCallInput (std : GoStd) : Value → Obj
  | .null => []
  | .obj m => m
  | .str x => parseStringInput std x
  -- a value that is no object does not decode into a map
  | _ => []

/-! Arrays. -/

def preservesCDATAStringParameter (name : Bytes) : Bool :=
  [lit "content", lit "file_content", lit "text", lit "prompt", lit "query", lit "command",
    lit "cmd", lit "script", lit "code", lit "old_string", lit "new_string", lit "pattern",
    lit "path", lit "file_path"].contains (toLower (trimSpace name))

def coerceArrayValue (paramName : Bytes) : Value → Option (List Value)
  | .arr items => some items
  | .obj [(key, value)] =>
    if key = lit "item" then some ((coerceArrayValue [] value).getD [value])
    else if paramName ≠ [] ∧ key = paramName then coerceArrayValue [] value
    else none
  | _ => none

/-- Where `splitTopLevelJSONValues` stands: the bytes since the last cut and the values before. -/
structure Split where
  current : Bytes := []
  values : List Bytes := []
  depth : Nat := 0
  inString : Bool := false
  escaped : Bool := false

/-- One rune; `none` for an empty value. -/
def Split.rune (s : Split) (r : Nat) (bytes : Bytes) : Option Split :=
  let kept := { s with current := s.current ++ bytes }
  if s.inString then
    if s.escaped then some { kept with escaped := false }
    else if r = 0x5C then some { kept with escaped := true }
    else if r = 0x22 then some { kept with inString := false }
    else some kept
  else if r = 0x22 then some { kept with inString := true }
  else if r = 0x7B ∨ r = 0x5B then some { kept with depth := s.depth + 1 }
  else if r = 0x7D ∨ r = 0x5D then some { kept with depth := s.depth - 1 }
  else if r = 0x2C ∧ s.depth = 0 then
    let segment := trimSpace s.current
    if segment = [] then none else some { s with current := [], values := s.values ++ [segment] }
  else some kept

def splitTopLevelJSONValues (raw : Bytes) : Option (List Bytes) := do
  let trimmed := trimSpace raw
  if trimmed = [] then none
  let s ← (splitRunes trimmed).foldlM (fun s g => s.rune g.1 g.2) ({} : Split)
  let last := trimSpace s.current
  if last = [] then none
  let values := s.values ++ [last]
  if values.length < 2 then none else some values

end DeepSeekWebToApi.Toolcall
