import DeepSeekWebToApi.Toolcall.Value
import DeepSeekWebToApi.Lib.Loop

/- Values written as markup (`toolcalls_markup.go`, `toolcalls_xml.go`, the readers of
   `toolcalls_array_parse.go`, and the parameter values of `toolcalls_parse_markup.go`).

   `parseStructuredToolCallInput`, `parseMarkupKVObject` and `parseMarkupValue` call each
   other on the text between two tags. The number of nested calls is bounded by the
   length of the text, as the text between two tags is shorter than the text with
   them (`markupKVObject_depth`); so they satisfy the source's equations
   (`parseMarkupKVObject_eq`). -/
namespace DeepSeekWebToApi.Toolcall
open GoStrings GoLoop GoRegexp

/-! CDATA sections. -/

def cdataPattern : Re :=
  .seqs [.beginText, .textFold "<![cdata[", .group 1 (.star false .any), .text "]]>", .endText]

def cdataPipeVariantPattern : Re :=
  .seqs [.beginText, .textFold "<![cdata", .oneOf "|｜", .group 1 (.star false .any),
    .opt (.oneOf "|｜"), .text "]]>", .endText]

/-- Compares lower-cased text with an opener in upper case, so it never finds one. -/
def cdataPipeOpenerByteLen (trimmed : Bytes) : Nat :=
  let lower := toLower trimmed
  if hasPrefix lower (lit "<![CDATA|") then 9
  else if hasPrefix lower (lit "<![CDATA｜") then 11
  else 0

def extractStandaloneCDATA (inner : Bytes) : Option Bytes :=
  let trimmed := trimSpace inner
  match cdataPattern.find trimmed with
  | some m => some (m.text trimmed 1)
  | none =>
    match cdataPipeVariantPattern.find trimmed with
    | some m => some (m.text trimmed 1)
    | none =>
      -- no rune outside ASCII has a lower case in the opener, so its length is that of the copy
      if hasPrefix (toLower trimmed) (lit "<![cdata[") then some (trimmed.drop 9)
      else
        let openLen := cdataPipeOpenerByteLen trimmed
        if openLen > 0 then some (trimmed.drop openLen) else none

def extractRawTagValue (std : GoStd) (inner : Bytes) : Bytes :=
  let trimmed := trimSpace inner
  if trimmed = [] then []
  else (extractStandaloneCDATA trimmed).getD (std.unescape inner)

def isLikelyTagStartAt (text : Bytes) (idx : Nat) : Bool :=
  match text.drop idx with
  | 0x3C :: rest =>
    let rest := if rest.head? = some '/'.toUInt8 then rest.tail else rest
    match rest.head? with
    | none => false
    | some c =>
      isLetter c.toNat || c == '_'.toUInt8 || c == '|'.toUInt8 || hasPrefix rest (lit "｜")
  | _ => false

/-- The offset, in the text itself, of the first `]]` right before a tag. -/
def findLooseCDATAClose : Bytes → Option Nat
  | [] => none
  | b :: text =>
    if hasPrefix (b :: text) (lit "]]<") && isLikelyTagStartAt (b :: text) 2 then some 0
    else (findLooseCDATAClose text).map (· + 1)

/-- The offset, the output and whether anything was repaired. -/
structure Sanitize where
  pos : Nat := 0
  out : Bytes := []
  changed : Bool := false

/-- The loop body of `SanitizeLooseCDATA`. -/
def sanitizeTurn (text lower : Bytes) (s : Sanitize) : Option (Turn Sanitize Sanitize) :=
  if s.pos ≥ text.length then some (.done s)
  else do
    let tail ← sliceFrom lower s.pos
    match index tail (lit "<![cdata[") with
    | none => return .done { s with out := s.out ++ text.drop s.pos }
    | some startRel =>
      let start := s.pos + startRel
      let contentStart := start + 9
      let out := s.out ++ (← slice text s.pos start)
      let content ← sliceFrom text contentStart
      let properRel := index content (lit "]]>")
      let looseRel := findLooseCDATAClose content
      -- the earlier close counts, the proper one on a tie
      let proper := properRel.filter (fun p => looseRel.all (p ≤ ·))
      match proper, looseRel with
      | some p, _ =>
        return .next { s with pos := contentStart + p + 3,
                              out := out ++ (← slice text start (contentStart + p + 3)) }
      | none, some l =>
        return .next { pos := contentStart + l + 2, changed := true,
                       out := out ++ (← slice text start (contentStart + l)) ++ lit "]]>" }
      | none, none =>
        return .next { pos := text.length, out := out ++ content, changed := true }

def sanitizeLooseCDATA (text : Bytes) : Option Bytes := do
  let s ← loop (fun s => text.length - s.pos) (sanitizeTurn text (toLower text)) {}
  return if s.changed then s.out else text

theorem sanitizeTurn_decreases (text lower : Bytes) :
    Decreases (fun s => text.length - s.pos) (sanitizeTurn text lower) := by
  refine Decreases.of_moves (fun s t h => ?_)
  unfold sanitizeTurn at h
  split at h
  · cases h
  · next hlt =>
    obtain ⟨tail, -, h⟩ := Option.bind_eq_some_iff.mp h
    split at h
    · cases h
    · obtain ⟨before, -, h⟩ := Option.bind_eq_some_iff.mp h
      obtain ⟨content, -, h⟩ := Option.bind_eq_some_iff.mp h
      simp only at h
      split at h
      · obtain ⟨piece, -, h⟩ := Option.bind_eq_some_iff.mp h
        cases h
        simp only
        omega
      · obtain ⟨piece, -, h⟩ := Option.bind_eq_some_iff.mp h
        cases h
        simp only
        omega
      · cases h
        simp only
        omega

/-! XML fragments. -/

def parseJSONLiteralValue (std : GoStd) (raw : Bytes) : Option Value :=
  let trimmed := trimSpace raw
  match trimmed.head? with
  | none => none
  | some ch => if (lit "\x7b[\"-0123456789tfn").contains ch then std.unmarshal trimmed else none

def appendXMLChildValue (dst : Obj) (key : Bytes) (value : Value) : Obj :=
  if key = [] then dst else appendMarkupValue dst key value

/-- An element whose end has not come: the locals of a call of `parseXMLNodeValue`. -/
structure XmlNode where
  name : Bytes
  children : Obj := []
  text : Bytes := []
  hasChild : Bool := false

/-- The value of an element at its end. -/
def XmlNode.value (std : GoStd) (node : XmlNode) : Value :=
  if node.children = [] then (parseJSONLiteralValue std node.text).getD (.str node.text)
  else
    let children :=
      if trimSpace node.text ≠ [] then
        node.children.set (lit "_text") ((parseJSONLiteralValue std node.text).getD (.str node.text))
      else node.children
    match children.length, children.get (lit "item") with
    | 1, some (.arr items) => .arr items
    | 1, some item => .arr [item]
    | _, _ => .obj children

/-- `parseXMLNodeValue`; the calls that wait for a child are the stack. -/
def parseXMLNodeValue (std : GoStd) (node : XmlNode) (stack : List XmlNode) :
    List XmlToken → Option Value
  | [] => none
  | .charData s :: tokens =>
    if node.hasChild ∧ trimSpace s = [] then parseXMLNodeValue std node stack tokens
    else parseXMLNodeValue std { node with text := node.text ++ s } stack tokens
  | .startElement name :: tokens =>
    let text := if ¬ node.hasChild ∧ trimSpace node.text = [] then [] else node.text
    parseXMLNodeValue std { name } ({ node with text, hasChild := true } :: stack) tokens
  | .endElement name :: tokens =>
    if name ≠ node.name then none
    else
      match stack with
      | [] => some (node.value std)
      | parent :: stack =>
        let children := appendXMLChildValue parent.children node.name (node.value std)
        parseXMLNodeValue std { parent with children } stack tokens
  | .other :: tokens => parseXMLNodeValue std node stack tokens

/-- The tokens inside the root element a fragment is wrapped in. -/
def rootTokens (std : GoStd) (trimmed : Bytes) : Option (Bytes × List XmlToken) :=
  match std.xmlTokens (lit "<root>" ++ trimmed ++ lit "</root>") with
  | .startElement name :: tokens => if equalFold name (lit "root") then some (name, tokens) else none
  | _ => none

def parseXMLFragmentValue (std : GoStd) (raw : Bytes) : Option Value := do
  let trimmed := trimSpace raw
  if trimmed = [] then return .str []
  let (name, tokens) ← rootTokens std trimmed
  parseXMLNodeValue std { name } [] tokens

/-! Loose arrays. -/

def parseLooseArrayElementValue (std : GoStd) (raw : Bytes) : Option Value :=
  let trimmed := trimSpace (std.unescape raw)
  if trimmed = [] then none
  else
    let attempt (repaired : Bytes) : Option Value :=
      if repaired ≠ trimmed then std.unmarshal repaired else none
    ((std.unmarshal trimmed).or (attempt (repairInvalidJSONBackslashes trimmed))).or
      ((attempt (repairLooseJSON trimmed)).or
        (if contains trimmed (lit "<") && contains trimmed (lit ">") then
          parseXMLFragmentValue std trimmed
        else none))

def parseLooseJSONArrayCandidate (std : GoStd) (raw paramName : Bytes) : Option (List Value) :=
  (parseLooseArrayElementValue std raw).bind (coerceArrayValue paramName)

def parseLooseJSONArrayValue (std : GoStd) (raw paramName : Bytes) : Option (List Value) :=
  if preservesCDATAStringParameter paramName then none
  else
    let trimmed := trimSpace (std.unescape raw)
    if trimmed = [] then none
    else
      (parseLooseJSONArrayCandidate std trimmed paramName).or
        ((splitTopLevelJSONValues trimmed).bind
          (fun segments => segments.mapM (parseLooseArrayElementValue std)))

/-! Key and value markup. -/

/-- `[a-z0-9_:-]` in any case. -/
def isNamespaceRune (r : Nat) : Bool :=
  let r := foldRune r
  (0x61 ≤ r && r ≤ 0x7A) || (0x30 ≤ r && r ≤ 0x39) || (runes "_:-").contains r

/-- `[a-z0-9_\-.]` in any case. -/
def isKeyRune (r : Nat) : Bool :=
  let r := foldRune r
  (0x61 ≤ r && r ≤ 0x7A) || (0x30 ≤ r && r ≤ 0x39) || (runes "_-.").contains r

def namespacePart : Re := .opt (.seq (.plus (.rune isNamespaceRune)) (.text ":"))

/-- What follows the first bracket of `toolCallMarkupKVPattern`. -/
def markupKVTail : Re :=
  .seqs [namespacePart, .group 1 (.plus (.rune isKeyRune)), .wordBoundary,
    .star true (.noneOf ">"), .text ">", .group 2 (.star false .any), .text "</", namespacePart,
    .group 3 (.plus (.rune isKeyRune)), .text ">"]

def toolCallMarkupKVPattern : Re := .seq (.text "<") markupKVTail

/-- `map[string]any` with the single key `_raw` and a string. -/
def onlyRawString (m : Obj) : Option Bytes :=
  match m.length, m.get (lit "_raw") with
  | 1, some (.str raw) => some raw
  | _, _ => none

def isOnlyRawValue (m : Obj) (raw : Bytes) : Bool :=
  match onlyRawString m with
  | some v => trimSpace v = trimSpace raw
  | none => false

section Structured
variable (std : GoStd)

/-- `parseMarkupValue` with the reader of structured inputs it calls. -/
def markupValueWith (structured : Bytes → Obj) (inner : Bytes) : Value :=
  match extractStandaloneCDATA inner with
  | some value => .str value
  | none =>
    let value := trimSpace (extractRawTagValue std inner)
    if value = [] then .str []
    else
      let parsed := if contains value (lit "<") && contains value (lit ">") then structured value else []
      if parsed ≠ [] then
        match onlyRawString parsed with
        | some raw => .str raw
        | none => .obj parsed
      else (std.unmarshal value).getD (.str value)

/-- A pair of tags added to the object; the tags have to agree, and null values are left out. -/
def appendMatch (structured : Bytes → Obj) (text : Bytes) (out : Obj) (m : Match) : Obj :=
  let key := trimSpace (m.text text 1)
  if key = [] ∨ ¬ equalFold key (trimSpace (m.text text 3)) then out
  else
    match markupValueWith std structured (m.text text 2) with
    | .null => out
    | value => appendMarkupValue out key value

/-- `parseMarkupKVObject` with the reader of structured inputs it calls. -/
def markupKVObjectWith (structured : Bytes → Obj) (text : Bytes) : Obj :=
  let trimmed := trimSpace text
  (toolCallMarkupKVPattern.findAll trimmed).foldl (appendMatch std structured trimmed) []

/-- `parseStructuredToolCallInput` with the reader of key and value markup it calls. -/
def structuredInputWith (kvObject : Bytes → Obj) (raw : Bytes) : Obj :=
  let trimmed := trimSpace raw
  let plain : Obj :=
    let kv := kvObject trimmed
    if kv ≠ [] then kv
    else
      let parsed := parseToolCallInput std (.str trimmed)
      if parsed ≠ [] then parsed else [(lit "_raw", .str (std.unescape trimmed))]
  if trimmed = [] then []
  else if hasPrefix trimmed (lit "<") then
    match parseXMLFragmentValue std trimmed with
    | some (.obj v) => v
    | some (.str v) =>
      let text := trimSpace v
      if text = [] then []
      else
        let parsedText := parseToolCallInput std (.str text)
        if parsedText ≠ [] ∧ ¬ isOnlyRawValue parsedText text then parsedText
        else [(lit "_raw", .str v)]
    | _ => plain
  else plain

/-- `parseMarkupKVObject` with at most `depth` nested calls. -/
def markupKVObject : Nat → Bytes → Obj
  | 0, _ => []
  | depth + 1, text => markupKVObjectWith std (structuredInputWith std (markupKVObject depth)) text

def parseMarkupKVObject (text : Bytes) : Obj := markupKVObject std text.length text

def parseStructuredToolCallInput (raw : Bytes) : Obj :=
  structuredInputWith std (parseMarkupKVObject std) raw

/-! The nested calls read shorter texts. -/

theorem structuredInputWith_congr {kv kv' : Bytes → Obj} {raw : Bytes}
    (h : kv (trimSpace raw) = kv' (trimSpace raw)) :
    structuredInputWith std kv raw = structuredInputWith std kv' raw := by
  simp only [structuredInputWith, h]

theorem extractRawTagValue_length {inner : Bytes} (h : extractStandaloneCDATA inner = none) :
    (extractRawTagValue std inner).length ≤ inner.length := by
  have htrim : extractStandaloneCDATA (trimSpace inner) = none := by
    rw [← h]
    simp only [extractStandaloneCDATA, trimSpace_idem]
  unfold extractRawTagValue
  simp only [htrim, Option.getD_none]
  split
  · exact Nat.zero_le _
  · exact std.unescape_le inner

theorem markupValueWith_congr {structured structured' : Bytes → Obj} {inner : Bytes}
    (h : ∀ t : Bytes, t.length ≤ inner.length → structured t = structured' t) :
    markupValueWith std structured inner = markupValueWith std structured' inner := by
  unfold markupValueWith
  split
  · rfl
  · next hnone =>
    have hle := (length_trimSpace_le (extractRawTagValue std inner)).trans
      (extractRawTagValue_length std hnone)
    simp only [h _ hle]

theorem markupKVObjectWith_congr {structured structured' : Bytes → Obj} {text : Bytes}
    (h : ∀ t : Bytes, t.length < text.length → structured t = structured' t) :
    markupKVObjectWith std structured text = markupKVObjectWith std structured' text := by
  refine List.foldl_ext _ _ _ (fun out m hm => ?_)
  have hlt : (m.text (trimSpace text) 2).length < text.length :=
    (Re.length_text_lt hm 2).trans_le (length_trimSpace_le text)
  have hvalue := markupValueWith_congr std (fun t ht => h t (Nat.lt_of_le_of_lt ht hlt))
  simp only [appendMatch, hvalue]

theorem markupKVObject_nil : ∀ depth, markupKVObject std depth [] = []
  | 0 => rfl
  | _ + 1 => rfl

/-- More nested calls than the text has bytes are not made. -/
theorem markupKVObject_depth {n m : Nat} {text : Bytes} (hn : text.length ≤ n)
    (hm : text.length ≤ m) : markupKVObject std n text = markupKVObject std m text := by
  induction n generalizing m text with
  | zero =>
    have hnil : text = [] := List.length_eq_zero_iff.mp (Nat.le_zero.mp hn)
    rw [hnil, markupKVObject_nil, markupKVObject_nil]
  | succ n ih =>
    cases m with
    | zero =>
      have hnil : text = [] := List.length_eq_zero_iff.mp (Nat.le_zero.mp hm)
      rw [hnil, markupKVObject_nil, markupKVObject_nil]
    | succ m =>
      refine markupKVObjectWith_congr std (fun t ht => structuredInputWith_congr std ?_)
      have hle := length_trimSpace_le t
      exact ih (by omega) (by omega)

/-- The three readers call each other as in the source. -/
theorem parseMarkupKVObject_eq (text : Bytes) :
    parseMarkupKVObject std text =
      markupKVObjectWith std (parseStructuredToolCallInput std) text := by
  rw [parseMarkupKVObject, markupKVObject_depth std (Nat.le_refl _) (Nat.le_succ _)]
  refine markupKVObjectWith_congr std (fun t ht => structuredInputWith_congr std ?_)
  have hle := length_trimSpace_le t
  exact markupKVObject_depth std (by omega) (Nat.le_refl _)

end Structured

end DeepSeekWebToApi.Toolcall
