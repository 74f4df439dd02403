import DeepSeekWebToApi.Toolcall.Dsml
import DeepSeekWebToApi.Toolcall.Markup

/- The tool call parser (`toolcalls_parse.go`, `toolcalls_parse_markup.go`): the elements
   of a text, the values of their parameters, and the whole pipeline from a text to its
   calls. -/
namespace DeepSeekWebToApi.Toolcall
open GoStrings GoLoop GoRegexp

structure ParsedToolCall where
  name : Bytes
  input : Obj

structure ToolCallParseResult where
  calls : List ParsedToolCall := []
  sawToolCallSyntax : Bool := false
  rejectedByPolicy : Bool := false
  rejectedToolNames : List Bytes := []

/-! Elements. -/

def hasXMLTagBoundary (text : Bytes) (idx : Nat) : Bool :=
  match (text.drop idx).head? with
  | none => true
  | some ch => (lit " \t\n\r>/").contains ch

def isSelfClosingXMLTag (startTag : Bytes) : Bool := hasSuffix (trimSpace startTag) (lit "/")

/-- Whether a tag that begins like `target` stands at an offset. -/
def tagAt (text lower target : Bytes) (i : Nat) : Bool :=
  hasPrefix (lower.drop i) target && hasXMLTagBoundary text (i + target.length)

structure XmlStartTag where
  start : Nat
  bodyStart : Nat
  attrs : Bytes

/-- The loop body of `findXMLStartTagOutsideCDATA`. -/
def startTagTurn (text lower target : Bytes) (i : Nat) : Option (Turn Nat (Option XmlStartTag)) :=
  if i ≥ text.length then some (.done none)
  else do
    match ← skipXMLIgnoredSection lower i with
    | .blocked => return .done none
    | .advanced next => return .next next
    | .stay =>
      if tagAt text lower target i then
        match findXMLTagEnd text (i + target.length) with
        | none => return .done none
        | some e =>
          let attrs ← slice text (i + target.length) e
          return .done (some { start := i, bodyStart := e + 1, attrs })
      return .next (i + 1)

def findXMLStartTagOutsideCDATA (text tag : Bytes) (start : Nat) : Option (Option XmlStartTag) :=
  loop (text.length - ·) (startTagTurn text (toLower text) (lit "<" ++ toLower tag)) start

/-- The loop body of `findMatchingXMLEndTagOutsideCDATA`, on the offset and the depth; the result
    is where the closing tag starts and ends. -/
def endTagTurn (text lower openTarget closeTarget : Bytes) (s : Nat × Nat) :
    Option (Turn (Nat × Nat) (Option (Nat × Nat))) :=
  if s.1 ≥ text.length then some (.done none)
  else do
    match ← skipXMLIgnoredSection lower s.1 with
    | .blocked => return .done none
    | .advanced next => return .next (next, s.2)
    | .stay =>
      if tagAt text lower closeTarget s.1 then
        match findXMLTagEnd text (s.1 + closeTarget.length) with
        | none => return .done none
        | some e =>
          if s.2 - 1 = 0 then return .done (some (s.1, e + 1))
          return .next (e + 1, s.2 - 1)
      if tagAt text lower openTarget s.1 then
        match findXMLTagEnd text (s.1 + openTarget.length) with
        | none => return .done none
        | some e =>
          return .next (e + 1, if isSelfClosingXMLTag (text.take e) then s.2 else s.2 + 1)
      return .next (s.1 + 1, s.2)

def findMatchingXMLEndTagOutsideCDATA (text tag : Bytes) (start : Nat) :
    Option (Option (Nat × Nat)) :=
  loop (fun s => text.length - s.1)
    (endTagTurn text (toLower text) (lit "<" ++ toLower tag) (lit "</" ++ toLower tag)) (start, 1)

structure XmlElementBlock where
  attrs : Bytes
  body : Bytes
  start : Nat
  stop : Nat

/-- The loop body of `findXMLElementBlocks`. -/
def elementBlocksTurn (text tag : Bytes) (s : Nat × List XmlElementBlock) :
    Option (Turn (Nat × List XmlElementBlock) (List XmlElementBlock)) :=
  if s.1 ≥ text.length then some (.done s.2)
  else do
    match ← findXMLStartTagOutsideCDATA text tag s.1 with
    | none => return .done s.2
    | some t =>
      match ← findMatchingXMLEndTagOutsideCDATA text tag t.bodyStart with
      | none => return .next (t.bodyStart, s.2)
      | some (closeStart, closeEnd) =>
        let body ← slice text t.bodyStart closeStart
        return .next (closeEnd,
          s.2 ++ [{ attrs := t.attrs, body, start := t.start, stop := closeEnd }])

def findXMLElementBlocks (text tag : Bytes) : Option (List XmlElementBlock) :=
  loop (fun s => text.length - s.1) (elementBlocksTurn text tag) (0, [])

/-! Attributes. -/

/-- A quoted text; its content is group `n` or `n + 1`. -/
def quotedPattern (n : Nat) : Re :=
  .alt (.seqs [.text "\"", .group n (.star true (.noneOf "\"")), .text "\""])
    (.seqs [.text "'", .group (n + 1) (.star true (.noneOf "'")), .text "'"])

def xmlAttrPattern : Re :=
  .seqs [.wordBoundary, .group 1 (.plus (.rune isNamespaceRune)), .spaces, .text "=", .spaces,
    .group 2 (quotedPattern 3)]

def xmlToolCallsClosePattern : Re := .textFold "</tool_calls>"

def xmlInvokeStartPattern : Re :=
  .seqs [.textFold "<invoke", .wordBoundary, .star true (.noneOf ">"), .wordBoundary,
    .textFold "name", .spaces, .text "=", .spaces, .group 1 (quotedPattern 2)]

/-- The attributes of a tag in their order; of equal keys the last one counts. -/
def parseXMLTagAttributes (raw : Bytes) : List (Bytes × Bytes) :=
  if trimSpace raw = [] then []
  else
    ((xmlAttrPattern.findAll raw).map (fun m =>
      (toLower (trimSpace (m.text raw 1)),
        if m.text raw 3 = [] then m.text raw 4 else m.text raw 3))).filter (fun kv => kv.1 ≠ [])

def attrValue (attrs : List (Bytes × Bytes)) (key : Bytes) : Bytes :=
  ((attrs.reverse.find? (fun kv => kv.1 == key)).map Prod.snd).getD []

/-! Parameter values. -/

def cdataBRSeparatorPattern : Re :=
  .seqs [.textFold "<br", .spaces, .opt (.text "/"), .text ">"]

def normalizeCDATAForStructuredParse (std : GoStd) (raw : Bytes) : Bytes :=
  if raw = [] then []
  else std.unescape (trimSpace (cdataBRSeparatorPattern.replaceAll raw (fun _ => lit "\n")))

/-- The locals of `cdataFragmentLooksExplicitlyStructured`. -/
structure FragmentShape where
  depth : Nat := 0
  directChildren : Nat := 0
  firstChildName : Bytes := []
  firstChildHasNested : Bool := false

def FragmentShape.structured (s : FragmentShape) : List XmlToken → Bool
  | [] => false
  | .startElement name :: tokens =>
    if s.depth = 0 then
      if s.directChildren + 1 = 1 then
        FragmentShape.structured
          { s with depth := 1, directChildren := 1, firstChildName := toLower (trimSpace name) } tokens
      else true
    else
      FragmentShape.structured
        { s with
          depth := s.depth + 1
          firstChildHasNested :=
            s.firstChildHasNested || (s.directChildren = 1 && s.depth = 1) } tokens
  | .endElement name :: tokens =>
    if equalFold name (lit "root") then
      s.directChildren = 1 && (s.firstChildName = lit "item" || s.firstChildHasNested)
    else FragmentShape.structured { s with depth := s.depth - 1 } tokens
  | _ :: tokens => FragmentShape.structured s tokens

def cdataFragmentLooksExplicitlyStructured (std : GoStd) (raw : Bytes) : Bool :=
  let trimmed := trimSpace raw
  if trimmed = [] then false
  else
    match rootTokens std trimmed with
    | none => false
    | some (_, tokens) => FragmentShape.structured {} tokens

def parseStructuredCDATAParameterValue (std : GoStd) (paramName raw : Bytes) : Option Value :=
  if preservesCDATAStringParameter paramName then none
  else
    let normalized := normalizeCDATAForStructuredParse std raw
    if ¬ contains normalized (lit "<") ∨ ¬ contains normalized (lit ">") then none
    else if ¬ cdataFragmentLooksExplicitlyStructured std normalized then none
    else
      match parseXMLFragmentValue std normalized with
      | some (.arr v) => some (.arr v)
      | some (.obj v) => if v = [] then none else some (.obj v)
      | _ => none

section Parameter
variable (std : GoStd) (paramName : Bytes)

/-- A value, or the array it stands for. -/
def coerced (value : Value) : Value := ((coerceArrayValue paramName value).map .arr).getD value

def literalParameterValue (raw : Bytes) : Option Value :=
  (parseJSONLiteralValue std raw).map (coerced paramName)

def looseParameterValue (raw : Bytes) : Option Value :=
  (parseLooseJSONArrayValue std raw paramName).map .arr

/-- What `parseInvokeParameterValue` makes of an XML fragment; `none` where it tries on. -/
def fragmentParameterValue (decoded : Bytes) : Option Value :=
  match parseXMLFragmentValue std decoded with
  | none => none
  | some (.obj v) => if v = [] then none else some (coerced paramName (.obj v))
  | some (.str v) =>
    let text := trimSpace v
    if text = [] then some (.str [])
    else
      some (((literalParameterValue std paramName text).or
        (looseParameterValue std paramName text)).getD (.str v))
  | some v => some v

/-- What `parseInvokeParameterValue` makes of a structured text; `none` where it tries on. -/
def structuredParameterValue (decoded : Bytes) : Option Value :=
  let parsed := parseStructuredToolCallInput std decoded
  if parsed = [] then none
  else
    match onlyRawString parsed with
    | some rawValue => some ((looseParameterValue std paramName rawValue).getD (.str rawValue))
    | none => some (coerced paramName (.obj parsed))

def parseInvokeParameterValue (raw : Bytes) : Value :=
  let trimmed := trimSpace raw
  if trimmed = [] then .str []
  else
    match extractStandaloneCDATA trimmed with
    | some value =>
      (((literalParameterValue std paramName value).or
        (parseStructuredCDATAParameterValue std paramName value)).or
          (looseParameterValue std paramName value)).getD (.str value)
    | none =>
      let decoded := std.unescape (extractRawTagValue std trimmed)
      let markup :=
        if contains decoded (lit "<") && contains decoded (lit ">") then
          (fragmentParameterValue std paramName decoded).or
            (structuredParameterValue std paramName decoded)
        else none
      (markup.or ((literalParameterValue std paramName decoded).or
        (looseParameterValue std paramName decoded))).getD (.str decoded)

end Parameter

/-! Calls. -/

/-- The field of an object, where it is an object itself. -/
def objectField (m : Obj) (key : Bytes) : Obj :=
  match m.get key with
  | some (.obj fields) => fields
  | _ => []

def addParameter (std : GoStd) (input : Obj) (param : XmlElementBlock) : Obj :=
  let paramName := trimSpace (std.unescape (attrValue (parseXMLTagAttributes param.attrs) (lit "name")))
  if paramName = [] then input
  else appendMarkupValue input paramName (parseInvokeParameterValue std paramName param.body)

/-- `parseSingleXMLToolCall`; the inner `none` is a block that is no call. -/
def parseSingleXMLToolCall (std : GoStd) (block : XmlElementBlock) :
    Option (Option ParsedToolCall) := do
  let name := trimSpace (std.unescape (attrValue (parseXMLTagAttributes block.attrs) (lit "name")))
  if name = [] then return none
  let inner := trimSpace block.body
  if hasPrefix inner (lit "\x7b") then
    match std.unmarshalMap inner with
    | some payload =>
      let input := objectField payload (lit "input")
      return some
        { name, input := if input = [] then objectField payload (lit "parameters") else input }
    | none => pure ()
  if hasPrefix inner (lit "[") then
    match std.unmarshal inner with
    | some (.arr items) => return some { name, input := [(lit "items", .arr items)] }
    | _ => pure ()
  let params ← findXMLElementBlocks inner (lit "parameter")
  let input := params.foldl (addParameter std) []
  if input = [] ∧ inner ≠ [] then return none
  return some { name, input }

def repairMissingXMLToolCallsOpeningWrapper (text : Bytes) : Bytes :=
  if contains (toLower text) (lit "<tool_calls") then text
  else
    match (xmlToolCallsClosePattern.findAll text).getLast?, xmlInvokeStartPattern.find text with
    | some closeLoc, some invokeLoc =>
      if invokeLoc.start ≥ closeLoc.start then text
      else
        text.take invokeLoc.start ++ lit "<tool_calls>" ++
          (text.drop invokeLoc.start).take (closeLoc.start - invokeLoc.start) ++
          lit "</tool_calls>" ++ text.drop closeLoc.stop
    | _, _ => text

/-- The calls of one wrapper. -/
def wrapperCalls (std : GoStd) (wrapper : XmlElementBlock) : Option (List ParsedToolCall) := do
  let blocks ← findXMLElementBlocks wrapper.body (lit "invoke")
  let calls ← blocks.mapM (parseSingleXMLToolCall std)
  return calls.filterMap id

def parseXMLToolCalls (std : GoStd) (text : Bytes) : Option (List ParsedToolCall) := do
  let found ← findXMLElementBlocks text (lit "tool_calls")
  let repaired := repairMissingXMLToolCallsOpeningWrapper text
  let wrappers ←
    if found = [] ∧ repaired ≠ text then findXMLElementBlocks repaired (lit "tool_calls")
    else some found
  let calls ← wrappers.mapM (wrapperCalls std)
  return calls.flatten

mutual
def toolCallInputHasMeaningfulValue : Value → Bool
  | .null => false
  | .str s => trimSpace s ≠ []
  | .obj fields => anyFieldMeaningful fields
  | .arr items => anyItemMeaningful items
  | .bool _ => true
  | .num _ => true

def anyFieldMeaningful : List (Bytes × Value) → Bool
  | [] => false
  | (_, v) :: fields => toolCallInputHasMeaningfulValue v || anyFieldMeaningful fields

def anyItemMeaningful : List Value → Bool
  | [] => false
  | v :: items => toolCallInputHasMeaningfulValue v || anyItemMeaningful items
end

/-- `filterToolCallsDetailed`; it rejects no name. -/
def filterToolCallsDetailed (parsed : List ParsedToolCall) : List ParsedToolCall × List Bytes :=
  (parsed.filter (fun tc => tc.name ≠ [] ∧
    (tc.input = [] ∨ toolCallInputHasMeaningfulValue (.obj tc.input))), [])

/-! Fenced code. -/

def countLeadingFenceChars (line : Bytes) (ch : UInt8) : Nat := (line.takeWhile (· == ch)).length

def parseFenceOpen (line : Bytes) : Option Bytes :=
  match line with
  | [] => none
  | ch :: _ =>
    if ch ≠ 0x60 ∧ ch ≠ '~'.toUInt8 then none
    else
      let count := countLeadingFenceChars line ch
      if count < 3 then none else some (List.replicate count ch)

def isFenceClose (line marker : Bytes) : Bool :=
  match marker.head? with
  | none => false
  | some ch =>
    let count := countLeadingFenceChars line ch
    line.head? == some ch && marker.length ≤ count && trimSpace (line.drop count) == []

/-- The smaller offset of a fence of either kind. -/
def firstFenceMarkerIndex (line : Bytes) : Option Nat :=
  match index line (lit "\x60\x60\x60"), index line (lit "~~~") with
  | none, tilde => tilde
  | backtick, none => backtick
  | some backtick, some tilde => some (if backtick < tilde then backtick else tilde)

def cdataStartsBeforeFence (line : Bytes) : Bool :=
  match index (toLower line) (lit "<![cdata[") with
  | none => false
  | some cdataIdx => (firstFenceMarkerIndex line).all (cdataIdx < ·)

/-- The loop body of `updateCDATAState`, on the rest of the line and whether it is in a section. -/
def cdataStateTurn (s : Bytes × Bool) : Option (Turn (Bytes × Bool) Bool) :=
  if s.1 = [] then some (.done s.2)
  else if s.2 then
    match index s.1 (lit "]]>") with
    | none => some (.done true)
    | some e => some (.next (s.1.drop (e + 3), false))
  else
    match index s.1 (lit "<![cdata[") with
    | none => some (.done false)
    | some start => some (.next (s.1.drop (start + 9), true))

def updateCDATAState (inCDATA : Bool) (line : Bytes) : Option Bool :=
  loop (fun s => s.1.length) cdataStateTurn (toLower line, inCDATA)

/-- The locals of `stripFencedCodeBlocks`. -/
structure Strip where
  out : Bytes := []
  inFence : Bool := false
  fenceMarker : Bytes := []
  inCDATA : Bool := false
  beforeFenceLen : Nat := 0

def Strip.line (s : Strip) (line : Bytes) : Option Strip :=
  if s.inCDATA || cdataStartsBeforeFence line then
    (updateCDATAState s.inCDATA line).map (fun inCDATA => { s with out := s.out ++ line, inCDATA })
  else
    let trimmed := trimLeft line (runes " \t")
    if ¬ s.inFence then
      match parseFenceOpen trimmed with
      | some marker =>
        some { s with inFence := true, fenceMarker := marker, beforeFenceLen := s.out.length }
      | none => some { s with out := s.out ++ line }
    else if isFenceClose trimmed s.fenceMarker then some { s with inFence := false, fenceMarker := [] }
    else some s

def stripFencedCodeBlocks (text : Bytes) : Option Bytes := do
  if text = [] then return []
  let s ← (splitAfter '\n'.toUInt8 text).foldlM Strip.line {}
  if ¬ s.inFence then return s.out
  if s.beforeFenceLen > 0 ∧ s.beforeFenceLen ≤ s.out.length then return s.out.take s.beforeFenceLen
  return []

/-! The pipeline. -/

def looksLikeToolCallSyntax (text : Bytes) : Option Bool :=
  (containsToolCallWrapperSyntaxOutsideIgnored text).map (fun seen => seen.hasDSML || seen.hasCanonical)

def parseToolCallsDetailedXMLOnly (std : GoStd) (text : Bytes) : Option ToolCallParseResult := do
  let trimmed := trimSpace text
  if trimmed = [] then return {}
  let result : ToolCallParseResult := { sawToolCallSyntax := ← looksLikeToolCallSyntax trimmed }
  let trimmed := trimSpace (← stripFencedCodeBlocks trimmed)
  if trimmed = [] then return result
  let trimmed ←
    if contains (toLower trimmed) (lit "<![cdata[") then sanitizeLooseCDATA trimmed else some trimmed
  let normalized ← normalizeDSMLToolCallMarkup trimmed
  let parsed ← parseXMLToolCalls std normalized
  let parsed ←
    if parsed.isEmpty && contains (toLower normalized) (lit "<![cdata[") then do
      let recovered ← sanitizeLooseCDATA normalized
      if recovered ≠ normalized then parseXMLToolCalls std recovered else some parsed
    else some parsed
  if parsed.isEmpty then return result
  let (calls, rejectedToolNames) := filterToolCallsDetailed parsed
  return { calls, sawToolCallSyntax := true, rejectedToolNames
           rejectedByPolicy := !rejectedToolNames.isEmpty && calls.isEmpty }

def parseStandaloneToolCallsDetailed (std : GoStd) (text : Bytes) : Option ToolCallParseResult :=
  parseToolCallsDetailedXMLOnly std text

/-! The loops end by themselves. -/

/-- A turn goes on, or ends with a tag, further right. -/
def MovesOn {σ ρ : Type} (text : Bytes) (f : σ → Nat) (g : ρ → Nat) (i : Nat) : Turn σ (Option ρ) → Prop
  | .next t => i < text.length ∧ i < f t
  | .done r => ∀ a ∈ r, i < g a

theorem loop_moves {σ ρ : Type} {text : Bytes} {f : σ → Nat} {g : ρ → Nat} {μ : σ → Nat}
    {body : σ → Option (Turn σ (Option ρ))} (h : ∀ s turn, body s = some turn → MovesOn text f g (f s) turn)
    {s : σ} {a : ρ} (hloop : loop μ body s = some (some a)) : f s < g a :=
  loop_inv (I := fun t => f s ≤ f t) (Q := fun r => ∀ a ∈ r, f s < g a)
    (fun t _ ht hu => ht.trans (h t _ hu).2.le) (fun t _ ht hr a ha => ht.trans_lt (h t _ hr a ha)) le_rfl hloop a rfl

theorem lt_findXMLTagEnd {text : Bytes} {i k e : Nat} (h : findXMLTagEnd text (i + k) = some e) : i < e + 1 := by
  have := findXMLTagEnd_bounds h
  omega

theorem startTagTurn_moves (text lower target : Bytes) (i : Nat) (turn : Turn Nat (Option XmlStartTag))
    (h : startTagTurn text lower target i = some turn) : MovesOn text id XmlStartTag.bodyStart i turn := by
  unfold startTagTurn at h
  split at h
  · cases h
    nofun
  · next hlt =>
    obtain ⟨skip, hskip, h⟩ := Option.bind_eq_some_iff.mp h
    cases skip with
    | blocked =>
      cases h
      nofun
    | advanced next =>
      cases h
      exact ⟨Nat.not_le.mp hlt, skipXMLIgnoredSection_moves hskip⟩
    | stay =>
      simp only at h
      split at h
      · split at h
        · cases h
          nofun
        · next e he =>
          obtain ⟨attrs, -, h⟩ := Option.bind_eq_some_iff.mp h
          cases h
          rintro tag ⟨⟩
          exact lt_findXMLTagEnd he
      · cases h
        exact ⟨Nat.not_le.mp hlt, Nat.lt_succ_self i⟩

theorem startTagTurn_decreases (text lower target : Bytes) :
    Decreases (text.length - ·) (startTagTurn text lower target) :=
  Decreases.of_moves (f := id) (fun i _ => startTagTurn_moves text lower target i _)

theorem endTagTurn_moves (text lower openTarget closeTarget : Bytes) (s : Nat × Nat)
    (turn : Turn (Nat × Nat) (Option (Nat × Nat))) (h : endTagTurn text lower openTarget closeTarget s = some turn) :
    MovesOn text Prod.fst Prod.snd s.1 turn := by
  unfold endTagTurn at h
  split at h
  · cases h
    nofun
  · next hlt =>
    have hi : s.1 < text.length := Nat.not_le.mp hlt
    obtain ⟨skip, hskip, h⟩ := Option.bind_eq_some_iff.mp h
    cases skip with
    | blocked =>
      cases h
      nofun
    | advanced next =>
      cases h
      exact ⟨hi, skipXMLIgnoredSection_moves hskip⟩
    | stay =>
      simp only at h
      split at h
      · split at h
        · cases h
          nofun
        · next e he =>
          split at h
          · cases h
            rintro tag ⟨⟩
            exact lt_findXMLTagEnd he
          · cases h
            exact ⟨hi, lt_findXMLTagEnd he⟩
      · split at h
        · split at h
          · cases h
            nofun
          · next e he =>
            cases h
            exact ⟨hi, lt_findXMLTagEnd he⟩
        · cases h
          exact ⟨hi, Nat.lt_succ_self s.1⟩

theorem endTagTurn_decreases (text lower openTarget closeTarget : Bytes) :
    Decreases (fun s => text.length - s.1) (endTagTurn text lower openTarget closeTarget) :=
  Decreases.of_moves (fun s _ => endTagTurn_moves text lower openTarget closeTarget s _)

theorem elementBlocksTurn_decreases (text tag : Bytes) :
    Decreases (fun s => text.length - s.1) (elementBlocksTurn text tag) := by
  refine Decreases.of_moves (fun s t h => ?_)
  unfold elementBlocksTurn at h
  split at h
  case isTrue => cases h
  rename_i hlt
  refine ⟨Nat.not_le.mp hlt, ?_⟩
  obtain ⟨found, hfound, h⟩ := Option.bind_eq_some_iff.mp h
  cases found with
  | none => cases h
  | some found =>
    have hbody : s.1 < found.bodyStart := loop_moves (startTagTurn_moves _ _ _) hfound
    obtain ⟨close, hclose, h⟩ := Option.bind_eq_some_iff.mp h
    cases close with
    | none =>
      cases h
      exact hbody
    | some close =>
      have hend : found.bodyStart < close.2 := loop_moves (endTagTurn_moves _ _ _ _) hclose
      obtain ⟨body, -, h⟩ := Option.bind_eq_some_iff.mp h
      cases h
      exact hbody.trans hend

theorem cdataStateTurn_decreases : Decreases (fun s => s.1.length) cdataStateTurn := by
  intro s t h
  unfold cdataStateTurn at h
  split at h
  · cases h
  · next hne =>
    have hpos : 0 < s.1.length := List.length_pos_iff.mpr hne
    have hdrop : ∀ n, (s.1.drop (n + 1)).length < s.1.length := fun n => by
      rw [List.length_drop]
      omega
    split at h
    · split at h
      · cases h
      · cases h
        exact hdrop _
    · split at h
      · cases h
      · cases h
        exact hdrop _

end DeepSeekWebToApi.Toolcall
