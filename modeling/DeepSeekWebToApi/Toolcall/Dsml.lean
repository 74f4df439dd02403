import DeepSeekWebToApi.Toolcall.Scan
import DeepSeekWebToApi.Lib.Regexp
import Mathlib.Data.List.Sort

/- Rewriting DSML tags to plain ones (`toolcalls_dsml.go`, `toolcalls_dsml_regex.go`):
   first the tags the scanner reads, then, in open and close pairs, the variants that
   only the regular expressions accept. -/
namespace DeepSeekWebToApi.Toolcall
open GoStrings GoLoop GoRegexp

/-- The cutset of the trims around tags. -/
def blanks : List Nat := runes " \t\r\n"

def stripDSMLTrailingPipe (seg : Bytes) : Bytes :=
  if ¬ hasSuffix seg (lit ">") then seg
  else
    let body := trimRight seg.dropLast blanks
    if hasSuffix body (lit "|") then trimRight (trimSuffix body (lit "|")) blanks ++ lit ">"
    else if hasSuffix body (lit "｜") then trimRight (trimSuffix body (lit "｜")) blanks ++ lit ">"
    else seg

/-- A tag in its plain form. -/
def rewriteTag (text : Bytes) (tag : ToolMarkupTag) : Option Bytes :=
  let canonicalName := canonicalToolMarkupName tag.name
  if tag.dsmlLike ∨ canonicalName ≠ tag.name then
    (slice text tag.nameEnd (tag.stop + 1)).map (fun tail =>
      lit "<" ++ (if tag.closing then lit "/" else []) ++ canonicalName ++
        stripDSMLTrailingPipe tail ++
        (if (text.drop tag.stop).head? ≠ some '>'.toUInt8 then lit ">" else []))
  else slice text tag.start (tag.stop + 1)

/-- The loop body of `rewriteDSMLToolMarkupOutsideIgnored`, on the offset and the output. -/
def rewriteDSMLTurn (text lower : Bytes) (s : Nat × Bytes) : Option (Turn (Nat × Bytes) Bytes) :=
  if s.1 ≥ text.length then some (.done s.2)
  else do
    match ← skipXMLIgnoredSection lower s.1 with
    | .blocked => return .done (s.2 ++ text.drop s.1)
    | .advanced next => return .next (next, s.2 ++ (← slice text s.1 next))
    | .stay =>
      match ← scanToolMarkupTagAt text s.1 with
      | none => return .next (s.1 + 1, s.2 ++ (text.drop s.1).take 1)
      | some tag => return .next (tag.stop + 1, s.2 ++ (← rewriteTag text tag))

def rewriteDSMLToolMarkupOutsideIgnored (text : Bytes) : Option Bytes :=
  loop (fun s => text.length - s.1) (rewriteDSMLTurn text (toLower text)) (0, [])

/-! The regular expressions. -/

def dsmlNamespaceSepClass : Re :=
  .rune (fun r => isReSpace r || (runes "|｜_-\u2060\ufeff\u2581.:;").contains r ||
    (0x200B ≤ r && r ≤ 0x200D))

def dsmlSignalRequired : Re := .alt (.oneOf "|｜") (.textFold "dsml")

def dsmlNameAlternation : Re :=
  .group 1 (.alts [.seqs [.textFold "tool", .oneOf "_-", .textFold "call", .opt (.textFold "s")],
    .textFold "invoke", .textFold "parameter", .text "工具调用", .text "调用", .text "参数"])

def dsmlTagTrailingCapture : Re :=
  .seq
    (.opt (.seq (.rune (fun r => isReSpace r || (runes "|｜/").contains r))
      (.group 2 (.star true (.noneOf ">")))))
    (.text ">")

def dsmlOpenRegex : Re :=
  .seqs [.text "<", .star true dsmlNamespaceSepClass, dsmlSignalRequired,
    .star true dsmlNamespaceSepClass, dsmlNameAlternation, dsmlTagTrailingCapture]

def dsmlCloseRegex : Re :=
  .seqs [.text "<", .star true dsmlNamespaceSepClass, .text "/", .star true dsmlNamespaceSepClass,
    dsmlSignalRequired, .star true dsmlNamespaceSepClass, dsmlNameAlternation,
    dsmlTagTrailingCapture]

structure DsmlRegexMatch where
  start : Nat
  /-- the offset after the match -/
  stop : Nat
  closing : Bool
  canonical : Bytes
  attrs : Bytes := []
  deriving DecidableEq, Repr

def containsDSMLSignal (text : Bytes) : Bool :=
  containsAny text (runes "|｜") || contains (toLower text) (lit "dsml")

def sanitizeDSMLAttrCapture (raw : Bytes) : Bytes :=
  let raw := trimLeft (trimRight raw (runes " \t\r\n|｜/")) (runes " \t\r\n|｜")
  if raw = [] then [] else lit " " ++ raw

def matchOverlapsRanges (start stop : Nat) (ranges : List Match) : Bool :=
  ranges.any (fun r => start < r.stop && stop > r.start)

def canonicalOf (segment : Bytes) (m : Match) : Bytes :=
  canonicalToolMarkupName (toLower (m.text segment 1))

/-- The matches of a segment that starts at `base`: the closing tags, then the opening ones. -/
def dsmlRegexMatchesFromSegment (segment : Bytes) (base : Nat) : List DsmlRegexMatch :=
  let closes := dsmlCloseRegex.findAll segment
  let opens := (dsmlOpenRegex.findAll segment).filter
    (fun m => !matchOverlapsRanges m.start m.stop closes)
  closes.map (fun m =>
    { start := base + m.start, stop := base + m.stop, closing := true
      canonical := canonicalOf segment m }) ++
  opens.map (fun m =>
    { start := base + m.start, stop := base + m.stop, closing := false
      canonical := canonicalOf segment m, attrs := sanitizeDSMLAttrCapture (m.text segment 2) })

/-- The offset, the start of the segment it is in, and the matches so far. -/
structure Collect where
  i : Nat := 0
  segmentStart : Nat := 0
  out : List DsmlRegexMatch := []

def Collect.flushSegment (c : Collect) (text : Bytes) (stop : Nat) : List DsmlRegexMatch :=
  if c.segmentStart ≥ stop then c.out
  else
    c.out ++ dsmlRegexMatchesFromSegment ((text.drop c.segmentStart).take (stop - c.segmentStart))
      c.segmentStart

/-- The loop body of `collectDSMLRegexMatchesOutsideIgnored`; only the end of the text leads to
    the sort. -/
def collectTurn (text lower : Bytes) (c : Collect) : Option (Turn Collect (List DsmlRegexMatch)) :=
  if c.i ≥ text.length then
    some (.done
      ((c.flushSegment text text.length).insertionSort (fun a b => a.start ≤ b.start)))
  else do
    match ← skipXMLIgnoredSection lower c.i with
    | .blocked => return .done (c.flushSegment text c.i)
    | .advanced next =>
      return .next { i := next, segmentStart := next, out := c.flushSegment text c.i }
    | .stay => return .next { c with i := c.i + 1 }

def collectDSMLRegexMatchesOutsideIgnored (text : Bytes) : Option (List DsmlRegexMatch) :=
  loop (fun c => text.length - c.i) (collectTurn text (toLower text)) {}

/-- The indices of the matches in open and close pairs; `openers` holds, by name, the openers
    that wait for their close. -/
def pairFrom (openers : Bytes → List Nat) : Nat → List DsmlRegexMatch → List Nat
  | _, [] => []
  | idx, m :: ms =>
    if m.canonical = [] then pairFrom openers (idx + 1) ms
    else if ¬ m.closing then
      pairFrom (Function.update openers m.canonical (idx :: openers m.canonical)) (idx + 1) ms
    else
      match openers m.canonical with
      | [] => pairFrom openers (idx + 1) ms
      | openerIdx :: stack =>
        openerIdx :: idx :: pairFrom (Function.update openers m.canonical stack) (idx + 1) ms

def pairDSMLRegexMatches (ms : List DsmlRegexMatch) : List Nat := pairFrom (fun _ => []) 0 ms

/-- The text from `cursor` on, with the approved matches rewritten. -/
def spliceFrom (text : Bytes) (approved : List Nat) : Nat → Nat → List DsmlRegexMatch → Bytes
  | cursor, _, [] => text.drop cursor
  | cursor, idx, m :: ms =>
    if ¬ approved.contains idx then spliceFrom text approved cursor (idx + 1) ms
    else
      (text.drop cursor).take (m.start - cursor) ++
        (if m.closing then lit "</" ++ m.canonical else lit "<" ++ m.canonical ++ m.attrs) ++
        lit ">" ++ spliceFrom text approved m.stop (idx + 1) ms

def rewriteDSMLToolMarkupOutsideIgnoredRegex (text : Bytes) : Option Bytes :=
  if ¬ containsDSMLSignal text then some text
  else do
    let found ← collectDSMLRegexMatchesOutsideIgnored text
    let approved := pairDSMLRegexMatches found
    if approved = [] then return text
    return spliceFrom text approved 0 0 found

def normalizeDSMLToolCallMarkup (text : Bytes) : Option Bytes :=
  if text = [] then some []
  else do
    let seen ← containsToolMarkupSyntaxOutsideIgnored text
    let text ← if seen.hasDSML then rewriteDSMLToolMarkupOutsideIgnored text else some text
    rewriteDSMLToolMarkupOutsideIgnoredRegex text

/-! The loops end by themselves. -/

theorem rewriteDSMLTurn_decreases (text lower : Bytes) :
    Decreases (fun s => text.length - s.1) (rewriteDSMLTurn text lower) := by
  refine Decreases.of_moves (fun s t h => ?_)
  unfold rewriteDSMLTurn at h
  refine skipTurn_next (f := Prod.fst) h nofun (fun next h => ?_) fun h => ?_
  · obtain ⟨piece, -, h⟩ := Option.bind_eq_some_iff.mp h
    cases h
    rfl
  · obtain ⟨tag, htag, h⟩ := Option.bind_eq_some_iff.mp h
    cases tag with
    | none =>
      cases h
      exact Nat.lt_succ_self s.1
    | some tag =>
      obtain ⟨piece, -, h⟩ := Option.bind_eq_some_iff.mp h
      cases h
      exact scanToolMarkupTagAt_lt htag

theorem collectTurn_decreases (text lower : Bytes) :
    Decreases (fun c => text.length - c.i) (collectTurn text lower) := by
  refine Decreases.of_moves (fun c t h => ?_)
  unfold collectTurn at h
  refine skipTurn_next (f := Collect.i) h nofun (fun next h => by cases h; rfl) fun h => ?_
  cases h
  exact Nat.lt_succ_self c.i

end DeepSeekWebToApi.Toolcall
