import DeepSeekWebToApi.Toolcall.Parse
import DeepSeekWebToApi.Toolstream.Fence

/- The tool sieve (`tool_sieve_core.go`, `tool_sieve_xml.go`, `tool_sieve_xml_scan.go`,
   `tool_sieve_jsonscan.go`). Streamed text goes to the events as it is until a tool tag
   starts; from there on it is captured until it parses as a block of calls or turns out
   to be none. Calls that were parsed wait in the state until the next chunk or the
   end of the stream.

   The place they wait in holds one block. `calls_conserved_iff`: a stream emits
   the calls it parsed, in order, exactly when no block of calls completes while
   the calls of another one still wait. -/
namespace DeepSeekWebToApi.Toolstream
open GoStrings GoLoop Toolcall

structure State where
  pending : Bytes := []
  capture : Bytes := []
  capturing : Bool := false
  fence : Fence := {}
  pendingToolCalls : List ParsedToolCall := []

inductive Event where
  | content (text : Bytes)
  | toolCalls (calls : List ParsedToolCall)

/-! Where a tool segment starts. -/

/-- The offset of the first of the brackets that end at `idx`. -/
def includeDuplicateLeadingLessThan (s : Bytes) : Nat → Nat
  | 0 => 0
  | i + 1 =>
    if (s.drop i).head? = some '<'.toUInt8 then includeDuplicateLeadingLessThan s i else i + 1

def isBareSingularToolCallTag (text : Bytes) (tag : ToolMarkupTag) : Bool :=
  if tag.dsmlLike then false
  else if tag.name = lit "tool_call" then true
  else if tag.name ≠ lit "tool_calls" then false
  else if tag.nameEnd > text.length ∨ tag.nameStart ≥ tag.nameEnd then false
  else equalFold ((text.drop tag.nameStart).take (tag.nameEnd - tag.nameStart)) (lit "tool_call")

/-- The loop body of `findToolSegmentStart`. -/
def segmentStartTurn (fence : Fence) (s : Bytes) (offset : Nat) :
    Option (Turn Nat (Option Nat)) := do
  match ← findToolMarkupTagOutsideIgnored s offset with
  | none => return .done none
  | some tag =>
    if isBareSingularToolCallTag s tag then return .next (tag.stop + 1)
    let start := includeDuplicateLeadingLessThan s tag.start
    if ¬ insideCodeFenceWithState fence (s.take start) then return .done (some start)
    return .next (tag.stop + 1)

def findToolSegmentStart (fence : Fence) (s : Bytes) : Option (Option Nat) :=
  loop (s.length - ·) (segmentStartTurn fence s) 0

def findPartialXMLToolTagStart (s : Bytes) : Option (Option Nat) :=
  match lastIndex s (lit "<") with
  | none => some none
  | some lastLT =>
    let start := includeDuplicateLeadingLessThan s lastLT
    let tail := s.drop start
    if contains tail (lit ">") then some none
    else
      (isPartialToolMarkupTagPrefix tail).map
        (fun isPartial => if isPartial then some start else none)

/-- The text that can go out, and the text to hold back. -/
def splitSafeContentForToolDetection (fence : Fence) (s : Bytes) : Option (Bytes × Bytes) := do
  match ← findPartialXMLToolTagStart s with
  | none => return (s, [])
  | some xmlIdx =>
    if insideCodeFenceWithState fence (s.take xmlIdx) then return (s, [])
    return (s.take xmlIdx, s.drop xmlIdx)

/-! What a captured text holds. -/

/-- The loop body of `findFirstToolMarkupTagByNameFrom`. -/
def firstTagTurn (s name : Bytes) (closing : Bool) (pos : Nat) :
    Option (Turn Nat (Option ToolMarkupTag)) :=
  if pos ≥ s.length then some (.done none)
  else do
    match ← findToolMarkupTagOutsideIgnored s pos with
    | none => return .done none
    | some tag =>
      if tag.name = name ∧ tag.closing = closing then return .done (some tag)
      return .next (tag.stop + 1)

def findFirstToolMarkupTagByNameFrom (s : Bytes) (start : Nat) (name : Bytes) (closing : Bool) :
    Option (Option ToolMarkupTag) :=
  loop (s.length - ·) (firstTagTurn s name closing) start

def findFirstToolMarkupTagByName (s : Bytes) (start : Nat) (name : Bytes) :
    Option (Option ToolMarkupTag) :=
  findFirstToolMarkupTagByNameFrom s start name false

/-- A fence around a block is dropped with it: the texts before and after, without the fence. -/
def trimWrappingJSONFence (before after : Bytes) : Bytes × Bytes :=
  let trimmedBefore := trimRight before blanks
  match lastIndex trimmedBefore (lit "\x60\x60\x60") with
  | none => (before, after)
  | some fenceIdx =>
    if count (trimmedBefore.take (fenceIdx + 3)) (lit "\x60\x60\x60") % 2 = 0 then (before, after)
    else
      let fenceHeader := trimSpace (trimmedBefore.drop (fenceIdx + 3))
      if fenceHeader ≠ [] ∧ ¬ equalFold fenceHeader (lit "json") then (before, after)
      else
        let trimmedAfter := trimLeft after blanks
        if ¬ hasPrefix trimmedAfter (lit "\x60\x60\x60") then (before, after)
        else
          (trimmedBefore.take fenceIdx, after.drop (after.length - trimmedAfter.length + 3))

/-- A captured text taken apart. -/
structure Consumed where
  before : Bytes
  calls : List ParsedToolCall := []
  after : Bytes

/-- A block with the texts around it: its calls, or the block dropped where it looks like tool
    syntax, or the block as text. -/
def consumeBlock (std : GoStd) (before shown xmlBlock after : Bytes) : Option Consumed := do
  let parsed ← parseStandaloneToolCallsDetailed std xmlBlock
  if ¬ parsed.calls.isEmpty then
    let around := trimWrappingJSONFence before after
    return { before := around.1, calls := parsed.calls, after := around.2 }
  if parsed.sawToolCallSyntax then return { before, after }
  return { before := before ++ shown, after }

/-- The locals of `consumeXMLToolCapture`'s loop. The first rejected block is kept. -/
structure CaptureScan where
  searchFrom : Nat := 0
  anyOpenFound : Bool := false
  rejected : Option (Nat × Consumed) := none

/-- The loop body of `consumeXMLToolCapture`; it ends with a block of calls or the locals. -/
def captureScanTurn (std : GoStd) (captured : Bytes) (s : CaptureScan) :
    Option (Turn CaptureScan (Consumed ⊕ CaptureScan)) :=
  if s.searchFrom ≥ captured.length then some (.done (.inr s))
  else do
    match ← findToolMarkupTagOutsideIgnored captured s.searchFrom with
    | none => return .done (.inr s)
    | some tag =>
      if tag.closing ∨ tag.name ≠ lit "tool_calls" then
        return .next { s with searchFrom := tag.stop + 1 }
      match ← findMatchingToolMarkupClose captured tag with
      | none => return .next { s with anyOpenFound := true, searchFrom := tag.stop + 1 }
      | some closeTag =>
        let xmlBlock ← slice captured tag.start (closeTag.stop + 1)
        let block ← consumeBlock std (captured.take tag.start) xmlBlock xmlBlock
          (captured.drop (closeTag.stop + 1))
        if ¬ block.calls.isEmpty then return .done (.inl block)
        return .next
          { s with
            searchFrom := tag.stop + 1
            rejected :=
              if s.rejected.all (fun r => tag.start < r.1) then some (tag.start, block)
              else s.rejected }

/-- The last branch of `consumeXMLToolCapture`: an `invoke` without the opening wrapper. -/
def consumeBareInvoke (std : GoStd) (captured : Bytes) : Option (Option Consumed) := do
  match ← findFirstToolMarkupTagByName captured 0 (lit "invoke") with
  | none => return none
  | some invokeTag =>
    let wrapperOpen ← findFirstToolMarkupTagByName captured 0 (lit "tool_calls")
    if wrapperOpen.any (fun w => w.start ≤ invokeTag.start) then return none
    match ← findFirstToolMarkupTagByNameFrom captured (invokeTag.start + 1) (lit "tool_calls") true with
    | none => return none
    | some closeTag =>
      if closeTag.start ≤ invokeTag.start then return none
      let shown ← slice captured invokeTag.start (closeTag.stop + 1)
      let block ← consumeBlock std (captured.take invokeTag.start) shown (lit "<tool_calls>" ++ shown)
        (captured.drop (closeTag.stop + 1))
      return some block

/-- `consumeXMLToolCapture`; the inner `none` is a text that is not ready. -/
def consumeXMLToolCapture (std : GoStd) (captured : Bytes) : Option (Option Consumed) := do
  match ← loop (fun s => captured.length - s.searchFrom) (captureScanTurn std captured) {} with
  | .inl best => return some best
  | .inr s =>
    if s.anyOpenFound then return none
    match s.rejected with
    | some (_, block) => return some block
    | none => consumeBareInvoke std captured

/-- The loop body of `hasOpenXMLToolTag`. -/
def openTagTurn (captured : Bytes) (searchFrom : Nat) : Option (Turn Nat Bool) :=
  if searchFrom ≥ captured.length then some (.done false)
  else do
    match ← findToolMarkupTagOutsideIgnored captured searchFrom with
    | none => return .done false
    | some tag =>
      if tag.closing ∨ tag.name ≠ lit "tool_calls" then return .next (tag.stop + 1)
      match ← findMatchingToolMarkupClose captured tag with
      | none => return .done true
      | some _ => return .next (tag.stop + 1)

def hasOpenXMLToolTag (captured : Bytes) : Option Bool :=
  loop (captured.length - ·) (openTagTurn captured) 0

def shouldKeepBareInvokeCapture (captured : Bytes) : Option Bool := do
  match ← findFirstToolMarkupTagByName captured 0 (lit "invoke") with
  | none => return false
  | some invokeTag =>
    let wrapperOpen ← findFirstToolMarkupTagByName captured 0 (lit "tool_calls")
    if wrapperOpen.any (fun w => w.start ≤ invokeTag.start) then return false
    let closeTag ←
      findFirstToolMarkupTagByNameFrom captured (invokeTag.start + 1) (lit "tool_calls") true
    if closeTag.any (fun c => c.start > invokeTag.start) then return true
    let trimmedBody := trimLeft (captured.drop (invokeTag.stop + 1)) blanks
    if trimmedBody = [] then return true
    match ← findFirstToolMarkupTagByNameFrom captured (invokeTag.stop + 1) (lit "invoke") true with
    | some invokeCloseTag => return trimSpace (captured.drop (invokeCloseTag.stop + 1)) = []
    | none =>
      let trimmedLower := toLower trimmedBody
      return hasPrefix trimmedLower (lit "<parameter") || hasPrefix trimmedLower (lit "\x7b") ||
        hasPrefix trimmedLower (lit "[")

def consumeToolCapture (std : GoStd) (captured : Bytes) : Option (Option Consumed) := do
  if captured = [] then return none
  match ← consumeXMLToolCapture std captured with
  | some consumed => return some consumed
  | none =>
    if ← hasOpenXMLToolTag captured then return none
    if ← shouldKeepBareInvokeCapture captured then return none
    return some { before := captured, after := [] }

/-! The sieve. -/

/-- The state of a stream with the events so far. `parsed` is no part of the source: the calls
    that the captures returned so far. -/
structure Work where
  state : State := {}
  events : List Event := []
  parsed : List ParsedToolCall := []

/-- Text goes out, and is noted for the code fences. -/
def Work.say (w : Work) (text : Bytes) : Work :=
  if text = [] then w
  else
    { w with
      state := { w.state with fence := w.state.fence.noteText text }
      events := w.events ++ [.content text] }

/-- The calls that wait go out. -/
def Work.release (w : Work) : Work :=
  if w.state.pendingToolCalls.isEmpty then w
  else
    { w with
      state := { w.state with pendingToolCalls := [] }
      events := w.events ++ [.toolCalls w.state.pendingToolCalls] }

/-- A capture has been taken apart: its calls wait, the text after it is pending. -/
def Work.park (w : Work) (c : Consumed) : Work :=
  let w := Work.say { w with state := { w.state with pending := [], capture := [], capturing := false } }
    c.before
  { w with
    state :=
      { w.state with
        pending := c.after
        pendingToolCalls := if c.calls.isEmpty then w.state.pendingToolCalls else c.calls }
    parsed := w.parsed ++ c.calls }

/-- The text a capture is tried on. -/
def State.captured (s : State) : Bytes := s.capture ++ s.pending

/-- The body of the loop of `ProcessChunk`. -/
def chunkTurn (std : GoStd) (w : Work) : Option (Turn Work Work) :=
  if w.state.capturing then do
    match ← consumeToolCapture std w.state.captured with
    | none =>
      return .done { w with state := { w.state with capture := w.state.captured, pending := [] } }
    | some c => return .next (w.park c)
  else if w.state.pending = [] then some (.done w)
  else do
    let pending := w.state.pending
    match ← findToolSegmentStart w.state.fence pending with
    | some start =>
      let w := w.say (pending.take start)
      return .next
        { w with
          state :=
            { w.state with
              pending := [], capture := w.state.capture ++ pending.drop start, capturing := true } }
    | none =>
      let (safe, hold) ← splitSafeContentForToolDetection w.state.fence pending
      if safe = [] then return .done w
      return .next (Work.say { w with state := { w.state with pending := hold } } safe)

/-- Twice the text that is left, and one more outside a capture. -/
def Work.left (w : Work) : Nat :=
  2 * (w.state.pending.length + w.state.capture.length) + if w.state.capturing then 0 else 1

/-- The start of `ProcessChunk`. -/
def Work.receive (w : Work) (chunk : Bytes) : Work :=
  Work.release { w with state := { w.state with pending := w.state.pending ++ chunk } }

def processChunk (std : GoStd) (w : Work) (chunk : Bytes) : Option Work :=
  loop Work.left (chunkTurn std) (w.receive chunk)

/-- A capture at the end of the stream: text, calls, text. -/
def Work.conclude (w : Work) (c : Consumed) : Work :=
  let w := w.say c.before
  let w := if c.calls.isEmpty then w
    else { w with events := w.events ++ [.toolCalls c.calls], parsed := w.parsed ++ c.calls }
  w.say c.after

/-- The capture that is open when the stream ends. -/
def flushCapture (std : GoStd) (w : Work) : Option Work := do
  let content := w.state.capture
  match ← consumeToolCapture std content with
  | some c => return w.conclude c
  | none =>
    if content = [] then return w
    let recovered ← sanitizeLooseCDATA content
    if recovered = content then return w.say content
    match ← consumeXMLToolCapture std recovered with
    | some c => if ¬ c.calls.isEmpty then return w.conclude c else return w.say content
    | none => return w.say content

def closeCapture (std : GoStd) (w : Work) : Option Work :=
  if w.state.capturing then flushCapture std w else some w

/-- The capture is closed, and text that is still pending goes out. -/
def Work.finish (w : Work) : Work :=
  let w := Work.say { w with state := { w.state with capture := [], capturing := false } }
    w.state.pending
  { w with state := { w.state with pending := [] } }

def flush (std : GoStd) (w : Work) : Option Work := do
  let w ← processChunk std w []
  let w ← closeCapture std w.release
  return w.finish

/-! The searches end by themselves. -/

/-- Going on behind a tag that was found is going on further right. -/
theorem findToolMarkupTagOutsideIgnored_next {s : Bytes} {pos : Nat} {tag : ToolMarkupTag}
    (h : findToolMarkupTagOutsideIgnored s pos = some (some tag)) :
    pos < s.length ∧ pos < tag.stop + 1 := by
  have := findToolMarkupTagOutsideIgnored_spec h
  omega

theorem segmentStartTurn_decreases (fence : Fence) (s : Bytes) :
    Decreases (s.length - ·) (segmentStartTurn fence s) := by
  refine Decreases.of_moves (f := fun i => i) (fun i j h => ?_)
  obtain ⟨tag, htag, h⟩ := Option.bind_eq_some_iff.mp h
  cases tag with
  | none => cases h
  | some tag =>
    have hmove := findToolMarkupTagOutsideIgnored_next htag
    simp only at h
    split at h
    · cases h
      exact hmove
    · split at h
      · cases h
      · cases h
        exact hmove

theorem firstTagTurn_decreases (s name : Bytes) (closing : Bool) :
    Decreases (s.length - ·) (firstTagTurn s name closing) := by
  refine Decreases.of_moves (f := fun i => i) (fun i j h => ?_)
  unfold firstTagTurn at h
  split at h
  · cases h
  · obtain ⟨tag, htag, h⟩ := Option.bind_eq_some_iff.mp h
    cases tag with
    | none => cases h
    | some tag =>
      simp only at h
      split at h
      · cases h
      · cases h
        exact findToolMarkupTagOutsideIgnored_next htag

theorem openTagTurn_decreases (captured : Bytes) :
    Decreases (captured.length - ·) (openTagTurn captured) := by
  refine Decreases.of_moves (f := fun i => i) (fun i j h => ?_)
  unfold openTagTurn at h
  split at h
  · cases h
  · obtain ⟨tag, htag, h⟩ := Option.bind_eq_some_iff.mp h
    cases tag with
    | none => cases h
    | some tag =>
      have hmove := findToolMarkupTagOutsideIgnored_next htag
      simp only at h
      split at h
      · cases h
        exact hmove
      · obtain ⟨close, -, h⟩ := Option.bind_eq_some_iff.mp h
        cases close with
        | none => cases h
        | some close =>
          cases h
          exact hmove

/-! What a capture is taken apart into. -/

/-- The text `shown` of a capture, from `i` to `j`, is a span of calls: a wrapper up to its closing
    tag, or an `invoke` without the opening wrapper. It is parsed as `xml`. -/
inductive Span (captured : Bytes) : Nat → Nat → Bytes → Bytes → Prop
  | wrapper {pos : Nat} {tag closeTag : ToolMarkupTag} {shown : Bytes}
      (hfind : findToolMarkupTagOutsideIgnored captured pos = some (some tag))
      (hopen : tag.closing = false) (hname : tag.name = lit "tool_calls")
      (hclose : findMatchingToolMarkupClose captured tag = some (some closeTag))
      (hslice : slice captured tag.start (closeTag.stop + 1) = some shown) :
      Span captured tag.start (closeTag.stop + 1) shown shown
  | bareInvoke {invokeTag closeTag : ToolMarkupTag} {shown : Bytes}
      (hfind : findFirstToolMarkupTagByName captured 0 (lit "invoke") = some (some invokeTag))
      (hclose : findFirstToolMarkupTagByNameFrom captured (invokeTag.start + 1) (lit "tool_calls") true =
        some (some closeTag))
      (hslice : slice captured invokeTag.start (closeTag.stop + 1) = some shown) :
      Span captured invokeTag.start (closeTag.stop + 1) shown (lit "<tool_calls>" ++ shown)

/-- What a capture is taken apart into: text only; the texts around a span that looks like calls
    and has none; or the calls of a span and the texts around it, without a fence. -/
inductive Takes (std : GoStd) (captured : Bytes) : Consumed → Prop
  | text {before after : Bytes} (h : before ++ after = captured)
      (hlt : after.length < captured.length) : Takes std captured { before, after }
  | rejected {i j : Nat} {shown xml : Bytes} {parsed : ToolCallParseResult}
      (hspan : Span captured i j shown xml)
      (hparse : parseStandaloneToolCallsDetailed std xml = some parsed) (hcalls : parsed.calls = [])
      (hsaw : parsed.sawToolCallSyntax = true) :
      Takes std captured { before := captured.take i, after := captured.drop j }
  | calls {i j : Nat} {shown xml : Bytes} {parsed : ToolCallParseResult}
      (hspan : Span captured i j shown xml)
      (hparse : parseStandaloneToolCallsDetailed std xml = some parsed) (hcalls : parsed.calls ≠ []) :
      Takes std captured
        { before := (trimWrappingJSONFence (captured.take i) (captured.drop j)).1
          calls := parsed.calls
          after := (trimWrappingJSONFence (captured.take i) (captured.drop j)).2 }

section Takes
variable {std : GoStd} {captured : Bytes} {c : Consumed} {i j : Nat} {shown xml : Bytes}

theorem Span.slice_eq (h : Span captured i j shown xml) : slice captured i j = some shown := by
  cases h with
  | wrapper _ _ _ _ hslice => exact hslice
  | bareInvoke _ _ hslice => exact hslice

theorem Span.bounds (h : Span captured i j shown xml) : i ≤ j ∧ 0 < j ∧ j ≤ captured.length := by
  have hslice := h.slice_eq
  have hpos : 0 < j := by cases h <;> exact Nat.succ_pos _
  unfold slice at hslice
  split at hslice
  · next hle => exact ⟨hle.1, hpos, hle.2⟩
  · cases hslice

/-- A capture is its span with the texts around it. -/
theorem Span.append_eq (h : Span captured i j shown xml) :
    captured.take i ++ shown ++ captured.drop j = captured := by
  obtain ⟨hle, -, hlen⟩ := h.bounds
  have hslice := h.slice_eq
  rw [slice, if_pos ⟨hle, hlen⟩] at hslice
  cases hslice
  have hdrop : captured.drop j = (captured.drop i).drop (j - i) := by
    rw [List.drop_drop]
    congr 1
    omega
  rw [hdrop, List.append_assoc, List.take_append_drop, List.take_append_drop]

theorem consumeBlock_takes (hspan : Span captured i j shown xml)
    (h : consumeBlock std (captured.take i) shown xml (captured.drop j) = some c) : Takes std captured c := by
  obtain ⟨parsed, hparse, h⟩ := Option.bind_eq_some_iff.mp h
  split at h
  · next hcalls =>
    cases h
    exact .calls hspan hparse (by simpa using hcalls)
  · next hcalls =>
    have hnone : parsed.calls = [] := by simpa using hcalls
    split at h
    · next hsaw =>
      cases h
      exact .rejected hspan hparse hnone hsaw
    · cases h
      refine .text hspan.append_eq ?_
      obtain ⟨-, hpos, hlen⟩ := hspan.bounds
      rw [List.length_drop]
      omega

/-- What one turn of the search for a block does. -/
theorem captureScanTurn_cases {s : CaptureScan} {turn : Turn CaptureScan (Consumed ⊕ CaptureScan)}
    (h : captureScanTurn std captured s = some turn) :
    turn = .done (.inr s) ∨
      (∃ c : Consumed, turn = .done (.inl c) ∧ Takes std captured c) ∨
      ∃ t : CaptureScan, turn = .next t ∧ s.searchFrom < captured.length ∧
        s.searchFrom < t.searchFrom ∧
        (t.rejected = s.rejected ∨
          ∃ start, ∃ c : Consumed, t.rejected = some (start, c) ∧ Takes std captured c) := by
  unfold captureScanTurn at h
  split at h
  · cases h
    exact Or.inl rfl
  · obtain ⟨tag, htag, h⟩ := Option.bind_eq_some_iff.mp h
    cases tag with
    | none =>
      cases h
      exact Or.inl rfl
    | some tag =>
      have hmove := findToolMarkupTagOutsideIgnored_next htag
      simp only at h
      split at h
      · cases h
        exact Or.inr (Or.inr ⟨_, rfl, hmove.1, hmove.2, Or.inl rfl⟩)
      · next hopen =>
        rw [not_or, not_not] at hopen
        obtain ⟨close, hclose, h⟩ := Option.bind_eq_some_iff.mp h
        cases close with
        | none =>
          cases h
          exact Or.inr (Or.inr ⟨_, rfl, hmove.1, hmove.2, Or.inl rfl⟩)
        | some close =>
          obtain ⟨xmlBlock, hslice, h⟩ := Option.bind_eq_some_iff.mp h
          obtain ⟨block, hblock, h⟩ := Option.bind_eq_some_iff.mp h
          have htakes := consumeBlock_takes
            (.wrapper htag (Bool.eq_false_iff.mpr hopen.1) hopen.2 hclose hslice) hblock
          split at h
          · cases h
            exact Or.inr (Or.inl ⟨block, rfl, htakes⟩)
          · cases h
            refine Or.inr (Or.inr ⟨_, rfl, hmove.1, hmove.2, ?_⟩)
            simp only
            split
            · exact Or.inr ⟨tag.start, block, rfl, htakes⟩
            · exact Or.inl rfl

theorem captureScanTurn_decreases (std : GoStd) (captured : Bytes) :
    Decreases (fun s => captured.length - s.searchFrom) (captureScanTurn std captured) := by
  refine Decreases.of_moves (fun s t h => ?_)
  rcases captureScanTurn_cases h with h | ⟨c, h, -⟩ | ⟨t', h, hlt, hmove, -⟩
  · cases h
  · cases h
  · cases h
    exact ⟨hlt, hmove⟩

theorem consumeBareInvoke_takes (h : consumeBareInvoke std captured = some (some c)) :
    Takes std captured c := by
  obtain ⟨invokeTag, hinvoke, h⟩ := Option.bind_eq_some_iff.mp h
  cases invokeTag with
  | none => cases h
  | some invokeTag =>
    obtain ⟨wrapperOpen, -, h⟩ := Option.bind_eq_some_iff.mp h
    split at h
    · cases h
    · obtain ⟨closeTag, hclose, h⟩ := Option.bind_eq_some_iff.mp h
      cases closeTag with
      | none => cases h
      | some closeTag =>
        simp only at h
        split at h
        · cases h
        · obtain ⟨shown, hslice, h⟩ := Option.bind_eq_some_iff.mp h
          obtain ⟨block, hblock, h⟩ := Option.bind_eq_some_iff.mp h
          cases h
          exact consumeBlock_takes (.bareInvoke hinvoke hclose hslice) hblock

/-- What the search has put aside is what the capture may be taken apart into. -/
def CaptureScan.Lawful (std : GoStd) (captured : Bytes) (s : CaptureScan) : Prop :=
  ∀ start, ∀ c : Consumed, s.rejected = some (start, c) → Takes std captured c

theorem consumeXMLToolCapture_takes (h : consumeXMLToolCapture std captured = some (some c)) :
    Takes std captured c := by
  obtain ⟨found, hfound, h⟩ := Option.bind_eq_some_iff.mp h
  have hspec : Sum.elim (Takes std captured) (CaptureScan.Lawful std captured) found := by
    refine loop_inv (I := CaptureScan.Lawful std captured)
      (Q := Sum.elim (Takes std captured) (CaptureScan.Lawful std captured)) ?_ ?_
      (fun _ _ hnone => by cases hnone) hfound
    · intro s t hs ht
      rcases captureScanTurn_cases ht with ht | ⟨c, ht, -⟩ | ⟨t', ht, -, -, hrej⟩
      · cases ht
      · cases ht
      · cases ht
        rcases hrej with hsame | ⟨start, c, hc, htakes⟩
        · intro start c hc
          exact hs start c (hsame ▸ hc)
        · intro start' c' hc'
          rw [hc] at hc'
          cases hc'
          exact htakes
    · intro s r hs hr
      rcases captureScanTurn_cases hr with hr | ⟨c, hr, htakes⟩ | ⟨t, hr, -⟩
      · cases hr
        exact hs
      · cases hr
        exact htakes
      · cases hr
  cases found with
  | inl best =>
    cases h
    exact hspec
  | inr s =>
    simp only at h
    split at h
    · cases h
    · split at h
      · next start block hrej =>
        cases h
        exact hspec start c hrej
      · exact consumeBareInvoke_takes h

theorem consumeToolCapture_takes (h : consumeToolCapture std captured = some (some c)) :
    Takes std captured c := by
  unfold consumeToolCapture at h
  split at h
  · cases h
  · next hne =>
    obtain ⟨xml, hxml, h⟩ := Option.bind_eq_some_iff.mp h
    cases xml with
    | some consumed =>
      cases h
      exact consumeXMLToolCapture_takes hxml
    | none =>
      obtain ⟨openTag, -, h⟩ := Option.bind_eq_some_iff.mp h
      split at h
      · cases h
      · obtain ⟨keep, -, h⟩ := Option.bind_eq_some_iff.mp h
        split at h
        · cases h
        · cases h
          exact .text (List.append_nil _) (List.length_pos_iff.mpr hne)

theorem trimWrappingJSONFence_after (before after : Bytes) :
    (trimWrappingJSONFence before after).2.length ≤ after.length := by
  unfold trimWrappingJSONFence
  simp only
  repeat' split
  all_goals simp only [List.length_drop]; omega

/-- A capture that is taken apart leaves less text than it had. -/
theorem Takes.after_lt (h : Takes std captured c) : c.after.length < captured.length := by
  cases h with
  | text _ hlt => exact hlt
  | rejected hspan _ _ _ =>
    obtain ⟨-, hpos, hlen⟩ := hspan.bounds
    rw [List.length_drop]
    omega
  | @calls i j _ _ _ hspan _ _ =>
    obtain ⟨-, hpos, hlen⟩ := hspan.bounds
    have hle := trimWrappingJSONFence_after (captured.take i) (captured.drop j)
    rw [List.length_drop] at hle
    show (trimWrappingJSONFence (captured.take i) (captured.drop j)).2.length < captured.length
    omega

end Takes

/-! What a turn does to the calls. -/

/-- The calls of a list of events, in order. -/
def emittedCalls (events : List Event) : List ParsedToolCall :=
  events.flatMap (fun e =>
    match e with
    | .content _ => []
    | .toolCalls calls => calls)

theorem emittedCalls_append (es fs : List Event) :
    emittedCalls (es ++ fs) = emittedCalls es ++ emittedCalls fs := List.flatMap_append

/-- The calls that went out or wait. -/
def Work.surfaced (w : Work) : List ParsedToolCall :=
  emittedCalls w.events ++ w.state.pendingToolCalls

/-- Nothing happened to the calls. -/
structure SameCalls (w t : Work) : Prop where
  events : emittedCalls t.events = emittedCalls w.events
  waiting : t.state.pendingToolCalls = w.state.pendingToolCalls
  parsed : t.parsed = w.parsed

variable {w t : Work}

theorem SameCalls.surfaced (h : SameCalls w t) : t.surfaced = w.surfaced := by
  rw [Work.surfaced, Work.surfaced, h.events, h.waiting]

theorem Work.say_events (w : Work) (text : Bytes) :
    emittedCalls (w.say text).events = emittedCalls w.events := by
  unfold Work.say
  split
  · rfl
  · rw [emittedCalls_append]
    exact List.append_nil _

/-- Apart from the fences, saying a text leaves the state as it is. -/
theorem Work.say_state (w : Work) (text : Bytes) :
    ∃ fence, (w.say text).state = { w.state with fence } := by
  unfold Work.say
  split
  · exact ⟨w.state.fence, rfl⟩
  · exact ⟨_, rfl⟩

theorem Work.say_parsed (w : Work) (text : Bytes) : (w.say text).parsed = w.parsed := by
  unfold Work.say
  split <;> rfl

theorem Work.say_same (w : Work) (text : Bytes) : SameCalls w (w.say text) := by
  obtain ⟨fence, hstate⟩ := w.say_state text
  exact ⟨w.say_events text, by rw [hstate], w.say_parsed text⟩

/-- Releasing the calls that wait surfaces the same calls, none waiting. -/
theorem Work.release_spec (w : Work) :
    w.release.surfaced = w.surfaced ∧ w.release.parsed = w.parsed ∧
      w.release.state.pendingToolCalls = [] := by
  unfold Work.release
  split
  · next hnone => exact ⟨rfl, rfl, List.isEmpty_iff.mp hnone⟩
  · refine ⟨?_, rfl, rfl⟩
    simp only [Work.surfaced, emittedCalls_append, List.append_nil]
    exact congrArg (emittedCalls w.events ++ ·) (List.append_nil _)

/-- A capture that was taken apart: its calls are parsed, and wait in the place of the others. -/
theorem Work.park_spec (w : Work) (c : Consumed) :
    emittedCalls (w.park c).events = emittedCalls w.events ∧
      (w.park c).parsed = w.parsed ++ c.calls ∧
      (w.park c).state.pendingToolCalls =
        if c.calls.isEmpty then w.state.pendingToolCalls else c.calls := by
  have hsame := Work.say_same
    { w with state := { w.state with pending := [], capture := [], capturing := false } } c.before
  refine ⟨hsame.events, congrArg (· ++ c.calls) hsame.parsed, ?_⟩
  simp only [Work.park, hsame.waiting]

theorem Work.park_left (w : Work) (c : Consumed) : (w.park c).left = 2 * c.after.length + 1 := by
  obtain ⟨fence, hstate⟩ := Work.say_state
    { w with state := { w.state with pending := [], capture := [], capturing := false } } c.before
  simp only [Work.left, Work.park, hstate, List.length_nil, Nat.add_zero]
  rfl

theorem splitSafeContentForToolDetection_append {fence : Fence} {s safe hold : Bytes}
    (h : splitSafeContentForToolDetection fence s = some (safe, hold)) : safe ++ hold = s := by
  obtain ⟨idx, -, h⟩ := Option.bind_eq_some_iff.mp h
  cases idx with
  | none =>
    cases h
    exact List.append_nil s
  | some idx =>
    simp only at h
    split at h
    · cases h
      exact List.append_nil s
    · cases h
      exact List.take_append_drop idx s

variable {std : GoStd} {w : Work}

/-- One turn of the loop: it ends, parks a capture, or moves text. -/
theorem chunkTurn_cases {turn : Turn Work Work} (h : chunkTurn std w = some turn) :
    (∃ t, turn = .done t ∧ SameCalls w t ∧
      ∀ c, consumeToolCapture std w.state.captured = some (some c) → w.state.capturing = false) ∨
    (∃ c, turn = .next (w.park c) ∧ w.state.capturing = true ∧
      consumeToolCapture std w.state.captured = some (some c)) ∨
    ∃ t, turn = .next t ∧ w.state.capturing = false ∧ SameCalls w t ∧ t.left < w.left := by
  unfold chunkTurn at h
  split at h
  · next hcap =>
    obtain ⟨consumed, hconsumed, h⟩ := Option.bind_eq_some_iff.mp h
    cases consumed with
    | none =>
      cases h
      refine Or.inl ⟨_, rfl, ⟨rfl, rfl, rfl⟩, fun c hc => ?_⟩
      rw [hconsumed] at hc
      cases hc
    | some c =>
      cases h
      exact Or.inr (Or.inl ⟨c, rfl, hcap, hconsumed⟩)
  · next hcap =>
    have hidle : w.state.capturing = false := Bool.eq_false_iff.mpr hcap
    split at h
    · cases h
      exact Or.inl ⟨w, rfl, ⟨rfl, rfl, rfl⟩, fun _ _ => hidle⟩
    · obtain ⟨start, -, h⟩ := Option.bind_eq_some_iff.mp h
      cases start with
      | some start =>
        cases h
        -- the text from the tag on moves to the capture
        have hsame := w.say_same (w.state.pending.take start)
        refine Or.inr (Or.inr ⟨_, rfl, hidle, ⟨hsame.events, hsame.waiting, hsame.parsed⟩, ?_⟩)
        obtain ⟨fence, hstate⟩ := w.say_state (w.state.pending.take start)
        simp only [Work.left, hstate, hidle, List.length_append, List.length_drop, List.length_nil,
          if_true, Bool.false_eq_true, if_false]
        omega
      | none =>
        obtain ⟨⟨safe, hold⟩, hsplit, h⟩ := Option.bind_eq_some_iff.mp h
        simp only at h
        split at h
        · cases h
          exact Or.inl ⟨w, rfl, ⟨rfl, rfl, rfl⟩, fun _ _ => hidle⟩
        · next hsafe =>
          cases h
          -- the safe text goes out
          have hsame := Work.say_same { w with state := { w.state with pending := hold } } safe
          refine Or.inr (Or.inr ⟨_, rfl, hidle, ⟨hsame.events, hsame.waiting, hsame.parsed⟩, ?_⟩)
          obtain ⟨fence, hstate⟩ :=
            Work.say_state { w with state := { w.state with pending := hold } } safe
          have hlen := congrArg List.length (splitSafeContentForToolDetection_append hsplit)
          have hpos : 0 < safe.length := List.length_pos_iff.mpr hsafe
          rw [List.length_append] at hlen
          simp only [Work.left, hstate]
          omega

theorem chunkTurn_decreases (std : GoStd) : Decreases Work.left (chunkTurn std) := by
  intro w t h
  rcases chunkTurn_cases h with ⟨t', h, -⟩ | ⟨c, h, hcap, hc⟩ | ⟨t', h, -, -, hlt⟩
  · cases h
  · cases h
    have hlt := (consumeToolCapture_takes hc).after_lt
    rw [State.captured, List.length_append] at hlt
    rw [Work.park_left, Work.left, hcap, if_pos rfl]
    omega
  · cases h
    exact hlt

/-- The loop of `ProcessChunk` stops from every state and on every chunk: it comes to a turn that
    breaks (or panics) within as many turns as there is text left, and to no turn behind it. The
    searches that a turn makes stop, too: each of their turns moves on in the text. -/
theorem processChunk_stops (std : GoStd) (w : Work) (chunk : Bytes) :
    (∃ n t, n ≤ (w.receive chunk).left ∧ After (chunkTurn std) n (w.receive chunk) t ∧
      (∀ m u, After (chunkTurn std) m (w.receive chunk) u → m ≤ n) ∧
      (chunkTurn std t = none ∧ processChunk std w chunk = none ∨
        ∃ r, chunkTurn std t = some (.done r) ∧ processChunk std w chunk = some r)) ∧
    (∀ fence s, Decreases (s.length - ·) (segmentStartTurn fence s)) ∧
    (∀ captured, Decreases (fun s => captured.length - s.searchFrom) (captureScanTurn std captured)) ∧
    (∀ captured, Decreases (captured.length - ·) (openTagTurn captured)) ∧
    ∀ s name closing, Decreases (s.length - ·) (firstTagTurn s name closing) := by
  refine ⟨?_, segmentStartTurn_decreases, captureScanTurn_decreases std, openTagTurn_decreases, firstTagTurn_decreases⟩
  obtain ⟨n, t, hle, hafter, hend⟩ := (chunkTurn_decreases std).ends (w.receive chunk)
  refine ⟨n, t, hle, hafter, fun m u hu => hafter.le ?_ hu, hend⟩
  intro v hv
  rcases hend with ⟨hnone, -⟩ | ⟨r, hdone, -⟩
  · cases hnone.symm.trans hv
  · cases hdone.symm.trans hv

/-! Conservation of calls. -/

/-- No block of calls completes in the coming turn while the calls of another one wait. -/
def Work.Room (std : GoStd) (w : Work) : Prop :=
  ∀ c, w.state.capturing = true → consumeToolCapture std w.state.captured = some (some c) →
    c.calls ≠ [] → w.state.pendingToolCalls = []

/-- Every call that was parsed went out or waits, in order. -/
def Work.Exact (w : Work) : Prop := w.surfaced = w.parsed

/-- A call that was parsed is gone. -/
def Work.Lost (w : Work) : Prop := w.surfaced.length < w.parsed.length

theorem SameCalls.exact (h : SameCalls w t) (hw : w.Exact) : t.Exact := by
  rw [Work.Exact, h.surfaced, h.parsed]
  exact hw

theorem SameCalls.lost (h : SameCalls w t) (hw : w.Lost) : t.Lost := by
  rw [Work.Lost, h.surfaced, h.parsed]
  exact hw

variable {c : Consumed}

/-- A capture without calls leaves the calls alone. -/
theorem Work.park_same (h : c.calls = []) : SameCalls w (w.park c) := by
  obtain ⟨hevents, hparsed, hwaiting⟩ := w.park_spec c
  refine ⟨hevents, ?_, ?_⟩
  · rw [hwaiting, h]
    rfl
  · rw [hparsed, h, List.append_nil]

theorem Work.park_surfaced (h : c.calls ≠ []) : (w.park c).surfaced = emittedCalls w.events ++ c.calls := by
  obtain ⟨hevents, -, hwaiting⟩ := w.park_spec c
  rw [Work.surfaced, hevents, hwaiting, if_neg (by simpa using h)]

theorem Work.park_exact (hw : w.Exact) (hcap : w.state.capturing = true)
    (hc : consumeToolCapture std w.state.captured = some (some c)) :
    (w.Room std → (w.park c).Exact) ∧ (¬ w.Room std → (w.park c).Lost) := by
  by_cases hcalls : c.calls = []
  · refine ⟨fun _ => (Work.park_same hcalls).exact hw, fun hroom => absurd ?_ hroom⟩
    intro c' _ hc' hne
    rw [hc] at hc'
    cases hc'
    exact absurd hcalls hne
  · have hsurfaced := w.park_surfaced hcalls
    have hparsed := (w.park_spec c).2.1
    have hw' : emittedCalls w.events ++ w.state.pendingToolCalls = w.parsed := hw
    constructor
    · intro hroom
      have hnone := hroom c hcap hc hcalls
      rw [Work.Exact, hsurfaced, hparsed, ← hw', hnone, List.append_nil]
    · intro hroom
      -- calls that wait are overwritten
      have hsome : w.state.pendingToolCalls ≠ [] := fun hnone => hroom (fun _ _ _ _ => hnone)
      have hpos := List.length_pos_iff.mpr hsome
      rw [Work.Lost, hsurfaced, hparsed, ← hw']
      simp only [List.length_append]
      omega

theorem Work.park_lost (hw : w.Lost) : (w.park c).Lost := by
  by_cases hcalls : c.calls = []
  · exact (Work.park_same hcalls).lost hw
  · have hlen : (emittedCalls w.events ++ w.state.pendingToolCalls).length < w.parsed.length := hw
    rw [Work.Lost, w.park_surfaced hcalls, (w.park_spec c).2.1]
    simp only [List.length_append] at hlen ⊢
    omega

theorem chunkTurn_lost (hw : w.Lost) (h : chunkTurn std w = some (.next t)) : t.Lost := by
  rcases chunkTurn_cases h with ⟨_, h, -⟩ | ⟨c, h, -⟩ | ⟨_, h, -, hsame, -⟩
  · cases h
  · cases h
    exact Work.park_lost hw
  · cases h
    exact hsame.lost hw

theorem chunkTurn_done (h : chunkTurn std w = some (.done t)) : SameCalls w t ∧ w.Room std := by
  rcases chunkTurn_cases h with ⟨_, h, hsame, hidle⟩ | ⟨_, h, -⟩ | ⟨_, h, -⟩
  · cases h
    refine ⟨hsame, fun c hcap hc => ?_⟩
    rw [hidle c hc] at hcap
    cases hcap
  · cases h
  · cases h

theorem chunkTurn_next (hw : w.Exact) (h : chunkTurn std w = some (.next t)) :
    (w.Room std → t.Exact) ∧ (¬ w.Room std → t.Lost) := by
  rcases chunkTurn_cases h with ⟨_, h, -⟩ | ⟨c, h, hcap, hc⟩ | ⟨_, h, hidle, hsame, -⟩
  · cases h
  · cases h
    exact Work.park_exact hw hcap hc
  · cases h
    refine ⟨fun _ => hsame.exact hw, fun hroom => absurd (fun c hcap => ?_) hroom⟩
    rw [hidle] at hcap
    cases hcap

theorem Work.receive_spec (w : Work) (chunk : Bytes) :
    (w.receive chunk).surfaced = w.surfaced ∧ (w.receive chunk).parsed = w.parsed := by
  have h := Work.release_spec { w with state := { w.state with pending := w.state.pending ++ chunk } }
  exact ⟨h.1, h.2.1⟩

/-- In no turn of the chunk's loop does a block complete while others wait. -/
def Work.RoomDuring (std : GoStd) (w : Work) (chunk : Bytes) : Prop :=
  Along Work.left (chunkTurn std) (Work.Room std) (w.receive chunk)

theorem processChunk_exact {chunk : Bytes} (hw : w.Exact) (h : processChunk std w chunk = some t) :
    w.RoomDuring std chunk ∧ t.Exact ∨ ¬ w.RoomDuring std chunk ∧ t.Lost := by
  have hstart : (w.receive chunk).Exact := by
    obtain ⟨hsurfaced, hparsed⟩ := w.receive_spec chunk
    rw [Work.Exact, hsurfaced, hparsed]
    exact hw
  refine loop_exact (L := Work.Lost) (fun s u hs hroom hu => (chunkTurn_next hs hu).1 hroom)
    (fun s u hs hroom hu => (chunkTurn_next hs hu).2 hroom) (fun s u hs hu => chunkTurn_lost hs hu)
    ?_ ?_ hstart h
  · intro s u hs hu
    exact ⟨(chunkTurn_done hu).2, (chunkTurn_done hu).1.exact hs⟩
  · intro s u hs hu
    exact (chunkTurn_done hu).1.lost hs

theorem processChunk_lost {chunk : Bytes} (hw : w.Lost) (h : processChunk std w chunk = some t) : t.Lost := by
  refine loop_inv (I := Work.Lost) (fun s u hs hu => chunkTurn_lost hs hu)
    (fun s u hs hu => (chunkTurn_done hu).1.lost hs) ?_ h
  obtain ⟨hsurfaced, hparsed⟩ := w.receive_spec chunk
  rw [Work.Lost, hsurfaced, hparsed]
  exact hw

/-! The end of the stream. -/

/-- `t` surfaced and parsed some more calls than `w`, and none waits. -/
def Adds (w t : Work) : Prop :=
  t.state.pendingToolCalls = [] ∧
    ∃ calls, t.surfaced = w.surfaced ++ calls ∧ t.parsed = w.parsed ++ calls

theorem Adds.of_same (h : SameCalls w t) (hw : w.state.pendingToolCalls = []) : Adds w t :=
  ⟨h.waiting.trans hw, [], by rw [h.surfaced, List.append_nil], by rw [h.parsed, List.append_nil]⟩

theorem Work.conclude_adds (hw : w.state.pendingToolCalls = []) (c : Consumed) : Adds w (w.conclude c) := by
  have hbefore := w.say_same c.before
  have hnone := hbefore.waiting.trans hw
  unfold Work.conclude
  simp only
  split
  · have hafter := (w.say c.before).say_same c.after
    refine Adds.of_same ⟨?_, ?_, ?_⟩ hw
    · rw [hafter.events, hbefore.events]
    · rw [hafter.waiting, hbefore.waiting]
    · rw [hafter.parsed, hbefore.parsed]
  · have hafter := Work.say_same { w.say c.before with
      events := (w.say c.before).events ++ [.toolCalls c.calls]
      parsed := (w.say c.before).parsed ++ c.calls } c.after
    refine ⟨hafter.waiting.trans hnone, c.calls, ?_, ?_⟩
    · rw [hafter.surfaced, Work.surfaced, Work.surfaced, emittedCalls_append, hbefore.events]
      simp only [hnone, hw, List.append_nil]
      exact congrArg (emittedCalls w.events ++ ·) (List.append_nil _)
    · rw [hafter.parsed]
      exact congrArg (· ++ c.calls) hbefore.parsed

theorem flushCapture_adds (hw : w.state.pendingToolCalls = []) (h : flushCapture std w = some t) : Adds w t := by
  have hsay := Adds.of_same (w.say_same w.state.capture) hw
  obtain ⟨consumed, -, h⟩ := Option.bind_eq_some_iff.mp h
  cases consumed with
  | some c =>
    cases h
    exact Work.conclude_adds hw c
  | none =>
    simp only at h
    split at h
    · cases h
      exact Adds.of_same ⟨rfl, rfl, rfl⟩ hw
    · obtain ⟨recovered, -, h⟩ := Option.bind_eq_some_iff.mp h
      split at h
      · cases h
        exact hsay
      · obtain ⟨xml, -, h⟩ := Option.bind_eq_some_iff.mp h
        cases xml with
        | none =>
          cases h
          exact hsay
        | some c =>
          simp only at h
          split at h
          · cases h
            exact Work.conclude_adds hw c
          · cases h
            exact hsay

/-- A flush is a chunk without text, and at most the calls of the open capture more. -/
theorem flush_adds (h : flush std w = some t) : ∃ u, processChunk std w [] = some u ∧ Adds u t := by
  obtain ⟨u, hu, h⟩ := Option.bind_eq_some_iff.mp h
  obtain ⟨v, hv, h⟩ := Option.bind_eq_some_iff.mp h
  cases h
  refine ⟨u, hu, ?_⟩
  obtain ⟨hsurfaced, hparsed, hnone⟩ := u.release_spec
  have hadds : Adds u.release v := by
    unfold closeCapture at hv
    split at hv
    · exact flushCapture_adds hnone hv
    · cases hv
      exact Adds.of_same ⟨rfl, rfl, rfl⟩ hnone
  obtain ⟨hwaiting, calls, hcalls, hpcalls⟩ := hadds
  have hsay := Work.say_same
    { v with state := { v.state with capture := [], capturing := false } } v.state.pending
  refine ⟨hsay.waiting.trans hwaiting, calls, ?_, ?_⟩
  · rw [← hsurfaced, ← hcalls]
    exact hsay.surfaced
  · rw [← hparsed, ← hpcalls]
    exact hsay.parsed

theorem Adds.exact (h : Adds w t) (hw : w.Exact) : t.Exact := by
  obtain ⟨-, calls, hsurfaced, hparsed⟩ := h
  rw [Work.Exact, hsurfaced, hparsed, hw]

theorem Adds.lost (h : Adds w t) (hw : w.Lost) : t.Lost := by
  obtain ⟨-, calls, hsurfaced, hparsed⟩ := h
  have hlen : w.surfaced.length < w.parsed.length := hw
  rw [Work.Lost, hsurfaced, hparsed, List.length_append, List.length_append]
  omega

/-! Streams. -/

/-- What a stream does to the sieve. -/
inductive Input where
  | chunk (text : Bytes)
  | flush

def Input.text : Input → Bytes
  | .chunk text => text
  | .flush => []

def step (std : GoStd) (w : Work) : Input → Option Work
  | .chunk text => processChunk std w text
  | .flush => flush std w

/-- Chunks, and the end. -/
def stream (chunks : List Bytes) : List Input := chunks.map .chunk ++ [.flush]

theorem step_exact {input : Input} (hw : w.Exact) (h : step std w input = some t) :
    w.RoomDuring std input.text ∧ t.Exact ∨ ¬ w.RoomDuring std input.text ∧ t.Lost := by
  cases input with
  | chunk text => exact processChunk_exact hw h
  | flush =>
    obtain ⟨u, hu, hadds⟩ := flush_adds h
    exact (processChunk_exact hw hu).imp (fun h => ⟨h.1, hadds.exact h.2⟩)
      (fun h => ⟨h.1, hadds.lost h.2⟩)

theorem step_lost {input : Input} (hw : w.Lost) (h : step std w input = some t) : t.Lost := by
  cases input with
  | chunk text => exact processChunk_lost hw h
  | flush =>
    obtain ⟨u, hu, hadds⟩ := flush_adds h
    exact hadds.lost (processChunk_lost hw hu)

/-- In no turn of the stream does a block complete while others wait. -/
def RoomThroughout (std : GoStd) (chunks : List Bytes) : Prop :=
  Runs.Meets (step std) (fun w input => w.RoomDuring std input.text) {} (stream chunks)

/-- A stream that ends surfaced all the calls, or a call is gone. -/
theorem stream_exact {chunks : List Bytes} (h : Runs.run (step std) {} (stream chunks) = some w) :
    RoomThroughout std chunks ∧ w.Exact ∨ ¬ RoomThroughout std chunks ∧ w.Lost :=
  Runs.run_exact (fun _ _ _ hs ht => step_exact hs ht) (fun _ _ _ hs ht => step_lost hs ht)
    (stream chunks) rfl h

theorem stream_released : ∀ (chunks : List Bytes) {w t : Work},
    Runs.run (step std) w (stream chunks) = some t → t.state.pendingToolCalls = []
  | [], w, t, h => by
    simp only [stream, List.map_nil, List.nil_append, Runs.run] at h
    split at h
    · next u hu =>
      cases h
      obtain ⟨v, -, hadds⟩ := flush_adds hu
      exact hadds.1
    · cases h
  | chunk :: chunks, w, t, h => by
    simp only [stream, List.map_cons, List.cons_append, Runs.run] at h
    split at h
    · exact stream_released chunks h
    · cases h

/-- A stream emits the calls it parsed, in order, exactly when no block of calls completes while
    the calls of another one wait. -/
theorem calls_conserved_iff (std : GoStd) (chunks : List Bytes) (w : Work)
    (h : Runs.run (step std) {} (stream chunks) = some w) :
    emittedCalls w.events = w.parsed ↔ RoomThroughout std chunks := by
  have hsurfaced : w.surfaced = emittedCalls w.events := by
    rw [Work.surfaced, stream_released chunks h, List.append_nil]
  rcases stream_exact h with ⟨hroom, hexact⟩ | ⟨hroom, hlost⟩
  · have hall : emittedCalls w.events = w.parsed := hsurfaced ▸ hexact
    exact iff_of_true hall hroom
  · refine iff_of_false (fun hall => ?_) hroom
    have hlen : w.surfaced.length < w.parsed.length := hlost
    rw [hsurfaced, hall] at hlen
    exact Nat.lt_irrefl _ hlen

/-! Two blocks, in two chunks and in one. They hold no JSON, XML values or entities, so decoders
    that know none do. -/

def plainStd : GoStd where
  unmarshal _ := none
  marshal _ := []
  xmlTokens _ := []
  unescape s := s
  unescape_le _ := Nat.le_refl _

def firstBlock : Bytes := lit "<tool_calls><invoke name=\"a\"></invoke></tool_calls>"

def secondBlock : Bytes := lit "<tool_calls><invoke name=\"b\"></invoke></tool_calls>"

theorem calls_conserved_example :
    ∃ w, Runs.run (step plainStd) {} (stream [firstBlock, secondBlock]) = some w ∧
      w.parsed.length = 2 ∧ emittedCalls w.events = w.parsed := by
  have hrun : (Runs.run (step plainStd) {} (stream [firstBlock, secondBlock])).map
      (fun w => (w.surfaced.length, w.parsed.length)) = some (2, 2) := by decide +kernel
  obtain ⟨w, hw, hlen⟩ := Option.map_eq_some_iff.mp hrun
  have hlen' : w.surfaced.length = 2 ∧ w.parsed.length = 2 := Prod.mk.inj hlen
  have hroom : RoomThroughout plainStd [firstBlock, secondBlock] := by
    rcases stream_exact hw with ⟨hroom, -⟩ | ⟨-, hlost⟩
    · exact hroom
    · have : w.surfaced.length < w.parsed.length := hlost
      omega
  exact ⟨w, hw, hlen'.2, (calls_conserved_iff plainStd _ w hw).mpr hroom⟩

/-- Two blocks in one chunk: both are parsed, and only the second one's call goes out. -/
theorem second_block_overwrites_first :
    ∃ w, Runs.run (step plainStd) {} (stream [firstBlock ++ secondBlock]) = some w ∧
      w.parsed.map (·.name) = [lit "a", lit "b"] ∧
      (emittedCalls w.events).map (·.name) = [lit "b"] ∧ emittedCalls w.events ≠ w.parsed := by
  have hrun : (Runs.run (step plainStd) {} (stream [firstBlock ++ secondBlock])).map
      (fun w => (w.parsed.map (·.name), (emittedCalls w.events).map (·.name))) =
        some ([lit "a", lit "b"], [lit "b"]) := by decide +kernel
  obtain ⟨w, hw, hnames⟩ := Option.map_eq_some_iff.mp hrun
  obtain ⟨hparsed, hemitted⟩ := Prod.mk.inj hnames
  refine ⟨w, hw, hparsed, hemitted, fun hall => ?_⟩
  rw [hall, hparsed] at hemitted
  exact absurd hemitted (by decide)

end DeepSeekWebToApi.Toolstream
