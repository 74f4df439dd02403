import DeepSeekWebToApi.Lib.Text
import DeepSeekWebToApi.Lib.Loop

/- The tag scanner (`internal/toolcall/toolcalls_scan.go`, with `skipXMLIgnoredSection`
   and `findXMLTagEnd` of `toolcalls_parse_markup.go`).

   The scanner reads a text and its lower-cased copy side by side, at the same byte
   offsets. Lower-casing may change the length of a text, so a slice of the copy may
   be out of range; the functions that take one answer `none` for the panic that
   follows. A loop over offsets gets as many turns as there are bytes to read; every
   turn moves on by a byte at least, so it ends by itself before it runs out. -/
namespace DeepSeekWebToApi.Toolcall
open GoStrings GoLoop

def toolMarkupNames : List Bytes :=
  [lit "tool_calls", lit "tool-calls", lit "tool_call", lit "tool-call", lit "invoke",
    lit "parameter", lit "工具调用", lit "调用", lit "参数"]

/-- Zero-width characters, the byte order mark and the tokenised space. -/
def toolMarkupTokenArtifacts : List Bytes :=
  [lit "\u200b", lit "\u200c", lit "\u200d", lit "\u2060", lit "\ufeff", lit "\u2581"]

def canonicalToolMarkupName (name : Bytes) : Bytes :=
  if name = lit "工具调用" ∨ name = lit "tool_call" ∨ name = lit "tool-calls" ∨
      name = lit "tool-call" then lit "tool_calls"
  else if name = lit "调用" then lit "invoke"
  else if name = lit "参数" then lit "parameter"
  else name

structure ToolMarkupTag where
  start : Nat
  /-- the offset of the tag's last byte -/
  stop : Nat
  nameStart : Nat
  nameEnd : Nat
  name : Bytes
  closing : Bool
  selfClosing : Bool
  dsmlLike : Bool
  canonical : Bool
  deriving DecidableEq, Repr

/-! Sections the scanner does not look into. -/

/-- The length of a CDATA opener at `i`, zero if there is none. -/
def cdataOpenerByteLenAt (lower : Bytes) (i : Nat) : Nat :=
  if hasPrefix (lower.drop i) (lit "<![cdata[") then 9
  else if hasPrefix (lower.drop i) (lit "<![cdata|") then 9
  else if hasPrefix (lower.drop i) (lit "<![cdata｜") then 11
  else 0

inductive Skip where
  /-- a section starts here and does not end -/
  | blocked
  /-- a section starts here and ends before `next` -/
  | advanced (next : Nat)
  | stay
  deriving DecidableEq, Repr

def skipXMLIgnoredSection (lower : Bytes) (i : Nat) : Option Skip :=
  let openerLen := cdataOpenerByteLenAt lower i
  if openerLen > 0 then
    match index (lower.drop (i + openerLen)) (lit "]]>") with
    | none => some .blocked
    | some e => some (.advanced (i + openerLen + e + 3))
  else
    (sliceFrom lower i).map (fun tail =>
      if hasPrefix tail (lit "<!--") then
        match index (tail.drop 4) (lit "-->") with
        | none => .blocked
        | some e => .advanced (i + 4 + e + 3)
      else .stay)

/-- The offset of the first `>` of the text outside quotes; `quote` is the open quote. -/
def tagEnd : Option UInt8 → Bytes → Option Nat
  | _, [] => none
  | some q, ch :: s => (tagEnd (if ch = q then none else some q) s).map (· + 1)
  | none, ch :: s =>
    if ch = '"'.toUInt8 ∨ ch = '\''.toUInt8 then (tagEnd (some ch) s).map (· + 1)
    else if ch = '>'.toUInt8 then some 0
    else (tagEnd none s).map (· + 1)

def findXMLTagEnd (text : Bytes) (start : Nat) : Option Nat :=
  (tagEnd none (text.drop start)).map (· + start)

/-! The parts of a tag. A part that is not there consumes nothing (`none`). -/

def consumeToolMarkupPipe (text : Bytes) (idx : Nat) : Option Nat :=
  if hasPrefix (text.drop idx) (lit "|") then some (idx + 1)
  else if hasPrefix (text.drop idx) (lit "｜") then some (idx + 3)
  else none

def consumeToolMarkupSpaceSeparator (text : Bytes) (idx : Nat) : Option Nat :=
  match (text.drop idx).head? with
  | none => none
  | some ch => if (lit " \t\r\n").contains ch then some (idx + 1) else none

def consumeToolMarkupTokenArtifact (text : Bytes) (idx : Nat) : Option Nat :=
  (toolMarkupTokenArtifacts.find? (fun a => hasPrefix (text.drop idx) a)).map (fun a => idx + a.length)

def hasToolMarkupNamePrefix (lowerTail : Bytes) : Bool :=
  toolMarkupNames.any (fun name => hasPrefix lowerTail name || hasPrefix name lowerTail)

def hasToolMarkupDSMLPrefixPrefix (lowerTail : Bytes) : Bool :=
  [lit "dsml", lit "\x7b:dsml\x7d"].any (fun p => hasPrefix p lowerTail)

def consumeToolMarkupHyphenSeparator (lower text : Bytes) (idx : Nat) : Option (Option Nat) :=
  match (text.drop idx).head? with
  | none => some none
  | some ch =>
    if ch ≠ '-'.toUInt8 ∧ ch ≠ '_'.toUInt8 then some none
    else
      (sliceFrom lower (idx + 1)).map (fun tail =>
        if hasToolMarkupNamePrefix tail then some (idx + 1) else none)

def consumeToolMarkupNamePrefixOnce (lower text : Bytes) (idx : Nat) (allowTokenArtifacts : Bool) :
    Option (Option Nat) :=
  match consumeToolMarkupPipe text idx with
  | some next => some (some next)
  | none =>
    match consumeToolMarkupSpaceSeparator text idx with
    | some next => some (some next)
    | none =>
      (sliceFrom lower idx).bind (fun tail =>
        if hasPrefix tail (lit "\x7b:dsml\x7d") then some (some (idx + 7))
        else if hasPrefix tail (lit "dsml") then some (some (idx + 4))
        else
          (consumeToolMarkupHyphenSeparator lower text idx).map (fun hyphen =>
            match hyphen with
            | some next => some next
            | none => if allowTokenArtifacts then consumeToolMarkupTokenArtifact text idx else none))

/-- The loop body of `consumeToolMarkupNamePrefix`. -/
def namePrefixTurn (lower text : Bytes) (s : Nat × Bool) :
    Option (Turn (Nat × Bool) (Nat × Bool)) := do
  match ← consumeToolMarkupNamePrefixOnce lower text s.1 s.2 with
  | none => return .done s
  | some next => return .next (next, true)

-- a part is read from the text or from its copy, so no offset passes both
def consumeToolMarkupNamePrefix (lower text : Bytes) (idx : Nat) : Option (Nat × Bool) :=
  loop (fun s => text.length + lower.length - s.1) (namePrefixTurn lower text) (idx, false)

def matchToolMarkupName (lower : Bytes) (start : Nat) : Option (Option Bytes) :=
  (sliceFrom lower start).map (fun tail => toolMarkupNames.find? (fun name => hasPrefix tail name))

def pipesTurn (text : Bytes) (idx : Nat) : Option (Turn Nat Nat) :=
  match consumeToolMarkupPipe text idx with
  | some next => some (.next next)
  | none => some (.done idx)

/-- The offset after the pipes that follow `idx`. -/
def consumeToolMarkupPipes (text : Bytes) (idx : Nat) : Option Nat :=
  loop (text.length - ·) (pipesTurn text) idx

def hasToolMarkupBoundary (text : Bytes) (idx : Nat) : Bool :=
  match (text.drop idx).head? with
  | none => true
  | some ch => (lit " \t\n\r>/|").contains ch || hasPrefix (text.drop idx) (lit "｜")

/-- The end of a tag whose name and pipes end at `nameEnd`: the next `>`, but a tag with a
    trailing pipe ends at the pipe if there is none before the next `<`. -/
def toolMarkupTagEnd (text : Bytes) (nameEnd : Nat) (hasTrailingPipe : Bool) : Option Nat :=
  if hasTrailingPipe then
    match findXMLTagEnd text nameEnd with
    | none => some (nameEnd - 1)
    | some e =>
      match index (text.drop nameEnd) (lit "<") with
      | some nextLT => if e ≥ nameEnd + nextLT then some (nameEnd - 1) else some e
      | none => some e
  else findXMLTagEnd text nameEnd

def countLeadingLessThan (text : Bytes) : Nat := (text.takeWhile (· == '<'.toUInt8)).length

/-- The tag that starts at `start`, if any. -/
def scanToolMarkupTagAt (text : Bytes) (start : Nat) : Option (Option ToolMarkupTag) :=
  if (text.drop start).head? ≠ some '<'.toUInt8 then some none
  else do
    let lower := toLower text
    let i := start + countLeadingLessThan (text.drop start)
    let closing := (text.drop i).head? == some '/'.toUInt8
    let (nameStart, dsmlLike) ←
      consumeToolMarkupNamePrefix lower text (if closing then i + 1 else i)
    match ← matchToolMarkupName lower nameStart with
    | none => return none
    | some name =>
      let nameEnd ← consumeToolMarkupPipes text (nameStart + name.length)
      if ¬ hasToolMarkupBoundary text nameEnd then return none
      match toolMarkupTagEnd text nameEnd (nameEnd > nameStart + name.length) with
      | none => return none
      | some stop =>
        return some
          { start, stop, nameStart, nameEnd, name, closing, dsmlLike
            selfClosing := hasSuffix (trimSpace ((text.drop start).take (stop + 1 - start))) (lit "/>")
            canonical := !dsmlLike }

/-! Looking for tags. -/

/-- The loop body of `FindToolMarkupTagOutsideIgnored`. -/
def findTagTurn (text lower : Bytes) (i : Nat) : Option (Turn Nat (Option ToolMarkupTag)) :=
  if i ≥ text.length then some (.done none)
  else do
    match ← skipXMLIgnoredSection lower i with
    | .blocked => return .done none
    | .advanced next => return .next next
    | .stay =>
      match ← scanToolMarkupTagAt text i with
      | some tag => return .done (some tag)
      | none => return .next (i + 1)

def findToolMarkupTagOutsideIgnored (text : Bytes) (start : Nat) : Option (Option ToolMarkupTag) :=
  loop (text.length - ·) (findTagTurn text (toLower text)) start

/-- Which kinds of tags were seen. -/
structure SeenTags where
  hasDSML : Bool := false
  hasCanonical : Bool := false
  deriving DecidableEq, Repr

def SeenTags.see (s : SeenTags) (tag : ToolMarkupTag) : SeenTags :=
  if tag.dsmlLike then { s with hasDSML := true } else { s with hasCanonical := true }

/-- The loop body of the two `Contains..SyntaxOutsideIgnored`; `counts` are the names they
    look for. -/
def containsSyntaxTurn (text lower : Bytes) (counts : Bytes → Bool) (s : Nat × SeenTags) :
    Option (Turn (Nat × SeenTags) SeenTags) :=
  if s.1 ≥ text.length then some (.done s.2)
  else do
    match ← skipXMLIgnoredSection lower s.1 with
    | .blocked => return .done s.2
    | .advanced next => return .next (next, s.2)
    | .stay =>
      match ← scanToolMarkupTagAt text s.1 with
      | none => return .next (s.1 + 1, s.2)
      | some tag =>
        if ¬ counts tag.name then return .next (tag.stop + 1, s.2)
        let seen := s.2.see tag
        if seen.hasDSML && seen.hasCanonical then return .done seen
        return .next (tag.stop + 1, seen)

def containsSyntax (text : Bytes) (counts : Bytes → Bool) : Option SeenTags :=
  loop (fun s => text.length - s.1) (containsSyntaxTurn text (toLower text) counts) (0, {})

def containsToolMarkupSyntaxOutsideIgnored (text : Bytes) : Option SeenTags :=
  containsSyntax text (fun _ => true)

def containsToolCallWrapperSyntaxOutsideIgnored (text : Bytes) : Option SeenTags :=
  containsSyntax text (· == lit "tool_calls")

/-- The loop body of `FindMatchingToolMarkupClose`, on the offset and the depth. -/
def matchingCloseTurn (text name : Bytes) (s : Nat × Nat) :
    Option (Turn (Nat × Nat) (Option ToolMarkupTag)) :=
  if s.1 ≥ text.length then some (.done none)
  else do
    match ← findToolMarkupTagOutsideIgnored text s.1 with
    | none => return .done none
    | some tag =>
      if tag.name ≠ name then return .next (tag.stop + 1, s.2)
      if tag.closing then
        if s.2 - 1 = 0 then return .done (some tag)
        return .next (tag.stop + 1, s.2 - 1)
      return .next (tag.stop + 1, if tag.selfClosing then s.2 else s.2 + 1)

def findMatchingToolMarkupClose (text : Bytes) (tag : ToolMarkupTag) :
    Option (Option ToolMarkupTag) :=
  if text = [] ∨ tag.name = [] ∨ tag.closing then some none
  else loop (fun s => text.length - s.1) (matchingCloseTurn text tag.name) (tag.stop + 1, 1)

/-- The loop body of `IsPartialToolMarkupTagPrefix`. -/
def isPartialTurn (lower text : Bytes) (s : Nat × Bool) : Option (Turn (Nat × Bool) Bool) :=
  if s.1 > text.length then some (.done false)
  else if s.1 = text.length then some (.done true)
  else do
    let tail ← sliceFrom lower s.1
    if hasToolMarkupNamePrefix tail then return .done true
    if hasToolMarkupDSMLPrefixPrefix tail then return .done true
    match ← consumeToolMarkupNamePrefixOnce lower text s.1 s.2 with
    | none => return .done false
    | some next => return .next (next, true)

def isPartialToolMarkupTagPrefix (text : Bytes) : Option Bool :=
  if text.head? ≠ some '<'.toUInt8 ∨ contains text (lit ">") then some false
  else
    let i := countLeadingLessThan text
    if i ≥ text.length then some true
    else
      let i := if (text.drop i).head? = some '/'.toUInt8 then i + 1 else i
      loop (fun s => text.length - s.1) (isPartialTurn (toLower text) text) (i, false)

/-! Every turn moves on, so the loops end by themselves. -/

theorem skipXMLIgnoredSection_moves {lower : Bytes} {i next : Nat}
    (h : skipXMLIgnoredSection lower i = some (.advanced next)) : i < next := by
  unfold skipXMLIgnoredSection at h
  simp only at h
  split at h
  · split at h
    · cases h
    · cases h
      omega
  · obtain ⟨tail, -, htail⟩ := Option.map_eq_some_iff.mp h
    split at htail
    · split at htail
      · cases htail
      · cases htail
        omega
    · cases htail

/-- A turn that jumps over an ignored section, or takes a step of its own where there is none,
    moves on if that step does. -/
theorem skipTurn_next {σ ρ : Type} {f : σ → Nat} {lower : Bytes} {bound i : Nat} {r : ρ}
    {body : Skip → Option (Turn σ ρ)} {t : σ}
    (h : (if i ≥ bound then some (.done r) else skipXMLIgnoredSection lower i >>= body) = some (.next t))
    (hblocked : body .blocked ≠ some (.next t))
    (hadvanced : ∀ next, body (.advanced next) = some (.next t) → f t = next)
    (hstay : body .stay = some (.next t) → i < f t) : i < bound ∧ i < f t := by
  split at h
  case isTrue => cases h
  rename_i hlt
  refine ⟨Nat.not_le.mp hlt, ?_⟩
  obtain ⟨skip, hskip, h⟩ := Option.bind_eq_some_iff.mp h
  cases skip with
  | blocked => exact absurd h hblocked
  | advanced next => exact hadvanced next h ▸ skipXMLIgnoredSection_moves hskip
  | stay => exact hstay h

variable {text : Bytes} {i j : Nat}

theorem consumeToolMarkupPipe_moves (h : consumeToolMarkupPipe text i = some j) : i < j ∧ j ≤ text.length := by
  unfold consumeToolMarkupPipe at h
  split at h
  · next hp =>
    cases h
    exact ⟨by omega, le_length_of_hasPrefix_drop (by decide) hp⟩
  · split at h
    · next hp =>
      cases h
      exact ⟨by omega, le_length_of_hasPrefix_drop (by decide) hp⟩
    · cases h

theorem consumeToolMarkupSpaceSeparator_moves (h : consumeToolMarkupSpaceSeparator text i = some j) :
    i < j ∧ i < text.length := by
  unfold consumeToolMarkupSpaceSeparator at h
  split at h
  · cases h
  · next ch hch =>
    split at h
    · cases h
      exact ⟨by omega, lt_length_of_head_drop hch⟩
    · cases h

theorem consumeToolMarkupTokenArtifact_moves (h : consumeToolMarkupTokenArtifact text i = some j) :
    i < j ∧ i < text.length := by
  obtain ⟨a, ha, rfl⟩ := Option.map_eq_some_iff.mp h
  have hlen : ∀ b ∈ toolMarkupTokenArtifacts, 0 < b.length := by decide
  have hpos := hlen a (List.mem_of_find?_eq_some ha)
  have hle := le_length_of_hasPrefix_drop (List.length_pos_iff.mp hpos) (List.find?_some ha)
  omega

variable {lower text : Bytes}

theorem consumeToolMarkupHyphenSeparator_moves
    (h : consumeToolMarkupHyphenSeparator lower text i = some (some j)) : i < j ∧ i < text.length := by
  unfold consumeToolMarkupHyphenSeparator at h
  split at h
  · cases h
  · next ch hch =>
    split at h
    · cases h
    · obtain ⟨tail, -, htail⟩ := Option.map_eq_some_iff.mp h
      split at htail
      · cases htail
        exact ⟨by omega, lt_length_of_head_drop hch⟩
      · cases htail

theorem consumeToolMarkupNamePrefixOnce_moves {artifacts : Bool}
    (h : consumeToolMarkupNamePrefixOnce lower text i artifacts = some (some j)) :
    i < j ∧ i < text.length + lower.length := by
  unfold consumeToolMarkupNamePrefixOnce at h
  split at h
  · next next hpipe =>
    cases h
    have := consumeToolMarkupPipe_moves hpipe
    omega
  · split at h
    · next next hspace =>
      cases h
      have := consumeToolMarkupSpaceSeparator_moves hspace
      omega
    · obtain ⟨tail, htail, h⟩ := Option.bind_eq_some_iff.mp h
      have hdrop : tail = lower.drop i := by
        unfold sliceFrom at htail
        split at htail
        · exact (Option.some.inj htail).symm
        · cases htail
      subst hdrop
      split at h
      · next hp =>
        cases h
        have : i + 7 ≤ lower.length := le_length_of_hasPrefix_drop (by decide) hp
        omega
      · split at h
        · next hp =>
          cases h
          have : i + 4 ≤ lower.length := le_length_of_hasPrefix_drop (by decide) hp
          omega
        · obtain ⟨hyphen, hhyphen, h⟩ := Option.map_eq_some_iff.mp h
          split at h
          · cases h
            have := consumeToolMarkupHyphenSeparator_moves hhyphen
            omega
          · split at h
            · have := consumeToolMarkupTokenArtifact_moves h
              omega
            · cases h

theorem namePrefixTurn_next {s t : Nat × Bool} (h : namePrefixTurn lower text s = some (.next t)) :
    s.1 < text.length + lower.length ∧ s.1 < t.1 := by
  obtain ⟨once, honce, h⟩ := Option.bind_eq_some_iff.mp h
  cases once with
  | none => cases h
  | some next =>
    cases h
    exact (consumeToolMarkupNamePrefixOnce_moves honce).symm

theorem namePrefixTurn_decreases (lower text : Bytes) :
    Decreases (fun s => text.length + lower.length - s.1) (namePrefixTurn lower text) :=
  Decreases.of_moves (fun _ _ => namePrefixTurn_next)

theorem le_consumeToolMarkupNamePrefix {idx : Nat} {r : Nat × Bool}
    (h : consumeToolMarkupNamePrefix lower text idx = some r) : idx ≤ r.1 := by
  refine loop_inv (I := fun s => idx ≤ s.1) (Q := fun r => idx ≤ r.1) ?_ ?_ (Nat.le_refl idx) h
  · intro s t hs ht
    have := namePrefixTurn_next ht
    omega
  · intro s r hs hr
    obtain ⟨once, -, hr⟩ := Option.bind_eq_some_iff.mp hr
    cases once with
    | none =>
      cases hr
      exact hs
    | some next => cases hr

theorem pipesTurn_next (h : pipesTurn text i = some (.next j)) : i < text.length ∧ i < j ∧ j ≤ text.length := by
  unfold pipesTurn at h
  split at h
  · next hpipe =>
    cases h
    have := consumeToolMarkupPipe_moves hpipe
    omega
  · cases h

theorem pipesTurn_decreases (text : Bytes) : Decreases (text.length - ·) (pipesTurn text) :=
  Decreases.of_moves (f := fun i => i) (fun _ _ h => ⟨(pipesTurn_next h).1, (pipesTurn_next h).2.1⟩)

/-- The pipes lie in the text. -/
theorem consumeToolMarkupPipes_bounds {idx r : Nat} (h : consumeToolMarkupPipes text idx = some r) :
    idx ≤ r ∧ (idx < r → r ≤ text.length) := by
  refine loop_inv (I := fun i => idx ≤ i ∧ (idx < i → i ≤ text.length))
    (Q := fun r => idx ≤ r ∧ (idx < r → r ≤ text.length)) ?_ ?_ ⟨Nat.le_refl idx, by omega⟩ h
  · intro i j hi hj
    have := pipesTurn_next hj
    omega
  · intro i r hi hr
    unfold pipesTurn at hr
    split at hr
    · cases hr
    · cases hr
      exact hi

theorem tagEnd_lt : ∀ {s : Bytes} {quote : Option UInt8} {e : Nat},
    tagEnd quote s = some e → e < s.length
  | ch :: s, some q, e, h => by
    obtain ⟨e', he', rfl⟩ := Option.map_eq_some_iff.mp h
    exact Nat.succ_lt_succ (tagEnd_lt he')
  | ch :: s, none, e, h => by
    unfold tagEnd at h
    split at h
    · obtain ⟨e', he', rfl⟩ := Option.map_eq_some_iff.mp h
      exact Nat.succ_lt_succ (tagEnd_lt he')
    · split at h
      · cases h
        exact Nat.succ_pos _
      · obtain ⟨e', he', rfl⟩ := Option.map_eq_some_iff.mp h
        exact Nat.succ_lt_succ (tagEnd_lt he')
  | [], some _, _, h => by cases h
  | [], none, _, h => by cases h

theorem findXMLTagEnd_bounds {start e : Nat} (h : findXMLTagEnd text start = some e) :
    start ≤ e ∧ e < text.length := by
  obtain ⟨e', he', rfl⟩ := Option.map_eq_some_iff.mp h
  have hlt := tagEnd_lt he'
  rw [List.length_drop] at hlt
  omega

theorem toolMarkupTagEnd_bounds {nameEnd stop : Nat} {pipe : Bool} (hpos : 0 < nameEnd)
    (hpipe : pipe = true → nameEnd ≤ text.length) (h : toolMarkupTagEnd text nameEnd pipe = some stop) :
    nameEnd ≤ stop + 1 ∧ stop < text.length := by
  unfold toolMarkupTagEnd at h
  split at h
  · next hp =>
    have hle := hpipe hp
    split at h
    · cases h
      omega
    · next e he =>
      have hbounds := findXMLTagEnd_bounds he
      split at h
      · split at h
        · cases h
          omega
        · cases h
          omega
      · cases h
        omega
  · have hbounds := findXMLTagEnd_bounds h
    omega

theorem matchToolMarkupName_pos {lower name : Bytes} {start : Nat}
    (h : matchToolMarkupName lower start = some (some name)) : 0 < name.length := by
  obtain ⟨tail, -, hfind⟩ := Option.map_eq_some_iff.mp h
  have hall : ∀ n ∈ toolMarkupNames, 0 < n.length := by decide
  exact hall name (List.mem_of_find?_eq_some hfind)

variable {tag : ToolMarkupTag}

/-- A tag read at an offset starts there, its name follows, and it ends in the text. -/
theorem scanToolMarkupTagAt_spec {i : Nat} (h : scanToolMarkupTagAt text i = some (some tag)) :
    tag.start = i ∧ i < tag.nameStart ∧ tag.nameStart < tag.nameEnd ∧
      tag.nameEnd ≤ tag.stop + 1 ∧ tag.stop < text.length := by
  unfold scanToolMarkupTagAt at h
  split at h
  · cases h
  · next hlt =>
    obtain ⟨⟨nameStart, dsmlLike⟩, hpre, h⟩ := Option.bind_eq_some_iff.mp h
    obtain ⟨name, hname, h⟩ := Option.bind_eq_some_iff.mp h
    cases name with
    | none => cases h
    | some name =>
      obtain ⟨nameEnd, hpipes, h⟩ := Option.bind_eq_some_iff.mp h
      -- the bracket itself keeps the name away from the start
      have hlead : 0 < countLeadingLessThan (text.drop i) := by
        unfold countLeadingLessThan
        cases htext : text.drop i with
        | nil => simp [htext] at hlt
        | cons ch s =>
          have hch : ch = '<'.toUInt8 := by simpa [htext] using hlt
          simp [hch]
      have hstart : i < nameStart := by
        have := le_consumeToolMarkupNamePrefix hpre
        split at this <;> omega
      have hpos := matchToolMarkupName_pos hname
      have hend := consumeToolMarkupPipes_bounds hpipes
      split at h
      · cases h
      · split at h
        · cases h
        · next stop hstop =>
          have hbounds := toolMarkupTagEnd_bounds (by omega)
            (fun hp => hend.2 (by simpa using hp)) hstop
          cases h
          exact ⟨rfl, hstart, by show nameStart < nameEnd; omega, hbounds.1, hbounds.2⟩

theorem scanToolMarkupTagAt_lt {i : Nat} (h : scanToolMarkupTagAt text i = some (some tag)) : i < tag.stop + 1 := by
  have := scanToolMarkupTagAt_spec h
  omega

/-- A turn of the search goes on below the end, further right. -/
theorem findTagTurn_next {text lower : Bytes} (h : findTagTurn text lower i = some (.next j)) :
    i < text.length ∧ i < j := by
  unfold findTagTurn at h
  refine skipTurn_next (f := id) h nofun (fun next h => by cases h; rfl) fun h => ?_
  obtain ⟨tag, -, h⟩ := Option.bind_eq_some_iff.mp h
  cases tag with
  | some tag => cases h
  | none =>
    cases h
    exact Nat.lt_succ_self i

theorem findTagTurn_decreases (text lower : Bytes) :
    Decreases (text.length - ·) (findTagTurn text lower) :=
  Decreases.of_moves (f := fun i => i) (fun _ _ => findTagTurn_next)

theorem findTagTurn_done {text lower : Bytes} {i : Nat} (h : findTagTurn text lower i = some (.done (some tag))) :
    tag.start = i ∧ i < tag.stop + 1 ∧ tag.stop < text.length := by
  unfold findTagTurn at h
  split at h
  · cases h
  · obtain ⟨skip, -, h⟩ := Option.bind_eq_some_iff.mp h
    cases skip with
    | blocked => cases h
    | advanced next => cases h
    | stay =>
      obtain ⟨found, hfound, h⟩ := Option.bind_eq_some_iff.mp h
      cases found with
      | none => cases h
      | some found =>
        cases h
        have := scanToolMarkupTagAt_spec hfound
        omega

/-- A tag that is found lies in the text, not before the offset the search starts from. -/
theorem findToolMarkupTagOutsideIgnored_spec {start : Nat}
    (h : findToolMarkupTagOutsideIgnored text start = some (some tag)) :
    start ≤ tag.start ∧ tag.start < tag.stop + 1 ∧ tag.stop < text.length := by
  refine loop_inv (I := fun i => start ≤ i)
    (Q := fun r => ∀ tag, r = some tag →
      start ≤ tag.start ∧ tag.start < tag.stop + 1 ∧ tag.stop < text.length)
    ?_ ?_ (Nat.le_refl start) h tag rfl
  · intro i j hi hj
    have := findTagTurn_next hj
    omega
  · rintro i r hi hr tag rfl
    have := findTagTurn_done hr
    omega

/-! The other searches. -/

theorem containsSyntaxTurn_next {text lower : Bytes} {counts : Bytes → Bool} {s t : Nat × SeenTags}
    (h : containsSyntaxTurn text lower counts s = some (.next t)) :
    s.1 < text.length ∧ s.1 < t.1 := by
  unfold containsSyntaxTurn at h
  refine skipTurn_next (f := Prod.fst) h nofun (fun next h => by cases h; rfl) fun h => ?_
  obtain ⟨tag, htag, h⟩ := Option.bind_eq_some_iff.mp h
  cases tag with
  | none =>
    cases h
    exact Nat.lt_succ_self s.1
  | some tag =>
    have hstop := scanToolMarkupTagAt_lt htag
    simp only at h
    split at h
    · cases h
      exact hstop
    · split at h
      · cases h
      · cases h
        exact hstop

theorem containsSyntaxTurn_decreases (text lower : Bytes) (counts : Bytes → Bool) :
    Decreases (fun s => text.length - s.1) (containsSyntaxTurn text lower counts) :=
  Decreases.of_moves (fun _ _ => containsSyntaxTurn_next)

theorem matchingCloseTurn_decreases (text name : Bytes) :
    Decreases (fun s => text.length - s.1) (matchingCloseTurn text name) := by
  refine Decreases.of_moves (fun s t h => ?_)
  unfold matchingCloseTurn at h
  split at h
  case isTrue => cases h
  rename_i hlt
  refine ⟨Nat.not_le.mp hlt, ?_⟩
  obtain ⟨tag, htag, h⟩ := Option.bind_eq_some_iff.mp h
  cases tag with
  | none => cases h
  | some tag =>
    have hspec := findToolMarkupTagOutsideIgnored_spec htag
    have hstop : s.1 < tag.stop + 1 := by omega
    simp only at h
    split_ifs at h <;> cases h <;> exact hstop

theorem isPartialTurn_decreases (lower text : Bytes) :
    Decreases (fun s => text.length - s.1) (isPartialTurn lower text) := by
  refine Decreases.of_moves (fun s t h => ?_)
  unfold isPartialTurn at h
  split at h
  · cases h
  · split at h
    · cases h
    · obtain ⟨tail, -, h⟩ := Option.bind_eq_some_iff.mp h
      split at h
      · cases h
      · split at h
        · cases h
        · obtain ⟨once, honce, h⟩ := Option.bind_eq_some_iff.mp h
          cases once with
          | none => cases h
          | some next =>
            cases h
            exact ⟨by omega, (consumeToolMarkupNamePrefixOnce_moves honce).1⟩

end DeepSeekWebToApi.Toolcall
