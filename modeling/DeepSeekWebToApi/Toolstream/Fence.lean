import DeepSeekWebToApi.Lib.Strings
import DeepSeekWebToApi.Lib.Runs

/- Code fences in streamed text (`internal/toolstream/tool_sieve_state.go`).

   `simulateCodeFenceState` is a fold of a byte machine, so it does not care how a
   text is cut. `noteText` skips the chunks that are white space only, and such a
   chunk may end a run of backticks or move the line-start flag.
   `fence_chunking_iff`: noting a text chunk by chunk always gives the state of the whole
   text exactly when every skipped chunk is empty, or comes with no open run and
   leaves the flag as it finds it. -/
namespace DeepSeekWebToApi.Toolstream
open GoStrings

/-- The fields `codeFence..` of the sieve's `State`; `lineStart` is `!codeFenceNotLineStart`.
    Backtick fences are positive, tilde fences negative, the innermost one is last. -/
structure Fence where
  stack : List Int := []
  pendingTicks : Nat := 0
  pendingTildes : Nat := 0
  lineStart : Bool := true
  deriving DecidableEq, Repr

def applyFenceMarker (stack : List Int) (marker : Int) : List Int :=
  if marker = 0 then stack
  else
    match stack.getLast? with
    | none => [marker]
    | some top =>
      if ¬ (top > 0 ∧ marker > 0 ∨ top < 0 ∧ marker < 0) then stack ++ [marker]
      else if marker.natAbs ≥ top.natAbs then stack.dropLast
      else stack ++ [marker]

/-- End an open run of backticks; three of them at the start of a line are a fence. -/
def Fence.flushTicks (f : Fence) : Fence :=
  if f.pendingTicks > 0 then
    { f with
      stack :=
        if f.lineStart ∧ f.pendingTicks ≥ 3 then applyFenceMarker f.stack f.pendingTicks
        else f.stack
      lineStart := false
      pendingTicks := 0 }
  else f

/-- End an open run of tildes. -/
def Fence.flushTildes (f : Fence) : Fence :=
  if f.pendingTildes > 0 then
    { f with
      stack :=
        if f.lineStart ∧ f.pendingTildes ≥ 3 then applyFenceMarker f.stack (-f.pendingTildes)
        else f.stack
      lineStart := false
      pendingTildes := 0 }
  else f

def Fence.flushPending (f : Fence) : Fence := f.flushTicks.flushTildes

/-- The line-start flag after a byte that is neither a backtick nor a tilde. -/
def lineStartAfter (lineStart : Bool) (ch : UInt8) : Bool :=
  if ch = '\n'.toUInt8 ∨ ch = '\r'.toUInt8 then true
  else if ch = ' '.toUInt8 ∨ ch = '\t'.toUInt8 then lineStart
  else false

/-- The body of the loop of `simulateCodeFenceState`. -/
def Fence.byte (f : Fence) (ch : UInt8) : Fence :=
  if ch = 0x60 then
    let f := if f.pendingTildes > 0 then f.flushPending else f
    { f with pendingTicks := f.pendingTicks + 1 }
  else if ch = '~'.toUInt8 then
    let f := if f.pendingTicks > 0 then f.flushPending else f
    { f with pendingTildes := f.pendingTildes + 1 }
  else
    let f := f.flushPending
    { f with lineStart := lineStartAfter f.lineStart ch }

def simulateCodeFenceState (f : Fence) (text : Bytes) : Fence := text.foldl Fence.byte f

def hasMeaningfulText (text : Bytes) : Bool := trimSpace text ≠ []

/-- `State.noteText` on the fence fields (`updateCodeFenceState` makes the same test again). -/
def Fence.noteText (f : Fence) (content : Bytes) : Fence :=
  if hasMeaningfulText content then simulateCodeFenceState f content else f

def insideCodeFence (text : Bytes) : Bool :=
  if text = [] then false else (simulateCodeFenceState {} text).stack ≠ []

def insideCodeFenceWithState (f : Fence) (text : Bytes) : Bool :=
  (simulateCodeFenceState f text).stack ≠ []

/-! The machine reads a text in any cut. -/

theorem simulateCodeFenceState_append (f : Fence) (s t : Bytes) :
    simulateCodeFenceState f (s ++ t) = simulateCodeFenceState (simulateCodeFenceState f s) t :=
  List.foldl_append

/-! White space. -/

/-- No run of backticks or tildes is open. -/
def Fence.Idle (f : Fence) : Prop := f.pendingTicks = 0 ∧ f.pendingTildes = 0

/-- The line-start flag after a text without backticks and tildes. -/
def lineFlag (lineStart : Bool) (text : Bytes) : Bool := text.foldl lineStartAfter lineStart

theorem Fence.Idle.flushPending {f : Fence} (h : f.Idle) : f.flushPending = f := by
  have hticks : f.flushTicks = f := if_neg (by rw [h.1]; exact Nat.lt_irrefl 0)
  rw [Fence.flushPending, hticks]
  exact if_neg (by rw [h.2]; exact Nat.lt_irrefl 0)

theorem Fence.flushTicks_pendingTicks (f : Fence) : f.flushTicks.pendingTicks = 0 := by
  unfold Fence.flushTicks
  split
  · rfl
  · next h => exact Nat.eq_zero_of_not_pos h

theorem Fence.flushTildes_idle {f : Fence} (h : f.pendingTicks = 0) : f.flushTildes.Idle := by
  unfold Fence.flushTildes
  split
  · exact ⟨h, rfl⟩
  · next hno => exact ⟨h, Nat.eq_zero_of_not_pos hno⟩

theorem Fence.flushPending_idle (f : Fence) : f.flushPending.Idle :=
  Fence.flushTildes_idle f.flushTicks_pendingTicks

theorem Fence.byte_plain (f : Fence) {ch : UInt8} (h : ch ≠ 0x60) (h' : ch ≠ '~'.toUInt8) :
    f.byte ch =
      { f.flushPending with lineStart := lineStartAfter f.flushPending.lineStart ch } := by
  simp only [Fence.byte, if_neg h, if_neg h']

/-- Text without backticks and tildes only moves the flag of an idle machine. -/
theorem simulateCodeFenceState_idle : ∀ (text : Bytes) {f : Fence}, f.Idle →
    (∀ ch ∈ text, ch ≠ 0x60 ∧ ch ≠ '~'.toUInt8) →
    simulateCodeFenceState f text = { f with lineStart := lineFlag f.lineStart text }
  | [], _, _, _ => rfl
  | ch :: text, f, hf, ht => by
    obtain ⟨htick, htilde⟩ := ht ch List.mem_cons_self
    have hrest := fun c hc => ht c (List.mem_cons_of_mem ch hc)
    have hbyte : f.byte ch = { f with lineStart := lineStartAfter f.lineStart ch } := by
      rw [f.byte_plain htick htilde, hf.flushPending]
    have hidle : Fence.Idle { f with lineStart := lineStartAfter f.lineStart ch } := hf
    calc simulateCodeFenceState f (ch :: text)
        = simulateCodeFenceState { f with lineStart := lineStartAfter f.lineStart ch } text := by
          rw [← hbyte]; rfl
      _ = { f with lineStart := lineFlag f.lineStart (ch :: text) } :=
          simulateCodeFenceState_idle text hidle hrest

/-- A first byte that is neither leaves the machine idle. -/
theorem simulateCodeFenceState_plain_idle {text : Bytes} (hne : text ≠ []) (f : Fence)
    (ht : ∀ ch ∈ text, ch ≠ 0x60 ∧ ch ≠ '~'.toUInt8) : (simulateCodeFenceState f text).Idle := by
  cases text with
  | nil => exact absurd rfl hne
  | cons ch text =>
    obtain ⟨htick, htilde⟩ := ht ch List.mem_cons_self
    have hidle : (f.byte ch).Idle := by
      rw [f.byte_plain htick htilde]
      exact f.flushPending_idle
    have hsim : simulateCodeFenceState f (ch :: text) = simulateCodeFenceState (f.byte ch) text := rfl
    rw [hsim, simulateCodeFenceState_idle text hidle (fun c hc => ht c (List.mem_cons_of_mem ch hc))]
    exact hidle

theorem not_meaningful_plain {text : Bytes} (h : hasMeaningfulText text = false) :
    ∀ ch ∈ text, ch ≠ 0x60 ∧ ch ≠ '~'.toUInt8 := by
  have htrim : trimSpace text = [] := by simpa [hasMeaningfulText] using h
  intro ch hch
  have hrange := trimSpace_eq_nil_bytes htrim ch hch
  constructor
  · rintro rfl
    exact absurd hrange (by decide)
  · rintro rfl
    exact absurd hrange (by decide)

/-- A chunk `noteText` may skip: empty, or between runs and without effect on the flag. -/
def Fence.Skippable (f : Fence) (text : Bytes) : Prop :=
  text = [] ∨ f.Idle ∧ lineFlag f.lineStart text = f.lineStart

/-- The machine stays as it is on white space exactly when it may be skipped. -/
theorem simulateCodeFenceState_eq_self_iff (f : Fence) {text : Bytes}
    (h : hasMeaningfulText text = false) : simulateCodeFenceState f text = f ↔ f.Skippable text := by
  have hplain := not_meaningful_plain h
  constructor
  · intro hsame
    by_cases hne : text = []
    · exact Or.inl hne
    · have hidle : f.Idle := hsame ▸ simulateCodeFenceState_plain_idle hne f hplain
      rw [simulateCodeFenceState_idle text hidle hplain] at hsame
      exact Or.inr ⟨hidle, congrArg Fence.lineStart hsame⟩
  · rintro (rfl | ⟨hidle, hflag⟩)
    · rfl
    · rw [simulateCodeFenceState_idle text hidle hplain, hflag]

/-! Noting a stream. -/

/-- The fence state with the text noted so far. -/
structure Noted where
  fence : Fence := {}
  text : Bytes := []

def Noted.step (s : Noted) (chunk : Bytes) : Option Noted :=
  some { fence := s.fence.noteText chunk, text := s.text ++ chunk }

/-- The state is that of the whole text. -/
def Noted.Exact (s : Noted) : Prop := s.fence = simulateCodeFenceState {} s.text

/-- Chunks of white space only are such that they may be skipped. -/
def Noted.Harmless (s : Noted) (chunk : Bytes) : Prop :=
  hasMeaningfulText chunk = true ∨ s.fence.Skippable chunk

theorem Noted.exact_step {s t : Noted} {chunk : Bytes} (hs : s.Exact) (ht : s.step chunk = some t) :
    t.Exact ↔ s.Harmless chunk := by
  cases ht
  have hs' : simulateCodeFenceState {} s.text = s.fence := hs.symm
  rw [Noted.Exact, simulateCodeFenceState_append, hs', Noted.Harmless]
  unfold Fence.noteText
  cases hm : hasMeaningfulText chunk with
  | true => simp
  | false =>
    rw [← simulateCodeFenceState_eq_self_iff s.fence hm]
    simp [eq_comm]

/-- Noting a text chunk by chunk gives the state of the whole text after every chunk exactly
    when each chunk of white space only may be skipped where it comes. -/
theorem fence_chunking_iff (chunks : List Bytes) :
    Runs.Always Noted.step Noted.Exact {} chunks ↔ Runs.Meets Noted.step Noted.Harmless {} chunks :=
  Runs.always_iff_meets (fun _ _ _ hs ht => Noted.exact_step hs ht) chunks {} rfl

/-- A line break on its own is skipped, and the fence after it is not seen. -/
theorem lone_newline_hides_fence :
    ¬ Runs.Always Noted.step Noted.Exact {} [lit "a", lit "\n", lit "\x60\x60\x60\n"] ∧
      insideCodeFence (lit "a\n\x60\x60\x60\n") = true ∧
      ([lit "a", lit "\n", lit "\x60\x60\x60\n"].foldl Fence.noteText {}).stack = [] := by
  refine ⟨fun h => ?_, by decide, by decide⟩
  have hrun : Runs.run Noted.step {} [lit "a", lit "\n", lit "\x60\x60\x60\n"] =
      some ⟨[lit "a", lit "\n", lit "\x60\x60\x60\n"].foldl Fence.noteText {},
        lit "a\n\x60\x60\x60\n"⟩ := rfl
  have hexact := h.final hrun
  exact absurd hexact (by unfold Noted.Exact; decide)

end DeepSeekWebToApi.Toolstream
