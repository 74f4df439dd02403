import DeepSeekWebToApi.Lib.JsonCodec
import DeepSeekWebToApi.Lib.RuneText
import DeepSeekWebToApi.Shared.SessionChunking

/- The prompts of a chunked request (`TryPrepareSessionChunking` and the functions it builds its
   prompts with). Every fragment is sent in an envelope that repeats the format requirements,
   and followed by a probe and a cancellation; only the fragments are checked against the limit
   of the model.

   The budget of a fragment is the target less a reserve of 4096 units less the format
   requirements. `chunked_prompts_fit`: the reserve covers every envelope, so all prompts are
   within the limit and neither check ever fails. The target, `int(float64(limit) * ratio)`, is
   given as a number that is at most the limit. -/
namespace DeepSeekWebToApi.Shared
open GoStrings GoLoop
open GoJson (formatNat hexDigit hexEncode)

def sessionChunkEnvelopeReserveUnits : Int := 4096

def sessionChunkCancelInstruction : Bytes :=
  lit ("Cancel and ignore the unfinished answer or reasoning from the previous fragment.\n" ++
    "Keep every oversized-request fragment already received in this same conversation exactly as context.\n" ++
    "Begin a short internal reasoning acknowledgement now, but do not answer the original request yet. " ++
    "The next fragment will follow.")

/-! ## Markers -/

/-- What `randomSessionChunkMarker` draws on: eight random bytes, or else the clock. -/
structure Entropy where
  value : Option { v : Bytes // v.length = 8 }
  nanos : { n : Int // -2 ^ 63 ≤ n ∧ n < 2 ^ 63 }

/-- The verb `x` for a number. -/
def formatHex (n : Int) : Bytes :=
  (if n < 0 then lit "-" else []) ++
    (if n = 0 then lit "0" else (Nat.digits 16 n.natAbs).reverse.map hexDigit)

def randomSessionChunkMarker (e : Entropy) : Bytes :=
  match e.value with
  | some v => hexEncode v.1
  | none => formatHex e.nanos.1

/-! ## Prompts -/

def appendSessionChunkFormat (formatPrompt : Bytes) : Bytes :=
  if trimSpace formatPrompt = [] then []
  else
    lit "[FINAL_RESPONSE_FORMAT_REQUIREMENTS_REPEAT]" ++ lit "\n" ++ trimSpace formatPrompt ++ lit "\n" ++
      lit "[END_FINAL_RESPONSE_FORMAT_REQUIREMENTS]" ++ lit "\n"

def fragmentPhase (final : Bool) : Bytes := if final then lit "FINAL" else lit "INTERMEDIATE"

def fragmentCommand (final : Bool) : Bytes :=
  if final then
    lit ("Concatenate every fragment with this marker in numeric order, exactly and without separators. " ++
      "Ignore intermediate assistant reasoning, probes, and cancellation turns. " ++
      "Now execute the reconstructed original request.")
  else lit "Store this fragment verbatim in conversation context. Do not answer the original request yet."

def sessionChunkFragmentPrompt (marker : Bytes) (index count : Nat) (fragment formatPrompt : Bytes) (final : Bool) :
    Bytes :=
  lit "[OVERSIZED_REQUEST_" ++ fragmentPhase final ++ lit " marker=" ++ marker ++ lit " fragment=" ++
      formatNat index ++ lit "/" ++ formatNat count ++ lit "]" ++ lit "\n" ++
    fragmentCommand final ++ lit "\n" ++ appendSessionChunkFormat formatPrompt ++
    (lit "[FRAGMENT_BEGIN marker=" ++ marker ++ lit " index=" ++ formatNat index ++ lit "]") ++ lit "\n" ++
    fragment ++ lit "\n" ++
    (lit "[FRAGMENT_END marker=" ++ marker ++ lit " index=" ++ formatNat index ++ lit "]")

inductive ControlKind where
  | probe
  | cancel
  deriving DecidableEq

def ControlKind.text : ControlKind → Bytes
  | .probe => lit "probe"
  | .cancel => lit "cancel"

def probeInstruction : Bytes :=
  lit ("This is a checkpoint only. Preserve every earlier oversized-request fragment exactly as context. " ++
    "Begin a short internal reasoning acknowledgement now, but do not answer the original request. " ++
    "Checkpoint nonce: ")

def controlText : ControlKind → Bytes → Bytes
  | .probe, value => probeInstruction ++ value
  | .cancel, value => value

def sessionChunkControlPrompt (formatPrompt : Bytes) (kind : ControlKind) (value : Bytes) : Bytes :=
  lit "[OVERSIZED_REQUEST_CONTROL type=" ++ kind.text ++ lit "]" ++ lit "\n" ++ appendSessionChunkFormat formatPrompt ++
    controlText kind value

/-! ## The preparation -/

/-- The settings and the parts of the request the preparation reads. -/
structure ChunkRequest where
  enabled : Bool
  sessionChunkingEnable : Bool
  /-- `LimitForModel`. -/
  limit : Int
  /-- `int(float64(limit) * targetRatio)`. -/
  targetUnits : Int
  maxChunks : Int
  finalPrompt : Bytes
  incrementalFormatPrompt : Bytes
  existingSessionID : Bytes
  existingParentMessageID : Int

inductive TurnStage where
  | fragment
  | control (kind : ControlKind)

/-- What is decided outside: the planner, the session, the random markers, and whether and under which
    id each turn is committed. -/
structure ChunkUpstream where
  planner : Option (Nat → Planner)
  createSession : Option Bytes
  marker : Entropy
  nonce : Nat → Entropy
  commit : TurnStage → Nat → Int → Bytes → Option Int
  /-- `waitSessionChunkTransition` behind the turn was not cut short. -/
  waited : TurnStage → Nat → Bool

inductive PrepareError where
  | targetTooSmall
  | splitting (e : ChunkingError)
  | notMultiple
  | createSession
  | commitFailed (stage : TurnStage) (index : Nat)
  | waitFailed (stage : TurnStage) (index : Nat)
  /-- `session chunk %d wire prompt exceeds limit` -/
  | fragmentExceedsLimit (index : Nat) (units limit : Int)
  /-- `final session chunk wire prompt exceeds limit` -/
  | finalExceedsLimit (units limit : Int)

structure SessionChunkingPreparation where
  sessionID : Bytes
  parentMessageID : Int
  finalWirePrompt : Bytes
  chunkCount : Nat
  originalPromptUnits : Int
  finalWireUnits : Int

/-- The prompts that were built, and what came of them. -/
structure Attempt (α : Type) where
  built : List Bytes
  result : Except PrepareError α

/-- The next prompts are built only if nothing has failed. -/
def Attempt.andThen {α β : Type} (a : Attempt α) (f : α → Attempt β) : Attempt β :=
  match a.result with
  | .error e => ⟨a.built, .error e⟩
  | .ok x => ⟨a.built ++ (f x).built, (f x).result⟩

/-- A turn is committed and the pause behind it is over, or the preparation fails. -/
def commitTurn (up : ChunkUpstream) (stage : TurnStage) (index : Nat) (parentID : Int) (prompt : Bytes) :
    Except PrepareError Int :=
  match up.commit stage index parentID prompt with
  | none => .error (.commitFailed stage index)
  | some id => if up.waited stage index then .ok id else .error (.waitFailed stage index)

section
variable (up : ChunkUpstream) (req : ChunkRequest)

def fragmentPrompt (count index : Nat) (fragment : Bytes) (final : Bool) : Bytes :=
  sessionChunkFragmentPrompt (randomSessionChunkMarker up.marker) index count fragment req.incrementalFormatPrompt final

def probePrompt (index : Nat) : Bytes :=
  sessionChunkControlPrompt req.incrementalFormatPrompt .probe
    (randomSessionChunkMarker up.marker ++ lit "-" ++ randomSessionChunkMarker (up.nonce index))

def cancelPrompt : Bytes :=
  sessionChunkControlPrompt req.incrementalFormatPrompt .cancel sessionChunkCancelInstruction

/-- One turn of the loop: the fragment, the probe, the cancellation. -/
def sendChunk (count index : Nat) (parentID : Int) (fragment : Bytes) : Attempt Int :=
  let wire := fragmentPrompt up req count index fragment false
  if promptUnits wire > req.limit then
    ⟨[wire], .error (.fragmentExceedsLimit index (promptUnits wire) req.limit)⟩
  else
    Attempt.andThen ⟨[wire], commitTurn up .fragment index parentID wire⟩ fun parentID =>
      let probe := probePrompt up req index
      Attempt.andThen ⟨[probe], commitTurn up (.control .probe) index parentID probe⟩ fun parentID =>
        ⟨[cancelPrompt req], commitTurn up (.control .cancel) index parentID (cancelPrompt req)⟩

/-- The loop over the chunks before the last one. -/
def sendChunks (count : Nat) : Nat → Int → List Bytes → Attempt Int
  | _, parentID, [] => ⟨[], .ok parentID⟩
  | index, parentID, fragment :: rest =>
    (sendChunk up req count index parentID fragment).andThen fun parentID =>
      sendChunks count (index + 1) parentID rest

def finishChunks (sessionID : Bytes) (chunks : List Bytes) (parentID : Int) :
    Attempt (Option SessionChunkingPreparation) :=
  let wire := fragmentPrompt up req chunks.length chunks.length (chunks.getLast?.getD []) true
  if promptUnits wire > req.limit then ⟨[wire], .error (.finalExceedsLimit (promptUnits wire) req.limit)⟩
  else
    ⟨[wire],
      .ok (some ⟨sessionID, parentID, wire, chunks.length, promptUnits req.finalPrompt, promptUnits wire⟩)⟩

def contentBudget : Int :=
  req.targetUnits - sessionChunkEnvelopeReserveUnits - promptUnits req.incrementalFormatPrompt

/-- The session the chunks go to. -/
def chunkSession : Option Bytes :=
  if trimSpace req.existingSessionID = [] then up.createSession else some (trimSpace req.existingSessionID)

/-- `TryPrepareSessionChunking`; nothing for a prompt that needs no chunks, `none` for a panic. The request is
    authenticated (`a` is not nil) and the upstream is a `sessionChunkingCaller`. -/
def tryPrepareSessionChunking : Option (Attempt (Option SessionChunkingPreparation)) :=
  if ¬ req.enabled ∨ ¬ req.sessionChunkingEnable then some ⟨[], .ok none⟩
  else if req.limit ≤ 0 ∨ promptUnits req.finalPrompt ≤ req.limit then some ⟨[], .ok none⟩
  else if contentBudget req < 1024 then some ⟨[], .error .targetTooSmall⟩
  else
    (splitSessionChunks up.planner req.finalPrompt (contentBudget req) req.maxChunks).map fun
      | .error e => ⟨[], .error (.splitting e)⟩
      | .ok chunks =>
        if chunks.length < 2 then ⟨[], .error .notMultiple⟩
        else
          match chunkSession up req with
          | none => ⟨[], .error .createSession⟩
          | some sessionID =>
            (sendChunks up req chunks.length 1 req.existingParentMessageID chunks.dropLast).andThen
              (finishChunks up req sessionID chunks)

end

/-! ## Units of a text -/

theorem promptUnits_nil : promptUnits [] = 0 := rfl

/-- A line break separates the units of two texts, whatever bytes they are. -/
theorem promptUnits_line (u v : Bytes) : promptUnits (u ++ lit "\n" ++ v) = promptUnits u + 1 + promptUnits v := by
  have hjoin : u ++ lit "\n" ++ v = u ++ 0x0A :: v := by
    rw [List.append_assoc]
    rfl
  rw [promptUnits, runesOf, hjoin, splitRunes_append_ascii (by decide), splitRunes_ascii (by decide), List.map_append,
    unitsOf_append, List.map_cons]
  show unitsOf (runesOf u) + (utf16Len 0x0A + unitsOf (runesOf v)) = _
  rw [show utf16Len 0x0A = 1 from rfl, promptUnits, promptUnits, Int.add_assoc]

theorem unitsOf_le : ∀ rs : List Nat, unitsOf rs ≤ 2 * rs.length
  | [] => Int.le_refl 0
  | r :: rs => by
    have hr : utf16Len r ≤ 2 := by
      rw [utf16Len]
      split <;> decide
    have hrest := unitsOf_le rs
    show utf16Len r + unitsOf rs ≤ _
    rw [List.length_cons]
    omega

theorem length_splitRunes (s : Bytes) : (splitRunes s).length ≤ s.length := by
  have hgroups : ∀ gs : List (Nat × Bytes), (∀ g ∈ gs, g.2 ≠ []) → gs.length ≤ (joinRunes gs).length := by
    intro gs
    induction gs with
    | nil => exact fun _ => Nat.le_refl 0
    | cons g gs ih =>
      intro h
      obtain ⟨hg, hgs⟩ := List.forall_mem_cons.mp h
      have hpos := List.length_pos_iff.mpr hg
      have hrest := ih hgs
      simp only [joinRunes, List.flatMap_cons, List.length_append, List.length_cons] at hrest ⊢
      omega
  have hlen := hgroups (splitRunes s) fun g hg => (splitRunesAux_group _ _ g hg).1
  rwa [joinRunes_splitRunes] at hlen

/-- At most two units a byte, which is all the envelopes need. -/
theorem promptUnits_le (s : Bytes) : promptUnits s ≤ 2 * s.length := by
  have hrunes : (runesOf s).length ≤ s.length := by
    rw [runesOf, List.length_map]
    exact length_splitRunes s
  have hunits := unitsOf_le (runesOf s)
  rw [promptUnits]
  omega

theorem unitsOf_sublist {rs qs : List Nat} (h : rs.Sublist qs) : unitsOf rs ≤ unitsOf qs := by
  induction h with
  | slnil => exact Int.le_refl _
  | cons r _ ih =>
    have hr := utf16Len_pos r
    show _ ≤ utf16Len r + unitsOf _
    omega
  | cons_cons r _ ih =>
    show utf16Len r + unitsOf _ ≤ utf16Len r + unitsOf _
    omega

theorem promptUnits_trimSpace (s : Bytes) : promptUnits (trimSpace s) ≤ promptUnits s := by
  refine unitsOf_sublist ?_
  rw [runesOf, splitRunes_trimSpace]
  exact ((List.rdropWhile_prefix _ _).sublist.trans (List.dropWhile_sublist _)).map _

theorem promptUnits_nonneg (s : Bytes) : 0 ≤ promptUnits s := unitsOf_nonneg _

/-! ## Lengths of the envelopes -/

theorem formatNat_length {n : Nat} (h : n ≤ 1000000) : (formatNat n).length ≤ 7 := by
  rw [formatNat]
  split
  · decide
  · rw [List.length_map, List.length_reverse, Nat.digits_length_le_iff (by decide)]
    omega

theorem marker_length (e : Entropy) : (randomSessionChunkMarker e).length ≤ 17 := by
  rw [randomSessionChunkMarker]
  split
  · next v _ =>
    have hhex : (hexEncode v.1).length = 2 * v.1.length := by
      rw [hexEncode, List.length_flatMap]
      simp [Nat.mul_comm]
    rw [hhex, v.2]
    decide
  · have hsign : (if e.nanos.1 < 0 then lit "-" else []).length ≤ 1 := by
      split <;> decide
    have hdigits : (if e.nanos.1 = 0 then lit "0" else (Nat.digits 16 e.nanos.1.natAbs).reverse.map hexDigit).length ≤
        16 := by
      split
      · decide
      · rw [List.length_map, List.length_reverse, Nat.digits_length_le_iff (by decide)]
        have hbounds := e.nanos.2
        omega
    rw [formatHex, List.length_append]
    omega

/-- The format requirements before a text cost their own units and a constant. -/
theorem promptUnits_format (formatPrompt rest : Bytes) :
    promptUnits (appendSessionChunkFormat formatPrompt ++ rest) ≤ promptUnits formatPrompt + 200 + promptUnits rest := by
  have htrim := promptUnits_trimSpace formatPrompt
  have hnonneg := promptUnits_nonneg formatPrompt
  rw [appendSessionChunkFormat]
  split
  · rw [List.nil_append]
    omega
  · have hopen := promptUnits_le (lit "[FINAL_RESPONSE_FORMAT_REQUIREMENTS_REPEAT]")
    have hclose := promptUnits_le (lit "[END_FINAL_RESPONSE_FORMAT_REQUIREMENTS]")
    have hopen' : (lit "[FINAL_RESPONSE_FORMAT_REQUIREMENTS_REPEAT]").length = 43 := by decide
    have hclose' : (lit "[END_FINAL_RESPONSE_FORMAT_REQUIREMENTS]").length = 40 := by decide
    rw [promptUnits_line, promptUnits_line, promptUnits_line]
    omega

section
variable {marker : Bytes} (hmarker : marker.length ≤ 17) {index count : Nat} (hindex : index ≤ 1000000)
  (hcount : count ≤ 1000000)
include hmarker hindex

theorem fragment_head_length (hcount : count ≤ 1000000) (final : Bool) :
    (lit "[OVERSIZED_REQUEST_" ++ fragmentPhase final ++ lit " marker=" ++ marker ++ lit " fragment=" ++
      formatNat index ++ lit "/" ++ formatNat count ++ lit "]").length ≤ 100 := by
  have hphase : (fragmentPhase final).length ≤ 12 := by
    cases final <;> decide
  have htexts : (lit "[OVERSIZED_REQUEST_").length = 19 ∧ (lit " marker=").length = 8 ∧
      (lit " fragment=").length = 10 ∧ (lit "/").length = 1 ∧ (lit "]").length = 1 := by decide
  have h₁ := formatNat_length hindex
  have h₂ := formatNat_length hcount
  simp only [List.length_append]
  omega

theorem fragment_mark_length {text : Bytes} (htext : text.length ≤ 30) :
    (text ++ marker ++ lit " index=" ++ formatNat index ++ lit "]").length ≤ 100 := by
  have htexts : (lit " index=").length = 7 ∧ (lit "]").length = 1 := by decide
  have h₁ := formatNat_length hindex
  simp only [List.length_append]
  omega

/-- The envelope of a fragment takes less than the reserve. -/
theorem fragment_units (hcount : count ≤ 1000000) (fragment formatPrompt : Bytes) (final : Bool) :
    promptUnits (sessionChunkFragmentPrompt marker index count fragment formatPrompt final) ≤
      promptUnits fragment + promptUnits formatPrompt + 2000 := by
  have hhead := fragment_head_length hmarker hindex hcount final
  have hcommand : (fragmentCommand final).length ≤ 300 := by
    cases final <;> decide +kernel
  have hbegin := fragment_mark_length hmarker hindex (show (lit "[FRAGMENT_BEGIN marker=").length ≤ 30 by decide)
  have hend := fragment_mark_length hmarker hindex (show (lit "[FRAGMENT_END marker=").length ≤ 30 by decide)
  rw [sessionChunkFragmentPrompt]
  generalize lit "[OVERSIZED_REQUEST_" ++ fragmentPhase final ++ lit " marker=" ++ marker ++ lit " fragment=" ++
      formatNat index ++ lit "/" ++ formatNat count ++ lit "]" = head at hhead ⊢
  generalize lit "[FRAGMENT_BEGIN marker=" ++ marker ++ lit " index=" ++ formatNat index ++ lit "]" = begins at hbegin ⊢
  generalize lit "[FRAGMENT_END marker=" ++ marker ++ lit " index=" ++ formatNat index ++ lit "]" = ends at hend ⊢
  have hgroup : head ++ lit "\n" ++ fragmentCommand final ++ lit "\n" ++ appendSessionChunkFormat formatPrompt ++ begins =
      head ++ lit "\n" ++ fragmentCommand final ++ lit "\n" ++ (appendSessionChunkFormat formatPrompt ++ begins) :=
    List.append_assoc ..
  rw [promptUnits_line, promptUnits_line, hgroup, promptUnits_line, promptUnits_line]
  have hformat := promptUnits_format formatPrompt begins
  have h₁ := promptUnits_le head
  have h₂ := promptUnits_le (fragmentCommand final)
  have h₃ := promptUnits_le begins
  have h₄ := promptUnits_le ends
  omega

end

theorem control_units (formatPrompt : Bytes) (kind : ControlKind) {value : Bytes} (hvalue : value.length ≤ 400) :
    promptUnits (sessionChunkControlPrompt formatPrompt kind value) ≤ promptUnits formatPrompt + 2000 := by
  have hhead : (lit "[OVERSIZED_REQUEST_CONTROL type=" ++ kind.text ++ lit "]").length ≤ 50 := by
    cases kind <;> decide
  have hinstruction : probeInstruction.length ≤ 300 := by decide +kernel
  have htext : (controlText kind value).length ≤ 700 := by
    cases kind with
    | probe =>
      rw [controlText, List.length_append]
      omega
    | cancel =>
      rw [controlText]
      omega
  have hformat := promptUnits_format formatPrompt (controlText kind value)
  have h₁ := promptUnits_le (lit "[OVERSIZED_REQUEST_CONTROL type=" ++ kind.text ++ lit "]")
  have h₂ := promptUnits_le (controlText kind value)
  rw [sessionChunkControlPrompt, List.append_assoc _ (appendSessionChunkFormat formatPrompt), promptUnits_line]
  omega

/-! ## Every prompt of a request -/

/-- One of the two checks against the limit. -/
def PrepareError.exceeds : PrepareError → Bool
  | .fragmentExceedsLimit _ _ _ | .finalExceedsLimit _ _ => true
  | _ => false

/-- All prompts are within the limit, and neither check has failed. -/
structure Attempt.Fits {α : Type} (limit : Int) (a : Attempt α) : Prop where
  units : ∀ prompt ∈ a.built, promptUnits prompt ≤ limit
  checks : ∀ e, a.result = .error e → e.exceeds = false

section
variable {up : ChunkUpstream} {req : ChunkRequest}

/-- A turn that fails does not fail a check. -/
theorem commitTurn_checks {stage : TurnStage} {index : Nat} {parentID : Int} {prompt : Bytes} {e : PrepareError}
    (h : commitTurn up stage index parentID prompt = .error e) : e.exceeds = false := by
  rw [commitTurn] at h
  split at h
  · cases h
    rfl
  · split at h
    · cases h
    · cases h
      rfl

theorem fragmentPrompt_fits (htarget : req.targetUnits ≤ req.limit) {count index : Nat} (hcount : count ≤ 1000000)
    (hindex : index ≤ count) {fragment : Bytes} (hfragment : promptUnits fragment ≤ contentBudget req) (final : Bool) :
    promptUnits (fragmentPrompt up req count index fragment final) ≤ req.limit := by
  have hunits := fragment_units (marker_length up.marker) (show index ≤ 1000000 by omega) hcount fragment
    req.incrementalFormatPrompt final
  rw [contentBudget, sessionChunkEnvelopeReserveUnits] at hfragment
  rw [fragmentPrompt]
  omega

theorem Attempt.Fits.andThen {α β : Type} {limit : Int} {a : Attempt α} {f : α → Attempt β} (ha : a.Fits limit)
    (hf : ∀ x, (f x).Fits limit) : (a.andThen f).Fits limit := by
  rw [Attempt.andThen]
  split
  · next e he =>
    refine ⟨ha.units, ?_⟩
    rintro e' ⟨⟩
    exact ha.checks e he
  · next x _ =>
    refine ⟨fun prompt hprompt => ?_, (hf x).checks⟩
    rcases List.mem_append.mp hprompt with hprompt | hprompt
    · exact ha.units prompt hprompt
    · exact (hf x).units prompt hprompt

theorem turn_fits {stage : TurnStage} {index : Nat} {parentID limit : Int} {prompt : Bytes}
    (h : promptUnits prompt ≤ limit) : Attempt.Fits limit ⟨[prompt], commitTurn up stage index parentID prompt⟩ :=
  ⟨List.forall_mem_singleton.mpr h, fun _ he => commitTurn_checks he⟩

section
variable (htarget : req.targetUnits ≤ req.limit) (hbudget : 1024 ≤ contentBudget req)
include htarget hbudget

theorem controlPrompt_fits (kind : ControlKind) {value : Bytes} (hvalue : value.length ≤ 400) :
    promptUnits (sessionChunkControlPrompt req.incrementalFormatPrompt kind value) ≤ req.limit := by
  have hunits := control_units req.incrementalFormatPrompt kind hvalue
  rw [contentBudget, sessionChunkEnvelopeReserveUnits] at hbudget
  omega

theorem probePrompt_fits (index : Nat) : promptUnits (probePrompt up req index) ≤ req.limit := by
  have h₁ := marker_length up.marker
  have h₂ := marker_length (up.nonce index)
  refine controlPrompt_fits htarget hbudget .probe ?_
  have hdash : (lit "-").length = 1 := by decide
  rw [List.length_append, List.length_append]
  omega

theorem cancelPrompt_fits : promptUnits (cancelPrompt req) ≤ req.limit :=
  controlPrompt_fits htarget hbudget .cancel (by decide +kernel)

theorem sendChunk_fits {count index : Nat} (hcount : count ≤ 1000000) (hindex : index ≤ count) (parentID : Int)
    {fragment : Bytes} (hfragment : promptUnits fragment ≤ contentBudget req) :
    (sendChunk up req count index parentID fragment).Fits req.limit := by
  have hwire : promptUnits (fragmentPrompt up req count index fragment false) ≤ req.limit :=
    fragmentPrompt_fits htarget hcount hindex hfragment false
  rw [sendChunk, if_neg (Int.not_lt.mpr hwire)]
  refine (turn_fits hwire).andThen fun id => ?_
  refine (turn_fits (probePrompt_fits htarget hbudget index)).andThen fun id => ?_
  exact turn_fits (cancelPrompt_fits htarget hbudget)

/-- The loop: the chunks before the last one, from an index on. -/
theorem sendChunks_fits {count : Nat} (hcount : count ≤ 1000000) (chunks : List Bytes) (index : Nat) (parentID : Int)
    (hindex : index + chunks.length ≤ count + 1) (hunits : ∀ chunk ∈ chunks, promptUnits chunk ≤ contentBudget req) :
    (sendChunks up req count index parentID chunks).Fits req.limit := by
  induction chunks generalizing index parentID with
  | nil =>
    rw [sendChunks]
    exact ⟨List.forall_mem_nil _, fun e he => by cases he⟩
  | cons chunk rest ih =>
    rw [List.length_cons] at hindex
    obtain ⟨hchunk, hrest⟩ := List.forall_mem_cons.mp hunits
    rw [sendChunks]
    refine (sendChunk_fits htarget hbudget hcount (show index ≤ count by omega) parentID hchunk).andThen fun id => ?_
    exact ih (index + 1) id (by omega) hrest

theorem finishChunks_fits (sessionID : Bytes) {chunks : List Bytes} (hcount : chunks.length ≤ 1000000)
    (hunits : ∀ chunk ∈ chunks, promptUnits chunk ≤ contentBudget req) (parentID : Int) :
    (finishChunks up req sessionID chunks parentID).Fits req.limit := by
  have hlast : promptUnits (chunks.getLast?.getD []) ≤ contentBudget req := by
    cases hget : chunks.getLast? with
    | none =>
      rw [Option.getD_none, promptUnits_nil]
      omega
    | some last => exact hunits last (List.mem_of_getLast? hget)
  have hwire : promptUnits (fragmentPrompt up req chunks.length chunks.length (chunks.getLast?.getD []) true) ≤
      req.limit := fragmentPrompt_fits htarget hcount (Nat.le_refl _) hlast true
  rw [finishChunks, if_neg (Int.not_lt.mpr hwire)]
  exact ⟨List.forall_mem_singleton.mpr hwire, fun e he => by cases he⟩

end

/-- Every preparation ends, builds prompts within the limit only, and never fails one of the checks. -/
theorem chunked_prompts_fit (up : ChunkUpstream) (req : ChunkRequest) (htarget : req.targetUnits ≤ req.limit)
    (hchunks : ∀ chunks, splitSessionChunks up.planner req.finalPrompt (contentBudget req) req.maxChunks =
      some (.ok chunks) → chunks.length ≤ 1000000) :
    ∃ attempt, tryPrepareSessionChunking up req = some attempt ∧ attempt.Fits req.limit := by
  have hempty : ∀ r : Except PrepareError (Option SessionChunkingPreparation), (∀ e, r = .error e → e.exceeds = false) →
      Attempt.Fits req.limit ⟨[], r⟩ := fun r hr => ⟨List.forall_mem_nil _, hr⟩
  rw [tryPrepareSessionChunking]
  split
  · exact ⟨_, rfl, hempty _ fun e he => by cases he⟩
  split
  · exact ⟨_, rfl, hempty _ fun e he => by cases he⟩
  split
  · refine ⟨_, rfl, hempty _ ?_⟩
    rintro e ⟨⟩
    rfl
  next hbudget =>
  have hbudget : 1024 ≤ contentBudget req := Int.not_lt.mp hbudget
  obtain ⟨r, hr, hwithin⟩ := chunks_within up.planner req.finalPrompt (show 0 ≤ contentBudget req by omega) req.maxChunks
  rw [hr, Option.map_some]
  refine ⟨_, rfl, ?_⟩
  cases r with
  | error e =>
    refine hempty _ ?_
    rintro e' ⟨⟩
    rfl
  | ok chunks =>
    have hcount := hchunks chunks hr
    have hunits := (hwithin chunks rfl).1
    dsimp only
    split
    · refine hempty _ ?_
      rintro e ⟨⟩
      rfl
    split
    · refine hempty _ ?_
      rintro e ⟨⟩
      rfl
    · next sessionID _ =>
      refine (sendChunks_fits htarget hbudget hcount chunks.dropLast 1 req.existingParentMessageID ?_ ?_).andThen
        fun id => finishChunks_fits htarget hbudget sessionID hcount hunits id
      · rw [List.length_dropLast]
        omega
      · exact fun chunk hchunk => hunits chunk (List.mem_of_mem_dropLast hchunk)

end

/-- An upstream that commits every turn under the next id. -/
def readyUpstream : ChunkUpstream where
  planner := none
  createSession := some (lit "session")
  marker := ⟨some ⟨List.replicate 8 0xAB, rfl⟩, 0, by decide⟩
  nonce index := ⟨none, (index % 1000 : Nat), by omega⟩
  commit _ _ parentID _ := some (parentID + 1)
  waited _ _ := true

def longRequest : ChunkRequest where
  enabled := true
  sessionChunkingEnable := true
  limit := 10000
  targetUnits := 8500
  maxChunks := 0
  finalPrompt := List.replicate 12000 0x61
  incrementalFormatPrompt := lit "answer in one line"
  existingSessionID := []
  existingParentMessageID := 0

theorem chunked_prompts_fit_long : 1024 ≤ contentBudget longRequest ∧
    ∃ attempt, tryPrepareSessionChunking readyUpstream longRequest = some attempt ∧ attempt.Fits 10000 := by
  have hbudget : 1024 ≤ contentBudget longRequest := by decide +kernel
  refine ⟨hbudget, chunked_prompts_fit readyUpstream longRequest (by decide) fun chunks hsplit => ?_⟩
  obtain ⟨r, hr, hwithin⟩ := chunks_within none longRequest.finalPrompt (show 0 ≤ contentBudget longRequest by omega) 0
  obtain rfl : r = .ok chunks := Option.some.inj (hr.symm.trans hsplit)
  have hcount := (hwithin chunks rfl).2
  have hlimit : chunkLimit 0 = 16 := rfl
  omega

end DeepSeekWebToApi.Shared
