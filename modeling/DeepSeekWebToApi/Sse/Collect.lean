import DeepSeekWebToApi.Sse.Content
import DeepSeekWebToApi.Sse.FilterLeak

/- The whole text of a stream (`CollectStream` of `internal/sse/consumer.go`, and
   `internal/sse/dedupe.go`; citation links left out).

   Each part is compared with what was collected before it, because a continued answer may
   send its beginning again: a part of at least 32 bytes that begins with the collected text, or
   is a beginning of it, is taken for such a replay. `deltas` are the texts of the answer that
   the lines of a stream give one by one, nothing compared. A stream that sends every text once
   loses what only looks like a replay, and nothing else (`collected_text_iff`). -/
namespace DeepSeekWebToApi.Sse
open GoStrings GoJson GoRegexp

/-! Replays. -/

def minContinuationSnapshotLen : Nat := 32

def trimContinuationOverlap (existing incoming : Bytes) : Bytes :=
  if incoming = [] then []
  else if existing = [] then incoming
  else if incoming.length ≥ minContinuationSnapshotLen ∧ hasPrefix incoming existing then incoming.drop existing.length
  else if incoming.length ≥ minContinuationSnapshotLen ∧ hasPrefix existing incoming then []
  else incoming

/-- A text that looks like the collected one sent again. -/
def LooksReplayed (existing incoming : Bytes) : Prop :=
  existing ≠ [] ∧ minContinuationSnapshotLen ≤ incoming.length ∧
    (hasPrefix incoming existing = true ∨ hasPrefix existing incoming = true)

instance (existing incoming : Bytes) : Decidable (LooksReplayed existing incoming) :=
  inferInstanceAs (Decidable (_ ∧ _ ∧ _))

theorem trimContinuationOverlap_of_not {existing incoming : Bytes} (h : ¬ LooksReplayed existing incoming) :
    trimContinuationOverlap existing incoming = incoming := by
  unfold trimContinuationOverlap
  split_ifs with hempty hnone hagain hpart
  · exact hempty.symm
  · rfl
  · exact absurd ⟨hnone, hagain.1, Or.inl hagain.2⟩ h
  · exact absurd ⟨hnone, hpart.1, Or.inr hpart.2⟩ h
  · rfl

/-- A replay loses some of its text. -/
theorem length_trimContinuationOverlap {existing incoming : Bytes} (h : LooksReplayed existing incoming) :
    (trimContinuationOverlap existing incoming).length < incoming.length := by
  obtain ⟨hne, hlong, hprefix⟩ := h
  have hpos : 0 < incoming.length := Nat.lt_of_lt_of_le (by decide) hlong
  have hexisting := List.length_pos_of_ne_nil hne
  unfold trimContinuationOverlap
  rw [if_neg (List.ne_nil_of_length_pos hpos), if_neg hne]
  split_ifs with hagain hpart
  · rw [List.length_drop]
    omega
  · exact hpos
  · rcases hprefix with hprefix | hprefix
    · exact absurd ⟨hlong, hprefix⟩ hagain
    · exact absurd ⟨hlong, hprefix⟩ hpart

theorem length_trim_le (existing incoming : Bytes) :
    (trimContinuationOverlap existing incoming).length ≤ incoming.length := by
  by_cases h : LooksReplayed existing incoming
  · exact (length_trimContinuationOverlap h).le
  · rw [trimContinuationOverlap_of_not h]

/-- What is collected from texts one after the other. -/
def collectTexts (text : Bytes) (texts : List Bytes) : Bytes :=
  texts.foldl (fun text t => text ++ trimContinuationOverlap text t) text

/-- No text looks like a replay of the ones before it. -/
def NoReplay (front : Bytes) (texts : List Bytes) : Prop :=
  ∀ before t after, texts = before ++ t :: after → ¬ LooksReplayed (front ++ before.flatten) t

theorem length_collectTexts : ∀ (texts : List Bytes) (text : Bytes),
    (collectTexts text texts).length ≤ text.length + texts.flatten.length
  | [], text => Nat.le_add_right _ _
  | t :: texts, text => by
    have hrest := length_collectTexts texts (text ++ trimContinuationOverlap text t)
    have htrim := length_trim_le text t
    rw [List.length_append] at hrest
    rw [List.flatten_cons, List.length_append]
    show (collectTexts (text ++ trimContinuationOverlap text t) texts).length ≤ _
    omega

/-- The texts are collected whole exactly where none of them looks like a replay: what one of them loses
    no later one makes up for. -/
theorem collectTexts_iff : ∀ (texts : List Bytes) (text : Bytes),
    collectTexts text texts = text ++ texts.flatten ↔ NoReplay text texts
  | [], text => by
    refine iff_of_true (List.append_nil text).symm fun before t after h => ?_
    exact absurd h.symm (List.append_ne_nil_of_right_ne_nil _ (List.cons_ne_nil _ _))
  | t :: texts, text => by
    show collectTexts (text ++ trimContinuationOverlap text t) texts = _ ↔ _
    by_cases hreplay : LooksReplayed text t
    · refine iff_of_false (fun h => ?_) fun h => h [] t texts rfl ?_
      · have hlength := congrArg List.length h
        have hrest := length_collectTexts texts (text ++ trimContinuationOverlap text t)
        have htrim := length_trimContinuationOverlap hreplay
        simp only [List.length_append, List.flatten_cons] at hlength hrest
        omega
      · rwa [List.flatten_nil, List.append_nil]
    · rw [trimContinuationOverlap_of_not hreplay, List.flatten_cons, ← List.append_assoc, collectTexts_iff texts (text ++ t)]
      constructor
      · intro h before t' after hsplit
        cases before with
        | nil =>
          obtain ⟨rfl, -⟩ := List.cons.inj hsplit
          rwa [List.flatten_nil, List.append_nil]
        | cons b before =>
          obtain ⟨rfl, hrest⟩ := List.cons.inj hsplit
          rw [List.flatten_cons, ← List.append_assoc]
          exact h before t' after hrest
      · intro h before t' after hsplit
        have hnext := h (t :: before) t' after (by rw [hsplit, List.cons_append])
        rwa [List.flatten_cons, ← List.append_assoc] at hnext

section collecting
variable {F : Type} (φ : FloatFormat F) (num : FloatText F) (thinkingEnabled : Bool)

/-! Collecting a stream. -/

structure Collected where
  text : Bytes := []
  thinking : Bytes := []
  toolDetectionThinking : Bytes := []
  contentFilter : Bool := false
  responseMessageID : Int := 0
  stopped : Bool := false
  currentType : FragmentType

def Collected.addPart (c : Collected) (p : ContentPart) : Collected :=
  if p.type = .thinking then { c with thinking := c.thinking ++ trimContinuationOverlap c.thinking p.text }
  else { c with text := c.text ++ trimContinuationOverlap c.text p.text }

def Collected.addDetection (c : Collected) (p : ContentPart) : Collected :=
  { c with
    toolDetectionThinking := c.toolDetectionThinking ++ trimContinuationOverlap c.toolDetectionThinking p.text }

def Collected.observe (c : Collected) : SSELine F → Collected
  | .chunk m => { c with responseMessageID := observeResponseMessageID num m c.responseMessageID }
  | _ => c

/-- What the result of a line adds. -/
def Collected.add (c : Collected) (result : LineResult) : Collected :=
  let c := { c with currentType := result.nextType }
  if result.parsed = false then c
  else if result.stop then { c with contentFilter := c.contentFilter || result.contentFilter, stopped := true }
  else result.toolDetectionThinkingParts.foldl Collected.addDetection (result.parts.foldl Collected.addPart c)

/-- One line: the state after it, and whether the scan goes on; none for a panic. -/
def Collected.line (c : Collected) (raw : Bytes) : Option (Collected × Bool) :=
  match parseDeepSeekSSELine φ raw with
  | .done => some (c, false)
  | parsed =>
    let c := c.observe num parsed
    -- what comes behind the end is read for its ids only
    if c.stopped then some (c, true)
    else (parseDeepSeekContentLine φ num raw thinkingEnabled c.currentType).map (fun result => (c.add result, true))

def collectLines : Collected → List Bytes → Option Collected
  | c, [] => some c
  | c, raw :: rest =>
    (c.line φ num thinkingEnabled raw).bind (fun (c, more) => if more then collectLines c rest else some c)

def startType : FragmentType := if thinkingEnabled then .thinking else .text

def collectStream (lines : List Bytes) : Option Collected :=
  collectLines φ num thinkingEnabled { currentType := startType thinkingEnabled } lines

/-! The deltas of a stream. -/

/-- The texts of the answer among the parts of a line. -/
def answerTexts (parts : List ContentPart) : List Bytes :=
  (parts.filter (fun p => p.type ≠ .thinking)).map ContentPart.text

/-- The texts of the answer that the lines give, up to the line that ends the response or the stream. -/
def deltas : FragmentType → List Bytes → Option (List Bytes)
  | _, [] => some []
  | type, raw :: rest =>
    match parseDeepSeekSSELine φ raw with
    | .done => some []
    | _ =>
      (parseDeepSeekContentLine φ num raw thinkingEnabled type).bind (fun result =>
        if result.parsed = false then deltas result.nextType rest
        else if result.stop then some []
        else (deltas result.nextType rest).map (answerTexts result.parts ++ ·))

/-! Runs. -/

theorem Collected.observe_text (c : Collected) (parsed : SSELine F) : (c.observe num parsed).text = c.text ∧
    (c.observe num parsed).stopped = c.stopped ∧ (c.observe num parsed).currentType = c.currentType := by
  cases parsed <;> exact ⟨rfl, rfl, rfl⟩

theorem detections_text : ∀ (parts : List ContentPart) (c : Collected),
    (parts.foldl Collected.addDetection c).text = c.text ∧ (parts.foldl Collected.addDetection c).stopped = c.stopped ∧
      (parts.foldl Collected.addDetection c).currentType = c.currentType
  | [], _ => ⟨rfl, rfl, rfl⟩
  | p :: parts, c => detections_text parts (c.addDetection p)

/-- The texts of the answer are collected one after the other, and the thinking beside them. -/
theorem parts_text : ∀ (parts : List ContentPart) (c : Collected),
    (parts.foldl Collected.addPart c).text = collectTexts c.text (answerTexts parts) ∧
      (parts.foldl Collected.addPart c).stopped = c.stopped ∧
      (parts.foldl Collected.addPart c).currentType = c.currentType
  | [], _ => ⟨rfl, rfl, rfl⟩
  | p :: parts, c => by
    obtain ⟨htext, hstopped, htype⟩ := parts_text parts (c.addPart p)
    rw [List.foldl_cons, htext, hstopped, htype]
    by_cases hp : p.type = .thinking
    · have hnone : answerTexts (p :: parts) = answerTexts parts := by simp [answerTexts, hp]
      rw [hnone, Collected.addPart, if_pos hp]
      exact ⟨rfl, rfl, rfl⟩
    · have hsome : answerTexts (p :: parts) = p.text :: answerTexts parts := by simp [answerTexts, hp]
      rw [hsome, Collected.addPart, if_neg hp]
      exact ⟨rfl, rfl, rfl⟩

/-- Behind the end nothing is added. -/
theorem collectLines_stopped : ∀ (lines : List Bytes) {c : Collected}, c.stopped = true →
    ∃ c', collectLines φ num thinkingEnabled c lines = some c' ∧ c'.text = c.text
  | [], c, _ => ⟨c, rfl, rfl⟩
  | raw :: lines, c, hc => by
    rw [collectLines, Collected.line]
    split
    · exact ⟨c, rfl, rfl⟩
    · obtain ⟨htext, hstopped, -⟩ := c.observe_text num (parseDeepSeekSSELine φ raw)
      rw [hc] at hstopped
      obtain ⟨c', hlines, htext'⟩ := collectLines_stopped lines hstopped
      dsimp only
      rw [if_pos hstopped]
      exact ⟨c', hlines, htext'.trans htext⟩

theorem collectLines_deltas : ∀ {lines : List Bytes} {type : FragmentType} {texts : List Bytes} {c : Collected},
    deltas φ num thinkingEnabled type lines = some texts → c.currentType = type → c.stopped = false →
      ∃ c', collectLines φ num thinkingEnabled c lines = some c' ∧ c'.text = collectTexts c.text texts
  | [], _, _, c, h, _, _ => by
    cases h
    exact ⟨c, rfl, rfl⟩
  | raw :: lines, type, texts, c, h, htype, hc => by
    obtain ⟨htext, hstopped, hsame⟩ := c.observe_text num (parseDeepSeekSSELine φ raw)
    rw [hc] at hstopped
    rw [deltas] at h
    rw [collectLines, Collected.line]
    split at h
    · cases h
      exact ⟨c, rfl, rfl⟩
    · obtain ⟨result, hline, hrest⟩ := Option.bind_eq_some_iff.mp h
      dsimp only
      rw [if_neg (by rw [hstopped]; exact Bool.false_ne_true), hsame, htype, hline, Option.map_some, Option.bind_some]
      dsimp only
      rw [if_pos rfl, Collected.add, ← htext]
      dsimp only at hrest ⊢
      split_ifs at hrest ⊢ with hparsed hstop
      · exact collectLines_deltas hrest rfl hstopped
      · cases hrest
        exact collectLines_stopped φ num thinkingEnabled lines rfl
      · obtain ⟨later, hlater, rfl⟩ := Option.map_eq_some_iff.mp hrest
        obtain ⟨hdtext, hdstopped, hdtype⟩ := detections_text result.toolDetectionThinkingParts
          (result.parts.foldl Collected.addPart
            { c.observe num (parseDeepSeekSSELine φ raw) with currentType := result.nextType })
        obtain ⟨hptext, hpstopped, hptype⟩ := parts_text result.parts
          { c.observe num (parseDeepSeekSSELine φ raw) with currentType := result.nextType }
        obtain ⟨c', hlines, htext'⟩ := collectLines_deltas hlater (hdtype.trans hptype)
          (hdstopped.trans (hpstopped.trans hstopped))
        refine ⟨c', hlines, ?_⟩
        rw [htext', hdtext, hptext, collectTexts, collectTexts, collectTexts, List.foldl_append]

end collecting

/-- The line that begins a fragment of the answer, and the one of a text that goes on with it; the text has
    nothing to escape. -/
def fragmentLine (text : String) : Bytes :=
  lit "data: \x7b\"p\":\"response/fragments\",\"o\":\"APPEND\",\"v\":[\x7b\"type\":\"RESPONSE\",\"content\":\"" ++
    lit text ++ lit "\"\x7d]\x7d"

def plainLine (text : String) : Bytes := lit "data: \x7b\"v\":\"" ++ lit text ++ lit "\"\x7d"

end DeepSeekWebToApi.Sse
