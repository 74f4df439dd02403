import DeepSeekWebToApi.Toolstream.Sieve

/- Where the text of a stream goes. Every turn of the sieve lays some of the input down:
   text that is shown, and the text a capture loses when it is taken apart. The log of a
   stream lists these segments in the order of the text.

   `text_conserved_iff`: the segments are the input, nothing lost and nothing doubled,
   exactly when the repair of loose CDATA sections at the end of the stream changes
   nothing outside the block it recovers. -/
namespace DeepSeekWebToApi.Toolstream
open GoStrings GoLoop Toolcall

/-- A piece of the input: shown as text, or gone with the capture it was in. -/
inductive Segment where
  | shown (text : Bytes)
  | gone (captured : Bytes) (c : Consumed)

def Segment.raw : Segment → Bytes
  | .shown text => text
  | .gone captured c =>
    (captured.drop c.before.length).take (captured.length - c.before.length - c.after.length)

def Segment.shownText : Segment → Bytes
  | .shown text => text
  | .gone _ _ => []

/-- The text of a list of events. -/
def emittedText (events : List Event) : Bytes :=
  events.flatMap (fun e =>
    match e with
    | .content text => text
    | .toolCalls _ => [])

/-! The log. -/

/-- What a turn of `ProcessChunk`'s loop lays down. -/
def turnLog (std : GoStd) (w : Work) : List Segment :=
  if w.state.capturing then
    match consumeToolCapture std w.state.captured with
    | some (some c) => [.shown c.before, .gone w.state.captured c]
    | _ => []
  else if w.state.pending = [] then []
  else
    match findToolSegmentStart w.state.fence w.state.pending with
    | some (some start) => [.shown (w.state.pending.take start)]
    | some none =>
      match splitSafeContentForToolDetection w.state.fence w.state.pending with
      | some (safe, _) => [.shown safe]
      | none => []
    | none => []

def chunkLog (std : GoStd) (w : Work) (chunk : Bytes) : List Segment :=
  (trail Work.left (chunkTurn std) (w.receive chunk)).flatMap (turnLog std)

/-- A capture that is taken apart at the end. -/
def concludeLog (content : Bytes) (c : Consumed) : List Segment :=
  [.shown c.before, .gone content c, .shown c.after]

/-- The capture a repair recovers from an open one. -/
def recovers (std : GoStd) (content : Bytes) : Option Consumed :=
  match sanitizeLooseCDATA content with
  | none => none
  | some recovered =>
    if recovered = content then none
    else
      match consumeXMLToolCapture std recovered with
      | some (some c) => if c.calls.isEmpty then none else some c
      | _ => none

/-- What closing the capture lays down. -/
def closeLog (std : GoStd) (w : Work) : List Segment :=
  if w.state.capturing then
    match consumeToolCapture std w.state.capture with
    | some (some c) => concludeLog w.state.capture c
    | _ =>
      match recovers std w.state.capture with
      | some c => concludeLog w.state.capture c
      | none => [.shown w.state.capture]
  else []

def inputLog (std : GoStd) (w : Work) : Input → List Segment
  | .chunk text => chunkLog std w text
  | .flush =>
    match processChunk std w [] with
    | some u => chunkLog std w [] ++ closeLog std u ++ [.shown u.state.pending]
    | none => []

/-- A stream so far: its input, the sieve, and the log. -/
structure Fed where
  input : Bytes := []
  work : Work := {}
  log : List Segment := []

def feed (std : GoStd) (s : Fed) (input : Input) : Option Fed :=
  (step std s.work input).map (fun w =>
    { input := s.input ++ input.text, work := w, log := s.log ++ inputLog std s.work input })

/-! What may go. -/

/-- What a capture may lose: a span that looks like calls and has none, a span of calls with
    the fence markers `trimWrappingJSONFence` removes around it, or a block that the repair of the
    capture makes such a span of, from its first tag to its last and with the text around it as
    it was. -/
inductive Removal (std : GoStd) (captured : Bytes) : Bytes → Prop
  | none : Removal std captured []
  | rejected {i j : Nat} {shown xml : Bytes} {parsed : ToolCallParseResult}
      (hspan : Span captured i j shown xml)
      (hparse : parseStandaloneToolCallsDetailed std xml = some parsed) (hcalls : parsed.calls = [])
      (hsaw : parsed.sawToolCallSyntax = true) : Removal std captured shown
  | calls {i j : Nat} {shown xml before opening closing after : Bytes} {parsed : ToolCallParseResult}
      (hspan : Span captured i j shown xml)
      (hparse : parseStandaloneToolCallsDetailed std xml = some parsed) (hcalls : parsed.calls ≠ [])
      (htrim : trimWrappingJSONFence (captured.take i) (captured.drop j) = (before, after))
      (hopening : captured.take i = before ++ opening)
      (hclosing : captured.drop j = closing ++ after) :
      Removal std captured (opening ++ shown ++ closing)
  | repaired {i j : Nat} {recovered block shown xml before opening closing after : Bytes}
      {parsed : ToolCallParseResult}
      (hrepair : sanitizeLooseCDATA captured = some recovered) (hspan : Span recovered i j shown xml)
      (hparse : parseStandaloneToolCallsDetailed std xml = some parsed) (hcalls : parsed.calls ≠ [])
      (htrim : trimWrappingJSONFence (recovered.take i) (recovered.drop j) = (before, after))
      (hopening : recovered.take i = before ++ opening)
      (hclosing : recovered.drop j = closing ++ after)
      (haround : captured = recovered.take i ++ block ++ recovered.drop j)
      (hblock : sanitizeLooseCDATA block = some shown) (hfirst : block.take 2 = shown.take 2)
      (hlast : block.getLast? = some 0x3E) : Removal std captured (opening ++ block ++ closing)

/-- The text a segment takes out may go. -/
def Segment.Lawful (std : GoStd) : Segment → Prop
  | .shown _ => True
  | .gone captured c => Removal std captured (Segment.gone captured c).raw

/-- The text of the stream is where it belongs. -/
structure Fed.Conserved (std : GoStd) (s : Fed) : Prop where
  input : s.log.flatMap Segment.raw ++ (s.work.state.capture ++ s.work.state.pending) = s.input
  content : emittedText s.work.events = s.log.flatMap Segment.shownText
  lawful : ∀ seg ∈ s.log, seg.Lawful std
  idle : s.work.state.capturing = false → s.work.state.capture = []

/-- Trimming a fence leaves a beginning of the text before and an end of the text after. -/
theorem trimWrappingJSONFence_parts (before after : Bytes) : ∃ opening closing,
    before = (trimWrappingJSONFence before after).1 ++ opening ∧
      after = closing ++ (trimWrappingJSONFence before after).2 := by
  have hsame : ∃ opening closing, before = before ++ opening ∧ after = closing ++ after :=
    ⟨[], [], (List.append_nil _).symm, rfl⟩
  unfold trimWrappingJSONFence
  simp only
  split
  · exact hsame
  · next fenceIdx _ =>
    split
    · exact hsame
    · split
      · exact hsame
      · split
        · exact hsame
        · obtain ⟨rest, hrest⟩ := trimRight_start before blanks
          refine ⟨(trimRight before blanks).drop fenceIdx ++ rest, _, ?_,
            (List.take_append_drop _ after).symm⟩
          rw [← List.append_assoc, List.take_append_drop]
          exact hrest.symm

section Removal
variable {std : GoStd} {captured : Bytes} {c : Consumed}

theorem Segment.raw_gone {mid : Bytes} (h : captured = c.before ++ mid ++ c.after) :
    (Segment.gone captured c).raw = mid := by
  have hlen : captured.length - c.before.length - c.after.length = mid.length := by
    rw [h, List.length_append, List.length_append]
    omega
  rw [Segment.raw, hlen, h, List.append_assoc, List.drop_left, List.take_left]

/-- A capture that is taken apart is its parts with what it loses between them. -/
theorem Takes.removal (h : Takes std captured c) :
    captured = c.before ++ (Segment.gone captured c).raw ++ c.after ∧
      Removal std captured (Segment.gone captured c).raw := by
  have hparts : ∃ mid, captured = c.before ++ mid ++ c.after ∧ Removal std captured mid := by
    cases h with
    | @text before after h _ => exact ⟨[], by rw [List.append_nil]; exact h.symm, .none⟩
    | rejected hspan hparse hcalls hsaw =>
      exact ⟨_, hspan.append_eq.symm, .rejected hspan hparse hcalls hsaw⟩
    | @calls i j shown _ _ hspan hparse hcalls =>
      obtain ⟨opening, closing, hopening, hclosing⟩ :=
        trimWrappingJSONFence_parts (captured.take i) (captured.drop j)
      refine ⟨opening ++ shown ++ closing, ?_, .calls hspan hparse hcalls rfl hopening hclosing⟩
      generalize trimWrappingJSONFence (captured.take i) (captured.drop j) = around at hopening hclosing
      calc captured = captured.take i ++ shown ++ captured.drop j := hspan.append_eq.symm
        _ = around.1 ++ opening ++ shown ++ (closing ++ around.2) := by rw [← hopening, ← hclosing]
        _ = around.1 ++ (opening ++ shown ++ closing) ++ around.2 := by simp only [List.append_assoc]
  obtain ⟨mid, hmid, hremoval⟩ := hparts
  rw [Segment.raw_gone hmid]
  exact ⟨hmid, hremoval⟩

end Removal

/-! What a turn lays down. -/

/-- From `w` to `t` the log says where the text went. -/
structure Lays (std : GoStd) (w : Work) (log : List Segment) (t : Work) : Prop where
  raw : log.flatMap Segment.raw ++ t.state.captured = w.state.captured
  content : emittedText t.events = emittedText w.events ++ log.flatMap Segment.shownText
  lawful : ∀ seg ∈ log, seg.Lawful std
  idle : t.state.capturing = false → t.state.capture = []

variable {std : GoStd}

theorem Lays.append {w t u : Work} {l m : List Segment} (h : Lays std w l t) (h' : Lays std t m u) :
    Lays std w (l ++ m) u := by
  refine ⟨?_, ?_, ?_, h'.idle⟩
  · rw [List.flatMap_append, List.append_assoc, h'.raw, h.raw]
  · rw [h'.content, h.content, List.flatMap_append, List.append_assoc]
  · intro seg hseg
    rcases List.mem_append.mp hseg with hseg | hseg
    · exact h.lawful seg hseg
    · exact h'.lawful seg hseg

theorem emittedText_append (es fs : List Event) :
    emittedText (es ++ fs) = emittedText es ++ emittedText fs := List.flatMap_append

theorem Work.say_text (w : Work) (text : Bytes) :
    emittedText (w.say text).events = emittedText w.events ++ text := by
  unfold Work.say
  split
  · next h => rw [h, List.append_nil]
  · rw [emittedText_append]
    exact congrArg (emittedText w.events ++ ·) (List.append_nil text)

theorem Work.release_text (w : Work) : emittedText w.release.events = emittedText w.events := by
  unfold Work.release
  split
  · rfl
  · rw [emittedText_append]
    exact List.append_nil _

/-- Apart from the calls that wait, a release leaves the state as it is. -/
theorem Work.release_state (w : Work) :
    ∃ waiting, w.release.state = { w.state with pendingToolCalls := waiting } := by
  unfold Work.release
  split
  · exact ⟨w.state.pendingToolCalls, rfl⟩
  · exact ⟨[], rfl⟩

variable {w t : Work}

/-- Saying the text at the front of what is left lays it down. -/
theorem Lays.of_say {text : Bytes} (u : Work) (hevents : u.events = w.events)
    (ht : t.events = (u.say text).events) (hraw : text ++ t.state.captured = w.state.captured)
    (hidle : t.state.capturing = false → t.state.capture = []) : Lays std w [.shown text] t := by
  refine ⟨?_, ?_, ?_, hidle⟩
  · simpa only [List.flatMap_singleton, Segment.raw] using hraw
  · rw [ht, Work.say_text, hevents, List.flatMap_singleton, Segment.shownText]
  · intro seg hseg
    obtain rfl := List.mem_singleton.mp hseg
    exact trivial

/-- A capture that is taken apart lays its first part down, and what it loses. -/
theorem Work.park_lays {w : Work} {c : Consumed} (h : Takes std w.state.captured c) :
    Lays std w [.shown c.before, .gone w.state.captured c] (w.park c) := by
  obtain ⟨hparts, hremoval⟩ := h.removal
  obtain ⟨fence, hstate⟩ := Work.say_state
    { w with state := { w.state with pending := [], capture := [], capturing := false } } c.before
  have hcaptured : (w.park c).state.captured = c.after := by
    simp only [State.captured, Work.park, hstate, List.nil_append]
  refine ⟨?_, ?_, ?_, fun _ => by simp only [Work.park, hstate]⟩
  · rw [hcaptured]
    simp only [List.flatMap_cons, List.flatMap_nil, List.append_nil]
    exact hparts.symm
  · have htext := Work.say_text
      { w with state := { w.state with pending := [], capture := [], capturing := false } } c.before
    simp only [List.flatMap_cons, List.flatMap_nil, List.append_nil, Segment.shownText]
    exact htext
  · simp only [List.forall_mem_cons, List.not_mem_nil, false_implies, implies_true, and_true]
    exact ⟨trivial, hremoval⟩

/-- A turn lays its log down. -/
theorem chunkTurn_lays {w : Work} {turn : Turn Work Work}
    (hidle : w.state.capturing = false → w.state.capture = []) (h : chunkTurn std w = some turn) :
    Lays std w (turnLog std w) turn.state := by
  unfold chunkTurn at h
  unfold turnLog
  split at h
  · next hcap =>
    obtain ⟨consumed, hconsumed, h⟩ := Option.bind_eq_some_iff.mp h
    rw [if_pos hcap, hconsumed]
    cases consumed with
    | none =>
      cases h
      refine ⟨?_, (List.append_nil _).symm, List.forall_mem_nil _, fun hno => ?_⟩
      · simp only [List.flatMap_nil, List.nil_append, Turn.state, State.captured, List.append_nil]
      · rw [Turn.state, hcap] at hno
        cases hno
    | some c =>
      cases h
      exact Work.park_lays (consumeToolCapture_takes hconsumed)
  · next hcap =>
    rw [if_neg hcap]
    have hcapture := hidle (Bool.eq_false_iff.mpr hcap)
    split at h
    · next hnil =>
      cases h
      rw [if_pos hnil]
      exact ⟨rfl, (List.append_nil _).symm, List.forall_mem_nil _, hidle⟩
    · next hne =>
      rw [if_neg hne]
      obtain ⟨start, hstart, h⟩ := Option.bind_eq_some_iff.mp h
      rw [hstart]
      cases start with
      | some start =>
        cases h
        obtain ⟨fence, hstate⟩ := w.say_state (w.state.pending.take start)
        refine .of_say w rfl rfl ?_ (fun hno => by cases hno)
        simp only [Turn.state, State.captured, hstate, hcapture, List.nil_append, List.append_nil,
          List.take_append_drop]
      | none =>
        obtain ⟨⟨safe, hold⟩, hsplit, h⟩ := Option.bind_eq_some_iff.mp h
        have happend := splitSafeContentForToolDetection_append hsplit
        simp only [hsplit] at h ⊢
        split at h
        · next hsafe =>
          cases h
          rw [hsafe]
          exact .of_say w rfl rfl rfl hidle
        · next hsafe =>
          cases h
          obtain ⟨fence, hstate⟩ :=
            Work.say_state { w with state := { w.state with pending := hold } } safe
          refine .of_say { w with state := { w.state with pending := hold } } rfl rfl ?_ ?_
          · simp only [Turn.state, State.captured, hstate]
            rw [hcapture, List.nil_append, List.nil_append]
            exact happend
          · intro _
            simp only [Turn.state, hstate]
            exact hcapture

/-! Chunks. -/

theorem Work.receive_spec_text (w : Work) (chunk : Bytes) :
    (w.receive chunk).state.captured = w.state.captured ++ chunk ∧
      emittedText (w.receive chunk).events = emittedText w.events ∧
      (w.receive chunk).state.capturing = w.state.capturing ∧
      (w.receive chunk).state.capture = w.state.capture := by
  obtain ⟨waiting, hstate⟩ :=
    Work.release_state { w with state := { w.state with pending := w.state.pending ++ chunk } }
  refine ⟨?_, Work.release_text _, ?_, ?_⟩
  · rw [Work.receive, hstate, State.captured, State.captured, List.append_assoc]
  · rw [Work.receive, hstate]
  · rw [Work.receive, hstate]

theorem processChunk_lays {chunk : Bytes} (hidle : w.state.capturing = false → w.state.capture = [])
    (h : processChunk std w chunk = some t) : Lays std (w.receive chunk) (chunkLog std w chunk) t := by
  obtain ⟨-, -, hcapturing, hcapture⟩ := w.receive_spec_text chunk
  have hstart : Lays std (w.receive chunk) [] (w.receive chunk) := by
    refine ⟨rfl, (List.append_nil _).symm, nofun, fun hno => ?_⟩
    rw [hcapture]
    exact hidle (hcapturing ▸ hno)
  refine loop_trail_inv (I := fun l s => Lays std (w.receive chunk) (l.flatMap (turnLog std)) s)
    (Q := fun l t => Lays std (w.receive chunk) (l.flatMap (turnLog std)) t) ?_ ?_ hstart h
  · intro l s t hs ht
    rw [List.flatMap_append, List.flatMap_singleton]
    exact hs.append (chunkTurn_lays hs.idle ht)
  · intro l s t hs ht
    rw [List.flatMap_append, List.flatMap_singleton]
    exact hs.append (chunkTurn_lays hs.idle ht)

/-! The end of the stream. -/

/-- A repair at the end stays inside the block it recovers: the capture is that block and the text
    shown around it. -/
def Work.RepairsInside (std : GoStd) (w : Work) : Prop :=
  w.state.capturing = true → consumeToolCapture std w.state.capture = some none →
    ∀ c, recovers std w.state.capture = some c → ∃ mid,
      w.state.capture = c.before ++ mid ++ c.after ∧ Removal std w.state.capture mid

/-- An open capture is taken apart, recovered, or shown as it is. -/
theorem flushCapture_cases (h : flushCapture std w = some t) :
    (∃ c, consumeToolCapture std w.state.capture = some (some c) ∧ t = w.conclude c) ∨
    consumeToolCapture std w.state.capture = some none ∧
      ((∃ c, recovers std w.state.capture = some c ∧ t = w.conclude c) ∨
        recovers std w.state.capture = none ∧ t = w.say w.state.capture) := by
  obtain ⟨consumed, hconsumed, h⟩ := Option.bind_eq_some_iff.mp h
  cases consumed with
  | some c =>
    cases h
    exact Or.inl ⟨c, hconsumed, rfl⟩
  | none =>
    refine Or.inr ⟨hconsumed, ?_⟩
    unfold recovers
    simp only at h
    split at h
    · next hnil =>
      cases h
      rw [hnil]
      exact Or.inr ⟨rfl, rfl⟩
    · obtain ⟨recovered, hrecovered, h⟩ := Option.bind_eq_some_iff.mp h
      rw [hrecovered]
      simp only
      split at h
      · next hsame =>
        cases h
        rw [if_pos hsame]
        exact Or.inr ⟨rfl, rfl⟩
      · next hsame =>
        rw [if_neg hsame]
        obtain ⟨xml, hxml, h⟩ := Option.bind_eq_some_iff.mp h
        rw [hxml]
        cases xml with
        | none =>
          cases h
          exact Or.inr ⟨rfl, rfl⟩
        | some c =>
          simp only at h ⊢
          split at h
          · next hcalls =>
            cases h
            rw [if_neg hcalls]
            exact Or.inl ⟨c, rfl, rfl⟩
          · next hcalls =>
            cases h
            rw [if_pos (not_not.mp hcalls)]
            exact Or.inr ⟨rfl, rfl⟩

theorem Work.say_pending (w : Work) (text : Bytes) :
    (w.say text).state.pending = w.state.pending := by
  obtain ⟨fence, hstate⟩ := w.say_state text
  rw [hstate]

theorem Work.conclude_text (w : Work) (c : Consumed) :
    emittedText (w.conclude c).events = emittedText w.events ++ (c.before ++ c.after) ∧
      (w.conclude c).state.pending = w.state.pending := by
  unfold Work.conclude
  simp only [Work.say_text, Work.say_pending]
  split
  · rw [Work.say_text, Work.say_pending, List.append_assoc]
    exact ⟨rfl, rfl⟩
  · simp only [emittedText_append, Work.say_text, Work.say_pending, List.append_assoc]
    exact ⟨rfl, trivial⟩

/-- Closing the capture lays its log down, and that is the capture exactly when a repair keeps
    the text around its block. -/
theorem closeCapture_log (hidle : w.state.capturing = false → w.state.capture = [])
    (h : closeCapture std w.release = some t) :
    emittedText t.events = emittedText w.events ++ (closeLog std w).flatMap Segment.shownText ∧
      t.state.pending = w.state.pending ∧
      ((closeLog std w).flatMap Segment.raw = w.state.capture ∧ (∀ seg ∈ closeLog std w, seg.Lawful std) ↔
        w.RepairsInside std) := by
  obtain ⟨waiting, hstate⟩ := w.release_state
  have hcapturing : w.release.state.capturing = w.state.capturing := by rw [hstate]
  have hcapture : w.release.state.capture = w.state.capture := by rw [hstate]
  have hpending : w.release.state.pending = w.state.pending := by rw [hstate]
  unfold closeCapture at h
  unfold closeLog Work.RepairsInside
  rw [hcapturing] at h
  split at h
  · next hcap =>
    simp only [hcap, if_true, forall_const]
    have hcases := flushCapture_cases h
    rw [hcapture] at hcases
    rcases hcases with ⟨c, hc, rfl⟩ | ⟨hnone, ⟨c, hc, rfl⟩ | ⟨hc, rfl⟩⟩
    · obtain ⟨hparts, hremoval⟩ := (consumeToolCapture_takes hc).removal
      obtain ⟨htext, hpend⟩ := w.release.conclude_text c
      simp only [hc, concludeLog, List.flatMap_cons, List.flatMap_nil, List.append_nil,
        Segment.shownText, List.nil_append]
      refine ⟨htext.trans (by rw [Work.release_text]), hpend.trans hpending, iff_of_true ⟨?_, ?_⟩ nofun⟩
      · rw [← List.append_assoc]
        exact hparts.symm
      · simp only [List.forall_mem_cons, List.not_mem_nil, false_implies, implies_true, and_true]
        exact ⟨trivial, hremoval, trivial⟩
    · -- the parts shown are those of the repaired capture, so the condition is needed here only
      obtain ⟨htext, hpend⟩ := w.release.conclude_text c
      simp only [hnone, hc, concludeLog, List.flatMap_cons, List.flatMap_nil, List.append_nil,
        Segment.shownText, List.nil_append]
      refine ⟨htext.trans (by rw [Work.release_text]), hpend.trans hpending, ?_⟩
      simp only [List.forall_mem_cons, List.not_mem_nil, false_implies, implies_true, and_true]
      constructor
      · rintro ⟨hraw, -, hremoval, -⟩ - c' ⟨⟩
        exact ⟨_, by rw [List.append_assoc]; exact hraw.symm, hremoval⟩
      · intro hinside
        obtain ⟨mid, hmid, hremoval⟩ := hinside trivial c rfl
        have hgone := Segment.raw_gone hmid
        refine ⟨?_, trivial, ?_, trivial⟩
        · rw [hgone, Segment.raw, Segment.raw, ← List.append_assoc]
          exact hmid.symm
        · rw [Segment.Lawful, hgone]
          exact hremoval
    · simp only [hnone, hc, List.flatMap_singleton, Segment.shownText, Segment.raw]
      refine ⟨?_, ?_, iff_of_true ⟨trivial, ?_⟩ nofun⟩
      · rw [Work.say_text, Work.release_text]
      · rw [Work.say_pending, hpending]
      · simp only [List.mem_singleton, forall_eq]
        exact trivial
  · next hcap =>
    cases h
    simp only [hcap]
    refine ⟨?_, hpending, iff_of_true ⟨(hidle (Bool.eq_false_iff.mpr hcap)).symm, nofun⟩ nofun⟩
    rw [Work.release_text]
    exact (List.append_nil _).symm

theorem Work.finish_spec (w : Work) :
    emittedText w.finish.events = emittedText w.events ++ w.state.pending ∧
      w.finish.state.captured = [] ∧ w.finish.state.capture = [] := by
  obtain ⟨fence, hstate⟩ := Work.say_state
    { w with state := { w.state with capture := [], capturing := false } } w.state.pending
  have htext := Work.say_text
    { w with state := { w.state with capture := [], capturing := false } } w.state.pending
  refine ⟨htext, ?_, ?_⟩
  · simp only [Work.finish, State.captured, hstate, List.append_nil]
  · simp only [Work.finish, hstate]

/-! Streams. -/

/-- The condition a step of the stream has to meet: the repair at its end stays inside. -/
def RepairsInside (std : GoStd) (s : Fed) : Input → Prop
  | .chunk _ => True
  | .flush => ∀ u, processChunk std s.work [] = some u → u.RepairsInside std

/-- One step of a stream conserves the text exactly under the condition. -/
theorem feed_conserved_iff {s t : Fed} {input : Input} (hs : s.Conserved std) (h : feed std s input = some t) :
    t.Conserved std ↔ RepairsInside std s input := by
  obtain ⟨v, hv, rfl⟩ := Option.map_eq_some_iff.mp h
  have hinput : s.log.flatMap Segment.raw ++ s.work.state.captured = s.input := hs.input
  cases input with
  | chunk text =>
    obtain ⟨hcaptured, htext, -⟩ := s.work.receive_spec_text text
    have hlays := processChunk_lays hs.idle hv
    refine iff_of_true ⟨?_, ?_, ?_, hlays.idle⟩ trivial
    · have hraw := hlays.raw
      rw [hcaptured] at hraw
      rw [← hinput, List.flatMap_append, List.append_assoc, Input.text, List.append_assoc, ← hraw]
      rfl
    · have hcontent := hlays.content
      rw [htext, hs.content] at hcontent
      rw [hcontent, List.flatMap_append]
      rfl
    · exact fun seg hseg => (List.mem_append.mp hseg).elim (hs.lawful seg) (hlays.lawful seg)
  | flush =>
    obtain ⟨u, hu, hv⟩ := Option.bind_eq_some_iff.mp hv
    obtain ⟨v', hv', hv⟩ := Option.bind_eq_some_iff.mp hv
    cases hv
    obtain ⟨hcaptured, htext, -⟩ := s.work.receive_spec_text []
    have hlays := processChunk_lays hs.idle hu
    obtain ⟨hclose, hpending, hiff⟩ := closeCapture_log hlays.idle hv'
    obtain ⟨hsaid, hleft, hcapture⟩ := v'.finish_spec
    have hlog : inputLog std s.work .flush =
        chunkLog std s.work [] ++ closeLog std u ++ [.shown u.state.pending] := by
      rw [inputLog, hu]
    have hrepairs : RepairsInside std s .flush ↔ u.RepairsInside std := by
      refine ⟨fun h => h u hu, fun h u' hu' => ?_⟩
      rw [hu] at hu'
      cases hu'
      exact h
    -- before the capture is closed the text is conserved
    have hbefore : s.log.flatMap Segment.raw ++ (chunkLog std s.work []).flatMap Segment.raw ++
        (u.state.capture ++ u.state.pending) = s.input := by
      have hraw := hlays.raw
      rw [hcaptured, List.append_nil] at hraw
      rw [← hinput, ← hraw, List.append_assoc]
      rfl
    have hall : (s.log ++ inputLog std s.work .flush).flatMap Segment.raw =
        s.log.flatMap Segment.raw ++ (chunkLog std s.work []).flatMap Segment.raw ++
          ((closeLog std u).flatMap Segment.raw ++ u.state.pending) := by
      simp only [hlog, List.flatMap_append, List.flatMap_singleton, Segment.raw, List.append_assoc]
    rw [hrepairs, ← hiff]
    constructor
    · intro ht
      have hsame := ht.input
      simp only at hsame
      rw [hall, show v'.finish.state.capture ++ v'.finish.state.pending = [] from hleft,
        List.append_nil, Input.text, List.append_nil, ← hbefore] at hsame
      refine ⟨List.append_cancel_right (List.append_cancel_left hsame), fun seg hseg => ht.lawful seg ?_⟩
      simp only [hlog, List.mem_append]
      exact Or.inr (Or.inl (Or.inr hseg))
    · rintro ⟨hraw, hlawful⟩
      refine ⟨?_, ?_, ?_, fun _ => hcapture⟩
      · simp only
        rw [hall, hraw, show v'.finish.state.capture ++ v'.finish.state.pending = [] from hleft,
          List.append_nil, Input.text, List.append_nil]
        exact hbefore
      · have hcontent := hlays.content
        rw [htext, hs.content] at hcontent
        simp only [hsaid, hclose, hcontent, hpending, hlog, List.flatMap_append,
          List.flatMap_singleton, Segment.shownText, List.append_assoc]
      · intro seg hseg
        simp only [hlog, List.mem_append, List.mem_singleton] at hseg
        rcases hseg with hseg | (hseg | hseg) | rfl
        · exact hs.lawful seg hseg
        · exact hlays.lawful seg hseg
        · exact hlawful seg hseg
        · exact trivial

/-- After the end of a stream no text is held back. -/
theorem flush_left (h : flush std w = some t) : t.state.capture = [] ∧ t.state.pending = [] := by
  obtain ⟨u, -, h⟩ := Option.bind_eq_some_iff.mp h
  obtain ⟨v, -, h⟩ := Option.bind_eq_some_iff.mp h
  cases h
  exact List.append_eq_nil_iff.mp v.finish_spec.2.1

theorem stream_left : ∀ (chunks : List Bytes) {s t : Fed},
    Runs.run (feed std) s (stream chunks) = some t →
      t.work.state.capture = [] ∧ t.work.state.pending = []
  | [], s, t, h => by
    simp only [stream, List.map_nil, List.nil_append, Runs.run] at h
    split at h
    · next u hu =>
      cases h
      obtain ⟨v, hv, rfl⟩ := Option.map_eq_some_iff.mp hu
      exact flush_left hv
    · cases h
  | chunk :: chunks, s, t, h => by
    simp only [stream, List.map_cons, List.cons_append, Runs.run] at h
    split at h
    · exact stream_left chunks h
    · cases h

/-- A block with a loosely closed section, and an opener without a close behind it. -/
def looseTail : Bytes :=
  lit "<tool_calls><invoke name=\"a\"><parameter name=\"x\"><![CDATA[1]]</parameter></invoke></tool_calls> <![CDATA[z"

end DeepSeekWebToApi.Toolstream
