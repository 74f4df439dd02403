import DeepSeekWebToApi.Lib.Runs
import DeepSeekWebToApi.Sse.Line

/- The parsed-line pump (`internal/sse/stream.go`). It parses the lines of the upstream body
   one after another and collects results that only have parts into one pending result, which
   it sends when it is large enough, when a result of another kind follows, when the ticker
   fires and at the end of the body. A schedule says where the ticks fall between the lines;
   the context is not cancelled and the receiver keeps reading.

   `pump_refines_lines`: up to the way parts are grouped, the receiver gets the results of the
   lines in order under every schedule, and the terminal error at a clean end of the body is
   the one these results call for. -/
namespace DeepSeekWebToApi.Sse
open GoStrings GoJson

def minFlushChars : Nat := 160

inductive TerminalError where
  | unexpectedEOF
  /-- Reading the body failed. -/
  | read
  deriving DecidableEq

structure Pump where
  currentType : FragmentType
  pending : Option LineResult := none
  pendingChars : Nat := 0
  terminalSeen : Bool := false
  parsedSeen : Bool := false
  /-- What the receiver got. -/
  out : List LineResult := []

def Pump.flushPending (s : Pump) : Pump :=
  match s.pending with
  | none => s
  | some r => { s with out := s.out ++ [r], pending := none, pendingChars := 0 }

def LineResult.terminal (r : LineResult) : Bool := r.stop || r.errorMessage ≠ [] || r.contentFilter

def LineResult.canAccumulate (r : LineResult) : Bool :=
  r.parsed && !r.stop && r.errorMessage = [] && !r.contentFilter && r.responseMessageID = 0

def LineResult.lineChars (r : LineResult) : Nat :=
  (r.parts.map (fun p => p.text.length)).sum + (r.toolDetectionThinkingParts.map (fun p => p.text.length)).sum

/-- The pending result with one more. -/
def accumulate (pending : Option LineResult) (result : LineResult) : LineResult :=
  match pending with
  | none => result
  | some p =>
    { p with
      parts := p.parts ++ result.parts
      toolDetectionThinkingParts := p.toolDetectionThinkingParts ++ result.toolDetectionThinkingParts
      nextType := result.nextType }

/-- The flags a result sets. -/
def Pump.seen (s : Pump) (result : LineResult) : Pump :=
  { s with
    currentType := result.nextType
    parsedSeen := s.parsedSeen || result.parsed
    terminalSeen := s.terminalSeen || result.terminal }

def Pump.hold (s : Pump) (result : LineResult) : Pump :=
  { s with pending := some (accumulate s.pending result), pendingChars := s.pendingChars + result.lineChars }

def Pump.sendResult (s : Pump) (result : LineResult) : Pump := { s with out := s.out ++ [result] }

def Pump.accept (s : Pump) (result : LineResult) : Pump :=
  if result.canAccumulate ∧ 0 < result.lineChars then
    if (s.hold result).pendingChars < minFlushChars then s.hold result else (s.hold result).flushPending
  else s.flushPending.sendResult result

inductive PumpAction where
  | tick
  | line (raw : Bytes)

section pump
variable {F : Type} (φ : FloatFormat F) (num : FloatText F) (thinkingEnabled : Bool)

def Pump.step (s : Pump) : PumpAction → Option Pump
  | .tick => some s.flushPending
  | .line raw =>
    (parseDeepSeekContentLine φ num raw thinkingEnabled s.currentType).map (fun result =>
      (s.seen result).accept result)

/-- The terminal error at the end of the body. -/
def Pump.terminalError (s : Pump) (readError : Option TerminalError) : Option TerminalError :=
  if readError = none ∧ s.parsedSeen ∧ ¬ s.terminalSeen then some .unexpectedEOF else readError

/-- What the receiver gets under a schedule, and the terminal error; none where a line panics. -/
def startParsedLinePump (initialType : FragmentType) (schedule : List PumpAction)
    (readError : Option TerminalError) : Option (List LineResult × Option TerminalError) :=
  (Runs.run (Pump.step φ num thinkingEnabled) { currentType := initialType } schedule).map (fun s =>
    (s.flushPending.out, s.terminalError readError))

/-! What it is to do. -/

/-- The results of the lines, the fragment type threaded from line to line. -/
def lineResults : FragmentType → List Bytes → Option (List LineResult)
  | _, [] => some []
  | type, raw :: lines =>
    (parseDeepSeekContentLine φ num raw thinkingEnabled type).bind (fun result =>
      (lineResults result.nextType lines).map (fun results => result :: results))

/-- The lines of a schedule. -/
def linesOf (schedule : List PumpAction) : List Bytes :=
  schedule.filterMap (fun a => match a with | .line raw => some raw | .tick => none)

end pump

/-- What a receiver sees of the results, in order. -/
inductive Event where
  | part (p : ContentPart)
  | stop
  | error (message : Bytes)
  | contentFilter
  | responseMessageID (id : Int)
  deriving DecidableEq

def LineResult.marks (r : LineResult) : List Event :=
  (if r.stop then [.stop] else []) ++ (if r.errorMessage ≠ [] then [.error r.errorMessage] else []) ++
    (if r.contentFilter then [.contentFilter] else []) ++
    (if r.responseMessageID ≠ 0 then [.responseMessageID r.responseMessageID] else [])

/-- The parts of the results, of one of the two kinds, with the other events in their places. -/
def events (pick : LineResult → List ContentPart) (results : List LineResult) : List Event :=
  results.flatMap (fun r => (pick r).map .part ++ r.marks)

/-- Adjacent parts of equal type as one. -/
def joinParts : List Event → List Event
  | [] => []
  | .part p :: rest =>
    match joinParts rest with
    | .part q :: joined =>
      if p.type = q.type then .part ⟨p.text ++ q.text, p.type⟩ :: joined else .part p :: .part q :: joined
    | joined => .part p :: joined
  | e :: rest => e :: joinParts rest

structure View where
  parts : List Event
  detection : List Event
  deriving DecidableEq

def view (results : List LineResult) : View where
  parts := joinParts (events LineResult.parts results)
  detection := joinParts (events LineResult.toolDetectionThinkingParts results)

/-- The error a clean end of the body calls for. -/
def eofError (results : List LineResult) : Option TerminalError :=
  if results.any LineResult.parsed ∧ ¬ results.any LineResult.terminal then some .unexpectedEOF else none

/-! The pump keeps what its receiver will see. -/

structure Seen where
  parts : List Event := []
  detection : List Event := []
  parsed : Bool := false
  terminal : Bool := false

def Seen.add (o : Seen) (r : LineResult) : Seen where
  parts := o.parts ++ events LineResult.parts [r]
  detection := o.detection ++ events LineResult.toolDetectionThinkingParts [r]
  parsed := o.parsed || r.parsed
  terminal := o.terminal || r.terminal

/-- What was sent and what is pending. -/
def Pump.observed (s : Pump) : Seen where
  parts := events LineResult.parts (s.out ++ s.pending.toList)
  detection := events LineResult.toolDetectionThinkingParts (s.out ++ s.pending.toList)
  parsed := s.parsedSeen
  terminal := s.terminalSeen

/-- The pending result has parts only. -/
def Pump.Plain (s : Pump) : Prop := ∀ p ∈ s.pending, p.marks = []

theorem events_append (pick : LineResult → List ContentPart) (rs rs' : List LineResult) :
    events pick (rs ++ rs') = events pick rs ++ events pick rs' := List.flatMap_append

variable {r : LineResult}

theorem marks_of_canAccumulate (h : r.canAccumulate = true) : r.marks = [] := by
  simp only [LineResult.canAccumulate, Bool.and_eq_true, Bool.not_eq_true', decide_eq_true_eq] at h
  obtain ⟨⟨⟨⟨-, hstop⟩, herror⟩, hfilter⟩, hid⟩ := h
  simp [LineResult.marks, hstop, herror, hfilter, hid]

theorem marks_accumulate {pending : Option LineResult} (hp : ∀ p ∈ pending, p.marks = []) (hr : r.marks = []) :
    (accumulate pending r).marks = [] := by
  cases pending with
  | none => exact hr
  | some p => exact hp p rfl

/-- Merging two results without marks keeps the order of their parts. -/
theorem events_accumulate {pick : LineResult → List ContentPart} {pending : Option LineResult}
    (hpick : ∀ p, pick (accumulate (some p) r) = pick p ++ pick r) (hp : ∀ p ∈ pending, p.marks = [])
    (hr : r.marks = []) : events pick [accumulate pending r] = events pick (pending.toList ++ [r]) := by
  cases pending with
  | none => rfl
  | some p =>
    have hmarks : (accumulate (some p) r).marks = [] := marks_accumulate hp hr
    simp [events, hmarks, hr, hp p rfl, hpick]

theorem Pump.flushPending_observed (s : Pump) : s.flushPending.observed = s.observed := by
  rw [flushPending]
  cases hp : s.pending with
  | none => rfl
  | some r => simp [observed, hp]

theorem Pump.flushPending_pending (s : Pump) : s.flushPending.pending = none := by
  rw [flushPending]
  cases hp : s.pending with
  | none => exact hp
  | some r => rfl

theorem Pump.flushPending_plain (s : Pump) : s.flushPending.Plain := by
  intro p hp
  rw [s.flushPending_pending] at hp
  cases hp

theorem Pump.flushPending_type (s : Pump) : s.flushPending.currentType = s.currentType := by
  rw [flushPending]
  cases s.pending <;> rfl

variable {s : Pump}

/-- Holding a result shows its parts after those before it. -/
theorem Pump.hold_observed (h : s.Plain) (hmarks : r.marks = []) :
    ((s.seen r).hold r).observed = s.observed.add r := by
  have hparts : events LineResult.parts [accumulate s.pending r] = _ :=
    events_accumulate (fun _ => rfl) h hmarks
  have hdetection : events LineResult.toolDetectionThinkingParts [accumulate s.pending r] = _ :=
    events_accumulate (fun _ => rfl) h hmarks
  simp [observed, seen, hold, Seen.add, events_append, hparts, hdetection]

theorem Pump.send_observed (hpending : s.pending = none) (r : LineResult) : (s.sendResult r).observed =
      { s.observed with
        parts := s.observed.parts ++ events LineResult.parts [r]
        detection := s.observed.detection ++ events LineResult.toolDetectionThinkingParts [r] } := by
  simp [observed, sendResult, hpending, events_append]

theorem Pump.accept_observed (h : s.Plain) (r : LineResult) :
    ((s.seen r).accept r).observed = s.observed.add r := by
  rw [accept]
  by_cases hacc : r.canAccumulate = true ∧ 0 < r.lineChars
  · rw [if_pos hacc]
    have hhold := hold_observed h (marks_of_canAccumulate hacc.1)
    split_ifs
    · exact hhold
    · rw [flushPending_observed, hhold]
  · rw [if_neg hacc, send_observed (flushPending_pending _), flushPending_observed]
    rfl

theorem Pump.accept_plain (h : s.Plain) (r : LineResult) : ((s.seen r).accept r).Plain := by
  rw [accept]
  by_cases hacc : r.canAccumulate = true ∧ 0 < r.lineChars
  · rw [if_pos hacc]
    split_ifs
    · intro p hp
      cases hp
      exact marks_accumulate h (marks_of_canAccumulate hacc.1)
    · exact flushPending_plain _
  · rw [if_neg hacc]
    exact flushPending_plain (s.seen r)

theorem Pump.accept_type (s : Pump) (r : LineResult) : ((s.seen r).accept r).currentType = r.nextType := by
  rw [accept]
  split_ifs
  · rfl
  · rw [flushPending_type]
    rfl
  · exact flushPending_type (s.seen r)

section runs
variable {F : Type} {φ : FloatFormat F} {num : FloatText F} {thinkingEnabled : Bool}

/-- A run adds the results of its lines, one after another. -/
theorem Pump.run_observed : ∀ (schedule : List PumpAction) {s : Pump}, s.Plain →
    (Runs.run (Pump.step φ num thinkingEnabled) s schedule).map Pump.observed =
      (lineResults φ num thinkingEnabled s.currentType (linesOf schedule)).map (fun results =>
        results.foldl Seen.add s.observed)
  | [], _, _ => rfl
  | .tick :: schedule, s, h => by
    have ih := run_observed schedule s.flushPending_plain
    rw [flushPending_observed, flushPending_type] at ih
    exact ih
  | .line raw :: schedule, s, h => by
    have hlines : linesOf (.line raw :: schedule) = raw :: linesOf schedule := rfl
    rw [hlines, lineResults, Runs.run, step]
    cases hparse : parseDeepSeekContentLine φ num raw thinkingEnabled s.currentType with
    | none => rfl
    | some r =>
      have ih := run_observed schedule (s.accept_plain h r)
      rw [accept_observed h, accept_type] at ih
      simp only [Option.map_some, Option.bind_some, ih, Option.map_map]
      rfl

theorem foldl_add : ∀ (results : List LineResult) (o : Seen), results.foldl Seen.add o =
    ⟨o.parts ++ events LineResult.parts results, o.detection ++ events LineResult.toolDetectionThinkingParts results,
      o.parsed || results.any LineResult.parsed, o.terminal || results.any LineResult.terminal⟩
  | [], o => by simp [events]
  | r :: results, o => by
    rw [List.foldl_cons, foldl_add results]
    simp [Seen.add, events, Bool.or_assoc]

/-- What a receiver has at the end, and the error a clean end calls for. -/
def Seen.report (o : Seen) : View × Option TerminalError :=
  (⟨joinParts o.parts, joinParts o.detection⟩, if o.parsed ∧ ¬ o.terminal then some .unexpectedEOF else none)

theorem Pump.closes (s : Pump) : (view s.flushPending.out, s.terminalError none) = s.observed.report := by
  have hsent : s.observed = { s.observed with
      parts := events LineResult.parts s.flushPending.out
      detection := events LineResult.toolDetectionThinkingParts s.flushPending.out } := by
    conv_lhs => rw [← s.flushPending_observed, observed, s.flushPending_pending]
    rw [← s.flushPending_observed]
    simp [observed]
  rw [hsent, Seen.report, terminalError]
  simp [view, observed]

theorem foldl_report (results : List LineResult) :
    (results.foldl Seen.add {}).report = (view results, eofError results) := by
  rw [foldl_add, Seen.report]
  simp only [List.nil_append, Bool.false_or]
  rfl

/-- Under every schedule the receiver gets what the lines give, grouped anew, and the terminal error at a
    clean end of the body is unexpected exactly when a line was parsed and none was terminal. -/
theorem pump_refines_lines (φ : FloatFormat F) (num : FloatText F) (thinkingEnabled : Bool)
    (initialType : FragmentType) (schedule : List PumpAction) :
    (startParsedLinePump φ num thinkingEnabled initialType schedule none).map (fun r => (view r.1, r.2)) =
      (lineResults φ num thinkingEnabled initialType (linesOf schedule)).map (fun results =>
        (view results, eofError results)) := by
  have hplain : Pump.Plain { currentType := initialType } := fun _ h => by cases h
  calc (startParsedLinePump φ num thinkingEnabled initialType schedule none).map (fun r => (view r.1, r.2))
      = ((Runs.run (Pump.step φ num thinkingEnabled) { currentType := initialType } schedule).map
          Pump.observed).map Seen.report := by
        rw [startParsedLinePump, Option.map_map, Option.map_map]
        congr 1
        funext s
        exact s.closes
    _ = ((lineResults φ num thinkingEnabled initialType (linesOf schedule)).map (fun results =>
          results.foldl Seen.add {})).map Seen.report := by
        rw [Pump.run_observed schedule hplain]
        rfl
    _ = _ := by
        rw [Option.map_map]
        congr 1
        funext results
        exact foldl_report results

end runs

end DeepSeekWebToApi.Sse
