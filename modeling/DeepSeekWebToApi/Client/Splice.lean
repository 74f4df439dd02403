import DeepSeekWebToApi.Client.Continue

/- What the auto-continue pump does over whole runs. A body is a list of lines that are passed
   on and a list of signals, the statuses and message ids its chunks give in order; the state
   the pump keeps is the fold of these signals. From that `autoContinue_splices`: every line of
   every round comes out once, in order, with one end marker exactly when the last round has
   one, and a round is opened only after one that was left incomplete, with the latest id. -/
namespace DeepSeekWebToApi.Client
open GoStrings GoJson Sse

inductive Signal where
  | status (name : Bytes)
  | messageID (id : Int)

def statusSignal (status : Bytes) : List Signal :=
  if trimSpace status = [] then [] else [.status (trimSpace status)]

def idSignal (id : Int) : List Signal := if id > 0 then [.messageID id] else []

/-- A status that ends the response. -/
def ends (status : Bytes) : Bool := equalFold status (lit "FINISHED") || equalFold status (lit "CONTENT_FILTER")

section signals
variable {F : Type} (φ : FloatFormat F) (num : FloatText F)

def autoSignal : Option (Any F) → List Signal
  | some (.bool true) => [.status (lit "AUTO_CONTINUE")]
  | _ => []

def patchSignals (path : Bytes) (value : Option (Any F)) : List Signal :=
  match patchKind path with
  | .status => statusSignal (asString num value)
  | .autoContinue => autoSignal value
  | .other => []

def batchSignals (parentPath : Bytes) : Any F → List Signal
  | .map m =>
    let path := trimSpace (asString num (field m "p"))
    if path = [] then [] else patchSignals num (fullPath parentPath path) (field m "v")
  | _ => []

def responseSignals (response : KeyMap (Any F)) : List Signal :=
  idSignal (intFrom num (field response "message_id")) ++
    (statusSignal (asString num (field response "status")) ++ autoSignal (field response "auto_continue"))

/-- The patches in the value of a chunk. -/
def itemsOf : Option (Any F) → List (Any F)
  | some (.slice patches) => patches
  | _ => []

def chunkSignals (chunk : KeyMap (Any F)) : List Signal :=
  idSignal (intFrom num (field chunk "response_message_id")) ++
    (patchSignals num (asString num (field chunk "p")) (field chunk "v") ++
      ((itemsOf (field chunk "v")).flatMap (batchSignals num (parentOf chunk)) ++
        (responseSignals num (mapAt (mapAt chunk "v") "response") ++
          responseSignals num (mapAt (mapAt chunk "message") "response"))))

def isDoneLine (line : Bytes) : Bool := lineData line = some (lit "[DONE]")

/-- The signals of a line. -/
def lineSignals (line : Bytes) : List Signal :=
  if trimSpace line = [] ∨ isDoneLine line then []
  else
    match lineData line with
    | none => []
    | some data => if trimSpace data = [] then [] else ((unmarshalObject φ data).map (chunkSignals num)).getD []

def bodySignals (body : Bytes) : List Signal := (bodyLines body).flatMap (lineSignals φ num)

/-- The lines of a body that are passed on, each with a newline. -/
def forwarded (body : Bytes) : List Bytes :=
  ((bodyLines body).filter (fun line => trimSpace line ≠ [] && !isDoneLine line)).map terminated

def hasDone (body : Bytes) : Bool := (bodyLines body).any (fun line => trimSpace line ≠ [] && isDoneLine line)

def statuses (signals : List Signal) : List Bytes :=
  signals.filterMap (fun signal => match signal with | .status name => some name | .messageID _ => none)

def messageIDsOf (signals : List Signal) : List Int :=
  signals.filterMap (fun signal => match signal with | .messageID id => some id | .status _ => none)

/-- The last id of the signals, zero where there is none. -/
def latestID (signals : List Signal) : Int := (messageIDsOf signals).getLast?.getD 0

/-- The last status of a body asks for more, and no status of it ends the response. -/
def Incomplete (body : Bytes) : Prop :=
  (∃ last, (statuses (bodySignals φ num body)).getLast? = some last ∧
    (toUpper (trimSpace last) = lit "INCOMPLETE" ∨ toUpper (trimSpace last) = lit "AUTO_CONTINUE")) ∧
  ∀ status ∈ statuses (bodySignals φ num body), ends status = false

/-- What a splice is to be. -/
structure Splice.Lossless (openContinue : Nat → Bytes → Int → Bytes) (sessionID initial : Bytes)
    (maxRounds : Int) (r : Splice) : Prop where
  first : r.bodies.head? = some initial
  rounds : r.bodies.length = r.opened.length + 1
  bounded : (r.opened.length : Int) ≤ max maxRounds 0
  /-- Every line once, in order, and the end marker of the last round. -/
  written : r.written = (r.bodies.flatMap forwarded).flatten ++
    (if r.bodies.getLast?.any hasDone then doneLine else [])
  /-- A round is opened after an incomplete one, with the latest positive id. -/
  continued : ∀ i call, r.opened[i]? = some call → ∃ body, r.bodies[i]? = some body ∧ Incomplete φ num body ∧
    call = (sessionID, latestID ((r.bodies.take (i + 1)).flatMap (bodySignals φ num))) ∧ 0 < call.2 ∧
    r.bodies[i + 1]? = some (openContinue (i + 1) call.1 call.2)

/-! The state is the fold of the signals. -/

def ContinueState.signal (s : ContinueState) : Signal → ContinueState
  | .status name => { s with lastStatus := name, finished := s.finished || ends name }
  | .messageID id => { s with responseMessageID := id }

variable {num}

theorem setStatus_eq (s : ContinueState) (status : Bytes) :
    s.setStatus status = (statusSignal status).foldl ContinueState.signal s := by
  rw [ContinueState.setStatus, statusSignal]
  split_ifs with h
  · rfl
  · simp [ContinueState.signal, ends, Bool.or_assoc]

theorem setMessageID_eq (s : ContinueState) (id : Int) :
    s.setMessageID id = (idSignal id).foldl ContinueState.signal s := by
  rw [ContinueState.setMessageID, idSignal]
  split_ifs <;> rfl

theorem setAutoContinue_eq (s : ContinueState) (value : Option (Any F)) :
    s.setAutoContinue value = (autoSignal value).foldl ContinueState.signal s := by
  have hends : ends (lit "AUTO_CONTINUE") = false := by decide
  rcases value with _ | v
  · rfl
  · cases v with
    | bool b =>
      cases b
      · rfl
      · simp [ContinueState.setAutoContinue, autoSignal, ContinueState.signal, hends]
    | _ => rfl

theorem applyPatch_eq (s : ContinueState) (path : Bytes) (value : Option (Any F)) :
    s.applyPatch num path value = (patchSignals num path value).foldl ContinueState.signal s := by
  rw [ContinueState.applyPatch, patchSignals]
  cases patchKind path with
  | status => exact setStatus_eq s _
  | autoContinue => exact setAutoContinue_eq s value
  | other => rfl

theorem observeBatchPatch_eq (parentPath : Bytes) (s : ContinueState) (it : Any F) :
    s.observeBatchPatch num parentPath it = (batchSignals num parentPath it).foldl ContinueState.signal s := by
  cases it with
  | map m =>
    simp only [ContinueState.observeBatchPatch, batchSignals]
    split_ifs
    · rfl
    · exact applyPatch_eq s _ _
  | _ => rfl

theorem observeBatchPatches_eq (s : ContinueState) (parentPath : Bytes) (raw : Option (Any F)) :
    s.observeBatchPatches num parentPath raw =
      ((itemsOf raw).flatMap (batchSignals num parentPath)).foldl ContinueState.signal s := by
  have hfold : ∀ (items : List (Any F)) (s : ContinueState),
      items.foldl (ContinueState.observeBatchPatch num parentPath) s =
        (items.flatMap (batchSignals num parentPath)).foldl ContinueState.signal s := by
    intro items
    induction items with
    | nil => exact fun _ => rfl
    | cons it items ih =>
      intro s
      rw [List.foldl_cons, ih, observeBatchPatch_eq, List.flatMap_cons, List.foldl_append]
  rcases raw with _ | v
  · rfl
  · cases v with
    | slice items => exact hfold items s
    | _ => rfl

theorem observeResponseObject_eq (s : ContinueState) (response : KeyMap (Any F)) :
    s.observeResponseObject num response = (responseSignals num response).foldl ContinueState.signal s := by
  rw [ContinueState.observeResponseObject, responseSignals, List.foldl_append, List.foldl_append,
    ← setMessageID_eq, ← setStatus_eq, ← setAutoContinue_eq]

theorem observeChunk_eq (s : ContinueState) (chunk : KeyMap (Any F)) :
    s.observeChunk num chunk = (chunkSignals num chunk).foldl ContinueState.signal s := by
  rw [ContinueState.observeChunk, chunkSignals, List.foldl_append, List.foldl_append, List.foldl_append,
    List.foldl_append, ← setMessageID_eq, ContinueState.observeDirectPatch, applyPatch_eq,
    observeBatchPatches_eq, observeResponseObject_eq, observeResponseObject_eq]

/-! Bodies. -/

variable {φ}

theorem streamLine_eq (r : Round) (line : Bytes) : streamLine φ num r line =
    { state := (lineSignals φ num line).foldl ContinueState.signal r.state
      hadDone := r.hadDone || (trimSpace line ≠ [] && isDoneLine line)
      written := r.written ++ (if trimSpace line ≠ [] && !isDoneLine line then terminated line else []) } := by
  rw [streamLine, lineSignals]
  by_cases hblank : trimSpace line = []
  · simp [hblank]
  · cases hdata : lineData line with
    | none => simp [hblank, isDoneLine, hdata]
    | some data =>
      by_cases hdone : data = lit "[DONE]"
      · simp [hblank, isDoneLine, hdata, hdone]
      · have hobserve : r.state.observe φ num data = (if trimSpace data = [] then []
            else ((unmarshalObject φ data).map (chunkSignals num)).getD []).foldl ContinueState.signal r.state := by
          rw [ContinueState.observe]
          split_ifs
          · rfl
          · cases unmarshalObject φ data with
            | none => rfl
            | some chunk => exact observeChunk_eq r.state chunk
        simp [hblank, isDoneLine, hdata, hdone, hobserve]

theorem streamLines_eq : ∀ (lines : List Bytes) (r : Round), lines.foldl (streamLine φ num) r =
    { state := (lines.flatMap (lineSignals φ num)).foldl ContinueState.signal r.state
      hadDone := r.hadDone || lines.any (fun line => trimSpace line ≠ [] && isDoneLine line)
      written := r.written ++
        ((lines.filter (fun line => trimSpace line ≠ [] && !isDoneLine line)).map terminated).flatten }
  | [], r => by simp
  | line :: lines, r => by
    rw [List.foldl_cons, streamLines_eq lines, streamLine_eq, List.flatMap_cons, List.foldl_append,
      List.any_cons, List.filter_cons]
    split_ifs <;> simp [Bool.or_assoc]

/-- A body, as its signals and its lines. -/
theorem streamBody_eq (body : Bytes) (state : ContinueState) : streamBodyWithContinueState φ num body state =
    { state := (bodySignals φ num body).foldl ContinueState.signal state
      hadDone := hasDone body
      written := (forwarded body).flatten } := by
  rw [streamBodyWithContinueState, streamLines_eq, bodySignals, hasDone, forwarded, Bool.false_or, List.nil_append]

theorem foldl_signal : ∀ (signals : List Signal) (s : ContinueState), signals.foldl ContinueState.signal s =
    { s with
      responseMessageID := (messageIDsOf signals).getLast?.getD s.responseMessageID
      lastStatus := (statuses signals).getLast?.getD s.lastStatus
      finished := s.finished || (statuses signals).any ends }
  | [], s => by simp [messageIDsOf, statuses]
  | .status name :: signals, s => by
    rw [List.foldl_cons, foldl_signal signals]
    simp [ContinueState.signal, messageIDsOf, statuses, List.getLast?_cons, Bool.or_assoc]
  | .messageID id :: signals, s => by
    rw [List.foldl_cons, foldl_signal signals]
    simp [ContinueState.signal, messageIDsOf, statuses, List.getLast?_cons]

theorem latestID_append (signals more : List Signal) :
    latestID (signals ++ more) = (messageIDsOf more).getLast?.getD (latestID signals) := by
  rw [latestID, latestID, messageIDsOf, List.filterMap_append, List.getLast?_append]
  cases h : (List.filterMap _ more).getLast? <;> simp [messageIDsOf, h]

/-! Rounds. -/

/-- The state at the start of a round: nothing seen in it yet, and the latest id of the bodies before. -/
structure ContinueState.Fresh (φ : FloatFormat F) (num : FloatText F) (sessionID : Bytes)
    (earlier : List Bytes) (s : ContinueState) : Prop where
  session : s.sessionID = sessionID
  status : s.lastStatus = []
  going : s.finished = false
  latest : s.responseMessageID = latestID (earlier.flatMap (bodySignals φ num))

theorem ContinueState.Fresh.next {sessionID : Bytes} {earlier : List Bytes} {s : ContinueState}
    (h : s.Fresh φ num sessionID earlier) (body : Bytes) :
    (streamBodyWithContinueState φ num body s).state.prepareForNextRound.Fresh φ num sessionID
      (earlier ++ [body]) := by
  rw [streamBody_eq, foldl_signal]
  refine ⟨h.session, rfl, rfl, ?_⟩
  rw [List.flatMap_append, List.flatMap_singleton, latestID_append, ← h.latest]
  rfl

/-- Where the pump goes on, the body was left incomplete and the id is the latest one. -/
theorem ContinueState.Fresh.continues {sessionID : Bytes} {earlier : List Bytes} {s : ContinueState}
    (h : s.Fresh φ num sessionID earlier) {body : Bytes}
    (hgo : (streamBodyWithContinueState φ num body s).state.shouldContinue = true) :
    Incomplete φ num body ∧ 0 < latestID ((earlier ++ [body]).flatMap (bodySignals φ num)) := by
  have hlatest := (h.next body).latest
  rw [ContinueState.shouldContinue] at hgo
  split_ifs at hgo with hstops
  simp only [Bool.or_eq_true, decide_eq_true_eq, not_or] at hstops hgo
  obtain ⟨⟨hfinished, hid⟩, -⟩ := hstops
  rw [← hlatest]
  refine ⟨⟨?_, ?_⟩, ?_⟩
  · rw [streamBody_eq, foldl_signal] at hgo
    simp only [h.status] at hgo
    cases hlast : (statuses (bodySignals φ num body)).getLast? with
    | none =>
      rw [hlast] at hgo
      exact absurd hgo (by decide)
    | some last =>
      rw [hlast] at hgo
      exact ⟨last, rfl, hgo⟩
  · rw [streamBody_eq, foldl_signal] at hfinished
    simp only [h.going, Bool.false_or, Bool.not_eq_true, List.any_eq_false] at hfinished
    intro status hstatus
    exact hfinished status hstatus
  · exact Int.not_le.mp hid

/-- The rounds from one body on, after those before it. -/
structure Splice.From (φ : FloatFormat F) (num : FloatText F) (openContinue : Nat → Bytes → Int → Bytes)
    (sessionID : Bytes) (earlier : List Bytes) (current : Bytes) (remaining past : Nat) (r : Splice) : Prop where
  first : r.bodies.head? = some current
  rounds : r.bodies.length = r.opened.length + 1
  bounded : r.opened.length ≤ remaining
  written : r.written = (r.bodies.flatMap forwarded).flatten ++
    (if r.bodies.getLast?.any hasDone then doneLine else [])
  continued : ∀ i call, r.opened[i]? = some call → ∃ body, r.bodies[i]? = some body ∧ Incomplete φ num body ∧
    call = (sessionID, latestID ((earlier ++ r.bodies.take (i + 1)).flatMap (bodySignals φ num))) ∧ 0 < call.2 ∧
    r.bodies[i + 1]? = some (openContinue (past + i + 1) call.1 call.2)

variable {openContinue : Nat → Bytes → Int → Bytes} {sessionID : Bytes}

/-- The last round. -/
theorem Splice.From.last (earlier : List Bytes) (current : Bytes) (state : ContinueState) (remaining past : Nat) :
    Splice.From φ num openContinue sessionID earlier current remaining past
      { written := (streamBodyWithContinueState φ num current state).written ++
          (if (streamBodyWithContinueState φ num current state).hadDone then doneLine else [])
        bodies := [current] } where
  first := rfl
  rounds := rfl
  bounded := Nat.zero_le _
  written := by
    rw [streamBody_eq, List.flatMap_singleton]
    rfl
  continued i call h := by simp at h

/-- One more round before the others. -/
theorem Splice.From.cons {earlier : List Bytes} {current next : Bytes} {state : ContinueState}
    {remaining past : Nat} {rest : Splice} (hstate : state.Fresh φ num sessionID earlier)
    (hgo : (streamBodyWithContinueState φ num current state).state.shouldContinue = true)
    (hnext : next = openContinue (past + 1) (streamBodyWithContinueState φ num current state).state.sessionID
      (streamBodyWithContinueState φ num current state).state.responseMessageID)
    (h : Splice.From φ num openContinue sessionID (earlier ++ [current]) next remaining (past + 1) rest) :
    Splice.From φ num openContinue sessionID earlier current (remaining + 1) past
      { written := (streamBodyWithContinueState φ num current state).written ++ rest.written
        opened := ((streamBodyWithContinueState φ num current state).state.sessionID,
          (streamBodyWithContinueState φ num current state).state.responseMessageID) :: rest.opened
        bodies := current :: rest.bodies } where
  first := rfl
  rounds := by simp [h.rounds]
  bounded := Nat.succ_le_succ h.bounded
  written := by
    have hne : rest.bodies ≠ [] := by
      rintro hnil
      have := h.rounds
      simp [hnil] at this
    obtain ⟨body, bodies, hbodies⟩ := List.exists_cons_of_ne_nil hne
    simp only [h.written, streamBody_eq, hbodies, List.getLast?_cons_cons, List.flatMap_cons,
      List.flatten_append, List.append_assoc]
  continued i call hcall := by
    cases i with
    | zero =>
      cases hcall
      obtain ⟨hincomplete, hpos⟩ := hstate.continues hgo
      have hlatest := (hstate.next current).latest
      refine ⟨current, rfl, hincomplete, Prod.ext (hstate.next current).session hlatest, ?_, ?_⟩
      · rw [← hlatest] at hpos
        exact hpos
      · show rest.bodies[0]? = _
        rw [← List.head?_eq_getElem?, h.first, hnext]
    | succ i =>
      obtain ⟨body, hbody, hincomplete, hid, hpos, hopened⟩ := h.continued i call hcall
      refine ⟨body, hbody, hincomplete, ?_, hpos, ?_⟩
      · rw [hid, List.append_assoc]
        rfl
      · rw [Nat.add_right_comm past 1 i] at hopened
        exact hopened

theorem pumpRounds_from : ∀ (remaining past : Nat) {state : ContinueState} {earlier : List Bytes} (current : Bytes),
    state.Fresh φ num sessionID earlier →
    Splice.From φ num openContinue sessionID earlier current remaining past
      (pumpRounds φ num openContinue remaining past state current)
  | 0, past, state, earlier, current, _ => Splice.From.last earlier current state 0 past
  | remaining + 1, past, state, earlier, current, hstate => by
    rw [pumpRounds]
    by_cases hgo : (streamBodyWithContinueState φ num current state).state.shouldContinue = true
    · rw [if_pos hgo]
      exact Splice.From.cons hstate hgo rfl (pumpRounds_from remaining (past + 1) _ (hstate.next current))
    · rw [if_neg hgo]
      exact Splice.From.last earlier current state (remaining + 1) past

/-- Whatever bodies upstream gives, the pump splices them without loss. -/
theorem autoContinue_splices (φ : FloatFormat F) (num : FloatText F) (openContinue : Nat → Bytes → Int → Bytes)
    (sessionID initial : Bytes) (maxRounds : Int) :
    (pumpAutoContinue φ num openContinue initial { sessionID } maxRounds).Lossless φ num openContinue
      sessionID initial maxRounds := by
  have hstart : ({ sessionID } : ContinueState).Fresh φ num sessionID [] := ⟨rfl, rfl, rfl, rfl⟩
  obtain ⟨hfirst, hrounds, hbounded, hwritten, hcontinued⟩ :=
    @pumpRounds_from F φ num openContinue sessionID maxRounds.toNat 0 _ _ initial hstart
  refine ⟨hfirst, hrounds, ?_, hwritten, ?_⟩
  · rw [← Int.toNat_eq_max]
    exact Int.ofNat_le.mpr hbounded
  · intro i call hcall
    have hround := hcontinued i call hcall
    rwa [Nat.zero_add, List.nil_append] at hround

end signals

end DeepSeekWebToApi.Client
