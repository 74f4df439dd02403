import DeepSeekWebToApi.Sse.Line

/- Continuing an incomplete response (`internal/deepseek/client/client_continue.go`). The pump
   copies the body of the completion line by line and watches the status in its chunks; where
   the response is left incomplete it asks upstream to continue and splices the new body onto
   the output. The end marker of a body is held back, so that the output has one at most.
   Reading and writing do not fail here, and `openContinue` gives the bodies of the rounds. -/
namespace DeepSeekWebToApi.Client
open GoStrings GoJson Sse

structure ContinueState where
  sessionID : Bytes
  responseMessageID : Int := 0
  lastStatus : Bytes := []
  finished : Bool := false

namespace ContinueState

def setStatus (s : ContinueState) (status : Bytes) : ContinueState :=
  let normalized := trimSpace status
  if normalized = [] then s
  else
    { s with
      lastStatus := normalized
      finished := s.finished || equalFold normalized (lit "FINISHED") ||
        equalFold normalized (lit "CONTENT_FILTER") }

def setMessageID (s : ContinueState) (id : Int) : ContinueState :=
  if id > 0 then { s with responseMessageID := id } else s

def shouldContinue (s : ContinueState) : Bool :=
  if s.finished || s.responseMessageID ≤ 0 || trimSpace s.sessionID = [] then false
  else
    let status := toUpper (trimSpace s.lastStatus)
    status = lit "INCOMPLETE" || status = lit "AUTO_CONTINUE"

def prepareForNextRound (s : ContinueState) : ContinueState := { s with finished := false, lastStatus := [] }

end ContinueState

/-! Patches. -/

inductive PatchKind where
  | status
  | autoContinue
  | other
  deriving DecidableEq

/-- A path without the blanks and slashes around it. -/
def bareName (path : Bytes) : Bytes := trimRight (trimLeft (trimSpace path) (runes "/")) (runes "/")

def patchKind (path : Bytes) : PatchKind :=
  if isStatusPath (bareName path) then .status
  else if bareName path = lit "response/auto_continue" ∨ bareName path = lit "auto_continue" then .autoContinue
  else .other

section observe
variable {F : Type} (φ : FloatFormat F) (num : FloatText F)

def asString : Option (Any F) → Bytes
  | none => []
  | some .nil => []
  | some (.text x) => x
  | some v =>
    let s := trimSpace (replaceAll (trimSpace (v.sprint num)) [0] [])
    if s = lit "<nil>" then [] else s

def ContinueState.setAutoContinue (s : ContinueState) : Option (Any F) → ContinueState
  | some (.bool true) => { s with lastStatus := lit "AUTO_CONTINUE" }
  | _ => s

def ContinueState.applyPatch (s : ContinueState) (path : Bytes) (value : Option (Any F)) : ContinueState :=
  match patchKind path with
  | .status => s.setStatus (asString num value)
  | .autoContinue => s.setAutoContinue value
  | .other => s

def ContinueState.observeDirectPatch (s : ContinueState) (path : Bytes) (value : Option (Any F)) :
    ContinueState :=
  s.applyPatch num path value

def ContinueState.observeResponseObject (s : ContinueState) (response : KeyMap (Any F)) : ContinueState :=
  let s := s.setMessageID (intFrom num (field response "message_id"))
  let s := s.setStatus (asString num (field response "status"))
  s.setAutoContinue (field response "auto_continue")

/-- The path of a patch below its parent; a path with a slash is a full one. -/
def fullPath (parentPath path : Bytes) : Bytes :=
  if bareName parentPath ≠ [] ∧ ¬ contains path (lit "/") then bareName parentPath ++ lit "/" ++ path else path

def ContinueState.observeBatchPatch (parentPath : Bytes) (s : ContinueState) : Any F → ContinueState
  | .map m =>
    let path := trimSpace (asString num (field m "p"))
    if path = [] then s else s.applyPatch num (fullPath parentPath path) (field m "v")
  | _ => s

def ContinueState.observeBatchPatches (s : ContinueState) (parentPath : Bytes) :
    Option (Any F) → ContinueState
  | some (.slice patches) => patches.foldl (ContinueState.observeBatchPatch num parentPath) s
  | _ => s

/-- The parent path of the patches in a chunk. -/
def parentOf (chunk : KeyMap (Any F)) : Bytes :=
  if stringAt chunk "p" = lit "response" then lit "response" else []

def ContinueState.observeChunk (s : ContinueState) (chunk : KeyMap (Any F)) : ContinueState :=
  let s := s.setMessageID (intFrom num (field chunk "response_message_id"))
  let s := s.observeDirectPatch num (asString num (field chunk "p")) (field chunk "v")
  let s := s.observeBatchPatches num (parentOf chunk) (field chunk "v")
  let s := s.observeResponseObject num (mapAt (mapAt chunk "v") "response")
  s.observeResponseObject num (mapAt (mapAt chunk "message") "response")

def ContinueState.observe (s : ContinueState) (data : Bytes) : ContinueState :=
  if trimSpace data = [] then s
  else
    match unmarshalObject φ data with
    | none => s
    | some chunk => s.observeChunk num chunk

/-! Bodies. -/

/-- The lines `ReadBytes` gives, each with its newline but perhaps the last. -/
def bodyLines (body : Bytes) : List Bytes := (splitAfter 0x0A body).filter (fun line => line ≠ [])

structure Round where
  state : ContinueState
  hadDone : Bool := false
  written : Bytes := []

/-- The data of an event line. -/
def lineData (line : Bytes) : Option Bytes :=
  let trimmed := trimSpace line
  if hasPrefix trimmed (lit "data:") then some (trimSpace (trimPrefix trimmed (lit "data:"))) else none

def terminated (line : Bytes) : Bytes := if hasSuffix line (lit "\n") then line else line ++ lit "\n"

def streamLine (r : Round) (line : Bytes) : Round :=
  if trimSpace line = [] then r
  else
    match lineData line with
    | some data =>
      if data = lit "[DONE]" then { r with hadDone := true }
      else { r with state := r.state.observe φ num data, written := r.written ++ terminated line }
    | none => { r with written := r.written ++ terminated line }

def streamBodyWithContinueState (body : Bytes) (state : ContinueState) : Round :=
  (bodyLines body).foldl (streamLine φ num) { state }

/-- What the pump wrote, the continues it opened, and the bodies it copied. -/
structure Splice where
  written : Bytes
  opened : List (Bytes × Int) := []
  bodies : List Bytes

def doneLine : Bytes := lit "data: [DONE]\n"

/-- The rounds from one body on, of which `remaining` may still be opened; `openContinue` gives the body of
    a round for its number, the session and the message id. -/
def pumpRounds (openContinue : Nat → Bytes → Int → Bytes) : Nat → Nat → ContinueState → Bytes → Splice
  | 0, _, state, current =>
    let r := streamBodyWithContinueState φ num current state
    { written := r.written ++ (if r.hadDone then doneLine else []), bodies := [current] }
  | remaining + 1, rounds, state, current =>
    let r := streamBodyWithContinueState φ num current state
    if r.state.shouldContinue then
      let next := openContinue (rounds + 1) r.state.sessionID r.state.responseMessageID
      let rest := pumpRounds openContinue remaining (rounds + 1) r.state.prepareForNextRound next
      { written := r.written ++ rest.written
        opened := (r.state.sessionID, r.state.responseMessageID) :: rest.opened
        bodies := current :: rest.bodies }
    else { written := r.written ++ (if r.hadDone then doneLine else []), bodies := [current] }

def pumpAutoContinue (openContinue : Nat → Bytes → Int → Bytes) (initial : Bytes) (state : ContinueState)
    (maxRounds : Int) : Splice :=
  pumpRounds φ num openContinue maxRounds.toNat 0 state initial

end observe

end DeepSeekWebToApi.Client
