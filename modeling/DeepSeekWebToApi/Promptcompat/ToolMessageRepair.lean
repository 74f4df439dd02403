import DeepSeekWebToApi.Prompt.ToolCalls
import DeepSeekWebToApi.Promptcompat.Compress
import DeepSeekWebToApi.Lib.RuneText

/- Repairing the tool messages of a request (`promptcompat/tool_message_repair.go`): every tool
   call gets an id and is open until a result takes it, and every result gets the id of a call: the
   open call with its id, else the first open call with its name, else the only open call (or, for
   a result without an id, the first), else its own id or a generated one.

   `strings.EqualFold` is the parameter `fold`. -/
namespace DeepSeekWebToApi.Promptcompat
open GoStrings GoJson
open Sse (field stringAt)
open Prompt (stringifyToolCallArguments normalizeContentItems)

section
variable {F : Type}

structure PendingToolCall where
  id : Bytes
  name : Bytes
  deriving DecidableEq

/-- `toolMessageRepairState`. -/
structure RepairState where
  pending : List PendingToolCall := []
  nextID : Nat := 0
  deriving DecidableEq

/-- `firstNonEmptyString` of the values a map has under the keys. -/
def firstNonEmptyString (m : KeyMap (Any F)) : List String → Bytes
  | [] => []
  | key :: keys =>
    let text := trimSpace (stringAt m key)
    if text ≠ [] then text else firstNonEmptyString m keys

/-- The first value that is there and not nil, nil where there is none. -/
def firstExisting (m : KeyMap (Any F)) : List String → Any F
  | [] => .nil
  | key :: keys =>
    match field m key with
    | none | some .nil => firstExisting m keys
    | some value => value

def itemType (m : KeyMap (Any F)) : Bytes := toLower (trimSpace (stringAt m "type"))

def isToolResultBlock (block : KeyMap (Any F)) : Bool :=
  itemType block ∈ [lit "tool_result", lit "function_call_output", lit "tooloutput", lit "tool_output"]

/-- The types of a tool call item. -/
def isToolCallBlock (block : KeyMap (Any F)) : Bool :=
  itemType block ∈ [lit "function_call", lit "tool_call", lit "tool_use", lit "toolcall", lit "tool_use_call"]

def isTextBlock (block : KeyMap (Any F)) : Bool :=
  itemType block ∈ [lit "text", lit "input_text", lit "output_text"]

def textFromContentBlock (block : KeyMap (Any F)) : Bytes :=
  if isTextBlock block then firstNonEmptyString block ["text", "content"] else []

def hasToolResultShape (msg : KeyMap (Any F)) : Bool :=
  if firstNonEmptyString msg ["tool_call_id", "call_id", "tool_use_id", "callId", "toolCallId", "toolUseId"] ≠ [] then
    true
  else if isToolResultBlock msg then true
  else
    match field msg "content" with
    | some (.map block) => isToolResultBlock block
    | _ => false

def normalizeOpenAIRoleForPrompt (role : Bytes) : Bytes :=
  let role := toLower (trimSpace role)
  if role = lit "developer" then lit "system" else role

/-! The state. -/

namespace RepairState

/-- The id `nextToolCallID` gives. -/
def generatedID (s : RepairState) : Bytes := lit "call_repaired_" ++ formatNat (s.nextID + 1)

def nextToolCallID (s : RepairState) : RepairState × Bytes := ({ s with nextID := s.nextID + 1 }, s.generatedID)

end RepairState

/-- The first pending call of a kind, and the calls without it (`removePendingToolCall`). -/
def takePending (p : PendingToolCall → Bool) : List PendingToolCall → Option (PendingToolCall × List PendingToolCall)
  | [] => none
  | call :: pending =>
    if p call then some (call, pending)
    else (takePending p pending).map fun (taken, rest) => (taken, call :: rest)

/-- `consumePendingToolCall`: the id and the name the result gets. -/
def RepairState.consumePendingToolCall (fold : Bytes → Bytes → Bool) (s : RepairState) (callID name : Bytes) :
    RepairState × Bytes × Bytes :=
  let callID := trimSpace callID
  let name := trimSpace name
  match if callID ≠ [] then takePending (fun call => call.id = callID) s.pending else none with
  | some (call, pending) => ({ s with pending := pending }, callID, if name = [] then call.name else name)
  | none =>
    match if name ≠ [] then takePending (fun call => fold call.name name) s.pending else none with
    | some (call, pending) => ({ s with pending := pending }, call.id, name)
    | none =>
      match s.pending with
      | call :: pending =>
        if pending.length = 0 ∨ callID = [] then
          ({ s with pending := pending }, call.id, if name = [] then call.name else name)
        else (s, callID, name)
      | [] =>
        if callID = [] then
          let (s, callID) := s.nextToolCallID
          (s, callID, name)
        else (s, callID, name)

/-! Calls. -/

def nameKeys : List String :=
  ["name", "tool_name", "function_name", "recipient_name", "toolName", "functionName"]

def argumentKeys : List String :=
  ["arguments", "input", "args", "parameters", "params", "arguments_json", "input_json"]

/-- `call["function"]` where it is a map. -/
def functionOf (call : KeyMap (Any F)) : Option (KeyMap (Any F)) :=
  match field call "function" with
  | some (.map fn) => some fn
  | _ => none

/-- The name of a tool call, empty where it has none. -/
def callName (call : KeyMap (Any F)) : Bytes :=
  let name := firstNonEmptyString call nameKeys
  if name = [] then
    match functionOf call with
    | some fn => firstNonEmptyString fn ["name", "tool_name", "function_name", "toolName", "functionName"]
    | none => []
  else name

/-- The id a tool call comes with, empty where it has none. -/
def explicitID (call : KeyMap (Any F)) : Bytes :=
  firstNonEmptyString call ["id", "call_id", "tool_call_id", "tool_use_id", "callId", "toolCallId", "toolUseId"]

def argumentsOf (call : KeyMap (Any F)) : Any F :=
  match firstExisting call argumentKeys, functionOf call with
  | .nil, some fn => firstExisting fn argumentKeys
  | argsRaw, _ => argsRaw

/-- The repaired form of a call. -/
def functionCall (φ : FloatFormat F) (id : Bytes) (call : KeyMap (Any F)) : KeyMap (Any F) :=
  [(lit "function", .map [(lit "arguments", .text (stringifyToolCallArguments φ (argumentsOf call))),
      (lit "name", .text (callName call))]),
    (lit "id", .text id), (lit "type", .text (lit "function"))]

/-- `repairToolCall`: nothing for a call without a name. -/
def repairToolCall (φ : FloatFormat F) (s : RepairState) (call : KeyMap (Any F)) :
    RepairState × Option (KeyMap (Any F)) :=
  if callName call = [] then (s, none)
  else
    let (s, id) := if explicitID call = [] then s.nextToolCallID else (s, explicitID call)
    (s, some (functionCall φ id call))

/-- The calls among the items of a list, each repaired. -/
def repairCallItems (φ : FloatFormat F) : RepairState → List (Any F) → RepairState × List (KeyMap (Any F))
  | s, [] => (s, [])
  | s, .map call :: items =>
    let (s, repaired) := repairToolCall φ s call
    let (s, calls) := repairCallItems φ s items
    (s, repaired.toList ++ calls)
  | s, _ :: items => repairCallItems φ s items

/-- What `recordPendingToolCalls` records of a call. -/
def recorded (call : KeyMap (Any F)) : Option PendingToolCall :=
  let id := firstNonEmptyString call ["id", "call_id", "tool_call_id", "callId", "toolCallId"]
  if id = [] then none
  else
    let name := firstNonEmptyString call ["name"]
    match functionOf call with
    | some fn => some ⟨id, if name = [] then firstNonEmptyString fn ["name"] else name⟩
    | none => some ⟨id, name⟩

def RepairState.recordPendingToolCalls (s : RepairState) (calls : List (KeyMap (Any F))) : RepairState :=
  { s with pending := s.pending ++ calls.filterMap recorded }

/-- The items of a `tool_calls` field. -/
def toolCallItems : Option (Any F) → List (Any F)
  | some (.slice items) => items
  | some (.map call) => [.map call]
  | _ => []

def repairToolCalls (φ : FloatFormat F) (s : RepairState) (raw : Option (Any F)) :
    RepairState × List (KeyMap (Any F)) :=
  let (s, calls) := repairCallItems φ s (toolCallItems raw)
  (s.recordPendingToolCalls calls, calls)

def assistantMessageFromToolCallItem (φ : FloatFormat F) (s : RepairState) (item : KeyMap (Any F)) :
    RepairState × Option (KeyMap (Any F)) :=
  match repairToolCall φ s item with
  | (s, none) => (s, none)
  | (s, some call) =>
    (s.recordPendingToolCalls [call],
      some [(lit "role", .text (lit "assistant")), (lit "tool_calls", .slice [.map call])])

/-- The blocks of an assistant's content: the texts and the repaired calls. -/
def repairBlocks (φ : FloatFormat F) : RepairState → List (Any F) → RepairState × List Bytes × List (KeyMap (Any F))
  | s, [] => (s, [], [])
  | s, .map block :: items =>
    if isToolCallBlock block then
      let (s, repaired) := repairToolCall φ s block
      let (s, textParts, toolCalls) := repairBlocks φ s items
      (s, textParts, repaired.toList ++ toolCalls)
    else
      let text := if isTextBlock block then textFromContentBlock block
        else trimSpace (normalizeContentItems [.map block])
      let (s, textParts, toolCalls) := repairBlocks φ s items
      (s, if trimSpace text ≠ [] then text :: textParts else textParts, toolCalls)
  | s, _ :: items => repairBlocks φ s items

/-- `repairAssistantContentBlocks`: nothing where the content has no calls. -/
def repairAssistantContentBlocks (φ : FloatFormat F) (s : RepairState) (msg : KeyMap (Any F)) :
    RepairState × Option (KeyMap (Any F)) :=
  match field msg "content" with
  | some (.slice items) =>
    let (s, textParts, toolCalls) := repairBlocks φ s items
    if toolCalls.length = 0 then (s, none)
    else
      let out := KeyMap.erase msg (lit "content")
      let out := if textParts.length > 0 then KeyMap.insert (lit "content") (.text (join (lit "\n") textParts)) out else out
      (s.recordPendingToolCalls toolCalls, some (KeyMap.insert (lit "tool_calls") (.slice (toolCalls.map .map)) out))
  | _ => (s, none)

/-! Results. -/

variable (fold : Bytes → Bytes → Bool)

def contentKeys : List String := ["content", "output", "result", "text", "observation", "data"]

/-- The id a result comes with, empty where it has none. -/
def resultID (msg : KeyMap (Any F)) : Bytes :=
  firstNonEmptyString msg ["tool_call_id", "call_id", "tool_use_id", "id", "callId", "toolCallId", "toolUseId"]

def resultContent (msg : KeyMap (Any F)) : Any F :=
  let content :=
    match firstExisting msg contentKeys with
    | .map block => if isToolResultBlock block then firstExisting block contentKeys else .map block
    | content => content
  match content with
  | .nil => .text []
  | content => content

def repairToolResultMessage (s : RepairState) (msg : KeyMap (Any F)) : RepairState × KeyMap (Any F) :=
  let (s, callID, name) := s.consumePendingToolCall fold (resultID msg) (firstNonEmptyString msg nameKeys)
  let out : KeyMap (Any F) := [(lit "content", resultContent msg), (lit "role", .text (lit "tool")),
    (lit "tool_call_id", .text callID)]
  (s, if name ≠ [] then KeyMap.insert (lit "name") (.text name) out else out)

/-- `flushText`. -/
def flushText (role : Bytes) (textParts : List Bytes) : List (Any F) :=
  if textParts.length = 0 then []
  else
    let role := if trimSpace role = [] then lit "user" else role
    [.map [(lit "content", .text (join (lit "\n") textParts)), (lit "role", .text role)]]

/-- The blocks of a content with results, behind texts that wait. -/
def repairResultBlocks (role : Bytes) : RepairState → List Bytes → List (Any F) → RepairState × List (Any F) × Bool
  | s, textParts, [] => (s, flushText role textParts, false)
  | s, textParts, .map block :: items =>
    if isToolResultBlock block then
      let (s, result) := repairToolResultMessage fold s block
      let (s, out, _) := repairResultBlocks role s [] items
      (s, flushText role textParts ++ .map result :: out, true)
    else
      let text := textFromContentBlock block
      repairResultBlocks role s (if trimSpace text ≠ [] then textParts ++ [text] else textParts) items
  | s, textParts, _ :: items => repairResultBlocks role s textParts items

/-- `repairToolResultsFromContent`: nothing where the content has no results. -/
def repairToolResultsFromContent (s : RepairState) (role : Bytes) (content : Option (Any F)) :
    RepairState × List (Any F) :=
  match content with
  | some (.slice items) =>
    let (s, out, foundToolResult) := repairResultBlocks fold (normalizeOpenAIRoleForPrompt role) s [] items
    (s, if foundToolResult then out else [])
  | some (.map block) =>
    if isToolResultBlock block then
      let (s, result) := repairToolResultMessage fold s block
      (s, [.map result])
    else (s, [])
  | _ => (s, [])

/-! Messages. -/

/-- The result a message stands for. -/
def repairedResult (s : RepairState) (msg : KeyMap (Any F)) : RepairState × List (Any F) :=
  let (s, result) := repairToolResultMessage fold s msg
  (s, [.map result])

/-- The results in the content of a message, or a copy of it. -/
def repairContent (s : RepairState) (role : Bytes) (msg : KeyMap (Any F)) : RepairState × List (Any F) :=
  match repairToolResultsFromContent fold s role (field msg "content") with
  | (s, []) => (s, [.map msg])
  | (s, split) => (s, split)

/-- The branches by role. -/
def repairByRole (φ : FloatFormat F) (s : RepairState) (role : Bytes) (msg : KeyMap (Any F)) :
    RepairState × List (Any F) :=
  if role = lit "assistant" then
    match repairAssistantContentBlocks φ s msg with
    | (s, some out) => (s, [.map out])
    | (s, none) =>
      match repairToolCalls φ s (field msg "tool_calls") with
      | (s, []) => (s, [.map msg])
      | (s, calls) => (s, [.map (KeyMap.insert (lit "tool_calls") (.slice (calls.map .map)) msg)])
  else if role = lit "tool" ∨ role = lit "function" then repairedResult fold s msg
  else if role = lit "user" ∧ hasToolResultShape msg then repairedResult fold s msg
  else repairContent fold s role msg

def repairOpenAIToolMessage (φ : FloatFormat F) (s : RepairState) (msg : KeyMap (Any F)) :
    RepairState × List (Any F) :=
  let role := messageRole (.map msg)
  if role = [] ∧ isToolResultBlock msg then repairedResult fold s msg
  else if role = [] ∧ isToolCallBlock msg then
    match assistantMessageFromToolCallItem φ s msg with
    | (s, some assistant) => (s, [.map assistant])
    | (s, none) => repairByRole fold φ s role msg
  else repairByRole fold φ s role msg

/-- The loop over the messages; what is no map is left out. -/
def repairFrom (φ : FloatFormat F) : RepairState → List (Any F) → List (Any F)
  | _, [] => []
  | s, .map msg :: raw =>
    let (s, repaired) := repairOpenAIToolMessage fold φ s msg
    repaired ++ repairFrom φ s raw
  | s, _ :: raw => repairFrom φ s raw

def repairOpenAIToolMessages (φ : FloatFormat F) (raw : List (Any F)) : List (Any F) := repairFrom fold φ {} raw

end

end DeepSeekWebToApi.Promptcompat
