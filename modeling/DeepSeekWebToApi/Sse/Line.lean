import DeepSeekWebToApi.Lib.Print
import DeepSeekWebToApi.Sse.Parser

/- One line of the upstream event stream (`internal/sse/line.go`, `content_filter_leak.go`, and
   `observeResponseMessageID` of `consumer.go`). A line is not of the protocol, the end marker,
   or a chunk, which may be an error or a refusal by the content filter. A leaked filter mark
   is cut off at its place in the upper-case text, so the cut is out of range, a panic, where
   upper case makes the text before the mark longer. -/
namespace DeepSeekWebToApi.Sse
open GoStrings GoJson

structure LineResult where
  parsed : Bool := false
  stop : Bool := false
  contentFilter : Bool := false
  errorMessage : Bytes := []
  parts : List ContentPart := []
  toolDetectionThinkingParts : List ContentPart := []
  nextType : FragmentType
  responseMessageID : Int := 0

/-! Leaked filter marks. -/

/-- The text before a leaked mark, if there is one; none at all for a cut out of range. -/
def stripLeakedContentFilterSuffix (text : Bytes) : Option (Bytes × Bool) :=
  match index (toUpper text) (lit "CONTENT_FILTER") with
  | none => some (text, false)
  | some idx => (slice text 0 idx).map (fun before => (trimRight before (runes " \t\r"), true))

def shouldDropCleanedLeakedChunk (cleaned : Bytes) : Bool :=
  if cleaned = [] then true
  else if contains cleaned (lit "\n") then false
  else trimSpace cleaned = []

def filterLeakedContentFilterParts : List ContentPart → Option (List ContentPart)
  | [] => some []
  | p :: parts =>
    (stripLeakedContentFilterSuffix p.text).bind (fun (cleaned, stripped) =>
      (filterLeakedContentFilterParts parts).map (fun out =>
        if stripped && shouldDropCleanedLeakedChunk cleaned then out
        else if stripped then { p with text := cleaned } :: out
        else p :: out))

section lines
variable {F : Type} (φ : FloatFormat F) (num : FloatText F)

/-! Chunks. -/

inductive SSELine (F : Type) where
  | unparsed
  | done
  | chunk (m : KeyMap (Any F))

/-- `json.Unmarshal` into a map; `null` makes it the nil map. -/
def unmarshalObject (data : Bytes) : Option (KeyMap (Any F)) :=
  match Any.unmarshal φ data with
  | some (.map m) => some m
  | some .nil => some []
  | _ => none

def parseDeepSeekSSELine (raw : Bytes) : SSELine F :=
  let line := trimSpace raw
  if line = [] ∨ ¬ hasPrefix line (lit "data:") then .unparsed
  else
    let dataStr := trimSpace (trimPrefix line (lit "data:"))
    if dataStr = lit "[DONE]" then .done
    else
      match unmarshalObject φ dataStr with
      | some m => .chunk m
      | none => .unparsed

def isContentFilter (s : Bytes) : Bool := equalFold (trimSpace s) (lit "content_filter")

/-- A status patch of the content filter, or its code. -/
def namesContentFilter (x : KeyMap (Any F)) : Bool :=
  (contains (toLower (stringAt x "p")) (lit "status") && isContentFilter (stringAt x "v")) ||
    isContentFilter (stringAt x "code")

mutual
def hasContentFilterStatusValue : Any F → Bool
  | .slice items => anyContentFilterItem items
  | .map entries => namesContentFilter entries || anyContentFilterEntry entries
  | _ => false
def anyContentFilterItem : List (Any F) → Bool
  | [] => false
  | item :: items => hasContentFilterStatusValue item || anyContentFilterItem items
def anyContentFilterEntry : List (Bytes × Any F) → Bool
  | [] => false
  | (_, value) :: entries => hasContentFilterStatusValue value || anyContentFilterEntry entries
end

def hasContentFilterStatus (chunk : KeyMap (Any F)) : Bool :=
  isContentFilter (stringAt chunk "code") || hasContentFilterStatusValue (.map chunk)

def intFrom : Option (Any F) → Int
  | some (.float n) => num.truncate n
  | _ => 0

/-- `m[key].(map[string]any)`, the nil map where it is none. -/
def mapAt (m : KeyMap (Any F)) (key : String) : KeyMap (Any F) :=
  match field m key with
  | some (.map x) => x
  | _ => []

/-- The places a message id is looked for, in order; the last positive one counts. -/
def messageIDs (chunk : KeyMap (Any F)) : List Int :=
  [intFrom num (field chunk "response_message_id"),
    intFrom num (field (mapAt (mapAt chunk "v") "response") "message_id"),
    intFrom num (field (mapAt (mapAt chunk "message") "response") "message_id")]

def observeResponseMessageID (chunk : KeyMap (Any F)) (out : Int) : Int :=
  (messageIDs num chunk).foldl (fun out id => if id > 0 then id else out) out

/-! Lines. -/

def parseChunkLine (chunk : KeyMap (Any F)) (thinkingEnabled : Bool) (currentType : FragmentType) :
    Option LineResult :=
  match field chunk "error" with
  | some errObj =>
    some { parsed := true, stop := true, errorMessage := errObj.sprint num, nextType := currentType }
  | none =>
    if stringAt chunk "code" = lit "content_filter" ∨ hasContentFilterStatus chunk then
      some { parsed := true, stop := true, contentFilter := true, nextType := currentType }
    else
      let result := parseSSEChunkForContentDetailed chunk thinkingEnabled currentType
      (filterLeakedContentFilterParts result.parts).bind (fun parts =>
        (filterLeakedContentFilterParts result.detectionThinkingParts).map (fun detectionThinkingParts =>
          { parsed := true
            stop := result.finished
            parts := parts
            toolDetectionThinkingParts := detectionThinkingParts
            nextType := result.nextType
            responseMessageID := observeResponseMessageID num chunk 0 }))

/-- The result of a line; none where a cut is out of range. -/
def parseDeepSeekContentLine (raw : Bytes) (thinkingEnabled : Bool) (currentType : FragmentType) :
    Option LineResult :=
  match parseDeepSeekSSELine φ raw with
  | .unparsed => some { nextType := currentType }
  | .done => some { parsed := true, stop := true, nextType := currentType }
  | .chunk chunk => parseChunkLine num chunk thinkingEnabled currentType

end lines

end DeepSeekWebToApi.Sse
