import DeepSeekWebToApi.Lib.JsonAny
import DeepSeekWebToApi.Lib.Regexp
import DeepSeekWebToApi.Lib.UpperCase

/- Decoding one chunk of the upstream event stream (`internal/sse/parser.go`,
   `deepseek/protocol/constants_shared.json`). A chunk is a patch: a path `p`, an operation
   `o` and a value `v`, which is a text, a list of patches or of fragments, or an object. The
   decoder collects the texts it finds, each with the type of its fragment, or reports that
   the response is finished. -/
namespace DeepSeekWebToApi.Sse
open GoStrings GoJson GoRegexp

/-- The type of a fragment. The source has a string, which is empty where none is known. -/
inductive FragmentType where
  | unset
  | text
  | thinking
  deriving DecidableEq, Repr

structure ContentPart where
  text : Bytes
  type : FragmentType
  deriving DecidableEq, Repr

/-! Paths. -/

def skipContainsPatterns : List Bytes :=
  [lit "quasi_status", lit "elapsed_secs", lit "pending_fragment", lit "conversation_mode",
    lit "fragments/-1/status", lit "fragments/-2/status", lit "fragments/-3/status"]

def skipExactPathSet : List Bytes := [lit "response/search_status"]

def trimPrefix (s p : Bytes) : Bytes := if hasPrefix s p then s.drop p.length else s

def isFragmentStatusPath (path : Bytes) : Bool :=
  if path = [] ∨ path = lit "response/status" then false
  else if ¬ hasPrefix path (lit "response/fragments/") ∨ ¬ hasSuffix path (lit "/status") then false
  else
    let mid := trimSuffix (trimPrefix path (lit "response/fragments/")) (lit "/status")
    if mid = [] then false
    else
      let mid := trimPrefix mid (lit "-")
      if mid = [] then false else (splitRunes mid).all (fun g => 0x30 ≤ g.1 && g.1 ≤ 0x39)

def shouldSkipPath (path : Bytes) : Bool :=
  isFragmentStatusPath path || skipExactPathSet.contains path ||
    skipContainsPatterns.any (fun p => contains path p)

def isStatusPath (path : Bytes) : Bool :=
  path = lit "response/status" || path = lit "status" || path = lit "response/quasi_status" ||
    path = lit "quasi_status"

section decoder
variable {F : Type}

def field (m : KeyMap (Any F)) (key : String) : Option (Any F) := m.get (lit key)

/-- `m[key].(string)`, empty where it is no string. -/
def stringAt (m : KeyMap (Any F)) (key : String) : Bytes :=
  match field m key with
  | some (.text s) => s
  | _ => []

def isFinished (s : Bytes) : Bool := equalFold (trimSpace s) (lit "FINISHED")

/-! Types. -/

def updateTypeFromExplicitPath (path : Bytes) (thinkingEnabled : Bool) (newType : FragmentType) : FragmentType :=
  if path = lit "response/content" then .text
  else if path = lit "response/thinking_content" ∧ (thinkingEnabled = false ∨ newType ≠ .text) then .thinking
  else newType

/-- The type a fragment names, if it names one. -/
def namedType (m : KeyMap (Any F)) : Option FragmentType :=
  let typeName := toUpper (stringAt m "type")
  if typeName = lit "THINK" ∨ typeName = lit "THINKING" then some .thinking
  else if typeName = lit "RESPONSE" then some .text
  else none

def updateTypeFromFragment (newType : FragmentType) : Any F → FragmentType
  | .map m => (namedType m).getD newType
  | _ => newType

def updateTypeFromPatch (newType : FragmentType) : Any F → FragmentType
  | .map m =>
    match field m "p", field m "o", field m "v" with
    | some (.text p), some (.text o), some (.slice frags) =>
      if p = lit "fragments" ∧ o = lit "APPEND" then frags.foldl updateTypeFromFragment newType else newType
    | _, _, _ => newType
  | _ => newType

def updateTypeFromNestedResponse (path : Bytes) (v : Any F) (newType : FragmentType) : FragmentType :=
  match v with
  | .slice arr => if path = lit "response" then arr.foldl updateTypeFromPatch newType else newType
  | _ => newType

def resolvePartType (path : Bytes) (thinkingEnabled : Bool) (newType : FragmentType) : FragmentType :=
  if path = lit "response/thinking_content" then
    if thinkingEnabled = false then .thinking else if newType = .text then .text else .thinking
  else if path = lit "response/content" then .text
  else if contains path (lit "response/fragments") ∧ contains path (lit "/content") then newType
  else if path = [] then (if newType ≠ .unset then newType else .text)
  else .text

/-! Fragments. -/

/-- `appendContentPart`: nothing is appended for an empty text. -/
def partOf (content : Bytes) (kind : FragmentType) : List ContentPart :=
  if content = [] then [] else [⟨content, kind⟩]

/-- One fragment of a list: its type becomes the current one if it names it, and its part has the
    type `kind` if it does not. -/
def appendFragment (kind : FragmentType) (acc : FragmentType × List ContentPart) :
    Any F → FragmentType × List ContentPart
  | .map m => ((namedType m).getD acc.1, acc.2 ++ partOf (stringAt m "content") ((namedType m).getD kind))
  | _ => acc

/-- Are these the fragments a chunk appends to the response? -/
def appendsFragments (path : Bytes) (chunk : KeyMap (Any F)) : Bool :=
  path = lit "response/fragments" && equalFold (stringAt chunk "o") (lit "APPEND")

def collectDirectFragments (path : Bytes) (chunk : KeyMap (Any F)) (v : Any F) (newType : FragmentType) :
    FragmentType × List ContentPart :=
  match v with
  | .slice frags =>
    if appendsFragments path chunk then frags.foldl (appendFragment .text) (newType, []) else (newType, [])
  | _ => (newType, [])

/-- The object that holds the fragments: the one under `response`, if there is one. -/
def wrapped (val : KeyMap (Any F)) : KeyMap (Any F) :=
  match field val "response" with
  | some (.map resp) => resp
  | _ => val

def fragmentsOf (resp : KeyMap (Any F)) : List (Any F) :=
  match field resp "fragments" with
  | some (.slice frags) => frags
  | _ => []

def appendWrappedFragments (val : KeyMap (Any F)) (partType : FragmentType)
    (acc : FragmentType × List ContentPart) : FragmentType × List ContentPart :=
  (fragmentsOf (wrapped val)).foldl (appendFragment partType) acc

/-! Values. -/

/-- The paths on which an object is a text of its own. -/
def isTextPath (path : Bytes) : Bool :=
  path = lit "response/content" || path = lit "response/thinking_content" || path = []

/-- The text of an object, under either name. -/
def leadText (val : KeyMap (Any F)) : Bytes :=
  if stringAt val "text" = [] then stringAt val "content" else stringAt val "text"

/-- What an element of a patch's list adds. -/
def innerParts (partType : FragmentType) : Any F → List ContentPart
  | .map x => partOf (stringAt x "content") ((namedType x).getD partType)
  | .text x => partOf x partType
  | _ => []

def patchType (itemPath : Bytes) (defaultType : FragmentType) : FragmentType :=
  if contains itemPath (lit "thinking") then .thinking
  else if contains itemPath (lit "content") ∨ itemPath = lit "response" ∨ itemPath = lit "fragments" then .text
  else defaultType

def patchValueParts (partType : FragmentType) : Any F → List ContentPart
  | .text v => if v = lit "FINISHED" then [] else partOf v partType
  | .slice items => items.flatMap (innerParts partType)
  | _ => []

/-- One patch of a list; none where it finishes the response. -/
def extractPatch (defaultType : FragmentType) (m : KeyMap (Any F)) (itemV : Any F) : Option (List ContentPart) :=
  let itemPath := stringAt m "p"
  if isStatusPath itemPath then
    match itemV with
    | .text s => if isFinished s then none else some []
    | _ => some []
  else if shouldSkipPath itemPath then some []
  else
    let content := stringAt m "content"
    if content ≠ [] then some [⟨content, (namedType m).getD defaultType⟩]
    else some (patchValueParts (patchType itemPath defaultType) itemV)

def extractItem (defaultType : FragmentType) : Any F → Option (List ContentPart)
  | .map m =>
    match field m "v" with
    | some itemV => extractPatch defaultType m itemV
    | none => some []
  | _ => some []

/-- The parts of a list of patches; none where one of them finishes the response. -/
def extractContentRecursive (defaultType : FragmentType) : List (Any F) → Option (List ContentPart)
  | [] => some []
  | it :: items =>
    (extractItem defaultType it).bind (fun parts =>
      (extractContentRecursive defaultType items).map (fun rest => parts ++ rest))

/-- The current type and the parts after the value of a chunk; none where it finishes the response. -/
def appendChunkValueContent (v : Any F) (partType : FragmentType) (acc : FragmentType × List ContentPart)
    (path : Bytes) : Option (FragmentType × List ContentPart) :=
  match v with
  | .text val =>
    if val = lit "FINISHED" ∧ (path = [] ∨ path = lit "status") then none
    else if isStatusPath path then some acc
    else some (acc.1, acc.2 ++ partOf val partType)
  | .slice val => (extractContentRecursive partType val).map (fun parts => (acc.1, acc.2 ++ parts))
  | .map val =>
    if isTextPath path ∧ leadText val ≠ [] then some (acc.1, acc.2 ++ partOf (leadText val) partType)
    else some (appendWrappedFragments val partType acc)
  | _ => some acc

/-! Think tags. -/

def thinkClosePattern : Re := .seqs [.text "</", .spaces, .textFold "think", .spaces, .text ">"]

def thinkOpenPattern : Re := .seqs [.text "<", .spaces, .textFold "think", .spaces, .text ">"]

def stripThinkTags (s : Bytes) : Bytes :=
  thinkOpenPattern.replaceAll (thinkClosePattern.replaceAll s (fun _ => [])) (fun _ => [])

/-- What follows the end of the thinking is text. -/
def splitThinkingParts : Bool → List ContentPart → List ContentPart × Bool
  | thinkingDone, [] => ([], thinkingDone)
  | thinkingDone, p :: parts =>
    if p.type ≠ .thinking ∨ thinkingDone then
      let rest := splitThinkingParts thinkingDone parts
      (partOf (stripThinkTags p.text) (if p.type = .thinking then .text else p.type) ++ rest.1, rest.2)
    else
      match thinkClosePattern.find p.text with
      | none =>
        let rest := splitThinkingParts false parts
        (p :: rest.1, rest.2)
      | some loc =>
        let rest := splitThinkingParts true parts
        (partOf (p.text.take loc.start) .thinking ++ partOf (stripThinkTags (p.text.drop loc.stop)) .text ++
          rest.1, rest.2)

/-! Chunks. -/

structure ChunkResult where
  parts : List ContentPart := []
  detectionThinkingParts : List ContentPart := []
  finished : Bool := false
  nextType : FragmentType

def selectThinkingParts (parts : List ContentPart) : List ContentPart :=
  parts.filter (fun p => p.type = .thinking)

def dropThinkingParts (parts : List ContentPart) : List ContentPart :=
  parts.filter (fun p => p.type ≠ .thinking)

/-- What is collected from the value of a chunk, the types it goes through first. -/
def collected (chunk : KeyMap (Any F)) (path : Bytes) (v : Any F) (thinkingEnabled : Bool)
    (currentFragmentType : FragmentType) : FragmentType × Option (FragmentType × List ContentPart) :=
  let newType := updateTypeFromExplicitPath path thinkingEnabled currentFragmentType
  let direct := collectDirectFragments path chunk v newType
  let newType := updateTypeFromNestedResponse path v direct.1
  (newType,
    appendChunkValueContent v (resolvePartType path thinkingEnabled newType) (newType, direct.2) path)

/-- The status a chunk sets. -/
def statusText (path : Bytes) : Any F → Option Bytes
  | .text s => if isStatusPath path then some s else none
  | _ => none

/-- The result for what was collected. -/
def collectedResult (thinkingEnabled : Bool) :
    FragmentType × Option (FragmentType × List ContentPart) → ChunkResult
  | (newType, none) => { finished := true, nextType := newType }
  | (_, some (newType, parts)) =>
    let (parts, transitioned) := splitThinkingParts false parts
    { parts := if thinkingEnabled then parts else dropThinkingParts parts
      detectionThinkingParts := selectThinkingParts parts
      nextType := if transitioned then .text else newType }

def parseSSEChunkForContentDetailed (chunk : KeyMap (Any F)) (thinkingEnabled : Bool)
    (currentFragmentType : FragmentType) : ChunkResult :=
  match field chunk "v" with
  | none => { nextType := currentFragmentType }
  | some v =>
    let path := stringAt chunk "p"
    if shouldSkipPath path then { nextType := currentFragmentType }
    else
      match statusText path v with
      | some s => { finished := isFinished s, nextType := currentFragmentType }
      | none => collectedResult thinkingEnabled (collected chunk path v thinkingEnabled currentFragmentType)

end decoder

end DeepSeekWebToApi.Sse
