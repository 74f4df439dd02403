import DeepSeekWebToApi.Sse.Parser

/- The texts of contents and of tool arguments (`prompt/messages.go`, `prompt/tool_calls.go`). -/
namespace DeepSeekWebToApi.Prompt
open GoStrings GoJson
open Sse (field stringAt)

variable {F : Type}

/-- The text of one block of a content. -/
def contentPart : Any F → Option Bytes
  | .map m =>
    let typeStr := toLower (trimSpace (stringAt m "type"))
    if typeStr = lit "text" ∨ typeStr = lit "output_text" ∨ typeStr = lit "input_text" then
      if stringAt m "text" ≠ [] then some (stringAt m "text")
      else if stringAt m "content" ≠ [] then some (stringAt m "content")
      else none
    else none
  | _ => none

/-- `NormalizeContent` of a slice. -/
def normalizeContentItems (items : List (Any F)) : Bytes := join (lit "\n") (items.filterMap contentPart)

/-- `Decode` into an `any`: the next value and what is behind it. -/
def decodeNext (φ : FloatFormat F) (s : Bytes) : Option (Any F × Bytes) :=
  (readValue (s.length + 1) maxDepth s).bind fun (value, rest) => (Any.read φ value).map fun first => (first, rest)

def looksLikeConcatenatedJSON (φ : FloatFormat F) (raw : Bytes) : Bool :=
  let trimmed := trimSpace raw
  if trimmed = [] then false
  else if contains trimmed (lit "\x7d\x7b") || contains trimmed (lit "][") then true
  else
    match decodeNext φ trimmed with
    | none => false
    | some (_, rest) => (decodeNext φ rest).isSome

def normalizeToolArgumentString (φ : FloatFormat F) (raw : Bytes) : Bytes :=
  let trimmed := trimSpace raw
  if trimmed = [] then []
  else if looksLikeConcatenatedJSON φ trimmed then raw
  else trimmed

def stringifyToolCallArguments (φ : FloatFormat F) : Any F → Bytes
  | .nil => lit "\x7b\x7d"
  | .text x =>
    let s := trimSpace x
    if s = [] then lit "\x7b\x7d"
    else
      let s := normalizeToolArgumentString φ s
      if s = [] then lit "\x7b\x7d" else s
  | x =>
    match x.marshal φ with
    | none => lit "\x7b\x7d"
    | some b => if b.length = 0 then lit "\x7b\x7d" else b

end DeepSeekWebToApi.Prompt
