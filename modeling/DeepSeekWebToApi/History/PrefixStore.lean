import DeepSeekWebToApi.Lib.KeyMap
import DeepSeekWebToApi.Lib.Text
import DeepSeekWebToApi.Lib.Runs
import Mathlib.Data.List.Sort

/- The store of transcript prefixes (`internal/httpapi/openai/history/current_input_prefix.go`).

   `plan` cuts a transcript in two: a prefix that stays the same from turn to turn and the
   turns behind it. A prefix that was stored for the session is used again if the transcript
   still starts with it; otherwise the transcript is cut anew before one of its entries.
   Every call takes the lock once, so a history is a list of calls; the clock and the order
   in which Go walks over the map come with each call (`Call`). -/
namespace DeepSeekWebToApi.History
open GoStrings

def currentInputTargetTailChars : Nat := 32 * 1024
def currentInputMaxTailChars : Nat := 128 * 1024
/-- 30 minutes, in nanoseconds. -/
def currentInputPrefixTTL : Int := 30 * 60 * 1000000000
def currentInputPrefixMaxStates : Nat := 2048
def currentInputPrefixMaxVariants : Nat := 2

/-- `currentInputPrefixMode`. -/
inductive Mode where
  | file
  | inline
  deriving DecidableEq

structure Variant where
  prefixText : Bytes
  prefixHash : Bytes
  /-- only meaningful in file mode -/
  fileID : Bytes
  deriving DecidableEq

structure State where
  mode : Mode
  key : Bytes
  /-- the variant used last in front -/
  variants : List Variant := []
  updatedAt : Int := 0
  deriving DecidableEq

structure Plan where
  mode : Mode
  key : Bytes
  prefixText : Bytes
  prefixHash : Bytes
  fileID : Bytes := []
  tailText : Bytes
  reused : Bool := false
  checkpointRefresh : Bool := false
  deriving DecidableEq

/-- `currentInputPrefixStore`. -/
structure PrefixStore where
  states : KeyMap State := []
  deriving DecidableEq

structure Call where
  now : Int
  /-- the place of a key in the walk over the map -/
  tie : Bytes → Nat := fun _ => 0

/-- The mark in front of a transcript entry, with the end of the line before it. -/
def entryMark : Bytes := lit "\n=== "

/-! Cutting a transcript. -/

def transcriptBoundaryAtOrAfter (text : Bytes) (start : Int) : Option Nat :=
  let start := if start < 0 then 0 else start.toNat
  if text.length ≤ start then none
  else (index (text.drop start) entryMark).map (fun idx => start + idx + 1)

/-- Standard mode: the tail has about the target size. -/
def standardCut (fullText : Bytes) : Option Nat :=
  if fullText.length > currentInputTargetTailChars then
    (transcriptBoundaryAtOrAfter fullText (fullText.length - currentInputTargetTailChars)).filter fun cut =>
      0 < cut ∧ currentInputTargetTailChars / 4 ≤ (fullText.take cut).length ∧
        trimSpace (fullText.drop cut) ≠ [] ∧ (fullText.drop cut).length ≤ currentInputMaxTailChars
  else none

/-- Soft-anchor mode: the tail is the last entry. -/
def softCut (fullText : Bytes) : Option Nat :=
  ((lastIndex fullText entryMark).map (· + 1)).filter fun cut =>
    trimSpace (fullText.take cut) ≠ [] ∧ trimSpace (fullText.drop cut) ≠ [] ∧
      (fullText.drop cut).length ≤ currentInputMaxTailChars

def splitCurrentInputPrefixTail (fullText : Bytes) : Option (Bytes × Bytes) :=
  let fullText := trimSpace fullText
  if fullText = [] then none
  else
    let fullText := fullText ++ lit "\n"
    ((standardCut fullText).or (softCut fullText)).map fun cut => (fullText.take cut, fullText.drop cut)

/-! The variants of a session. -/

/-- What the walk over the variants asks of one: it belongs to the text and leaves a tail that
    is not too long. -/
def Variant.usable (v : Variant) (mode : Mode) (fullText : Bytes) : Bool :=
  v.prefixText ≠ [] && !(mode = .file && v.fileID = []) && hasPrefix fullText v.prefixText &&
    fullText.length - v.prefixText.length ≤ currentInputMaxTailChars

/-- `bestPrefixLen`. -/
def bestLen (best : Option (Nat × Variant)) : Nat := best.elim 0 (·.2.prefixText.length)

/-- The walk from the variant with the number `i` on. -/
def bestFrom (mode : Mode) (fullText : Bytes) :
    Nat → Option (Nat × Variant) → List Variant → Option (Nat × Variant)
  | _, best, [] => best
  | i, best, v :: vs =>
    bestFrom mode fullText (i + 1)
      (if v.usable mode fullText ∧ bestLen best < v.prefixText.length then some (i, v) else best) vs

/-- A hit goes to the front. -/
def promote (variants : List Variant) (i : Nat) : List Variant :=
  match variants[i]? with
  | some hot => if i ≠ 0 then hot :: (variants.take i ++ variants.drop (i + 1)) else variants
  | none => variants

/-! The store. -/

/-- The key whose state was used longest ago; the walk meets the keys in the order of `tie`. -/
def oldestKey (states : KeyMap State) (c : Call) : Bytes :=
  ((states.insertionSort (fun a b => c.tie a.1 ≤ c.tie b.1)).foldl
    (fun oldest kv => if oldest.1 = [] ∨ kv.2.updatedAt < oldest.2 then (kv.1, kv.2.updatedAt) else oldest)
    ([], c.now)).1

def PrefixStore.pruneLocked (s : PrefixStore) (c : Call) : PrefixStore :=
  let live := s.states.filter (fun kv => !(c.now - kv.2.updatedAt > currentInputPrefixTTL))
  if live.length ≤ currentInputPrefixMaxStates then { states := live }
  else if oldestKey live c = [] then { states := live }
  else { states := KeyMap.erase live (oldestKey live c) }

/-- The state of the key is dropped when its time is over. -/
def PrefixStore.expire (s : PrefixStore) (c : Call) (key : Bytes) : PrefixStore :=
  match s.states.get key with
  | some state =>
    if c.now - state.updatedAt > currentInputPrefixTTL then { states := s.states.erase key } else s
  | none => s

/-- The part of `plan` that looks for a stored prefix, with the state it leaves. -/
def PrefixStore.reuse (s : PrefixStore) (c : Call) (key fullText : Bytes) (mode : Mode) :
    PrefixStore × Option Plan :=
  match s.states.get key with
  | none => (s, none)
  | some state =>
    if state.mode = mode ∧ 0 < state.variants.length then
      match bestFrom mode fullText 0 none state.variants with
      | none => (s, none)
      | some (bestIdx, hot) =>
        ({ states := s.states.insert key
            { state with variants := promote state.variants bestIdx, updatedAt := c.now } },
          some { mode := mode, key := key, prefixText := hot.prefixText, prefixHash := hot.prefixHash,
                 fileID := hot.fileID, tailText := fullText.drop hot.prefixText.length, reused := true })
    else (s, none)

/-- `currentInputTextHash`; `hash` is the first half of the SHA-256 in hexadecimal. -/
def currentInputTextHash (hash : Bytes → Bytes) (text : Bytes) : Bytes := if text = [] then [] else hash text

def PrefixStore.plan (hash : Bytes → Bytes) (s : PrefixStore) (c : Call) (key fullText : Bytes) (mode : Mode) :
    PrefixStore × Option Plan :=
  let fullText := trimSpace fullText
  if key = [] ∨ fullText = [] then (s, none)
  else
    let fullText := fullText ++ lit "\n"
    match ((s.pruneLocked c).expire c key).reuse c key fullText mode with
    | (s, some plan) => (s, some plan)
    | (s, none) =>
      (s, (splitCurrentInputPrefixTail fullText).map fun parts =>
        { mode := mode, key := key, prefixText := parts.1, prefixHash := currentInputTextHash hash parts.1,
          tailText := parts.2, checkpointRefresh := true })

/-- The variants with a new checkpoint in front, or with the known one refreshed. -/
def State.record (state : State) (plan : Plan) : List Variant :=
  match state.variants.findIdx? (fun v => v.prefixText = plan.prefixText) with
  | some i =>
    let variants := state.variants.modify i fun v =>
      if plan.mode = .file ∧ plan.fileID ≠ [] then { v with fileID := plan.fileID } else v
    promote variants i
  | none =>
    ({ prefixText := plan.prefixText, prefixHash := plan.prefixHash, fileID := plan.fileID } ::
      state.variants).take currentInputPrefixMaxVariants

/-- The state a checkpoint is recorded in. -/
def PrefixStore.stateFor (s : PrefixStore) (plan : Plan) : State :=
  match s.states.get plan.key with
  | some state => if state.mode ≠ plan.mode then { mode := plan.mode, key := plan.key } else state
  | none => { mode := plan.mode, key := plan.key }

def PrefixStore.store (s : PrefixStore) (c : Call) (plan : Plan) : PrefixStore :=
  if plan.key = [] ∨ plan.prefixText = [] then s
  else if plan.mode = .file ∧ plan.fileID = [] then s
  else
    let s := s.pruneLocked c
    let state := s.stateFor plan
    { states := s.states.insert plan.key { state with variants := state.record plan, updatedAt := c.now } }

/-- `activeStates`. -/
def PrefixStore.activeStates (s : PrefixStore) (c : Call) : PrefixStore × Nat :=
  let s := s.pruneLocked c
  (s, s.states.length)

inductive Action where
  | plan (c : Call) (key fullText : Bytes) (mode : Mode)
  | store (c : Call) (plan : Plan)
  | active (c : Call)

def PrefixStore.step (hash : Bytes → Bytes) (s : PrefixStore) : Action → Option PrefixStore
  | .plan c key fullText mode => some (s.plan hash c key fullText mode).1
  | .store c plan => some (s.store c plan)
  | .active c => some (s.activeStates c).1

end DeepSeekWebToApi.History
