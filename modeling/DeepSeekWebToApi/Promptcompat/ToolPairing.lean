import DeepSeekWebToApi.Promptcompat.ToolMessageRepair

/- Which ids the repair of tool messages shows. The calls and results of a message list are read
   off as events; each call that has a name gets an id and stays open until a result takes it, so
   that the ids are those of a machine over the events whose state is the code's own
   (`repairFrom_shows`). -/
namespace DeepSeekWebToApi.Promptcompat
open GoStrings GoJson
open Sse (field stringAt)

section
variable {F : Type}

/-! ## Calls and results of a list -/

def asMap : Any F → Option (KeyMap (Any F))
  | .map m => some m
  | _ => none

def mapsOf (items : List (Any F)) : List (KeyMap (Any F)) := items.filterMap asMap

def contentItems : Option (Any F) → List (Any F)
  | some (.slice items) => items
  | _ => []

/-- The call blocks in the content of a message. -/
def blockCalls (msg : KeyMap (Any F)) : List (KeyMap (Any F)) :=
  (mapsOf (contentItems (field msg "content"))).filter isToolCallBlock

/-- The calls in the `tool_calls` of a message. -/
def fieldCalls (msg : KeyMap (Any F)) : List (KeyMap (Any F)) := mapsOf (toolCallItems (field msg "tool_calls"))

/-- The tool calls of a message. -/
def callsOf (msg : KeyMap (Any F)) : List (KeyMap (Any F)) :=
  if messageRole (.map msg) = lit "assistant" then blockCalls msg ++ fieldCalls msg
  else if messageRole (.map msg) = [] ∧ isToolCallBlock msg then [msg]
  else []

/-- The tool results in the content of a message. -/
def contentResults (msg : KeyMap (Any F)) : List (KeyMap (Any F)) :=
  match field msg "content" with
  | some (.slice items) => (mapsOf items).filter isToolResultBlock
  | some (.map block) => [block].filter isToolResultBlock
  | _ => []

def named (call : KeyMap (Any F)) : Bool := callName call ≠ []

/-- The tool results of a message. -/
def resultsOf (msg : KeyMap (Any F)) : List (KeyMap (Any F)) :=
  let role := messageRole (.map msg)
  if role = [] ∧ isToolResultBlock msg then [msg]
  else if role = [] ∧ isToolCallBlock msg ∧ named msg then []
  else if role = lit "assistant" then []
  else if role = lit "tool" ∨ role = lit "function" then [msg]
  else if role = lit "user" ∧ hasToolResultShape msg then [msg]
  else contentResults msg

/-- What becomes of a call or a result of the list. -/
inductive Event (F : Type) where
  /-- The call is repaired, and open until a result takes it. -/
  | call (c : KeyMap (Any F))
  /-- The call stays in a message that is copied. -/
  | stays (c : KeyMap (Any F))
  /-- The call is left out. -/
  | dropped (c : KeyMap (Any F))
  | result (r : KeyMap (Any F))

def Event.call? : Event F → Option (KeyMap (Any F))
  | .call c | .stays c | .dropped c => some c
  | .result _ => none

/-- A call in a list that is repaired. -/
def tagged (c : KeyMap (Any F)) : Event F := if named c then .call c else .dropped c

def callEvents (msg : KeyMap (Any F)) : List (Event F) :=
  if messageRole (.map msg) = lit "assistant" then
    if (blockCalls msg).any named then (blockCalls msg).map tagged ++ (fieldCalls msg).map .dropped
    else if (fieldCalls msg).any named then (blockCalls msg).map .stays ++ (fieldCalls msg).map tagged
    else (blockCalls msg).map .stays ++ (fieldCalls msg).map .stays
  else if messageRole (.map msg) = [] ∧ isToolCallBlock msg then
    if named msg then [.call msg]
    else if (contentResults msg).isEmpty then [.stays msg]
    else [.dropped msg]
  else []

def messageEvents (msg : KeyMap (Any F)) : List (Event F) := callEvents msg ++ (resultsOf msg).map .result

def events (raw : List (Any F)) : List (Event F) := (mapsOf raw).flatMap messageEvents

/-- The ids calls come with. -/
def idsOf (calls : List (KeyMap (Any F))) : List Bytes := (calls.map explicitID).filter (· ≠ [])

/-- The tool calls of a list. -/
def callsIn (raw : List (Any F)) : List (KeyMap (Any F)) := (mapsOf raw).flatMap callsOf

/-- The ids of the results in an output. -/
def resultIDs (out : List (Any F)) : List Bytes :=
  ((mapsOf out).filter fun msg => messageRole (.map msg) = lit "tool").map fun msg => stringAt msg "tool_call_id"

/-- Every call of a message is one of its events. -/
theorem callEvents_calls (msg : KeyMap (Any F)) : (callEvents msg).filterMap Event.call? = callsOf msg := by
  have htagged : ∀ cs : List (KeyMap (Any F)), (cs.map tagged).filterMap Event.call? = cs := by
    intro cs
    have hone : (Event.call? ∘ tagged : KeyMap (Any F) → _) = some := by
      funext c
      rw [Function.comp_apply, tagged]
      split <;> rfl
    rw [List.filterMap_map, hone, List.filterMap_some]
  have hstays : ∀ cs : List (KeyMap (Any F)), (cs.map Event.stays).filterMap Event.call? = cs := by
    intro cs
    rw [List.filterMap_map, show (Event.call? ∘ Event.stays : KeyMap (Any F) → _) = some from rfl, List.filterMap_some]
  have hdropped : ∀ cs : List (KeyMap (Any F)), (cs.map Event.dropped).filterMap Event.call? = cs := by
    intro cs
    rw [List.filterMap_map, show (Event.call? ∘ Event.dropped : KeyMap (Any F) → _) = some from rfl,
      List.filterMap_some]
  rw [callEvents, callsOf]
  split_ifs
  · rw [List.filterMap_append, htagged, hdropped]
  · rw [List.filterMap_append, hstays, htagged]
  · rw [List.filterMap_append, hstays, hstays]
  · rfl
  · rfl
  · rfl
  · rfl

/-! ## The machine over the events -/

namespace RepairState

/-- The id of a call: its own, or a generated one. -/
def assign (s : RepairState) (c : KeyMap (Any F)) : RepairState × Bytes :=
  if explicitID c = [] then s.nextToolCallID else (s, explicitID c)

variable (fold : Bytes → Bytes → Bool)

/-- The state after an event, and the id it shows. -/
def step (s : RepairState) : Event F → RepairState × Bytes
  | .call c => ({ (s.assign c).1 with pending := s.pending ++ [⟨(s.assign c).2, callName c⟩] }, (s.assign c).2)
  | .stays c => (s, explicitID c)
  | .dropped _ => (s, [])
  | .result r =>
    let (s, callID, _) := s.consumePendingToolCall fold (resultID r) (firstNonEmptyString r nameKeys)
    (s, callID)

def after (s : RepairState) (es : List (Event F)) : RepairState := es.foldl (fun s e => (s.step fold e).1) s

/-- The events, each with the state before it. -/
def trace : RepairState → List (Event F) → List (RepairState × Event F)
  | _, [] => []
  | s, e :: es => (s, e) :: trace (s.step fold e).1 es

/-- The id a call shows. -/
def shown : RepairState × Event F → Option Bytes
  | (s, .call c) => some (s.assign c).2
  | (_, .stays c) => if explicitID c = [] then none else some (explicitID c)
  | _ => none

/-- The id a result shows. -/
def answered : RepairState × Event F → Option Bytes
  | (s, .result r) => some (s.step fold (.result r)).2
  | _ => none

theorem after_append (s : RepairState) (es es' : List (Event F)) :
    s.after fold (es ++ es') = (s.after fold es).after fold es' := List.foldl_append

theorem trace_append : ∀ (s : RepairState) (es es' : List (Event F)),
    s.trace fold (es ++ es') = s.trace fold es ++ (s.after fold es).trace fold es'
  | _, [], _ => rfl
  | s, e :: es, es' => congrArg ((s, e) :: ·) (trace_append (s.step fold e).1 es es')

end RepairState

/-! ## The code shows the ids of the machine -/

theorem mapsOf_map (cs : List (KeyMap (Any F))) : mapsOf (cs.map .map) = cs := by
  rw [mapsOf, List.filterMap_map, show (asMap ∘ Any.map : KeyMap (Any F) → _) = some from rfl, List.filterMap_some]

theorem trimSpace_firstNonEmptyString (m : KeyMap (Any F)) : ∀ keys : List String,
    trimSpace (firstNonEmptyString m keys) = firstNonEmptyString m keys
  | [] => rfl
  | key :: keys => by
    rw [firstNonEmptyString]
    split
    · exact trimSpace_idem _
    · exact trimSpace_firstNonEmptyString m keys

theorem trimSpace_callName (c : KeyMap (Any F)) : trimSpace (callName c) = callName c := by
  simp only [callName]
  split
  · split
    · exact trimSpace_firstNonEmptyString _ _
    · decide
  · exact trimSpace_firstNonEmptyString _ _

theorem trimSpace_generatedID (s : RepairState) : trimSpace s.generatedID = s.generatedID := by
  obtain ⟨ds, _, hds, hformat, _⟩ := formatNat_digits (s.nextID + 1)
  have hdigit : ∀ d < 10, (0x30 + d).toUInt8.toNat < 0x80 ∧ isSpace (0x30 + d).toUInt8.toNat = false := by decide
  have hword : ∀ b ∈ lit "call_repaired_", b.toNat < 0x80 ∧ isSpace b.toNat = false := by decide +kernel
  apply trimSpace_of_solid
  intro b hb
  rcases List.mem_append.mp hb with hb | hb
  · exact hword b hb
  · rw [hformat] at hb
    obtain ⟨d, hd, rfl⟩ := List.mem_map.mp hb
    exact hdigit d (hds d hd)

/-- The id a call gets is trimmed and not empty. -/
theorem RepairState.assign_id (s : RepairState) (c : KeyMap (Any F)) :
    trimSpace (s.assign c).2 = (s.assign c).2 ∧ (s.assign c).2 ≠ [] := by
  rw [assign]
  split
  · refine ⟨trimSpace_generatedID s, ?_⟩
    exact List.append_ne_nil_of_left_ne_nil (by decide) _
  · next h => exact ⟨trimSpace_firstNonEmptyString _ _, h⟩

theorem RepairState.assign_pending (s : RepairState) (c : KeyMap (Any F)) : (s.assign c).1.pending = s.pending := by
  rw [assign]
  split <;> rfl

/-- Only the counter of the state matters for the id. -/
theorem RepairState.assign_congr {s t : RepairState} (h : s.nextID = t.nextID) (c : KeyMap (Any F)) :
    (s.assign c).2 = (t.assign c).2 ∧ (s.assign c).1.nextID = (t.assign c).1.nextID := by
  rw [assign, assign, nextToolCallID, nextToolCallID, generatedID, generatedID, h]
  split
  · exact ⟨rfl, rfl⟩
  · exact ⟨rfl, h⟩

section Calls
variable (φ : FloatFormat F) {id : Bytes} (hid : trimSpace id = id) (hne : id ≠ [])
include hid hne

theorem explicitID_functionCall (c : KeyMap (Any F)) : explicitID (functionCall φ id c) = id := by
  have hfield : stringAt (functionCall φ id c) "id" = id := rfl
  rw [explicitID, firstNonEmptyString]
  simp only [hfield, hid]
  exact if_pos hne

theorem recorded_functionCall (c : KeyMap (Any F)) :
    recorded (functionCall φ id c) = some ⟨id, callName c⟩ := by
  have hfield : stringAt (functionCall φ id c) "id" = id := rfl
  have hfirst : firstNonEmptyString (functionCall φ id c)
      ["id", "call_id", "tool_call_id", "callId", "toolCallId"] = id := by
    rw [firstNonEmptyString]
    simp only [hfield, hid]
    exact if_pos hne
  have hname : firstNonEmptyString (functionCall φ id c) ["name"] = [] := rfl
  have hfn : functionOf (functionCall φ id c) = some [(lit "arguments",
      .text (Prompt.stringifyToolCallArguments φ (argumentsOf c))), (lit "name", .text (callName c))] := rfl
  have hinner : firstNonEmptyString (F := F) [(lit "arguments",
      .text (Prompt.stringifyToolCallArguments φ (argumentsOf c))), (lit "name", .text (callName c))] ["name"] =
      callName c := by
    have hstring : stringAt (F := F) [(lit "arguments",
      .text (Prompt.stringifyToolCallArguments φ (argumentsOf c))), (lit "name", .text (callName c))] "name" =
      callName c := rfl
    rw [firstNonEmptyString]
    simp only [hstring, trimSpace_callName, firstNonEmptyString]
    split
    · rfl
    · next h => exact (not_not.mp h).symm
  simp only [recorded, hfirst, if_neg hne, hname, hfn, hinner, if_true]

end Calls

/-- The ids of a message list and its results are those of the events. -/
structure Shows (fold : Bytes → Bytes → Bool) (s : RepairState) (es : List (Event F))
    (repaired : RepairState × List (Any F)) : Prop where
  state : repaired.1 = s.after fold es
  calls : idsOf (callsIn repaired.2) = (s.trace fold es).filterMap RepairState.shown
  results : resultIDs repaired.2 = (s.trace fold es).filterMap (RepairState.answered fold)

section Refines
variable (fold : Bytes → Bytes → Bool) (φ : FloatFormat F)

theorem idsOf_append (cs cs' : List (KeyMap (Any F))) : idsOf (cs ++ cs') = idsOf cs ++ idsOf cs' := by
  rw [idsOf, List.map_append, List.filter_append]
  rfl

theorem callsIn_append (raw raw' : List (Any F)) : callsIn (raw ++ raw') = callsIn raw ++ callsIn raw' := by
  rw [callsIn, mapsOf, List.filterMap_append, List.flatMap_append]
  rfl

theorem resultIDs_append (out out' : List (Any F)) : resultIDs (out ++ out') = resultIDs out ++ resultIDs out' := by
  rw [resultIDs, mapsOf, List.filterMap_append, List.filter_append, List.map_append]
  rfl

theorem Shows.append {s t u : RepairState} {es es' : List (Event F)} {out out' : List (Any F)}
    (h : Shows fold s es (t, out)) (h' : Shows fold t es' (u, out')) :
    Shows fold s (es ++ es') (u, out ++ out') := by
  have ht : t = s.after fold es := h.state
  subst ht
  refine ⟨?_, ?_, ?_⟩
  · exact h'.state.trans (RepairState.after_append fold s es es').symm
  · rw [callsIn_append, idsOf_append, h.calls, h'.calls, RepairState.trace_append, List.filterMap_append]
  · rw [resultIDs_append, h.results, h'.results, RepairState.trace_append, List.filterMap_append]

/-! Calls that are not repaired. -/

theorem after_stays (s : RepairState) : ∀ cs : List (KeyMap (Any F)), s.after fold (cs.map .stays) = s
  | [] => rfl
  | _ :: cs => after_stays s cs

theorem after_dropped (s : RepairState) : ∀ cs : List (KeyMap (Any F)), s.after fold (cs.map .dropped) = s
  | [] => rfl
  | _ :: cs => after_dropped s cs

theorem shown_stays (s : RepairState) : ∀ cs : List (KeyMap (Any F)),
    (s.trace fold (cs.map .stays)).filterMap RepairState.shown = idsOf cs
  | [] => rfl
  | c :: cs => by
    have ih := shown_stays s cs
    by_cases h : explicitID c = []
    · have hshown : RepairState.shown (s, .stays c) = none := if_pos h
      rw [List.map_cons, RepairState.trace, List.filterMap_cons_none hshown, idsOf, List.map_cons,
        List.filter_cons_of_neg (by simp [h])]
      exact ih
    · have hshown : RepairState.shown (s, .stays c) = some (explicitID c) := if_neg h
      rw [List.map_cons, RepairState.trace, List.filterMap_cons_some hshown, idsOf, List.map_cons,
        List.filter_cons_of_pos (by simp [h])]
      exact congrArg _ ih

theorem shown_dropped (s : RepairState) : ∀ cs : List (KeyMap (Any F)),
    (s.trace fold (cs.map .dropped)).filterMap RepairState.shown = []
  | [] => rfl
  | _ :: cs => shown_dropped s cs

/-- Events without results answer nothing. -/
theorem answered_calls : ∀ {es : List (Event F)} (s : RepairState), (∀ e ∈ es, e.call?.isSome) →
    (s.trace fold es).filterMap (RepairState.answered fold) = []
  | [], _, _ => rfl
  | e :: es, s, h => by
    obtain ⟨he, hes⟩ := List.forall_mem_cons.mp h
    have hnone : RepairState.answered fold (s, e) = none := by
      cases e with
      | result r => cases he
      | _ => rfl
    rw [RepairState.trace, List.filterMap_cons_none hnone]
    exact answered_calls _ hes

/-! Calls that are repaired. -/

/-- The items of a list of calls: repaired one by one and recorded behind the list, they leave the
    state of their events. -/
theorem repairCallItems_spec : ∀ (items : List (Any F)) (s t : RepairState), s.nextID = t.nextID →
    (repairCallItems φ s items).1.pending = s.pending ∧
    t.after fold ((mapsOf items).map tagged) =
      ⟨t.pending ++ (repairCallItems φ s items).2.filterMap recorded, (repairCallItems φ s items).1.nextID⟩ ∧
    (t.trace fold ((mapsOf items).map tagged)).filterMap RepairState.shown = idsOf (repairCallItems φ s items).2
  | [], s, t, h => by
    refine ⟨rfl, ?_, rfl⟩
    rw [repairCallItems, List.filterMap_nil, List.append_nil, h]
    rfl
  | .map call :: items, s, t, h => by
    have hmaps : mapsOf (.map call :: items) = call :: mapsOf items := rfl
    by_cases hname : callName call = []
    · have htag : tagged call = .dropped call := if_neg (by simp [named, hname])
      have hrepair : repairToolCall φ s call = (s, none) := if_pos hname
      rw [hmaps, List.map_cons, htag, repairCallItems, hrepair]
      exact repairCallItems_spec items s t h
    · have htag : tagged call = .call call := if_pos (by simp [named, hname])
      have hrepair : repairToolCall φ s call =
          ((s.assign call).1, some (functionCall φ (s.assign call).2 call)) := if_neg hname
      obtain ⟨hid, hnext⟩ := RepairState.assign_congr h call
      obtain ⟨htrim, hne⟩ := s.assign_id call
      have hexplicit := explicitID_functionCall φ htrim hne call
      have hrecorded := recorded_functionCall φ htrim hne call
      obtain ⟨hpending, hafter, hshown⟩ := repairCallItems_spec items (s.assign call).1
        { (t.assign call).1 with pending := t.pending ++ [⟨(t.assign call).2, callName call⟩] } hnext
      have hitems : repairCallItems φ s (.map call :: items) = ((repairCallItems φ (s.assign call).1 items).1,
          functionCall φ (s.assign call).2 call :: (repairCallItems φ (s.assign call).1 items).2) := by
        rw [repairCallItems, hrepair]
        rfl
      rw [hmaps, List.map_cons, htag, hitems]
      refine ⟨hpending.trans (s.assign_pending call), hafter.trans ?_, ?_⟩
      · rw [List.filterMap_cons_some hrecorded, List.append_assoc, hid]
        rfl
      · have hfirst : RepairState.shown (t, .call call) = some (s.assign call).2 := congrArg some hid.symm
        rw [RepairState.trace, List.filterMap_cons_some hfirst, idsOf, List.map_cons, hexplicit,
          List.filter_cons_of_pos (by simp [hne])]
        exact congrArg _ hshown
  | .nil :: items, s, t, h | .bool _ :: items, s, t, h | .float _ :: items, s, t, h | .text _ :: items, s, t, h
  | .slice _ :: items, s, t, h | .other _ :: items, s, t, h => repairCallItems_spec items s t h

/-- Calls without names are passed over. -/
theorem repairCallItems_unnamed : ∀ (items : List (Any F)) (s : RepairState), (mapsOf items).any named = false →
    repairCallItems φ s items = (s, [])
  | [], _, _ => rfl
  | .map call :: items, s, h => by
    have hmaps : mapsOf (.map call :: items) = call :: mapsOf items := rfl
    rw [hmaps, List.any_cons, Bool.or_eq_false_iff] at h
    have hname : callName call = [] := by simpa [named] using h.1
    have hrepair : repairToolCall φ s call = (s, none) := if_pos hname
    rw [repairCallItems, hrepair]
    dsimp only
    rw [repairCallItems_unnamed items s h.2]
    rfl
  | .nil :: items, s, h | .bool _ :: items, s, h | .float _ :: items, s, h | .text _ :: items, s, h
  | .slice _ :: items, s, h | .other _ :: items, s, h => repairCallItems_unnamed items s h

theorem repairCallItems_ne_nil : ∀ (items : List (Any F)) (s : RepairState), (mapsOf items).any named = true →
    (repairCallItems φ s items).2 ≠ []
  | [], _, h => by cases h
  | .map call :: items, s, h => by
    have hmaps : mapsOf (.map call :: items) = call :: mapsOf items := rfl
    rw [hmaps, List.any_cons] at h
    rw [repairCallItems]
    by_cases hname : callName call = []
    · have hrepair : repairToolCall φ s call = (s, none) := if_pos hname
      have hnamed : named call = false := by simp [named, hname]
      rw [hnamed, Bool.false_or] at h
      rw [hrepair]
      exact repairCallItems_ne_nil items s h
    · have hrepair : repairToolCall φ s call =
          ((s.assign call).1, some (functionCall φ (s.assign call).2 call)) := if_neg hname
      rw [hrepair]
      exact List.cons_ne_nil _ _
  | .nil :: items, s, h | .bool _ :: items, s, h | .float _ :: items, s, h | .text _ :: items, s, h
  | .slice _ :: items, s, h | .other _ :: items, s, h => repairCallItems_ne_nil items s h

/-- The blocks of a content are repaired as the list of its call blocks is. -/
theorem repairBlocks_calls : ∀ (items : List (Any F)) (s : RepairState),
    (repairBlocks φ s items).1 = (repairCallItems φ s (((mapsOf items).filter isToolCallBlock).map .map)).1 ∧
    (repairBlocks φ s items).2.2 = (repairCallItems φ s (((mapsOf items).filter isToolCallBlock).map .map)).2
  | [], _ => ⟨rfl, rfl⟩
  | .map block :: items, s => by
    have hmaps : mapsOf (.map block :: items) = block :: mapsOf items := rfl
    rw [hmaps, repairBlocks]
    by_cases hcall : isToolCallBlock block = true
    · rw [if_pos hcall, List.filter_cons_of_pos hcall, List.map_cons, repairCallItems]
      obtain ⟨hstate, hcalls⟩ := repairBlocks_calls items (repairToolCall φ s block).1
      exact ⟨hstate, congrArg _ hcalls⟩
    · rw [if_neg hcall, List.filter_cons_of_neg hcall]
      exact repairBlocks_calls items s
  | .nil :: items, s | .bool _ :: items, s | .float _ :: items, s | .text _ :: items, s
  | .slice _ :: items, s | .other _ :: items, s => repairBlocks_calls items s

/-! Messages. -/

theorem shows_nil (s : RepairState) : Shows fold s ([] : List (Event F)) (s, []) := ⟨rfl, rfl, rfl⟩

theorem shows_dropped (s : RepairState) (cs : List (KeyMap (Any F))) : Shows fold s (cs.map .dropped) (s, []) := by
  refine ⟨(after_dropped fold s cs).symm, (shown_dropped fold s cs).symm, (answered_calls fold s ?_).symm⟩
  exact List.forall_mem_map.mpr fun _ _ => rfl

theorem callsIn_single (msg : KeyMap (Any F)) : callsIn [.map msg] = callsOf msg := List.append_nil _

variable {msg : KeyMap (Any F)}

theorem resultIDs_single (h : messageRole (.map msg) ≠ lit "tool") : resultIDs [.map msg] = [] := by
  have hfilter : [msg].filter (fun msg => messageRole (.map msg) = lit "tool") = [] :=
    List.filter_cons_of_neg (by simpa using h)
  rw [resultIDs, show mapsOf [.map msg] = [msg] from rfl, hfilter, List.map_nil]

/-- A copy of a message has its calls. -/
theorem shows_copy (s : RepairState) (h : messageRole (.map msg) ≠ lit "tool") :
    Shows fold s ((callsOf msg).map .stays) (s, [.map msg]) := by
  refine ⟨(after_stays fold s _).symm, ?_, ?_⟩
  · rw [callsIn_single, shown_stays]
  · rw [resultIDs_single h, answered_calls fold s]
    exact List.forall_mem_map.mpr fun _ _ => rfl

theorem stringAt_insert_ne {key key' : String} (h : lit key ≠ lit key') (value : Any F) (m : KeyMap (Any F)) :
    stringAt (KeyMap.insert (lit key) value m) key' = stringAt m key' := by
  rw [stringAt, stringAt, field, KeyMap.get_insert, if_neg h]
  rfl

theorem field_insert (key : String) (value : Any F) (m : KeyMap (Any F)) :
    field (KeyMap.insert (lit key) value m) key = some value := by
  rw [field, KeyMap.get_insert, if_pos rfl]

theorem field_insert_ne {key key' : String} (h : lit key ≠ lit key') (value : Any F) (m : KeyMap (Any F)) :
    field (KeyMap.insert (lit key) value m) key' = field m key' := by
  rw [field, KeyMap.get_insert, if_neg h]
  rfl

/-- The message of a result has the role and the id. -/
theorem resultMessage_fields (content : Any F) (callID name : Bytes) {out : KeyMap (Any F)}
    (h : out = if name ≠ [] then KeyMap.insert (lit "name") (.text name)
      [(lit "content", content), (lit "role", .text (lit "tool")), (lit "tool_call_id", .text callID)]
      else [(lit "content", content), (lit "role", .text (lit "tool")), (lit "tool_call_id", .text callID)]) :
    messageRole (.map out) = lit "tool" ∧ stringAt out "tool_call_id" = callID := by
  have hrole : toLower (trimSpace (lit "tool")) = lit "tool" := by decide +kernel
  subst h
  split
  · rw [messageRole, stringAt_insert_ne (by decide), stringAt_insert_ne (by decide)]
    exact ⟨hrole, rfl⟩
  · exact ⟨hrole, rfl⟩

theorem callsOf_tool (h : messageRole (.map msg) = lit "tool") : callsOf msg = [] := by
  rw [callsOf, h, if_neg (by decide), if_neg (by simp [show lit "tool" ≠ [] by decide])]

theorem shows_result (s : RepairState) (msg : KeyMap (Any F)) :
    Shows fold s [.result msg] (repairedResult fold s msg) := by
  rcases hconsume : s.consumePendingToolCall fold (resultID msg) (firstNonEmptyString msg nameKeys) with
    ⟨t, callID, name⟩
  have hstep : s.step fold (.result msg) = (t, callID) := by rw [RepairState.step, hconsume]
  obtain ⟨out, hout, hmessage⟩ : ∃ out, (messageRole (.map out) = lit "tool" ∧ stringAt out "tool_call_id" = callID) ∧
      repairToolResultMessage fold s msg = (t, out) := by
    refine ⟨_, resultMessage_fields (resultContent msg) callID name rfl, ?_⟩
    rw [repairToolResultMessage, hconsume]
  have htrace : s.trace fold [.result msg] = [(s, .result msg)] := rfl
  rw [repairedResult, hmessage]
  refine ⟨?_, ?_, ?_⟩
  · exact (congrArg Prod.fst hstep).symm
  · rw [callsIn_single, callsOf_tool hout.1, htrace]
    rfl
  · have hanswer : RepairState.answered fold (s, .result msg) = some callID := by rw [RepairState.answered, hstep]
    have hfilter : [out].filter (fun msg => messageRole (.map msg) = lit "tool") = [out] :=
      List.filter_cons_of_pos (by simpa using hout.1)
    rw [resultIDs, show mapsOf [.map out] = [out] from rfl, hfilter, htrace, List.filterMap_cons_some hanswer,
      List.map_singleton, hout.2]
    rfl

/-- The role the text between results is given. -/
theorem textRole_cases {role : Bytes} (hidem : toLower (trimSpace role) = role) {shown : Bytes}
    (hshown : shown = if trimSpace (normalizeOpenAIRoleForPrompt role) = [] then lit "user"
      else normalizeOpenAIRoleForPrompt role) :
    toLower (trimSpace shown) = lit "system" ∨ toLower (trimSpace shown) = lit "user" ∨
      toLower (trimSpace shown) = role ∧ role ≠ [] := by
  subst hshown
  rw [normalizeOpenAIRoleForPrompt, hidem]
  by_cases hdeveloper : role = lit "developer"
  · rw [if_pos hdeveloper]
    exact Or.inl (by decide +kernel)
  rw [if_neg hdeveloper]
  by_cases hblank : trimSpace role = []
  · rw [if_pos hblank]
    exact Or.inr (Or.inl (by decide +kernel))
  rw [if_neg hblank, hidem]
  refine Or.inr (Or.inr ⟨rfl, ?_⟩)
  rintro rfl
  exact hblank rfl

theorem textRole_ne {role : Bytes} (hidem : toLower (trimSpace role) = role) {shown : Bytes}
    (hshown : shown = if trimSpace (normalizeOpenAIRoleForPrompt role) = [] then lit "user"
      else normalizeOpenAIRoleForPrompt role) {other : Bytes} (hsystem : lit "system" ≠ other)
    (huser : lit "user" ≠ other) (hother : role ≠ other) : toLower (trimSpace shown) ≠ other := by
  rcases textRole_cases hidem hshown with h | h | ⟨h, _⟩
  · exact h ▸ hsystem
  · exact h ▸ huser
  · exact h ▸ hother

theorem textRole_ne_nil {role : Bytes} (hidem : toLower (trimSpace role) = role) {shown : Bytes}
    (hshown : shown = if trimSpace (normalizeOpenAIRoleForPrompt role) = [] then lit "user"
      else normalizeOpenAIRoleForPrompt role) : toLower (trimSpace shown) ≠ [] := by
  rcases textRole_cases hidem hshown with h | h | ⟨h, hne⟩
  · exact h ▸ (by decide)
  · exact h ▸ (by decide)
  · exact h ▸ hne

theorem callsOf_other (hassistant : messageRole (.map msg) ≠ lit "assistant")
    (hrole : messageRole (.map msg) ≠ [] ∨ isToolCallBlock msg = false) : callsOf msg = [] := by
  rw [callsOf, if_neg hassistant, if_neg]
  rintro ⟨hempty, hcall⟩
  rcases hrole with hrole | hrole
  · exact hrole hempty
  · rw [hrole] at hcall
    cases hcall

theorem messageRole_text (content : Any F) (role : Bytes) :
    messageRole (.map [(lit "content", content), (lit "role", .text role)]) = toLower (trimSpace role) := rfl

/-- The text between results has neither calls nor results. -/
theorem shows_flushText (s : RepairState) (textParts : List Bytes)
    (hassistant : messageRole (.map msg) ≠ lit "assistant") (htool : messageRole (.map msg) ≠ lit "tool") :
    Shows fold s ([] : List (Event F))
      (s, flushText (normalizeOpenAIRoleForPrompt (messageRole (.map msg))) textParts) := by
  rw [flushText]
  split
  · exact shows_nil fold s
  have hidem : toLower (trimSpace (messageRole (.map msg))) = messageRole (.map msg) := lower_trim_idem _
  generalize hrole : (if trimSpace (normalizeOpenAIRoleForPrompt (messageRole (.map msg))) = [] then lit "user"
    else normalizeOpenAIRoleForPrompt (messageRole (.map msg))) = role
  have h1 := textRole_ne hidem hrole.symm (by decide) (by decide) hassistant
  have h2 := textRole_ne hidem hrole.symm (by decide) (by decide) htool
  have h3 := textRole_ne_nil hidem hrole.symm
  rw [← messageRole_text (.text (join (lit "\n") textParts) : Any F)] at h1 h2 h3
  refine ⟨rfl, ?_, ?_⟩
  · rw [callsIn_single, callsOf_other h1 (Or.inl h3)]
    rfl
  · rw [resultIDs_single h2]
    rfl

/-- The blocks of a content: its results are repaired in order. -/
theorem repairResultBlocks_shows (hassistant : messageRole (.map msg) ≠ lit "assistant")
    (htool : messageRole (.map msg) ≠ lit "tool") :
    ∀ (items : List (Any F)) (s : RepairState) (textParts : List Bytes)
    {t : RepairState} {out : List (Any F)} {found : Bool},
    repairResultBlocks fold (normalizeOpenAIRoleForPrompt (messageRole (.map msg))) s textParts items = (t, out, found) →
    Shows fold s (((mapsOf items).filter isToolResultBlock).map .result) (t, out) ∧
      (found = true ↔ (mapsOf items).filter isToolResultBlock ≠ []) ∧ (found = true → out ≠ [])
  | [], s, textParts, t, out, found, h => by
    cases h
    exact ⟨shows_flushText fold s textParts hassistant htool, by simp [mapsOf], by simp⟩
  | .map block :: items, s, textParts, t, out, found, h => by
    have hmaps : mapsOf (.map block :: items) = block :: mapsOf items := rfl
    rw [repairResultBlocks] at h
    rw [hmaps]
    by_cases hblock : isToolResultBlock block = true
    · rw [if_pos hblock] at h
      rw [List.filter_cons_of_pos hblock, List.map_cons]
      rcases hresult : repairToolResultMessage fold s block with ⟨u, result⟩
      rcases hrest : repairResultBlocks fold (normalizeOpenAIRoleForPrompt (messageRole (.map msg))) u [] items with
        ⟨v, rest, found'⟩
      rw [hresult] at h
      dsimp only at h
      rw [hrest] at h
      cases h
      have hone := shows_result fold s block
      rw [repairedResult, hresult] at hone
      refine ⟨?_, by simp, by simp⟩
      exact (shows_flushText fold s textParts hassistant htool).append fold
        (hone.append fold (repairResultBlocks_shows hassistant htool items u [] hrest).1)
    · rw [if_neg hblock] at h
      rw [List.filter_cons_of_neg hblock]
      exact repairResultBlocks_shows hassistant htool items s _ h
  | .nil :: items, s, textParts, _, _, _, h | .bool _ :: items, s, textParts, _, _, _, h
  | .float _ :: items, s, textParts, _, _, _, h | .text _ :: items, s, textParts, _, _, _, h
  | .slice _ :: items, s, textParts, _, _, _, h | .other _ :: items, s, textParts, _, _, _, h =>
    repairResultBlocks_shows hassistant htool items s textParts h

/-- The events of a message whose content is looked at. -/
def contentEvents (msg : KeyMap (Any F)) : List (Event F) :=
  (if (contentResults msg).isEmpty then (callsOf msg).map .stays else (callsOf msg).map .dropped) ++
    (contentResults msg).map .result

section Content
variable {fold} {s t : RepairState} {msg : KeyMap (Any F)} {role : Bytes} {out : List (Any F)}

theorem repairContent_copy (htool : messageRole (.map msg) ≠ lit "tool") (hnone : contentResults msg = [])
    (h : repairToolResultsFromContent fold s role (field msg "content") = (s, [])) :
    Shows fold s (contentEvents msg) (repairContent fold s role msg) := by
  rw [repairContent, h, contentEvents, hnone]
  exact (shows_copy fold s htool).append fold (shows_nil fold s)

theorem repairContent_split (hsome : contentResults msg ≠ []) (hout : out ≠ [])
    (h : repairToolResultsFromContent fold s role (field msg "content") = (t, out))
    (hshows : Shows fold s ((contentResults msg).map .result) (t, out)) :
    Shows fold s (contentEvents msg) (repairContent fold s role msg) := by
  have hsplit : repairContent fold s role msg = (t, out) := by
    rw [repairContent, h]
    cases out with
    | nil => exact absurd rfl hout
    | cons first rest => rfl
  rw [hsplit, contentEvents, if_neg (by simpa using hsome)]
  exact (shows_dropped fold s _).append fold hshows

end Content

theorem repairContent_shows (s : RepairState) (hassistant : messageRole (.map msg) ≠ lit "assistant")
    (htool : messageRole (.map msg) ≠ lit "tool") :
    Shows fold s (contentEvents msg) (repairContent fold s (messageRole (.map msg)) msg) := by
  cases hcontent : field msg "content" with
  | none =>
    have hnone : contentResults msg = [] := by rw [contentResults, hcontent]
    exact repairContent_copy htool hnone (by rw [hcontent]; rfl)
  | some content =>
    cases content with
    | slice items =>
      have hresults : contentResults msg = (mapsOf items).filter isToolResultBlock := by rw [contentResults, hcontent]
      rcases hblocks : repairResultBlocks fold (normalizeOpenAIRoleForPrompt (messageRole (.map msg))) s [] items with
        ⟨t, out, found⟩
      obtain ⟨hshows, hfound, hout⟩ := repairResultBlocks_shows fold hassistant htool items s [] hblocks
      have heq : repairToolResultsFromContent fold s (messageRole (.map msg)) (field msg "content") =
          (t, if found then out else []) := by
        rw [hcontent, repairToolResultsFromContent, hblocks]
      rw [← hresults] at hshows hfound
      cases found with
      | true => exact repairContent_split (hfound.mp rfl) (hout rfl) heq hshows
      | false =>
        have hnone : contentResults msg = [] := by
          by_contra hne
          cases hfound.mpr hne
        have ht : t = s := by
          rw [hnone] at hshows
          exact hshows.state
        exact repairContent_copy htool hnone (ht ▸ heq)
    | map block =>
      by_cases hblock : isToolResultBlock block = true
      · have hresults : contentResults msg = [block] := by
          rw [contentResults, hcontent]
          exact List.filter_cons_of_pos hblock
        rcases hresult : repairToolResultMessage fold s block with ⟨u, result⟩
        have heq : repairToolResultsFromContent fold s (messageRole (.map msg)) (field msg "content") =
            (u, [.map result]) := by
          rw [hcontent, repairToolResultsFromContent, if_pos hblock, hresult]
        have hone := shows_result fold s block
        rw [repairedResult, hresult] at hone
        refine repairContent_split (by rw [hresults]; exact List.cons_ne_nil _ _) (List.cons_ne_nil _ _) heq ?_
        rw [hresults]
        exact hone
      · have hnone : contentResults msg = [] := by
          rw [contentResults, hcontent]
          exact List.filter_cons_of_neg hblock
        refine repairContent_copy htool hnone ?_
        rw [hcontent, repairToolResultsFromContent, if_neg hblock]
    | _ =>
      have hnone : contentResults msg = [] := by rw [contentResults, hcontent]
      exact repairContent_copy htool hnone (by rw [hcontent]; rfl)

/-- An assistant message with repaired calls and the call blocks that stay in its content. -/
theorem shows_assistant (s : RepairState) (items : List (Any F)) {out : KeyMap (Any F)}
    (hrole : messageRole (.map out) = lit "assistant")
    (hfield : field out "tool_calls" = some (.slice ((repairCallItems φ s items).2.map .map))) :
    Shows fold s ((blockCalls out).map .stays ++ (mapsOf items).map tagged)
      ((repairCallItems φ s items).1.recordPendingToolCalls (repairCallItems φ s items).2, [.map out]) := by
  obtain ⟨hpending, hafter, hshown⟩ := repairCallItems_spec fold φ items s s rfl
  have hcalls : fieldCalls out = (repairCallItems φ s items).2 := by
    rw [fieldCalls, hfield]
    exact mapsOf_map _
  refine ⟨?_, ?_, ?_⟩
  · rw [RepairState.after_append, after_stays, hafter, RepairState.recordPendingToolCalls, hpending]
  · rw [callsIn_single, callsOf, if_pos hrole, idsOf_append, hcalls, RepairState.trace_append, List.filterMap_append,
      shown_stays, after_stays, hshown]
  · have hne : messageRole (.map out) ≠ lit "tool" := by
      rw [hrole]
      decide
    rw [resultIDs_single hne, answered_calls fold s]
    intro e he
    rcases List.mem_append.mp he with he | he
    · obtain ⟨c, _, rfl⟩ := List.mem_map.mp he
      rfl
    · obtain ⟨c, _, rfl⟩ := List.mem_map.mp he
      rw [tagged]
      split <;> rfl

theorem messageRole_insert {key : String} (h : lit key ≠ lit "role") (value : Any F) (m : KeyMap (Any F)) :
    messageRole (.map (KeyMap.insert (lit key) value m)) = messageRole (.map m) := by
  rw [messageRole, messageRole, stringAt_insert_ne h]

/-- The content of a message without its blocks. -/
theorem withoutBlocks_fields (msg : KeyMap (Any F)) (textParts : List Bytes) {out : KeyMap (Any F)}
    (h : out = if textParts.length > 0
      then KeyMap.insert (lit "content") (.text (join (lit "\n") textParts)) (KeyMap.erase msg (lit "content"))
      else KeyMap.erase msg (lit "content")) :
    messageRole (.map out) = messageRole (.map msg) ∧ contentItems (field out "content") = [] := by
  have herase : messageRole (.map (KeyMap.erase msg (lit "content"))) = messageRole (.map msg) := by
    rw [messageRole, messageRole, stringAt, stringAt, field, KeyMap.get_erase, if_neg (by decide)]
    rfl
  subst h
  split
  · rw [messageRole_insert (by decide), herase, field_insert]
    exact ⟨rfl, rfl⟩
  · rw [herase, field, KeyMap.get_erase, if_pos rfl]
    exact ⟨rfl, rfl⟩

/-- An assistant message whose content has calls: they replace its `tool_calls`. -/
theorem repairAssistantContentBlocks_eq (s : RepairState) (hnamed : (blockCalls msg).any named = true) :
    ∃ base, messageRole (.map base) = messageRole (.map msg) ∧ contentItems (field base "content") = [] ∧
      repairAssistantContentBlocks φ s msg = ((repairCallItems φ s ((blockCalls msg).map .map)).1.recordPendingToolCalls
        (repairCallItems φ s ((blockCalls msg).map .map)).2, some (KeyMap.insert (lit "tool_calls")
          (.slice ((repairCallItems φ s ((blockCalls msg).map .map)).2.map .map)) base)) := by
  cases hcontent : field msg "content" with
  | none =>
    rw [blockCalls, hcontent] at hnamed
    cases hnamed
  | some content =>
    cases content with
    | slice items =>
      have hcalls : blockCalls msg = (mapsOf items).filter isToolCallBlock := by
        rw [blockCalls, hcontent]
        rfl
      obtain ⟨hstate, htool⟩ := repairBlocks_calls φ items s
      rw [← hcalls] at hstate htool
      have hne := repairCallItems_ne_nil φ ((blockCalls msg).map .map) s (by rw [mapsOf_map]; exact hnamed)
      rcases hblocks : repairBlocks φ s items with ⟨t, textParts, toolCalls⟩
      rw [hblocks] at hstate htool
      dsimp only at hstate htool
      subst hstate htool
      obtain ⟨hbaseRole, hbaseContent⟩ := withoutBlocks_fields msg textParts rfl
      refine ⟨_, hbaseRole, hbaseContent, ?_⟩
      rw [repairAssistantContentBlocks, hcontent]
      dsimp only
      rw [hblocks]
      dsimp only
      rw [if_neg (by simpa using hne)]
    | _ =>
      rw [blockCalls, hcontent] at hnamed
      cases hnamed

theorem repairAssistantContentBlocks_some (s : RepairState) (hrole : messageRole (.map msg) = lit "assistant")
    (hnamed : (blockCalls msg).any named = true) :
    ∃ t out, repairAssistantContentBlocks φ s msg = (t, some out) ∧
      Shows fold s ((blockCalls msg).map tagged ++ (fieldCalls msg).map .dropped) (t, [.map out]) := by
  obtain ⟨base, hbaseRole, hbaseContent, heq⟩ := repairAssistantContentBlocks_eq φ s hnamed
  refine ⟨_, _, heq, ?_⟩
  have hout := shows_assistant fold φ s ((blockCalls msg).map .map)
    ((messageRole_insert (by decide) _ base).trans (hbaseRole.trans hrole)) (field_insert "tool_calls" _ base)
  have hblockless : blockCalls (KeyMap.insert (lit "tool_calls")
      (.slice ((repairCallItems φ s ((blockCalls msg).map .map)).2.map .map)) base) = [] := by
    rw [blockCalls, field_insert_ne (by decide), hbaseContent]
    rfl
  rw [hblockless, mapsOf_map] at hout
  have hboth := hout.append fold (shows_dropped fold _ (fieldCalls msg))
  rwa [List.append_nil] at hboth

theorem repairAssistantContentBlocks_none (s : RepairState) (hnamed : (blockCalls msg).any named = false) :
    repairAssistantContentBlocks φ s msg = (s, none) := by
  cases hcontent : field msg "content" with
  | none => rw [repairAssistantContentBlocks, hcontent]
  | some content =>
    cases content with
    | slice items =>
      obtain ⟨hstate, hcalls⟩ := repairBlocks_calls φ items s
      rw [blockCalls, hcontent, contentItems] at hnamed
      rw [repairCallItems_unnamed φ _ s (by rw [mapsOf_map]; exact hnamed)] at hstate hcalls
      rcases hblocks : repairBlocks φ s items with ⟨t, textParts, toolCalls⟩
      rw [hblocks] at hstate hcalls
      dsimp only at hstate hcalls
      rw [repairAssistantContentBlocks, hcontent]
      dsimp only
      rw [hblocks, hstate, hcalls]
      rfl
    | _ => rw [repairAssistantContentBlocks, hcontent]

/-- The calls in the `tool_calls` of a message. -/
theorem repairToolCalls_shows (s : RepairState) (hrole : messageRole (.map msg) = lit "assistant")
    (hblocks : (blockCalls msg).any named = false) :
    Shows fold s (callEvents msg) (repairByRole fold φ s (lit "assistant") msg) := by
  rw [repairByRole, if_pos rfl, repairAssistantContentBlocks_none φ s hblocks]
  dsimp only
  rw [repairToolCalls, callEvents, if_pos hrole, if_neg (by rw [hblocks]; exact Bool.false_ne_true)]
  by_cases hnamed : (fieldCalls msg).any named = true
  · have hne := repairCallItems_ne_nil φ (toolCallItems (field msg "tool_calls")) s hnamed
    have hout := shows_assistant fold φ s (toolCallItems (field msg "tool_calls"))
      ((messageRole_insert (by decide) _ msg).trans hrole) (field_insert "tool_calls" _ msg)
    have hkept : blockCalls (KeyMap.insert (lit "tool_calls")
        (.slice ((repairCallItems φ s (toolCallItems (field msg "tool_calls"))).2.map .map)) msg) = blockCalls msg := by
      rw [blockCalls, field_insert_ne (by decide)]
      rfl
    rw [hkept] at hout
    rw [if_pos hnamed]
    generalize repairCallItems φ s (toolCallItems (field msg "tool_calls")) = r at hne hout
    rcases r with ⟨t, calls⟩
    cases calls with
    | nil => exact absurd rfl hne
    | cons first rest => exact hout
  · have htool : messageRole (.map msg) ≠ lit "tool" := by
      rw [hrole]
      decide
    have hcopy := shows_copy fold s htool
    rw [callsOf, if_pos hrole, List.map_append] at hcopy
    rw [repairCallItems_unnamed φ _ s (Bool.eq_false_iff.mpr hnamed), if_neg hnamed]
    have hstate : s.recordPendingToolCalls ([] : List (KeyMap (Any F))) = s := by
      rw [RepairState.recordPendingToolCalls, List.filterMap_nil, List.append_nil]
    dsimp only
    rw [hstate]
    exact hcopy

theorem resultsOf_assistant (hrole : messageRole (.map msg) = lit "assistant") : resultsOf msg = [] := by
  have hne : messageRole (.map msg) ≠ [] := by
    rw [hrole]
    decide
  simp only [resultsOf]
  rw [if_neg fun h => hne h.1, if_neg fun h => hne h.1, if_pos hrole]

theorem assistant_shows (s : RepairState) (hrole : messageRole (.map msg) = lit "assistant") :
    Shows fold s (messageEvents msg) (repairByRole fold φ s (lit "assistant") msg) := by
  rw [messageEvents, resultsOf_assistant hrole, List.map_nil, List.append_nil]
  cases hnamed : (blockCalls msg).any named with
  | true =>
    obtain ⟨t, out, hblocks, hshows⟩ := repairAssistantContentBlocks_some fold φ s hrole hnamed
    rw [repairByRole, if_pos rfl, hblocks, callEvents, if_pos hrole, if_pos hnamed]
    exact hshows
  | false => exact repairToolCalls_shows fold φ s hrole hnamed

theorem messageEvents_content (hassistant : messageRole (.map msg) ≠ lit "assistant")
    (hresult : ¬ (messageRole (.map msg) = [] ∧ isToolResultBlock msg = true))
    (hcall : ¬ (messageRole (.map msg) = [] ∧ isToolCallBlock msg = true ∧ named msg = true))
    (htool : ¬ (messageRole (.map msg) = lit "tool" ∨ messageRole (.map msg) = lit "function"))
    (huser : ¬ (messageRole (.map msg) = lit "user" ∧ hasToolResultShape msg = true)) :
    messageEvents msg = contentEvents msg := by
  have hresults : resultsOf msg = contentResults msg := by
    simp only [resultsOf]
    rw [if_neg hresult, if_neg hcall, if_neg hassistant, if_neg htool, if_neg huser]
  have hcalls : callEvents msg =
      if (contentResults msg).isEmpty then (callsOf msg).map .stays else (callsOf msg).map .dropped := by
    rw [callEvents, callsOf, if_neg hassistant, if_neg hassistant]
    by_cases hitem : messageRole (.map msg) = [] ∧ isToolCallBlock msg = true
    · rw [if_pos hitem, if_pos hitem, if_neg fun h => hcall ⟨hitem.1, hitem.2, h⟩]
      rfl
    · rw [if_neg hitem, if_neg hitem]
      split <;> rfl
  rw [messageEvents, contentEvents, hresults, hcalls]

/-- A message that is a result itself. -/
theorem messageEvents_result (hassistant : messageRole (.map msg) ≠ lit "assistant")
    (hcall : ¬ (messageRole (.map msg) = [] ∧ isToolCallBlock msg = true)) (hresults : resultsOf msg = [msg]) :
    messageEvents msg = [.result msg] := by
  rw [messageEvents, callEvents, if_neg hassistant, if_neg hcall, hresults]
  rfl

theorem repairByRole_shows (s : RepairState)
    (hresult : ¬ (messageRole (.map msg) = [] ∧ isToolResultBlock msg = true))
    (hcall : ¬ (messageRole (.map msg) = [] ∧ isToolCallBlock msg = true ∧ named msg = true)) :
    Shows fold s (messageEvents msg) (repairByRole fold φ s (messageRole (.map msg)) msg) := by
  by_cases hassistant : messageRole (.map msg) = lit "assistant"
  · rw [hassistant]
    exact assistant_shows fold φ s hassistant
  rw [repairByRole, if_neg hassistant]
  by_cases htool : messageRole (.map msg) = lit "tool" ∨ messageRole (.map msg) = lit "function"
  · have hne : messageRole (.map msg) ≠ [] := by
      rcases htool with h | h <;> rw [h] <;> decide
    rw [if_pos htool, messageEvents_result hassistant fun h => hne h.1]
    · exact shows_result fold s msg
    · simp only [resultsOf]
      rw [if_neg hresult, if_neg hcall, if_neg hassistant, if_pos htool]
  rw [if_neg htool]
  by_cases huser : messageRole (.map msg) = lit "user" ∧ hasToolResultShape msg = true
  · have hne : messageRole (.map msg) ≠ [] := by
      rw [huser.1]
      decide
    rw [if_pos huser, messageEvents_result hassistant fun h => hne h.1]
    · exact shows_result fold s msg
    · simp only [resultsOf]
      rw [if_neg hresult, if_neg hcall, if_neg hassistant, if_neg htool, if_pos huser]
  rw [if_neg huser, messageEvents_content hassistant hresult hcall htool huser]
  exact repairContent_shows fold s hassistant fun h => htool (Or.inl h)

/-- A named call item becomes an assistant message. -/
theorem assistantMessageFromToolCallItem_shows (s : RepairState) (hnamed : named msg = true) :
    ∃ t out, assistantMessageFromToolCallItem φ s msg = (t, some out) ∧ Shows fold s [.call msg] (t, [.map out]) := by
  have hname : callName msg ≠ [] := by simpa [named] using hnamed
  have hrepair : repairToolCall φ s msg =
      ((s.assign msg).1, some (functionCall φ (s.assign msg).2 msg)) := if_neg hname
  have hitems : repairCallItems φ s [.map msg] = ((s.assign msg).1, [functionCall φ (s.assign msg).2 msg]) := by
    rw [repairCallItems, hrepair]
    rfl
  have hrole : messageRole (.map [(lit "role", .text (lit "assistant")),
      (lit "tool_calls", .slice [.map (functionCall φ (s.assign msg).2 msg)])]) = lit "assistant" := by
    have hlower : toLower (trimSpace (lit "assistant")) = lit "assistant" := by decide +kernel
    exact hlower
  have hout := shows_assistant fold φ s [.map msg] hrole (by rw [hitems]; rfl)
  have htag : tagged msg = .call msg := if_pos hnamed
  rw [hitems, show mapsOf [.map msg] = [msg] from rfl, List.map_singleton, htag] at hout
  refine ⟨_, _, ?_, hout⟩
  rw [assistantMessageFromToolCallItem, hrepair]

theorem isToolCallBlock_of_result (h : isToolResultBlock msg = true) : isToolCallBlock msg = false := by
  simp only [isToolResultBlock, isToolCallBlock, decide_eq_true_eq, decide_eq_false_iff_not] at h ⊢
  generalize itemType msg = typ at h ⊢
  have hdisjoint : ∀ typ ∈ [lit "tool_result", lit "function_call_output", lit "tooloutput", lit "tool_output"],
      typ ∉ [lit "function_call", lit "tool_call", lit "tool_use", lit "toolcall", lit "tool_use_call"] := by decide
  exact hdisjoint typ h

theorem repairMessage_shows (s : RepairState) (msg : KeyMap (Any F)) :
    Shows fold s (messageEvents msg) (repairOpenAIToolMessage fold φ s msg) := by
  simp only [repairOpenAIToolMessage]
  by_cases hresult : messageRole (.map msg) = [] ∧ isToolResultBlock msg = true
  · have hassistant : messageRole (.map msg) ≠ lit "assistant" := by
      rw [hresult.1]
      decide
    rw [if_pos hresult, messageEvents_result hassistant]
    · exact shows_result fold s msg
    · rw [isToolCallBlock_of_result hresult.2]
      exact fun h => Bool.false_ne_true h.2
    · simp only [resultsOf]
      exact if_pos hresult
  rw [if_neg hresult]
  by_cases hcall : messageRole (.map msg) = [] ∧ isToolCallBlock msg = true
  · rw [if_pos hcall]
    cases hnamed : named msg with
    | true =>
      obtain ⟨t, out, hitem, hshows⟩ := assistantMessageFromToolCallItem_shows fold φ s hnamed
      have hassistant : messageRole (.map msg) ≠ lit "assistant" := by
        rw [hcall.1]
        decide
      have hevents : messageEvents msg = [.call msg] := by
        have hresults : resultsOf msg = [] := by
          simp only [resultsOf]
          rw [if_neg hresult, if_pos ⟨hcall.1, hcall.2, hnamed⟩]
        rw [messageEvents, callEvents, if_neg hassistant, if_pos hcall, if_pos hnamed, hresults]
        rfl
      rw [hitem, hevents]
      exact hshows
    | false =>
      have hname : callName msg = [] := by simpa [named] using hnamed
      have hitem : assistantMessageFromToolCallItem φ s msg = (s, none) := by
        rw [assistantMessageFromToolCallItem, show repairToolCall φ s msg = (s, none) from if_pos hname]
      rw [hitem]
      refine repairByRole_shows fold φ s hresult ?_
      rw [hnamed]
      exact fun h => Bool.false_ne_true h.2.2
  · rw [if_neg hcall]
    exact repairByRole_shows fold φ s hresult fun h => hcall ⟨h.1, h.2.1⟩

/-- The ids in the repaired list are those of its events. -/
theorem repairFrom_shows : ∀ (raw : List (Any F)) (s : RepairState),
    Shows fold s (events raw) (s.after fold (events raw), repairFrom fold φ s raw)
  | [], s => shows_nil fold s
  | .map msg :: raw, s => by
    have hone := repairMessage_shows fold φ s msg
    rcases hmsg : repairOpenAIToolMessage fold φ s msg with ⟨t, out⟩
    rw [hmsg] at hone
    have ht : t = s.after fold (messageEvents msg) := hone.state
    have hevents : events (.map msg :: raw) = messageEvents msg ++ events raw := rfl
    have hall := hone.append fold (repairFrom_shows raw t)
    have hrepair : repairFrom fold φ s (.map msg :: raw) = out ++ repairFrom fold φ t raw := by
      rw [repairFrom, hmsg]
    rw [hevents, RepairState.after_append, hrepair, ← ht]
    exact hall
  | .nil :: raw, s | .bool _ :: raw, s | .float _ :: raw, s | .text _ :: raw, s
  | .slice _ :: raw, s | .other _ :: raw, s => repairFrom_shows raw s

end Refines

end

end DeepSeekWebToApi.Promptcompat
