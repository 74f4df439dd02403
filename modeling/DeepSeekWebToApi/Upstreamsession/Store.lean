import DeepSeekWebToApi.Lib.JsonAny
import DeepSeekWebToApi.Lib.Text

/- Pinned upstream sessions (`internal/upstreamsession`). A branch is a conversation an
   upstream session holds: the canonical messages of the last request and of its response.
   A request that extends a branch leases it and sends what is new only. The message texts
   are JSON, over a number format; times are in nanoseconds. `Branch` is what `Record` and
   `Complete` check before they store it. The diagnostics of a miss change nothing but the
   expired entries and are not modelled. -/
namespace DeepSeekWebToApi.Upstreamsession
open GoStrings GoJson

structure Scope where
  callerID : Bytes
  sessionKey : Bytes
  accountID : Bytes
  surface : Bytes
  variant : Bytes
  deriving DecidableEq

def validScope (scope : Scope) : Bool :=
  trimSpace scope.callerID ≠ [] && trimSpace scope.sessionKey ≠ [] && trimSpace scope.accountID ≠ [] &&
    trimSpace scope.surface ≠ [] && trimSpace scope.variant ≠ []

def scopeKey (scope : Scope) : Bytes :=
  scope.callerID ++ [0] ++ scope.sessionKey ++ [0] ++ scope.accountID ++ [0] ++ scope.surface ++ [0] ++
    scope.variant

/-! Messages. -/

section messages
variable {F : Type} (φ : FloatFormat F)

def stringField : Option (Any F) → Bytes
  | some (.text text) => text
  | _ => []

def isReasoningBlock : Any F → Bool
  | .map block => ([lit "reasoning", lit "thinking", lit "redacted_thinking"]).contains
      (toLower (trimSpace (stringField (KeyMap.get block (lit "type")))))
  | _ => false

/-- Reasoning is not part of what a client replays. -/
def withoutReasoning (item : KeyMap (Any F)) : KeyMap (Any F) :=
  let item := [lit "reasoning_content", lit "reasoning", lit "thinking", lit "thought_signature"].foldl
    KeyMap.erase item
  match item.get (lit "content") with
  | some (.slice blocks) =>
    item.insert (lit "content") (.slice (blocks.filter (fun block => !isReasoningBlock block)))
  | _ => item

def visibleMessage : Any F → Any F
  | .map item =>
    if equalFold (trimSpace (stringField (KeyMap.get item (lit "role")))) (lit "assistant") then
      .map (withoutReasoning item)
    else .map item
  | message => message

def canonicalMessage (message : Any F) : Option Bytes :=
  (message.marshal φ).bind (fun b =>
    (Any.unmarshal φ b).bind (fun normalized => (visibleMessage normalized).marshal φ))

def canonicalMessages : List (Any F) → Option (List Bytes)
  | [] => some []
  | message :: messages =>
    (canonicalMessage φ message).bind (fun b => (canonicalMessages messages).map (fun out => b :: out))

def canonicalMessageRole (raw : Bytes) : Bytes :=
  match Any.unmarshal φ raw with
  | some (.map item) => toLower (trimSpace (stringField (KeyMap.get item (lit "role"))))
  | _ => []

/-- A copy by way of JSON. -/
def cloneAnyMessages (messages : List (Any F)) : List (Any F) :=
  if messages = [] then []
  else
    match ((Any.slice messages).marshal φ).bind (Any.unmarshal φ) with
    | some (.slice out) => out
    | _ => []

end messages

/-! Branches and the store. -/

structure Branch where
  scope : Scope
  sessionID : Bytes
  parentMessageID : Int
  requestMessages : List Bytes
  responseMessages : List Bytes
  named : trimSpace sessionID ≠ []
  parent : 0 < parentMessageID
  asked : requestMessages ≠ []
  answered : responseMessages ≠ []
  deriving DecidableEq

structure Entry extends Branch where
  id : Nat
  turns : Nat
  updatedAt : Int
  busy : Bool
  deriving DecidableEq

structure Store where
  ttl : Int
  maxBranches : Nat
  nextID : Nat := 0
  entries : Bytes → List Entry := fun _ => []

def newStore (ttl : Int) (maxBranches : Nat) : Store where
  ttl := if ttl ≤ 0 then 6 * 3600 * 1000000000 else ttl
  maxBranches := if maxBranches = 0 then 8 else maxBranches

theorem trimmed_named {sessionID : Bytes} (h : trimSpace sessionID ≠ []) :
    trimSpace (trimSpace sessionID) ≠ [] := by
  rw [trimSpace_idem]
  exact h

section store
variable {F : Type} (φ : FloatFormat F)

/-- The arguments of `Record` and `Complete`, where they are valid. -/
def checkBranch (scope : Scope) (requestMessages responseMessages : List (Any F)) (sessionID : Bytes)
    (parentMessageID : Int) : Option Branch :=
  (canonicalMessages φ requestMessages).bind (fun request =>
    (canonicalMessages φ responseMessages).bind (fun response =>
      if h : validScope scope = true ∧ trimSpace sessionID ≠ [] ∧ 0 < parentMessageID ∧ request ≠ [] ∧
          response ≠ [] then
        some ⟨scope, trimSpace sessionID, parentMessageID, request, response, trimmed_named h.2.1, h.2.2.1,
          h.2.2.2.1, h.2.2.2.2⟩
      else none))

def Store.setEntries (s : Store) (key : Bytes) (items : List Entry) : Store :=
  { s with entries := Function.update s.entries key items }

def Store.keeps (s : Store) (now : Int) (candidate : Entry) : Bool :=
  candidate.busy || decide (now - candidate.updatedAt ≤ s.ttl)

def Store.pruneLocked (s : Store) (now : Int) : Store :=
  { s with entries := fun key => (s.entries key).filter (s.keeps now) }

/-! Matching. -/

inductive MatchMode where
  | strictPrefix
  | slidingSuffix
  deriving DecidableEq

def messagePrefixEqual (current expected : List Bytes) (offset : Nat) : Bool :=
  decide (offset + expected.length ≤ current.length) &&
    decide ((current.drop offset).take expected.length = expected)

def leadingSystemCount (messages : List Bytes) : Nat :=
  (messages.takeWhile (fun raw => canonicalMessageRole φ raw == lit "system")).length

def rawMessagesContainRole (messages : List Bytes) (role : Bytes) : Bool :=
  messages.any (fun raw => canonicalMessageRole φ raw == role)

/-- The largest number from `n` down to `least` that fits. -/
def searchDown (fits : Nat → Bool) (least : Nat) : Nat → Option Nat
  | 0 => if 0 < least then none else if fits 0 then some 0 else none
  | n + 1 => if n + 1 < least then none else if fits (n + 1) then some (n + 1) else searchDown fits least n

/-- Whether the last `overlap` messages of the stored conversation come first in the current one, with
    a request of the user among them. -/
def overlapFits (storedConversation currentConversation : List Bytes) (responses overlap : Nat) : Bool :=
  let storedStart := storedConversation.length - overlap
  decide (currentConversation.take overlap = storedConversation.drop storedStart) &&
    rawMessagesContainRole φ ((storedConversation.take (storedConversation.length - responses)).drop storedStart)
      (lit "user")

def matchBranchExtension (current : List Bytes) (candidate : Entry) : Option (Nat × MatchMode) :=
  let strictConsumed := candidate.requestMessages.length + candidate.responseMessages.length
  if strictConsumed < current.length ∧ messagePrefixEqual current candidate.requestMessages 0 = true ∧
      messagePrefixEqual current candidate.responseMessages candidate.requestMessages.length = true then
    some (strictConsumed, .strictPrefix)
  else
    let requestSystemCount := leadingSystemCount φ candidate.requestMessages
    let currentSystemCount := leadingSystemCount φ current
    if requestSystemCount ≠ currentSystemCount ∨
        messagePrefixEqual current (candidate.requestMessages.take requestSystemCount) 0 = false then none
    else
      let storedConversation := candidate.requestMessages.drop requestSystemCount ++ candidate.responseMessages
      let currentConversation := current.drop currentSystemCount
      let maxOverlap := min storedConversation.length (currentConversation.length - 1)
      let minimumOverlap := candidate.responseMessages.length + 1
      (searchDown (overlapFits φ storedConversation currentConversation candidate.responseMessages.length)
        minimumOverlap maxOverlap).map (fun overlap => (currentSystemCount + overlap, .slidingSuffix))

/-! Operations. -/

structure Lease (F : Type) where
  key : Bytes
  entryID : Nat
  sessionID : Bytes
  parentMessageID : Int
  deltaMessages : List (Any F)
  turnCount : Nat
  rotate : Bool
  matchMode : MatchMode

/-- The candidate chosen so far, with what it consumes and how it matched. -/
abbrev Selected := Option (Entry × Nat × MatchMode)

/-- One turn of the loop over the candidates. -/
def selectCandidate (scope : Scope) (current : List Bytes) (selected : Selected) (candidate : Entry) :
    Selected :=
  if candidate.busy = true ∨ candidate.scope ≠ scope ∨ candidate.parentMessageID ≤ 0 ∨
      trimSpace candidate.sessionID = [] then selected
  else
    match matchBranchExtension φ current candidate with
    | none => selected
    | some (consumed, mode) =>
      match selected with
      | none => some (candidate, consumed, mode)
      | some (_, selectedConsumed, selectedMode) =>
        if consumed < selectedConsumed ∨ consumed = selectedConsumed ∧ selectedMode = .strictPrefix then
          selected
        else some (candidate, consumed, mode)

def updateEntry (id : Nat) (f : Entry → Entry) : List Entry → List Entry
  | [] => []
  | candidate :: items =>
    if candidate.id = id then f candidate :: items else candidate :: updateEntry id f items

def Store.prepareWithMaxTurns (s : Store) (scope : Scope) (messages : List (Any F)) (maxTurns : Int)
    (now : Int) : Store × Option (Lease F) :=
  if validScope scope = false ∨ messages = [] then (s, none)
  else
    match canonicalMessages φ messages with
    | none => (s, none)
    | some current =>
      let key := scopeKey scope
      let s := s.pruneLocked now
      match (s.entries key).foldl (selectCandidate φ scope current) none with
      | none => (s, none)
      | some (selected, consumed, mode) =>
        (s.setEntries key (updateEntry selected.id (fun e => { e with busy := true }) (s.entries key)),
          some { key := key, entryID := selected.id, sessionID := selected.sessionID,
                 parentMessageID := selected.parentMessageID,
                 deltaMessages := cloneAnyMessages φ (messages.drop consumed),
                 turnCount := selected.turns,
                 rotate := 0 < maxTurns && decide (maxTurns ≤ selected.turns),
                 matchMode := mode })

/-- The index of the first of the oldest entries. -/
def oldestFrom (oldest : Nat) (time : Int) : Nat → List Entry → Nat
  | _, [] => oldest
  | i, e :: items =>
    if e.updatedAt < time then oldestFrom i e.updatedAt (i + 1) items
    else oldestFrom oldest time (i + 1) items

def oldestEntry : List Entry → Nat
  | [] => 0
  | e :: items => oldestFrom 0 e.updatedAt 1 items

def Store.record (s : Store) (scope : Scope) (requestMessages responseMessages : List (Any F))
    (sessionID : Bytes) (parentMessageID : Int) (now : Int) : Store :=
  match checkBranch φ scope requestMessages responseMessages sessionID parentMessageID with
  | none => s
  | some branch =>
    let s := s.pruneLocked now
    let s := { s with nextID := s.nextID + 1 }
    let items := s.entries (scopeKey scope) ++ [⟨branch, s.nextID, 1, now, false⟩]
    s.setEntries (scopeKey scope)
      (if s.maxBranches < items.length then items.eraseIdx (oldestEntry items) else items)

def Store.invalidate (s : Store) (key : Bytes) (entryID : Nat) : Store :=
  s.setEntries key ((s.entries key).eraseP (fun candidate => candidate.id = entryID))

def Store.release (s : Store) (key : Bytes) (entryID : Nat) : Store :=
  s.setEntries key (updateEntry entryID (fun e => { e with busy := false }) (s.entries key))

/-- The entry is completed where it is, whatever its new scope. -/
def Store.complete (s : Store) (key : Bytes) (entryID : Nat) (scope : Scope)
    (requestMessages responseMessages : List (Any F)) (sessionID : Bytes) (parentMessageID : Int)
    (now : Int) : Store :=
  match checkBranch φ scope requestMessages responseMessages sessionID parentMessageID with
  | none => s.invalidate key entryID
  | some branch =>
    s.setEntries key (updateEntry entryID (fun e => ⟨branch, e.id, e.turns + 1, now, false⟩) (s.entries key))

variable {φ}

theorem checkBranch_eq_some {scope : Scope} {requestMessages responseMessages : List (Any F)}
    {sessionID : Bytes} {parentMessageID : Int} {branch : Branch}
    (h : checkBranch φ scope requestMessages responseMessages sessionID parentMessageID = some branch) :
    validScope scope = true ∧ branch.scope = scope ∧
      canonicalMessages φ requestMessages = some branch.requestMessages ∧
      canonicalMessages φ responseMessages = some branch.responseMessages := by
  obtain ⟨request, hrequest, h⟩ := Option.bind_eq_some_iff.mp h
  obtain ⟨response, hresponse, h⟩ := Option.bind_eq_some_iff.mp h
  split_ifs at h with hvalid
  cases h
  exact ⟨hvalid.1, rfl, hrequest, hresponse⟩

/-- Another bucket gets no entry. -/
theorem Store.record_elsewhere {s : Store} {scope : Scope} {requestMessages responseMessages : List (Any F)}
    {sessionID key : Bytes} {parentMessageID now : Int} {e : Entry} (hne : key ≠ scopeKey scope)
    (h : e ∈ (s.record φ scope requestMessages responseMessages sessionID parentMessageID now).entries key) :
    e ∈ s.entries key := by
  rw [Store.record] at h
  cases hcheck : checkBranch φ scope requestMessages responseMessages sessionID parentMessageID with
  | none =>
    rw [hcheck] at h
    exact h
  | some branch =>
    rw [hcheck] at h
    simp only [Store.setEntries, Function.update_of_ne hne] at h
    exact (List.mem_filter.mp h).1

end store

end DeepSeekWebToApi.Upstreamsession
