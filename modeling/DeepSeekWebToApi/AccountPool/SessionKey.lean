import DeepSeekWebToApi.Sse.Line

/- The session key (`SessionKey` of `internal/account/affinity.go`). A conversation is told by
   what a request says before its first answer: the caller, the identity fields, the system
   texts, the first user message. The texts are written to one SHA-256, so the digest is a
   function of their concatenation; the digest itself is the parameter `sha256`, and a JSON
   number is read by `φ`.

   Every place that is read is a top-level field by name. Of the messages the system loop reads
   those with the role `system` or `developer`, and the user loop stops at the first one with
   the role `user`, whether it found a text in it or not. So a conversation that grows keeps
   its key (`sessionKey_stable`). -/
namespace DeepSeekWebToApi.AccountPool
open GoStrings GoJson
open Sse (field unmarshalObject)

section
variable {F : Type}

def stringValue : Option (Any F) → Bytes
  | some (.text s) => s
  | _ => []

/-! ## Identity fields -/

/-- The fields that name a user or a session, with the labels they are hashed under. -/
def identityFields : List (Bytes × Bytes) :=
  [(lit "user", lit "user"), (lit "user_id", lit "user_id"), (lit "userId", lit "user_id"),
    (lit "session_id", lit "session_id"), (lit "sessionId", lit "session_id"),
    (lit "conversation_id", lit "conversation_id"), (lit "conversationId", lit "conversation_id"),
    (lit "thread_id", lit "thread_id"), (lit "threadId", lit "thread_id"),
    (lit "response_id", lit "response_id"), (lit "responseId", lit "response_id"),
    (lit "previous_response_id", lit "previous_response_id"),
    (lit "previousResponseId", lit "previous_response_id")]

def writeIdentityField (label value : Bytes) : Bytes := lit "id:" ++ label ++ lit ":" ++ value ++ [0]

/-- The loop over the identity fields of a map. -/
def hashIdentityFields (m : KeyMap (Any F)) (before : Bytes) : Bytes :=
  identityFields.flatMap fun f =>
    let v := trimSpace (stringValue (m.get f.1))
    if v ≠ [] then writeIdentityField (before ++ f.2) v else []

def hashSessionIdentity (doc : KeyMap (Any F)) : Bytes :=
  hashIdentityFields doc [] ++
    match field doc "metadata" with
    | some (.map metadata) => hashIdentityFields metadata (lit "metadata.")
    | _ => []

/-! ## System texts -/

def sysText (t : Bytes) : Bytes := lit "sys:" ++ t ++ [0]

/-- The non-empty texts of the blocks of a list. -/
def blockTexts (blocks : List (Any F)) : List Bytes :=
  blocks.filterMap fun
    | .map m =>
      match field m "text" with
      | some (.text t) => if t ≠ [] then some t else none
      | _ => none
    | _ => none

/-- `msg["role"].(string)` of a message that is a map. -/
def messageRole : Any F → Option Bytes
  | .map m => some (stringValue (field m "role"))
  | _ => none

def messageContent : Any F → Option (Any F)
  | .map m => field m "content"
  | _ => none

/-- What the system loop writes for a message. -/
def hashSystemMessage (m : Any F) : Bytes :=
  if messageRole m = some (lit "system") ∨ messageRole m = some (lit "developer") then
    match messageContent m with
    | some (.text c) => if c ≠ [] then sysText c else []
    | some (.slice blocks) => (blockTexts blocks).flatMap sysText
    | _ => []
  else []

/-- The text of an item of the Responses input. -/
def responseInputText (msg : KeyMap (Any F)) : Bytes :=
  if trimSpace (stringValue (field msg "text")) ≠ [] then trimSpace (stringValue (field msg "text"))
  else
    match field msg "content" with
    | some (.text c) => trimSpace c
    | some (.slice blocks) =>
      trimSpace (blocks.flatMap fun
        | .map block =>
          let text := trimSpace (stringValue (field block "text"))
          if text ≠ [] then text ++ lit "\n" else []
        | _ => [])
    | _ => []

def inputRole (msg : KeyMap (Any F)) : Bytes := toLower (trimSpace (stringValue (field msg "role")))

def hashInputSystem (doc : KeyMap (Any F)) : Bytes :=
  match field doc "input" with
  | some (.slice items) =>
    items.flatMap fun
      | .map msg =>
        if inputRole msg = lit "system" ∨ inputRole msg = lit "developer" then
          if responseInputText msg ≠ [] then sysText (responseInputText msg) else []
        else []
      | _ => []
  | _ => []

/-- What the messages of a document write. -/
def hashSystemMessages (doc : KeyMap (Any F)) : Bytes :=
  match field doc "messages" with
  | some (.slice msgs) => msgs.flatMap hashSystemMessage
  | _ => []

def hashSystem (doc : KeyMap (Any F)) : Bytes :=
  let instructions := trimSpace (stringValue (field doc "instructions"))
  (if instructions ≠ [] then sysText instructions else []) ++
    (match field doc "system" with
      | some (.text s) => if s ≠ [] then sysText s else []
      | some (.slice items) => (blockTexts items).flatMap sysText
      | _ => []) ++
    (match field doc "systemInstruction" with
      | some (.map si) =>
        match field si "parts" with
        | some (.slice parts) => (blockTexts parts).flatMap sysText
        | _ => []
      | _ => []) ++
    hashSystemMessages doc ++ hashInputSystem doc

/-! ## The first user text -/

/-- `usr:` and the texts, where there is one. -/
def usrTexts (texts : List Bytes) : Option Bytes :=
  if texts = [] then none else some (lit "usr:" ++ texts.flatten)

def usrText (t : Bytes) : Option Bytes := if t ≠ [] then some (lit "usr:" ++ t) else none

/-- The loop over the messages: what is written for the first user message, if anything. -/
def hashFirstUserMessage : List (Any F) → Option Bytes
  | [] => none
  | m :: msgs =>
    if messageRole m = some (lit "user") then
      match messageContent m with
      | some (.text c) => usrText c
      | some (.slice blocks) => usrTexts (blockTexts blocks)
      | _ => none
    else hashFirstUserMessage msgs

/-- The loop over the items of a Responses input. -/
def hashFirstUserItem : List (Any F) → Option Bytes
  | [] => none
  | .text x :: items => if trimSpace x ≠ [] then some (lit "usr:" ++ trimSpace x) else hashFirstUserItem items
  | .map x :: items =>
    if inputRole x ≠ [] ∧ inputRole x ≠ lit "user" then hashFirstUserItem items
    else if responseInputText x ≠ [] then some (lit "usr:" ++ responseInputText x)
    else hashFirstUserItem items
  | _ :: items => hashFirstUserItem items

def hashResponsesInputFirstUser : Option (Any F) → Option Bytes
  | some (.text v) => usrText (trimSpace v)
  | some (.slice items) => hashFirstUserItem items
  | some (.map v) => usrText (responseInputText v)
  | _ => none

/-- The loop over the contents of a Gemini request. -/
def hashFirstUserContent : List (Any F) → Option Bytes
  | [] => none
  | .map cm :: conts =>
    if stringValue (field cm "role") ≠ [] ∧ stringValue (field cm "role") ≠ lit "user" then
      hashFirstUserContent conts
    else
      match field cm "parts" with
      | some (.slice parts) => usrTexts (blockTexts parts)
      | _ => hashFirstUserContent conts
  | _ :: conts => hashFirstUserContent conts

/-- What the messages of a document write for its first user text. -/
def hashMessagesFirstUser (doc : KeyMap (Any F)) : Option Bytes :=
  match field doc "messages" with
  | some (.slice msgs) => hashFirstUserMessage msgs
  | _ => none

/-- The three places in order; `none` where none of them has a user text. -/
def hashFirstUserText (doc : KeyMap (Any F)) : Option Bytes :=
  (hashMessagesFirstUser doc).or
    ((hashResponsesInputFirstUser (field doc "input")).or
      (match field doc "contents" with
        | some (.slice conts) => hashFirstUserContent conts
        | _ => none))

/-! ## The key -/

/-- The key of a decoded request. -/
def documentKey (sha256 : Bytes → Bytes) (callerHash : Bytes) (doc : KeyMap (Any F)) : Bytes :=
  match hashFirstUserText doc with
  | some text =>
    hexEncode ((sha256 (callerHash ++ [0] ++ hashSessionIdentity doc ++ hashSystem doc ++ text)).take 8)
  | none => []

/-- `SessionKey`; empty for a body that does not decode or has no user text. -/
def sessionKey (φ : FloatFormat F) (sha256 : Bytes → Bytes) (callerHash body : Bytes) : Bytes :=
  if body = [] then []
  else
    match unmarshalObject φ body with
    | some doc => documentKey sha256 callerHash doc
    | none => []

/-! ## Growing conversations -/

/-- The top-level fields the key reads beside the messages. -/
def sessionFields : List Bytes :=
  identityFields.map Prod.fst ++
    [lit "metadata", lit "instructions", lit "system", lit "systemInstruction", lit "input", lit "contents"]

/-- A document with the same session fields and some more messages. -/
structure Grows (doc doc' : KeyMap (Any F)) (msgs more : List (Any F)) : Prop where
  fields : ∀ f ∈ sessionFields, doc'.get f = doc.get f
  messages : field doc "messages" = some (.slice msgs)
  messages' : field doc' "messages" = some (.slice (msgs ++ more))

theorem hashIdentityFields_congr {m m' : KeyMap (Any F)} (before : Bytes)
    (h : ∀ f ∈ identityFields.map Prod.fst, m'.get f = m.get f) :
    hashIdentityFields m' before = hashIdentityFields m before := by
  refine List.flatMap_congr fun f hf => ?_
  rw [h f.1 (List.mem_map_of_mem hf)]

theorem hashSystemMessage_nil {m : Any F} (hsystem : messageRole m ≠ some (lit "system"))
    (hdeveloper : messageRole m ≠ some (lit "developer")) : hashSystemMessage m = [] :=
  if_neg (not_or.mpr ⟨hsystem, hdeveloper⟩)

/-- The user loop does not come to what is behind the first user message. -/
theorem hashFirstUserMessage_append {more : List (Any F)} : ∀ {msgs : List (Any F)},
    (∃ m ∈ msgs, messageRole m = some (lit "user")) →
    hashFirstUserMessage (msgs ++ more) = hashFirstUserMessage msgs
  | [], h => by
    obtain ⟨m, hm, -⟩ := h
    cases hm
  | m :: msgs, h => by
    rw [List.cons_append, hashFirstUserMessage, hashFirstUserMessage]
    split
    · rfl
    · next hrole =>
      refine hashFirstUserMessage_append ?_
      obtain ⟨u, hu, huser⟩ := h
      rcases List.mem_cons.mp hu with rfl | hu
      · exact absurd huser hrole
      · exact ⟨u, hu, huser⟩

section grows
variable {doc doc' : KeyMap (Any F)} {msgs more : List (Any F)}

theorem Grows.field (h : Grows doc doc' msgs more) (key : String) (hkey : lit key ∈ sessionFields) :
    field doc' key = field doc key := h.fields _ hkey

theorem Grows.identity (h : Grows doc doc' msgs more) : hashSessionIdentity doc' = hashSessionIdentity doc := by
  have hids : ∀ f ∈ identityFields.map Prod.fst, doc'.get f = doc.get f :=
    fun f hf => h.fields f (List.mem_append_left _ hf)
  rw [hashSessionIdentity, hashIdentityFields_congr [] hids, h.field "metadata" (by decide),
    hashSessionIdentity]

theorem Grows.system (h : Grows doc doc' msgs more)
    (hsystem : ∀ m ∈ more, messageRole m ≠ some (lit "system") ∧ messageRole m ≠ some (lit "developer")) :
    hashSystem doc' = hashSystem doc := by
  have hmore : more.flatMap hashSystemMessage = [] := by
    refine List.flatMap_eq_nil_iff.mpr fun m hm => ?_
    exact hashSystemMessage_nil (hsystem m hm).1 (hsystem m hm).2
  have hmsgs : hashSystemMessages doc' = hashSystemMessages doc := by
    simp only [hashSystemMessages, h.messages, h.messages', List.flatMap_append, hmore, List.append_nil]
  have hinput : hashInputSystem doc' = hashInputSystem doc := by
    rw [hashInputSystem, h.field "input" (by decide), hashInputSystem]
  rw [hashSystem, hmsgs, hinput, h.field "instructions" (by decide), h.field "system" (by decide),
    h.field "systemInstruction" (by decide), hashSystem]

theorem Grows.firstUser (h : Grows doc doc' msgs more)
    (huser : ∃ m ∈ msgs, messageRole m = some (lit "user")) :
    hashFirstUserText doc' = hashFirstUserText doc := by
  have hmsgs : hashMessagesFirstUser doc' = hashMessagesFirstUser doc := by
    simp only [hashMessagesFirstUser, h.messages, h.messages', hashFirstUserMessage_append huser]
  rw [hashFirstUserText, hmsgs, h.field "input" (by decide), h.field "contents" (by decide),
    hashFirstUserText]

end grows

/-- The key of a conversation stays as it is when messages are appended that are no system or developer
    messages, whatever happens to the fields the key does not read. -/
theorem sessionKey_stable (φ : FloatFormat F) (sha256 : Bytes → Bytes) (callerHash : Bytes) {body body' : Bytes}
    {doc doc' : KeyMap (Any F)} {msgs more : List (Any F)} (hbody : unmarshalObject φ body = some doc)
    (hbody' : unmarshalObject φ body' = some doc') (hgrows : Grows doc doc' msgs more)
    (huser : ∃ m ∈ msgs, messageRole m = some (lit "user"))
    (hmore : ∀ m ∈ more, messageRole m ≠ some (lit "system") ∧ messageRole m ≠ some (lit "developer")) :
    sessionKey φ sha256 callerHash body' = sessionKey φ sha256 callerHash body := by
  have hne : ∀ {b d}, unmarshalObject φ b = some d → b ≠ [] := by
    rintro b d hb rfl
    cases hb
  rw [sessionKey, if_neg (hne hbody'), sessionKey, if_neg (hne hbody), hbody, hbody']
  show documentKey sha256 callerHash doc' = documentKey sha256 callerHash doc
  rw [documentKey, hgrows.identity, hgrows.system hmore, hgrows.firstUser huser, documentKey]

end

/-- A message of a chat as a decoded map. -/
def chatMessage (role content : String) : Any Int :=
  .map [(lit "content", .text (lit content)), (lit "role", .text (lit role))]

def firstTurn : Bytes :=
  lit "\x7b\"model\":\"a\",\"messages\":[\x7b\"role\":\"user\",\"content\":\"hi\"\x7d]\x7d"

def secondTurn : Bytes :=
  lit ("\x7b\"model\":\"b\",\"messages\":[\x7b\"role\":\"user\",\"content\":\"hi\"\x7d," ++
    "\x7b\"role\":\"assistant\",\"content\":\"yes\"\x7d]\x7d")

/-- The second turn of a chat, sent to another model. -/
theorem sessionKey_stable_second_turn :
    sessionKey wholeNumbers id (lit "caller") secondTurn = sessionKey wholeNumbers id (lit "caller") firstTurn ∧
      sessionKey wholeNumbers id (lit "caller") firstTurn ≠ [] := by
  have hbody : unmarshalObject wholeNumbers firstTurn =
      some [(lit "messages", .slice [chatMessage "user" "hi"]), (lit "model", .text (lit "a"))] := rfl
  have hbody' : unmarshalObject wholeNumbers secondTurn =
      some [(lit "messages", .slice ([chatMessage "user" "hi"] ++ [chatMessage "assistant" "yes"])),
        (lit "model", .text (lit "b"))] := rfl
  have hunread : ∀ f ∈ sessionFields, lit "messages" ≠ f ∧ lit "model" ≠ f := by decide
  refine ⟨sessionKey_stable wholeNumbers id (lit "caller") hbody hbody' ⟨fun f hf => ?_, rfl, rfl⟩ ?_ ?_, by decide +kernel⟩
  · obtain ⟨hmessages, hmodel⟩ := hunread f hf
    simp only [KeyMap.get_cons, if_neg hmessages, if_neg hmodel]
  · exact ⟨_, List.mem_singleton_self _, rfl⟩
  · exact List.forall_mem_singleton.mpr (by decide)

end DeepSeekWebToApi.AccountPool
