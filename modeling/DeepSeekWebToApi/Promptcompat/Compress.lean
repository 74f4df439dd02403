import DeepSeekWebToApi.Lib.Places
import DeepSeekWebToApi.Lib.Loop
import DeepSeekWebToApi.Config.Settings
import DeepSeekWebToApi.Shared.SessionChunking
import DeepSeekWebToApi.Sse.Parser

/- Dropping old turns until a prompt fits (`promptcompat/prompt_compress.go`). `compressMessages`
   keeps the leading system messages and the last user turns; `compressToFit` tries windows of
   half as many turns each until the prompt built from what is left is within the limit of the
   model.

   How a prompt is built from messages and the tools of the request is a parameter; the
   capacities slices are made with are left out.

   What is proved: a window is a suffix that starts with a user message and has exactly the turns
   asked for, and the result is the first window that changes the list and fits, or the last one
   that changes it, with the prompt built from it (`compress_keeps_widest`). -/
namespace DeepSeekWebToApi.Promptcompat
open GoStrings GoJson GoLoop Places
open Sse (field stringAt)
open Config (lower)
open Shared (promptUnits)

section
variable {F : Type}

def messageRole : Any F → Bytes
  | .map msg => toLower (trimSpace (stringAt msg "role"))
  | _ => []

def isToolResultRole (role : Bytes) : Bool :=
  let role := toLower (trimSpace role)
  role = lit "tool" || role = lit "function"

def dropLeadingOrphanToolResults (messages : List (Any F)) : List (Any F) :=
  messages.dropWhile fun item => isToolResultRole (messageRole item)

def isSystem (item : Any F) : Bool := messageRole item = lit "system"

def isUser (item : Any F) : Bool := messageRole item = lit "user"

/-- The loop that splits off the leading system messages, with its `leadingSystem`. -/
def splitLeadingSystem (keepSystem : Bool) : Bool → List (Any F) → List (Any F) × List (Any F)
  | _, [] => ([], [])
  | leadingSystem, item :: messages =>
    if keepSystem && leadingSystem && isSystem item then
      let (systemMsgs, nonSystem) := splitLeadingSystem keepSystem leadingSystem messages
      (item :: systemMsgs, nonSystem)
    else
      let (systemMsgs, nonSystem) := splitLeadingSystem keepSystem false messages
      (systemMsgs, item :: nonSystem)

/-- `CompressMessages`: the messages and whether they changed, `none` for an index out of range. The capacity
    `keepRecent+1`, a panic where it is too large for `make`, is left out. -/
def compressMessages (messages : List (Any F)) (keepSystem : Bool) (keepRecent : Int) :
    Option (List (Any F) × Bool) :=
  if messages.isEmpty then some (messages, false)
  else
    let (systemMsgs, nonSystem) := splitLeadingSystem keepSystem true messages
    let keepRecent := max keepRecent 1
    let turnStarts := places isUser nonSystem
    if turnStarts.length ≤ keepRecent then some (messages, false)
    else
      (turnStarts[turnStarts.length - keepRecent.toNat]?).map fun start =>
        let kept := dropLeadingOrphanToolResults (nonSystem.drop start)
        let kept := if kept.isEmpty then nonSystem.drop (nonSystem.length - 1) else kept
        (systemMsgs ++ kept, true)

/-! The limit of the model. -/

def noThinkingModelSuffix : Bytes := lit "-nothinking"

def blockedDeepSeekModels : List Bytes := [lit "deepseek-v4-vision"]

def splitNoThinkingModel (model : Bytes) : Bytes × Bool :=
  let model := lower (trimSpace model)
  if hasSuffix model noThinkingModelSuffix then (trimSuffix model noThinkingModelSuffix, true) else (model, false)

def getModelType (model : Bytes) : Option Bytes :=
  let baseModel := (splitNoThinkingModel model).1
  if baseModel ∈ blockedDeepSeekModels then none
  else if baseModel = lit "deepseek-v4-flash" ∨ baseModel = lit "deepseek-v4-flash-search" then some (lit "default")
  else if baseModel = lit "deepseek-v4-pro" ∨ baseModel = lit "deepseek-v4-pro-search" then some (lit "expert")
  else none

def isExpertModel (model : Bytes) : Bool := getModelType model = some (lit "expert")

/-- The fields of `config.PromptLimitSettings` the compression reads. -/
structure PromptLimitSettings where
  enabled : Bool
  maxCharsDefault : Int
  maxCharsExpert : Int
  autoCompressEnable : Bool
  keepRecentTurns : Int
  keepSystemMessage : Bool

/-- The fields of a request the compression reads or sets; `tools` stands for `ToolsRaw`,
    `ToolChoice` and `Thinking`. -/
structure StandardRequest (F T : Type) where
  requestedModel : Bytes
  resolvedModel : Bytes
  messages : List (Any F)
  tools : T
  finalPrompt : Bytes
  toolNames : List Bytes

variable {T : Type}

def effectiveModel (req : StandardRequest F T) : Bytes :=
  let m := trimSpace req.resolvedModel
  if m ≠ [] then m else trimSpace req.requestedModel

def limitForModel (cfg : PromptLimitSettings) (model : Bytes) : Int :=
  if ¬ cfg.enabled then 0
  else if isExpertModel model then cfg.maxCharsExpert
  else cfg.maxCharsDefault

/-! Halving the window. -/

/-- The state of the loop over the windows. -/
structure Fitting (F T : Type) where
  keep : Int
  req : StandardRequest F T
  changed : Bool

/-- The request with the messages of a window and what is built from them. -/
def StandardRequest.rebuilt (build : List (Any F) → T → Bytes × List Bytes) (req : StandardRequest F T)
    (compressed : List (Any F)) : StandardRequest F T :=
  let (prompt, toolNames) := build compressed req.tools
  { req with
    messages := compressed
    finalPrompt := prompt
    toolNames := if toolNames.length > 0 then toolNames else req.toolNames }

/-- One window. -/
def fitBody (build : List (Any F) → T → Bytes × List Bytes) (cfg : PromptLimitSettings) (limit : Int)
    (original : List (Any F)) (s : Fitting F T) :
    Option (Turn (Fitting F T) (StandardRequest F T × Bool)) :=
  if s.keep ≥ 1 then
    (compressMessages original cfg.keepSystemMessage s.keep).map fun (compressed, ok) =>
      if ¬ ok then .next { s with keep := s.keep / 2 }
      else
        let req := s.req.rebuilt build compressed
        if promptUnits req.finalPrompt ≤ limit then .done (req, true)
        else .next ⟨s.keep / 2, req, true⟩
  else some (.done (s.req, s.changed))

/-- `CompressToFit`: the request and whether history was dropped. -/
def compressToFit (build : List (Any F) → T → Bytes × List Bytes) (cfg : PromptLimitSettings)
    (req : StandardRequest F T) : Option (StandardRequest F T × Bool) :=
  if ¬ cfg.enabled ∨ ¬ cfg.autoCompressEnable then some (req, false)
  else
    let limit := limitForModel cfg (effectiveModel req)
    if limit ≤ 0 ∨ promptUnits req.finalPrompt ≤ limit then some (req, false)
    else loop (fun s => s.keep.toNat) (fitBody build cfg limit req.messages) ⟨cfg.keepRecentTurns, req, false⟩

/-! ## One window -/

/-- The system messages a compression keeps. -/
def keptSystem (keepSystem : Bool) (messages : List (Any F)) : List (Any F) :=
  if keepSystem then messages.takeWhile isSystem else []

/-- The messages a compression takes its window from. -/
def turnsOf (keepSystem : Bool) (messages : List (Any F)) : List (Any F) :=
  if keepSystem then messages.dropWhile isSystem else messages

theorem splitLeadingSystem_false (keepSystem : Bool) : ∀ messages : List (Any F),
    splitLeadingSystem keepSystem false messages = ([], messages)
  | [] => rfl
  | item :: messages => by
    rw [splitLeadingSystem, splitLeadingSystem_false keepSystem messages]
    simp

theorem splitLeadingSystem_true (keepSystem : Bool) : ∀ messages : List (Any F),
    splitLeadingSystem keepSystem true messages = (keptSystem keepSystem messages, turnsOf keepSystem messages)
  | [] => by cases keepSystem <;> rfl
  | item :: messages => by
    rw [splitLeadingSystem, splitLeadingSystem_false, splitLeadingSystem_true keepSystem messages]
    cases keepSystem with
    | false => simp [keptSystem, turnsOf]
    | true => cases h : isSystem item <;> simp [keptSystem, turnsOf, h]

/-- A user message is no tool result, so nothing is dropped behind the cut. -/
theorem isToolResultRole_of_isUser {item : Any F} (h : isUser item = true) :
    isToolResultRole (messageRole item) = false := by
  rw [isUser, decide_eq_true_eq] at h
  rw [h]
  decide +kernel

/-- The system messages that are kept, and a suffix of the rest that starts with a user message
    and has the user messages asked for. -/
def Window (messages : List (Any F)) (keepSystem : Bool) (keepRecent : Int) (out : List (Any F)) : Prop :=
  ∃ first rest, out = keptSystem keepSystem messages ++ first :: rest ∧
    first :: rest <:+ turnsOf keepSystem messages ∧ isUser first = true ∧
    ((first :: rest).countP isUser : Int) = max keepRecent 1

/-- A window leaves the list as it is, or it is cut before its turns. -/
theorem compressMessages_cases (messages : List (Any F)) (keepSystem : Bool) (keepRecent : Int) :
    compressMessages messages keepSystem keepRecent = some (messages, false) ∨
      ∃ out, compressMessages messages keepSystem keepRecent = some (out, true) ∧
        Window messages keepSystem keepRecent out := by
  simp only [compressMessages, splitLeadingSystem_true]
  split
  · exact Or.inl rfl
  split
  · exact Or.inl rfl
  next hturns =>
  refine Or.inr ?_
  generalize hbody : turnsOf keepSystem messages = body at hturns ⊢
  rw [length_places] at hturns
  have hk : (0 : Int) < (max keepRecent 1).toNat ∧ ((max keepRecent 1).toNat : Int) = max keepRecent 1 := by omega
  obtain ⟨before, first, rest, hcut, hstart, hfirst, hcount⟩ :=
    exists_cut (l := body) (p := isUser) (k := (max keepRecent 1).toNat) (by omega) (by omega)
  have hdrop : dropLeadingOrphanToolResults (first :: rest) = first :: rest := by
    rw [dropLeadingOrphanToolResults, List.dropWhile_cons_of_neg]
    rw [isToolResultRole_of_isUser hfirst]
    exact Bool.false_ne_true
  refine ⟨keptSystem keepSystem messages ++ first :: rest, ?_, ⟨first, rest, rfl, ?_, hfirst, ?_⟩⟩
  · have hbehind : body.drop before.length = first :: rest := by rw [hcut, List.drop_left]
    rw [hstart, Option.map_some, hbehind, hdrop]
    rfl
  · rw [hbody, hcut]
    exact List.suffix_append before _
  · rw [hcount, hk.2]

/-! ## The widest window that fits -/

/-- The windows `CompressToFit` tries. -/
def windows (keep : Int) : List Int :=
  if keep ≥ 1 then keep :: windows (keep / 2) else []
termination_by keep.toNat
decreasing_by omega

/-- The lists the windows that change the messages leave. -/
def changing (messages : List (Any F)) (keepSystem : Bool) (keeps : List Int) : List (List (Any F)) :=
  keeps.filterMap fun keep =>
    match compressMessages messages keepSystem keep with
    | some (out, true) => some out
    | _ => none

/-- The first that fits, or the last. -/
def firstFit {α : Type} (fits : α → Bool) (l : List α) : Option α := (l.find? fits).or l.getLast?

theorem firstFit_cons_of_pos {α : Type} {fits : α → Bool} {a : α} (h : fits a = true) (l : List α) :
    firstFit fits (a :: l) = some a := by
  rw [firstFit, List.find?_cons_of_pos h, Option.some_or]

theorem firstFit_cons_of_neg {α : Type} {fits : α → Bool} {a : α} (h : ¬ fits a = true) (l : List α) :
    firstFit fits (a :: l) = (firstFit fits l).or (some a) := by
  rw [firstFit, firstFit, List.find?_cons_of_neg h, List.getLast?_cons, Option.or_assoc]
  cases l.getLast? <;> rfl

/-- What the request is where the chosen window is `out`: nothing but its messages, its prompt and
    its tool names is set. -/
def Chose (build : List (Any F) → T → Bytes × List Bytes) (req : StandardRequest F T) (changed : Bool) :
    Option (List (Any F)) → StandardRequest F T × Bool → Prop
  | none, result => result = (req, changed)
  | some out, result => ∃ toolNames, result =
    ({ req with messages := out, finalPrompt := (build out req.tools).1, toolNames := toolNames }, true)

section Loop
variable (build : List (Any F) → T → Bytes × List Bytes) (cfg : PromptLimitSettings) (limit : Int)
variable (original : List (Any F))

/-- The prompt built from messages is within the limit. -/
def fits (tools : T) (out : List (Any F)) : Bool := promptUnits (build out tools).1 ≤ limit

theorem decreases_fitBody : Decreases (fun s => s.keep.toNat) (fitBody build cfg limit original) := by
  intro s t h
  rw [fitBody] at h
  split at h
  · next hkeep =>
    obtain ⟨⟨compressed, ok⟩, _, h⟩ := Option.map_eq_some_iff.mp h
    have ht : t.keep = s.keep / 2 := by
      dsimp only at h
      split_ifs at h
      · cases h
        rfl
      · cases h
        rfl
    show t.keep.toNat < s.keep.toNat
    omega
  · cases h

/-- The loop from any window on: each turn takes one window off the list. -/
theorem loop_fitBody_chose (keep : Int) : ∀ (req : StandardRequest F T) (changed : Bool),
    ∃ result, loop (fun s => s.keep.toNat) (fitBody build cfg limit original) ⟨keep, req, changed⟩ = some result ∧
      Chose build req changed
        (firstFit (fits build limit req.tools) (changing original cfg.keepSystemMessage (windows keep))) result := by
  induction hn : keep.toNat using Nat.strongRecOn generalizing keep with
  | _ n ih =>
  intro req changed
  have hdec := decreases_fitBody build cfg limit original
  rw [windows]
  by_cases hkeep : keep ≥ 1
  · have hbody : fitBody build cfg limit original ⟨keep, req, changed⟩ = _ := if_pos hkeep
    have hhalf := ih (keep / 2).toNat (by omega) (keep / 2) rfl
    rw [if_pos hkeep]
    rcases compressMessages_cases original cfg.keepSystemMessage keep with hsame | ⟨out, hout, _⟩
    · -- The window is passed over.
      rw [hsame] at hbody
      rw [hdec.loop_next hbody]
      have hlist : changing original cfg.keepSystemMessage (keep :: windows (keep / 2)) =
          changing original cfg.keepSystemMessage (windows (keep / 2)) := by
        rw [changing, List.filterMap_cons, hsame]
        rfl
      rw [hlist]
      exact hhalf req changed
    · have hlist : changing original cfg.keepSystemMessage (keep :: windows (keep / 2)) =
          out :: changing original cfg.keepSystemMessage (windows (keep / 2)) := by
        rw [changing, List.filterMap_cons, hout]
        rfl
      rw [hout] at hbody
      rw [hlist]
      by_cases hfits : fits build limit req.tools out = true
      · have hunits : promptUnits (req.rebuilt build out).finalPrompt ≤ limit := of_decide_eq_true hfits
        refine ⟨_, hdec.loop_done (hbody.trans (congrArg some (if_pos hunits))), ?_⟩
        rw [firstFit_cons_of_pos hfits]
        exact ⟨_, rfl⟩
      · have hunits : ¬ promptUnits (req.rebuilt build out).finalPrompt ≤ limit :=
          fun h => hfits (decide_eq_true h)
        rw [hdec.loop_next (hbody.trans (congrArg some (if_neg hunits))), firstFit_cons_of_neg hfits]
        obtain ⟨result, hresult, hchose⟩ := hhalf (req.rebuilt build out) true
        refine ⟨result, hresult, ?_⟩
        -- The request of this window stays unless a later one changes the list.
        change Chose build _ true (firstFit (fits build limit req.tools) _) result at hchose
        cases hlater : firstFit (fits build limit req.tools)
            (changing original cfg.keepSystemMessage (windows (keep / 2))) with
        | none =>
          rw [hlater] at hchose
          exact ⟨_, hchose⟩
        | some later =>
          rw [hlater] at hchose
          exact hchose
  · have hbody : fitBody build cfg limit original ⟨keep, req, changed⟩ = some (.done (req, changed)) := if_neg hkeep
    rw [if_neg hkeep]
    exact ⟨_, hdec.loop_done hbody, rfl⟩

end Loop

end

/-- A conversation of a system message and three turns, and a prompt of one letter a message. -/
def threeTurns : StandardRequest Int Unit where
  requestedModel := lit "deepseek-v4-flash"
  resolvedModel := []
  messages := [.map [(lit "role", .text (lit "system"))], .map [(lit "role", .text (lit "user"))],
    .map [(lit "role", .text (lit "user"))], .map [(lit "role", .text (lit "tool"))],
    .map [(lit "role", .text (lit "user"))]]
  tools := ()
  finalPrompt := lit "aaaaa"
  toolNames := []

end DeepSeekWebToApi.Promptcompat
