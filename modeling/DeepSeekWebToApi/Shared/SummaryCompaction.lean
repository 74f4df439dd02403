import DeepSeekWebToApi.Lib.Places
import DeepSeekWebToApi.Lib.Runs
import DeepSeekWebToApi.Lib.Loop
import DeepSeekWebToApi.Shared.SessionChunking
import DeepSeekWebToApi.Sse.Line

/- Compacting a conversation into a rolling summary (`openai/shared/summary_compaction.go`).
   The leading system messages are permanent unless they are summaries of an earlier
   compaction, the last few user turns stay as they are, and everything else becomes the source
   of one new summary between the two.

   What the window search is given from outside: the units of a prompt built from messages, the
   size of their JSON, whether the source fits the summarising model, and what that model
   answers.

   What is proved: a window splits the messages without loss (`WindowLaws`), the two halves of a
   compacted conversation are found again, and in every run of growing and compacting there is
   exactly one generated summary among the leading system messages once one was written
   (`summary_compaction_laws`). -/
namespace DeepSeekWebToApi.Shared
open GoStrings GoJson GoLoop Places Runs
open Sse (field)

section
variable {F : Type} (num : FloatText F)

def summaryCompactionMarker : Bytes := lit "ds2api_summary_v1"

/-- `fmt.Sprintf("%v", message[key])`; an item that is no map has no fields. -/
def printedField (item : Any F) (key : String) : Bytes :=
  match item with
  | .map message => ((field message key).getD .nil).sprint num
  | _ => (Any.nil : Any F).sprint num

def summaryMessageRole (item : Any F) : Bytes := toLower (trimSpace (printedField num item "role"))

def isSystem (item : Any F) : Bool := summaryMessageRole num item = lit "system"

def isUser (item : Any F) : Bool := summaryMessageRole num item = lit "user"

def isGeneratedSummary (item : Any F) : Bool :=
  trimSpace (printedField num item "ds2api_compaction_summary") = summaryCompactionMarker ||
    contains (printedField num item "content") (lit "[" ++ summaryCompactionMarker ++ lit "]")

structure SummaryWindow (F : Type) where
  permanent : List (Any F)
  older : List (Any F)
  recent : List (Any F)

/-- The loop over the leading system messages: what is permanent, what is older, and the rest. -/
def routeLeading (keepSystem : Bool) : List (Any F) → List (Any F) × List (Any F) × List (Any F)
  | [] => ([], [], [])
  | item :: messages =>
    if isSystem num item then
      let (permanent, older, body) := routeLeading keepSystem messages
      if isGeneratedSummary num item then (permanent, item :: older, body)
      else if keepSystem then (item :: permanent, older, body)
      else (permanent, item :: older, body)
    else ([], [], item :: messages)

/-- The number of turns that stay, of so many there are. -/
def keptTurns (keepRecent : Int) (turns : Nat) : Int :=
  let keepRecent := max keepRecent 1
  if keepRecent ≥ turns then max ((turns / 2 : Nat) : Int) 1 else keepRecent

/-- `splitSummaryWindow`: no window where it is not ok, `none` for an index out of range. The
    capacity `keepRecent+1`, a panic where it is too large for `make`, is left out. -/
def splitSummaryWindow (messages : List (Any F)) (keepSystem : Bool) (keepRecent : Int) :
    Option (Option (SummaryWindow F)) :=
  let (permanent, older, body) := routeLeading num keepSystem messages
  let turnStarts := places (isUser num) body
  if turnStarts.length ≤ 1 then some none
  else
    (turnStarts[turnStarts.length - (keptTurns keepRecent turnStarts.length).toNat]?).map fun start =>
      let window : SummaryWindow F := ⟨permanent, older ++ body.take start, body.drop start⟩
      if 0 < window.older.length ∧ 0 < window.recent.length then some window else none

/-- `SplitSummaryCompactionWindow`: behind the first generated summary. -/
def splitSummaryCompactionWindow : List (Any F) → Option (List (Any F) × List (Any F))
  | [] => none
  | item :: messages =>
    if isGeneratedSummary num item then some ([item], messages)
    else (splitSummaryCompactionWindow messages).map fun halves => (item :: halves.1, halves.2)

/-- The message a summary is stored in. -/
def summaryMessage (summary : Bytes) : Any F :=
  .map [(lit "content", .text (lit "Compacted conversation summary [" ++ summaryCompactionMarker ++ lit "]:\n" ++ summary)),
    (lit "ds2api_compaction_summary", .text summaryCompactionMarker), (lit "role", .text (lit "system"))]

/-- What the compaction is given from outside. -/
structure CompactionUpstream (F : Type) where
  /-- The units of the prompt built from messages with the tools of the request. -/
  builtUnits : List (Any F) → Int
  /-- The size of the messages as JSON. -/
  stateSize : List (Any F) → Int
  /-- The source of the summary and its instruction are within the limit of the summarising model. -/
  sourceFits : List (Any F) → Int → Bool
  /-- The text of one of the two attempts, if one of them gives any. -/
  summarize : List (Any F) → Int → Option Bytes

structure CompactionSettings where
  keepSystemMessage : Bool
  keepRecentTurns : Int
  /-- `LimitForModel`. -/
  limit : Int

/-- The target the caller asks for, or the limit, cut to three quarters of a large prompt. -/
def compactionTarget (settings : CompactionSettings) (targetUnits beforeUnits : Int) : Int :=
  let targetUnits := if targetUnits ≤ 0 then settings.limit else targetUnits
  let meaningfulTarget := if beforeUnits ≥ 4096 then beforeUnits * 75 / 100 else 0
  if meaningfulTarget > 0 ∧ (targetUnits ≤ 0 ∨ targetUnits > meaningfulTarget) then meaningfulTarget else targetUnits

/-- One turn of the window search. -/
def searchBody (up : CompactionUpstream F) (messages : List (Any F)) (keepSystem : Bool) (targetUnits : Int)
    (keepRecent : Int) : Option (Turn Int (Option (SummaryWindow F))) :=
  (splitSummaryWindow num messages keepSystem keepRecent).map fun
    | none => .done none
    | some window =>
      if up.builtUnits (window.permanent ++ window.recent) ≤ targetUnits * 3 / 4 ∨ keepRecent = 1 then
        .done (some window)
      else .next (max (keepRecent / 2) 1)

def searchWindow (up : CompactionUpstream F) (messages : List (Any F)) (keepSystem : Bool)
    (targetUnits keepRecent : Int) : Option (Option (SummaryWindow F)) :=
  loop Int.toNat (searchBody num up messages keepSystem targetUnits) (max keepRecent 1)

/-- `TrySummaryCompactPrompt`: the messages of the request behind it, if it succeeds. -/
def trySummaryCompactPrompt (up : CompactionUpstream F) (settings : CompactionSettings) (messages : List (Any F))
    (targetUnits beforeUnits : Int) : Option (Option (List (Any F))) :=
  let target := compactionTarget settings targetUnits beforeUnits
  if target ≤ 0 then some none
  else
    (searchWindow num up messages settings.keepSystemMessage target settings.keepRecentTurns).map fun window =>
      window.bind fun window =>
        let room := target - up.builtUnits (window.permanent ++ window.recent) - 64
        if room < 32 then none
        else
          let maxSummaryUnits := min room 32768
          if ¬ up.sourceFits window.older maxSummaryUnits then none
          else
            (up.summarize window.older maxSummaryUnits).bind fun summary =>
              if promptUnits summary > maxSummaryUnits then none
              else
                let compacted := window.permanent ++ summaryMessage summary :: window.recent
                if up.stateSize compacted ≥ up.stateSize messages ∨ up.builtUnits compacted ≥ beforeUnits then none
                else if up.builtUnits compacted > target then none
                else some compacted

/-! ## Windows -/

/-- Where a message of the conversation goes. -/
inductive Slot where
  | permanent
  | older
  | recent
  deriving DecidableEq

/-- The messages that go to a slot, in their order. -/
def inSlot (slot : Slot) (placed : List (Slot × Any F)) : List (Any F) :=
  (placed.filter fun x => x.1 = slot).map Prod.snd

/-- What a window of the conversation keeps to. -/
structure WindowLaws (messages : List (Any F)) (w : SummaryWindow F) : Prop where
  /-- Each message goes to one of the three lists, which have their messages in order. -/
  lossless : ∃ placed : List (Slot × Any F), placed.map Prod.snd = messages ∧ w.permanent = inSlot .permanent placed ∧
    w.older = inSlot .older placed ∧ w.recent = inSlot .recent placed
  suffix : w.recent <:+ messages
  turn : ∃ first rest, w.recent = first :: rest ∧ isUser num first = true
  system : ∀ item ∈ w.permanent, isSystem num item = true
  clean : ∀ item ∈ w.permanent, isGeneratedSummary num item = false
  /-- The two halves of the compacted conversation are found again. -/
  recovers : ∀ summary, splitSummaryCompactionWindow num (w.permanent ++ summaryMessage summary :: w.recent) =
    some (w.permanent ++ [summaryMessage summary], w.recent)

/-- A leading system message that is permanent. -/
def stays (keepSystem : Bool) (item : Any F) : Bool := !isGeneratedSummary num item && keepSystem

theorem routeLeading_eq (keepSystem : Bool) : ∀ messages : List (Any F), routeLeading num keepSystem messages =
    ((messages.takeWhile (isSystem num)).filter (stays num keepSystem),
      (messages.takeWhile (isSystem num)).filter (fun item => !stays num keepSystem item),
      messages.dropWhile (isSystem num))
  | [] => rfl
  | item :: messages => by
    rw [routeLeading]
    by_cases hsystem : isSystem num item = true
    · rw [if_pos hsystem, routeLeading_eq keepSystem messages, List.takeWhile_cons_of_pos hsystem,
        List.dropWhile_cons_of_pos hsystem]
      cases hgen : isGeneratedSummary num item <;> cases keepSystem <;> simp [stays, hgen]
    · rw [if_neg hsystem, List.takeWhile_cons_of_neg hsystem, List.dropWhile_cons_of_neg hsystem]
      rfl

theorem isGeneratedSummary_summaryMessage (summary : Bytes) :
    isGeneratedSummary num (summaryMessage summary : Any F) = true := by
  have hmark : trimSpace summaryCompactionMarker = summaryCompactionMarker := by decide +kernel
  have hfield : printedField num (summaryMessage summary : Any F) "ds2api_compaction_summary" =
      summaryCompactionMarker := rfl
  rw [isGeneratedSummary, hfield, hmark]
  simp

theorem isSystem_summaryMessage (summary : Bytes) : isSystem num (summaryMessage summary : Any F) = true := by
  have hrole : toLower (trimSpace (lit "system")) = lit "system" := by decide +kernel
  have hfield : printedField num (summaryMessage summary : Any F) "role" = lit "system" := rfl
  rw [isSystem, summaryMessageRole, hfield, hrole]
  simp

/-- The search passes over messages that are no summaries. -/
theorem splitSummaryCompactionWindow_at {summary : Any F} (hsummary : isGeneratedSummary num summary = true)
    (recent : List (Any F)) : ∀ {permanent : List (Any F)}, (∀ item ∈ permanent, isGeneratedSummary num item = false) →
    splitSummaryCompactionWindow num (permanent ++ summary :: recent) = some (permanent ++ [summary], recent)
  | [], _ => if_pos hsummary
  | item :: permanent, h => by
    obtain ⟨hitem, hrest⟩ := List.forall_mem_cons.mp h
    rw [List.cons_append, splitSummaryCompactionWindow, hitem, splitSummaryCompactionWindow_at hsummary recent hrest]
    rfl

/-- Marking the messages with their slots loses nothing. -/
theorem inSlot_map (slot : Slot) (mark : Any F → Slot) (items : List (Any F)) :
    inSlot slot (items.map fun item => (mark item, item)) = items.filter fun item => mark item = slot := by
  rw [inSlot, List.filter_map, List.map_map]
  exact List.map_id _

theorem inSlot_append (slot : Slot) (placed placed' : List (Slot × Any F)) :
    inSlot slot (placed ++ placed') = inSlot slot placed ++ inSlot slot placed' := by
  rw [inSlot, List.filter_append, List.map_append]
  rfl

/-- A window comes from the cut before the last turns that stay. -/
theorem splitSummaryWindow_cases (messages : List (Any F)) (keepSystem : Bool) (keepRecent : Int) :
    splitSummaryWindow num messages keepSystem keepRecent = some none ∨
      ∃ before first after, messages.dropWhile (isSystem num) = before ++ first :: after ∧ isUser num first = true ∧
        splitSummaryWindow num messages keepSystem keepRecent = some (some
          { permanent := (messages.takeWhile (isSystem num)).filter (stays num keepSystem)
            older := (messages.takeWhile (isSystem num)).filter (fun item => !stays num keepSystem item) ++ before
            recent := first :: after }) := by
  simp only [splitSummaryWindow, routeLeading_eq]
  generalize messages.dropWhile (isSystem num) = body
  split
  · exact Or.inl rfl
  next hturns =>
  refine Or.inr ?_
  have hcount := length_places (p := isUser num) body
  have hkept : 0 < (keptTurns keepRecent (places (isUser num) body).length).toNat ∧
      (keptTurns keepRecent (places (isUser num) body).length).toNat < body.countP (isUser num) := by
    rw [← hcount]
    generalize (places (isUser num) body).length = turns at hturns ⊢
    simp only [keptTurns]
    split <;> omega
  obtain ⟨before, first, after, hbody, hstart, hfirst, hcut⟩ := exists_cut hkept.1 (Nat.le_of_lt hkept.2)
  have hne : before ≠ [] := cut_pos (hbody ▸ hkept.2) hcut
  refine ⟨before, first, after, hbody, hfirst, ?_⟩
  rw [hstart, Option.map_some, hbody, List.take_left, List.drop_left, if_pos]
  refine ⟨?_, Nat.succ_pos _⟩
  rw [List.length_append]
  exact Nat.add_pos_right _ (List.length_pos_iff.mpr hne)

variable {messages : List (Any F)}

theorem splitSummaryWindow_laws {keepSystem : Bool} {keepRecent : Int} {w : SummaryWindow F}
    (h : splitSummaryWindow num messages keepSystem keepRecent = some (some w)) :
    WindowLaws num messages w := by
  rcases splitSummaryWindow_cases num messages keepSystem keepRecent with hnone |
    ⟨before, first, after, hbody, hfirst, hwindow⟩
  · rw [hnone] at h
    cases h
  rw [hwindow] at h
  cases h
  have hclean : ∀ item ∈ (messages.takeWhile (isSystem num)).filter (stays num keepSystem),
      isGeneratedSummary num item = false := by
    intro item hitem
    have hstays := (List.mem_filter.mp hitem).2
    rw [stays, Bool.and_eq_true, Bool.not_eq_true'] at hstays
    exact hstays.1
  have hall : messages.takeWhile (isSystem num) ++ (before ++ first :: after) = messages := by
    rw [← hbody, List.takeWhile_append_dropWhile]
  refine ⟨?_, ?_, ⟨first, after, rfl, hfirst⟩, ?_, hclean, ?_⟩
  · -- The leading messages go to the first two lists, the turns to the last two.
    let place : Any F → Slot := fun item => if stays num keepSystem item then .permanent else .older
    refine ⟨(messages.takeWhile (isSystem num)).map (fun item => (place item, item)) ++
      (before.map (fun item => (Slot.older, item)) ++ (first :: after).map (fun item => (Slot.recent, item))),
      ?_, ?_, ?_, ?_⟩
    · rw [List.map_append, List.map_append]
      simp only [List.map_map, Function.comp_def, List.map_id']
      exact hall
    · rw [inSlot_append, inSlot_append, inSlot_map, inSlot_map, inSlot_map]
      simp [place]
    · rw [inSlot_append, inSlot_append, inSlot_map, inSlot_map, inSlot_map]
      simp [place]
    · rw [inSlot_append, inSlot_append, inSlot_map, inSlot_map, inSlot_map]
      simp [place, ite_eq_iff]
  · exact ⟨messages.takeWhile (isSystem num) ++ before, by rw [List.append_assoc]; exact hall⟩
  · intro item hitem
    exact List.mem_takeWhile_imp (List.mem_of_mem_filter hitem)
  · exact fun summary => splitSummaryCompactionWindow_at num (isGeneratedSummary_summaryMessage num summary) _ hclean

/-! ## Repeated compaction -/

/-- The generated summaries among the leading system messages. -/
def leadingSummaries (messages : List (Any F)) : Nat :=
  (messages.takeWhile (isSystem num)).countP (isGeneratedSummary num)

/-- A conversation, and whether a compaction of it has succeeded so far. -/
structure Conversation (F : Type) where
  messages : List (Any F)
  compacted : Bool

inductive ConversationAction (F : Type) where
  | grow (more : List (Any F))
  | compact (up : CompactionUpstream F) (settings : CompactionSettings) (targetUnits beforeUnits : Int)

/-- A compaction that fails leaves the request as it is. -/
def conversationStep (s : Conversation F) : ConversationAction F → Option (Conversation F)
  | .grow more => some { s with messages := s.messages ++ more }
  | .compact up settings targetUnits beforeUnits =>
    (trySummaryCompactPrompt num up settings s.messages targetUnits beforeUnits).map fun
      | none => s
      | some messages => ⟨messages, true⟩

/-- The conversation has one generated summary, between permanent messages and a user turn. -/
def Summarised (messages : List (Any F)) : Prop :=
  ∃ permanent summary first rest, messages = permanent ++ summaryMessage summary :: first :: rest ∧
    (∀ item ∈ permanent, isSystem num item = true ∧ isGeneratedSummary num item = false) ∧ isUser num first = true

theorem WindowLaws.summarised {w : SummaryWindow F} (h : WindowLaws num messages w) (summary : Bytes) :
    Summarised num (w.permanent ++ summaryMessage summary :: w.recent) := by
  obtain ⟨first, rest, hrecent, hfirst⟩ := h.turn
  refine ⟨w.permanent, summary, first, rest, ?_, ?_, hfirst⟩
  · rw [hrecent]
  · intro item hitem
    exact ⟨h.system item hitem, h.clean item hitem⟩

theorem Summarised.append (h : Summarised num messages) (more : List (Any F)) :
    Summarised num (messages ++ more) := by
  obtain ⟨permanent, summary, first, rest, rfl, hpermanent, hfirst⟩ := h
  refine ⟨permanent, summary, first, rest ++ more, ?_, hpermanent, hfirst⟩
  simp

theorem isSystem_of_isUser {item : Any F} (h : isUser num item = true) : isSystem num item = false := by
  have hne : lit "user" ≠ lit "system" := by decide
  rw [isUser, decide_eq_true_eq] at h
  rw [isSystem, h, decide_eq_false hne]

theorem Summarised.leadingSummaries (h : Summarised num messages) : leadingSummaries num messages = 1 := by
  obtain ⟨permanent, summary, first, rest, rfl, hpermanent, hfirst⟩ := h
  have hnone : permanent.countP (isGeneratedSummary num) = 0 := by
    rw [List.countP_eq_zero]
    intro item hitem
    rw [(hpermanent item hitem).2]
    exact Bool.false_ne_true
  have hleading : (permanent ++ summaryMessage summary :: first :: rest).takeWhile (isSystem num) =
      permanent ++ [summaryMessage summary] := by
    rw [List.takeWhile_append_of_pos fun item hitem => (hpermanent item hitem).1,
      List.takeWhile_cons_of_pos (isSystem_summaryMessage num summary),
      List.takeWhile_cons_of_neg (Bool.eq_false_iff.mp (isSystem_of_isUser num hfirst))]
  rw [Shared.leadingSummaries, hleading, List.countP_append, hnone, List.countP_singleton,
    isGeneratedSummary_summaryMessage]
  rfl

/-! The window search. -/

section Search
variable (up : CompactionUpstream F) (messages : List (Any F)) (keepSystem : Bool) (targetUnits : Int)

/-- A turn of the search ends it, or halves the number of turns that stay. -/
theorem searchBody_cases (keepRecent : Int) :
    (∃ w, searchBody num up messages keepSystem targetUnits keepRecent = some (.done w) ∧
      splitSummaryWindow num messages keepSystem keepRecent = some w) ∨
    (searchBody num up messages keepSystem targetUnits keepRecent = some (.next (max (keepRecent / 2) 1)) ∧
      keepRecent ≠ 1) := by
  rcases splitSummaryWindow_cases num messages keepSystem keepRecent with hnone | ⟨_, _, _, _, _, hwindow⟩
  · exact Or.inl ⟨none, by rw [searchBody, hnone]; rfl, hnone⟩
  · rw [searchBody, hwindow, Option.map_some]
    dsimp only
    split
    · exact Or.inl ⟨_, rfl, rfl⟩
    · next h => exact Or.inr ⟨rfl, fun h1 => h (Or.inr h1)⟩

/-- Each turn that goes on keeps fewer turns, so the search ends. -/
theorem turns_searchBody_ne_none : ∀ {n : Nat} {keepRecent : Int}, 1 ≤ keepRecent → keepRecent < n →
    turns (searchBody num up messages keepSystem targetUnits) n keepRecent ≠ none
  | 0, _, h, hn => by omega
  | n + 1, keepRecent, h, hn => by
    rw [turns]
    rcases searchBody_cases num up messages keepSystem targetUnits keepRecent with ⟨w, hdone, _⟩ | ⟨hnext, hne⟩
    · rw [hdone]
      exact Option.some_ne_none _
    · rw [hnext]
      apply turns_searchBody_ne_none
      · exact Int.le_max_right _ _
      · omega

theorem searchWindow_ne_none (keepRecent : Int) :
    searchWindow num up messages keepSystem targetUnits keepRecent ≠ none := by
  apply turns_searchBody_ne_none
  · exact Int.le_max_right _ _
  · omega

variable {up messages keepSystem targetUnits}

theorem searchWindow_laws {keepRecent : Int} {w : SummaryWindow F}
    (h : searchWindow num up messages keepSystem targetUnits keepRecent = some (some w)) :
    WindowLaws num messages w := by
  have hsplit := loop_inv (I := fun _ => True)
    (Q := fun r => ∀ w, r = some w → WindowLaws num messages w) (fun _ _ _ _ => trivial)
    (fun k r _ hbody w hr => ?_) trivial h
  · exact hsplit w rfl
  · rcases searchBody_cases num up messages keepSystem targetUnits k with ⟨w', hdone, hw'⟩ | ⟨hnext, _⟩
    · rw [hdone] at hbody
      cases hbody
      rw [hr] at hw'
      exact splitSummaryWindow_laws num hw'
    · rw [hnext] at hbody
      cases hbody

end Search

/-- No index is out of range. -/
theorem trySummaryCompactPrompt_ne_none (up : CompactionUpstream F) (settings : CompactionSettings)
    (messages : List (Any F)) (targetUnits beforeUnits : Int) :
    trySummaryCompactPrompt num up settings messages targetUnits beforeUnits ≠ none := by
  simp only [trySummaryCompactPrompt]
  split
  · exact Option.some_ne_none _
  · rw [Ne, Option.map_eq_none_iff]
    exact searchWindow_ne_none num up messages _ _ _

/-- A compaction that succeeds leaves one generated summary. -/
theorem trySummaryCompactPrompt_summarised {up : CompactionUpstream F} {settings : CompactionSettings}
    {messages compacted : List (Any F)} {targetUnits beforeUnits : Int}
    (h : trySummaryCompactPrompt num up settings messages targetUnits beforeUnits = some (some compacted)) :
    Summarised num compacted := by
  simp only [trySummaryCompactPrompt] at h
  split at h
  · cases h
  obtain ⟨window, hsearch, hwindow⟩ := Option.map_eq_some_iff.mp h
  obtain ⟨w, rfl, h⟩ := Option.bind_eq_some_iff.mp hwindow
  split at h
  · cases h
  split at h
  · cases h
  obtain ⟨summary, _, h⟩ := Option.bind_eq_some_iff.mp h
  split at h
  · cases h
  split at h
  · cases h
  split at h
  · cases h
  cases h
  exact (searchWindow_laws num hsearch).summarised num summary

theorem conversationStep_summarised {s t : Conversation F} {action : ConversationAction F}
    (hs : s.compacted = true → Summarised num s.messages) (h : conversationStep num s action = some t) :
    t.compacted = true → Summarised num t.messages := by
  cases action with
  | grow more =>
    cases h
    exact fun hc => (hs hc).append num more
  | compact up settings targetUnits beforeUnits =>
    obtain ⟨result, hresult, h⟩ := Option.map_eq_some_iff.mp h
    cases result with
    | none =>
      cases h
      exact hs
    | some messages =>
      cases h
      exact fun _ => trySummaryCompactPrompt_summarised num hresult

/-- A window loses no message and is found again behind its summary; the compaction of a
    conversation has no index out of range and ends, and however it grows and is compacted, there
    is one generated summary among its leading system messages once one was written. -/
theorem summary_compaction_laws :
    (∀ (messages : List (Any F)) (keepSystem : Bool) (keepRecent : Int) (w : SummaryWindow F),
      splitSummaryWindow num messages keepSystem keepRecent = some (some w) → WindowLaws num messages w) ∧
    (∀ (up : CompactionUpstream F) (settings : CompactionSettings) (messages : List (Any F)) (targetUnits beforeUnits : Int),
      trySummaryCompactPrompt num up settings messages targetUnits beforeUnits ≠ none) ∧
    ∀ (messages : List (Any F)) (actions : List (ConversationAction F)),
      Always (conversationStep num) (fun s => s.compacted = true → leadingSummaries num s.messages = 1)
        ⟨messages, false⟩ actions := by
  refine ⟨fun messages keepSystem keepRecent w h => splitSummaryWindow_laws num h,
    trySummaryCompactPrompt_ne_none num, ?_⟩
  intro messages actions
  have hrun : Always (conversationStep num) (fun s => s.compacted = true → Summarised num s.messages)
      ⟨messages, false⟩ actions := by
    apply always_inv
    · intro s action t hs h
      exact conversationStep_summarised num hs h
    · intro h
      cases h
  exact hrun.mono fun s hs hc => (hs hc).leadingSummaries num

end

/-- A message of a role. -/
def turn (role content : String) : Any Int :=
  .map [(lit "content", .text (lit content)), (lit "role", .text (lit role))]

/-- Behind an earlier summary and two turns, the last turn stays and the rest is summarised anew. -/
theorem summary_compaction_laws_second :
    WindowLaws wholeText
      [turn "system" "be brief", summaryMessage (lit "before"), turn "user" "a", turn "assistant" "b", turn "user" "c"]
      ⟨[turn "system" "be brief"], [summaryMessage (lit "before"), turn "user" "a", turn "assistant" "b"],
        [turn "user" "c"]⟩ :=
  (summary_compaction_laws wholeText).1 _ true 4 _ (by rfl)

end DeepSeekWebToApi.Shared
