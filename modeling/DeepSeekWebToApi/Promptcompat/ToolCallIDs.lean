import DeepSeekWebToApi.Promptcompat.ToolPairing

/- The ids in a repaired message list.

   What is proved: a result with the id of an earlier call keeps it exactly if that call is still
   open, or if no open call has the result's name and there is not exactly one open call
   (`known_result_keeps_id_iff`); the ids of the calls stay distinct exactly if no generated id is
   one a call came with (`call_ids_distinct_iff`). -/
namespace DeepSeekWebToApi.Promptcompat
open GoStrings GoJson
open Sse (field stringAt)

section
variable {F : Type}

/-! ## Results with a known id -/

theorem takePending_eq_none {p : PendingToolCall → Bool} : ∀ {pending : List PendingToolCall},
    takePending p pending = none → ∀ call ∈ pending, p call = false
  | [], _ => fun _ h => absurd h List.not_mem_nil
  | call :: pending, h => by
    rw [takePending] at h
    split at h
    · cases h
    · next hcall =>
      exact List.forall_mem_cons.mpr
        ⟨Bool.eq_false_iff.mpr hcall, takePending_eq_none (Option.map_eq_none_iff.mp h)⟩

theorem takePending_eq_some {p : PendingToolCall → Bool} {taken : PendingToolCall} :
    ∀ {pending rest : List PendingToolCall}, takePending p pending = some (taken, rest) →
      taken ∈ pending ∧ p taken = true
  | [], _, h => by cases h
  | call :: pending, rest, h => by
    rw [takePending] at h
    split at h
    · next hcall =>
      cases h
      exact ⟨List.mem_cons_self, hcall⟩
    · obtain ⟨⟨found, others⟩, hfound, heq⟩ := Option.map_eq_some_iff.mp h
      cases heq
      obtain ⟨hmem, hp⟩ := takePending_eq_some hfound
      exact ⟨List.mem_cons_of_mem _ hmem, hp⟩

/-- The call of the result is open; or no open call has its name, and there is not just one. -/
def KeepsID (fold : Bytes → Bytes → Bool) (s : RepairState) (r : KeyMap (Any F)) : Prop :=
  (∃ call ∈ s.pending, call.id = resultID r) ∨
    (firstNonEmptyString r nameKeys = [] ∨
      ∀ call ∈ s.pending, fold call.name (firstNonEmptyString r nameKeys) = false) ∧ s.pending.length ≠ 1

theorem step_result_iff (fold : Bytes → Bytes → Bool) (s : RepairState) {r : KeyMap (Any F)} (hid : resultID r ≠ []) :
    (s.step fold (.result r)).2 = resultID r ↔ KeepsID fold s r := by
  have htrim : trimSpace (resultID r) = resultID r := trimSpace_firstNonEmptyString _ _
  have hname : trimSpace (firstNonEmptyString r nameKeys) = firstNonEmptyString r nameKeys :=
    trimSpace_firstNonEmptyString _ _
  simp only [RepairState.step, RepairState.consumePendingToolCall, htrim, hname, if_pos hid, KeepsID]
  generalize resultID r = callID at hid
  generalize firstNonEmptyString r nameKeys = name
  cases htake : takePending (fun call => decide (call.id = callID)) s.pending with
  | some x =>
    obtain ⟨call, rest⟩ := x
    obtain ⟨hmem, hcall⟩ := takePending_eq_some htake
    exact ⟨fun _ => Or.inl ⟨call, hmem, of_decide_eq_true hcall⟩, fun _ => rfl⟩
  | none =>
    have hother : ∀ call ∈ s.pending, call.id ≠ callID := fun call hcall =>
      of_decide_eq_false (takePending_eq_none htake call hcall)
    have hclosed : ¬ ∃ call ∈ s.pending, call.id = callID := by
      rintro ⟨call, hmem, heq⟩
      exact hother call hmem heq
    dsimp only
    cases hfold : (if name ≠ [] then takePending (fun call => fold call.name name) s.pending else none) with
    | some x =>
      obtain ⟨call, rest⟩ := x
      split at hfold
      · next hne =>
        obtain ⟨hmem, hcall⟩ := takePending_eq_some hfold
        refine ⟨fun h => absurd h (hother call hmem), fun h => ?_⟩
        rcases h with h | ⟨h | h, _⟩
        · exact absurd h hclosed
        · exact absurd h hne
        · rw [h call hmem] at hcall
          cases hcall
      · cases hfold
    | none =>
      have hnone : name = [] ∨ ∀ call ∈ s.pending, fold call.name name = false := by
        split at hfold
        · exact Or.inr (takePending_eq_none hfold)
        · next hne => exact Or.inl (not_not.mp hne)
      dsimp only
      cases hpending : s.pending with
      | nil =>
        rw [if_neg hid]
        rw [hpending] at hnone
        exact ⟨fun _ => Or.inr ⟨hnone, by decide⟩, fun _ => rfl⟩
      | cons call rest =>
        rw [hpending] at hother hnone hclosed
        dsimp only
        by_cases hone : rest.length = 0
        · rw [if_pos (Or.inl hone)]
          refine ⟨fun h => absurd h (hother call List.mem_cons_self), fun h => ?_⟩
          rcases h with h | ⟨_, h⟩
          · exact absurd h hclosed
          · exact absurd (by rw [List.length_cons, hone]) h
        · rw [if_neg (not_or.mpr ⟨hone, hid⟩)]
          refine ⟨fun _ => Or.inr ⟨hnone, ?_⟩, fun _ => rfl⟩
          rw [List.length_cons]
          omega

def Event.isResult : Event F → Bool
  | .result _ => true
  | _ => false

theorem answered_result (fold : Bytes → Bytes → Bool) (s : RepairState) (r : KeyMap (Any F)) :
    RepairState.answered fold (s, .result r) = some (s.step fold (.result r)).2 := rfl

theorem length_answered (fold : Bytes → Bytes → Bool) : ∀ (es : List (Event F)) (s : RepairState),
    ((s.trace fold es).filterMap (RepairState.answered fold)).length = es.countP Event.isResult
  | [], _ => rfl
  | .result r :: es, s => by
    have ih := length_answered fold es (s.step fold (.result r)).1
    rw [RepairState.trace, List.filterMap_cons_some (answered_result fold s r), List.length_cons, ih,
      List.countP_cons_of_pos rfl]
  | .call c :: es, s | .stays c :: es, s | .dropped c :: es, s => by
    rw [RepairState.trace, List.filterMap_cons_none rfl, length_answered fold es,
      List.countP_cons_of_neg Bool.false_ne_true]

/-- The id the result behind `before` is given. -/
theorem resultIDs_at (fold : Bytes → Bytes → Bool) (φ : FloatFormat F) {raw : List (Any F)} {before after : List (Event F)}
    {r : KeyMap (Any F)} (h : events raw = before ++ .result r :: after) :
    (resultIDs (repairOpenAIToolMessages fold φ raw))[before.countP Event.isResult]? =
      some ((RepairState.after fold {} before).step fold (.result r)).2 := by
  rw [repairOpenAIToolMessages, (repairFrom_shows fold φ raw {}).results, h, RepairState.trace_append,
    List.filterMap_append, ← length_answered fold before {}, List.getElem?_append_right (Nat.le_refl _), Nat.sub_self,
    RepairState.trace, List.filterMap_cons_some (answered_result fold _ r)]
  rfl

/-- The results whose id is that of an earlier call are given their id exactly if each of them
    comes while its call is open, or while no open call has its name and there is not just one. -/
theorem known_result_keeps_id_iff (fold : Bytes → Bytes → Bool) (φ : FloatFormat F) (raw : List (Any F)) :
    (∀ before r after, events raw = before ++ .result r :: after →
      resultID r ∈ idsOf (before.filterMap Event.call?) →
      (resultIDs (repairOpenAIToolMessages fold φ raw))[before.countP Event.isResult]? = some (resultID r)) ↔
    ∀ before r after, events raw = before ++ .result r :: after →
      resultID r ∈ idsOf (before.filterMap Event.call?) → KeepsID fold (RepairState.after fold {} before) r := by
  refine forall_congr' fun before => forall_congr' fun r => forall_congr' fun after => forall_congr' fun h =>
    forall_congr' fun hknown => ?_
  have hid : resultID r ≠ [] := by simpa using (List.mem_filter.mp hknown).2
  rw [resultIDs_at fold φ h, Option.some.injEq]
  exact step_result_iff fold _ hid

end

/-- A call of a tool. -/
def callOf (id name : String) : KeyMap (Any Int) := [(lit "id", .text (lit id)), (lit "name", .text (lit name))]

/-- A result for a call. -/
def resultFor (id : String) : KeyMap (Any Int) :=
  [(lit "content", .text (lit "done")), (lit "role", .text (lit "tool")), (lit "tool_call_id", .text (lit id))]

/-- Two calls, the result of the first one twice. -/
def duplicateResult : List (Any Int) :=
  [.map [(lit "role", .text (lit "assistant")),
      (lit "tool_calls", .slice [.map (callOf "call_a" "read"), .map (callOf "call_b" "write")])],
    .map (resultFor "call_a"), .map (resultFor "call_a")]

/-- The second result of the first call is shown as that of the second call. -/
theorem duplicate_result_loses_id :
    (idsOf (callsIn duplicateResult)).Nodup ∧
    resultIDs (repairOpenAIToolMessages equalFold wholeNumbers duplicateResult) = [lit "call_a", lit "call_b"] ∧
    ¬ ∀ before r after, events duplicateResult = before ++ .result r :: after →
      resultID r ∈ idsOf (before.filterMap Event.call?) →
      (resultIDs (repairOpenAIToolMessages equalFold wholeNumbers duplicateResult))[before.countP Event.isResult]? =
        some (resultID r) := by
  have hids : resultIDs (repairOpenAIToolMessages equalFold wholeNumbers duplicateResult) =
      [lit "call_a", lit "call_b"] := by decide +kernel
  refine ⟨by decide +kernel, hids, fun h => ?_⟩
  have hsecond := h [.call (callOf "call_a" "read"), .call (callOf "call_b" "write"), .result (resultFor "call_a")]
    (resultFor "call_a") [] (by rfl) (by decide +kernel)
  rw [hids] at hsecond
  exact absurd hsecond (by decide +kernel)

/-! ## Distinct ids -/

section
variable {F : Type} (fold : Bytes → Bytes → Bool)

/-- A call that the output has. -/
def Event.kept? : Event F → Option (KeyMap (Any F))
  | .call c | .stays c => some c
  | _ => none

/-- A call that gets a generated id. -/
def Event.generates : Event F → Bool
  | .call c => explicitID c = []
  | _ => false

theorem mem_trace {s t : RepairState} {e : Event F} : ∀ {es : List (Event F)},
    (t, e) ∈ s.trace fold es ↔ ∃ before after, es = before ++ e :: after ∧ t = s.after fold before
  | [] => by simp [RepairState.trace]
  | e' :: es => by
    rw [RepairState.trace, List.mem_cons, mem_trace]
    constructor
    · rintro (h | ⟨before, after, rfl, rfl⟩)
      · cases h
        exact ⟨[], es, rfl, rfl⟩
      · exact ⟨e' :: before, after, rfl, rfl⟩
    · rintro ⟨before, after, hes, rfl⟩
      cases before with
      | nil =>
        cases hes
        exact Or.inl rfl
      | cons b before =>
        cases hes
        exact Or.inr ⟨before, after, rfl, rfl⟩

/-- The ids the calls of a run come with. -/
theorem shown_explicit : ∀ (es : List (Event F)) (s : RepairState),
    ((s.trace fold es).filter fun x => !x.2.generates).filterMap RepairState.shown = idsOf (es.filterMap Event.kept?)
  | [], _ => rfl
  | .call c :: es, s => by
    have ih := shown_explicit es (s.step fold (.call c)).1
    have hkept : (Event.call c :: es).filterMap Event.kept? = c :: es.filterMap Event.kept? := rfl
    rw [RepairState.trace, hkept, idsOf, List.map_cons]
    by_cases h : explicitID c = []
    · rw [List.filter_cons_of_neg (by simp [Event.generates, h]), List.filter_cons_of_neg (by simp [h])]
      exact ih
    · have hshown : RepairState.shown (s, .call c) = some (explicitID c) := by
        rw [RepairState.shown, RepairState.assign, if_neg h]
      rw [List.filter_cons_of_pos (by simp [Event.generates, h]), List.filterMap_cons_some hshown,
        List.filter_cons_of_pos (by simp [h])]
      exact congrArg _ ih
  | .stays c :: es, s => by
    have ih := shown_explicit es s
    have hkept : (Event.stays c :: es).filterMap Event.kept? = c :: es.filterMap Event.kept? := rfl
    rw [RepairState.trace, hkept, idsOf, List.map_cons, List.filter_cons_of_pos rfl]
    by_cases h : explicitID c = []
    · have hshown : RepairState.shown (s, .stays c) = none := if_pos h
      rw [List.filterMap_cons_none hshown, List.filter_cons_of_neg (by simp [h])]
      exact ih
    · have hshown : RepairState.shown (s, .stays c) = some (explicitID c) := if_neg h
      rw [List.filterMap_cons_some hshown, List.filter_cons_of_pos (by simp [h])]
      exact congrArg _ ih
  | .dropped c :: es, s => by
    rw [RepairState.trace, List.filter_cons_of_pos rfl, List.filterMap_cons_none rfl]
    exact shown_explicit es s
  | .result r :: es, s => by
    rw [RepairState.trace, List.filter_cons_of_pos rfl, List.filterMap_cons_none rfl]
    exact shown_explicit es _

/-- The number of a generated id. -/
def repairedID (n : Nat) : Bytes := lit "call_repaired_" ++ formatNat n

theorem repairedID_inj {m n : Nat} (h : repairedID m = repairedID n) : m = n := by
  have hdigits := congrArg parseDigits (List.append_cancel_left h)
  rw [parseDigits_formatNat, parseDigits_formatNat] at hdigits
  exact Option.some.inj hdigits

theorem consume_nextID_le (s : RepairState) (callID name : Bytes) :
    s.nextID ≤ (s.consumePendingToolCall fold callID name).1.nextID := by
  simp only [RepairState.consumePendingToolCall]
  split
  · exact Nat.le_refl _
  split
  · exact Nat.le_refl _
  split
  · split <;> exact Nat.le_refl _
  · split
    · exact Nat.le_succ _
    · exact Nat.le_refl _

theorem step_nextID_le (s : RepairState) (e : Event F) : s.nextID ≤ (s.step fold e).1.nextID := by
  cases e with
  | call c =>
    rw [RepairState.step, RepairState.assign]
    split
    · exact Nat.le_succ _
    · exact Nat.le_refl _
  | result r =>
    have hle := consume_nextID_le fold s (resultID r) (firstNonEmptyString r nameKeys)
    rw [RepairState.step]
    generalize s.consumePendingToolCall fold (resultID r) (firstNonEmptyString r nameKeys) = x at hle
    exact hle
  | _ => exact Nat.le_refl _

/-- The generated ids of a run are distinct: the counter goes up with each of them. -/
theorem shown_generated : ∀ (es : List (Event F)) (s : RepairState),
    ∃ ns : List Nat, ((s.trace fold es).filter fun x => x.2.generates).filterMap RepairState.shown = ns.map repairedID ∧
      ns.Pairwise (· < ·) ∧ ∀ n ∈ ns, s.nextID < n
  | [], _ => ⟨[], rfl, List.Pairwise.nil, fun _ h => absurd h List.not_mem_nil⟩
  | e :: es, s => by
    obtain ⟨ns, hns, hsorted, hlarge⟩ := shown_generated es (s.step fold e).1
    rw [RepairState.trace, List.filter_cons]
    cases hgenerates : e.generates with
    | false =>
      have hle := step_nextID_le fold s e
      rw [if_neg Bool.false_ne_true]
      exact ⟨ns, hns, hsorted, fun n hn => Nat.lt_of_le_of_lt hle (hlarge n hn)⟩
    | true =>
      rw [if_pos rfl]
      cases e with
      | call c =>
        have hid : explicitID c = [] := of_decide_eq_true hgenerates
        have hshown : RepairState.shown (s, .call c) = some (repairedID (s.nextID + 1)) := by
          rw [RepairState.shown, RepairState.assign, if_pos hid]
          rfl
        have hnext : (s.step fold (.call c)).1.nextID = s.nextID + 1 := by
          rw [RepairState.step, RepairState.assign, if_pos hid]
          rfl
        rw [hnext] at hlarge
        refine ⟨(s.nextID + 1) :: ns, ?_, List.pairwise_cons.mpr ⟨hlarge, hsorted⟩, ?_⟩
        · rw [List.filterMap_cons_some hshown, hns, List.map_cons]
        · intro n hn
          rcases List.mem_cons.mp hn with rfl | hn
          · omega
          · have := hlarge n hn
            omega
      | _ => cases hgenerates

theorem nodup_generated (es : List (Event F)) (s : RepairState) :
    (((s.trace fold es).filter fun x => x.2.generates).filterMap RepairState.shown).Nodup := by
  obtain ⟨ns, hns, hsorted, _⟩ := shown_generated fold es s
  rw [hns]
  apply List.Nodup.map
  · intro m n h
    exact repairedID_inj h
  · exact hsorted.imp Nat.ne_of_lt

/-- A generated id is the one the counter stands at. -/
theorem mem_generated {es : List (Event F)} {s : RepairState} {id : Bytes} :
    id ∈ ((s.trace fold es).filter fun x => x.2.generates).filterMap RepairState.shown ↔
      ∃ before c after, es = before ++ .call c :: after ∧ explicitID c = [] ∧
        id = (s.after fold before).generatedID := by
  rw [List.mem_filterMap]
  constructor
  · rintro ⟨⟨t, e⟩, hmem, hshown⟩
    obtain ⟨htrace, hgenerates⟩ := List.mem_filter.mp hmem
    obtain ⟨before, after, rfl, rfl⟩ := (mem_trace fold).mp htrace
    cases e with
    | call c =>
      have hid : explicitID c = [] := of_decide_eq_true hgenerates
      rw [RepairState.shown, RepairState.assign, if_pos hid] at hshown
      exact ⟨before, c, after, rfl, hid, (Option.some.inj hshown).symm⟩
    | _ => cases hgenerates
  · rintro ⟨before, c, after, rfl, hid, rfl⟩
    refine ⟨(s.after fold before, .call c), List.mem_filter.mpr ⟨?_, decide_eq_true hid⟩, ?_⟩
    · exact (mem_trace fold).mpr ⟨before, after, rfl, rfl⟩
    · rw [RepairState.shown, RepairState.assign, if_pos hid]
      rfl

theorem filterMap_kept_sublist : ∀ es : List (Event F),
    (es.filterMap Event.kept?).Sublist (es.filterMap Event.call?)
  | [] => List.Sublist.refl _
  | .call c :: es => (filterMap_kept_sublist es).cons_cons c
  | .stays c :: es => (filterMap_kept_sublist es).cons_cons c
  | .dropped c :: es => (filterMap_kept_sublist es).cons c
  | .result _ :: es => filterMap_kept_sublist es

theorem events_calls (raw : List (Any F)) : (events raw).filterMap Event.call? = callsIn raw := by
  have hresults : ∀ rs : List (KeyMap (Any F)), (rs.map Event.result).filterMap Event.call? = [] := by
    intro rs
    induction rs with
    | nil => rfl
    | cons r rs ih => exact ih
  rw [events, callsIn, List.filterMap_flatMap]
  congr 1
  funext msg
  rw [messageEvents, List.filterMap_append, callEvents_calls, hresults, List.append_nil]

/-- Where the ids calls come with are distinct, the ids of the calls in the output are distinct
    exactly if no call without an id is given one that a call of the output came with. -/
theorem call_ids_distinct_iff (φ : FloatFormat F) (raw : List (Any F)) (h : (idsOf (callsIn raw)).Nodup) :
    (idsOf (callsIn (repairOpenAIToolMessages fold φ raw))).Nodup ↔
      ∀ before c after, events raw = before ++ .call c :: after → explicitID c = [] →
        (RepairState.after fold {} before).generatedID ∉ idsOf ((events raw).filterMap Event.kept?) := by
  have hkept : (idsOf ((events raw).filterMap Event.kept?)).Nodup := by
    rw [← events_calls] at h
    exact h.sublist (((filterMap_kept_sublist (events raw)).map explicitID).filter _)
  have hperm := ((List.filter_append_perm (fun x => x.2.generates) (RepairState.trace fold {} (events raw))).filterMap
    RepairState.shown).nodup_iff
  rw [repairOpenAIToolMessages, (repairFrom_shows fold φ raw {}).calls, ← hperm, List.filterMap_append,
    shown_explicit, List.nodup_append]
  constructor
  · rintro ⟨_, _, hdisjoint⟩ before c after hes hid hmem
    exact hdisjoint _ ((mem_generated fold).mpr ⟨before, c, after, hes, hid, rfl⟩) _ hmem rfl
  · intro hfresh
    refine ⟨nodup_generated fold (events raw) {}, hkept, ?_⟩
    rintro id hgenerated _ hmem rfl
    obtain ⟨before, c, after, hes, hid, rfl⟩ := (mem_generated fold).mp hgenerated
    exact hfresh before c after hes hid hmem

end

/-- A call with the id `first` and its result, then a call that has no id. -/
def callThenUnnamed (first : String) : List (Any Int) :=
  [.map [(lit "role", .text (lit "assistant")), (lit "tool_calls", .slice [.map (callOf first "read")])],
    .map (resultFor first),
    .map [(lit "role", .text (lit "assistant")),
      (lit "tool_calls", .slice [.map [(lit "name", .text (lit "write"))]])]]

/-- A repaired history sent again, with one more call that has no id. -/
def replayed : List (Any Int) :=
  callThenUnnamed "call_repaired_1"

/-- The new call is given the id of the first one. -/
theorem replayed_id_given_twice :
    (idsOf (callsIn replayed)).Nodup ∧
    ¬ (idsOf (callsIn (repairOpenAIToolMessages equalFold wholeNumbers replayed))).Nodup := by
  decide +kernel

/-- With another id for the first call the id generated for the second is a new one. -/
theorem call_ids_distinct_iff_fresh :
    let messages := callThenUnnamed "call_1"
    (idsOf (callsIn messages)).Nodup ∧
    ((idsOf (callsIn (repairOpenAIToolMessages equalFold wholeNumbers messages))).Nodup ∧
      ∀ before c after, events messages = before ++ .call c :: after → explicitID c = [] →
        (RepairState.after equalFold {} before).generatedID ∉ idsOf ((events messages).filterMap Event.kept?)) := by
  intro messages
  have hdistinct : (idsOf (callsIn messages)).Nodup := by decide +kernel
  have hout : (idsOf (callsIn (repairOpenAIToolMessages equalFold wholeNumbers messages))).Nodup := by decide +kernel
  exact ⟨hdistinct, hout, (call_ids_distinct_iff equalFold wholeNumbers messages hdistinct).mp hout⟩

end DeepSeekWebToApi.Promptcompat
