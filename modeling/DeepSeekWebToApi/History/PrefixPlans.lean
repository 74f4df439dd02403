import DeepSeekWebToApi.Lib.RuneText
import DeepSeekWebToApi.History.PrefixStore

/- What a plan is made of, over every history of the store.

   A session has at most two variants with different prefixes (`WellFormed`), whatever is
   stored. A plan puts the transcript together again, and its tail is short and starts at an
   entry or at the end of a stored prefix (`Reproduces`). One thing can go wrong: a stored
   prefix may be all of the transcript, and then nothing is left for the tail. -/
namespace DeepSeekWebToApi.History
open GoStrings

/-! Cutting a transcript. -/

/-- The text is cut behind the end of a line, and the next line starts with the mark. -/
def CutsAtEntry (front tail : Bytes) : Prop :=
  lit "=== " <+: tail ∧ front.getLast? = some '\n'.toUInt8

theorem cutsAtEntry {text : Bytes} {k : Nat} (h : hasPrefix (text.drop k) entryMark = true) :
    CutsAtEntry (text.take (k + 1)) (text.drop (k + 1)) := by
  have hmark : entryMark = '\n'.toUInt8 :: lit "=== " := by decide
  obtain ⟨rest, hrest⟩ := List.isPrefixOf_iff_prefix.mp h
  rw [hmark, List.cons_append] at hrest
  constructor
  · refine ⟨rest, ?_⟩
    rw [← List.drop_drop, ← hrest]
    rfl
  · rw [List.take_add, ← hrest, List.getLast?_append]
    rfl

theorem transcriptBoundaryAtOrAfter_cuts {text : Bytes} {start : Int} {cut : Nat}
    (h : transcriptBoundaryAtOrAfter text start = some cut) : CutsAtEntry (text.take cut) (text.drop cut) := by
  unfold transcriptBoundaryAtOrAfter at h
  dsimp only at h
  split_ifs at h
  all_goals
    obtain ⟨idx, hidx, rfl⟩ := Option.map_eq_some_iff.mp h
    exact cutsAtEntry (by rw [← List.drop_drop]; exact index_hasPrefix hidx)

/-- What either way of cutting gives. -/
theorem cut_spec {text : Bytes} {cut : Nat} (h : (standardCut text).or (softCut text) = some cut) :
    CutsAtEntry (text.take cut) (text.drop cut) ∧ trimSpace (text.drop cut) ≠ [] ∧
      (text.drop cut).length ≤ currentInputMaxTailChars := by
  rcases Option.or_eq_some_iff.mp h with h | ⟨-, h⟩
  · unfold standardCut at h
    split_ifs at h
    obtain ⟨hcut, hkept⟩ := Option.filter_eq_some_iff.mp h
    rw [decide_eq_true_eq] at hkept
    exact ⟨transcriptBoundaryAtOrAfter_cuts hcut, hkept.2.2⟩
  · obtain ⟨hcut, hkept⟩ := Option.filter_eq_some_iff.mp h
    obtain ⟨k, hk, rfl⟩ := Option.map_eq_some_iff.mp hcut
    rw [decide_eq_true_eq] at hkept
    exact ⟨cutsAtEntry (lastIndex_hasPrefix hk), hkept.2⟩

/-- The line end `plan` adds is taken off and added again. -/
theorem trimSpace_line (text : Bytes) : trimSpace (trimSpace text ++ lit "\n") = trimSpace text := by
  have hline : lit "\n" = ['\n'.toUInt8] := by decide
  rw [hline, trimSpace_append_space (by decide) (by decide), trimSpace_idem]

theorem split_spec {fullText front tail : Bytes}
    (h : splitCurrentInputPrefixTail (trimSpace fullText ++ lit "\n") = some (front, tail)) :
    front ++ tail = trimSpace fullText ++ lit "\n" ∧ CutsAtEntry front tail ∧ tail ≠ [] ∧
      tail.length ≤ currentInputMaxTailChars := by
  unfold splitCurrentInputPrefixTail at h
  dsimp only at h
  rw [trimSpace_line] at h
  split_ifs at h
  obtain ⟨cut, hcut, heq⟩ := Option.map_eq_some_iff.mp h
  cases heq
  obtain ⟨hentry, htail, hshort⟩ := cut_spec hcut
  refine ⟨List.take_append_drop cut _, hentry, fun hnil => htail ?_, hshort⟩
  rw [hnil]
  rfl

/-! Looking for a variant. -/

section Best
variable {mode : Mode} {fullText : Bytes}

/-- The walk ends with what it started with or with a usable variant, and none it has passed is
    longer. -/
theorem bestFrom_spec (mode : Mode) (fullText : Bytes) :
    ∀ (vs : List Variant) (i : Nat) (best : Option (Nat × Variant)),
    (∀ v ∈ vs, v.usable mode fullText = true →
      v.prefixText.length ≤ bestLen (bestFrom mode fullText i best vs)) ∧
    bestLen best ≤ bestLen (bestFrom mode fullText i best vs) ∧
    (bestFrom mode fullText i best vs = best ∨ ∃ j w, bestFrom mode fullText i best vs = some (i + j, w) ∧
      vs[j]? = some w ∧ w.usable mode fullText = true)
  | [], _, _ => ⟨fun v hv => absurd hv List.not_mem_nil, Nat.le_refl _, Or.inl rfl⟩
  | v :: vs, i, best => by
    rw [bestFrom]
    split_ifs with hbetter
    · obtain ⟨hall, hgrows, hend⟩ := bestFrom_spec mode fullText vs (i + 1) (some (i, v))
      have hlen : v.prefixText.length ≤ bestLen (bestFrom mode fullText (i + 1) (some (i, v)) vs) := hgrows
      refine ⟨List.forall_mem_cons.mpr ⟨fun _ => hlen, hall⟩, Nat.le_trans hbetter.2.le hlen, Or.inr ?_⟩
      rcases hend with hend | ⟨j, w, hend, hw, husable⟩
      · exact ⟨0, v, hend, rfl, hbetter.1⟩
      · exact ⟨j + 1, w, by rw [hend]; congr 2; omega, hw, husable⟩
    · obtain ⟨hall, hgrows, hend⟩ := bestFrom_spec mode fullText vs (i + 1) best
      refine ⟨List.forall_mem_cons.mpr ⟨fun hv => ?_, hall⟩, hgrows, hend.imp_right ?_⟩
      · have hle : v.prefixText.length ≤ bestLen best := Nat.not_lt.mp fun hlt => hbetter ⟨hv, hlt⟩
        exact Nat.le_trans hle hgrows
      · rintro ⟨j, w, hend, hw, husable⟩
        exact ⟨j + 1, w, by rw [hend]; congr 2; omega, hw, husable⟩

theorem best_some {vs : List Variant} {i : Nat} {hot : Variant}
    (h : bestFrom mode fullText 0 none vs = some (i, hot)) :
    vs[i]? = some hot ∧ hot.usable mode fullText = true ∧
      ∀ v ∈ vs, v.usable mode fullText = true → v.prefixText.length ≤ hot.prefixText.length := by
  obtain ⟨hall, -, hend⟩ := bestFrom_spec mode fullText vs 0 none
  rw [h] at hall hend
  rcases hend with hend | ⟨j, w, hend, hw, husable⟩
  · cases hend
  · rw [Nat.zero_add] at hend
    cases hend
    exact ⟨hw, husable, hall⟩

theorem best_ne_none {vs : List Variant} {v : Variant} (hv : v ∈ vs) (husable : v.usable mode fullText = true) :
    bestFrom mode fullText 0 none vs ≠ none := by
  intro hnone
  have hle := (bestFrom_spec mode fullText vs 0 none).1 v hv husable
  rw [hnone] at hle
  have hne : v.prefixText ≠ [] := by
    simp only [Variant.usable, Bool.and_eq_true, decide_eq_true_eq] at husable
    exact husable.1.1.1
  exact hne (List.length_eq_zero_iff.mp (Nat.le_zero.mp hle))

/-- A usable variant is the start of the text, and the rest is short. -/
theorem usable_split {v : Variant} (h : v.usable mode fullText = true) :
    v.prefixText ++ fullText.drop v.prefixText.length = fullText ∧
      (fullText.drop v.prefixText.length).length ≤ currentInputMaxTailChars := by
  simp only [Variant.usable, Bool.and_eq_true, decide_eq_true_eq] at h
  obtain ⟨rest, hrest⟩ := List.isPrefixOf_iff_prefix.mp h.1.2
  constructor
  · rw [← hrest, List.drop_left]
  · rw [List.length_drop]
    exact h.2

end Best

theorem promote_perm (vs : List Variant) (i : Nat) : (promote vs i).Perm vs := by
  unfold promote
  split
  · next hot hhot =>
    split_ifs
    · obtain ⟨hi, rfl⟩ := List.getElem?_eq_some_iff.mp hhot
      have hmiddle : (vs[i] :: (vs.take i ++ vs.drop (i + 1))).Perm (vs.take i ++ vs[i] :: vs.drop (i + 1)) :=
        List.perm_middle.symm
      rw [List.getElem_cons_drop, List.take_append_drop] at hmiddle
      exact hmiddle
    · exact List.Perm.refl vs
  · exact List.Perm.refl vs

/-! The states a history leaves. -/

/-- A session has a key, and few variants with different prefixes. -/
structure State.WellFormed (state : State) : Prop where
  few : state.variants.length ≤ currentInputPrefixMaxVariants
  different : (state.variants.map (·.prefixText)).Nodup

structure PrefixStore.WellFormed (s : PrefixStore) : Prop where
  sorted : s.states.Sorted
  states : ∀ kv ∈ s.states, kv.1 ≠ [] ∧ kv.2.WellFormed

variable {s : PrefixStore}

theorem PrefixStore.WellFormed.filter (h : s.WellFormed) (p : Bytes × State → Bool) :
    PrefixStore.WellFormed { states := s.states.filter p } :=
  ⟨h.sorted.filter p, fun kv hkv => h.states kv (List.mem_filter.mp hkv).1⟩

theorem PrefixStore.WellFormed.insert (h : s.WellFormed) {key : Bytes} (hkey : key ≠ []) {state : State}
    (hstate : state.WellFormed) : PrefixStore.WellFormed { states := s.states.insert key state } := by
  refine ⟨h.sorted.insert, fun kv hkv => ?_⟩
  rcases KeyMap.mem_insert hkv with rfl | hold
  · exact ⟨hkey, hstate⟩
  · exact h.states kv hold

/-- The state of a session whose variant `i` was used. -/
def State.hit (state : State) (i : Nat) (now : Int) : State :=
  { state with variants := promote state.variants i, updatedAt := now }

theorem State.WellFormed.promoted {state : State} (h : state.WellFormed) (i : Nat) (now : Int) :
    (state.hit i now).WellFormed := by
  have hperm := promote_perm state.variants i
  exact ⟨hperm.length_eq ▸ h.few, (hperm.map _).nodup_iff.mpr h.different⟩

/-- What is left after pruning was there before. -/
theorem PrefixStore.WellFormed.pruned (h : s.WellFormed) (c : Call) : (s.pruneLocked c).WellFormed ∧
      ∀ key state, (s.pruneLocked c).states.get key = some state → s.states.get key = some state := by
  have hfilter : ∀ {t : PrefixStore} (p : Bytes × State → Bool), t.WellFormed →
      ∀ key state, KeyMap.get (t.states.filter p) key = some state → t.states.get key = some state := by
    intro t p ht key state hget
    rw [KeyMap.get_filter ht.sorted] at hget
    exact (Option.filter_eq_some_iff.mp hget).1
  unfold PrefixStore.pruneLocked
  dsimp only
  split_ifs
  · exact ⟨h.filter _, hfilter _ h⟩
  · exact ⟨h.filter _, hfilter _ h⟩
  · refine ⟨(h.filter _).filter _, fun key state hget => ?_⟩
    exact hfilter _ h key state (hfilter _ (h.filter _) key state hget)

/-- After pruning no state is over its time. -/
theorem PrefixStore.expire_pruned (s : PrefixStore) (c : Call) (key : Bytes) :
    (s.pruneLocked c).expire c key = s.pruneLocked c := by
  have hlive : ∀ kv ∈ (s.pruneLocked c).states, ¬ c.now - kv.2.updatedAt > currentInputPrefixTTL := by
    intro kv hkv
    have hmem : kv ∈ s.states.filter (fun kv => !(c.now - kv.2.updatedAt > currentInputPrefixTTL)) := by
      unfold PrefixStore.pruneLocked at hkv
      dsimp only at hkv
      split_ifs at hkv
      · exact hkv
      · exact hkv
      · exact (List.mem_filter.mp hkv).1
    simpa using (List.mem_filter.mp hmem).2
  unfold PrefixStore.expire
  split
  · next state hget => exact if_neg (hlive _ (KeyMap.mem_of_get hget))
  · rfl

/-- A file id that is refreshed leaves the prefixes as they are. -/
theorem map_prefixText_modify {f : Variant → Variant} (hf : ∀ v, (f v).prefixText = v.prefixText)
    (vs : List Variant) (i : Nat) : (vs.modify i f).map (·.prefixText) = vs.map (·.prefixText) := by
  refine List.ext_getElem? fun n => ?_
  rw [List.getElem?_map, List.getElem?_map, List.getElem?_modify, Option.map_eq_map, Option.map_map]
  congr 1
  funext v
  dsimp only [Function.comp_apply]
  split_ifs
  · exact hf v
  · rfl

/-- A known prefix changes its place only; a new one pushes out the variant at the end. -/
theorem State.record_spec (state : State) (plan : Plan) :
    (plan.prefixText ∈ state.variants.map (·.prefixText) ∧
      ((state.record plan).map (·.prefixText)).Perm (state.variants.map (·.prefixText))) ∨
    (plan.prefixText ∉ state.variants.map (·.prefixText) ∧
      state.record plan = (⟨plan.prefixText, plan.prefixHash, plan.fileID⟩ :: state.variants).take
        currentInputPrefixMaxVariants) := by
  unfold State.record
  split
  · next i hi =>
    obtain ⟨hlt, hfound, -⟩ := List.findIdx?_eq_some_iff_getElem.mp hi
    refine Or.inl ⟨List.mem_map.mpr ⟨_, List.getElem_mem hlt, of_decide_eq_true hfound⟩, ?_⟩
    refine ((promote_perm _ i).map _).trans (List.Perm.of_eq ?_)
    refine map_prefixText_modify (fun v => ?_) state.variants i
    split_ifs
    · rfl
    · rfl
  · next hnone =>
    refine Or.inr ⟨fun hmem => ?_, rfl⟩
    obtain ⟨v, hv, heq⟩ := List.mem_map.mp hmem
    exact absurd (List.findIdx?_eq_none_iff.mp hnone v hv) (by simp [heq])

theorem State.WellFormed.record {state : State} (h : state.WellFormed) (plan : Plan) (now : Int) :
    State.WellFormed { state with variants := state.record plan, updatedAt := now } := by
  rcases state.record_spec plan with ⟨-, hperm⟩ | ⟨hnew, heq⟩
  · refine ⟨?_, hperm.nodup_iff.mpr h.different⟩
    have hlen := hperm.length_eq
    rw [List.length_map, List.length_map] at hlen
    exact hlen ▸ h.few
  · simp only [heq]
    refine ⟨List.length_take_le _ _, ?_⟩
    rw [List.map_take]
    exact (List.nodup_cons.mpr ⟨hnew, h.different⟩).sublist (List.take_sublist _ _)

/-! What a plan says. -/

/-- The text a plan is about. -/
def planned (fullText : Bytes) : Bytes := trimSpace fullText ++ lit "\n"

/-- The store holds the variant for the session and the mode. -/
def PrefixStore.Holds (s : PrefixStore) (key : Bytes) (mode : Mode) (v : Variant) : Prop :=
  ∃ state, s.states.get key = some state ∧ state.mode = mode ∧ v ∈ state.variants

structure Plan.Reproduces (s : PrefixStore) (key fullText : Bytes) (mode : Mode) (plan : Plan) : Prop where
  whole : plan.prefixText ++ plan.tailText = planned fullText
  nonempty : plan.tailText ≠ []
  short : plan.tailText.length ≤ currentInputMaxTailChars
  fresh : plan.reused = false → CutsAtEntry plan.prefixText plan.tailText
  longest : plan.reused = true → ∃ v, s.Holds key mode v ∧ v.usable mode (planned fullText) = true ∧
    (plan.prefixText, plan.prefixHash, plan.fileID) = (v.prefixText, v.prefixHash, v.fileID) ∧
    ∀ w, s.Holds key mode w → w.usable mode (planned fullText) = true →
      w.prefixText.length ≤ v.prefixText.length

/-- The session has the same variants as before, in some order. -/
def Promotes (s s' : PrefixStore) (key : Bytes) : Prop :=
  ∃ state state', s.states.get key = some state ∧ s'.states.get key = some state' ∧
    state'.mode = state.mode ∧ state'.variants.Perm state.variants

/-- A call does what it should: a plan reproduces the transcript and a hit only changes the
    order of the variants; so does the store of a prefix that is known. -/
def Answers (hash : Bytes → Bytes) (s : PrefixStore) : Action → Prop
  | .plan c key fullText mode => ∀ plan, (s.plan hash c key fullText mode).2 = some plan →
      plan.Reproduces s key fullText mode ∧
        (plan.reused = true → Promotes s (s.plan hash c key fullText mode).1 key)
  | .store c plan => ∀ state, (s.pruneLocked c).states.get plan.key = some state → state.mode = plan.mode →
      plan.prefixText ∈ state.variants.map (·.prefixText) →
        ∃ state', (s.store c plan).states.get plan.key = some state' ∧
          (state'.variants.map (·.prefixText)).Perm (state.variants.map (·.prefixText))
  | .active _ => True

/-- The transcript asked about is stored as a prefix, and may be used. -/
def wholeStored (s : PrefixStore) : Action → Bool
  | .plan c key fullText mode => trimSpace fullText ≠ [] &&
      ((s.pruneLocked c).states.get key).any fun state => state.mode = mode &&
        state.variants.any fun v => v.prefixText = planned fullText && !(mode = .file && v.fileID = [])
  | _ => false

section Plan
variable {hash : Bytes → Bytes} {s : PrefixStore} {c : Call} {key fullText : Bytes} {mode : Mode} {plan : Plan}

/-- A plan comes from the longest usable variant or from a cut. -/
theorem plan_some (h : (s.plan hash c key fullText mode).2 = some plan) :
    (∃ state i hot, (s.pruneLocked c).states.get key = some state ∧ state.mode = mode ∧
      bestFrom mode (planned fullText) 0 none state.variants = some (i, hot) ∧
      (s.plan hash c key fullText mode).1 = ⟨(s.pruneLocked c).states.insert key (state.hit i c.now)⟩ ∧
      plan = { mode := mode, key := key, prefixText := hot.prefixText, prefixHash := hot.prefixHash,
               fileID := hot.fileID, tailText := (planned fullText).drop hot.prefixText.length,
               reused := true }) ∨
    (plan.reused = false ∧
      splitCurrentInputPrefixTail (planned fullText) = some (plan.prefixText, plan.tailText)) := by
  unfold PrefixStore.plan at h ⊢
  rw [PrefixStore.expire_pruned] at h ⊢
  dsimp only at h ⊢
  split_ifs at h ⊢
  unfold PrefixStore.reuse at h ⊢
  rw [← planned] at h ⊢
  split at h
  · next s' found hreuse =>
    cases h
    split at hreuse
    · cases hreuse
    · next state hget =>
      split_ifs at hreuse with hmode
      · split at hreuse
        · cases hreuse
        · next i hot hbest =>
          cases hreuse
          exact Or.inl ⟨state, i, hot, hget, hmode.1, hbest, rfl, rfl⟩
      · cases hreuse
  · next s' hreuse =>
    obtain ⟨⟨front, tail⟩, hsplit, heq⟩ := Option.map_eq_some_iff.mp h
    cases heq
    exact Or.inr ⟨rfl, hsplit⟩

theorem planned_ne_nil (fullText : Bytes) : planned fullText ≠ [] :=
  List.append_ne_nil_of_right_ne_nil _ (by decide)

/-- A transcript that is stored as a whole is the longest variant, and nothing is left of it. -/
theorem plan_of_whole (hash : Bytes → Bytes) (hs : s.WellFormed)
    (h : wholeStored s (.plan c key fullText mode) = true) :
    ∃ plan, (s.plan hash c key fullText mode).2 = some plan ∧ plan.tailText = [] := by
  simp only [wholeStored, Bool.and_eq_true, Option.any_eq_true, List.any_eq_true, decide_eq_true_eq] at h
  obtain ⟨hblank, state, hget, hmode, v, hv, htext, hfile⟩ := h
  have hkey : key ≠ [] := ((hs.pruned c).1.states _ (KeyMap.mem_of_get hget)).1
  have husable : v.usable mode (planned fullText) = true := by
    simp only [Variant.usable, Bool.and_eq_true, decide_eq_true_eq, htext]
    refine ⟨⟨⟨planned_ne_nil fullText, hfile⟩, ?_⟩, ?_⟩
    · exact List.isPrefixOf_iff_prefix.mpr (List.prefix_refl _)
    · rw [Nat.sub_self]
      exact Nat.zero_le _
  obtain ⟨⟨i, hot⟩, hbest⟩ := Option.ne_none_iff_exists'.mp (best_ne_none hv husable)
  obtain ⟨-, hhot, hlongest⟩ := best_some hbest
  have hlen : (planned fullText).length ≤ hot.prefixText.length := htext ▸ hlongest v hv husable
  refine ⟨{ mode := mode, key := key, prefixText := hot.prefixText, prefixHash := hot.prefixHash,
            fileID := hot.fileID, tailText := (planned fullText).drop hot.prefixText.length, reused := true },
    ?_, List.drop_eq_nil_of_le hlen⟩
  have hpos : 0 < state.variants.length := List.length_pos_of_mem hv
  unfold PrefixStore.plan
  rw [PrefixStore.expire_pruned]
  dsimp only
  rw [if_neg (not_or.mpr ⟨hkey, hblank⟩)]
  unfold PrefixStore.reuse
  rw [← planned, hget]
  simp only [if_pos (And.intro hmode hpos), hbest]

theorem plan_reproduces (hs : s.WellFormed) (hwhole : wholeStored s (.plan c key fullText mode) = false)
    (h : (s.plan hash c key fullText mode).2 = some plan) : plan.Reproduces s key fullText mode := by
  rcases plan_some h with ⟨state, i, hot, hget, hmode, hbest, -, rfl⟩ | ⟨hfresh, hsplit⟩
  · obtain ⟨hat, husable, hlongest⟩ := best_some hbest
    obtain ⟨hjoin, hshort⟩ := usable_split husable
    have hmem : hot ∈ state.variants := List.mem_of_getElem? hat
    have hstored := (hs.pruned c).2 key state hget
    refine ⟨hjoin, fun hnil => ?_, hshort, fun hno => (Bool.noConfusion hno), fun _ => ?_⟩
    · -- without a tail the variant is the whole transcript
      have htext : hot.prefixText = planned fullText := by
        rw [← hjoin, show (planned fullText).drop hot.prefixText.length = [] from hnil, List.append_nil]
      refine Bool.false_ne_true (hwhole.symm.trans ?_)
      simp only [Variant.usable, Bool.and_eq_true] at husable
      have hblank : trimSpace fullText ≠ [] := by
        intro hblank
        unfold PrefixStore.plan at h
        dsimp only at h
        rw [if_pos (Or.inr hblank)] at h
        cases h
      simp only [wholeStored, Bool.and_eq_true, Option.any_eq_true, List.any_eq_true, decide_eq_true_eq]
      exact ⟨hblank, state, hget, hmode, hot, hmem, htext, husable.1.1.2⟩
    · refine ⟨hot, ⟨state, hstored, hmode, hmem⟩, husable, rfl, fun w hw hwu => ?_⟩
      obtain ⟨state', hstored', -, hw⟩ := hw
      rw [hstored] at hstored'
      cases hstored'
      exact hlongest w hw hwu
  · obtain ⟨hjoin, hcut, hne, hshort⟩ := split_spec hsplit
    exact ⟨hjoin, hne, hshort, fun _ => hcut, fun hyes => absurd (hfresh.symm.trans hyes) Bool.false_ne_true⟩

theorem plan_promotes (hs : s.WellFormed) (h : (s.plan hash c key fullText mode).2 = some plan)
    (hreused : plan.reused = true) : Promotes s (s.plan hash c key fullText mode).1 key := by
  rcases plan_some h with ⟨state, i, hot, hget, -, -, hstate, -⟩ | ⟨hfresh, -⟩
  · refine ⟨state, state.hit i c.now, (hs.pruned c).2 key state hget, ?_, rfl, promote_perm _ i⟩
    rw [hstate, KeyMap.get_insert, if_pos rfl]
  · exact absurd (hfresh.symm.trans hreused) Bool.false_ne_true

theorem store_answers (hs : s.WellFormed) (c : Call) (plan : Plan) : Answers hash s (.store c plan) := by
  intro state hget hmode hknown
  have hbefore := (hs.pruned c).2 plan.key state hget
  unfold PrefixStore.store
  split_ifs
  · exact ⟨state, hbefore, List.Perm.refl _⟩
  · exact ⟨state, hbefore, List.Perm.refl _⟩
  · have hfor : (s.pruneLocked c).stateFor plan = state := by
      unfold PrefixStore.stateFor
      rw [hget]
      exact if_neg (fun hne => hne hmode)
    refine ⟨_, (KeyMap.get_insert _ _ _ _).trans (if_pos rfl), ?_⟩
    rw [hfor]
    rcases state.record_spec plan with ⟨-, hperm⟩ | ⟨hnew, -⟩
    · exact hperm
    · exact absurd hknown hnew

end Plan

theorem PrefixStore.WellFormed.step {hash : Bytes → Bytes} {s s' : PrefixStore} {a : Action} (hs : s.WellFormed)
    (h : s.step hash a = some s') : s'.WellFormed := by
  cases a with
  | plan c key fullText mode =>
    cases h
    unfold PrefixStore.plan
    rw [PrefixStore.expire_pruned]
    dsimp only
    split_ifs with hblank
    · exact hs
    · have hkey : key ≠ [] := (not_or.mp hblank).1
      have hpruned := (hs.pruned c).1
      have hreuse : ((s.pruneLocked c).reuse c key (planned fullText) mode).1.WellFormed := by
        unfold PrefixStore.reuse
        split
        · exact hpruned
        · next state hget =>
          split_ifs
          · split
            · exact hpruned
            · exact hpruned.insert hkey ((hpruned.states _ (KeyMap.mem_of_get hget)).2.promoted _ _)
          · exact hpruned
      rw [planned] at hreuse
      split
      · next heq =>
        rw [heq] at hreuse
        exact hreuse
      · next heq =>
        rw [heq] at hreuse
        exact hreuse
  | store c plan =>
    cases h
    unfold PrefixStore.store
    split_ifs with hempty
    · exact hs
    · exact hs
    · have hpruned := (hs.pruned c).1
      have hfresh : State.WellFormed { mode := plan.mode, key := plan.key } := ⟨Nat.zero_le _, List.nodup_nil⟩
      have hfor : ((s.pruneLocked c).stateFor plan).WellFormed := by
        unfold PrefixStore.stateFor
        split
        · next state hget =>
          split_ifs
          · exact hfresh
          · exact (hpruned.states _ (KeyMap.mem_of_get hget)).2
        · exact hfresh
      exact hpruned.insert (not_or.mp hempty).1 (hfor.record plan c.now)
  | active c =>
    cases h
    exact (hs.pruned c).1

theorem answers_iff (hash : Bytes → Bytes) (hs : s.WellFormed) (a : Action) :
    Answers hash s a ↔ wholeStored s a = false := by
  cases a with
  | plan c key fullText mode =>
    constructor
    · intro h
      by_contra hwhole
      obtain ⟨plan, hplan, htail⟩ := plan_of_whole hash hs (Bool.not_eq_false _ ▸ hwhole)
      exact (h plan hplan).1.nonempty htail
    · intro hwhole plan hplan
      exact ⟨plan_reproduces hs hwhole hplan, plan_promotes hs hplan⟩
  | store c plan => exact iff_of_true (store_answers hs c plan) rfl
  | active c => exact iff_of_true trivial rfl

/-- In every history the sessions keep at most two different variants; the calls of a history
    all answer as they should exactly if no plan is asked for a transcript that is stored as a
    prefix. -/
theorem prefix_plans_iff (hash : Bytes → Bytes) (actions : List Action) :
    (Runs.Always (PrefixStore.step hash) PrefixStore.WellFormed {} actions ∧
      Runs.Meets (PrefixStore.step hash) (Answers hash) {} actions) ↔
    Runs.Meets (PrefixStore.step hash) (fun s a => wholeStored s a = false) {} actions := by
  have hstart : PrefixStore.WellFormed {} := ⟨List.Pairwise.nil, fun kv hkv => absurd hkv List.not_mem_nil⟩
  have hstep : ∀ s a s', PrefixStore.WellFormed s → s.step hash a = some s' → s'.WellFormed :=
    fun s a s' hs h => hs.step h
  have hiff := Runs.meets_congr hstep (fun s a hs => answers_iff hash hs a) actions hstart
  exact ⟨fun h => hiff.mp h.2, fun h => ⟨Runs.always_inv hstep actions _ hstart, hiff.mpr h⟩⟩

/-- The plan for a message with a line that looks like the start of an entry. -/
def notedPlan : Plan where
  mode := .inline
  key := lit "session"
  prefixText := lit "=== 1. USER ===\nhello\n"
  prefixHash := lit "=== 1. USER ==="
  tailText := lit "=== note\n"
  checkpointRefresh := true

def noted : Action := .plan ⟨0, fun _ => 0⟩ (lit "session") (lit "=== 1. USER ===\nhello\n=== note") .inline

def shortened : Action := .plan ⟨1, fun _ => 0⟩ (lit "session") (lit "=== 1. USER ===\nhello") .inline

/-- Its plan is made and stored; then the message is sent without the line, and the plan for it
    is the stored prefix with nothing behind it. -/
theorem nothing_behind_prefix :
    let hash := fun text : Bytes => text.take 15
    (PrefixStore.plan hash {} ⟨0, fun _ => 0⟩ (lit "session") (lit "=== 1. USER ===\nhello\n=== note") .inline).2 =
        some notedPlan ∧
      ((PrefixStore.store {} ⟨0, fun _ => 0⟩ notedPlan).plan hash ⟨1, fun _ => 0⟩ (lit "session")
        (lit "=== 1. USER ===\nhello") .inline).2.map (fun plan => (plan.reused, plan.tailText)) = some (true, []) ∧
      ¬ Runs.Meets (PrefixStore.step hash) (Answers hash) {}
        [noted, .store ⟨0, fun _ => 0⟩ notedPlan, shortened] := by
  refine ⟨by decide +kernel, by decide +kernel, fun h => ?_⟩
  have hmeets := (Runs.meets_congr (fun s a s' hs h => PrefixStore.WellFormed.step hs h)
    (fun s a hs => answers_iff _ hs a) _ ⟨List.Pairwise.nil, fun kv hkv => absurd hkv List.not_mem_nil⟩).mp h
  exact absurd hmeets (by decide +kernel)

end DeepSeekWebToApi.History
