import DeepSeekWebToApi.Lib.Search
import DeepSeekWebToApi.Lib.Text
import DeepSeekWebToApi.Lib.Utf8

/- Splitting an oversized prompt into chunks of one session (`openai/shared/session_chunking.go`,
   `PromptUnits` of `promptcompat/prompt_compress.go`). The budget of a chunk is in UTF-16 units,
   a cut is an index of runes. A planner may propose a cut as an offset in units into a window of
   the text; what it answers is arbitrary, and an answer out of the allowed range is an error. An
   index out of range is a panic. -/
namespace DeepSeekWebToApi.Shared
open GoStrings GoLoop Search

/-! Units. -/

/-- The runes of a text, U+FFFD for each ill-formed byte. -/
def runesOf (s : Bytes) : List Nat := (splitRunes s).map Prod.fst

/-- The number of UTF-16 units of a rune. -/
def utf16Len (r : Nat) : Int := if 0x10000 ≤ r ∧ r ≤ 0x10FFFF then 2 else 1

def unitsOf (rs : List Nat) : Int := (rs.map utf16Len).sum

def promptUnits (value : Bytes) : Int := unitsOf (runesOf value)

/-- The units before each rune and at the end, on top of `units`. -/
def sessionChunkUTF16Prefix : Int → List Nat → List Int
  | units, [] => [units]
  | units, r :: rs => units :: sessionChunkUTF16Prefix (units + utf16Len r) rs

/-- The last index with at most so many units before it, -1 where there is none. -/
def runeIndexAtOrBelow (before : List Int) (units : Int) : Option Int :=
  (partitionPoint (fun mid => (before[mid]?).map (fun u => decide (u ≤ units))) 0 before.length).map
    (fun low => (low : Int) - 1)

/-- An element of a list, for an index that may be out of range. -/
def elementAt {α : Type} (xs : List α) (i : Int) : Option α := if 0 ≤ i then xs[i.toNat]? else none

/-! Boundaries. -/

def sessionChunkHasSuffix (runes : List Nat) (stop : Nat) (suffix : List Nat) : Bool :=
  suffix ≠ [] && suffix.length ≤ stop && stop ≤ runes.length &&
    (runes.take stop).drop (stop - suffix.length) = suffix

/-- The first hit on the way down from an index, as long as there are units enough before it. -/
def scanDown (before : List Int) (minUnits : Int) (hit : Nat → Bool) : Nat → Option (Option Nat)
  | 0 => some none
  | i + 1 =>
    (before[i + 1]?).bind (fun units =>
      if units < minUnits then some none
      else if hit (i + 1) then some (some (i + 1))
      else scanDown before minUnits hit i)

def boundaries : List (List Nat) :=
  [runes "\n\n", runes "\n", runes ". ", runes "! ", runes "? ", runes "。", runes "！", runes "？",
    runes "; ", runes "；"]

def isBlankBefore (rs : List Nat) (i : Nat) : Bool := (rs[i - 1]?).any (fun r => r = 0x20 || r = 0x09)

/-- The cut for the first kind of place that is found at all. -/
def firstCut (before : List Int) (minUnits : Int) (hardEnd : Nat) : List (Nat → Bool) → Option Nat
  | [] => some hardEnd
  | hit :: hits =>
    (scanDown before minUnits hit hardEnd).bind (fun found =>
      match found with
      | some i => some i
      | none => firstCut before minUnits hardEnd hits)

def deterministicSessionChunkCut (rs : List Nat) (before : List Int) (hardEnd : Nat) (minUnits : Int) :
    Option Nat :=
  firstCut before minUnits hardEnd
    (boundaries.map (fun boundary i => sessionChunkHasSuffix rs i boundary) ++ [isBlankBefore rs])

/-! Cuts. -/

def sessionChunkPlannerLookbehindUnits : Int := 12000
def sessionChunkPlannerLookaheadUnits : Int := 4000

/-- The number the planner decodes for a window and the range it is allowed, if it answers. -/
abbrev Planner := Bytes → Int → Int → Option Int

/-- An answer out of range is an error. -/
def Planner.choose (planner : Planner) (window : Bytes) (minOffset maxOffset : Int) : Option Int :=
  (planner window minOffset maxOffset).filter (fun offset => minOffset ≤ offset && offset ≤ maxOffset)

/-- What is looked at around the hard end. -/
structure Window where
  text : Bytes
  /-- The units before the window. -/
  base : Int
  minAbsoluteUnits : Int
  minOffset : Int
  maxOffset : Int

def windowAt (rs : List Nat) (before : List Int) (budget hardEnd : Int) : Option Window :=
  (elementAt before hardEnd).bind (fun endUnits =>
    (runeIndexAtOrBelow before (max (endUnits - sessionChunkPlannerLookbehindUnits) 0)).bind (fun windowStart =>
      (runeIndexAtOrBelow before (endUnits + sessionChunkPlannerLookaheadUnits)).bind (fun windowEnd =>
        let windowEnd := max windowEnd hardEnd
        (elementAt before windowStart).bind (fun base =>
          if windowStart ≤ windowEnd ∧ windowEnd ≤ rs.length then
            let minAbsoluteUnits := max ((budget * 60).tdiv 100) (base + 1)
            some
              { text := encode ((rs.take windowEnd.toNat).drop windowStart.toNat)
                base
                minAbsoluteUnits
                minOffset := minAbsoluteUnits - base
                maxOffset := endUnits - base }
          else none))))

/-- The cut the planner's answer stands for, if it is a cut before the hard end. -/
def plannedCut (before : List Int) (hardEnd : Int) (w : Window) : Option Planner → Option (Option Nat)
  | none => some none
  | some planner =>
    match planner.choose w.text w.minOffset w.maxOffset with
    | none => some none
    | some offset =>
      (runeIndexAtOrBelow before (w.base + offset)).map (fun chosen =>
        if 0 < chosen ∧ chosen ≤ hardEnd then some chosen.toNat else none)

def chooseSessionChunkCut (planner : Option Planner) (text : Bytes) (budget : Int) : Option Nat :=
  let rs := runesOf text
  let before := sessionChunkUTF16Prefix 0 rs
  (runeIndexAtOrBelow before budget).bind (fun hardEnd =>
    if hardEnd ≤ 0 then some 0
    else
      (windowAt rs before budget hardEnd).bind (fun w =>
        (plannedCut before hardEnd w planner).bind (fun planned =>
          match planned with
          | some cut => some cut
          | none => deterministicSessionChunkCut rs before hardEnd.toNat w.minAbsoluteUnits)))

/-! Splitting. -/

inductive ChunkingError where
  /-- `oversized prompt requires more than %d same-session chunks` -/
  | tooMany (maxChunks : Int)
  /-- `could not find a safe chunk boundary` -/
  | noBoundary
  deriving DecidableEq

structure Splitting where
  remaining : Bytes
  chunks : List Bytes := []

/-- One turn of the loop; the planner may answer differently each time it is asked. -/
def splitBody (planner : Option (Nat → Planner)) (contentBudget maxChunks : Int) (s : Splitting) :
    Option (Turn Splitting (Except ChunkingError (List Bytes))) :=
  if promptUnits s.remaining > contentBudget then
    if (s.chunks.length : Int) + 1 ≥ maxChunks then some (.done (.error (.tooMany maxChunks)))
    else
      (chooseSessionChunkCut (planner.map (· s.chunks.length)) s.remaining contentBudget).map (fun cut =>
        let rs := runesOf s.remaining
        if cut = 0 ∨ rs.length ≤ cut then .done (.error .noBoundary)
        else .next { remaining := encode (rs.drop cut), chunks := s.chunks ++ [encode (rs.take cut)] })
  else some (.done (.ok (s.chunks ++ [s.remaining])))

def chunkLimit (maxChunks : Int) : Int := if maxChunks ≤ 0 then 16 else maxChunks

def splitSessionChunks (planner : Option (Nat → Planner)) (prompt : Bytes) (contentBudget maxChunks : Int) :
    Option (Except ChunkingError (List Bytes)) :=
  loop (fun s => (runesOf s.remaining).length) (splitBody planner contentBudget (chunkLimit maxChunks))
    { remaining := prompt }

/-! Units before an index. -/

theorem utf16Len_pos (r : Nat) : 0 < utf16Len r := by
  rw [utf16Len]
  split_ifs <;> omega

theorem unitsOf_append (rs qs : List Nat) : unitsOf (rs ++ qs) = unitsOf rs + unitsOf qs := by
  rw [unitsOf, List.map_append, List.sum_append]
  rfl

theorem unitsOf_nonneg : ∀ rs : List Nat, 0 ≤ unitsOf rs
  | [] => Int.le_refl 0
  | r :: rs => by
    have hr := utf16Len_pos r
    have ih := unitsOf_nonneg rs
    have hcons : unitsOf (r :: rs) = utf16Len r + unitsOf rs := by simp [unitsOf]
    omega

theorem unitsOf_take_le (rs : List Nat) {i j : Nat} (h : i ≤ j) :
    unitsOf (rs.take i) ≤ unitsOf (rs.take j) := by
  have hsplit : rs.take j = rs.take i ++ (rs.take j).drop i := by
    conv_lhs => rw [← List.take_append_drop i (rs.take j), List.take_take, Nat.min_eq_left h]
  rw [hsplit, unitsOf_append]
  have := unitsOf_nonneg ((rs.take j).drop i)
  omega

theorem length_units : ∀ (units : Int) (rs : List Nat),
    (sessionChunkUTF16Prefix units rs).length = rs.length + 1
  | _, [] => rfl
  | units, r :: rs => by rw [sessionChunkUTF16Prefix, List.length_cons, length_units, List.length_cons]

theorem units_get : ∀ (units : Int) (rs : List Nat) {i : Nat}, i ≤ rs.length →
    (sessionChunkUTF16Prefix units rs)[i]? = some (units + unitsOf (rs.take i))
  | units, [], i, h => by
    have hi : i = 0 := Nat.le_zero.mp h
    subst hi
    simp [sessionChunkUTF16Prefix, unitsOf]
  | units, r :: rs, 0, _ => by simp [sessionChunkUTF16Prefix, unitsOf]
  | units, r :: rs, i + 1, h => by
    rw [sessionChunkUTF16Prefix, List.getElem?_cons_succ, units_get _ rs (Nat.le_of_succ_le_succ h)]
    simp [unitsOf, Int.add_assoc]

theorem elementAt_units {rs : List Nat} {i : Nat} (h : i ≤ rs.length) :
    elementAt (sessionChunkUTF16Prefix 0 rs) i = some (unitsOf (rs.take i)) := by
  rw [elementAt, if_pos (Int.natCast_nonneg i), Int.toNat_natCast, units_get 0 rs h, Int.zero_add]

/-- The indices with at most so many units before them are those up to one. -/
theorem exists_lastIndex (rs : List Nat) {units : Int} (h : 0 ≤ units) :
    ∃ i ≤ rs.length, ∀ j ≤ rs.length, unitsOf (rs.take j) ≤ units ↔ j ≤ i := by
  induction rs using List.reverseRecOn with
  | nil => exact ⟨0, Nat.le_refl 0, fun j hj => iff_of_true (by simpa [unitsOf] using h) hj⟩
  | append_singleton rs r ih =>
    by_cases hall : unitsOf (rs ++ [r]) ≤ units
    · refine ⟨(rs ++ [r]).length, Nat.le_refl _, fun j hj => iff_of_true ?_ hj⟩
      calc unitsOf ((rs ++ [r]).take j) ≤ unitsOf ((rs ++ [r]).take (rs ++ [r]).length) := unitsOf_take_le _ hj
        _ = unitsOf (rs ++ [r]) := by rw [List.take_length]
        _ ≤ units := hall
    · obtain ⟨i, hi, hiff⟩ := ih
      rw [List.length_append, List.length_singleton]
      refine ⟨i, by omega, fun j hj => ?_⟩
      rcases Nat.lt_or_ge rs.length j with hlast | hle
      · have hj' : j = (rs ++ [r]).length := by
          rw [List.length_append, List.length_singleton]
          omega
        rw [hj', List.take_length]
        refine iff_of_false hall ?_
        rw [List.length_append, List.length_singleton]
        omega
      · rw [List.take_append_of_le_length hle]
        exact hiff j hle

/-- The search finds it. -/
theorem runeIndex_spec (rs : List Nat) {units : Int} (h : 0 ≤ units) :
    ∃ i ≤ rs.length, runeIndexAtOrBelow (sessionChunkUTF16Prefix 0 rs) units = some (i : Int) ∧
      ∀ j ≤ rs.length, unitsOf (rs.take j) ≤ units ↔ j ≤ i := by
  obtain ⟨i, hi, hiff⟩ := exists_lastIndex rs h
  refine ⟨i, hi, ?_, hiff⟩
  have hreads : ∀ mid < rs.length + 1,
      ((sessionChunkUTF16Prefix 0 rs)[mid]?).map (fun u => decide (u ≤ units)) =
      some (decide (mid < i + 1)) := by
    intro mid hmid
    have hle := Nat.le_of_lt_succ hmid
    rw [units_get 0 rs hle, Option.map_some, Int.zero_add]
    congr 1
    rw [decide_eq_decide, hiff mid hle]
    omega
  rw [runeIndexAtOrBelow, length_units, partitionPoint_eq hreads (by omega) (by omega) (Nat.le_refl _)]
  simp

/-! A cut is no further than the hard end. -/

section cuts
variable {rs : List Nat}

theorem scanDown_spec (minUnits : Int) (hit : Nat → Bool) : ∀ {i : Nat}, i ≤ rs.length →
    ∃ found, scanDown (sessionChunkUTF16Prefix 0 rs) minUnits hit i = some found ∧
      ∀ cut ∈ found, 0 < cut ∧ cut ≤ i
  | 0, _ => ⟨none, rfl, fun _ h => by cases h⟩
  | i + 1, hi => by
    obtain ⟨found, hfound, hcut⟩ := scanDown_spec minUnits hit (Nat.le_of_succ_le hi)
    rw [scanDown, units_get 0 rs hi, Option.bind_some]
    split_ifs
    · exact ⟨none, rfl, fun _ h => by cases h⟩
    · refine ⟨some (i + 1), rfl, fun cut h => ?_⟩
      cases h
      exact ⟨Nat.succ_pos i, Nat.le_refl _⟩
    · refine ⟨found, hfound, fun cut h => ?_⟩
      obtain ⟨hpos, hle⟩ := hcut cut h
      exact ⟨hpos, Nat.le_succ_of_le hle⟩

theorem firstCut_spec (minUnits : Int) {hardEnd : Nat} (hpos : 0 < hardEnd) (hend : hardEnd ≤ rs.length) :
    ∀ hits : List (Nat → Bool), ∃ cut,
      firstCut (sessionChunkUTF16Prefix 0 rs) minUnits hardEnd hits = some cut ∧
      0 < cut ∧ cut ≤ hardEnd
  | [] => ⟨hardEnd, rfl, hpos, Nat.le_refl _⟩
  | hit :: hits => by
    obtain ⟨found, hfound, hcut⟩ := scanDown_spec minUnits hit hend
    rw [firstCut, hfound, Option.bind_some]
    cases found with
    | none => exact firstCut_spec minUnits hpos hend hits
    | some cut => exact ⟨cut, rfl, hcut cut rfl⟩

/-- The window is within the text, and the answers it allows are not before it. -/
theorem windowAt_spec (budget : Int) {hardEnd : Nat} (hend : hardEnd ≤ rs.length) :
    ∃ w, windowAt rs (sessionChunkUTF16Prefix 0 rs) budget hardEnd = some w ∧ 0 ≤ w.base ∧
      0 < w.minOffset := by
  have hunits := unitsOf_nonneg (rs.take hardEnd)
  have hahead : (0 : Int) ≤ sessionChunkPlannerLookaheadUnits := by decide
  have hbehind : (0 : Int) ≤ sessionChunkPlannerLookbehindUnits := by decide
  obtain ⟨start, hstart, hstartIndex, hstartIff⟩ := runeIndex_spec rs
    (Int.le_max_right (unitsOf (rs.take hardEnd) - sessionChunkPlannerLookbehindUnits) 0)
  obtain ⟨stop, hstop, hstopIndex, hstopIff⟩ := runeIndex_spec rs
    (show 0 ≤ unitsOf (rs.take hardEnd) + sessionChunkPlannerLookaheadUnits by omega)
  have hordered : start ≤ stop := by
    refine (hstopIff start hstart).mp ?_
    have hbase := (hstartIff start hstart).mpr (Nat.le_refl _)
    omega
  rw [windowAt, elementAt_units hend, Option.bind_some, hstartIndex, Option.bind_some, hstopIndex,
    Option.bind_some, elementAt_units hstart, Option.bind_some, if_pos (by omega)]
  refine ⟨_, rfl, unitsOf_nonneg _, ?_⟩
  show 0 < max ((budget * 60).tdiv 100) (unitsOf (rs.take start) + 1) - unitsOf (rs.take start)
  omega

theorem plannedCut_spec (rs : List Nat) (planner : Option Planner) {w : Window} (hbase : 0 ≤ w.base)
    (hmin : 0 < w.minOffset) (hardEnd : Nat) : ∃ planned,
      plannedCut (sessionChunkUTF16Prefix 0 rs) hardEnd w planner = some planned ∧
      ∀ cut ∈ planned, 0 < cut ∧ cut ≤ hardEnd := by
  cases planner with
  | none => exact ⟨none, rfl, fun _ h => by cases h⟩
  | some planner =>
    rw [plannedCut]
    cases hchoose : planner.choose w.text w.minOffset w.maxOffset with
    | none => exact ⟨none, rfl, fun _ h => by cases h⟩
    | some offset =>
      have hoffset : w.minOffset ≤ offset := by
        have hrange := (Option.filter_eq_some_iff.mp hchoose).2
        rw [Bool.and_eq_true, decide_eq_true_eq] at hrange
        exact hrange.1
      obtain ⟨chosen, -, hindex, -⟩ := runeIndex_spec rs (show 0 ≤ w.base + offset by omega)
      simp only [hindex, Option.map_some]
      refine ⟨_, rfl, fun cut h => ?_⟩
      split_ifs at h with hrange
      · cases h
        omega
      · cases h

end cuts

/-- The cut of a text: none at all, or one with at most the budget before it. -/
theorem chooseCut_spec (planner : Option Planner) (text : Bytes) {budget : Int} (hbudget : 0 ≤ budget) :
    ∃ cut, chooseSessionChunkCut planner text budget = some cut ∧
      (0 < cut → unitsOf ((runesOf text).take cut) ≤ budget) := by
  obtain ⟨hardEnd, hend, hindex, hiff⟩ := runeIndex_spec (runesOf text) hbudget
  rw [chooseSessionChunkCut, hindex, Option.bind_some]
  by_cases hzero : (hardEnd : Int) ≤ 0
  · rw [if_pos hzero]
    exact ⟨0, rfl, fun h => absurd h (Nat.lt_irrefl 0)⟩
  · have hpos : 0 < hardEnd := by omega
    -- whatever chooses the cut, it is at most the hard end
    have hwithin : ∀ cut, cut ≤ hardEnd → unitsOf ((runesOf text).take cut) ≤ budget := fun cut hcut =>
      (hiff cut (Nat.le_trans hcut hend)).mpr hcut
    obtain ⟨w, hw, hbase, hmin⟩ := windowAt_spec budget hend
    obtain ⟨planned, hplanned, hcuts⟩ := plannedCut_spec (runesOf text) planner hbase hmin hardEnd
    rw [if_neg hzero, hw, Option.bind_some, hplanned, Option.bind_some]
    cases planned with
    | some cut => exact ⟨cut, rfl, fun _ => hwithin cut (hcuts cut rfl).2⟩
    | none =>
      obtain ⟨cut, hcut, -, hle⟩ := firstCut_spec w.minAbsoluteUnits hpos hend
        (boundaries.map (fun boundary i => sessionChunkHasSuffix (runesOf text) i boundary) ++
          [isBlankBefore (runesOf text)])
      exact ⟨cut, hcut, fun _ => hwithin cut hle⟩

/-! Runes and texts. -/

theorem runesOf_scalar {s : Bytes} : ∀ r ∈ runesOf s, Scalar r := by
  intro r hr
  obtain ⟨g, hg, rfl⟩ := List.mem_map.mp hr
  exact splitRunes_scalar _ g hg

theorem runesOf_encode {rs : List Nat} (h : ∀ r ∈ rs, Scalar r) : runesOf (encode rs) = rs := by
  rw [runesOf, splitRunes_encode h, List.map_map]
  exact List.map_id rs

theorem encode_runesOf {s : Bytes} (h : IsUtf8 s) : encode (runesOf s) = s := by
  obtain ⟨rs, hrs, rfl⟩ := h
  rw [runesOf_encode hrs]

theorem encode_ne_nil {rs : List Nat} (h : rs ≠ []) : encode rs ≠ [] := by
  obtain ⟨r, qs, rfl⟩ := List.exists_cons_of_ne_nil h
  rw [encode, List.flatMap_cons]
  exact List.append_ne_nil_of_left_ne_nil (encodeRune_ne_nil r) _

/-! Whole splits. -/

section split
variable {planner : Option (Nat → Planner)} {contentBudget limit : Int}

/-- A turn that goes on cuts the remaining text in two. -/
theorem splitBody_next (hbudget : 0 ≤ contentBudget) {s t : Splitting}
    (h : splitBody planner contentBudget limit s = some (.next t)) :
    ∃ cut, 0 < cut ∧ cut < (runesOf s.remaining).length ∧ (s.chunks.length : Int) + 1 < limit ∧
      unitsOf ((runesOf s.remaining).take cut) ≤ contentBudget ∧
      t = { remaining := encode ((runesOf s.remaining).drop cut)
            chunks := s.chunks ++ [encode ((runesOf s.remaining).take cut)] } := by
  obtain ⟨cut, hcut, hunits⟩ :=
    chooseCut_spec (planner.map (· s.chunks.length)) s.remaining hbudget
  rw [splitBody] at h
  split_ifs at h with hover hmany
  · cases h
  · rw [hcut, Option.map_some] at h
    dsimp only at h
    split_ifs at h with hbad
    · cases h
    · cases h
      have hpos : 0 < cut := by omega
      exact ⟨cut, hpos, by omega, by omega, hunits hpos, rfl⟩
  · cases h

theorem splitBody_ne_none (hbudget : 0 ≤ contentBudget) (s : Splitting) :
    splitBody planner contentBudget limit s ≠ none := by
  obtain ⟨cut, hcut, -⟩ := chooseCut_spec (planner.map (· s.chunks.length)) s.remaining hbudget
  rw [splitBody]
  split_ifs
  · exact Option.some_ne_none _
  · rw [hcut]
    exact Option.some_ne_none _
  · exact Option.some_ne_none _

theorem splitBody_decreases (hbudget : 0 ≤ contentBudget) :
    Decreases (fun s => (runesOf s.remaining).length) (splitBody planner contentBudget limit) := by
  intro s t ht
  obtain ⟨cut, hpos, hlt, -, -, rfl⟩ := splitBody_next hbudget ht
  show (runesOf (encode ((runesOf s.remaining).drop cut))).length < (runesOf s.remaining).length
  rw [runesOf_encode fun r hr => runesOf_scalar r (List.mem_of_mem_drop hr), List.length_drop]
  omega

/-- In the loop: the chunks are within the budget and there is room for one more. -/
structure Splitting.Within (contentBudget limit : Int) (s : Splitting) : Prop where
  units : ∀ chunk ∈ s.chunks, promptUnits chunk ≤ contentBudget
  room : (s.chunks.length : Int) + 1 ≤ limit

theorem Splitting.Within.next (hbudget : 0 ≤ contentBudget) {s t : Splitting}
    (h : s.Within contentBudget limit)
    (ht : splitBody planner contentBudget limit s = some (.next t)) : t.Within contentBudget limit := by
  obtain ⟨cut, -, -, hroom, hunits, rfl⟩ := splitBody_next hbudget ht
  refine ⟨fun chunk hchunk => ?_, ?_⟩
  · rcases List.mem_append.mp hchunk with hchunk | hchunk
    · exact h.units chunk hchunk
    · rw [List.mem_singleton.mp hchunk, promptUnits,
        runesOf_encode fun r hr => runesOf_scalar r (List.mem_of_mem_take hr)]
      exact hunits
  · rw [List.length_append, List.length_singleton]
    omega

/-- A successful split ends with what remains as its last chunk. -/
theorem splitBody_ok {s : Splitting} {chunks : List Bytes}
    (h : splitBody planner contentBudget limit s = some (.done (.ok chunks))) :
    promptUnits s.remaining ≤ contentBudget ∧ chunks = s.chunks ++ [s.remaining] := by
  rw [splitBody] at h
  split_ifs at h with hover hmany
  · cases h
  · obtain ⟨cut, -, hcut⟩ := Option.map_eq_some_iff.mp h
    dsimp only at hcut
    split_ifs at hcut
    cases hcut
  · cases h
    exact ⟨Int.not_lt.mp hover, rfl⟩

theorem Splitting.Within.done {s : Splitting} (h : s.Within contentBudget limit)
    {r : Except ChunkingError (List Bytes)}
    (hr : splitBody planner contentBudget limit s = some (.done r)) : ∀ chunks, r = .ok chunks →
      (∀ chunk ∈ chunks, promptUnits chunk ≤ contentBudget) ∧ (chunks.length : Int) ≤ limit := by
  rintro chunks rfl
  obtain ⟨hlast, rfl⟩ := splitBody_ok hr
  refine ⟨fun chunk hchunk => ?_, ?_⟩
  · rcases List.mem_append.mp hchunk with hchunk | hchunk
    · exact h.units chunk hchunk
    · rw [List.mem_singleton.mp hchunk]
      exact hlast
  · rw [List.length_append, List.length_singleton]
    exact h.room

/-- Splitting ends, and the chunks of any prompt are within the budget and not too many. -/
theorem chunks_within (planner : Option (Nat → Planner)) (prompt : Bytes) (hbudget : 0 ≤ contentBudget)
    (maxChunks : Int) :
    ∃ r, splitSessionChunks planner prompt contentBudget maxChunks = some r ∧ ∀ chunks, r = .ok chunks →
      (∀ chunk ∈ chunks, promptUnits chunk ≤ contentBudget) ∧
        (chunks.length : Int) ≤ chunkLimit maxChunks := by
  have hlimit : 1 ≤ chunkLimit maxChunks := by
    rw [chunkLimit]
    split_ifs <;> omega
  have hstart : Splitting.Within contentBudget (chunkLimit maxChunks) { remaining := prompt } :=
    ⟨List.forall_mem_nil _, by simpa using hlimit⟩
  have hends : splitSessionChunks planner prompt contentBudget maxChunks ≠ none :=
    (splitBody_decreases hbudget).loop_ne_none_iff.mpr fun s _ => splitBody_ne_none hbudget s
  obtain ⟨r, hr⟩ := Option.ne_none_iff_exists'.mp hends
  exact ⟨r, hr, loop_inv (fun _ _ h ht => h.next hbudget ht) (fun _ _ h hdone => h.done hdone) hstart hr⟩

/-- In the loop over a valid prompt: the chunks and what remains are the prompt, none of them empty. -/
structure Splitting.Inv (prompt : Bytes) (s : Splitting) : Prop where
  lossless : s.chunks.flatten ++ s.remaining = prompt
  valid : IsUtf8 s.remaining
  nonempty : ∀ chunk ∈ s.chunks, chunk ≠ []
  more : prompt ≠ [] → s.remaining ≠ []

theorem Splitting.Inv.next {prompt : Bytes} (hbudget : 0 ≤ contentBudget) {s t : Splitting}
    (h : s.Inv prompt) (ht : splitBody planner contentBudget limit s = some (.next t)) : t.Inv prompt := by
  obtain ⟨cut, hpos, hlt, -, -, rfl⟩ := splitBody_next hbudget ht
  have hdrop : ∀ r ∈ (runesOf s.remaining).drop cut, Scalar r := fun r hr =>
    runesOf_scalar r (List.mem_of_mem_drop hr)
  have hne : (runesOf s.remaining).take cut ≠ [] := by
    rw [← List.length_pos_iff, List.length_take]
    omega
  have hrest : (runesOf s.remaining).drop cut ≠ [] := by
    rw [← List.length_pos_iff, List.length_drop]
    omega
  refine ⟨?_, ⟨_, hdrop, rfl⟩, ?_, fun _ => encode_ne_nil hrest⟩
  · have htext : encode ((runesOf s.remaining).take cut) ++ encode ((runesOf s.remaining).drop cut) =
        s.remaining := by
      rw [← encode_append, List.take_append_drop, encode_runesOf h.valid]
    rw [List.flatten_append, List.flatten_singleton, List.append_assoc, htext, h.lossless]
  · intro chunk hchunk
    rcases List.mem_append.mp hchunk with hchunk | hchunk
    · exact h.nonempty chunk hchunk
    · rw [List.mem_singleton.mp hchunk]
      exact encode_ne_nil hne

theorem Splitting.Inv.done {prompt : Bytes} {s : Splitting} (h : s.Inv prompt)
    {r : Except ChunkingError (List Bytes)}
    (hr : splitBody planner contentBudget limit s = some (.done r)) : ∀ chunks, r = .ok chunks →
      chunks.flatten = prompt ∧ (prompt ≠ [] → ∀ chunk ∈ chunks, chunk ≠ []) := by
  rintro chunks rfl
  obtain ⟨-, rfl⟩ := splitBody_ok hr
  refine ⟨?_, fun hprompt chunk hchunk => ?_⟩
  · rw [List.flatten_append, List.flatten_singleton, h.lossless]
  · rcases List.mem_append.mp hchunk with hchunk | hchunk
    · exact h.nonempty chunk hchunk
    · rw [List.mem_singleton.mp hchunk]
      exact h.more hprompt

/-- What a successful split is. -/
structure Chunked (prompt : Bytes) (contentBudget maxChunks : Int) (chunks : List Bytes) : Prop where
  lossless : chunks.flatten = prompt
  count : (chunks.length : Int) ≤ chunkLimit maxChunks
  units : ∀ chunk ∈ chunks, promptUnits chunk ≤ contentBudget
  nonempty : prompt ≠ [] → ∀ chunk ∈ chunks, chunk ≠ []

/-- An empty prompt is its own single chunk. -/
theorem split_empty (planner : Option (Nat → Planner)) (hbudget : 0 ≤ contentBudget) (maxChunks : Int) :
    splitSessionChunks planner [] contentBudget maxChunks = some (.ok [[]]) := by
  have hunits : ¬ promptUnits [] > contentBudget := Int.not_lt.mpr hbudget
  rw [splitSessionChunks, (splitBody_decreases hbudget).loop_eq, splitBody, if_neg hunits]
  rfl

end split

/-- Splitting a valid prompt ends, whatever the planner answers, and a successful split is lossless and
    within its bounds. An empty prompt has one chunk, which is empty. -/
theorem session_chunks (planner : Option (Nat → Planner)) (prompt : Bytes) (hprompt : IsUtf8 prompt)
    (contentBudget : Int) (hbudget : 1024 ≤ contentBudget) (maxChunks : Int) :
    ∃ r, splitSessionChunks planner prompt contentBudget maxChunks = some r ∧
      (∀ chunks, r = .ok chunks → Chunked prompt contentBudget maxChunks chunks) ∧
      (prompt = [] → r = .ok [[]]) := by
  have hbudget : 0 ≤ contentBudget := by omega
  obtain ⟨r, hr, hwithin⟩ := chunks_within planner prompt hbudget maxChunks
  have hstart : Splitting.Inv prompt { remaining := prompt } :=
    ⟨rfl, hprompt, List.forall_mem_nil _, id⟩
  have hinv := loop_inv (fun _ _ h ht => h.next hbudget ht) (fun _ _ h hdone => h.done hdone) hstart hr
  refine ⟨r, hr, fun chunks hok => ?_, fun hempty => ?_⟩
  · obtain ⟨hlossless, hnonempty⟩ := hinv chunks hok
    obtain ⟨hunits, hcount⟩ := hwithin chunks hok
    exact ⟨hlossless, hcount, hunits, hnonempty⟩
  · rw [hempty, split_empty planner hbudget] at hr
    exact (Option.some.inj hr).symm

/-- A prompt above the budget, with the end of a paragraph at the budget. -/
def longPrompt : Bytes := List.replicate 1022 0x61 ++ lit "\n\nb"

theorem session_chunks_ascii :
    splitSessionChunks none longPrompt 1024 0 = some (.ok [longPrompt.take 1024, longPrompt.drop 1024]) ∧
      Chunked longPrompt 1024 0 [longPrompt.take 1024, longPrompt.drop 1024] := by
  have hsplit : splitSessionChunks none longPrompt 1024 0 =
      some (.ok [longPrompt.take 1024, longPrompt.drop 1024]) := by decide +kernel
  have hprompt : IsUtf8 longPrompt := isUtf8_ascii (by decide +kernel)
  obtain ⟨r, hr, hchunked, -⟩ := session_chunks none longPrompt hprompt 1024 (by decide) 0
  rw [hsplit] at hr
  exact ⟨hsplit, hchunked _ (Option.some.inj hr).symm⟩

theorem empty_prompt_chunk : IsUtf8 [] ∧ splitSessionChunks none [] 1024 0 = some (.ok [[]]) :=
  ⟨isUtf8_nil, rfl⟩

end DeepSeekWebToApi.Shared
