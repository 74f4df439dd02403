import DeepSeekWebToApi.Client.Splice
import DeepSeekWebToApi.Lib.RuneText
import DeepSeekWebToApi.Sse.Content

/- Whether a chunk finishes the response, as the auto-continue layer observes it and as the
   decoder reads it. Both know a status patch, alone or in a batch. The observer also looks
   into response objects, takes paths with blanks and slashes around them, and looks at chunks
   whose path the decoder skips; the decoder also takes a text without a path that is the
   marker. `observers_agree_iff` says for which chunks the two agree. -/
namespace DeepSeekWebToApi.Client
open GoStrings GoJson Sse

/-! Texts that start with a byte that is neither blank nor a slash. -/

/-- The bytes a printed number, list or map starts with. -/
def printedHeads : Bytes := lit "0123456789+-N[m"

theorem printedHeads_solid : ∀ b ∈ printedHeads, b.toNat < 0x80 ∧ isSpace b.toNat = false ∧ b ≠ 0 ∧
    b ≠ 0x3C ∧ b ≠ 0x2F ∧ foldRune b.toNat ≠ 0x66 ∧ foldRune b.toNat ≠ 0x63 ∧
    b ≠ 0x72 ∧ b ≠ 0x73 ∧ b ≠ 0x71 := by decide +kernel

variable {b : UInt8}

theorem replaceAll_solid (hb : b ≠ 0) (s : Bytes) : ∃ t, replaceAll (b :: s) [0] [] = b :: t := by
  refine ⟨replaceAllFrom [0] [] 0 s, ?_⟩
  rw [replaceAll, replaceAllFrom]
  simp [hasPrefix, Ne.symm hb]

theorem bareName_start (hb : b.toNat < 0x80) (hsolid : isSpace b.toNat = false) (hslash : b ≠ 0x2F) (s : Bytes) :
    bareName (b :: s) <+: b :: s := by
  obtain ⟨t, ht, hts⟩ := trimSpace_solid hb hsolid s
  have hcut : ∀ r ∈ runes "/", r < 0x80 := by decide
  have hleft : trimLeft (b :: t) (runes "/") = b :: t := by
    rw [trimLeft_ascii hcut, List.dropWhile_cons_of_neg]
    have hruns : runes "/" = [0x2F] := by decide
    rw [hruns]
    simp only [List.contains_cons, List.contains_nil, Bool.or_false, beq_iff_eq]
    exact fun h => hslash (UInt8.toNat_inj.mp h)
  rw [bareName, ht, hleft]
  exact (trimRight_start (b :: t) (runes "/")).trans (List.cons_prefix_cons.mpr ⟨rfl, hts⟩)

/-- A text a value that is no text is printed as is no status path. -/
theorem patchKind_printed (hb : b ∈ printedHeads) (t : Bytes) : patchKind (b :: t) ≠ .status := by
  obtain ⟨hascii, hsolid, -, -, hslash, -, -, hr, hs, hq⟩ := printedHeads_solid b hb
  obtain ⟨rest, hrest⟩ := bareName_start hascii hsolid hslash t
  intro hkind
  rw [patchKind] at hkind
  split_ifs at hkind with hstatus
  simp only [isStatusPath, Bool.or_eq_true, decide_eq_true_eq] at hstatus
  rcases hstatus with ((h | h) | h) | h <;> rw [h] at hrest
  · exact hr (List.cons.inj hrest).1.symm
  · exact hs (List.cons.inj hrest).1.symm
  · exact hr (List.cons.inj hrest).1.symm
  · exact hq (List.cons.inj hrest).1.symm

theorem patchKind_response_printed (hb : b ∈ printedHeads) (t : Bytes) :
    patchKind (lit "response/" ++ b :: t) ≠ .status := by
  obtain ⟨-, -, -, -, -, -, -, -, hs, hq⟩ := printedHeads_solid b hb
  obtain ⟨rest, hrest⟩ := bareName_start (b := 0x72) (by decide) (by decide) (by decide)
    (lit "esponse/" ++ b :: t)
  intro hkind
  rw [patchKind] at hkind
  split_ifs at hkind with hstatus
  simp only [isStatusPath, Bool.or_eq_true, decide_eq_true_eq] at hstatus
  have hpath : lit "response/" ++ b :: t = 0x72 :: (lit "esponse/" ++ b :: t) := rfl
  rw [hpath] at hstatus
  rcases hstatus with ((h | h) | h) | h <;> rw [h, ← hpath] at hrest
  · have hsplit : lit "response/" ++ (lit "status" ++ rest) = lit "response/" ++ b :: t := hrest
    exact hs (List.cons.inj (List.append_cancel_left hsplit)).1.symm
  · exact absurd (List.cons.inj hrest).1 (by decide)
  · have hsplit : lit "response/" ++ (lit "quasi_status" ++ rest) = lit "response/" ++ b :: t := hrest
    exact hq (List.cons.inj (List.append_cancel_left hsplit)).1.symm
  · exact absurd (List.cons.inj hrest).1 (by decide)

theorem ends_printed (hb : b ∈ printedHeads) (t : Bytes) : ends (trimSpace (b :: t)) = false := by
  obtain ⟨hascii, hsolid, -, -, -, hf, hc, -⟩ := printedHeads_solid b hb
  obtain ⟨u, hu, -⟩ := trimSpace_solid hascii hsolid t
  have hword : ∀ word : Bytes, (splitRunes word).head?.map (fun g => foldRune g.1) ≠ some (foldRune b.toNat) →
      equalFold (b :: u) word = false := by
    intro word hhead
    rw [equalFold, splitRunes_ascii hascii, decide_eq_false_iff_not]
    intro heq
    refine hhead ?_
    rw [← List.head?_map, ← heq]
    rfl
  have hfinished : (splitRunes (lit "FINISHED")).head?.map (fun g => foldRune g.1) = some 0x66 := by decide
  have hfilter : (splitRunes (lit "CONTENT_FILTER")).head?.map (fun g => foldRune g.1) = some 0x63 := by decide
  rw [hu, ends, hword (lit "FINISHED") (by rw [hfinished]; exact fun h => hf (Option.some.inj h).symm),
    hword (lit "CONTENT_FILTER") (by rw [hfilter]; exact fun h => hc (Option.some.inj h).symm)]
  rfl

section agreement
variable {F : Type} {num : FloatText F}

theorem asString_default {v : Any F} (hv : ∀ s, v ≠ .text s) (hnil : v ≠ .nil) : asString num (some v) =
    if trimSpace (replaceAll (trimSpace (v.sprint num)) [0] []) = lit "<nil>" then []
    else trimSpace (replaceAll (trimSpace (v.sprint num)) [0] []) := by
  cases v with
  | text s => exact absurd rfl (hv s)
  | nil => exact absurd rfl hnil
  | _ => rfl

theorem asString_printed {v : Any F} {b : UInt8} {rest : Bytes} (hb : b ∈ printedHeads)
    (hprint : v.sprint num = b :: rest) (hv : ∀ s, v ≠ .text s) (hnil : v ≠ .nil) :
    ∃ t, asString num (some v) = b :: t := by
  obtain ⟨hascii, hsolid, hzero, hangle, -⟩ := printedHeads_solid b hb
  obtain ⟨t, ht, -⟩ := trimSpace_solid hascii hsolid rest
  obtain ⟨u, hu⟩ := replaceAll_solid hzero t
  obtain ⟨w, hw, -⟩ := trimSpace_solid hascii hsolid u
  refine ⟨w, ?_⟩
  rw [asString_default hv hnil, hprint, ht, hu, hw, if_neg]
  exact fun h => hangle (List.cons.inj h).1

/-- A text that is no status, and no status path alone or in a batch. -/
structure Dull (s : Bytes) : Prop where
  status : ends (trimSpace s) = false
  direct : patchKind s ≠ .status
  batch : ∀ parent ∈ [[], lit "response"], trimSpace s ≠ [] → patchKind (fullPath parent (trimSpace s)) ≠ .status

theorem Dull.printed {b : UInt8} (hb : b ∈ printedHeads) (t : Bytes) : Dull (b :: t) := by
  refine ⟨ends_printed hb t, patchKind_printed hb t, ?_⟩
  intro parent hparent _
  obtain ⟨hascii, hsolid, -⟩ := printedHeads_solid b hb
  obtain ⟨u, hu, -⟩ := trimSpace_solid hascii hsolid t
  rw [hu, fullPath]
  split_ifs with hjoin
  · have hresponse : bareName parent = lit "response" := by
      simp only [List.mem_cons, List.not_mem_nil, or_false] at hparent
      rcases hparent with rfl | rfl
      · exact absurd (by decide) hjoin.1
      · decide
    rw [hresponse]
    exact patchKind_response_printed hb u
  · exact patchKind_printed hb u

/-- What is no text is not taken for a status or for its path. -/
theorem asString_dull {v : Option (Any F)} (hv : ∀ s, v ≠ some (.text s)) : Dull (asString num v) := by
  have hempty : Dull [] := ⟨by decide, by decide, by decide⟩
  have hhead : ∀ {w : Any F} {b : UInt8} {rest : Bytes}, w.sprint num = b :: rest → b ∈ printedHeads →
      (∀ s, w ≠ .text s) → w ≠ .nil → Dull (asString num (some w)) := by
    intro w b rest hprint hb htext hnil
    obtain ⟨t, ht⟩ := asString_printed hb hprint htext hnil
    rw [ht]
    exact Dull.printed hb t
  rcases v with _ | v
  · exact hempty
  · cases v with
    | nil => exact hempty
    | bool b =>
      have hword : asString num (some (.bool b)) = if b then lit "true" else lit "false" := by
        rw [asString_default (fun _ h => by cases h) (fun h => by cases h), Any.sprint]
        cases b <;> decide
      rw [hword]
      cases b <;> exact ⟨by decide, by decide, by decide⟩
    | float f =>
      obtain ⟨b, rest, hprint, hb⟩ := num.head f
      have hmem : b ∈ printedHeads := by
        rcases hb with hb | hb
        · have hdigits : ∀ n : Fin 256, isDigit (UInt8.ofNat n) = true → UInt8.ofNat n ∈ printedHeads := by
            decide +kernel
          have hdigit := hdigits ⟨b.toNat, b.toNat_lt⟩
          rw [UInt8.ofNat_toNat] at hdigit
          exact hdigit hb
        · have hsigns : ∀ b ∈ lit "+-N", b ∈ printedHeads := by decide +kernel
          exact hsigns b hb
      exact hhead hprint hmem (fun _ h => by cases h) (fun h => by cases h)
    | text s => exact absurd rfl (hv s)
    | slice items =>
      exact hhead (b := 0x5B) (by rw [Any.sprint]; rfl) (by decide) (fun _ h => by cases h) (fun h => by cases h)
    | map entries =>
      exact hhead (b := 0x6D) (by rw [Any.sprint]; rfl) (by decide) (fun _ h => by cases h) (fun h => by cases h)
    | other _ =>
      have hother : ∀ written, asString num (some (.other written : Any F)) = [] := fun _ => by
        rw [asString_default (fun _ h => by cases h) (fun h => by cases h), Any.sprint]
        decide
      rw [hother]
      exact hempty

/-! Chunks without a filter mark. -/

mutual
/-- Some text in the value is the mark of the content filter. -/
def hasFilterMark : Any F → Bool
  | .text s => isContentFilter s
  | .slice items => anyFilterMark items
  | .map entries => entriesFilterMark entries
  | _ => false
def anyFilterMark : List (Any F) → Bool
  | [] => false
  | item :: items => hasFilterMark item || anyFilterMark items
def entriesFilterMark : List (Bytes × Any F) → Bool
  | [] => false
  | (_, value) :: entries => hasFilterMark value || entriesFilterMark entries
end

theorem unmarked_item : ∀ {items : List (Any F)} {it : Any F}, anyFilterMark items = false → it ∈ items →
    hasFilterMark it = false
  | item :: items, it, h, hmem => by
    rw [anyFilterMark, Bool.or_eq_false_iff] at h
    rcases List.mem_cons.mp hmem with rfl | hmem
    · exact h.1
    · exact unmarked_item h.2 hmem

theorem unmarked_entry : ∀ {entries : KeyMap (Any F)} {key : Bytes} {v : Any F},
    entriesFilterMark entries = false → entries.get key = some v → hasFilterMark v = false
  | (k, value) :: entries, key, v, h, hget => by
    rw [entriesFilterMark, Bool.or_eq_false_iff] at h
    rw [KeyMap.get_cons] at hget
    split_ifs at hget
    · cases hget
      exact h.1
    · exact unmarked_entry h.2 hget

theorem unmarked_mapAt {m : KeyMap (Any F)} {key : String} (h : entriesFilterMark m = false) :
    entriesFilterMark (mapAt m key) = false := by
  rw [mapAt]
  split
  · next x hx =>
    have hmark := unmarked_entry h hx
    rwa [hasFilterMark] at hmark
  · rw [entriesFilterMark]

/-! What each of the two takes for the end. -/

/-- A text that says the response is finished. -/
def tellsEnd : Option (Any F) → Bool
  | some (.text s) => isFinished s
  | _ => false

def namesStatus : Option (Any F) → Bool
  | some (.text p) => patchKind p = .status
  | _ => false

/-- The path of a patch in a batch names a status, below the path of the batch. -/
def namesStatusBelow (parent : Bytes) : Option (Any F) → Bool
  | some (.text p) => trimSpace p ≠ [] && patchKind (fullPath parent (trimSpace p)) = .status
  | _ => false

def tellsEndBelow (parent : Bytes) : Any F → Bool
  | .map m => namesStatusBelow parent (field m "p") && tellsEnd (field m "v")
  | _ => false

/-- The status of the response object in the value, or in the message. -/
def wrappedStatus (chunk : KeyMap (Any F)) (key : String) : Option (Any F) :=
  field (mapAt (mapAt chunk key) "response") "status"

/-- A status an observer takes for the end, where there is no filter mark. -/
theorem ends_asString {v : Option (Any F)} (h : ∀ w ∈ v, hasFilterMark w = false) :
    ends (trimSpace (asString num v)) = tellsEnd v := by
  by_cases htext : ∃ s, v = some (.text s)
  · obtain ⟨s, rfl⟩ := htext
    have hmark : isContentFilter s = false := by
      have hmark := h _ rfl
      rwa [hasFilterMark] at hmark
    have hfilter : equalFold (trimSpace s) (lit "CONTENT_FILTER") = isContentFilter s := rfl
    rw [asString, ends, tellsEnd, isFinished, hfilter, hmark, Bool.or_false]
  · have hdull : Dull (asString num v) := asString_dull fun s hs => htext ⟨s, hs⟩
    rw [hdull.status]
    rcases v with _ | v
    · rfl
    · cases v with
      | text s => exact absurd ⟨s, rfl⟩ htext
      | _ => rfl

theorem statuses_append (a b : List Signal) : statuses (a ++ b) = statuses a ++ statuses b := List.filterMap_append

theorem any_statusSignal (status : Bytes) : (statuses (statusSignal status)).any ends = ends (trimSpace status) := by
  rw [statusSignal]
  split_ifs with h
  · rw [h]
    decide
  · simp [statuses]

theorem any_autoSignal (v : Option (Any F)) : (statuses (autoSignal v)).any ends = false := by
  rcases v with _ | v
  · rfl
  · cases v with
    | bool b =>
      cases b
      · rfl
      · show [lit "AUTO_CONTINUE"].any ends = false
        decide
    | _ => rfl

theorem any_idSignal (id : Int) : (statuses (idSignal id)).any ends = false := by
  rw [idSignal]
  split_ifs <;> rfl

theorem any_patchSignals (path : Bytes) (v : Option (Any F)) :
    (statuses (patchSignals num path v)).any ends =
      (decide (patchKind path = .status) && ends (trimSpace (asString num v))) := by
  rw [patchSignals]
  cases patchKind path with
  | status => exact (any_statusSignal _).trans (Bool.true_and _).symm
  | autoContinue => exact any_autoSignal v
  | other => rfl

theorem any_responseSignals (m : KeyMap (Any F)) : (statuses (responseSignals num m)).any ends =
    ends (trimSpace (asString num (field m "status"))) := by
  rw [responseSignals, statuses_append, statuses_append, List.any_append, List.any_append, any_idSignal,
    any_statusSignal, any_autoSignal, Bool.false_or, Bool.or_false]

theorem any_batchSignals {parent : Bytes} (hparent : parent ∈ [[], lit "response"]) {it : Any F}
    (h : hasFilterMark it = false) : (statuses (batchSignals num parent it)).any ends = tellsEndBelow parent it := by
  cases it with
  | map m =>
    rw [hasFilterMark] at h
    have hends : ends (trimSpace (asString num (field m "v"))) = tellsEnd (field m "v") :=
      ends_asString fun w hw => unmarked_entry h hw
    simp only [batchSignals, tellsEndBelow]
    by_cases htext : ∃ s, field m "p" = some (.text s)
    · obtain ⟨s, hs⟩ := htext
      rw [hs, asString, namesStatusBelow]
      split_ifs with hblank
      · simp [hblank, statuses]
      · rw [any_patchSignals, hends]
        simp [hblank]
    · have hdull : Dull (asString num (field m "p")) := asString_dull fun s hs => htext ⟨s, hs⟩
      have hnames : namesStatusBelow parent (field m "p") = false := by
        rcases hp : field m "p" with _ | v
        · rfl
        · cases v with
          | text s => exact absurd ⟨s, hp⟩ htext
          | _ => rfl
      rw [hnames, Bool.false_and]
      split_ifs with hblank
      · rfl
      · rw [any_patchSignals, decide_eq_false (hdull.batch parent hparent hblank), Bool.false_and]
  | _ => rfl

/-- The observer: a status patch, alone or in a batch, or the status of a response object. -/
def observerEnds (chunk : KeyMap (Any F)) : Bool :=
  (namesStatus (field chunk "p") && tellsEnd (field chunk "v")) ||
    ((itemsOf (field chunk "v")).any (tellsEndBelow (parentOf chunk)) ||
      (tellsEnd (wrappedStatus chunk "v") || tellsEnd (wrappedStatus chunk "message")))

theorem parentOf_mem (chunk : KeyMap (Any F)) : parentOf chunk ∈ [[], lit "response"] := by
  rw [parentOf]
  split_ifs <;> simp

variable {chunk : KeyMap (Any F)}

theorem observe_finished (s : ContinueState) (h : entriesFilterMark chunk = false) :
    (s.observeChunk num chunk).finished = (s.finished || observerEnds chunk) := by
  have hv : ∀ w ∈ field chunk "v", hasFilterMark w = false := fun w hw => unmarked_entry h hw
  have hdirect : (decide (patchKind (asString num (field chunk "p")) = .status) &&
      ends (trimSpace (asString num (field chunk "v")))) =
      (namesStatus (field chunk "p") && tellsEnd (field chunk "v")) := by
    rw [ends_asString hv]
    by_cases htext : ∃ p, field chunk "p" = some (.text p)
    · obtain ⟨p, hp⟩ := htext
      rw [hp, asString, namesStatus]
    · have hdull : Dull (asString num (field chunk "p")) := asString_dull fun s hs => htext ⟨s, hs⟩
      rw [decide_eq_false hdull.direct]
      rcases hp : field chunk "p" with _ | v
      · rfl
      · cases v with
        | text s => exact absurd ⟨s, hp⟩ htext
        | _ => rfl
  have hbatch : (statuses ((itemsOf (field chunk "v")).flatMap (batchSignals num (parentOf chunk)))).any ends =
      (itemsOf (field chunk "v")).any (tellsEndBelow (parentOf chunk)) := by
    have hitems : ∀ it ∈ itemsOf (field chunk "v"), hasFilterMark it = false := by
      intro it hit
      rcases hfield : field chunk "v" with _ | v
      · rw [hfield] at hit
        cases hit
      · rw [hfield] at hit
        have hmark := hv v hfield
        cases v with
        | slice items =>
          rw [hasFilterMark] at hmark
          exact unmarked_item hmark hit
        | _ => cases hit
    rw [statuses, List.filterMap_flatMap, List.any_flatMap]
    rw [Bool.eq_iff_iff, List.any_eq_true, List.any_eq_true]
    refine exists_congr fun it => and_congr_right fun hit => ?_
    have hone : (statuses (batchSignals num (parentOf chunk) it)).any ends = tellsEndBelow (parentOf chunk) it :=
      any_batchSignals (parentOf_mem chunk) (hitems it hit)
    rw [← hone, statuses]
  have hwrapped : ∀ key, ends (trimSpace (asString num (wrappedStatus chunk key))) =
      tellsEnd (wrappedStatus chunk key) := fun key =>
    ends_asString fun w hw => unmarked_entry (unmarked_mapAt (unmarked_mapAt h)) hw
  rw [observeChunk_eq, foldl_signal, chunkSignals]
  simp only [statuses_append, List.any_append, any_idSignal, any_patchSignals, any_responseSignals, hdirect, hbatch,
    Bool.false_or]
  rw [observerEnds, ← hwrapped "v", ← hwrapped "message"]
  rfl

/-- The text without a path that is the marker. -/
def bareMarker (chunk : KeyMap (Any F)) : Bool := stringAt chunk "p" = [] && stringAt chunk "v" = lit "FINISHED"

/-- The decoder: a status patch, alone or in a batch, or the marker without a path. -/
def decoderEnds (chunk : KeyMap (Any F)) : Bool :=
  !shouldSkipPath (stringAt chunk "p") &&
    ((isStatusPath (stringAt chunk "p") && tellsEnd (field chunk "v")) ||
      (bareMarker chunk || (itemsOf (field chunk "v")).any finishes))

theorem append_none_iff (v : Any F) (kind : FragmentType) (acc : FragmentType × List ContentPart) (path : Bytes) :
    appendChunkValueContent v kind acc path = none ↔
      (v = .text (lit "FINISHED") ∧ (path = [] ∨ path = lit "status")) ∨ (itemsOf (some v)).any finishes = true := by
  cases v with
  | text s =>
    rw [appendChunkValueContent]
    split_ifs with hmarker <;> simp [itemsOf, hmarker]
  | slice items =>
    rw [appendChunkValueContent, Option.map_eq_none_iff, extract_none_iff]
    simp [itemsOf]
  | map m =>
    rw [appendChunkValueContent]
    split_ifs <;> simp [itemsOf]
  | _ => simp [appendChunkValueContent, itemsOf]

theorem collectedResult_finished (thinkingEnabled : Bool)
    (r : FragmentType × Option (FragmentType × List ContentPart)) :
    (collectedResult thinkingEnabled r).finished = true ↔ r.2 = none := by
  rcases r with ⟨newType, _ | acc⟩
  · exact iff_of_true rfl rfl
  · exact iff_of_false Bool.false_ne_true (Option.some_ne_none acc)

theorem parse_finished (chunk : KeyMap (Any F)) (thinkingEnabled : Bool) (type : FragmentType) :
    (parseSSEChunkForContentDetailed chunk thinkingEnabled type).finished = decoderEnds chunk := by
  rw [parseSSEChunkForContentDetailed, decoderEnds, bareMarker]
  cases hv : field chunk "v" with
  | none =>
    have hstring : stringAt chunk "v" = [] := by rw [stringAt, hv]
    have hmarker : ¬ ([] : Bytes) = lit "FINISHED" := by decide
    simp [tellsEnd, itemsOf, hstring, hmarker]
  | some v =>
    by_cases hskip : shouldSkipPath (stringAt chunk "p") = true
    · simp [hskip]
    · have hresult := (collectedResult_finished thinkingEnabled
        (collected chunk (stringAt chunk "p") v thinkingEnabled type)).trans (append_none_iff v _ _ _)
      simp only [hskip, Bool.false_eq_true, if_false, Bool.not_false, Bool.true_and]
      cases v with
      | text s =>
        have hstring : stringAt chunk "v" = s := by rw [stringAt, hv]
        cases hstatus : isStatusPath (stringAt chunk "p") with
        | true =>
          have hpath : stringAt chunk "p" ≠ [] := by
            intro h
            rw [h] at hstatus
            exact absurd hstatus (by decide)
          simp [statusText, hstatus, tellsEnd, itemsOf, hpath]
        | false =>
          have hpath : stringAt chunk "p" ≠ lit "status" := by
            intro h
            rw [h] at hstatus
            exact absurd hstatus (by decide)
          simp only [statusText, hstatus, Bool.false_eq_true, if_false]
          rw [Bool.eq_iff_iff, hresult, hstring]
          simp [itemsOf, hpath, and_comm]
      | _ =>
        have hstring : stringAt chunk "v" = [] := by rw [stringAt, hv]
        have hmarker : ¬ ([] : Bytes) = lit "FINISHED" := by decide
        simp only [statusText]
        rw [Bool.eq_iff_iff, hresult, hstring]
        simp [tellsEnd, hmarker]

/-! Agreement. -/

/-- Where the two agree: the marker without a path comes with a finished message, a status patch that
    finishes has its path written out and is not below a skipped one, no response object in the value is
    finished, and a finished message comes with an end the decoder sees: a status patch, alone or in a
    batch, or the marker. -/
structure Agrees (chunk : KeyMap (Any F)) : Prop where
  bare : bareMarker chunk = true → tellsEnd (wrappedStatus chunk "message") = true
  direct : namesStatus (field chunk "p") = true → tellsEnd (field chunk "v") = true →
    shouldSkipPath (stringAt chunk "p") = false ∧ isStatusPath (stringAt chunk "p") = true
  batch : (itemsOf (field chunk "v")).any (tellsEndBelow (parentOf chunk)) = true →
    shouldSkipPath (stringAt chunk "p") = false ∧ (itemsOf (field chunk "v")).any finishes = true
  wrapped : tellsEnd (wrappedStatus chunk "v") = false
  message : tellsEnd (wrappedStatus chunk "message") = true → shouldSkipPath (stringAt chunk "p") = false ∧
    ((isStatusPath (stringAt chunk "p") = true ∧ tellsEnd (field chunk "v") = true) ∨ bareMarker chunk = true ∨
      (itemsOf (field chunk "v")).any finishes = true)

theorem text_of_stringAt {m : KeyMap (Any F)} {key : String} (h : stringAt m key ≠ []) :
    field m key = some (.text (stringAt m key)) := by
  rw [stringAt] at *
  split
  · next s hs => rw [hs]
  · next hs =>
    refine absurd ?_ h
    split
    · next s hs' => exact absurd hs' (hs s)
    · rfl

def statusPaths : List Bytes := [lit "response/status", lit "status", lit "response/quasi_status", lit "quasi_status"]

theorem isStatusPath_iff {path : Bytes} : isStatusPath path = true ↔ path ∈ statusPaths := by
  simp [isStatusPath, statusPaths, or_assoc]

theorem statusPaths_kind : ∀ path ∈ statusPaths, path ≠ [] ∧ trimSpace path ≠ [] ∧ patchKind path = .status := by
  decide +kernel

theorem statusPaths_below : ∀ path ∈ statusPaths, ∀ parent ∈ [[], lit "response"],
    patchKind (fullPath parent (trimSpace path)) = .status := by
  decide +kernel

/-- A status path that is written out is one for the observer as well. -/
theorem namesStatus_of_isStatusPath {m : KeyMap (Any F)} (h : isStatusPath (stringAt m "p") = true) :
    namesStatus (field m "p") = true ∧
      ∀ parent ∈ [[], lit "response"], namesStatusBelow parent (field m "p") = true := by
  have hmem : stringAt m "p" ∈ statusPaths := isStatusPath_iff.mp h
  obtain ⟨hne, hblank, hdirect⟩ := statusPaths_kind _ hmem
  rw [text_of_stringAt hne, namesStatus, hdirect]
  refine ⟨rfl, fun parent hparent => ?_⟩
  rw [namesStatusBelow, statusPaths_below _ hmem parent hparent, decide_eq_true hblank]
  rfl

theorem tellsEndBelow_of_finishes {it : Any F} (h : finishes it = true) :
    tellsEndBelow (parentOf chunk) it = true := by
  cases it with
  | map m =>
    rw [finishes] at h
    split at h
    · next s hs =>
      rw [Bool.and_eq_true] at h
      rw [tellsEndBelow, (namesStatus_of_isStatusPath h.1).2 _ (parentOf_mem chunk), hs, tellsEnd, h.2]
      rfl
    · cases h
  | _ => cases h

/-- Where the value is a text, there is neither a batch nor an object. -/
theorem value_text (h : tellsEnd (field chunk "v") = true ∨ stringAt chunk "v" ≠ []) :
    itemsOf (field chunk "v") = [] ∧ wrappedStatus chunk "v" = none := by
  rw [stringAt] at h
  rw [wrappedStatus, mapAt.eq_def chunk]
  rcases hv : field chunk "v" with _ | v
  · exact ⟨rfl, rfl⟩
  · rw [hv] at h
    cases v with
    | text s => exact ⟨rfl, rfl⟩
    | _ => simp [tellsEnd] at h

/-- Where it is an object, there is no batch. -/
theorem value_object (h : tellsEnd (wrappedStatus chunk "v") = true) : itemsOf (field chunk "v") = [] := by
  rw [wrappedStatus, mapAt.eq_def chunk] at h
  rcases hv : field chunk "v" with _ | v
  · rfl
  · rw [hv] at h
    cases v with
    | slice items => cases h
    | _ => rfl

/-- Without a path there is no status. -/
theorem namesStatus_bare (h : stringAt chunk "p" = []) : namesStatus (field chunk "p") = false := by
  rw [stringAt] at h
  rcases hp : field chunk "p" with _ | v
  · rfl
  · rw [hp] at h
    cases v with
    | text s =>
      have hs : s = [] := h
      rw [hs, namesStatus]
      decide
    | _ => rfl

theorem bareMarker_value (h : bareMarker chunk = true) : stringAt chunk "p" = [] ∧ stringAt chunk "v" ≠ [] := by
  rw [bareMarker, Bool.and_eq_true, decide_eq_true_eq, decide_eq_true_eq] at h
  refine ⟨h.1, ?_⟩
  rw [h.2]
  decide

theorem observerEnds_iff : observerEnds chunk = true ↔
    (namesStatus (field chunk "p") = true ∧ tellsEnd (field chunk "v") = true) ∨
    (itemsOf (field chunk "v")).any (tellsEndBelow (parentOf chunk)) = true ∨
    tellsEnd (wrappedStatus chunk "v") = true ∨ tellsEnd (wrappedStatus chunk "message") = true := by
  rw [observerEnds, Bool.or_eq_true, Bool.or_eq_true, Bool.or_eq_true, Bool.and_eq_true]

theorem decoderEnds_iff : decoderEnds chunk = true ↔
    shouldSkipPath (stringAt chunk "p") = false ∧
    ((isStatusPath (stringAt chunk "p") = true ∧ tellsEnd (field chunk "v") = true) ∨ bareMarker chunk = true ∨
      (itemsOf (field chunk "v")).any finishes = true) := by
  rw [decoderEnds, Bool.and_eq_true, Bool.or_eq_true, Bool.or_eq_true, Bool.and_eq_true, Bool.not_eq_true']

theorem Agrees.of_iff (h : observerEnds chunk = true ↔ decoderEnds chunk = true) : Agrees chunk where
  bare hbare := by
    obtain ⟨hpath, hvalue⟩ := bareMarker_value hbare
    have hskip : shouldSkipPath [] = false := by decide
    have hdecoder := decoderEnds_iff.mpr ⟨hpath ▸ hskip, Or.inr (Or.inl hbare)⟩
    obtain ⟨hitems, hwrapped⟩ := value_text (Or.inr hvalue)
    rcases observerEnds_iff.mp (h.mpr hdecoder) with hdirect | hbatch | hobject | hmessage
    · exact absurd hdirect.1 (by rw [namesStatus_bare hpath]; exact Bool.false_ne_true)
    · rw [hitems] at hbatch
      cases hbatch
    · rw [hwrapped] at hobject
      cases hobject
    · exact hmessage
  direct hpath hvalue := by
    have hdecoder := h.mp (observerEnds_iff.mpr (Or.inl ⟨hpath, hvalue⟩))
    obtain ⟨hskip, hstatus | hbare | hbatch⟩ := decoderEnds_iff.mp hdecoder
    · exact ⟨hskip, hstatus.1⟩
    · rw [namesStatus_bare (bareMarker_value hbare).1] at hpath
      cases hpath
    · rw [(value_text (Or.inl hvalue)).1] at hbatch
      cases hbatch
  batch hbatch := by
    have hdecoder := h.mp (observerEnds_iff.mpr (Or.inr (Or.inl hbatch)))
    obtain ⟨hskip, hstatus | hbare | hfinishes⟩ := decoderEnds_iff.mp hdecoder
    · rw [(value_text (Or.inl hstatus.2)).1] at hbatch
      cases hbatch
    · rw [(value_text (Or.inr (bareMarker_value hbare).2)).1] at hbatch
      cases hbatch
    · exact ⟨hskip, hfinishes⟩
  wrapped := by
    by_contra hwrapped
    have hobject := Bool.eq_true_of_not_eq_false hwrapped
    have hdecoder := h.mp (observerEnds_iff.mpr (Or.inr (Or.inr (Or.inl hobject))))
    have hnone : wrappedStatus chunk "v" ≠ none := by
      intro hnone
      rw [hnone] at hobject
      cases hobject
    obtain ⟨-, hstatus | hbare | hfinishes⟩ := decoderEnds_iff.mp hdecoder
    · exact hnone (value_text (Or.inl hstatus.2)).2
    · exact hnone (value_text (Or.inr (bareMarker_value hbare).2)).2
    · rw [value_object hobject] at hfinishes
      cases hfinishes
  message hmessage := decoderEnds_iff.mp (h.mp (observerEnds_iff.mpr (Or.inr (Or.inr (Or.inr hmessage)))))

theorem Agrees.iff (h : Agrees chunk) : observerEnds chunk = true ↔ decoderEnds chunk = true := by
  constructor
  · intro hobserver
    rcases observerEnds_iff.mp hobserver with ⟨hpath, hvalue⟩ | hbatch | hobject | hmessage
    · obtain ⟨hskip, hstatus⟩ := h.direct hpath hvalue
      exact decoderEnds_iff.mpr ⟨hskip, Or.inl ⟨hstatus, hvalue⟩⟩
    · obtain ⟨hskip, hfinishes⟩ := h.batch hbatch
      exact decoderEnds_iff.mpr ⟨hskip, Or.inr (Or.inr hfinishes)⟩
    · rw [h.wrapped] at hobject
      cases hobject
    · exact decoderEnds_iff.mpr (h.message hmessage)
  · intro hdecoder
    obtain ⟨-, hstatus | hbare | hfinishes⟩ := decoderEnds_iff.mp hdecoder
    · exact observerEnds_iff.mpr (Or.inl ⟨(namesStatus_of_isStatusPath hstatus.1).1, hstatus.2⟩)
    · exact observerEnds_iff.mpr (Or.inr (Or.inr (Or.inr (h.bare hbare))))
    · obtain ⟨it, hit, hfin⟩ := List.any_eq_true.mp hfinishes
      refine observerEnds_iff.mpr (Or.inr (Or.inl ?_))
      exact List.any_eq_true.mpr ⟨it, hit, tellsEndBelow_of_finishes hfin⟩

/-- For a chunk without a filter mark the auto-continue layer marks the round finished exactly when the
    decoder reports it finished, if and only if the chunk is of a kind on which they agree. -/
theorem observers_agree_iff (num : FloatText F) (s : ContinueState) (hs : s.finished = false)
    (chunk : KeyMap (Any F)) (hfilter : hasFilterMark (.map chunk) = false) (thinkingEnabled : Bool)
    (type : FragmentType) :
    ((s.observeChunk num chunk).finished = true ↔
      (parseSSEChunkForContentDetailed chunk thinkingEnabled type).finished = true) ↔ Agrees chunk := by
  rw [hasFilterMark] at hfilter
  rw [observe_finished s hfilter, hs, Bool.false_or, parse_finished]
  exact ⟨Agrees.of_iff, Agrees.iff⟩

/-- A status patch. -/
def statusChunk (path status : String) : KeyMap (Any Int) :=
  [(lit "p", .text (lit path)), (lit "v", .text (lit status))]

/-- The whole response in one object. -/
def wrappedChunk (status : String) : KeyMap (Any Int) :=
  [(lit "v", .map [(lit "response", .map [(lit "status", .text (lit status))])])]

theorem observers_agree_on_status : Agrees (statusChunk "response/status" "FINISHED") := by
  refine (observers_agree_iff wholeText { sessionID := [] } rfl (statusChunk "response/status" "FINISHED")
    (by decide +kernel) true .text).mp ?_
  decide +kernel

theorem observers_disagree_on_object :
    hasFilterMark (.map (wrappedChunk "FINISHED")) = false ∧
    (ContinueState.observeChunk wholeText { sessionID := [] } (wrappedChunk "FINISHED")).finished = true ∧
    (parseSSEChunkForContentDetailed (wrappedChunk "FINISHED") true .text).finished = false := by
  decide +kernel

end agreement

end DeepSeekWebToApi.Client
