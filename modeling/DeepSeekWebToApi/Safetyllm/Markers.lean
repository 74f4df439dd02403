import DeepSeekWebToApi.Lib.Framed
import DeepSeekWebToApi.Safetyllm.Prompt

/- Which protocol markers `stripDeepSeekProtocolMarkers` leaves.

   The paired segments go first, then the seven markers, one pass for each. A marker stands
   in angle brackets with none inside, so a pass takes out the copies of its own marker and
   touches no other; but it joins what stood on both sides of a copy. A marker that was torn
   apart by a copy of the same or of a later marker comes together when its own pass is over,
   and stays (`protocol_markers_gone_iff`). -/
namespace DeepSeekWebToApi.Safetyllm
open GoStrings

/-- All the markers, of the pairs and on their own. -/
def protocolMarkers : List Bytes :=
  deepseekProtocolBlockPairs.flatMap (fun pair => [pair.1, pair.2]) ++ deepseekProtocolStandaloneMarkers

/-- Delete the markers one after the other. -/
def deleteMarkers (markers : List Bytes) (text : Bytes) : Bytes :=
  markers.foldl (fun text marker => replaceAll text marker []) text

/-- In the text before each pass no marker that is deleted by then, the pass's own among them,
    is torn apart by copies of the one the pass deletes. -/
def Untorn : List Bytes → List Bytes → Bytes → Prop
  | _, [], _ => True
  | gone, marker :: markers, text =>
    (∀ word ∈ gone ++ [marker], ¬ Torn marker word text) ∧
      Untorn (gone ++ [marker]) markers (replaceAll text marker [])

/-- A marker in angle brackets. -/
abbrev IsMarker (marker : Bytes) : Prop := Framed 0x3C 0x3E marker

theorem deleteMarkers_gone_iff : ∀ {markers gone : List Bytes} {t : Bytes},
    (∀ m ∈ gone ++ markers, IsMarker m) → (gone ++ markers).Nodup →
    ((∀ word ∈ gone ++ markers, contains (deleteMarkers markers t) word = false) ↔
      (∀ word ∈ gone, contains t word = false) ∧ Untorn gone markers t)
  | [], gone, t, _, _ => by
    rw [List.append_nil, Untorn, and_true]
    rfl
  | marker :: markers, gone, t, hmarkers, hnodup => by
    have hassoc : gone ++ marker :: markers = (gone ++ [marker]) ++ markers := by simp
    have hmarker : IsMarker marker := hmarkers marker (by simp)
    -- a pass leaves a word that stood there before, or joins one
    have hpass : ∀ word ∈ gone ++ [marker],
        (contains (replaceAll t marker []) word = false ↔
          (marker ≠ word → contains t word = false) ∧ ¬ Torn marker word t) := by
      intro word hword
      have hframed : IsMarker word := hmarkers word (by rw [hassoc]; exact List.mem_append_left markers hword)
      rw [Bool.eq_false_iff, Ne, contains_delete_iff hmarker hframed, not_or, not_and, Bool.eq_false_iff]
    have hgone : ∀ word ∈ gone, marker ≠ word := by
      intro word hword heq
      rw [List.nodup_append] at hnodup
      exact hnodup.2.2 word hword marker List.mem_cons_self heq.symm
    rw [hassoc] at hmarkers hnodup ⊢
    refine (deleteMarkers_gone_iff hmarkers hnodup).trans ?_
    rw [Untorn, ← and_assoc]
    refine and_congr ?_ Iff.rfl
    constructor
    · intro h
      refine ⟨fun word hword => ?_, fun word hword => ((hpass word hword).mp (h word hword)).2⟩
      have hmem := List.mem_append_left [marker] hword
      exact ((hpass word hmem).mp (h word hmem)).1 (hgone word hword)
    · rintro ⟨hfree, htorn⟩ word hword
      refine (hpass word hword).mpr ⟨fun hne => ?_, htorn word hword⟩
      rcases List.mem_append.mp hword with hword | hword
      · exact hfree word hword
      · exact absurd (List.mem_singleton.mp hword).symm hne

/-! The markers of the protocol. -/

theorem standalone_framed : ∀ marker ∈ deepseekProtocolStandaloneMarkers, IsMarker marker := by
  have hparts : ∀ marker ∈ deepseekProtocolStandaloneMarkers,
      marker = 0x3C :: (marker.tail.dropLast ++ [0x3E]) ∧ 0x3C ∉ marker.tail.dropLast ∧
        0x3E ∉ marker.tail.dropLast := by decide +kernel
  intro marker hmarker
  exact ⟨by decide, marker.tail.dropLast, hparts marker hmarker⟩

theorem standalone_nodup : deepseekProtocolStandaloneMarkers.Nodup := by decide +kernel

theorem protocolMarkers_standalone : ∀ marker,
    marker ∈ protocolMarkers ↔ marker ∈ deepseekProtocolStandaloneMarkers := by
  have hpairs : ∀ marker ∈ deepseekProtocolBlockPairs.flatMap (fun pair => [pair.1, pair.2]),
      marker ∈ deepseekProtocolStandaloneMarkers := by decide +kernel
  intro marker
  rw [protocolMarkers, List.mem_append]
  exact ⟨fun h => h.elim (hpairs marker) id, Or.inr⟩

theorem standalone_solid : ∀ marker ∈ deepseekProtocolStandaloneMarkers, Solid marker := by decide +kernel

theorem stripDeepSeekProtocolMarkers_eq {text peeled : Bytes}
    (h : deepseekProtocolBlockPairs.foldlM stripPair text = some peeled) :
    stripDeepSeekProtocolMarkers text =
      some (trimSpace (deleteMarkers deepseekProtocolStandaloneMarkers peeled)) := by
  rw [stripDeepSeekProtocolMarkers, h]
  rfl

/-- No marker is left, and a second run changes nothing, exactly where no pass over the text
    without its paired segments joins a marker whose own pass is over. -/
theorem protocol_markers_gone_iff (text : Bytes) : ∃ peeled out,
    deepseekProtocolBlockPairs.foldlM stripPair text = some peeled ∧
    stripDeepSeekProtocolMarkers text = some out ∧
    (((∀ marker ∈ protocolMarkers, contains out marker = false) ∧
        stripDeepSeekProtocolMarkers out = some out) ↔
      Untorn [] deepseekProtocolStandaloneMarkers peeled) := by
  obtain ⟨peeled, hpeeled⟩ := Option.isSome_iff_exists.mp (stripPairs_isSome openers_ne_nil text)
  refine ⟨peeled, _, hpeeled, stripDeepSeekProtocolMarkers_eq hpeeled, ?_⟩
  have hframed : ∀ marker ∈ [] ++ deepseekProtocolStandaloneMarkers, IsMarker marker := standalone_framed
  have hgone := deleteMarkers_gone_iff (t := peeled) hframed standalone_nodup
  simp only [List.nil_append, List.not_mem_nil, false_implies, implies_true, true_and] at hgone
  simp only [protocolMarkers_standalone]
  rw [← hgone]
  constructor
  · rintro ⟨hfree, -⟩ marker hmarker
    rw [← contains_trimSpace (standalone_solid marker hmarker)]
    exact hfree marker hmarker
  · intro hfree
    have hout : ∀ marker ∈ deepseekProtocolStandaloneMarkers,
        contains (trimSpace (deleteMarkers deepseekProtocolStandaloneMarkers peeled)) marker = false := by
      intro marker hmarker
      rw [contains_trimSpace (standalone_solid marker hmarker)]
      exact hfree marker hmarker
    exact ⟨hout, by rw [stripDeepSeekProtocolMarkers_plain hout, trimSpace_idem]⟩

/-- A marker with a copy of itself inside comes out whole. -/
theorem nested_marker_survives :
    stripDeepSeekProtocolMarkers (lit "<|Us<|User|>er|>") = some (lit "<|User|>") ∧
      stripDeepSeekProtocolMarkers (lit "<|User|>") = some [] := by
  decide +kernel

end DeepSeekWebToApi.Safetyllm
