import DeepSeekWebToApi.Lib.AsciiSearch
import DeepSeekWebToApi.Sse.Line

/- The cut before a leaked filter mark.

   The place of the mark is looked up in the upper-case text and applied to the text itself.
   Upper case works rune by rune and may change how many bytes a rune takes, so the cut is at
   the mark exactly where the text in front of it keeps its length, or becomes shorter by no
   more than the blanks that are trimmed anyway (`cuts_at_mark_iff`). -/
namespace DeepSeekWebToApi.Sse
open GoStrings

/-- `CONTENT_FILTER`. -/
def filterMark : List Nat := runes "CONTENT_FILTER"

/-- The text in front of the first place where the runes spell the mark in any case. -/
def textBeforeMark (text : Bytes) : Option Bytes :=
  (beforeWord (fun g => upperRune g.1) filterMark (splitRunes text)).map joinRunes

example : textBeforeMark (lit "ok \nContent_Filter: x") = some (lit "ok \n") := by decide +kernel

/-- What is to be left of a text, and whether something was cut off. -/
def cleanedText (text : Bytes) : Bytes × Bool :=
  (textBeforeMark text).elim (text, false) (fun before => (trimRight before (runes " \t\r"), true))

/-- A byte that is trimmed. -/
def trimmed (b : UInt8) : Bool := (runes " \t\r").contains b.toNat

/-- The text before the mark keeps its length in upper case, up to blanks at its end. -/
def CutFits (text : Bytes) : Prop :=
  ∀ before, textBeforeMark text = some before →
    (toUpper before).length ≤ before.length ∧ ∀ b ∈ before.drop (toUpper before).length, trimmed b = true

/-! Trimming at the end. -/

theorem rdropWhile_append_eq_iff {α : Type} {p : α → Bool} {x d : List α} :
    (x ++ d).rdropWhile p = x.rdropWhile p ↔ ∀ b ∈ d, p b = true := by
  have happend : (x ++ d).rdropWhile p = if (d.reverse.dropWhile p).isEmpty then x.rdropWhile p else x ++ d.rdropWhile p := by
    rw [List.rdropWhile, List.reverse_append, List.dropWhile_append]
    split_ifs
    · rfl
    · rw [List.reverse_append, List.reverse_reverse]
      rfl
  have hempty : (d.reverse.dropWhile p).isEmpty = true ↔ ∀ b ∈ d, p b = true := by
    rw [List.isEmpty_iff, List.dropWhile_eq_nil_iff]
    simp only [List.mem_reverse]
  rw [happend]
  constructor
  · intro h
    by_contra hno
    rw [if_neg fun hall => hno (hempty.mp hall)] at h
    -- what is left of `d` makes the text longer than `x`
    have hne : d.rdropWhile p ≠ [] := by
      intro hnil
      refine hno (hempty.mp (List.isEmpty_iff.mpr ?_))
      exact List.reverse_eq_nil_iff.mp hnil
    have hlength := congrArg List.length h
    have hle := (List.rdropWhile_prefix p x).length_le
    have hpos := List.length_pos_of_ne_nil hne
    rw [List.length_append] at hlength
    omega
  · intro h
    rw [if_pos (hempty.mpr h)]

theorem trimRight_blanks (s : Bytes) : trimRight s (runes " \t\r") = s.rdropWhile trimmed :=
  trimRight_ascii (by decide) s

/-! The mark. -/

theorem beforeWord_eq_some {α : Type} {rune : α → Nat} {w : List Nat} : ∀ {l before : List α},
    beforeWord rune w l = some before → ∃ a after, l = before ++ a :: after ∧ w.isPrefixOf ((a :: after).map rune) = true
  | [], _, h => by cases h
  | a :: l, before, h => by
    rw [beforeWord] at h
    split_ifs at h with hp
    · cases h
      exact ⟨a, l, rfl, hp⟩
    · obtain ⟨rest, hrest, rfl⟩ := Option.map_eq_some_iff.mp h
      obtain ⟨b, after, rfl, hb⟩ := beforeWord_eq_some hrest
      exact ⟨b, after, rfl, hb⟩

theorem index_mark (text : Bytes) : index (toUpper text) (lit "CONTENT_FILTER") =
    (beforeWord (fun g => upperRune g.1) filterMark (splitRunes text)).map (fun before => (toUpper (joinRunes before)).length) := by
  have hmark : lit "CONTENT_FILTER" = encode filterMark := by decide
  have hupper : toUpper text = encode ((splitRunes text).map (fun g => upperRune g.1)) := by
    rw [toUpper_runes, encode, List.flatMap_map]
  rw [hmark, hupper, index_word (fun g : Nat × Bytes => upperRune g.1) (by decide) (by decide)]
  cases hbefore : beforeWord (fun g : Nat × Bytes => upperRune g.1) filterMark (splitRunes text) with
  | none => rfl
  | some before =>
    obtain ⟨a, after, hsplit, -⟩ := beforeWord_eq_some hbefore
    rw [Option.map_some, Option.map_some, toUpper_runes, splitRunes_prefix before (a :: after) text hsplit, encode,
      List.flatMap_map]

/-- The mark begins with a byte that is not trimmed. -/
theorem exists_mark {text before : Bytes} (h : textBeforeMark text = some before) :
    ∃ b rest, text = before ++ b :: rest ∧ trimmed b = false := by
  obtain ⟨gs, hgs, rfl⟩ := Option.map_eq_some_iff.mp h
  obtain ⟨g, after, hsplit, hmark⟩ := beforeWord_eq_some hgs
  have htext : text = joinRunes gs ++ (g.2 ++ joinRunes after) := by
    rw [← joinRunes_splitRunes text, hsplit, joinRunes, List.flatMap_append, List.flatMap_cons]
    rfl
  have hg : g ∈ splitRunes text := hsplit ▸ List.mem_append_right _ List.mem_cons_self
  obtain ⟨b, v, hb⟩ := List.exists_cons_of_ne_nil (splitRunesAux_group _ _ g hg).1
  refine ⟨b, v ++ joinRunes after, ?_, Bool.eq_false_iff.mpr fun htrimmed => ?_⟩
  · rw [htext, hb, List.cons_append]
  · have hblank : b.toNat = 0x20 ∨ b.toNat = 0x09 ∨ b.toNat = 0x0D := by
      have hmem := List.contains_iff_mem.mp htrimmed
      rwa [show runes " \t\r" = [0x20, 0x09, 0x0D] by decide, List.mem_cons, List.mem_cons, List.mem_singleton] at hmem
    have hascii : b.toNat < 0x80 := by omega
    -- a byte of ASCII at the front of a rune is the rune
    have hrunes := splitRunes_suffix gs text hsplit
    have hfront : joinRunes (g :: after) = b :: (v ++ joinRunes after) := by
      rw [joinRunes, List.flatMap_cons, hb, List.cons_append]
      rfl
    rw [hfront, splitRunes_ascii hascii] at hrunes
    have hrune : g.1 = b.toNat := (congrArg Prod.fst (List.cons.inj hrunes).1).symm
    rw [List.map_cons, hrune] at hmark
    have hhead : (0x43 == upperRune b.toNat) = true := (Bool.and_eq_true_iff.mp hmark).1
    rcases hblank with heq | heq | heq <;> rw [heq] at hhead <;> revert hhead <;> decide

/-! The cut. -/

theorem strip_eq {text before : Bytes} (h : textBeforeMark text = some before) : stripLeakedContentFilterSuffix text =
    if (toUpper before).length ≤ text.length then some ((text.take (toUpper before).length).rdropWhile trimmed, true)
    else none := by
  obtain ⟨gs, hgs, rfl⟩ := Option.map_eq_some_iff.mp h
  rw [stripLeakedContentFilterSuffix, index_mark, hgs, Option.map_some]
  dsimp only
  rw [slice]
  simp only [Nat.zero_le, true_and, List.drop_zero, Nat.sub_zero]
  split_ifs
  · rw [Option.map_some, trimRight_blanks]
  · rfl

theorem strip_unmarked {text : Bytes} (h : textBeforeMark text = none) :
    stripLeakedContentFilterSuffix text = some (text, false) := by
  rw [stripLeakedContentFilterSuffix, index_mark, Option.map_eq_none_iff.mp h]
  rfl

/-- A cut of `n` bytes is the cut at the mark, once trimmed. -/
theorem take_rdropWhile_iff {before rest : Bytes} {b : UInt8} (hb : trimmed b = false) (n : Nat) :
    ((before ++ b :: rest).take n).rdropWhile trimmed = before.rdropWhile trimmed ↔
      n ≤ before.length ∧ ∀ c ∈ before.drop n, trimmed c = true := by
  by_cases hle : n ≤ before.length
  · rw [List.take_append_of_le_length hle, and_iff_right hle, ← rdropWhile_append_eq_iff (x := before.take n),
      List.take_append_drop]
    exact eq_comm
  · have hsplit : (before ++ b :: rest).take n = before ++ b :: rest.take (n - before.length - 1) := by
      rw [List.take_append, List.take_of_length_le (by omega)]
      refine congrArg (before ++ ·) ?_
      obtain ⟨k, hk⟩ := Nat.exists_eq_add_of_lt (Nat.not_le.mp hle)
      rw [hk, show before.length + k + 1 - before.length = k + 1 by omega, List.take_succ_cons]
      rfl
    rw [hsplit, rdropWhile_append_eq_iff]
    refine iff_of_false (fun hall => ?_) fun hfits => hle hfits.1
    rw [hall b List.mem_cons_self] at hb
    cases hb

theorem cut_iff (text : Bytes) : stripLeakedContentFilterSuffix text = some (cleanedText text) ↔ CutFits text := by
  cases hbefore : textBeforeMark text with
  | none =>
    refine iff_of_true ?_ fun before hsome => ?_
    · rw [strip_unmarked hbefore, cleanedText, hbefore]
      rfl
    · rw [hbefore] at hsome
      cases hsome
  | some before =>
    obtain ⟨b, rest, htext, hb⟩ := exists_mark hbefore
    have hfits : CutFits text ↔ (toUpper before).length ≤ before.length ∧
        ∀ c ∈ before.drop (toUpper before).length, trimmed c = true := by
      refine ⟨fun h => h before hbefore, fun h before' hbefore' => ?_⟩
      rw [hbefore] at hbefore'
      cases hbefore'
      exact h
    have hclean : cleanedText text = (before.rdropWhile trimmed, true) := by
      rw [cleanedText, hbefore, Option.elim_some, trimRight_blanks]
    rw [hfits, hclean, strip_eq hbefore]
    by_cases hlength : (toUpper before).length ≤ text.length
    · rw [if_pos hlength, Option.some.injEq, Prod.mk.injEq, and_iff_left rfl, htext]
      exact take_rdropWhile_iff hb _
    · rw [if_neg hlength]
      refine iff_of_false (fun h => Option.some_ne_none _ h.symm) fun h => hlength (h.1.trans ?_)
      rw [htext, List.length_append]
      omega

/-! Parts. -/

theorem strip_begins {text cleaned : Bytes} {stripped : Bool}
    (h : stripLeakedContentFilterSuffix text = some (cleaned, stripped)) : cleaned <+: text := by
  rw [stripLeakedContentFilterSuffix] at h
  split at h
  · cases h
    exact List.prefix_refl _
  · obtain ⟨before, hbefore, heq⟩ := Option.map_eq_some_iff.mp h
    cases heq
    rw [slice] at hbefore
    split_ifs at hbefore
    cases hbefore
    rw [List.drop_zero]
    exact (trimRight_start _ _).trans (List.take_prefix _ _)

/-- What is left of parts: some of them, each cut to a beginning of itself. -/
def Shortened (parts out : List ContentPart) : Prop :=
  ∃ kept, kept.Sublist parts ∧ List.Forall₂ (fun p q => q.type = p.type ∧ q.text <+: p.text) kept out

theorem filter_shortens : ∀ {parts out : List ContentPart}, filterLeakedContentFilterParts parts = some out →
    Shortened parts out
  | [], out, h => by
    cases h
    exact ⟨[], List.Sublist.refl _, .nil⟩
  | p :: parts, out, h => by
    rw [filterLeakedContentFilterParts] at h
    obtain ⟨⟨cleaned, stripped⟩, hstrip, h⟩ := Option.bind_eq_some_iff.mp h
    obtain ⟨rest, hrest, rfl⟩ := Option.map_eq_some_iff.mp h
    obtain ⟨kept, hsub, hkept⟩ := filter_shortens hrest
    split_ifs
    · exact ⟨kept, hsub.cons p, hkept⟩
    · exact ⟨p :: kept, hsub.cons_cons p, .cons ⟨rfl, strip_begins hstrip⟩ hkept⟩
    · exact ⟨p :: kept, hsub.cons_cons p, .cons ⟨rfl, List.prefix_refl _⟩ hkept⟩

/-- The text is cut at the mark exactly where the text in front of it keeps its length, and what
    is left of parts are beginnings of them. -/
theorem cuts_at_mark_iff (text : Bytes) (parts : List ContentPart) :
    (stripLeakedContentFilterSuffix text = some (cleanedText text) ↔ CutFits text) ∧
      ∀ out ∈ filterLeakedContentFilterParts parts, Shortened parts out :=
  ⟨cut_iff text, fun _ h => filter_shortens h⟩

/-- A rune of two bytes whose capital has three, once and fifteen times in front of the mark. -/
theorem cut_behind_mark :
    cleanedText (lit "ɐcontent_filter") = (lit "ɐ", true) ∧
    stripLeakedContentFilterSuffix (lit "ɐcontent_filter") = some (lit "ɐc", true) ∧
    stripLeakedContentFilterSuffix (lit "ɐɐɐɐɐɐɐɐɐɐɐɐɐɐɐcontent_filter") = none := by
  decide +kernel

end DeepSeekWebToApi.Sse
