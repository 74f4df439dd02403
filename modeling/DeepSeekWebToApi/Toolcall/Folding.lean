import DeepSeekWebToApi.Toolcall.Scan
import DeepSeekWebToApi.Toolcall.Markup

/- The scanners and their lower-cased copy.

   A scanner walks over the offsets of a text and looks at `strings.ToLower` of it at the
   same offsets. A rune may change its length when it is lower-cased; the copy is then
   out of step, and a slice of it may panic, a name may be found where the text has
   none, and a CDATA section may be cut behind the end of the text. `scannersSafe_iff`
   says for which texts none of this happens. `InStep` names the three ways: the copy is
   shorter than the offsets the scan comes to, it shows a name where the text has
   another one, it shows a CDATA opener too far right. -/
namespace DeepSeekWebToApi.Toolcall
open GoStrings GoLoop

/-- The tag lies in the text, and its name stands there up to letter case. -/
structure ToolMarkupTag.WellPlaced (text : Bytes) (tag : ToolMarkupTag) : Prop where
  start_le : tag.start ≤ tag.nameStart
  name_lt : tag.nameStart < tag.nameEnd
  nameEnd_le : tag.nameEnd ≤ tag.stop + 1
  stop_lt : tag.stop + 1 ≤ text.length
  name : hasPrefix (toLower (text.drop tag.nameStart)) tag.name = true

/-- No scanner panics on the text, and the tags it finds are well placed. A search from a
    negative offset starts at the first byte. -/
structure ScannersSafe (text : Bytes) : Prop where
  find : ∀ start : Int, ∃ found, findToolMarkupTagOutsideIgnored text start.toNat = some found ∧
    ∀ tag, found = some tag → tag.WellPlaced text
  markup : containsToolMarkupSyntaxOutsideIgnored text ≠ none
  wrapper : containsToolCallWrapperSyntaxOutsideIgnored text ≠ none
  isPartial : isPartialToolMarkupTagPrefix text ≠ none
  sanitize : sanitizeLooseCDATA text ≠ none

/-! What the scanners look at. Nothing here panics: beyond its end the copy is empty. -/

/-- The end of the separator at `idx`: a pipe, a space, the DSML marker, a hyphen before a
    name, or, after another separator, a token artefact. -/
def separatorEnd (lower text : Bytes) (idx : Nat) (again : Bool) : Option Nat :=
  match consumeToolMarkupPipe text idx with
  | some next => some next
  | none =>
    match consumeToolMarkupSpaceSeparator text idx with
    | some next => some next
    | none =>
      if hasPrefix (lower.drop idx) (lit "\x7b:dsml\x7d") then some (idx + 7)
      else if hasPrefix (lower.drop idx) (lit "dsml") then some (idx + 4)
      else if ((text.drop idx).head? = some '-'.toUInt8 ∨ (text.drop idx).head? = some '_'.toUInt8) ∧
          hasToolMarkupNamePrefix (lower.drop (idx + 1)) = true then some (idx + 1)
      else if again then consumeToolMarkupTokenArtifact text idx else none

/-- The separators from `s` on end at `r`. -/
inductive ReadsTo (lower text : Bytes) : Nat × Bool → Nat × Bool → Prop
  | stop {s : Nat × Bool} (h : separatorEnd lower text s.1 s.2 = none) : ReadsTo lower text s s
  | next {s r : Nat × Bool} {j : Nat} (h : separatorEnd lower text s.1 s.2 = some j)
      (hr : ReadsTo lower text (j, true) r) : ReadsTo lower text s r

/-- The offset after the brackets at `i` and a slash. -/
def bracketEnd (text : Bytes) (i : Nat) : Nat :=
  let j := i + countLeadingLessThan (text.drop i)
  if (text.drop j).head? == some '/'.toUInt8 then j + 1 else j

/-- A CDATA section or a comment starts at `i`. -/
def SectionAt (lower : Bytes) (i : Nat) : Prop :=
  0 < cdataOpenerByteLenAt lower i ∨ hasPrefix (lower.drop i) (lit "<!--") = true

/-- A tag whose name ends at `k` comes to an end. -/
def TagCloses (text : Bytes) (k : Nat) : Prop :=
  ∃ nameEnd stop, consumeToolMarkupPipes text k = some nameEnd ∧
    hasToolMarkupBoundary text nameEnd = true ∧
    toolMarkupTagEnd text nameEnd (nameEnd > k) = some stop

/-- A name the copy shows at `j` stands in the text. -/
def NameStands (text : Bytes) (j : Nat) : Prop :=
  ∀ name, toolMarkupNames.find? (fun name => hasPrefix ((toLower text).drop j) name) = some name →
    TagCloses text (j + name.length) → hasPrefix (toLower (text.drop j)) name = true

/-- How far the close of a CDATA section with that content reaches, if it has one. -/
def sectionClose (content : Bytes) : Option Nat :=
  let looseRel := findLooseCDATAClose content
  match (index content (lit "]]>")).filter (fun p => looseRel.all (p ≤ ·)), looseRel with
  | some p, _ => some (p + 3)
  | none, some l => some (l + 2)
  | none, none => none

/-- The offsets from which the next CDATA opener is looked for. -/
inductive Resumes (text : Bytes) : Nat → Prop
  | start : Resumes text 0
  | next {pos rel e : Nat} (hpos : Resumes text pos) (hlt : pos < text.length)
      (hopen : index ((toLower text).drop pos) (lit "<![cdata[") = some rel)
      (hclose : sectionClose (text.drop (pos + rel + 9)) = some e) : Resumes text (pos + rel + 9 + e)

/-- The lower-cased copy is in step with the text wherever a scanner looks at it: it is at most a
    byte short, the name of a tag is looked for in its range and shown only where the text has
    it, and a CDATA opener it shows ends in the text. -/
structure InStep (text : Bytes) : Prop where
  length : text.length ≤ (toLower text).length + 1
  tags : ∀ i, (text.drop i).head? = some '<'.toUInt8 → ¬ SectionAt (toLower text) i →
    ∃ r, ReadsTo (toLower text) text (bracketEnd text i, false) r ∧
      r.1 ≤ (toLower text).length ∧ NameStands text r.1
  sections : ∀ pos rel, Resumes text pos → pos < text.length →
    index ((toLower text).drop pos) (lit "<![cdata[") = some rel → pos + rel + 9 ≤ text.length

/-! Separators. -/

section Separators
variable {lower text : Bytes} {idx : Nat}

theorem consumeToolMarkupHyphenSeparator_some {o : Option Nat}
    (h : consumeToolMarkupHyphenSeparator lower text idx = some o) :
    o = if ((text.drop idx).head? = some '-'.toUInt8 ∨ (text.drop idx).head? = some '_'.toUInt8) ∧
      hasToolMarkupNamePrefix (lower.drop (idx + 1)) = true then some (idx + 1) else none := by
  unfold consumeToolMarkupHyphenSeparator at h
  split at h
  · next hnone =>
    cases h
    simp [hnone]
  · next ch hch =>
    split at h
    · next hne =>
      cases h
      simp [hch, hne]
    · next heq =>
      obtain ⟨tail, htail, rfl⟩ := Option.map_eq_some_iff.mp h
      rw [← (sliceFrom_eq_some_iff.mp htail).2]
      have hsep : ch = '-'.toUInt8 ∨ ch = '_'.toUInt8 := by
        by_contra hno
        exact heq (not_or.mp hno)
      simp [hch, hsep]

theorem consumeToolMarkupHyphenSeparator_ne_none
    (h : ((text.drop idx).head? = some '-'.toUInt8 ∨ (text.drop idx).head? = some '_'.toUInt8) →
      idx + 1 ≤ lower.length) :
    consumeToolMarkupHyphenSeparator lower text idx ≠ none := by
  unfold consumeToolMarkupHyphenSeparator
  split
  · exact Option.some_ne_none _
  · next ch hch =>
    split
    · exact Option.some_ne_none _
    · next heq =>
      have hsep : ch = '-'.toUInt8 ∨ ch = '_'.toUInt8 := by
        by_contra hno
        exact heq (not_or.mp hno)
      rw [sliceFrom_eq_some_iff.mpr ⟨h (by rw [hch]; simpa using hsep), rfl⟩]
      exact Option.some_ne_none _

variable {again : Bool}

/-- What one step of the code reads is a separator, and it stops only in the copy. -/
theorem separatorEnd_of_once {o : Option Nat}
    (h : consumeToolMarkupNamePrefixOnce lower text idx again = some o) :
    separatorEnd lower text idx again = o ∧ (o = none → idx ≤ lower.length) := by
  unfold consumeToolMarkupNamePrefixOnce at h
  unfold separatorEnd
  cases hpipe : consumeToolMarkupPipe text idx with
  | some next =>
    simp only [hpipe] at h ⊢
    cases h
    exact ⟨rfl, nofun⟩
  | none =>
    cases hspace : consumeToolMarkupSpaceSeparator text idx with
    | some next =>
      simp only [hpipe, hspace] at h ⊢
      cases h
      exact ⟨rfl, nofun⟩
    | none =>
      simp only [hpipe, hspace] at h ⊢
      obtain ⟨tail, htail, h⟩ := Option.bind_eq_some_iff.mp h
      obtain ⟨hle, rfl⟩ := sliceFrom_eq_some_iff.mp htail
      refine ⟨?_, fun _ => hle⟩
      split at h
      · next hcurly =>
        cases h
        rw [if_pos hcurly]
      · next hcurly =>
        rw [if_neg hcurly]
        split at h
        · next hdsml =>
          cases h
          rw [if_pos hdsml]
        · next hdsml =>
          rw [if_neg hdsml]
          obtain ⟨hyphen, hhyphen, rfl⟩ := Option.map_eq_some_iff.mp h
          rw [consumeToolMarkupHyphenSeparator_some hhyphen]
          split
          · rfl
          · rfl

/-- A step from within the copy does not panic, unless a hyphen takes it past the end. -/
theorem once_of_separatorEnd (hidx : idx ≤ lower.length)
    (h : ∀ j, separatorEnd lower text idx again = some j → j ≤ idx + 1 → j ≤ lower.length) :
    consumeToolMarkupNamePrefixOnce lower text idx again =
      some (separatorEnd lower text idx again) := by
  have hsome : consumeToolMarkupNamePrefixOnce lower text idx again ≠ none := by
    unfold separatorEnd at h
    unfold consumeToolMarkupNamePrefixOnce
    split
    · exact Option.some_ne_none _
    · next hpipe =>
      split
      · exact Option.some_ne_none _
      · next hspace =>
        rw [sliceFrom_eq_some_iff.mpr ⟨hidx, rfl⟩, Option.bind_some]
        simp only [hpipe, hspace] at h
        split
        · exact Option.some_ne_none _
        · next hcurly =>
          split
          · exact Option.some_ne_none _
          · next hdsml =>
            refine mt Option.map_eq_none_iff.mp (consumeToolMarkupHyphenSeparator_ne_none ?_)
            intro hsep
            by_contra hlt
            -- past its end the copy is a beginning of every name
            have hnil : lower.drop (idx + 1) = [] := List.drop_eq_nil_of_le (by omega)
            rw [if_neg hcurly, if_neg hdsml, hnil, if_pos ⟨hsep, by decide⟩] at h
            exact hlt (h (idx + 1) rfl (Nat.le_refl _))
  obtain ⟨o, ho⟩ := Option.ne_none_iff_exists'.mp hsome
  rw [ho, (separatorEnd_of_once ho).1]

theorem separatorEnd_moves {idx j : Nat} (h : separatorEnd lower text idx again = some j) : idx < j := by
  unfold separatorEnd at h
  split at h
  · next hpipe =>
    cases h
    exact (consumeToolMarkupPipe_moves hpipe).1
  · split at h
    · next hspace =>
      cases h
      exact (consumeToolMarkupSpaceSeparator_moves hspace).1
    · split at h
      · cases h
        omega
      · split at h
        · cases h
          omega
        · split at h
          · cases h
            omega
          · split at h
            · exact (consumeToolMarkupTokenArtifact_moves h).1
            · cases h

/-- A separator ends in the text or in its copy. -/
theorem separatorEnd_le {idx j : Nat} (h : separatorEnd lower text idx again = some j) :
    j ≤ max text.length lower.length := by
  unfold separatorEnd at h
  split at h
  · next hpipe =>
    cases h
    exact le_max_of_le_left (consumeToolMarkupPipe_moves hpipe).2
  · split at h
    · next hspace =>
      cases h
      unfold consumeToolMarkupSpaceSeparator at hspace
      split at hspace
      · cases hspace
      · next ch hch =>
        split at hspace
        · cases hspace
          exact le_max_of_le_left (lt_length_of_head_drop hch)
        · cases hspace
    · split at h
      · next hc =>
        cases h
        exact le_max_of_le_right (le_length_of_hasPrefix_drop (by decide) hc)
      · split at h
        · next hd =>
          cases h
          exact le_max_of_le_right (le_length_of_hasPrefix_drop (by decide) hd)
        · split at h
          · next hy =>
            cases h
            rcases hy.1 with hy | hy
            · exact le_max_of_le_left (lt_length_of_head_drop hy)
            · exact le_max_of_le_left (lt_length_of_head_drop hy)
          · split at h
            · obtain ⟨a, ha, rfl⟩ := Option.map_eq_some_iff.mp h
              have hne : ∀ b ∈ toolMarkupTokenArtifacts, b ≠ [] := by decide
              exact le_max_of_le_left (le_length_of_hasPrefix_drop (hne a (List.mem_of_find?_eq_some ha))
                (List.find?_some ha))
            · cases h

theorem ReadsTo.le {s r : Nat × Bool} (h : ReadsTo lower text s r) : s.1 ≤ r.1 := by
  induction h with
  | stop _ => exact Nat.le_refl _
  | next hsep _ ih => exact Nat.le_trans (Nat.le_of_lt (separatorEnd_moves hsep)) ih

/-- Separators that end within the copy are read without a panic. -/
theorem ReadsTo.consume {s r : Nat × Bool} (h : ReadsTo lower text s r) (hr : r.1 ≤ lower.length) :
    loop (fun s => text.length + lower.length - s.1) (namePrefixTurn lower text) s = some r := by
  induction h with
  | @stop s hsep =>
    have honce : consumeToolMarkupNamePrefixOnce lower text s.1 s.2 = some none := by
      rw [once_of_separatorEnd hr (by rw [hsep]; nofun), hsep]
    rw [(namePrefixTurn_decreases lower text).loop_eq, namePrefixTurn, honce]
    rfl
  | @next s r j hsep hread ih =>
    have hj : j ≤ lower.length := Nat.le_trans hread.le hr
    have hs := separatorEnd_moves hsep
    have honce : consumeToolMarkupNamePrefixOnce lower text s.1 s.2 = some (some j) := by
      refine (once_of_separatorEnd (by omega) (fun k hk _ => ?_)).trans (congrArg some hsep)
      rw [hsep] at hk
      cases hk
      exact hj
    rw [(namePrefixTurn_decreases lower text).loop_eq, namePrefixTurn, honce]
    exact ih hr

/-- The code reads separators, and stops only within the copy. -/
theorem readsTo_of_consume {r : Nat × Bool} (h : consumeToolMarkupNamePrefix lower text idx = some r) :
    ReadsTo lower text (idx, false) r ∧ r.1 ≤ lower.length := by
  refine loop_inv (I := fun s => ∀ r, ReadsTo lower text s r → ReadsTo lower text (idx, false) r)
    (Q := fun r => ReadsTo lower text (idx, false) r ∧ r.1 ≤ lower.length) ?_ ?_ (fun _ => id) h
  · intro s t hs ht r hr
    obtain ⟨once, honce, ht⟩ := Option.bind_eq_some_iff.mp ht
    cases once with
    | none => cases ht
    | some j =>
      cases ht
      exact hs r (.next (separatorEnd_of_once honce).1 hr)
  · intro s r hs hr
    obtain ⟨once, honce, hr⟩ := Option.bind_eq_some_iff.mp hr
    cases once with
    | some j => cases hr
    | none =>
      cases hr
      obtain ⟨hsep, hle⟩ := separatorEnd_of_once honce
      exact ⟨hs s (.stop hsep), hle rfl⟩

end Separators

/-! One tag. -/

section Tag
variable {text : Bytes} {i : Nat}

theorem consumeToolMarkupPipes_ne_none (text : Bytes) (idx : Nat) :
    consumeToolMarkupPipes text idx ≠ none := by
  refine (pipesTurn_decreases text).loop_ne_none_iff.mpr (fun j _ => ?_)
  unfold pipesTurn
  split
  · exact Option.some_ne_none _
  · exact Option.some_ne_none _

/-- Where the separators end within the copy, the scan answers, and the tag it answers with
    has the name the copy shows there. -/
theorem ReadsTo.scan (hlt : (text.drop i).head? = some '<'.toUInt8) {r : Nat × Bool}
    (h : ReadsTo (toLower text) text (bracketEnd text i, false) r)
    (hr : r.1 ≤ (toLower text).length) :
    ∃ found, scanToolMarkupTagAt text i = some found ∧ ∀ tag, found = some tag →
      tag.nameStart = r.1 ∧
      toolMarkupNames.find? (fun name => hasPrefix ((toLower text).drop r.1) name) = some tag.name ∧
      TagCloses text (r.1 + tag.name.length) := by
  have hpre : consumeToolMarkupNamePrefix (toLower text) text (bracketEnd text i) = some r :=
    h.consume hr
  have hname : matchToolMarkupName (toLower text) r.1 =
      some (toolMarkupNames.find? (fun name => hasPrefix ((toLower text).drop r.1) name)) := by
    rw [matchToolMarkupName, sliceFrom_eq_some_iff.mpr ⟨hr, rfl⟩, Option.map_some]
  unfold bracketEnd at hpre
  simp only at hpre
  unfold scanToolMarkupTagAt
  simp only [if_neg (not_not.mpr hlt), hpre, hname, Option.bind_eq_bind, Option.bind_some]
  cases hfind : toolMarkupNames.find? (fun name => hasPrefix ((toLower text).drop r.1) name) with
  | none => exact ⟨none, rfl, nofun⟩
  | some name =>
    obtain ⟨nameEnd, hpipes⟩ := Option.ne_none_iff_exists'.mp
      (consumeToolMarkupPipes_ne_none text (r.1 + name.length))
    simp only [hpipes, Option.bind_some]
    split
    · exact ⟨none, rfl, nofun⟩
    · next hbound =>
      split
      · exact ⟨none, rfl, nofun⟩
      · next stop hstop =>
        refine ⟨_, rfl, ?_⟩
        rintro tag ⟨⟩
        exact ⟨rfl, rfl, nameEnd, stop, hpipes, not_not.mp hbound, hstop⟩

/-- A scan that answers has read separators that end within the copy, and answers with a tag
    of the name the copy shows there, if the tag comes to an end. -/
theorem readsTo_of_scan (hlt : (text.drop i).head? = some '<'.toUInt8)
    {found : Option ToolMarkupTag} (h : scanToolMarkupTagAt text i = some found) :
    ∃ r, ReadsTo (toLower text) text (bracketEnd text i, false) r ∧ r.1 ≤ (toLower text).length ∧
      ∀ name,
        toolMarkupNames.find? (fun name => hasPrefix ((toLower text).drop r.1) name) = some name →
        TagCloses text (r.1 + name.length) →
        ∃ tag, found = some tag ∧ tag.nameStart = r.1 ∧ tag.name = name := by
  unfold scanToolMarkupTagAt at h
  rw [if_neg (not_not.mpr hlt)] at h
  obtain ⟨r, hpre, h⟩ := Option.bind_eq_some_iff.mp h
  obtain ⟨hread, hle⟩ := readsTo_of_consume hpre
  refine ⟨r, hread, hle, ?_⟩
  rintro name hfind ⟨nameEnd, stop, hpipes, hbound, hstop⟩
  have hname : matchToolMarkupName (toLower text) r.1 = some (some name) := by
    rw [matchToolMarkupName, sliceFrom_eq_some_iff.mpr ⟨hle, rfl⟩, Option.map_some, hfind]
  simp only [hname, hpipes, hbound, hstop, Option.bind_eq_bind, Option.bind_some, not_true_eq_false,
    if_false] at h
  cases h
  exact ⟨_, rfl, rfl, rfl⟩

end Tag

/-! The searches. With a search from every offset the offsets can be looked at one by one. -/

section Searches
variable {text : Bytes} {lower : Bytes} {i : Nat}

theorem skipXMLIgnoredSection_of_le (h : i ≤ lower.length) : skipXMLIgnoredSection lower i ≠ none := by
  unfold skipXMLIgnoredSection
  simp only
  split
  · split
    · exact Option.some_ne_none _
    · exact Option.some_ne_none _
  · rw [sliceFrom_eq_some_iff.mpr ⟨h, rfl⟩]
    exact Option.some_ne_none _

theorem skipXMLIgnoredSection_of_lt (h : lower.length < i) : skipXMLIgnoredSection lower i = none := by
  have hnil : lower.drop i = [] := List.drop_eq_nil_of_le (by omega)
  have hlen : cdataOpenerByteLenAt lower i = 0 := by
    rw [cdataOpenerByteLenAt, hnil]
    decide
  have hslice : sliceFrom lower i = none := if_neg (by omega)
  rw [skipXMLIgnoredSection]
  simp only [hlen, Nat.lt_irrefl, if_false, hslice]
  rfl

/-- The scan stays at an offset where no section starts. -/
theorem skipXMLIgnoredSection_stay_iff (h : i ≤ lower.length) :
    skipXMLIgnoredSection lower i = some .stay ↔ ¬ SectionAt lower i := by
  unfold skipXMLIgnoredSection SectionAt
  simp only [sliceFrom_eq_some_iff.mpr ⟨h, rfl⟩, Option.map_some]
  split
  · next hpos =>
    refine iff_of_false ?_ (fun hno => hno (Or.inl hpos))
    split
    · nofun
    · nofun
  · next hpos =>
    split
    · next hcomment =>
      refine iff_of_false ?_ (fun hno => hno (Or.inr hcomment))
      split
      · nofun
      · nofun
    · next hcomment => exact iff_of_true rfl (by rintro (h | h) <;> contradiction)

/-- What a scanner needs of an offset. -/
def SafeAt (text : Bytes) (i : Nat) : Prop :=
  skipXMLIgnoredSection (toLower text) i ≠ none ∧
    (skipXMLIgnoredSection (toLower text) i = some .stay → ∃ found,
      scanToolMarkupTagAt text i = some found ∧ ∀ tag, found = some tag → tag.WellPlaced text)

theorem le_of_skipXMLIgnoredSection (h : skipXMLIgnoredSection lower i ≠ none) : i ≤ lower.length := by
  by_contra hlt
  exact h (skipXMLIgnoredSection_of_lt (Nat.lt_of_not_le hlt))

/-- The offsets are safe where the copy is long enough and shows no wrong name. -/
theorem safeAt_iff : (∀ i < text.length, SafeAt text i) ↔
    text.length ≤ (toLower text).length + 1 ∧
      ∀ i, (text.drop i).head? = some '<'.toUInt8 → ¬ SectionAt (toLower text) i →
        ∃ r, ReadsTo (toLower text) text (bracketEnd text i, false) r ∧
          r.1 ≤ (toLower text).length ∧ NameStands text r.1 := by
  constructor
  · intro hall
    refine ⟨?_, fun i hlt hsection => ?_⟩
    · by_contra hlong
      have hle := le_of_skipXMLIgnoredSection (hall ((toLower text).length + 1) (by omega)).1
      omega
    · obtain ⟨hskip, hscan⟩ := hall i (lt_length_of_head_drop hlt)
      have hstay := (skipXMLIgnoredSection_stay_iff (le_of_skipXMLIgnoredSection hskip)).mpr hsection
      obtain ⟨found, hfound, hplaced⟩ := hscan hstay
      obtain ⟨r, hread, hle, hname⟩ := readsTo_of_scan hlt hfound
      refine ⟨r, hread, hle, fun name hfind hcloses => ?_⟩
      obtain ⟨tag, htag, hstart, rfl⟩ := hname name hfind hcloses
      exact hstart ▸ (hplaced tag htag).name
  · rintro ⟨hlength, htags⟩ i hi
    have hle : i ≤ (toLower text).length := by omega
    refine ⟨skipXMLIgnoredSection_of_le hle, fun hstay => ?_⟩
    by_cases hlt : (text.drop i).head? = some '<'.toUInt8
    · obtain ⟨r, hread, hr, hstands⟩ := htags i hlt ((skipXMLIgnoredSection_stay_iff hle).mp hstay)
      obtain ⟨found, hfound, hshown⟩ := hread.scan hlt hr
      refine ⟨found, hfound, ?_⟩
      rintro tag rfl
      obtain ⟨hstart, hfind, hcloses⟩ := hshown tag rfl
      obtain ⟨hi, hlo, hname, hend, hstop⟩ := scanToolMarkupTagAt_spec hfound
      exact ⟨by omega, hname, hend, hstop, hstart ▸ hstands tag.name hfind hcloses⟩
    · exact ⟨none, if_pos hlt, nofun⟩

theorem SafeAt.findTagTurn_ne_none (h : SafeAt text i) : findTagTurn text (toLower text) i ≠ none := by
  unfold findTagTurn
  split
  · exact Option.some_ne_none _
  · obtain ⟨skip, hskip⟩ := Option.ne_none_iff_exists'.mp h.1
    rw [hskip, Option.bind_eq_bind, Option.bind_some]
    cases skip with
    | blocked => exact Option.some_ne_none _
    | advanced next => exact Option.some_ne_none _
    | stay =>
      obtain ⟨found, hfound, -⟩ := h.2 hskip
      simp only [hfound, Option.bind_eq_bind, Option.bind_some]
      cases found with
      | none => exact Option.some_ne_none _
      | some tag => exact Option.some_ne_none _

theorem findTagTurn_of_le (h : text.length ≤ i) : findTagTurn text lower i = some (.done none) := if_pos h

/-- A search from every offset is safe exactly when every offset is. -/
theorem find_safe_iff :
    (∀ start : Int, ∃ found, findToolMarkupTagOutsideIgnored text start.toNat = some found ∧
      ∀ tag, found = some tag → tag.WellPlaced text) ↔ ∀ i < text.length, SafeAt text i := by
  constructor
  · intro hfind i hi
    obtain ⟨found, hfound, hplaced⟩ := hfind i
    rw [Int.toNat_natCast, findToolMarkupTagOutsideIgnored,
      (findTagTurn_decreases text (toLower text)).loop_eq, findTagTurn, if_neg (by omega)] at hfound
    refine ⟨fun hnone => ?_, fun hstay => ?_⟩
    · simp [hnone] at hfound
    · cases hscan : scanToolMarkupTagAt text i with
      | none => simp [hstay, hscan] at hfound
      | some answer =>
        refine ⟨answer, rfl, ?_⟩
        rintro tag rfl
        simp only [hstay, hscan, Option.bind_eq_bind, Option.bind_some, Option.pure_def,
          Option.some.injEq] at hfound
        exact hplaced tag hfound.symm
  · intro hall start
    have hturn : ∀ i, findTagTurn text (toLower text) i ≠ none := by
      intro i
      by_cases hi : i < text.length
      · exact (hall i hi).findTagTurn_ne_none
      · rw [findTagTurn_of_le (Nat.le_of_not_lt hi)]
        exact Option.some_ne_none _
    obtain ⟨found, hfound⟩ := Option.ne_none_iff_exists'.mp
      ((findTagTurn_decreases text (toLower text)).loop_ne_none_iff.mpr
        (fun i (_ : Visits _ start.toNat i) => hturn i))
    refine ⟨found, hfound, ?_⟩
    refine loop_inv (I := fun _ => True) (Q := fun r => ∀ tag, r = some tag → tag.WellPlaced text)
      (fun _ _ _ _ => trivial) ?_ trivial hfound
    rintro i r - hdone tag rfl
    by_cases hi : i < text.length
    · unfold findTagTurn at hdone
      rw [if_neg (by omega)] at hdone
      obtain ⟨skip, hskip, hdone⟩ := Option.bind_eq_some_iff.mp hdone
      cases skip with
      | blocked => cases hdone
      | advanced next => cases hdone
      | stay =>
        obtain ⟨answer, hanswer, hplaced⟩ := (hall i hi).2 hskip
        simp only [hanswer, Option.bind_eq_bind, Option.bind_some] at hdone
        cases answer with
        | none => cases hdone
        | some found =>
          cases hdone
          exact hplaced _ rfl
    · rw [findTagTurn_of_le (Nat.le_of_not_lt hi)] at hdone
      cases hdone

theorem containsSyntax_ne_none (hall : ∀ i < text.length, SafeAt text i) (counts : Bytes → Bool) :
    containsSyntax text counts ≠ none := by
  refine (containsSyntaxTurn_decreases text (toLower text) counts).loop_ne_none_iff.mpr
    (fun s _ => ?_)
  unfold containsSyntaxTurn
  split
  · exact Option.some_ne_none _
  · next hlt =>
    have hsafe := hall s.1 (by omega)
    obtain ⟨skip, hskip⟩ := Option.ne_none_iff_exists'.mp hsafe.1
    rw [hskip, Option.bind_eq_bind, Option.bind_some]
    cases skip with
    | blocked => exact Option.some_ne_none _
    | advanced next => exact Option.some_ne_none _
    | stay =>
      obtain ⟨found, hfound, -⟩ := hsafe.2 hskip
      simp only [hfound, Option.bind_eq_bind, Option.bind_some]
      cases found with
      | none => exact Option.some_ne_none _
      | some tag =>
        simp only
        split
        · exact Option.some_ne_none _
        · split
          · exact Option.some_ne_none _
          · exact Option.some_ne_none _

/-- The look-ahead needs only the length: at the end of the copy it answers at once. -/
theorem isPartialToolMarkupTagPrefix_ne_none (hlength : text.length ≤ (toLower text).length + 1) :
    isPartialToolMarkupTagPrefix text ≠ none := by
  unfold isPartialToolMarkupTagPrefix
  split
  · exact Option.some_ne_none _
  · simp only
    split
    · exact Option.some_ne_none _
    · refine (isPartialTurn_decreases (toLower text) text).loop_ne_none_iff.mpr (fun s _ => ?_)
      unfold isPartialTurn
      split
      · exact Option.some_ne_none _
      · split
        · exact Option.some_ne_none _
        · have hle : s.1 ≤ (toLower text).length := by omega
          rw [sliceFrom_eq_some_iff.mpr ⟨hle, rfl⟩, Option.bind_eq_bind, Option.bind_some]
          split
          · exact Option.some_ne_none _
          · next hno =>
            split
            · exact Option.some_ne_none _
            · have hlt : s.1 < (toLower text).length := by
                by_contra hge
                rw [List.drop_eq_nil_of_le (Nat.le_of_not_lt hge)] at hno
                exact hno (by decide)
              rw [once_of_separatorEnd hle (fun j _ hj => Nat.le_trans hj hlt), Option.bind_eq_bind,
                Option.bind_some]
              split
              · exact Option.some_ne_none _
              · exact Option.some_ne_none _

end Searches

/-! The repair of CDATA sections. -/

section Sections
variable {text : Bytes}

theorem findLooseCDATAClose_le : ∀ {text : Bytes} {l : Nat}, findLooseCDATAClose text = some l →
    l + 3 ≤ text.length
  | b :: text, l, h => by
    unfold findLooseCDATAClose at h
    split at h
    · next hp =>
      cases h
      exact le_length_of_hasPrefix_drop (i := 0) (by decide) (Bool.and_eq_true_iff.mp hp).1
    · obtain ⟨l', hl', rfl⟩ := Option.map_eq_some_iff.mp h
      have := findLooseCDATAClose_le hl'
      rw [List.length_cons]
      omega

/-- A turn at an opener that ends in the text goes on behind the close of the section, or at the
    end of the text. -/
theorem sanitizeTurn_opener {lower : Bytes} {s : Sanitize} {rel : Nat} (hlt : s.pos < text.length)
    (hpos : s.pos ≤ lower.length) (hopen : index (lower.drop s.pos) (lit "<![cdata[") = some rel)
    (hend : s.pos + rel + 9 ≤ text.length) :
    ∃ t, sanitizeTurn text lower s = some (.next t) ∧
      match sectionClose (text.drop (s.pos + rel + 9)) with
      | some e => t.pos = s.pos + rel + 9 + e
      | none => t.pos = text.length := by
  have hbefore : slice text s.pos (s.pos + rel) = some ((text.drop s.pos).take rel) := by
    rw [slice, if_pos (by omega), Nat.add_sub_cancel_left]
  have hcontent : (text.drop (s.pos + rel + 9)).length = text.length - (s.pos + rel + 9) :=
    List.length_drop
  unfold sanitizeTurn sectionClose
  simp only [if_neg (Nat.not_le_of_lt hlt), sliceFrom_eq_some_iff.mpr ⟨hpos, rfl⟩,
    sliceFrom_eq_some_iff.mpr ⟨hend, rfl⟩, hopen, hbefore, Option.bind_eq_bind, Option.bind_some]
  generalize text.drop (s.pos + rel + 9) = content at hcontent ⊢
  generalize hloose : findLooseCDATAClose content = loose
  generalize hproper : (index content (lit "]]>")).filter (fun p => loose.all (p ≤ ·)) = proper
  cases proper with
  | some p =>
    have hclose : p + 3 ≤ content.length := le_length_of_hasPrefix_drop (by decide)
      (index_hasPrefix (Option.filter_eq_some_iff.mp hproper).1)
    have hpiece : slice text (s.pos + rel) (s.pos + rel + 9 + p + 3) = some _ := if_pos (by omega)
    simp only [hpiece, Option.bind_some]
    exact ⟨_, rfl, rfl⟩
  | none =>
    cases loose with
    | none => exact ⟨_, rfl, rfl⟩
    | some l =>
      have hclose := findLooseCDATAClose_le hloose
      have hpiece : slice text (s.pos + rel) (s.pos + rel + 9 + l) = some _ := if_pos (by omega)
      simp only [hpiece, Option.bind_some]
      exact ⟨_, rfl, rfl⟩

theorem sanitizeTurn_ne_none_iff {lower : Bytes} {s : Sanitize} (hlt : s.pos < text.length)
    (hpos : s.pos ≤ lower.length) : sanitizeTurn text lower s ≠ none ↔
      ∀ rel, index (lower.drop s.pos) (lit "<![cdata[") = some rel → s.pos + rel + 9 ≤ text.length := by
  constructor
  · intro hturn rel hopen
    by_contra hend
    refine hturn ?_
    have hcontent : sliceFrom text (s.pos + rel + 9) = none := if_neg hend
    unfold sanitizeTurn
    simp only [if_neg (Nat.not_le_of_lt hlt), sliceFrom_eq_some_iff.mpr ⟨hpos, rfl⟩, hopen,
      hcontent, Option.bind_eq_bind, Option.bind_some, Option.bind_none]
    cases slice text s.pos (s.pos + rel) with
    | none => rfl
    | some piece => rfl
  · intro hall
    cases hopen : index (lower.drop s.pos) (lit "<![cdata[") with
    | none =>
      unfold sanitizeTurn
      simp only [if_neg (Nat.not_le_of_lt hlt), sliceFrom_eq_some_iff.mpr ⟨hpos, rfl⟩, hopen,
        Option.bind_eq_bind, Option.bind_some]
      exact Option.some_ne_none _
    | some rel =>
      obtain ⟨t, ht, -⟩ := sanitizeTurn_opener hlt hpos hopen (hall rel hopen)
      rw [ht]
      exact Option.some_ne_none _

theorem sanitizeTurn_of_le {lower : Bytes} {s : Sanitize} (h : text.length ≤ s.pos) :
    sanitizeTurn text lower s = some (.done s) := if_pos h

/-- A repair looks for the next opener at the offsets it resumes from. -/
theorem resumes_of_visits (hlength : text.length ≤ (toLower text).length + 1) {s : Sanitize}
    (h : Visits (sanitizeTurn text (toLower text)) {} s) :
    Resumes text s.pos ∨ text.length ≤ s.pos := by
  induction h with
  | refl => exact Or.inl .start
  | @tail s t _ hstep ih =>
    by_cases hlt : s.pos < text.length
    · have hpos : s.pos ≤ (toLower text).length := by omega
      have hturn : sanitizeTurn text (toLower text) s ≠ none := by
        rw [hstep]
        exact Option.some_ne_none _
      cases hopen : index ((toLower text).drop s.pos) (lit "<![cdata[") with
      | none =>
        unfold sanitizeTurn at hstep
        simp only [if_neg (Nat.not_le_of_lt hlt), sliceFrom_eq_some_iff.mpr ⟨hpos, rfl⟩, hopen,
          Option.bind_eq_bind, Option.bind_some] at hstep
        cases hstep
      | some rel =>
        obtain ⟨t', ht', hclose⟩ := sanitizeTurn_opener hlt hpos hopen
          ((sanitizeTurn_ne_none_iff hlt hpos).mp hturn rel hopen)
        rw [hstep] at ht'
        cases ht'
        split at hclose
        · next e he =>
          rw [hclose]
          exact Or.inl (.next (ih.resolve_right (Nat.not_le_of_lt hlt)) hlt hopen he)
        · exact Or.inr (Nat.le_of_eq hclose.symm)
    · rw [sanitizeTurn_of_le (Nat.le_of_not_lt hlt)] at hstep
      cases hstep

/-- A repair that does not panic comes to every offset it resumes from. -/
theorem Resumes.visits (hlength : text.length ≤ (toLower text).length + 1)
    (hsafe : ∀ s, Visits (sanitizeTurn text (toLower text)) {} s →
      sanitizeTurn text (toLower text) s ≠ none) {pos : Nat} (h : Resumes text pos) :
    ∃ s, Visits (sanitizeTurn text (toLower text)) {} s ∧ s.pos = pos := by
  induction h with
  | start => exact ⟨{}, .refl, rfl⟩
  | @next pos rel e _ hlt hopen hclose ih =>
    obtain ⟨s, hs, rfl⟩ := ih
    have hpos : s.pos ≤ (toLower text).length := by omega
    obtain ⟨t, ht, hpos'⟩ := sanitizeTurn_opener hlt hpos hopen
      ((sanitizeTurn_ne_none_iff hlt hpos).mp (hsafe s hs) rel hopen)
    rw [hclose] at hpos'
    exact ⟨t, hs.tail ht, hpos'⟩

theorem sanitize_safe_iff (hlength : text.length ≤ (toLower text).length + 1) :
    sanitizeLooseCDATA text ≠ none ↔ ∀ pos rel, Resumes text pos → pos < text.length →
      index ((toLower text).drop pos) (lit "<![cdata[") = some rel → pos + rel + 9 ≤ text.length := by
  have hloop := (sanitizeTurn_decreases text (toLower text)).loop_ne_none_iff (s := {})
  have hrun : sanitizeLooseCDATA text ≠ none ↔ loop (fun s => text.length - s.pos)
      (sanitizeTurn text (toLower text)) {} ≠ none := by
    unfold sanitizeLooseCDATA
    cases loop (fun s => text.length - s.pos) (sanitizeTurn text (toLower text)) {} with
    | none => simp
    | some s => exact iff_of_true (Option.some_ne_none _) (Option.some_ne_none _)
  rw [hrun, hloop]
  constructor
  · intro hsafe pos rel hres hlt hopen
    obtain ⟨s, hs, rfl⟩ := hres.visits hlength hsafe
    exact (sanitizeTurn_ne_none_iff hlt (by omega)).mp (hsafe s hs) rel hopen
  · intro hall s hs
    by_cases hlt : s.pos < text.length
    · have hres := (resumes_of_visits hlength hs).resolve_right (Nat.not_le_of_lt hlt)
      exact (sanitizeTurn_ne_none_iff hlt (by omega)).mpr (fun rel => hall s.pos rel hres hlt)
    · rw [sanitizeTurn_of_le (Nat.le_of_not_lt hlt)]
      exact Option.some_ne_none _

end Sections

/-- The scanners are safe on a text exactly when its lower-cased copy is in step with it. -/
theorem scannersSafe_iff (text : Bytes) : ScannersSafe text ↔ InStep text := by
  constructor
  · intro h
    have hall := find_safe_iff.mp h.find
    obtain ⟨hlength, htags⟩ := safeAt_iff.mp hall
    exact ⟨hlength, htags, (sanitize_safe_iff hlength).mp h.sanitize⟩
  · intro h
    have hall := safeAt_iff.mpr ⟨h.length, h.tags⟩
    exact {
      find := find_safe_iff.mpr hall
      markup := containsSyntax_ne_none hall _
      wrapper := containsSyntax_ne_none hall _
      isPartial := isPartialToolMarkupTagPrefix_ne_none h.length
      sanitize := (sanitize_safe_iff h.length).mpr h.sections }

/-- U+0130 loses a byte, so the copy ends before the bracket and the name is looked for behind
    its end. -/
theorem dotted_capital_before_bracket : ¬ ScannersSafe (lit "İ<") := by
  intro h
  obtain ⟨found, hfound, -⟩ := h.find 0
  have hpanic : findToolMarkupTagOutsideIgnored (lit "İ<") 0 = none := by decide
  rw [Int.toNat_zero, hpanic] at hfound
  cases hfound

end DeepSeekWebToApi.Toolcall
