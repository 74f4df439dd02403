import DeepSeekWebToApi.Lib.RuneText
import DeepSeekWebToApi.Toolcall.Folding
import DeepSeekWebToApi.Toolstream.Sieve

/- The beginning of a tag that a later chunk completes.

   `scanToolMarkupTagAt` reads separators as long as there are any and then a name.
   `IsPartialToolMarkupTagPrefix` walks over the same separators of a text that is cut off.
   A separator of the whole text that lies before the cut is one of the beginning; one that
   the cut divides is a DSML marker, as every other is a single rune
   (`separatorEnd_cut`). So the walk comes to the cut, or to the name, or to a beginning of
   either (`partial_of_reads`). -/
namespace DeepSeekWebToApi.Toolstream
open GoStrings GoLoop Toolcall

/-- A text whose byte offsets lower-casing keeps: every rune keeps its length. -/
def KeepsOffsets (s : Bytes) : Prop :=
  ∀ g ∈ splitRunes s, (encodeRune (lowerRune g.1)).length = g.2.length

instance (s : Bytes) : Decidable (KeepsOffsets s) := List.decidableBAll _ _

/-- A text in two parts, cut at the boundary of a rune. -/
def CutAtRune (t u : Bytes) : Prop := splitRunes (t ++ u) = splitRunes t ++ splitRunes u

instance (t u : Bytes) : Decidable (CutAtRune t u) := instDecidableEqList _ _

/-! The parts of the copy. -/

section Cut
variable {t u : Bytes}

/-- What the two parts know of each other: the copy is cut where the text is, and the second
    part does not start inside a rune. -/
structure Halves (t u : Bytes) : Prop where
  lower : toLower (t ++ u) = toLower t ++ toLower u
  length : (toLower t).length = t.length
  head : ∀ b, u.head? = some b → b.toNat < 0x80 ∨ 0xC0 ≤ b.toNat

/-- A text whose offsets are kept does not start with a byte that continues a rune. -/
theorem KeepsOffsets.head {s : Bytes} (h : KeepsOffsets s) :
    ∀ b, s.head? = some b → b.toNat < 0x80 ∨ 0xC0 ≤ b.toNat := by
  intro b hb
  cases s with
  | nil => cases hb
  | cons c s =>
    cases hb
    by_contra hmid
    have hlead : leadByte b.toNat = none := by
      unfold leadByte
      split_ifs
      all_goals first | rfl | omega
    have hdec : decodeRune (b :: s) = (runeError, 1) := by
      rw [decodeRune]
      simp only [hlead]
    have hlen := h (runeError, [b]) (by
      rw [splitRunes_cons, hdec]
      exact List.mem_cons_self)
    have hthree : (encodeRune (lowerRune runeError)).length ≠ 1 := by decide
    exact hthree hlen

theorem halves (hkeeps : KeepsOffsets (t ++ u)) (hcut : CutAtRune t u) : Halves t u := by
  have hleft : KeepsOffsets t := fun g hg => hkeeps g (by rw [hcut]; exact List.mem_append_left _ hg)
  have hright : KeepsOffsets u := fun g hg => hkeeps g (by rw [hcut]; exact List.mem_append_right _ hg)
  refine ⟨?_, (even_of_runes t.length (Nat.le_refl _) hleft).folds.length_eq, hright.head⟩
  rw [toLower_runes, hcut, List.flatMap_append, ← toLower_runes, ← toLower_runes]

/-- Bytes that continue a rune end before the cut. -/
theorem hasPrefix_continued (hu : ∀ b, u.head? = some b → b.toNat < 0x80 ∨ 0xC0 ≤ b.toNat) :
    ∀ {w p : Bytes}, (∀ b ∈ p, 0x80 ≤ b.toNat ∧ b.toNat < 0xC0) → hasPrefix (w ++ u) p = hasPrefix w p
  | w, [], _ => by rw [hasPrefix, hasPrefix, List.isPrefixOf_nil_left, List.isPrefixOf_nil_left]
  | [], c :: p, h => by
    cases u with
    | nil => rfl
    | cons b u =>
      have hb := hu b rfl
      have hc := h c List.mem_cons_self
      have hne : (c == b) = false := by
        rw [beq_eq_false_iff_ne]
        rintro rfl
        omega
      rw [List.nil_append, hasPrefix, List.isPrefixOf_cons_cons, hne, Bool.false_and]
      rfl
  | b :: w, c :: p, h => by
    have ih := hasPrefix_continued hu (w := w) fun d hd => h d (List.mem_cons_of_mem c hd)
    rw [hasPrefix, hasPrefix] at ih
    rw [List.cons_append, hasPrefix, hasPrefix, List.isPrefixOf_cons_cons, List.isPrefixOf_cons_cons, ih]

/-- A single rune lies on one side of the cut. -/
theorem hasPrefix_rune (hu : ∀ b, u.head? = some b → b.toNat < 0x80 ∨ 0xC0 ≤ b.toNat) {w p : Bytes}
    (hw : w ≠ []) (hp : ∀ b ∈ p.tail, 0x80 ≤ b.toNat ∧ b.toNat < 0xC0) :
    hasPrefix (w ++ u) p = hasPrefix w p := by
  obtain ⟨b, w, rfl⟩ := List.exists_cons_of_ne_nil hw
  cases p with
  | nil => rw [hasPrefix, hasPrefix, List.isPrefixOf_nil_left, List.isPrefixOf_nil_left]
  | cons c p =>
    have htail := hasPrefix_continued hu (w := w) (p := p) hp
    rw [hasPrefix, hasPrefix] at htail
    rw [List.cons_append, hasPrefix, hasPrefix, List.isPrefixOf_cons_cons, List.isPrefixOf_cons_cons, htail]

/-! Separators before the cut. -/

variable {i : Nat}

theorem drop_ne_nil (hi : i < t.length) : t.drop i ≠ [] := by
  rw [← List.length_pos_iff, List.length_drop]
  omega

theorem head_cut (hi : i < t.length) : ((t ++ u).drop i).head? = (t.drop i).head? := by
  rw [List.drop_append_of_le_length (Nat.le_of_lt hi)]
  obtain ⟨b, w, hw⟩ := List.exists_cons_of_ne_nil (drop_ne_nil hi)
  rw [hw]
  rfl

theorem pipe_cut (h : Halves t u) (hi : i < t.length) :
    consumeToolMarkupPipe (t ++ u) i = consumeToolMarkupPipe t i := by
  unfold consumeToolMarkupPipe
  rw [List.drop_append_of_le_length (Nat.le_of_lt hi),
    hasPrefix_rune h.head (drop_ne_nil hi) (by decide +kernel),
    hasPrefix_rune h.head (drop_ne_nil hi) (by decide +kernel)]

theorem space_cut (hi : i < t.length) :
    consumeToolMarkupSpaceSeparator (t ++ u) i = consumeToolMarkupSpaceSeparator t i := by
  unfold consumeToolMarkupSpaceSeparator
  rw [head_cut hi]

theorem artifact_cut (h : Halves t u) (hi : i < t.length) :
    consumeToolMarkupTokenArtifact (t ++ u) i = consumeToolMarkupTokenArtifact t i := by
  have hrunes : ∀ a ∈ toolMarkupTokenArtifacts, ∀ b ∈ a.tail, 0x80 ≤ b.toNat ∧ b.toNat < 0xC0 := by
    decide +kernel
  have hfind : ∀ as : List Bytes, (∀ a ∈ as, ∀ b ∈ a.tail, 0x80 ≤ b.toNat ∧ b.toNat < 0xC0) →
      as.find? (fun a => hasPrefix (t.drop i ++ u) a) = as.find? (fun a => hasPrefix (t.drop i) a) := by
    intro as has
    induction as with
    | nil => rfl
    | cons a as ih =>
      obtain ⟨ha, has⟩ := List.forall_mem_cons.mp has
      rw [List.find?_cons, List.find?_cons, hasPrefix_rune h.head (drop_ne_nil hi) ha, ih has]
  unfold consumeToolMarkupTokenArtifact
  rw [List.drop_append_of_le_length (Nat.le_of_lt hi), hfind _ hrunes]

/-- No artefact starts with a hyphen. -/
theorem artifact_hyphen (h : (t.drop i).head? = some '-'.toUInt8 ∨ (t.drop i).head? = some '_'.toUInt8) :
    consumeToolMarkupTokenArtifact t i = none := by
  unfold consumeToolMarkupTokenArtifact
  cases hd : t.drop i with
  | nil =>
    rw [hd] at h
    rcases h with h | h <;> cases h
  | cons b w =>
    rw [hd] at h
    rcases h with h | h <;> cases h <;> rfl

theorem lower_cut (h : Halves t u) (hi : i ≤ t.length) :
    (toLower (t ++ u)).drop i = (toLower t).drop i ++ toLower u := by
  rw [h.lower, List.drop_append_of_le_length (by rw [h.length]; exact hi)]

theorem hasToolMarkupNamePrefix_cut {w v : Bytes} (h : hasToolMarkupNamePrefix (w ++ v) = true) :
    hasToolMarkupNamePrefix w = true := by
  obtain ⟨name, hname, hor⟩ := List.any_eq_true.mp h
  refine List.any_eq_true.mpr ⟨name, hname, ?_⟩
  rw [Bool.or_eq_true] at hor ⊢
  simp only [hasPrefix, List.isPrefixOf_iff_prefix] at hor ⊢
  rcases hor with hor | hor
  · exact (List.prefix_or_prefix_of_prefix hor (List.prefix_append w v))
  · exact Or.inr ((List.prefix_append w v).trans hor)

/-- A DSML marker lies before the cut, or is divided by it. -/
theorem marker_cut {w v p : Bytes} (hp : p ∈ [lit "dsml", lit "\x7b:dsml\x7d"])
    (hno : hasToolMarkupDSMLPrefixPrefix w = false) : hasPrefix (w ++ v) p = hasPrefix w p := by
  have hnot : ¬ w <+: p := by
    intro hw
    have hyes : hasToolMarkupDSMLPrefixPrefix w = true :=
      List.any_eq_true.mpr ⟨p, hp, List.isPrefixOf_iff_prefix.mpr hw⟩
    rw [hyes] at hno
    cases hno
  rw [Bool.eq_iff_iff, hasPrefix, hasPrefix, List.isPrefixOf_iff_prefix, List.isPrefixOf_iff_prefix]
  constructor
  · intro h
    exact (List.prefix_or_prefix_of_prefix h (List.prefix_append w v)).resolve_right hnot
  · exact fun h => h.trans (List.prefix_append w v)

/-- A separator of the whole text that starts before the cut is one of the first part, unless a
    DSML marker is divided. -/
theorem separatorEnd_cut (h : Halves t u) (hi : i < t.length) {again : Bool} {j : Nat}
    (hsep : separatorEnd (toLower (t ++ u)) (t ++ u) i again = some j)
    (hno : hasToolMarkupDSMLPrefixPrefix ((toLower t).drop i) = false) :
    separatorEnd (toLower t) t i again = some j := by
  have hcurly := marker_cut (v := toLower u) (p := lit "\x7b:dsml\x7d") (by decide) hno
  have hdsml := marker_cut (v := toLower u) (p := lit "dsml") (by decide) hno
  unfold separatorEnd at hsep ⊢
  rw [pipe_cut h hi, space_cut hi, lower_cut h (Nat.le_of_lt hi), lower_cut h hi, hcurly, hdsml,
    head_cut hi, artifact_cut h hi] at hsep
  cases hpipe : consumeToolMarkupPipe t i with
  | some next =>
    rw [hpipe] at hsep
    exact hsep
  | none =>
    cases hspace : consumeToolMarkupSpaceSeparator t i with
    | some next =>
      rw [hpipe, hspace] at hsep
      exact hsep
    | none =>
      simp only [hpipe, hspace] at hsep ⊢
      split at hsep
      · next hc => rwa [if_pos hc]
      · next hc =>
        rw [if_neg hc]
        split at hsep
        · next hd => rwa [if_pos hd]
        · next hd =>
          rw [if_neg hd]
          split at hsep
          · next hy => rwa [if_pos ⟨hy.1, hasToolMarkupNamePrefix_cut hy.2⟩]
          · -- what is read behind a hyphen that counts for nothing is an artefact
            have hno : ¬ ((t.drop i).head? = some '-'.toUInt8 ∨ (t.drop i).head? = some '_'.toUInt8) := by
              intro hy
              rw [artifact_hyphen hy] at hsep
              split at hsep <;> cases hsep
            rwa [if_neg fun hy => hno hy.1]

/-! The walk over the beginning. -/

/-- Reading on from before the cut to a name, the walk over the first part answers that more is
    to come. -/
theorem partial_of_reads (h : Halves t u) {s r : Nat × Bool}
    (hread : ReadsTo (toLower (t ++ u)) (t ++ u) s r) (hs : s.1 ≤ t.length) {name : Bytes}
    (hname : name ∈ toolMarkupNames) (hat : hasPrefix ((toLower (t ++ u)).drop r.1) name = true) :
    loop (fun s => t.length - s.1) (isPartialTurn (toLower t) t) s = some true := by
  have hloop := isPartialTurn_decreases (toLower t) t
  induction hread with
  | @stop s hsep =>
    refine hloop.loop_done ?_
    unfold isPartialTurn
    rw [if_neg (Nat.not_lt_of_le hs)]
    by_cases hend : s.1 = t.length
    · rw [if_pos hend]
    · have htail : hasToolMarkupNamePrefix ((toLower t).drop s.1) = true := by
        refine hasToolMarkupNamePrefix_cut (v := toLower u) (List.any_eq_true.mpr ⟨name, hname, ?_⟩)
        rw [← lower_cut h hs, hat, Bool.true_or]
      rw [if_neg hend, sliceFrom_eq_some_iff.mpr ⟨by rw [h.length]; exact hs, rfl⟩]
      simp only [Option.bind_eq_bind, Option.bind_some, htail, if_true]
      rfl
  | @next s r j hsep hread ih =>
    by_cases hend : s.1 = t.length
    · refine hloop.loop_done ?_
      unfold isPartialTurn
      rw [if_neg (Nat.not_lt_of_le hs), if_pos hend]
    · have hlt : s.1 < t.length := by omega
      have hslice : sliceFrom (toLower t) s.1 = some ((toLower t).drop s.1) :=
        sliceFrom_eq_some_iff.mpr ⟨by rw [h.length]; exact hs, rfl⟩
      by_cases hprefix : hasToolMarkupNamePrefix ((toLower t).drop s.1) = true ∨
          hasToolMarkupDSMLPrefixPrefix ((toLower t).drop s.1) = true
      · refine hloop.loop_done ?_
        unfold isPartialTurn
        rw [if_neg (Nat.not_lt_of_le hs), if_neg hend, hslice]
        simp only [Option.bind_eq_bind, Option.bind_some]
        split_ifs with hn hd
        · rfl
        · rfl
        · exact absurd hprefix (not_or.mpr ⟨hn, hd⟩)
      · obtain ⟨hn, hd⟩ := not_or.mp hprefix
        have hfirst := separatorEnd_cut h hlt hsep (Bool.eq_false_iff.mpr hd)
        have hle := separatorEnd_le hfirst
        rw [h.length, max_self] at hle
        have honce : consumeToolMarkupNamePrefixOnce (toLower t) t s.1 s.2 = some (some j) := by
          refine (once_of_separatorEnd (by rw [h.length]; exact hs) fun k hk _ => ?_).trans
            (congrArg some hfirst)
          rw [hfirst] at hk
          cases hk
          rw [h.length]
          exact hle
        have hturn : isPartialTurn (toLower t) t s = some (.next (j, true)) := by
          unfold isPartialTurn
          rw [if_neg (Nat.not_lt_of_le hs), if_neg hend, hslice]
          simp only [Option.bind_eq_bind, Option.bind_some, hn, hd, honce]
          rfl
        rw [hloop.loop_eq, hturn]
        exact ih hle hat

/-- A tag the whole text starts with is expected behind the first part. -/
theorem isPartial_of_scan (h : Halves t u) (hhead : t.head? = some '<'.toUInt8)
    (hopen : contains t (lit ">") = false) {tag : ToolMarkupTag}
    (hscan : scanToolMarkupTagAt (t ++ u) 0 = some (some tag)) :
    isPartialToolMarkupTagPrefix t = some true := by
  have hlt : ((t ++ u).drop 0).head? = some '<'.toUInt8 := by
    cases t with
    | nil => cases hhead
    | cons b t => exact hhead
  obtain ⟨r, hread, hle, -⟩ := readsTo_of_scan hlt hscan
  obtain ⟨found, hfound, hshown⟩ := hread.scan hlt hle
  rw [hscan] at hfound
  cases hfound
  obtain ⟨-, hfind, -⟩ := hshown tag rfl
  have hname := List.mem_of_find?_eq_some hfind
  have hat := List.find?_some hfind
  unfold isPartialToolMarkupTagPrefix
  rw [if_neg (not_or.mpr ⟨not_not.mpr hhead, by rw [hopen]; exact Bool.false_ne_true⟩)]
  dsimp only
  by_cases hall : countLeadingLessThan t ≥ t.length
  · rw [if_pos hall]
  · -- the brackets and the slash lie before the cut
    rw [if_neg hall]
    have hlen : countLeadingLessThan t < t.length := Nat.lt_of_not_le hall
    have hcount : countLeadingLessThan (t ++ u) = countLeadingLessThan t := by
      unfold countLeadingLessThan at hlen ⊢
      rw [List.takeWhile_append, if_neg (Nat.ne_of_lt hlen)]
    have hstart : bracketEnd (t ++ u) 0 =
        if (t.drop (countLeadingLessThan t)).head? = some '/'.toUInt8 then countLeadingLessThan t + 1
        else countLeadingLessThan t := by
      unfold bracketEnd
      simp only [List.drop_zero, Nat.zero_add, hcount, head_cut hlen, beq_iff_eq]
    rw [hstart] at hread
    refine partial_of_reads h hread ?_ hname hat
    split_ifs
    · exact hlen
    · exact Nat.le_of_lt hlen

end Cut

/-! Where the sieve looks for the beginning. -/

/-- The run of brackets a text starts with. -/
theorem brackets_split : ∀ t : Bytes,
    ∃ k, t = List.replicate k '<'.toUInt8 ++ t.dropWhile (· == '<'.toUInt8)
  | [] => ⟨0, rfl⟩
  | b :: t => by
    by_cases hb : b = '<'.toUInt8
    · obtain ⟨k, hk⟩ := brackets_split t
      refine ⟨k + 1, ?_⟩
      have hpos : (b == '<'.toUInt8) = true := beq_iff_eq.mpr hb
      rw [List.dropWhile_cons, if_pos hpos, List.replicate_succ, List.cons_append, ← hk, hb]
    · refine ⟨0, ?_⟩
      have hneg : ¬(b == '<'.toUInt8) = true := fun h => hb (beq_iff_eq.mp h)
      rw [List.dropWhile_cons, if_neg hneg]
      rfl

theorem lastIndex_brackets {w : Bytes} (hw : '<'.toUInt8 ∉ w) : ∀ k : Nat,
    lastIndex (List.replicate (k + 1) '<'.toUInt8 ++ w) (lit "<") = some k
  | 0 => by
    have hnone : lastIndex w (lit "<") = none := lastIndex_eq_none hw
    rw [show List.replicate (0 + 1) '<'.toUInt8 ++ w = '<'.toUInt8 :: w from rfl, lastIndex, hnone]
    rfl
  | k + 1 => by
    rw [List.replicate_succ, List.cons_append, lastIndex, lastIndex_brackets hw k]

/-- The brackets of a run all belong to one beginning. -/
theorem includeDuplicateLeadingLessThan_run {front : Bytes}
    (hfront : front.getLast? ≠ some '<'.toUInt8) (w : Bytes) (n : Nat) : ∀ k ≤ n,
    includeDuplicateLeadingLessThan (front ++ (List.replicate n '<'.toUInt8 ++ w)) (front.length + k) =
      front.length
  | 0, _ => by
    rcases List.eq_nil_or_concat front with rfl | ⟨q, c, rfl⟩
    · rfl
    · rw [List.concat_eq_append] at hfront ⊢
      rw [List.getLast?_append, List.getLast?_singleton, Option.some_or] at hfront
      have hhead : ((q ++ [c] ++ (List.replicate n '<'.toUInt8 ++ w)).drop q.length).head? = some c := by
        rw [List.append_assoc, List.drop_left]
        rfl
      rw [Nat.add_zero, List.length_append, List.length_singleton, includeDuplicateLeadingLessThan,
        hhead, if_neg hfront]
  | k + 1, hk => by
    have hhead : ((front ++ (List.replicate n '<'.toUInt8 ++ w)).drop (front.length + k)).head? =
        some '<'.toUInt8 := by
      rw [← List.drop_drop, List.drop_left, List.drop_append_of_le_length
        (by rw [List.length_replicate]; omega), List.drop_replicate]
      obtain ⟨m, hm⟩ := Nat.exists_eq_add_of_lt (show k < n by omega)
      rw [show n - k = m + 1 by omega]
      rfl
    rw [← Nat.add_assoc, includeDuplicateLeadingLessThan, if_pos hhead]
    exact includeDuplicateLeadingLessThan_run hfront w n k (by omega)

/-- A text cut at a rune whose whole starts with a tag: the first part is recognised as the
    beginning of one, and the sieve finds it behind whatever it has not said yet. -/
theorem partial_tag_kept {t u : Bytes} (hcut : CutAtRune t u) (hkeeps : KeepsOffsets (t ++ u))
    (hhead : t.head? = some '<'.toUInt8) (hopen : contains t (lit ">") = false)
    (hrun : '<'.toUInt8 ∉ t.dropWhile (· == '<'.toUInt8)) {tag : ToolMarkupTag}
    (hscan : scanToolMarkupTagAt (t ++ u) 0 = some (some tag)) :
    isPartialToolMarkupTagPrefix t = some true ∧
      ∀ front : Bytes, front.getLast? ≠ some '<'.toUInt8 →
        findPartialXMLToolTagStart (front ++ t) = some (some front.length) := by
  have hbegun := isPartial_of_scan (halves hkeeps hcut) hhead hopen hscan
  refine ⟨hbegun, fun front hfront => ?_⟩
  obtain ⟨k, hk⟩ : ∃ k, t = List.replicate (k + 1) '<'.toUInt8 ++ t.dropWhile (· == '<'.toUInt8) := by
    obtain ⟨n, hn⟩ := brackets_split t
    cases n with
    | zero =>
      -- a text without a run in front has no bracket at all
      have hmem : '<'.toUInt8 ∈ t := List.mem_of_head? hhead
      rw [hn] at hmem
      exact absurd hmem hrun
    | succ k => exact ⟨k, hn⟩
  have hlast : lastIndex t (lit "<") = some k := by
    rw [hk]
    exact lastIndex_brackets hrun k
  have hstart : includeDuplicateLeadingLessThan (front ++ t) (front.length + k) = front.length := by
    rw [hk]
    exact includeDuplicateLeadingLessThan_run hfront _ (k + 1) k (Nat.le_succ k)
  unfold findPartialXMLToolTagStart
  simp only [lastIndex_append hlast front, hstart, List.drop_left, hopen, hbegun,
    Bool.false_eq_true, if_false, Option.map_some, if_true]

theorem partial_tag_dsml : isPartialToolMarkupTagPrefix (lit "<|DS") = some true ∧
    ∀ front : Bytes, front.getLast? ≠ some '<'.toUInt8 →
      findPartialXMLToolTagStart (front ++ lit "<|DS") = some (some front.length) :=
  partial_tag_kept (u := lit "ML|invoke>") (by decide +kernel) (by decide +kernel) (by decide) (by decide)
    (by decide)
    (show scanToolMarkupTagAt (lit "<|DS" ++ lit "ML|invoke>") 0 =
      some (some ⟨0, 13, 7, 13, lit "invoke", false, false, true, false⟩) by decide +kernel)

end DeepSeekWebToApi.Toolstream
