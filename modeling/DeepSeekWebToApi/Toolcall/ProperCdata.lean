import DeepSeekWebToApi.Lib.RuneText
import DeepSeekWebToApi.Toolcall.Folding

/- What `SanitizeLooseCDATA` leaves alone.

   The repair comes to a section, looks for its close `]]>`, and takes a `]]` right before
   a tag for the close where that comes first. A text is returned unchanged exactly when
   every section the repair comes to closes with `]]>` before any such `]]`
   (`sanitize_untouched_iff`): a first repair puts a `>` where the text has `<`, or drops an
   opener, and what is written is never taken back (`Grown`). -/
namespace DeepSeekWebToApi.Toolcall
open GoStrings GoLoop

/-- The offset of the `]]>` a section ends with, unless a tag is taken for its end. -/
def properClose (content : Bytes) : Option Nat :=
  (index content (lit "]]>")).filter (fun p => (findLooseCDATAClose content).all (p ≤ ·))

/-- A CDATA opener in any letter case. -/
def OpenerAt (text : Bytes) (i : Nat) : Prop :=
  hasPrefix ((text.drop i).map lowerAscii) (lit "<![cdata[") = true

/-- Every opener is followed by a `]]>` before the next opener. -/
def ClosedSections (text : Bytes) : Prop :=
  ∀ i, OpenerAt text i → ∃ j, i + 9 ≤ j ∧ hasPrefix (text.drop j) (lit "]]>") = true ∧
    ∀ k, i < k → OpenerAt text k → j < k

/-- Every section the repair comes to lies in the text and closes properly: the lower-cased copy
    is long enough to look for it, the opener it shows ends in the text, and the `]]>` behind it
    comes before every `]]` that stands right before a tag. -/
def Undisturbed (text : Bytes) : Prop :=
  ∀ pos, Resumes text pos → pos < text.length → pos ≤ (toLower text).length ∧
    ∀ rel, index ((toLower text).drop pos) (lit "<![cdata[") = some rel →
      pos + rel + 9 ≤ text.length ∧ properClose (text.drop (pos + rel + 9)) ≠ none

/-! One turn. -/

section Turn
variable {text : Bytes} {s : Sanitize} {rel : Nat}

/-- The state behind a section whose opener stands `rel` bytes further on. -/
def behindSection (text : Bytes) (s : Sanitize) (rel : Nat) : Sanitize :=
  let start := s.pos + rel
  let content := text.drop (start + 9)
  match properClose content, findLooseCDATAClose content with
  | some p, _ => { s with pos := start + 9 + p + 3,
                          out := s.out ++ (text.drop s.pos).take (rel + (9 + p + 3)) }
  | none, some l => { pos := start + 9 + l + 2, changed := true,
                      out := s.out ++ (text.drop s.pos).take (rel + (9 + l)) ++ lit "]]>" }
  | none, none => { pos := text.length, changed := true,
                    out := s.out ++ (text.drop s.pos).take rel ++ content }

theorem take_drop_append (t : Bytes) (i a b : Nat) :
    (t.drop i).take a ++ (t.drop (i + a)).take b = (t.drop i).take (a + b) := by
  rw [← List.drop_drop, ← List.take_add]

theorem properClose_bound {content : Bytes} {p : Nat} (h : properClose content = some p) :
    p + 3 ≤ content.length :=
  le_length_of_hasPrefix_drop (by decide) (index_hasPrefix (Option.filter_eq_some_iff.mp h).1)

theorem sanitizeTurn_at (hlt : s.pos < text.length) (hpos : s.pos ≤ (toLower text).length)
    (hopen : index ((toLower text).drop s.pos) (lit "<![cdata[") = some rel)
    (hend : s.pos + rel + 9 ≤ text.length) :
    sanitizeTurn text (toLower text) s = some (.next (behindSection text s rel)) := by
  have hbefore : slice text s.pos (s.pos + rel) = some ((text.drop s.pos).take rel) := by
    rw [slice, if_pos (by omega), Nat.add_sub_cancel_left]
  have hpiece : ∀ {n : Nat}, 9 + n ≤ 9 + (text.drop (s.pos + rel + 9)).length →
      slice text (s.pos + rel) (s.pos + rel + 9 + n) = some ((text.drop (s.pos + rel)).take (9 + n)) := by
    intro n hn
    rw [List.length_drop] at hn
    rw [slice, if_pos (by omega), show s.pos + rel + 9 + n - (s.pos + rel) = 9 + n by omega]
  unfold sanitizeTurn behindSection
  simp only [if_neg (Nat.not_le_of_lt hlt), sliceFrom_eq_some_iff.mpr ⟨hpos, rfl⟩,
    sliceFrom_eq_some_iff.mpr ⟨hend, rfl⟩, hopen, hbefore, Option.bind_eq_bind, Option.bind_some]
  generalize hcontent : text.drop (s.pos + rel + 9) = content at hpiece ⊢
  have hproper : (index content (lit "]]>")).filter
      (fun p => (findLooseCDATAClose content).all (p ≤ ·)) = properClose content := rfl
  rw [hproper]
  cases hp : properClose content with
  | some p =>
    have hbound := properClose_bound hp
    have hslice := hpiece (n := p + 3) (by omega)
    rw [← Nat.add_assoc] at hslice
    simp only [hslice, Option.bind_some, List.append_assoc]
    rw [take_drop_append, Nat.add_assoc 9]
    rfl
  | none =>
    cases hl : findLooseCDATAClose content with
    | none => rfl
    | some l =>
      have hbound := findLooseCDATAClose_le hl
      simp only [hpiece (n := l) (by omega), Option.bind_some, List.append_assoc]
      rw [← List.append_assoc ((text.drop s.pos).take rel), take_drop_append]
      rfl

theorem sanitizeTurn_rest (hlt : s.pos < text.length) (hpos : s.pos ≤ (toLower text).length)
    (hopen : index ((toLower text).drop s.pos) (lit "<![cdata[") = none) :
    sanitizeTurn text (toLower text) s = some (.done { s with out := s.out ++ text.drop s.pos }) := by
  unfold sanitizeTurn
  simp only [if_neg (Nat.not_le_of_lt hlt), sliceFrom_eq_some_iff.mpr ⟨hpos, rfl⟩, hopen,
    Option.bind_eq_bind, Option.bind_some]
  rfl

/-- A turn that does not panic finds the copy long enough and the opener in the text. -/
theorem sanitizeTurn_range (hlt : s.pos < text.length)
    (h : sanitizeTurn text (toLower text) s ≠ none) : s.pos ≤ (toLower text).length ∧
      ∀ rel, index ((toLower text).drop s.pos) (lit "<![cdata[") = some rel →
        s.pos + rel + 9 ≤ text.length := by
  have hpos : s.pos ≤ (toLower text).length := by
    by_contra hlong
    refine h ?_
    unfold sanitizeTurn
    rw [if_neg (Nat.not_le_of_lt hlt), sliceFrom, if_neg hlong]
    rfl
  exact ⟨hpos, (sanitizeTurn_ne_none_iff hlt hpos).mp h⟩

end Turn

/-! Whole repairs. -/

section Repair
variable {text : Bytes}

/-- The loop of `SanitizeLooseCDATA`. -/
def repairFrom (text : Bytes) (s : Sanitize) : Option Sanitize :=
  loop (fun s => text.length - s.pos) (sanitizeTurn text (toLower text)) s

theorem sectionClose_proper {content : Bytes} {p : Nat} (h : properClose content = some p) :
    sectionClose content = some (p + 3) := by
  have hproper : (index content (lit "]]>")).filter
      (fun p => (findLooseCDATAClose content).all (p ≤ ·)) = some p := h
  unfold sectionClose
  simp only [hproper]

theorem behindSection_proper {s : Sanitize} {rel p : Nat}
    (h : properClose (text.drop (s.pos + rel + 9)) = some p) :
    behindSection text s rel =
      { s with pos := s.pos + rel + 9 + p + 3
               out := s.out ++ (text.drop s.pos).take (rel + (9 + p + 3)) } := by
  unfold behindSection
  simp only [h]

/-- In a text without disturbance nothing is repaired. -/
theorem Undisturbed.turn (h : Undisturbed text) {s : Sanitize} (hpos : Resumes text s.pos ∨ text.length ≤ s.pos) :
    ∃ t : Sanitize, (sanitizeTurn text (toLower text) s = some (.done t) ∨
      sanitizeTurn text (toLower text) s = some (.next t) ∧ Resumes text t.pos) ∧ t.changed = s.changed := by
  by_cases hlt : s.pos < text.length
  · have hres := hpos.resolve_right (Nat.not_le_of_lt hlt)
    obtain ⟨hcopy, hsections⟩ := h s.pos hres hlt
    cases hopen : index ((toLower text).drop s.pos) (lit "<![cdata[") with
    | none => exact ⟨_, Or.inl (sanitizeTurn_rest hlt hcopy hopen), rfl⟩
    | some rel =>
      obtain ⟨hend, hproper⟩ := hsections rel hopen
      obtain ⟨p, hp⟩ := Option.ne_none_iff_exists'.mp hproper
      have hturn := sanitizeTurn_at hlt hcopy hopen hend
      rw [behindSection_proper hp] at hturn
      exact ⟨_, Or.inr ⟨hturn, Resumes.next hres hlt hopen (sectionClose_proper hp)⟩, rfl⟩
  · exact ⟨_, Or.inl (sanitizeTurn_of_le (Nat.le_of_not_lt hlt)), rfl⟩

theorem Undisturbed.visits (h : Undisturbed text) {s : Sanitize}
    (hs : Visits (sanitizeTurn text (toLower text)) {} s) :
    s.changed = false ∧ (Resumes text s.pos ∨ text.length ≤ s.pos) := by
  induction hs with
  | refl => exact ⟨rfl, Or.inl .start⟩
  | @tail s t _ hstep ih =>
    obtain ⟨t', hdone | ⟨hnext, hres⟩, hchanged⟩ := h.turn ih.2
    · cases hdone.symm.trans hstep
    · cases hnext.symm.trans hstep
      exact ⟨hchanged.trans ih.1, Or.inl hres⟩

theorem Undisturbed.untouched (h : Undisturbed text) : sanitizeLooseCDATA text = some text := by
  have hturn : ∀ s, Visits (sanitizeTurn text (toLower text)) {} s →
      sanitizeTurn text (toLower text) s ≠ none := by
    intro s hs
    obtain ⟨t, hdone | ⟨hnext, -⟩, -⟩ := h.turn (h.visits hs).2
    · exact Option.ne_none_iff_exists'.mpr ⟨_, hdone⟩
    · exact Option.ne_none_iff_exists'.mpr ⟨_, hnext⟩
  obtain ⟨r, hr⟩ := Option.ne_none_iff_exists'.mp
    ((sanitizeTurn_decreases text (toLower text)).loop_ne_none_iff.mpr hturn)
  have hsame : r.changed = false := by
    refine loop_inv (I := fun s => Visits (sanitizeTurn text (toLower text)) {} s)
      (Q := fun r => r.changed = false) (fun s t hs ht => hs.tail ht) ?_ .refl hr
    intro s r hs hdone
    obtain ⟨hchanged, hpos⟩ := h.visits hs
    obtain ⟨t, hlast | ⟨hnext, -⟩, hkept⟩ := h.turn hpos
    · cases hlast.symm.trans hdone
      exact hkept.trans hchanged
    · cases hnext.symm.trans hdone
  unfold sanitizeLooseCDATA
  rw [hr]
  simp only [hsame, Option.bind_eq_bind, Option.bind_some, Bool.false_eq_true, if_false]
  rfl

/-- What is written stays, and a repair is not forgotten. -/
structure Grown (t s : Sanitize) : Prop where
  out : t.out <+: s.out
  changed : t.changed = true → s.changed = true

theorem behindSection_grown (s : Sanitize) (rel : Nat) : Grown s (behindSection text s rel) := by
  unfold behindSection
  dsimp only
  split
  · exact ⟨List.prefix_append _ _, id⟩
  · exact ⟨by rw [List.append_assoc]; exact List.prefix_append _ _, fun _ => rfl⟩
  · exact ⟨by rw [List.append_assoc]; exact List.prefix_append _ _, fun _ => rfl⟩

theorem sanitizeTurn_grown {s : Sanitize} {turn : Turn Sanitize Sanitize}
    (h : sanitizeTurn text (toLower text) s = some turn) : Grown s turn.state := by
  by_cases hlt : s.pos < text.length
  · obtain ⟨hcopy, hend⟩ := sanitizeTurn_range hlt (by rw [h]; exact Option.some_ne_none _)
    cases hopen : index ((toLower text).drop s.pos) (lit "<![cdata[") with
    | none =>
      rw [sanitizeTurn_rest hlt hcopy hopen] at h
      cases h
      exact ⟨List.prefix_append _ _, id⟩
    | some rel =>
      rw [sanitizeTurn_at hlt hcopy hopen (hend rel hopen)] at h
      cases h
      exact behindSection_grown s rel
  · rw [sanitizeTurn_of_le (Nat.le_of_not_lt hlt)] at h
    cases h
    exact ⟨List.prefix_rfl, id⟩

theorem repairFrom_grown {t r : Sanitize} (h : repairFrom text t = some r) : Grown t r := by
  refine loop_inv (I := Grown t) (Q := Grown t) ?_ ?_ ⟨List.prefix_rfl, id⟩ h
  · intro s u hs hu
    have hstep := sanitizeTurn_grown hu
    exact ⟨hs.out.trans hstep.out, fun hc => hstep.changed (hs.changed hc)⟩
  · intro s u hs hu
    have hstep := sanitizeTurn_grown hu
    exact ⟨hs.out.trans hstep.out, fun hc => hstep.changed (hs.changed hc)⟩

theorem findLooseCDATAClose_hasPrefix : ∀ {content : Bytes} {l : Nat},
    findLooseCDATAClose content = some l → hasPrefix (content.drop l) (lit "]]<") = true
  | b :: content, l, h => by
    unfold findLooseCDATAClose at h
    split at h
    · next hp =>
      cases h
      exact (Bool.and_eq_true_iff.mp hp).1
    · obtain ⟨k, hk, rfl⟩ := Option.map_eq_some_iff.mp h
      have ih := findLooseCDATAClose_hasPrefix hk
      exact ih

/-- Behind a section that does not close properly the repair no longer gives the text back. -/
theorem spoilt {s r : Sanitize} {rel : Nat} (hout : s.out = text.take s.pos)
    (hend : s.pos + rel + 9 ≤ text.length) (hproper : properClose (text.drop (s.pos + rel + 9)) = none)
    (hr : repairFrom text (behindSection text s rel) = some r) : r.changed = true ∧ r.out ≠ text := by
  have hgrown := repairFrom_grown hr
  have hbefore : ∀ n, s.out ++ (text.drop s.pos).take n = text.take (s.pos + n) := by
    intro n
    rw [hout, ← List.take_add]
  unfold behindSection at hr hgrown
  simp only [hproper] at hr hgrown
  cases hl : findLooseCDATAClose (text.drop (s.pos + rel + 9)) with
  | some l =>
    simp only [hl, hbefore] at hgrown
    refine ⟨hgrown.changed rfl, ?_⟩
    rintro rfl
    -- the `>` that was put in stands where the text has the bracket of the tag
    have hloose := findLooseCDATAClose_hasPrefix hl
    have hle := findLooseCDATAClose_le hl
    rw [List.length_drop] at hle
    obtain ⟨rest, hrest⟩ := hgrown.out
    have hat : r.out.drop (s.pos + (rel + (9 + l))) = lit "]]>" ++ rest := by
      rw [← hrest, List.append_assoc]
      exact List.drop_left' (List.length_take_of_le (by omega))
    rw [List.drop_drop, show s.pos + rel + 9 + l = s.pos + (rel + (9 + l)) by omega, hat] at hloose
    have hno : hasPrefix (lit "]]>" ++ rest) (lit "]]<") = false := rfl
    rw [hno] at hloose
    cases hloose
  | none =>
    simp only [hl, hbefore] at hr
    rw [repairFrom, (sanitizeTurn_decreases _ _).loop_done (sanitizeTurn_of_le (Nat.le_refl _))] at hr
    cases hr
    refine ⟨rfl, fun heq => ?_⟩
    have hlen := congrArg List.length heq
    rw [List.length_append, List.length_take_of_le (by omega), List.length_drop] at hlen
    omega

/-- In a text that is given back the next section closes properly. -/
theorem proper_of_untouched (h : sanitizeLooseCDATA text = some text) {s : Sanitize}
    (hs : Visits (sanitizeTurn text (toLower text)) {} s) (hout : s.out = text.take s.pos)
    (hlt : s.pos < text.length) : s.pos ≤ (toLower text).length ∧
      ∀ rel, index ((toLower text).drop s.pos) (lit "<![cdata[") = some rel →
        s.pos + rel + 9 ≤ text.length ∧ properClose (text.drop (s.pos + rel + 9)) ≠ none := by
  obtain ⟨r, hr, hback⟩ := Option.bind_eq_some_iff.mp h
  have hloop := sanitizeTurn_decreases text (toLower text)
  have hturn := hloop.loop_ne_none_iff.mp (by rw [hr]; exact Option.some_ne_none _) s hs
  obtain ⟨hcopy, hend⟩ := sanitizeTurn_range hlt hturn
  refine ⟨hcopy, fun rel hopen => ⟨hend rel hopen, fun hproper => ?_⟩⟩
  have hstep := sanitizeTurn_at hlt hcopy hopen (hend rel hopen)
  rw [hloop.loop_visits (hs.tail hstep)] at hr
  obtain ⟨hchanged, hne⟩ := spoilt hout (hend rel hopen) hproper hr
  rw [hchanged] at hback
  exact hne (Option.some.inj hback)

/-- A text that is given back is written as it was read. -/
theorem untouched_visits (h : sanitizeLooseCDATA text = some text) {pos : Nat}
    (hpos : Resumes text pos) : ∃ s, Visits (sanitizeTurn text (toLower text)) {} s ∧
      s.pos = pos ∧ s.out = text.take pos := by
  induction hpos with
  | start => exact ⟨{}, .refl, rfl, rfl⟩
  | @next pos rel e _ hlt hopen hclose ih =>
    obtain ⟨s, hs, rfl, hout⟩ := ih
    obtain ⟨hcopy, hsections⟩ := proper_of_untouched h hs hout hlt
    obtain ⟨hend, hproper⟩ := hsections rel hopen
    obtain ⟨p, hp⟩ := Option.ne_none_iff_exists'.mp hproper
    have hstep := sanitizeTurn_at hlt hcopy hopen hend
    rw [sectionClose_proper hp] at hclose
    cases hclose
    rw [behindSection_proper hp] at hstep
    refine ⟨_, hs.tail hstep, rfl, ?_⟩
    show s.out ++ (text.drop s.pos).take (rel + (9 + p + 3)) = text.take (s.pos + rel + 9 + (p + 3))
    rw [hout, ← List.take_add]
    congr 1
    omega

end Repair

/-- The repair gives a text back exactly when every section it comes to closes properly. -/
theorem untouched_iff (text : Bytes) : sanitizeLooseCDATA text = some text ↔ Undisturbed text := by
  refine ⟨fun h pos hpos hlt => ?_, Undisturbed.untouched⟩
  obtain ⟨s, hs, rfl, hout⟩ := untouched_visits h hpos
  exact proper_of_untouched h hs hout hlt

/-! Texts whose lower-cased copy is in step. -/

section InStep
variable {text : Bytes}

theorem folds_hasPrefix : ∀ {p s t : Bytes}, Folds s t → (∀ c ∈ p, c.toNat < 0x80) →
    hasPrefix t p = hasPrefix (s.map lowerAscii) p
  | [], _, _, _, _ => by rw [hasPrefix, hasPrefix, List.isPrefixOf_nil_left, List.isPrefixOf_nil_left]
  | _ :: _, _, _, .nil, _ => rfl
  | c :: p, a :: s, b :: t, .cons hab h, hp => by
    obtain ⟨hc, hp⟩ := List.forall_mem_cons.mp hp
    have ih := folds_hasPrefix h hp
    rw [hasPrefix, hasPrefix] at ih
    rw [hasPrefix, hasPrefix, List.map_cons, List.isPrefixOf_cons_cons, List.isPrefixOf_cons_cons, ih]
    rcases hab with ⟨-, rfl⟩ | ⟨ha, hb⟩
    · rfl
    · -- outside ASCII neither byte is one of the opener
      have hlower : lowerAscii a = a := by
        have hupper : within 0x41 0x5A a = false := by
          simp only [within, Bool.and_eq_false_iff, decide_eq_false_iff_not]
          omega
        rw [lowerAscii, hupper]
        rfl
      have hne : ∀ d : UInt8, 0x80 ≤ d.toNat → (c == d) = false := by
        intro d hd
        rw [beq_eq_false_iff_ne]
        rintro rfl
        omega
      rw [hlower, hne a ha, hne b hb]

theorem openerAt_iff (h : Folds text (toLower text)) (i : Nat) :
    hasPrefix ((toLower text).drop i) (lit "<![cdata[") = true ↔ OpenerAt text i := by
  rw [folds_hasPrefix (h.drop i) (by decide +kernel), OpenerAt]

theorem OpenerAt.le {i : Nat} (h : OpenerAt text i) : i + 9 ≤ text.length := by
  have hlen := (List.isPrefixOf_iff_prefix.mp h).length_le
  rw [List.length_map, List.length_drop] at hlen
  have hnine : (lit "<![cdata[").length = 9 := rfl
  omega

theorem OpenerAt.head {i : Nat} (h : OpenerAt text i) : (text.drop i).head? = some '<'.toUInt8 := by
  obtain ⟨rest, hrest⟩ := List.isPrefixOf_iff_prefix.mp h
  cases hd : text.drop i with
  | nil =>
    rw [hd] at hrest
    cases hrest
  | cons b w =>
    rw [hd] at hrest
    have hb : lowerAscii b = '<'.toUInt8 := (List.cons.inj hrest).1.symm
    have hbytes : ∀ n : Fin 256, lowerAscii (UInt8.ofNat n) = '<'.toUInt8 →
        UInt8.ofNat n = '<'.toUInt8 := by decide +kernel
    have hlt := hbytes ⟨b.toNat, b.toNat_lt⟩
    rw [UInt8.ofNat_toNat] at hlt
    rw [hlt hb]
    rfl

/-- A close that stands before an opener ends before it. -/
theorem close_before_opener {i j : Nat} (hj : hasPrefix (text.drop j) (lit "]]>") = true)
    (hi : OpenerAt text i) (hlt : j < i) : j + 3 ≤ i := by
  obtain ⟨rest, hrest⟩ := List.isPrefixOf_iff_prefix.mp hj
  have hhead : ∀ k, (text.drop (j + k)).head? = ((lit "]]>" ++ rest).drop k).head? := by
    intro k
    rw [← List.drop_drop, hrest]
  by_contra hshort
  obtain ⟨k, rfl⟩ := Nat.exists_eq_add_of_lt hlt
  have hopener := hi.head
  rw [Nat.add_assoc, hhead] at hopener
  have hk : k = 0 ∨ k = 1 := by omega
  rcases hk with rfl | rfl
  · have hne : some ']'.toUInt8 = some '<'.toUInt8 := hopener
    exact absurd hne (by decide)
  · have hne : some '>'.toUInt8 = some '<'.toUInt8 := hopener
    exact absurd hne (by decide)

theorem index_le {content : Bytes} {j : Nat} (h : hasPrefix (content.drop j) (lit "]]>") = true) :
    ∃ p ≤ j, index content (lit "]]>") = some p := by
  cases hp : index content (lit "]]>") with
  | none =>
    rw [index_eq_none_iff.mp hp j] at h
    cases h
  | some p =>
    refine ⟨p, ?_, rfl⟩
    by_contra hlt
    rw [(index_eq_some_iff.mp hp).2 j (by omega)] at h
    cases h

/-- Where every opener has its close before the next one, the repair comes to every opener. -/
theorem Undisturbed.reaches (h : Undisturbed text) (hfolds : Folds text (toLower text))
    (hclosed : ClosedSections text) {i pos : Nat} (hi : OpenerAt text i) (hpos : Resumes text pos)
    (hle : pos ≤ i) : ∃ pos rel, Resumes text pos ∧ pos < text.length ∧
      index ((toLower text).drop pos) (lit "<![cdata[") = some rel ∧ pos + rel = i := by
  have hend := hi.le
  induction hn : i - pos using Nat.strongRecOn generalizing pos with
  | _ n ih =>
    have hlt : pos < text.length := by omega
    have hat : hasPrefix (((toLower text).drop pos).drop (i - pos)) (lit "<![cdata[") = true := by
      rw [List.drop_drop, Nat.add_sub_cancel' hle]
      exact (openerAt_iff hfolds i).mpr hi
    cases hopen : index ((toLower text).drop pos) (lit "<![cdata[") with
    | none =>
      rw [index_eq_none_iff.mp hopen] at hat
      cases hat
    | some rel =>
      have hrel : rel ≤ i - pos := by
        by_contra hgt
        rw [(index_eq_some_iff.mp hopen).2 _ (by omega)] at hat
        cases hat
      by_cases heq : pos + rel = i
      · exact ⟨pos, rel, hpos, hlt, hopen, heq⟩
      · -- the section before ends before the opener, so the search goes on from there
        have hbefore : OpenerAt text (pos + rel) := by
          rw [← openerAt_iff hfolds, ← List.drop_drop]
          exact index_hasPrefix hopen
        obtain ⟨j, hj, hclose, hnext⟩ := hclosed (pos + rel) hbefore
        have hji := hnext i (by omega) hi
        obtain ⟨hin, hproper⟩ := (h pos hpos hlt).2 rel hopen
        obtain ⟨p, hp⟩ := Option.ne_none_iff_exists'.mp hproper
        have hindex := (Option.filter_eq_some_iff.mp hp).1
        have hfirst : p ≤ j - (pos + rel + 9) := by
          have hthere : hasPrefix ((text.drop (pos + rel + 9)).drop (j - (pos + rel + 9))) (lit "]]>") = true := by
            rw [List.drop_drop, Nat.add_sub_cancel' hj]
            exact hclose
          obtain ⟨q, hq, hqe⟩ := index_le hthere
          rw [hindex] at hqe
          cases hqe
          exact hq
        have hbehind := close_before_opener (j := pos + rel + 9 + p)
          (by rw [← List.drop_drop]; exact index_hasPrefix hindex) hi (by omega)
        exact ih (i - (pos + rel + 9 + (p + 3))) (by omega)
          (Resumes.next hpos hlt hopen (sectionClose_proper hp)) (by omega) rfl

/-- Where the copy is in step, and every opener has its close before the next one, the sections
    the repair comes to are those of the text. -/
theorem undisturbed_iff (hfolds : Folds text (toLower text)) (hclosed : ClosedSections text) :
    Undisturbed text ↔ ∀ i, OpenerAt text i → properClose (text.drop (i + 9)) ≠ none := by
  constructor
  · intro h i hi
    obtain ⟨pos, rel, hpos, hlt, hopen, rfl⟩ := h.reaches hfolds hclosed hi .start (Nat.zero_le i)
    exact ((h pos hpos hlt).2 rel hopen).2
  · intro h pos hpos hlt
    refine ⟨by rw [hfolds.length_eq]; omega, fun rel hopen => ?_⟩
    have hat : OpenerAt text (pos + rel) := by
      rw [← openerAt_iff hfolds, ← List.drop_drop]
      exact index_hasPrefix hopen
    exact ⟨hat.le, h _ hat⟩

end InStep

/-- A text whose openers all have their close before the next one is given back exactly when no
    section is disturbed; where the lower-cased copy is in step this means that no section holds a
    `]]` right before a tag. -/
theorem sanitize_untouched_iff (text : Bytes) (hclosed : ClosedSections text) :
    (sanitizeLooseCDATA text = some text ↔ Undisturbed text) ∧
      (Folds text (toLower text) → (Undisturbed text ↔
        ∀ i, OpenerAt text i → properClose (text.drop (i + 9)) ≠ none)) :=
  ⟨untouched_iff text, fun hfolds => undisturbed_iff hfolds hclosed⟩

/-- Openers stand at offsets of the text, so that only these have to be looked at. -/
theorem closedSections_of_bounded {text : Bytes} (h : ∀ i < text.length, OpenerAt text i →
    ∃ j < text.length, i + 9 ≤ j ∧ hasPrefix (text.drop j) (lit "]]>") = true ∧
      ∀ k < text.length, i < k → OpenerAt text k → j < k) : ClosedSections text := by
  intro i hi
  have hle := hi.le
  obtain ⟨j, -, hj, hclose, hnext⟩ := h i (by omega) hi
  refine ⟨j, hj, hclose, fun k hik hk => ?_⟩
  have hkle := hk.le
  exact hnext k (by omega) hik hk

instance (text : Bytes) (i : Nat) : Decidable (OpenerAt text i) := inferInstanceAs (Decidable (_ = true))

theorem sanitize_untouched_plain :
    (sanitizeLooseCDATA (lit "<![CDATA[a<b]]>") = some (lit "<![CDATA[a<b]]>") ↔
      Undisturbed (lit "<![CDATA[a<b]]>")) ∧
      (Folds (lit "<![CDATA[a<b]]>") (toLower (lit "<![CDATA[a<b]]>")) →
        (Undisturbed (lit "<![CDATA[a<b]]>") ↔ ∀ i, OpenerAt (lit "<![CDATA[a<b]]>") i →
          properClose ((lit "<![CDATA[a<b]]>").drop (i + 9)) ≠ none)) :=
  sanitize_untouched_iff _ (closedSections_of_bounded (by decide +kernel))

theorem comparison_taken_for_close : ClosedSections (lit "<![CDATA[a[b[0]]<c]]>") ∧
    sanitizeLooseCDATA (lit "<![CDATA[a[b[0]]<c]]>") = some (lit "<![CDATA[a[b[0]]><c]]>") ∧
    lit "<![CDATA[a[b[0]]><c]]>" ≠ lit "<![CDATA[a[b[0]]<c]]>" :=
  ⟨closedSections_of_bounded (by decide +kernel), by decide +kernel, by decide⟩

end DeepSeekWebToApi.Toolcall
