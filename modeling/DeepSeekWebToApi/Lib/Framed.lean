import DeepSeekWebToApi.Lib.Text

/- Deleting words that stand in a frame: an opening byte first, a closing byte last, and
   neither of the two in between. Two such words never overlap, so a deletion is local; what
   it can do to another word is join its parts. `contains_delete_iff` says so: behind the
   deletion of `m` a word is found where it was found before, or where it was torn apart by
   copies of `m`. -/
namespace GoStrings

/-- A word in a frame. -/
def Framed (lo hi : UInt8) (m : Bytes) : Prop :=
  lo ≠ hi ∧ ∃ body, m = lo :: (body ++ [hi]) ∧ lo ∉ body ∧ hi ∉ body

/-- The copies of `m` are taken out from the left to the right. -/
inductive Deleted (m : Bytes) : Bytes → Bytes → Prop where
  | nil : Deleted m [] []
  | copy {t out : Bytes} (h : Deleted m t out) : Deleted m (m ++ t) out
  | keep {b : UInt8} {t out : Bytes} (hb : ¬ m <+: b :: t) (h : Deleted m t out) :
      Deleted m (b :: t) (b :: out)

/-- `u` with copies of `m` in front of some of its bytes. -/
inductive Spread (m : Bytes) : Bytes → Bytes → Prop where
  | nil : Spread m [] []
  | keep {b : UInt8} {u w : Bytes} (h : Spread m u w) : Spread m (b :: u) (b :: w)
  | copy {b : UInt8} {u w : Bytes} (h : Spread m (b :: u) w) : Spread m (b :: u) (m ++ w)

/-- Somewhere in the text a word is torn apart by copies of `m`. -/
def Torn (m word t : Bytes) : Prop :=
  ∃ b u w, word = b :: u ∧ Spread m u w ∧ w ≠ u ∧ (b :: w) <:+: t

/-! `strings.ReplaceAll` by nothing. -/

theorem replaceAll_drop (old : Bytes) : ∀ (k : Nat) (s : Bytes),
    replaceAllFrom old [] k s = replaceAllFrom old [] 0 (s.drop k)
  | 0, _ => rfl
  | k + 1, [] => rfl
  | k + 1, b :: s => by
    rw [replaceAllFrom, replaceAll_drop old k s, List.drop_succ_cons]

theorem replaceAll_deleted {m : Bytes} (hm : m ≠ []) : ∀ s : Bytes, Deleted m s (replaceAll s m [])
  | [] => .nil
  | b :: s => by
    rw [replaceAll, replaceAllFrom]
    split
    · next hpre =>
      obtain ⟨t, ht⟩ := List.isPrefixOf_iff_prefix.mp hpre
      have hrest : s.drop (m.length - 1) = t := by
        obtain ⟨c, u, rfl⟩ := List.exists_cons_of_ne_nil hm
        rw [List.cons_append] at ht
        rw [← (List.cons.inj ht).2]
        exact List.drop_left
      have hshort : t.length < (b :: s).length := by
        rw [← ht, List.length_append]
        have hpos := List.length_pos_iff.mpr hm
        omega
      rw [List.nil_append, replaceAll_drop, hrest, ← ht]
      exact .copy (replaceAll_deleted hm t)
    · next hpre =>
      exact .keep (fun h => hpre (List.isPrefixOf_iff_prefix.mpr h)) (replaceAll_deleted hm s)
  termination_by s => s.length

theorem Deleted.unique {m : Bytes} {t out : Bytes} (h : Deleted m t out) : ∀ {out' : Bytes},
    Deleted m t out' → m ≠ [] → out = out' := by
  induction h with
  | nil =>
    intro out' h' hm
    generalize ht : ([] : Bytes) = t at h'
    cases h' with
    | nil => rfl
    | copy _ => exact absurd (List.append_eq_nil_iff.mp ht.symm).1 hm
    | keep _ _ => cases ht
  | @copy t out _ ih =>
    intro out' h' hm
    generalize hs : m ++ t = s at h'
    cases h' with
    | nil => exact absurd (List.append_eq_nil_iff.mp hs).1 hm
    | copy h' =>
      obtain rfl := List.append_cancel_left hs
      exact ih h' hm
    | keep hb _ => exact absurd ⟨t, hs⟩ hb
  | @keep b t out hb _ ih =>
    intro out' h' hm
    generalize hs : b :: t = s at h'
    cases h' with
    | nil => cases hs
    | copy _ => exact absurd ⟨_, hs.symm⟩ hb
    | keep _ h' =>
      obtain ⟨rfl, rfl⟩ := List.cons.inj hs
      rw [ih h' hm]

/-! Reading a word in what is left. -/

/-- What is left begins with a word: the text begins with the word spread out. -/
theorem Deleted.read {m : Bytes} {t out : Bytes} (h : Deleted m t out) : ∀ {u y : Bytes}, out = u ++ y →
    ∃ w t', t = w ++ t' ∧ Spread m u w ∧ Deleted m t' y := by
  induction h with
  | nil =>
    intro u y heq
    obtain ⟨rfl, rfl⟩ := List.append_eq_nil_iff.mp heq.symm
    exact ⟨[], [], rfl, .nil, .nil⟩
  | @copy t out ht ih =>
    intro u y heq
    cases u with
    | nil =>
      rw [List.nil_append] at heq
      exact ⟨[], m ++ t, rfl, .nil, heq ▸ .copy ht⟩
    | cons b u =>
      obtain ⟨w, t', rfl, hw, ht'⟩ := ih heq
      exact ⟨m ++ w, t', (List.append_assoc m w t').symm, .copy hw, ht'⟩
  | @keep b t out hb ht ih =>
    intro u y heq
    cases u with
    | nil =>
      rw [List.nil_append] at heq
      exact ⟨[], b :: t, rfl, .nil, heq ▸ .keep hb ht⟩
    | cons c u =>
      obtain ⟨rfl, hout⟩ := List.cons.inj heq
      obtain ⟨w, t', rfl, hw, ht'⟩ := ih hout
      exact ⟨b :: w, t', rfl, .keep hw, ht'⟩

/-- The byte a part of what is left begins with stands in the text, and is no start of a copy. -/
theorem Deleted.reach {m : Bytes} {t out : Bytes} (h : Deleted m t out) : ∀ {x : Bytes} {b : UInt8} {z : Bytes},
    out = x ++ b :: z → ∃ t', (b :: t') <:+ t ∧ ¬ m <+: b :: t' ∧ Deleted m t' z := by
  induction h with
  | nil =>
    intro x b z heq
    exact absurd heq.symm (by simp)
  | @copy t out _ ih =>
    intro x b z heq
    obtain ⟨t', hsuf, hb, ht'⟩ := ih heq
    exact ⟨t', hsuf.trans (List.suffix_append m t), hb, ht'⟩
  | @keep c t out hc ht ih =>
    intro x b z heq
    cases x with
    | nil =>
      obtain ⟨rfl, rfl⟩ := List.cons.inj heq
      exact ⟨t, List.suffix_refl _, hc, ht⟩
    | cons a x =>
      obtain ⟨-, heq⟩ := List.cons.inj heq
      obtain ⟨t', hsuf, hb, ht'⟩ := ih heq
      exact ⟨t', hsuf.trans (List.suffix_cons c t), hb, ht'⟩

/-! Words in a frame. -/

section Frame

variable {lo hi : UInt8} {m word : Bytes}

theorem Framed.ne_nil (h : Framed lo hi m) : m ≠ [] := by
  obtain ⟨-, body, rfl, -, -⟩ := h
  exact List.cons_ne_nil _ _

/-- The opening byte stands at the start only. -/
theorem Framed.not_open {b : UInt8} {u : Bytes} (h : Framed lo hi (b :: u)) : lo ∉ u := by
  obtain ⟨hne, body, heq, hlo, -⟩ := h
  obtain ⟨-, rfl⟩ := List.cons.inj heq
  simp [hlo, hne]

/-- No copy begins behind the opening byte of another word, nor inside of it. -/
theorem Framed.not_prefix (h : Framed lo hi m) {b : UInt8} (hb : b ≠ lo) (t : Bytes) : ¬ m <+: b :: t := by
  obtain ⟨-, body, rfl, -, -⟩ := h
  rintro ⟨v, hv⟩
  exact hb (List.cons.inj hv).1.symm

/-- A word spread out is left as it is. -/
theorem Spread.deleted (hm : Framed lo hi m) {u w : Bytes} (h : Spread m u w) (hu : lo ∉ u) {t out : Bytes}
    (ht : Deleted m t out) : Deleted m (w ++ t) (u ++ out) := by
  induction h with
  | nil => exact ht
  | @keep b u w _ ih =>
    have hb : b ≠ lo := fun heq => hu (heq ▸ List.mem_cons_self)
    exact .keep (hm.not_prefix hb _) (ih fun hmem => hu (List.mem_cons_of_mem b hmem))
  | copy _ ih =>
    rw [List.append_assoc]
    exact .copy (ih hu)

/-- A deletion goes on anew at every opening byte. -/
theorem Deleted.append (hm : Framed lo hi m) {a a' : Bytes} (h : Deleted m a a') {t out : Bytes}
    (ht : Deleted m (lo :: t) out) : Deleted m (a ++ lo :: t) (a' ++ out) := by
  induction h with
  | nil => exact ht
  | copy _ ih =>
    rw [List.append_assoc]
    exact .copy ih
  | @keep b a a' hb _ ih =>
    refine .keep (fun hpre => ?_) ih
    -- a copy that does not end in `a` would have the opening byte inside
    have hfull : m <+: (b :: a) ++ lo :: t := hpre
    rcases List.prefix_or_prefix_of_prefix hfull (List.prefix_append (b :: a) (lo :: t)) with hshort | hlong
    · exact hb hshort
    · obtain ⟨v, hv⟩ := hlong
      rw [← hv, List.prefix_append_right_inj] at hfull
      cases v with
      | nil =>
        rw [List.append_nil] at hv
        exact hb (hv ▸ List.prefix_refl _)
      | cons c v =>
        obtain ⟨v', hv'⟩ := hfull
        obtain ⟨rfl, -⟩ := List.cons.inj hv'
        rw [← hv, List.cons_append] at hm
        exact hm.not_open (List.mem_append_right a List.mem_cons_self)

/-- Two texts part at the first of two bytes only where the bytes are the same. -/
theorem eq_of_first {b c : UInt8} {u v x y : Bytes} (hu : c ∉ u) (hv : b ∉ v) (h : u ++ b :: x = v ++ c :: y) :
    b = c ∧ u = v := by
  rcases List.append_eq_append_iff.mp h with ⟨a, rfl, ha⟩ | ⟨a, rfl, ha⟩
  · cases a with
    | nil => exact ⟨(List.cons.inj ha).1, (List.append_nil u).symm⟩
    | cons d a =>
      obtain ⟨rfl, -⟩ := List.cons.inj ha
      exact absurd (List.mem_append_right u List.mem_cons_self) hv
  · cases a with
    | nil => exact ⟨(List.cons.inj ha).1.symm, List.append_nil v⟩
    | cons d a =>
      obtain ⟨rfl, -⟩ := List.cons.inj ha
      exact absurd (List.mem_append_right v List.mem_cons_self) hu

/-- Two words that begin at the same place are the same. -/
theorem Framed.eq_of_prefix (hm : Framed lo hi m) (hword : Framed lo hi word) {t : Bytes} (h : m <+: word ++ t) :
    m = word := by
  obtain ⟨-, body, rfl, -, hbody⟩ := hm
  obtain ⟨-, body', rfl, -, hbody'⟩ := hword
  obtain ⟨v, hv⟩ := h
  have hsame : body ++ hi :: v = body' ++ hi :: t := by
    simpa using hv
  rw [(eq_of_first hbody hbody' hsame).2]

theorem Spread.refl (m : Bytes) : ∀ u : Bytes, Spread m u u
  | [] => .nil
  | _ :: u => .keep (Spread.refl m u)

/-- In a word spread out something stands before the first copy, and something behind it. -/
theorem Spread.first_copy {u w : Bytes} (h : Spread m u w) :
    w = u ∨ ∃ p v w', u = p ++ v ∧ v ≠ [] ∧ w = p ++ (m ++ w') := by
  induction h with
  | nil => exact Or.inl rfl
  | @keep b u w _ ih =>
    rcases ih with rfl | ⟨p, v, w', rfl, hv, rfl⟩
    · exact Or.inl rfl
    · exact Or.inr ⟨b :: p, v, w', rfl, hv, rfl⟩
  | @copy b u w _ _ => exact Or.inr ⟨[], b :: u, w, rfl, List.cons_ne_nil b u, rfl⟩

/-- No copy begins where a word begins that copies tear apart. -/
theorem Framed.not_prefix_torn (hm : Framed lo hi m) {b : UInt8} {u w : Bytes} (hword : Framed lo hi (b :: u))
    (hspread : Spread m u w) (hne : w ≠ u) (t : Bytes) : ¬ m <+: b :: (w ++ t) := by
  obtain ⟨p, v, w', rfl, hv, rfl⟩ := hspread.first_copy.resolve_left hne
  obtain ⟨hlohi, body, rfl, hlo, -⟩ := hm
  obtain ⟨-, body', heq, -, hhi'⟩ := hword
  obtain ⟨rfl, htail⟩ := List.cons.inj heq
  -- what stands before the first copy is a part of the word's body
  have hp : hi ∉ p := by
    obtain ⟨z, c, rfl⟩ := (List.eq_nil_or_concat v).resolve_left hv
    rw [List.concat_eq_append, ← List.append_assoc] at htail
    obtain ⟨rfl, -⟩ := List.append_inj' htail rfl
    exact fun hmem => hhi' (List.mem_append_left z hmem)
  rintro ⟨x, hx⟩
  have hsame : body ++ hi :: x = p ++ b :: (body ++ hi :: (w' ++ t)) := by
    simpa using hx
  exact hlohi (eq_of_first hlo hp hsame).1.symm

/-- A word that stands spread out in a text is found behind the deletion. -/
theorem contains_delete_of_spread (hm : Framed lo hi m) {u w a c : Bytes} (hword : Framed lo hi (lo :: u))
    (hspread : Spread m u w) (hkept : ¬ m <+: lo :: (w ++ c)) :
    contains (replaceAll (a ++ lo :: (w ++ c)) m []) (lo :: u) = true := by
  have hrest : Deleted m (lo :: (w ++ c)) (lo :: (u ++ replaceAll c m [])) :=
    .keep hkept (hspread.deleted hm hword.not_open (replaceAll_deleted hm.ne_nil c))
  have hwhole := (replaceAll_deleted hm.ne_nil a).append hm hrest
  rw [(replaceAll_deleted hm.ne_nil _).unique hwhole hm.ne_nil, contains_iff_within]
  exact ⟨replaceAll a m [], replaceAll c m [], by simp⟩

/-- Behind the deletion of `m` a word is found where it was found before, or where it was torn
    apart by copies of `m`. -/
theorem contains_delete_iff (hm : Framed lo hi m) (hword : Framed lo hi word) (t : Bytes) :
    contains (replaceAll t m []) word = true ↔ (m ≠ word ∧ contains t word = true) ∨ Torn m word t := by
  have hframe := hword
  obtain ⟨-, body, hbody, -, -⟩ := hframe
  obtain ⟨u, hu⟩ : ∃ u, word = lo :: u := ⟨_, hbody⟩
  subst hu
  constructor
  · intro hfound
    obtain ⟨x, y, hout⟩ := contains_iff_within.mp hfound
    rw [List.append_assoc, List.cons_append] at hout
    obtain ⟨t', hsuf, hkept, hdel⟩ := (replaceAll_deleted hm.ne_nil t).reach hout.symm
    obtain ⟨w, c, rfl, hspread, -⟩ := hdel.read rfl
    have hin : (lo :: w) <:+: t := (List.prefix_append (lo :: w) c).isInfix.trans hsuf.isInfix
    by_cases hwhole : w = u
    · subst hwhole
      refine Or.inl ⟨?_, contains_iff_within.mpr hin⟩
      rintro rfl
      exact hkept (List.prefix_append _ c)
    · exact Or.inr ⟨lo, u, w, rfl, hspread, hwhole, hin⟩
  · rintro (⟨hne, hfound⟩ | ⟨b, u', w, heq, hspread, hne, hin⟩)
    · obtain ⟨a, c, rfl⟩ := contains_iff_within.mp hfound
      rw [List.append_assoc]
      exact contains_delete_of_spread hm hword (Spread.refl m u) fun hpre => hne (hm.eq_of_prefix hword hpre)
    · obtain ⟨rfl, rfl⟩ := List.cons.inj heq
      obtain ⟨a, c, rfl⟩ := hin
      rw [List.append_assoc]
      exact contains_delete_of_spread hm hword hspread (hm.not_prefix_torn hword hspread hne c)

end Frame

end GoStrings
