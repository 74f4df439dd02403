import DeepSeekWebToApi.Toolcall.ProperCdata

/- What `SanitizeLooseCDATA` makes of an ASCII text.

   The repair goes from section to section (`Repaired`): a section that closes, with a `]]>` or
   with a `]]` right before a tag, gets a `]]>` and is closed for good (`ClosesAt.sealed`), and
   at the first opener without a close behind it the repair takes the opener out and copies the
   rest unread. Openers in that rest stay open, and the next repair takes out the first of
   them. So the repair is closed and stable exactly when no opener is left, or made, where one
   was taken out (`repair_closed_stable_iff`). -/
namespace DeepSeekWebToApi.Toolcall
open GoStrings GoLoop

def Ascii (text : Bytes) : Prop := ∀ b ∈ text, b.toNat < 0x80

instance (text : Bytes) : Decidable (Ascii text) := inferInstanceAs (Decidable (∀ b ∈ text, b.toNat < 0x80))

/-! Closes. -/

/-- A `]]` right before a tag. -/
def looseAt (text : Bytes) : Bool := hasPrefix text (lit "]]<") && isLikelyTagStartAt text 2

theorem findLooseCDATAClose_eq_some_iff : ∀ {c : Bytes} {l : Nat}, findLooseCDATAClose c = some l ↔
    looseAt (c.drop l) = true ∧ ∀ j < l, looseAt (c.drop j) = false
  | [], l => by
    rw [List.drop_nil]
    exact iff_of_false (by rw [findLooseCDATAClose]; exact nofun) fun h => absurd h.1 (by decide)
  | b :: c, l => by
    show (if looseAt (b :: c) = true then some 0 else (findLooseCDATAClose c).map (· + 1)) = some l ↔ _
    by_cases hhere : looseAt (b :: c) = true
    · rw [if_pos hhere]
      cases l with
      | zero => exact iff_of_true rfl ⟨hhere, fun j hj => absurd hj (Nat.not_lt_zero j)⟩
      | succ l =>
        refine iff_of_false (by simp) fun h => ?_
        have hzero := h.2 0 (Nat.succ_pos l)
        rw [List.drop_zero, hhere] at hzero
        cases hzero
    · rw [if_neg hhere]
      cases l with
      | zero => exact iff_of_false (by simp) fun h => hhere h.1
      | succ l =>
        have hstep : (findLooseCDATAClose c).map (· + 1) = some (l + 1) ↔ findLooseCDATAClose c = some l := by
          cases findLooseCDATAClose c <;> simp
        rw [hstep, findLooseCDATAClose_eq_some_iff, List.drop_succ_cons]
        refine and_congr_right fun _ => ⟨fun h j hj => ?_, fun h j hj => h (j + 1) (Nat.succ_lt_succ hj)⟩
        cases j with
        | zero => exact Bool.eq_false_iff.mpr hhere
        | succ j => exact h j (Nat.lt_of_succ_lt_succ hj)

variable {c : Bytes}

theorem findLooseCDATAClose_eq_none_iff : findLooseCDATAClose c = none ↔ ∀ j, looseAt (c.drop j) = false := by
  constructor
  · intro hnone j
    induction j using Nat.strongRecOn with
    | _ j ih =>
      by_contra hj
      rw [findLooseCDATAClose_eq_some_iff.mpr ⟨Bool.not_eq_false _ ▸ hj, ih⟩] at hnone
      cases hnone
  · intro h
    refine Option.eq_none_iff_forall_ne_some.mpr fun l hl => ?_
    have hloose := (findLooseCDATAClose_eq_some_iff.mp hl).1
    rw [h l] at hloose
    cases hloose

variable {x : Bytes}

/-- In ASCII five bytes tell whether a tag follows. -/
theorem looseAt_take (h : Ascii (x.take 5)) : looseAt (x.take 5) = looseAt x := by
  match x with
  | [] => rfl
  | [a] => rfl
  | [a, b] => rfl
  | [a, b, c] => rfl
  | [a, b, c, d] => rfl
  | a :: b :: c :: d :: e :: rest =>
    have hbar : ∀ {f : UInt8} {t : Bytes}, f ∈ [a, b, c, d, e] → hasPrefix (f :: t) (lit "｜") = false := by
      intro f t hf
      have hlt := h f hf
      have hne : ((0xEF : UInt8) == f) = false := by
        rw [beq_eq_false_iff_ne]
        rintro rfl
        exact absurd hlt (by decide)
      show ((0xEF : UInt8) == f && _) = false
      rw [hne, Bool.false_and]
    have htag : isLikelyTagStartAt [a, b, c, d, e] 2 = isLikelyTagStartAt (a :: b :: c :: d :: e :: rest) 2 := by
      by_cases hc : c = 0x3C
      · subst hc
        by_cases hd : d = '/'.toUInt8
        · simp [isLikelyTagStartAt, hd, hbar]
        · simp [isLikelyTagStartAt, hd, hbar]
      · simp [isLikelyTagStartAt, hc]
    show (hasPrefix (a :: b :: c :: d :: e :: rest) (lit "]]<") && isLikelyTagStartAt [a, b, c, d, e] 2) = _
    rw [htag]
    rfl

/-! Texts that agree at their beginning. -/

variable {x y : Bytes}

theorem take_drop_agree {m : Nat} (h : x.take m = y.take m) {j k : Nat} (hk : j + k ≤ m) :
    (x.drop j).take k = (y.drop j).take k := by
  have hpart : ∀ z : Bytes, (z.drop j).take k = ((z.take m).drop j).take k := by
    intro z
    rw [List.drop_take, List.take_take, Nat.min_eq_left (by omega)]
  rw [hpart x, hpart y, h]

theorem hasPrefix_agree {x y p : Bytes} {m : Nat} (h : x.take m = y.take m) (hm : p.length ≤ m) :
    hasPrefix x p = hasPrefix y p := by
  have hpart : ∀ z : Bytes, hasPrefix z p = true ↔ p <+: z.take m := by
    intro z
    rw [hasPrefix, List.isPrefixOf_iff_prefix, List.prefix_take_iff]
    exact (and_iff_left hm).symm
  rw [Bool.eq_iff_iff, hpart x, hpart y, h]

theorem looseAt_agree (hx : Ascii x) (h : x.take 5 = y.take 5) : looseAt x = looseAt y := by
  have hfive : Ascii (x.take 5) := fun b hb => hx b (List.mem_of_mem_take hb)
  rw [← looseAt_take hfive, h, looseAt_take (h ▸ hfive)]

theorem Ascii.drop (h : Ascii x) (n : Nat) : Ascii (x.drop n) := fun b hb => h b (List.mem_of_mem_drop hb)

theorem Ascii.take (h : Ascii x) (n : Nat) : Ascii (x.take n) := fun b hb => h b (List.mem_of_mem_take hb)

/-! The close of a section. -/

/-- The content is taken to end at `n`, and the rest of the text to begin at `k`: behind a `]]>`, or
    behind a `]]` that a tag follows. -/
def ClosesAt (c : Bytes) (n k : Nat) : Prop :=
  properClose c = some n ∧ k = n + 3 ∨ properClose c = none ∧ findLooseCDATAClose c = some n ∧ k = n + 2

/-- What a close has before it, and at its place. -/
theorem ClosesAt.first {n k : Nat} (h : ClosesAt c n k) : n + 2 ≤ c.length ∧ (c.drop n).take 2 = lit "]]" ∧
    ∀ j < n, hasPrefix (c.drop j) (lit "]]>") = false ∧ looseAt (c.drop j) = false := by
  have htwo : ∀ {p : Bytes}, hasPrefix (c.drop n) p = true → p.take 2 = lit "]]" → p.length = 3 →
      n + 2 ≤ c.length ∧ (c.drop n).take 2 = lit "]]" := by
    intro p hp hp2 hp3
    have hlen := le_length_of_hasPrefix_drop (by intro hnil; rw [hnil] at hp3; cases hp3) hp
    obtain ⟨rest, hrest⟩ := List.isPrefixOf_iff_prefix.mp hp
    refine ⟨by omega, ?_⟩
    rw [← hrest, List.take_append_of_le_length (by omega), hp2]
  rcases h with ⟨hproper, -⟩ | ⟨hproper, hloose, -⟩
  · obtain ⟨hindex, hall⟩ := Option.filter_eq_some_iff.mp hproper
    obtain ⟨hat, hbefore⟩ := index_eq_some_iff.mp hindex
    obtain ⟨hle, htake⟩ := htwo hat (by decide) (by decide)
    refine ⟨hle, htake, fun j hj => ⟨hbefore j hj, ?_⟩⟩
    cases hl : findLooseCDATAClose c with
    | none => exact findLooseCDATAClose_eq_none_iff.mp hl j
    | some l =>
      rw [hl, Option.all_some, decide_eq_true_eq] at hall
      exact (findLooseCDATAClose_eq_some_iff.mp hl).2 j (by omega)
  · obtain ⟨hat, hbefore⟩ := findLooseCDATAClose_eq_some_iff.mp hloose
    obtain ⟨hle, htake⟩ := htwo (Bool.and_eq_true_iff.mp hat).1 (by decide) (by decide)
    refine ⟨hle, htake, fun j hj => ⟨?_, hbefore j hj⟩⟩
    by_contra hat'
    obtain ⟨p, hp, hindex⟩ := index_le (Bool.not_eq_false _ ▸ hat')
    have hsome : properClose c = some p := by
      rw [properClose, hindex, hloose, Option.filter_some, Option.all_some, if_pos (by rw [decide_eq_true_eq]; omega)]
    rw [hsome] at hproper
    cases hproper

/-- A content that was closed closes at the same place whatever follows. -/
theorem ClosesAt.sealed {n k : Nat} (hascii : Ascii c) (h : ClosesAt c n k) (rest : Bytes) :
    properClose (c.take n ++ lit "]]>" ++ rest) = some n := by
  obtain ⟨hle, htwo, hbefore⟩ := h.first
  have hlength : (c.take n).length = n := by rw [List.length_take]; omega
  have hdrop : (c.take n ++ lit "]]>" ++ rest).drop n = lit "]]>" ++ rest := by
    rw [List.append_assoc]
    exact List.drop_left' hlength
  have hagree : (c.take n ++ lit "]]>" ++ rest).take (n + 2) = c.take (n + 2) := by
    rw [List.take_add, hdrop, List.append_assoc, List.take_left' hlength, List.take_add (l := c), htwo]
    rfl
  have hindex : index (c.take n ++ lit "]]>" ++ rest) (lit "]]>") = some n := by
    refine index_eq_some_iff.mpr ⟨?_, fun j hj => ?_⟩
    · rw [hdrop]
      exact List.isPrefixOf_iff_prefix.mpr (List.prefix_append _ _)
    · rw [hasPrefix_agree (take_drop_agree hagree (k := 3) (by omega)) (by decide)]
      exact (hbefore j hj).1
  rw [properClose, hindex, Option.filter_some, if_pos]
  cases hl : findLooseCDATAClose (c.take n ++ lit "]]>" ++ rest) with
  | none => rfl
  | some l =>
    rw [Option.all_some, decide_eq_true_eq]
    by_contra hlt
    have hloose := (findLooseCDATAClose_eq_some_iff.mp hl).1
    by_cases hfar : l + 5 ≤ n + 2
    · rw [← looseAt_agree (hascii.drop l) (take_drop_agree hagree hfar).symm, (hbefore l (by omega)).2] at hloose
      cases hloose
    · -- the bracket of the tag would be one of the close
      obtain ⟨tail, htail⟩ := List.isPrefixOf_iff_prefix.mp (Bool.and_eq_true_iff.mp hloose).1
      have hhead : ((lit "]]>" ++ rest).drop (l + 2 - n)).head? = some '<'.toUInt8 := by
        rw [← hdrop, List.drop_drop, Nat.add_sub_cancel' (by omega), ← List.drop_drop, ← htail]
        rfl
      have hplace : l + 2 - n = 0 ∨ l + 2 - n = 1 := by omega
      rcases hplace with hk | hk
      · rw [hk] at hhead
        exact absurd (show some ']'.toUInt8 = some '<'.toUInt8 from hhead) (by decide)
      · rw [hk] at hhead
        exact absurd (show some ']'.toUInt8 = some '<'.toUInt8 from hhead) (by decide)

theorem ClosesAt.unique {n k n' k' : Nat} (h : ClosesAt c n k) (h' : ClosesAt c n' k') : n = n' ∧ k = k' := by
  rcases h with ⟨hp, rfl⟩ | ⟨hp, hl, rfl⟩ <;> rcases h' with ⟨hp', rfl⟩ | ⟨hp', hl', rfl⟩ <;> rw [hp] at hp'
  · cases hp'
    exact ⟨rfl, rfl⟩
  · cases hp'
  · cases hp'
  · rw [hl] at hl'
    cases hl'
    exact ⟨rfl, rfl⟩

/-! Openers. -/

section Openers
variable {x y : Bytes} {i m : Nat}

theorem OpenerAt.agree (h : x.take m = y.take m) (hm : i + 9 ≤ m) : OpenerAt x i ↔ OpenerAt y i := by
  have hmap : ((x.drop i).map lowerAscii).take 9 = ((y.drop i).map lowerAscii).take 9 := by
    rw [← List.map_take, ← List.map_take, take_drop_agree h hm]
  rw [OpenerAt, OpenerAt, hasPrefix_agree hmap (by decide)]

/-- No bracket of a close stands in an opener. -/
theorem OpenerAt.before_close {q : Nat} (h : OpenerAt x i) (hq : hasPrefix (x.drop q) (lit "]]>") = true)
    (hle : i ≤ q) : i + 9 ≤ q := by
  by_contra hin
  obtain ⟨rest, hrest⟩ := List.isPrefixOf_iff_prefix.mp h
  obtain ⟨tail, htail⟩ := List.isPrefixOf_iff_prefix.mp hq
  have hthere : (lit "<![cdata[" ++ rest).drop (q - i) = (lit "]]>" ++ tail).map lowerAscii := by
    rw [hrest, ← List.map_drop, List.drop_drop, Nat.add_sub_cancel' hle, ← htail]
  have hfirst : ((lit "<![cdata[").drop (q - i)).head? = some ']'.toUInt8 := by
    have hhead := congrArg List.head? hthere
    rw [List.drop_append_of_le_length (by change q - i ≤ 9; omega)] at hhead
    rw [List.head?_append_of_ne_nil] at hhead
    · exact hhead
    · intro hnil
      have hlen := congrArg List.length hnil
      rw [List.length_drop, show (lit "<![cdata[").length = 9 from rfl, List.length_nil] at hlen
      omega
  have hnone : ∀ k < 9, ((lit "<![cdata[").drop k).head? ≠ some ']'.toUInt8 := by decide
  exact hnone _ (by omega) hfirst

/-- The first opener of a text. -/
def FirstOpener (x : Bytes) (m : Nat) : Prop := OpenerAt x m ∧ ∀ i < m, ¬ OpenerAt x i

theorem FirstOpener.unique {m' : Nat} (h : FirstOpener x m) (h' : FirstOpener x m') : m = m' := by
  rcases Nat.lt_trichotomy m m' with hlt | heq | hlt
  · exact absurd h.1 (h'.2 m hlt)
  · exact heq
  · exact absurd h'.1 (h.2 m' hlt)

theorem FirstOpener.agree {k : Nat} (h : FirstOpener x m) (hk : x.take k = y.take k) (hm : m + 9 ≤ k) :
    FirstOpener y m :=
  ⟨(OpenerAt.agree hk hm).mp h.1, fun i hi hy => h.2 i hi ((OpenerAt.agree hk (by omega)).mpr hy)⟩

/-- Every opener is followed by a `]]>`. -/
def ClosedOpeners (x : Bytes) : Prop := ∀ i, OpenerAt x i → ∃ j, i + 9 ≤ j ∧ hasPrefix (x.drop j) (lit "]]>") = true

/-- A piece that ends in a close keeps its openers closed whatever follows. -/
theorem closedOpeners_behind (u y : Bytes) : ClosedOpeners (u ++ lit "]]>" ++ y) ↔ ClosedOpeners y := by
  have hlength : (u ++ lit "]]>").length = u.length + 3 := List.length_append
  have hy : ∀ k, (u ++ lit "]]>" ++ y).drop (u.length + 3 + k) = y.drop k := by
    intro k
    rw [← List.drop_drop, List.drop_left' hlength]
  have hclose : hasPrefix ((u ++ lit "]]>" ++ y).drop u.length) (lit "]]>") = true := by
    rw [List.append_assoc, List.drop_left' rfl]
    exact List.isPrefixOf_iff_prefix.mpr (List.prefix_append _ _)
  have hopener : ∀ k, OpenerAt (u ++ lit "]]>" ++ y) (u.length + 3 + k) ↔ OpenerAt y k := by
    intro k
    rw [OpenerAt, OpenerAt, hy]
  constructor
  · intro h i hi
    obtain ⟨j, hj, hat⟩ := h _ ((hopener i).mpr hi)
    obtain ⟨k, rfl⟩ := Nat.exists_eq_add_of_le (show u.length + 3 ≤ j by omega)
    rw [hy] at hat
    exact ⟨k, by omega, hat⟩
  · intro h i hi
    rcases Nat.lt_or_ge u.length i with hlt | hle
    · have hbehind := close_before_opener hclose hi hlt
      obtain ⟨k, rfl⟩ := Nat.exists_eq_add_of_le hbehind
      obtain ⟨j, hj, hat⟩ := h k ((hopener k).mp hi)
      exact ⟨u.length + 3 + j, by omega, by rw [hy]; exact hat⟩
    · exact ⟨u.length, hi.before_close hclose hle, hclose⟩

end Openers

/-! Texts and their repairs. -/

/-- What the repair makes of a text: each section it comes to gets a `]]>` for its close, up to an
    opener with no close behind it, which is taken out. -/
inductive Repaired : Bytes → Bytes → Prop
  | plain {x : Bytes} (h : ∀ i, ¬ OpenerAt x i) : Repaired x x
  | closed {x y : Bytes} {m n k : Nat} (hopen : FirstOpener x m) (hclose : ClosesAt (x.drop (m + 9)) n k)
      (hrest : Repaired (x.drop (m + 9 + k)) y) : Repaired x (x.take (m + 9 + n) ++ lit "]]>" ++ y)
  | stripped {x : Bytes} {m : Nat} (hopen : FirstOpener x m) (hnone : ∀ n k, ¬ ClosesAt (x.drop (m + 9)) n k) :
      Repaired x (x.take m ++ x.drop (m + 9))

/-- The scan comes to an opener with no close behind it, and `w` is what is left, from the end of the
    last section on, without that opener. -/
inductive Unclosed : Bytes → Bytes → Prop
  | here {x : Bytes} {m : Nat} (hopen : FirstOpener x m) (hnone : ∀ n k, ¬ ClosesAt (x.drop (m + 9)) n k) :
      Unclosed x (x.take m ++ x.drop (m + 9))
  | behind {x w : Bytes} {m n k : Nat} (hopen : FirstOpener x m) (hclose : ClosesAt (x.drop (m + 9)) n k)
      (hrest : Unclosed (x.drop (m + 9 + k)) w) : Unclosed x w

/-- An opener that is taken out was the last, and its ends do not make another. -/
def OnlyOpener (x : Bytes) : Prop := ∀ w, Unclosed x w → ∀ i, ¬ OpenerAt w i

theorem onlyOpener_plain (h : ∀ i, ¬ OpenerAt x i) : OnlyOpener x := by
  intro w hw
  cases hw with
  | here hopen _ => exact absurd hopen.1 (h _)
  | behind hopen _ _ => exact absurd hopen.1 (h _)

theorem onlyOpener_closed {m n k : Nat} (hopen : FirstOpener x m) (hclose : ClosesAt (x.drop (m + 9)) n k) :
    OnlyOpener x ↔ OnlyOpener (x.drop (m + 9 + k)) := by
  refine ⟨fun h w hw => h w (.behind hopen hclose hw), fun h w hw => ?_⟩
  cases hw with
  | here hopen' hnone =>
    cases hopen.unique hopen'
    exact absurd hclose (hnone n k)
  | behind hopen' hclose' hrest =>
    cases hopen.unique hopen'
    cases (hclose.unique hclose').2
    exact h w hrest

theorem onlyOpener_stripped {m : Nat} (hopen : FirstOpener x m) (hnone : ∀ n k, ¬ ClosesAt (x.drop (m + 9)) n k) :
    OnlyOpener x ↔ ∀ i, ¬ OpenerAt (x.take m ++ x.drop (m + 9)) i := by
  refine ⟨fun h => h _ (.here hopen hnone), fun h w hw => ?_⟩
  cases hw with
  | here hopen' _ =>
    cases hopen.unique hopen'
    exact h
  | behind hopen' hclose _ =>
    cases hopen.unique hopen'
    exact absurd hclose (hnone _ _)

theorem Repaired.unique {x y z : Bytes} (hy : Repaired x y) (hz : Repaired x z) : y = z := by
  induction hy generalizing z with
  | plain h =>
    cases hz with
    | plain => rfl
    | closed hopen _ _ => exact absurd hopen.1 (h _)
    | stripped hopen _ => exact absurd hopen.1 (h _)
  | closed hopen hclose _ ih =>
    cases hz with
    | plain h => exact absurd hopen.1 (h _)
    | closed hopen' hclose' hrest' =>
      cases hopen.unique hopen'
      obtain ⟨rfl, rfl⟩ := hclose.unique hclose'
      rw [ih hrest']
    | stripped hopen' hnone =>
      cases hopen.unique hopen'
      exact absurd hclose (hnone _ _)
  | stripped hopen hnone =>
    cases hz with
    | plain h => exact absurd hopen.1 (h _)
    | closed hopen' hclose _ =>
      cases hopen.unique hopen'
      exact absurd hclose (hnone _ _)
    | stripped hopen' _ =>
      cases hopen.unique hopen'
      rfl

theorem Ascii.append (hx : Ascii x) (hy : Ascii y) : Ascii (x ++ y) := by
  intro b hb
  rcases List.mem_append.mp hb with h | h
  · exact hx b h
  · exact hy b h

theorem Repaired.ascii (h : Repaired x y) (hx : Ascii x) : Ascii y := by
  induction h with
  | plain => exact hx
  | closed _ _ _ ih => exact ((hx.take _).append (by decide +kernel)).append (ih (hx.drop _))
  | stripped => exact (hx.take _).append (hx.drop _)

/-- A content has no close exactly when neither kind of close stands in it. -/
theorem closesAt_none_iff : (∀ n k, ¬ ClosesAt c n k) ↔
    ∀ j, hasPrefix (c.drop j) (lit "]]>") = false ∧ looseAt (c.drop j) = false := by
  constructor
  · intro h
    have hproper : properClose c = none := by
      cases hp : properClose c with
      | none => rfl
      | some p => exact absurd (Or.inl ⟨hp, rfl⟩) (h p (p + 3))
    have hloose : findLooseCDATAClose c = none := by
      cases hl : findLooseCDATAClose c with
      | none => rfl
      | some l => exact absurd (Or.inr ⟨hproper, hl, rfl⟩) (h l (l + 2))
    rw [properClose, hloose, Option.filter_eq_none_iff] at hproper
    have hindex : index c (lit "]]>") = none :=
      Option.eq_none_iff_forall_ne_some.mpr fun p hp => hproper p hp rfl
    exact fun j => ⟨index_eq_none_iff.mp hindex j, findLooseCDATAClose_eq_none_iff.mp hloose j⟩
  · intro h n k hclose
    rcases hclose with ⟨hp, -⟩ | ⟨-, hl, -⟩
    · have hat := index_hasPrefix (Option.filter_eq_some_iff.mp hp).1
      rw [(h n).1] at hat
      cases hat
    · have hat := (findLooseCDATAClose_eq_some_iff.mp hl).1
      rw [(h n).2] at hat
      cases hat

theorem closesAt_none_drop (h : ∀ n k, ¬ ClosesAt c n k) (d : Nat) : ∀ n k, ¬ ClosesAt (c.drop d) n k := by
  refine closesAt_none_iff.mpr fun j => ?_
  rw [List.drop_drop]
  exact closesAt_none_iff.mp h (d + j)

/-! Repairs of repairs. -/

section Again
variable {x y : Bytes} {m n k : Nat}

/-- A section that was closed is left as it is by the next repair. -/
theorem Repaired.again (hx : Ascii x) (hopen : FirstOpener x m) (hclose : ClosesAt (x.drop (m + 9)) n k)
    {z : Bytes} (hz : Repaired y z) :
    Repaired (x.take (m + 9 + n) ++ lit "]]>" ++ y) (x.take (m + 9 + n) ++ lit "]]>" ++ z) := by
  have hbound := hclose.first.1
  rw [List.length_drop] at hbound
  have hlength : (x.take (m + 9 + n)).length = m + 9 + n := by rw [List.length_take]; omega
  have hfront : (x.take (m + 9 + n) ++ lit "]]>" ++ y).take (m + 9 + n) = x.take (m + 9 + n) := by
    rw [List.append_assoc, List.take_left' hlength]
  have hcontent : (x.take (m + 9 + n) ++ lit "]]>" ++ y).drop (m + 9) =
      (x.drop (m + 9)).take n ++ lit "]]>" ++ y := by
    rw [List.append_assoc, List.drop_append_of_le_length (by omega), List.drop_take, Nat.add_sub_cancel_left,
      List.append_assoc]
  have hrest : (x.take (m + 9 + n) ++ lit "]]>" ++ y).drop (m + 9 + (n + 3)) = y := by
    refine List.drop_left' ?_
    rw [List.length_append, hlength]
    rfl
  have hstep := Repaired.closed (hopen.agree hfront.symm (by omega))
    (Or.inl ⟨by rw [hcontent]; exact hclose.sealed (hx.drop _) y, rfl⟩) (by rw [hrest]; exact hz)
  rw [hfront] at hstep
  exact hstep

/-- An opener that shows up when one was taken out ends behind its place, and has no close behind it
    either. -/
theorem opener_behind_stripped (hopen : FirstOpener x m) {i : Nat}
    (hi : OpenerAt (x.take m ++ x.drop (m + 9)) i) :
    m < i + 9 ∧ ∀ j, i + 9 ≤ j → (x.take m ++ x.drop (m + 9)).drop j = (x.drop (m + 9)).drop (j - m) := by
  have hle := hopen.1.le
  have hlength : (x.take m).length = m := by rw [List.length_take]; omega
  have hlt : m < i + 9 := by
    by_contra hbefore
    have hagree : (x.take m ++ x.drop (m + 9)).take m = x.take m := List.take_left' hlength
    exact hopen.2 i (by omega) ((OpenerAt.agree hagree (by omega)).mp hi)
  refine ⟨hlt, fun j hj => ?_⟩
  obtain ⟨d, rfl⟩ := Nat.exists_eq_add_of_le (show m ≤ j by omega)
  rw [← List.drop_drop, List.drop_left' hlength, Nat.add_sub_cancel_left]

theorem closedOpeners_stripped (hopen : FirstOpener x m) (hnone : ∀ n k, ¬ ClosesAt (x.drop (m + 9)) n k) :
    ClosedOpeners (x.take m ++ x.drop (m + 9)) ↔ ∀ i, ¬ OpenerAt (x.take m ++ x.drop (m + 9)) i := by
  refine ⟨fun h i hi => ?_, fun h i hi => absurd hi (h i)⟩
  obtain ⟨j, hj, hat⟩ := h i hi
  rw [(opener_behind_stripped hopen hi).2 j hj, (closesAt_none_iff.mp hnone _).1] at hat
  cases hat

theorem exists_firstOpener {i : Nat} (h : OpenerAt x i) : ∃ m, FirstOpener x m := by
  induction i using Nat.strongRecOn with
  | _ i ih =>
    by_cases hbefore : ∃ j < i, OpenerAt x j
    · obtain ⟨j, hj, hat⟩ := hbefore
      exact ih j hj hat
    · exact ⟨i, h, fun j hj hat => hbefore ⟨j, hj, hat⟩⟩

/-- Where an opener was taken out the next repair takes out the next opener, if there is one. -/
theorem stripped_again (hopen : FirstOpener x m) (hnone : ∀ n k, ¬ ClosesAt (x.drop (m + 9)) n k) :
    ∃ z, Repaired (x.take m ++ x.drop (m + 9)) z ∧
      (z = x.take m ++ x.drop (m + 9) ↔ ∀ i, ¬ OpenerAt (x.take m ++ x.drop (m + 9)) i) := by
  by_cases hmore : ∃ i, OpenerAt (x.take m ++ x.drop (m + 9)) i
  · obtain ⟨i, hi⟩ := hmore
    obtain ⟨f, hf⟩ := exists_firstOpener hi
    refine ⟨_, .stripped hf ?_, iff_of_false (fun heq => ?_) fun h => h i hi⟩
    · rw [(opener_behind_stripped hopen hf.1).2 _ (Nat.le_refl _)]
      exact closesAt_none_drop hnone _
    · have hle := hf.1.le
      have hlen := congrArg List.length heq
      rw [List.length_append, List.length_take_of_le (by omega), List.length_drop] at hlen
      omega
  · have hno := not_exists.mp hmore
    exact ⟨_, .plain hno, iff_of_true rfl hno⟩

/-- A repair is closed, and stable, exactly when the opener it took out was the only one left. -/
theorem Repaired.settled (h : Repaired x y) (hx : Ascii x) :
    (ClosedOpeners y ↔ OnlyOpener x) ∧ ∃ z, Repaired y z ∧ (z = y ↔ OnlyOpener x) := by
  induction h with
  | plain hno =>
    have honly := onlyOpener_plain hno
    exact ⟨iff_of_true (fun i hi => absurd hi (hno i)) honly, _, .plain hno, iff_of_true rfl honly⟩
  | closed hopen hclose _ ih =>
    obtain ⟨hclosed, z, hz, hsame⟩ := ih (hx.drop _)
    rw [onlyOpener_closed hopen hclose]
    refine ⟨(closedOpeners_behind _ _).trans hclosed, _, hz.again hx hopen hclose, ?_⟩
    rw [List.append_cancel_left_eq]
    exact hsame
  | stripped hopen hnone =>
    rw [onlyOpener_stripped hopen hnone]
    exact ⟨closedOpeners_stripped hopen hnone, stripped_again hopen hnone⟩

end Again

/-! The loop. -/

section Loop
variable {text : Bytes}

theorem toLower_ascii (h : Ascii text) : toLower text = text.map lowerAscii := by
  have hall := toLower_ascii_append [] h
  rw [List.append_nil, show toLower [] = [] from rfl, List.append_nil] at hall
  exact hall

theorem openerAt_iff_lower (h : Ascii text) (pos i : Nat) :
    hasPrefix (((toLower text).drop pos).drop i) (lit "<![cdata[") = true ↔ OpenerAt (text.drop pos) i := by
  rw [toLower_ascii h, ← List.map_drop, ← List.map_drop, OpenerAt]

theorem index_opener_some (h : Ascii text) {pos rel : Nat}
    (hopen : index ((toLower text).drop pos) (lit "<![cdata[") = some rel) : FirstOpener (text.drop pos) rel := by
  obtain ⟨hat, hbefore⟩ := index_eq_some_iff.mp hopen
  refine ⟨(openerAt_iff_lower h pos rel).mp hat, fun i hi hopener => ?_⟩
  have hthere := (openerAt_iff_lower h pos i).mpr hopener
  rw [hbefore i hi] at hthere
  cases hthere

theorem index_opener_none (h : Ascii text) {pos : Nat}
    (hopen : index ((toLower text).drop pos) (lit "<![cdata[") = none) (i : Nat) : ¬ OpenerAt (text.drop pos) i := by
  intro hopener
  have hthere := (openerAt_iff_lower h pos i).mpr hopener
  rw [index_eq_none_iff.mp hopen i] at hthere
  cases hthere

/-- From a position on, the loop writes the repair of what is left, and reports no change only
    where it wrote what it read. -/
def Repairs (text : Bytes) (s : Sanitize) : Prop :=
  ∃ y r, Repaired (text.drop s.pos) y ∧ repairFrom text s = some r ∧ r.out = s.out ++ y ∧
    (r.changed = false → y = text.drop s.pos)

theorem repairs_plain (hascii : Ascii text) {s : Sanitize} (hlt : s.pos < text.length)
    (hopen : index ((toLower text).drop s.pos) (lit "<![cdata[") = none) : Repairs text s := by
  have hpos : s.pos ≤ (toLower text).length := by rw [toLower_ascii hascii, List.length_map]; omega
  have hdone : repairFrom text s = some { s with out := s.out ++ text.drop s.pos } :=
    (sanitizeTurn_decreases _ _).loop_done (sanitizeTurn_rest hlt hpos hopen)
  exact ⟨_, _, .plain (index_opener_none hascii hopen), hdone, rfl, fun _ => rfl⟩

theorem repairs_end {s : Sanitize} (hle : text.length ≤ s.pos) : Repairs text s := by
  have hdone : repairFrom text s = some s := (sanitizeTurn_decreases _ _).loop_done (sanitizeTurn_of_le hle)
  have hnil : text.drop s.pos = [] := List.drop_of_length_le hle
  refine ⟨[], s, ?_, hdone, (List.append_nil _).symm, fun _ => hnil.symm⟩
  rw [hnil]
  exact .plain fun i hi => absurd hi.le (Nat.not_succ_le_zero _)

/-- The two ends of a section: closed, or stripped of its opener. -/
theorem behindSection_cases (s : Sanitize) (rel : Nat) :
    (∃ n k, ClosesAt ((text.drop s.pos).drop (rel + 9)) n k ∧
      (behindSection text s rel).pos = s.pos + (rel + 9 + k) ∧
      (behindSection text s rel).out = s.out ++ ((text.drop s.pos).take (rel + 9 + n) ++ lit "]]>") ∧
      ((behindSection text s rel).changed = false →
        (text.drop s.pos).take (rel + 9 + n) ++ lit "]]>" = (text.drop s.pos).take (rel + 9 + k))) ∨
    (∀ n k, ¬ ClosesAt ((text.drop s.pos).drop (rel + 9)) n k) ∧
      behindSection text s rel = { pos := text.length, changed := true
                                   out := s.out ++ ((text.drop s.pos).take rel ++ (text.drop s.pos).drop (rel + 9)) } := by
  have hcontent : text.drop (s.pos + rel + 9) = (text.drop s.pos).drop (rel + 9) := by
    rw [List.drop_drop, Nat.add_assoc]
  cases hp : properClose ((text.drop s.pos).drop (rel + 9)) with
  | some p =>
    left
    rw [behindSection_proper (hcontent ▸ hp)]
    have hthree : (text.drop s.pos).take (rel + (9 + p + 3)) = (text.drop s.pos).take (rel + 9 + p) ++ lit "]]>" := by
      obtain ⟨rest, hrest⟩ := List.isPrefixOf_iff_prefix.mp (index_hasPrefix (Option.filter_eq_some_iff.mp hp).1)
      rw [show rel + (9 + p + 3) = rel + 9 + p + 3 by omega, List.take_add, ← List.drop_drop, ← hrest]
      rfl
    refine ⟨p, p + 3, Or.inl ⟨hp, rfl⟩, by show s.pos + rel + 9 + p + 3 = _; omega, ?_, fun _ => ?_⟩
    · show s.out ++ _ = _
      rw [hthree]
    · rw [← hthree]
      congr 1
      omega
  | none =>
    cases hl : findLooseCDATAClose ((text.drop s.pos).drop (rel + 9)) with
    | some l =>
      left
      refine ⟨l, l + 2, Or.inr ⟨hp, hl, rfl⟩, ?_⟩
      have hstate : behindSection text s rel = { pos := s.pos + rel + 9 + l + 2, changed := true
                                                 out := s.out ++ (text.drop s.pos).take (rel + (9 + l)) ++ lit "]]>" } := by
        unfold behindSection
        simp only [hcontent, hp, hl]
      rw [hstate]
      refine ⟨by show s.pos + rel + 9 + l + 2 = _; omega, ?_, nofun⟩
      show s.out ++ _ ++ _ = _
      rw [List.append_assoc, Nat.add_assoc rel]
    | none =>
      right
      constructor
      · rintro n k (⟨hp', -⟩ | ⟨-, hl', -⟩)
        · rw [hp] at hp'
          cases hp'
        · rw [hl] at hl'
          cases hl'
      · unfold behindSection
        simp only [hcontent, hp, hl, List.append_assoc]

theorem repairs_at (hascii : Ascii text) {s : Sanitize} {rel : Nat} (hlt : s.pos < text.length)
    (hopen : index ((toLower text).drop s.pos) (lit "<![cdata[") = some rel)
    (ih : Repairs text (behindSection text s rel)) : Repairs text s := by
  have hpos : s.pos ≤ (toLower text).length := by rw [toLower_ascii hascii, List.length_map]; omega
  have hfirst := index_opener_some hascii hopen
  have hend := hfirst.1.le
  rw [List.length_drop] at hend
  have hstep : repairFrom text s = repairFrom text (behindSection text s rel) := by
    unfold repairFrom
    rw [(sanitizeTurn_decreases _ _).loop_eq s, sanitizeTurn_at hlt hpos hopen (by omega)]
  obtain ⟨y, r, hy, hr, hout, hsame⟩ := ih
  have hgrown := repairFrom_grown hr
  rw [← hstep] at hr
  rcases behindSection_cases s rel with ⟨n, k, hclose, hp, ho, hc⟩ | ⟨hnone, hstate⟩
  · rw [hp, ← List.drop_drop] at hy hsame
    rw [ho, List.append_assoc] at hout
    refine ⟨_, r, .closed hfirst hclose hy, hr, hout, fun hr => ?_⟩
    have hkept : (behindSection text s rel).changed = false := by
      by_contra hb
      rw [hgrown.changed (Bool.not_eq_false _ ▸ hb)] at hr
      cases hr
    rw [hc hkept, hsame hr, List.take_append_drop]
  · rw [hstate] at hy hout hgrown
    have hnil : y = [] := (Repaired.plain fun i hi => absurd hi.le (by
      rw [List.drop_length]; exact Nat.not_succ_le_zero _)).unique hy ▸ List.drop_length
    refine ⟨_, r, .stripped hfirst hnone, hr, by rw [hout, hnil, List.append_nil], fun hr => ?_⟩
    rw [hgrown.changed rfl] at hr
    cases hr

theorem repairs (hascii : Ascii text) (s : Sanitize) : Repairs text s := by
  -- every turn takes the position further
  induction hn : text.length - s.pos using Nat.strongRecOn generalizing s with
  | _ n ih =>
    rcases Nat.lt_or_ge s.pos text.length with hlt | hle
    · cases hopen : index ((toLower text).drop s.pos) (lit "<![cdata[") with
      | none => exact repairs_plain hascii hlt hopen
      | some rel =>
        refine repairs_at hascii hlt hopen (ih _ ?_ _ rfl)
        rcases behindSection_cases s rel with ⟨n, k, -, hp, -⟩ | ⟨-, hstate⟩
        · rw [hp]
          omega
        · rw [hstate]
          show text.length - text.length < n
          omega
    · exact repairs_end hle

theorem sanitizeLooseCDATA_repaired (hascii : Ascii text) :
    ∃ y, Repaired text y ∧ sanitizeLooseCDATA text = some y := by
  obtain ⟨y, r, hy, hr, hout, hsame⟩ := repairs hascii {}
  refine ⟨y, hy, ?_⟩
  have hloop : loop (fun s => text.length - s.pos) (sanitizeTurn text (toLower text)) {} = some r := hr
  unfold sanitizeLooseCDATA
  rw [hloop]
  show some (if r.changed = true then r.out else text) = some y
  cases hc : r.changed with
  | true => rw [if_pos rfl, hout]; rfl
  | false => rw [if_neg Bool.false_ne_true, hsame hc]; rfl

end Loop

/-- The repair of an ASCII text has all its openers closed, and is its own repair, exactly when the
    scan comes to no opener without a close or no opener is left where it was taken out. -/
theorem repair_closed_stable_iff (text : Bytes) (hascii : Ascii text) :
    ∃ out, sanitizeLooseCDATA text = some out ∧
      ((ClosedOpeners out ∧ sanitizeLooseCDATA out = some out) ↔ OnlyOpener text) := by
  obtain ⟨y, hy, hrun⟩ := sanitizeLooseCDATA_repaired hascii
  obtain ⟨z, hz, hagain⟩ := sanitizeLooseCDATA_repaired (hy.ascii hascii)
  obtain ⟨hclosed, z', hz', hsame⟩ := hy.settled hascii
  rw [← hz.unique hz'] at hsame
  refine ⟨y, hrun, ?_⟩
  rw [hagain, Option.some_inj, hclosed, hsame, and_self_iff]

theorem repair_closed_stable_loose : Ascii (lit "<![CDATA[a]]</p>") ∧
    ∃ out, sanitizeLooseCDATA (lit "<![CDATA[a]]</p>") = some out ∧
      ((ClosedOpeners out ∧ sanitizeLooseCDATA out = some out) ↔ OnlyOpener (lit "<![CDATA[a]]</p>")) :=
  ⟨by decide +kernel, repair_closed_stable_iff _ (by decide +kernel)⟩

theorem second_opener_left_open : Ascii (lit "<![CDATA[<![CDATA[x") ∧
    sanitizeLooseCDATA (lit "<![CDATA[<![CDATA[x") = some (lit "<![CDATA[x") ∧
    ¬ ClosedOpeners (lit "<![CDATA[x") ∧ sanitizeLooseCDATA (lit "<![CDATA[x") = some (lit "x") := by
  refine ⟨by decide +kernel, by decide +kernel, fun h => ?_, by decide +kernel⟩
  obtain ⟨j, hj, hat⟩ := h 0 (by decide)
  have hle := le_length_of_hasPrefix_drop (by decide) hat
  have hten : (lit "<![CDATA[x").length = 10 := by decide
  have hthree : (lit "]]>").length = 3 := by decide
  omega

end DeepSeekWebToApi.Toolcall
