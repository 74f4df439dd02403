import Mathlib.Algebra.Order.Ring.Int
import Mathlib.Data.List.DropRight

/- Go strings. A Go string is a sequence of bytes, so a text is a `List UInt8`;
   `range` loops and the `strings` functions that look at characters decode
   UTF-8 from it. `decodeRune` is `utf8.DecodeRune`: an ill-formed byte is the
   rune U+FFFD of width one. `splitRunes` cuts a text at the rune boundaries a
   forward decoding finds. Every valid encoding starts at such a boundary, so
   cutting from the right (`strings.TrimSpace`) sees the same runes. -/
namespace GoStrings

abbrev Bytes := List UInt8

instance Bytes.lawfulBEq : LawfulBEq Bytes := inferInstance

/-- The bytes of a string literal. -/
def lit (s : String) : Bytes := s.toUTF8.data.toList

/-- The rune an ill-formed byte decodes to. -/
def runeError : Nat := 0xFFFD

/-- Whether `b` lies in `lo..hi`. -/
def within (lo hi : Nat) (b : UInt8) : Bool := lo ≤ b.toNat && b.toNat ≤ hi

/-- What a first byte announces: its share of the rune and the range of every byte that has
    to follow. -/
def leadByte (x : Nat) : Option (Nat × List (Nat × Nat)) :=
  if x < 0x80 then some (x, [])
  else if x < 0xC2 then none
  else if x < 0xE0 then some (x - 0xC0, [(0x80, 0xBF)])
  else if x = 0xE0 then some (0, [(0xA0, 0xBF), (0x80, 0xBF)])
  else if x = 0xED then some (0xD, [(0x80, 0x9F), (0x80, 0xBF)])
  else if x < 0xF0 then some (x - 0xE0, [(0x80, 0xBF), (0x80, 0xBF)])
  else if x = 0xF0 then some (0, [(0x90, 0xBF), (0x80, 0xBF), (0x80, 0xBF)])
  else if x < 0xF4 then some (x - 0xF0, [(0x80, 0xBF), (0x80, 0xBF), (0x80, 0xBF)])
  else if x = 0xF4 then some (4, [(0x80, 0x8F), (0x80, 0xBF), (0x80, 0xBF)])
  else none

/-- The rune `r` extended by one byte for each range. -/
def decodeTail : Nat → List (Nat × Nat) → Bytes → Option Nat
  | r, [], _ => some r
  | r, (lo, hi) :: ranges, b :: s =>
    if within lo hi b then decodeTail (r * 64 + (b.toNat - 0x80)) ranges s else none
  | _, _ :: _, [] => none

/-- `utf8.DecodeRune`: the first rune of the text and its width in bytes. -/
def decodeRune : Bytes → Nat × Nat
  | [] => (runeError, 0)
  | b :: s =>
    match leadByte b.toNat with
    | some (r, ranges) =>
      match decodeTail r ranges s with
      | some r' => (r', ranges.length + 1)
      | none => (runeError, 1)
    | none => (runeError, 1)

/-- The runes of the text with the bytes each was decoded from, at most `n` of them. -/
def splitRunesAux : Nat → Bytes → List (Nat × Bytes)
  | 0, _ => []
  | _ + 1, [] => []
  | n + 1, b :: s =>
    let d := decodeRune (b :: s)
    (d.1, (b :: s).take d.2) :: splitRunesAux n ((b :: s).drop d.2)

/-- The runes of the text with the bytes each was decoded from. -/
def splitRunes (s : Bytes) : List (Nat × Bytes) := splitRunesAux s.length s

/-- The bytes of a list of runes. -/
def joinRunes (gs : List (Nat × Bytes)) : Bytes := gs.flatMap Prod.snd

/-- `unicode.IsSpace`. -/
def isSpace (r : Nat) : Bool :=
  (0x09 ≤ r && r ≤ 0x0D) || r == 0x20 || r == 0x85 || r == 0xA0 || r == 0x1680
    || (0x2000 ≤ r && r ≤ 0x200A) || r == 0x2028 || r == 0x2029 || r == 0x202F || r == 0x205F
    || r == 0x3000

def isSpaceRune (g : Nat × Bytes) : Bool := isSpace g.1

/-- `strings.TrimSpace`. -/
def trimSpace (s : Bytes) : Bytes :=
  joinRunes (((splitRunes s).dropWhile isSpaceRune).rdropWhile isSpaceRune)

/-- `strings.HasPrefix(s, p)`. -/
def hasPrefix (s p : Bytes) : Bool := p.isPrefixOf s

/-- `strings.Index(s, sub)`: the offset of the first occurrence. -/
def index (s sub : Bytes) : Option Nat :=
  if hasPrefix s sub then some 0
  else
    match s with
    | [] => none
    | _ :: t => (index t sub).map (· + 1)

/-- `strings.Contains(s, sub)`. -/
def contains (s sub : Bytes) : Bool := (index s sub).isSome

/-! Decoding one rune. -/

theorem decodeRune_width_pos (b : UInt8) (s : Bytes) : 1 ≤ (decodeRune (b :: s)).2 := by
  simp only [decodeRune]
  split
  · split <;> simp
  · simp

theorem decodeTail_length : ∀ {ranges : List (Nat × Nat)} {r r' : Nat} {s : Bytes},
    decodeTail r ranges s = some r' → ranges.length ≤ s.length
  | [], _, _, _, _ => Nat.zero_le _
  | _ :: _, _, _, [], h => by simp [decodeTail] at h
  | (lo, hi) :: ranges, _, _, b :: s, h => by
    simp only [decodeTail] at h
    split at h
    · simpa using decodeTail_length h
    · cases h

theorem decodeRune_width_le (s : Bytes) : (decodeRune s).2 ≤ s.length := by
  cases s with
  | nil => simp [decodeRune]
  | cons b s =>
    simp only [decodeRune]
    split
    · split
      · next h => simpa using decodeTail_length h
      · simp
    · simp

theorem leadByte_ranges {x r : Nat} {ranges : List (Nat × Nat)}
    (h : leadByte x = some (r, ranges)) :
    (ranges = [] → r = x) ∧ (ranges ≠ [] → 0x80 ≤ x) ∧ ∀ p ∈ ranges, 0x80 ≤ p.1 ∧ p.2 ≤ 0xBF := by
  unfold leadByte at h
  split_ifs at h
  all_goals
    obtain ⟨rfl, rfl⟩ := Prod.mk.inj (Option.some.inj h)
    simp
  all_goals omega

/-- The bytes a rune is extended by lie outside ASCII, and no rune begins with one. -/
theorem decodeTail_bytes : ∀ {ranges : List (Nat × Nat)} {r r' : Nat} {s : Bytes},
    (∀ p ∈ ranges, 0x80 ≤ p.1 ∧ p.2 ≤ 0xBF) → decodeTail r ranges s = some r' →
    ∀ b ∈ s.take ranges.length, 0x80 ≤ b.toNat ∧ b.toNat ≤ 0xBF
  | [], _, _, _, _, _ => by simp
  | _ :: _, _, _, [], _, _ => by simp
  | (lo, hi) :: ranges, _, _, b :: s, hr, h => by
    have hlo : 0x80 ≤ lo ∧ hi ≤ 0xBF := hr (lo, hi) List.mem_cons_self
    simp only [decodeTail] at h
    split at h
    · next hb =>
      simp only [within, Bool.and_eq_true, decide_eq_true_eq] at hb
      intro c hc
      simp only [List.length_cons, List.take_succ_cons, List.mem_cons] at hc
      rcases hc with rfl | hc
      · omega
      · exact decodeTail_bytes (fun p hp => hr p (List.mem_cons_of_mem _ hp)) h c hc
    · cases h

/-- A byte of a rune is the rune itself, or lies outside ASCII. -/
theorem decodeRune_bytes (s : Bytes) :
    ∀ b ∈ s.take (decodeRune s).2, b.toNat = (decodeRune s).1 ∨ 0x80 ≤ b.toNat := by
  cases s with
  | nil => simp
  | cons b0 s =>
    simp only [decodeRune]
    split
    · next r ranges hl =>
      obtain ⟨hnil, hcons, hlo⟩ := leadByte_ranges hl
      split
      · next r' ht =>
        intro b hb
        simp only [List.take_succ_cons, List.mem_cons] at hb
        rcases hb with rfl | hb
        · cases ranges with
          | nil =>
            simp only [decodeTail, Option.some.injEq] at ht
            exact Or.inl (by rw [← ht, hnil rfl])
          | cons p ranges => exact Or.inr (hcons (by simp))
        · exact Or.inr (decodeTail_bytes hlo ht b hb).1
      · next ht =>
        have hne : ranges ≠ [] := by rintro rfl; simp [decodeTail] at ht
        simpa using Or.inr (hcons hne)
    · next hl =>
      have : 0x80 ≤ b0.toNat := by
        unfold leadByte at hl
        split_ifs at hl <;> omega
      simpa using Or.inr this

/-- No rune begins with a byte behind the first one of a rune. -/
theorem decodeRune_tail (b : UInt8) (s : Bytes) :
    ∀ c ∈ ((b :: s).take (decodeRune (b :: s)).2).tail, 0x80 ≤ c.toNat ∧ c.toNat ≤ 0xBF := by
  simp only [decodeRune]
  split
  · next r ranges hl =>
    split
    · next r' ht => exact decodeTail_bytes (leadByte_ranges hl).2.2 ht
    · simp
  · simp

/-- A byte of a white-space rune is at most a blank or lies outside ASCII. -/
theorem decodeRune_space_bytes {s : Bytes} (h : isSpace (decodeRune s).1 = true) :
    ∀ b ∈ s.take (decodeRune s).2, b.toNat ≤ 0x20 ∨ 0x80 ≤ b.toNat := by
  intro b hb
  rcases decodeRune_bytes s b hb with hr | hr
  · rw [← hr] at h
    simp only [isSpace, Bool.or_eq_true, Bool.and_eq_true, decide_eq_true_eq, beq_iff_eq] at h
    omega
  · exact Or.inr hr

theorem decodeTail_append : ∀ (ranges : List (Nat × Nat)) (r : Nat) (u v : Bytes),
    (decodeTail r ranges u).isSome ∨ ranges.length ≤ u.length →
    decodeTail r ranges (u ++ v) = decodeTail r ranges u
  | [], _, _, _, _ => rfl
  | _ :: _, _, [], _, h => by simp [decodeTail] at h
  | (lo, hi) :: ranges, r, b :: u, v, h => by
    simp only [decodeTail, List.cons_append, List.length_cons] at h ⊢
    split
    · next hb =>
      rw [if_pos hb] at h
      exact decodeTail_append ranges _ u v (h.imp_right (by omega))
    · rfl

/-- Decoding reads no byte behind the rune it finds. -/
theorem decodeRune_append {u v : Bytes} (hu : u ≠ [])
    (h : (decodeRune (u ++ v)).2 ≤ u.length) : decodeRune u = decodeRune (u ++ v) := by
  cases u with
  | nil => exact absurd rfl hu
  | cons b u =>
    simp only [decodeRune, List.cons_append] at h ⊢
    cases hl : leadByte b.toNat with
    | none => rfl
    | some p =>
      obtain ⟨r, ranges⟩ := p
      simp only [hl] at h ⊢
      cases ht : decodeTail r ranges (u ++ v) with
      | some r' =>
        have hlen : ranges.length ≤ u.length := by simpa [ht] using h
        rw [← decodeTail_append ranges r u v (Or.inr hlen), ht]
      | none =>
        cases hd : decodeTail r ranges u with
        | none => rfl
        | some r' =>
          rw [decodeTail_append ranges r u v (Or.inl (by simp [hd])), hd] at ht
          cases ht

/-! Cutting a text into runes. -/

theorem splitRunesAux_fuel : ∀ (n : Nat) (s : Bytes), s.length ≤ n →
    splitRunesAux n s = splitRunes s
  | 0, [], _ => rfl
  | n + 1, [], _ => rfl
  | n + 1, b :: s, h => by
    have hw := decodeRune_width_pos b s
    have hlen : ((b :: s).drop (decodeRune (b :: s)).2).length ≤ s.length := by
      rw [List.length_drop, List.length_cons]; omega
    have hs : s.length ≤ n := Nat.le_of_succ_le_succ h
    simp only [splitRunes, splitRunesAux, List.length_cons]
    rw [splitRunesAux_fuel n _ (by omega), splitRunesAux_fuel s.length _ hlen]
  termination_by n => n

theorem splitRunes_cons (b : UInt8) (s : Bytes) :
    splitRunes (b :: s) =
      ((decodeRune (b :: s)).1, (b :: s).take (decodeRune (b :: s)).2) ::
        splitRunes ((b :: s).drop (decodeRune (b :: s)).2) := by
  have hw := decodeRune_width_pos b s
  have hlen : ((b :: s).drop (decodeRune (b :: s)).2).length ≤ s.length := by
    rw [List.length_drop, List.length_cons]; omega
  rw [← splitRunesAux_fuel s.length _ hlen]
  rfl

theorem joinRunes_splitRunesAux : ∀ (n : Nat) (s : Bytes), s.length ≤ n →
    joinRunes (splitRunesAux n s) = s
  | 0, [], _ => rfl
  | _ + 1, [], _ => rfl
  | n + 1, b :: s, h => by
    have hw := decodeRune_width_pos b s
    have hlen : ((b :: s).drop (decodeRune (b :: s)).2).length ≤ n := by
      rw [List.length_drop]
      simp only [List.length_cons] at h ⊢
      omega
    have ih := joinRunes_splitRunesAux n _ hlen
    simp only [joinRunes] at ih
    simp only [joinRunes, splitRunesAux, List.flatMap_cons, ih, List.take_append_drop]

@[simp] theorem joinRunes_splitRunes (s : Bytes) : joinRunes (splitRunes s) = s :=
  joinRunes_splitRunesAux s.length s (Nat.le_refl _)

theorem splitRunesAux_group : ∀ (n : Nat) (s : Bytes), ∀ g ∈ splitRunesAux n s,
    g.2 ≠ [] ∧ (isSpaceRune g = true → ∀ b ∈ g.2, b.toNat ≤ 0x20 ∨ 0x80 ≤ b.toNat)
  | 0, _, _, hg => by simp [splitRunesAux] at hg
  | _ + 1, [], _, hg => by simp [splitRunesAux] at hg
  | n + 1, b :: s, g, hg => by
    simp only [splitRunesAux, List.mem_cons] at hg
    rcases hg with rfl | hg
    · refine ⟨?_, fun h => decodeRune_space_bytes h⟩
      have := decodeRune_width_pos b s
      simp only [ne_eq, List.take_eq_nil_iff, reduceCtorEq, or_false]
      omega
    · exact splitRunesAux_group n _ g hg

/-- What is left of the runes of a text after dropping some in front is the runes of a text. -/
theorem splitRunes_suffix : ∀ {gs : List (Nat × Bytes)} (hs : List (Nat × Bytes)) (s : Bytes),
    splitRunes s = hs ++ gs → splitRunes (joinRunes gs) = gs
  | gs, [], s, h => by
    rw [List.nil_append] at h
    rw [← h, joinRunes_splitRunes]
  | gs, g :: hs, [], h => by cases h
  | gs, g :: hs, b :: s, h => by
    rw [splitRunes_cons, List.cons_append, List.cons.injEq] at h
    exact splitRunes_suffix hs _ h.2

/-- What is left of the runes of a text after dropping some at the end is the runes of a
    text: each rune is decoded from its own bytes. -/
theorem splitRunes_prefix : ∀ (gs hs : List (Nat × Bytes)) (s : Bytes),
    splitRunes s = gs ++ hs → splitRunes (joinRunes gs) = gs
  | [], _, _, _ => rfl
  | g :: gs, hs, [], h => by cases h
  | g :: gs, hs, b :: s, h => by
    rw [splitRunes_cons, List.cons_append, List.cons.injEq] at h
    obtain ⟨hg, hrest⟩ := h
    have ih := splitRunes_prefix gs hs _ hrest
    -- the text is the bytes of `g`, then those of `gs`, then those of `hs`
    have hbytes : (b :: s).drop (decodeRune (b :: s)).2 = joinRunes gs ++ joinRunes hs := by
      rw [← joinRunes_splitRunes ((b :: s).drop _), hrest]
      simp [joinRunes]
    have hsplit : (b :: s) = joinRunes (g :: gs) ++ joinRunes hs := by
      rw [← List.take_append_drop (decodeRune (b :: s)).2 (b :: s), hbytes, ← hg]
      simp [joinRunes]
    have hwle : (decodeRune (b :: s)).2 ≤ (joinRunes (g :: gs)).length := by
      rw [← hg]
      simp only [joinRunes, List.flatMap_cons, List.length_append, List.length_take]
      have := decodeRune_width_le (b :: s)
      omega
    have hne : joinRunes (g :: gs) ≠ [] := by
      have := decodeRune_width_pos b s
      rw [ne_eq, ← List.length_eq_zero_iff]
      omega
    have hdec : decodeRune (joinRunes (g :: gs)) = decodeRune (b :: s) := by
      rw [hsplit] at hwle ⊢
      exact decodeRune_append hne hwle
    obtain ⟨c, u, hu⟩ := List.exists_cons_of_ne_nil hne
    have htake : (joinRunes (g :: gs)).take (decodeRune (b :: s)).2 = g.2 ∧
        (joinRunes (g :: gs)).drop (decodeRune (b :: s)).2 = joinRunes gs := by
      have hlen : g.2.length = (decodeRune (b :: s)).2 := by
        rw [← hg, List.length_take]
        have := decodeRune_width_le (b :: s)
        omega
      rw [← hlen]
      simp [joinRunes]
    rw [hu, splitRunes_cons, ← hu, hdec, htake.1, htake.2, ih, ← hg]

/-- The runes of a trimmed text are those between the white space. -/
theorem splitRunes_trimSpace (s : Bytes) : splitRunes (trimSpace s) =
    ((splitRunes s).dropWhile isSpaceRune).rdropWhile isSpaceRune := by
  have hdrop : splitRunes (joinRunes ((splitRunes s).dropWhile isSpaceRune)) =
      (splitRunes s).dropWhile isSpaceRune :=
    splitRunes_suffix _ s (List.takeWhile_append_dropWhile).symm
  obtain ⟨rest, hrest⟩ := List.rdropWhile_prefix isSpaceRune ((splitRunes s).dropWhile isSpaceRune)
  exact splitRunes_prefix _ rest _ (hdrop.trans hrest.symm)

theorem trimSpace_idem (s : Bytes) : trimSpace (trimSpace s) = trimSpace s := by
  have hboth := splitRunes_trimSpace s
  obtain ⟨rest, hrest⟩ := List.rdropWhile_prefix isSpaceRune ((splitRunes s).dropWhile isSpaceRune)
  have hfront : (splitRunes (trimSpace s)).dropWhile isSpaceRune = splitRunes (trimSpace s) := by
    -- the runes kept begin with the first rune that is no white space
    rw [hboth]
    cases hkept : ((splitRunes s).dropWhile isSpaceRune).rdropWhile isSpaceRune with
    | nil => rfl
    | cons g gs =>
      rw [hkept] at hrest
      have hg : ¬ isSpaceRune g = true := by
        intro hsp
        have hself := List.dropWhile_idempotent (p := isSpaceRune) (splitRunes s)
        rw [← hrest, List.cons_append, List.dropWhile_cons_of_pos hsp] at hself
        have := congrArg List.length hself
        have := (List.dropWhile_sublist isSpaceRune (l := gs ++ rest)).length_le
        simp only [List.length_cons] at *
        omega
      exact List.dropWhile_cons_of_neg hg
  rw [trimSpace, hfront, hboth, List.rdropWhile_idempotent, ← hboth, joinRunes_splitRunes]

theorem joinRunes_start {gs hs : List (Nat × Bytes)} (h : gs <+: hs) : joinRunes gs <+: joinRunes hs := by
  obtain ⟨rest, rfl⟩ := h
  exact ⟨joinRunes rest, List.flatMap_append.symm⟩

theorem joinRunes_within {gs hs : List (Nat × Bytes)} (h : gs <:+: hs) : joinRunes gs <:+: joinRunes hs := by
  obtain ⟨front, back, hsplit⟩ := h
  have hjoin := congrArg joinRunes hsplit
  rw [joinRunes, List.flatMap_append, List.flatMap_append] at hjoin
  exact ⟨joinRunes front, joinRunes back, hjoin⟩

theorem trimSpace_within (s : Bytes) : trimSpace s <:+: s := by
  have hruns : ((splitRunes s).dropWhile isSpaceRune).rdropWhile isSpaceRune <:+: splitRunes s :=
    (List.rdropWhile_prefix _ _).isInfix.trans (List.dropWhile_suffix _).isInfix
  have hjoin := joinRunes_within hruns
  rwa [joinRunes_splitRunes] at hjoin

theorem length_trimSpace_le (s : Bytes) : (trimSpace s).length ≤ s.length := (trimSpace_within s).length_le

theorem trimSpace_eq_nil_space {s : Bytes} (h : trimSpace s = []) :
    ∀ g ∈ splitRunes s, isSpaceRune g = true := by
  -- nothing is left after both cuts: a rune left over would keep its bytes
  have hcut : ((splitRunes s).dropWhile isSpaceRune).rdropWhile isSpaceRune = [] := by
    rw [List.eq_nil_iff_forall_not_mem]
    intro g hg
    have hmem : g ∈ splitRunes s :=
      (List.dropWhile_suffix _).subset ((List.rdropWhile_prefix _ _).subset hg)
    exact (splitRunesAux_group _ _ g hmem).1 (List.flatMap_eq_nil_iff.mp h g hg)
  rw [List.rdropWhile_eq_nil_iff] at hcut
  have hdrop := List.dropWhile_eq_nil_iff.mpr hcut
  rw [List.dropWhile_idempotent] at hdrop
  exact List.dropWhile_eq_nil_iff.mp hdrop

/-- A text that `TrimSpace` empties has no byte in the printable range of ASCII. -/
theorem trimSpace_eq_nil_bytes {s : Bytes} (h : trimSpace s = []) :
    ∀ b ∈ s, b.toNat ≤ 0x20 ∨ 0x80 ≤ b.toNat := by
  intro b hb
  rw [← joinRunes_splitRunes s, joinRunes, List.mem_flatMap] at hb
  obtain ⟨g, hg, hbg⟩ := hb
  exact (splitRunesAux_group _ _ g hg).2 (trimSpace_eq_nil_space h g hg) b hbg

end GoStrings
