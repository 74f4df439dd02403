import DeepSeekWebToApi.Lib.Text

/- Go regular expressions. `Re.ends` lists the ways an expression can match at a
   position, best first, in the order of a backtracking matcher: earlier
   alternatives before later ones, longer repetitions before shorter ones (the other
   way round for lazy ones). The match Go reports is the first one at the leftmost
   position that has any, and a group's text is the one of its last repetition.
   Expressions read runes; positions are byte offsets. -/
namespace GoRegexp
open GoStrings

inductive Re where
  | empty
  | rune (p : Nat → Bool)
  | seq (a b : Re)
  | alt (a b : Re)
  | star (greedy : Bool) (a : Re)
  | group (n : Nat) (a : Re)
  | beginText
  | endText
  /-- `$` with the flag `m` -/
  | endLine
  | wordBoundary

/-- A position in a text: the rune before it, its offset, the runes after it, and the groups
    matched on the way, as number, start and end, the last one first. -/
structure Cursor where
  prev : Option Nat := none
  pos : Nat := 0
  rest : List (Nat × Bytes)
  groups : List (Nat × Nat × Nat) := []

def isWordRune (r : Nat) : Bool :=
  (0x30 ≤ r && r ≤ 0x39) || (0x41 ≤ r && r ≤ 0x5A) || (0x61 ≤ r && r ≤ 0x7A) || r == 0x5F

def Cursor.atWordBoundary (c : Cursor) : Bool :=
  (c.prev.any isWordRune) != (c.rest.head?.any (fun g => isWordRune g.1))

/-- Up to `n` repetitions of a match that is not empty. -/
def repeatEnds (greedy : Bool) (ends : Cursor → List Cursor) : Nat → Cursor → List Cursor
  | 0, c => [c]
  | n + 1, c =>
    let more := (ends c).flatMap (fun d => if d.pos = c.pos then [] else repeatEnds greedy ends n d)
    if greedy then more ++ [c] else c :: more

/-- Where the expression can end when it starts at `c`, best first. -/
def Re.ends : Re → Cursor → List Cursor
  | .empty, c => [c]
  | .rune p, c =>
    match c.rest with
    | [] => []
    | (r, bs) :: rest =>
      if p r then [{ c with prev := some r, pos := c.pos + bs.length, rest }] else []
  | .seq a b, c => (a.ends c).flatMap b.ends
  | .alt a b, c => a.ends c ++ b.ends c
  -- a repetition reads at least one rune each time
  | .star greedy a, c => repeatEnds greedy a.ends c.rest.length c
  | .group n a, c => (a.ends c).map (fun d => { d with groups := (n, c.pos, d.pos) :: d.groups })
  | .beginText, c => if c.pos = 0 then [c] else []
  | .endText, c => if c.rest.isEmpty then [c] else []
  | .endLine, c => if c.rest.head?.all (fun g => g.1 == 0x0A) then [c] else []
  | .wordBoundary, c => if c.atWordBoundary then [c] else []

structure Match where
  start : Nat
  stop : Nat
  groups : List (Nat × Nat × Nat)

/-- The submatch of a group, where the group took part in the match. -/
def Match.group (m : Match) (n : Nat) : Option (Nat × Nat) :=
  (m.groups.find? (fun g => g.1 == n)).map Prod.snd

/-- The text of a group, empty where the group took no part. -/
def Match.text (m : Match) (s : Bytes) (n : Nat) : Bytes :=
  match m.group n with
  | some (i, j) => (s.drop i).take (j - i)
  | none => []

/-- The match at a position, with the position after it. -/
def Re.matchAt (re : Re) (c : Cursor) : Option (Match × Cursor) :=
  (re.ends c).head?.map (fun d => ({ start := c.pos, stop := d.pos, groups := d.groups }, d))

/-- The leftmost match from a position on, with the position after it. -/
def Re.search (re : Re) : Option Nat → Nat → List (Nat × Bytes) → Option (Match × Cursor)
  | prev, pos, [] => re.matchAt { prev, pos, rest := [] }
  | prev, pos, (r, bs) :: rest =>
    (re.matchAt { prev, pos, rest := (r, bs) :: rest }).or
      (re.search (some r) (pos + bs.length) rest)

/-- Successive matches, at most `n` of them. -/
def Re.searchAll (re : Re) : Nat → Cursor → List Match
  | 0, _ => []
  | n + 1, c =>
    match re.search c.prev c.pos c.rest with
    | none => []
    | some (m, d) => m :: re.searchAll n d

/-- `FindStringSubmatchIndex`. -/
def Re.find (re : Re) (s : Bytes) : Option Match := (re.search none 0 (splitRunes s)).map Prod.fst

/-- `FindAllStringSubmatchIndex` for an expression without empty matches. -/
def Re.findAll (re : Re) (s : Bytes) : List Match :=
  re.searchAll s.length { rest := splitRunes s }

/-- The text from `pos` on with each match replaced. -/
def replaceMatches (s : Bytes) (repl : Match → Bytes) : Nat → List Match → Bytes
  | pos, [] => s.drop pos
  | pos, m :: ms => (s.drop pos).take (m.start - pos) ++ repl m ++ replaceMatches s repl m.stop ms

/-- `ReplaceAllString`, the replacement given as a function of the match. -/
def Re.replaceAll (re : Re) (s : Bytes) (repl : Match → Bytes) : Bytes :=
  replaceMatches s repl 0 (re.findAll s)

/-! Building expressions. -/

def Re.plus (a : Re) : Re := .seq a (.star true a)
def Re.opt (a : Re) : Re := .alt a .empty

/-- Any rune (the flag `s` is set wherever `.` is used). -/
def Re.any : Re := .rune (fun _ => true)

def Re.seqs : List Re → Re
  | [] => .empty
  | [a] => a
  | a :: as => .seq a (Re.seqs as)

def Re.alts : List Re → Re
  | [] => .rune (fun _ => false)
  | [a] => a
  | a :: as => .alt a (Re.alts as)

/-- A literal text. -/
def Re.text (s : String) : Re := Re.seqs ((runes s).map (fun c => .rune (· == c)))

/-- A literal text in any case; `s` is in lower case. -/
def Re.textFold (s : String) : Re := Re.seqs ((runes s).map (fun c => .rune (fun r => foldRune r == c)))

/-- One of the given runes. -/
def Re.oneOf (s : String) : Re := .rune (fun r => (runes s).contains r)

/-- None of the given runes. -/
def Re.noneOf (s : String) : Re := .rune (fun r => !(runes s).contains r)

def isReSpace (r : Nat) : Bool := r == 0x09 || r == 0x0A || r == 0x0C || r == 0x0D || r == 0x20

/-- `\s*`. -/
def Re.spaces : Re := .star true (.rune isReSpace)

/-! A match moves right through the text, and its groups lie inside it. -/

/-- `d` comes from `c` by reading runes; the groups it has beyond those of `c` lie between. -/
structure Cursor.Reaches (c d : Cursor) : Prop where
  reads : ∃ gs, c.rest = gs ++ d.rest ∧ d.pos = c.pos + (joinRunes gs).length
  groups : ∀ g ∈ d.groups, g ∈ c.groups ∨ c.pos ≤ g.2.1 ∧ g.2.2 ≤ d.pos

theorem Cursor.Reaches.refl (c : Cursor) : c.Reaches c :=
  ⟨⟨[], rfl, rfl⟩, fun _ hg => Or.inl hg⟩

theorem Cursor.Reaches.pos_le {c d : Cursor} (h : c.Reaches d) : c.pos ≤ d.pos := by
  obtain ⟨gs, -, hpos⟩ := h.reads
  omega

theorem Cursor.Reaches.trans {c d e : Cursor} (h : c.Reaches d) (h' : d.Reaches e) :
    c.Reaches e := by
  obtain ⟨gs, hgs, hd⟩ := h.reads
  obtain ⟨hs, hhs, he⟩ := h'.reads
  refine ⟨⟨gs ++ hs, by rw [hgs, hhs, List.append_assoc], ?_⟩, fun g hg => ?_⟩
  · rw [he, hd, joinRunes, joinRunes, joinRunes, List.flatMap_append, List.length_append]
    omega
  · have hcd := h.pos_le
    have hde := h'.pos_le
    rcases h'.groups g hg with hg | hg
    · rcases h.groups g hg with hg | hg
      · exact Or.inl hg
      · exact Or.inr ⟨hg.1, by omega⟩
    · exact Or.inr ⟨by omega, hg.2⟩

theorem repeatEnds_reaches {greedy : Bool} {ends : Cursor → List Cursor}
    (h : ∀ c, ∀ d ∈ ends c, c.Reaches d) :
    ∀ (n : Nat) (c : Cursor), ∀ d ∈ repeatEnds greedy ends n c, c.Reaches d
  | 0, c, d, hd => by
    rw [repeatEnds, List.mem_singleton] at hd
    exact hd ▸ .refl c
  | n + 1, c, d, hd => by
    have hmore : ∀ e ∈ (ends c).flatMap
        (fun d => if d.pos = c.pos then [] else repeatEnds greedy ends n d), c.Reaches e := by
      intro e he
      obtain ⟨f, hf, he⟩ := List.mem_flatMap.mp he
      split at he
      · cases he
      · exact (h c f hf).trans (repeatEnds_reaches h n f e he)
    simp only [repeatEnds] at hd
    split at hd
    · rcases List.mem_append.mp hd with hd | hd
      · exact hmore d hd
      · exact List.mem_singleton.mp hd ▸ .refl c
    · rcases List.mem_cons.mp hd with rfl | hd
      · exact .refl d
      · exact hmore d hd

theorem Re.ends_reaches : ∀ (re : Re) (c : Cursor), ∀ d ∈ re.ends c, c.Reaches d
  | .empty, c, d, hd => List.mem_singleton.mp hd ▸ .refl c
  | .rune p, c, d, hd => by
    unfold Re.ends at hd
    split at hd
    · cases hd
    · next r bs rest hrest =>
      split at hd
      · cases List.mem_singleton.mp hd
        refine ⟨⟨[(r, bs)], hrest, ?_⟩, fun g hg => Or.inl hg⟩
        simp [joinRunes]
      · cases hd
  | .seq a b, c, d, hd => by
    obtain ⟨e, he, hd⟩ := List.mem_flatMap.mp hd
    exact (a.ends_reaches c e he).trans (b.ends_reaches e d hd)
  | .alt a b, c, d, hd => by
    rcases List.mem_append.mp hd with hd | hd
    · exact a.ends_reaches c d hd
    · exact b.ends_reaches c d hd
  | .star _ a, c, d, hd => repeatEnds_reaches a.ends_reaches c.rest.length c d hd
  | .group n a, c, d, hd => by
    obtain ⟨e, he, rfl⟩ := List.mem_map.mp hd
    have hreach := a.ends_reaches c e he
    refine ⟨hreach.reads, fun g hg => ?_⟩
    rcases List.mem_cons.mp hg with rfl | hg
    · exact Or.inr ⟨Nat.le_refl _, Nat.le_refl _⟩
    · exact hreach.groups g hg
  | .beginText, c, d, hd => by
    unfold Re.ends at hd
    split at hd
    · exact List.mem_singleton.mp hd ▸ .refl c
    · cases hd
  | .endText, c, d, hd => by
    unfold Re.ends at hd
    split at hd
    · exact List.mem_singleton.mp hd ▸ .refl c
    · cases hd
  | .endLine, c, d, hd => by
    unfold Re.ends at hd
    split at hd
    · exact List.mem_singleton.mp hd ▸ .refl c
    · cases hd
  | .wordBoundary, c, d, hd => by
    unfold Re.ends at hd
    split at hd
    · exact List.mem_singleton.mp hd ▸ .refl c
    · cases hd

/-- A position in a text of the given length, with runes that have bytes. -/
structure Cursor.Within (length : Nat) (c : Cursor) : Prop where
  rest : c.pos + (joinRunes c.rest).length = length
  runes : ∀ g ∈ c.rest, g.2 ≠ []

theorem Cursor.Within.reaches {length : Nat} {c d : Cursor} (hc : c.Within length)
    (h : c.Reaches d) : d.Within length := by
  obtain ⟨gs, hgs, hpos⟩ := h.reads
  refine ⟨?_, fun g hg => hc.runes g (hgs ▸ List.mem_append_right gs hg)⟩
  rw [← hc.rest, hgs, hpos, joinRunes, joinRunes, joinRunes, List.flatMap_append,
    List.length_append]
  omega

theorem Re.search_spec {re : Re} {length : Nat} : ∀ (rest : List (Nat × Bytes)) {prev : Option Nat}
    {pos : Nat} {m : Match} {d : Cursor}, Cursor.Within length { prev, pos, rest } →
    re.search prev pos rest = some (m, d) →
    ∃ c : Cursor, c.Within length ∧ c.groups = [] ∧ d ∈ re.ends c ∧
      m = { start := c.pos, stop := d.pos, groups := d.groups }
  | [], prev, pos, m, d, hw, h => by
    obtain ⟨e, he, hmd⟩ := Option.map_eq_some_iff.mp h
    cases hmd
    exact ⟨_, hw, rfl, List.mem_of_head? he, rfl⟩
  | (r, bs) :: rest, prev, pos, m, d, hw, h => by
    rcases Option.or_eq_some_iff.mp h with h | ⟨-, h⟩
    · obtain ⟨e, he, hmd⟩ := Option.map_eq_some_iff.mp h
      cases hmd
      exact ⟨_, hw, rfl, List.mem_of_head? he, rfl⟩
    · refine Re.search_spec rest ?_ h
      have hrest := hw.rest
      refine ⟨?_, fun g hg => hw.runes g (List.mem_cons_of_mem _ hg)⟩
      simp only [joinRunes, List.flatMap_cons, List.length_append] at hrest ⊢
      omega

theorem Re.searchAll_spec {re : Re} {length : Nat} : ∀ (n : Nat) {c : Cursor} {m : Match},
    c.Within length → m ∈ re.searchAll n c →
    ∃ c d : Cursor, c.Within length ∧ c.groups = [] ∧ d ∈ re.ends c ∧
      m = { start := c.pos, stop := d.pos, groups := d.groups }
  | 0, _, _, _, h => by cases h
  | n + 1, c, m, hw, h => by
    unfold Re.searchAll at h
    split at h
    · cases h
    · next m' d hsearch =>
      have hw' : Cursor.Within length { prev := c.prev, pos := c.pos, rest := c.rest } :=
        ⟨hw.rest, hw.runes⟩
      obtain ⟨e, he, hnil, hends, hgroups⟩ := Re.search_spec c.rest hw' hsearch
      rcases List.mem_cons.mp h with rfl | h
      · exact ⟨e, d, he, hnil, hends, hgroups⟩
      · exact Re.searchAll_spec n (he.reaches (re.ends_reaches e d hends)) h

theorem Cursor.within_start (s : Bytes) : Cursor.Within s.length { rest := splitRunes s } :=
  ⟨by simp, fun g hg => (splitRunesAux_group _ _ g hg).1⟩

/-- A rune takes a byte at least, and no group. -/
theorem Re.rune_moves {p : Nat → Bool} {length : Nat} {c d : Cursor} (hc : c.Within length)
    (h : d ∈ (Re.rune p).ends c) : d.groups = c.groups ∧ c.pos < d.pos := by
  unfold Re.ends at h
  split at h
  · cases h
  · next r bs rest hrest =>
    split at h
    · cases List.mem_singleton.mp h
      have hbs : bs ≠ [] := hc.runes (r, bs) (by rw [hrest]; exact List.mem_cons_self)
      exact ⟨rfl, Nat.lt_add_of_pos_right (List.length_pos_iff.mpr hbs)⟩
    · cases h

/-- The groups after a first rune are shorter than the text. -/
theorem Re.length_text_lt {p : Nat → Bool} {tail : Re} {s : Bytes} {m : Match}
    (h : m ∈ (Re.seq (.rune p) tail).findAll s) (n : Nat) : (m.text s n).length < s.length := by
  obtain ⟨c, d, hc, hnil, hends, rfl⟩ := Re.searchAll_spec _ (Cursor.within_start s) h
  obtain ⟨e, he, hd⟩ := List.mem_flatMap.mp hends
  obtain ⟨hgroups, hfirst⟩ := Re.rune_moves hc he
  have hreach := tail.ends_reaches e d hd
  have hpos := hreach.pos_le
  have hlen := ((hc.reaches ((Re.rune p).ends_reaches c e he)).reaches hreach).rest
  unfold Match.text
  split
  · next i j hgroup =>
    obtain ⟨g, hg, hij⟩ := Option.map_eq_some_iff.mp hgroup
    have hbounds : e.pos ≤ g.2.1 ∧ g.2.2 ≤ d.pos := by
      rcases hreach.groups g (List.mem_of_find?_eq_some hg) with hmem | hb
      · rw [hgroups, hnil] at hmem
        cases hmem
      · exact hb
    rw [hij] at hbounds
    simp only [List.length_take, List.length_drop] at *
    omega
  · simp only [List.length_nil]
    omega

example : ((Re.plus (Re.oneOf "ab")).find (lit "xaby")).map (fun m => (m.start, m.stop)) =
    some (1, 3) := by decide
example : (Re.seqs [.text "<", .star false .any, .text ">"]).replaceAll (lit "a<b>c>") (fun _ => lit "_") =
    lit "a_c>" := by decide

theorem Re.findAll_of_find_none {re : Re} {s : Bytes} (h : re.find s = none) : re.findAll s = [] := by
  rw [Re.find, Option.map_eq_none_iff] at h
  rw [Re.findAll]
  cases s.length with
  | zero => rfl
  | succ n =>
    rw [Re.searchAll]
    simp only [h]

/-- Where nothing matches nothing is replaced. -/
theorem Re.replaceAll_of_find_none {re : Re} {s : Bytes} (h : re.find s = none) (repl : Match → Bytes) :
    re.replaceAll s repl = s := by
  rw [Re.replaceAll, Re.findAll_of_find_none h]
  rfl

end GoRegexp
