import DeepSeekWebToApi.Lib.RuneText
import DeepSeekWebToApi.Toolcall.Value

/- The repair of backslashes (`repairInvalidJSONBackslashes`). It writes the text rune by rune and
   doubles every backslash that starts no JSON escape, so the result has escapes only
   (`repair_spec`), and a second repair finds nothing to do. A text with a backslash is written
   anew as a whole: where it is not UTF-8 it changes even if its escapes are in order. -/
namespace DeepSeekWebToApi.Toolcall
open GoStrings

/-- Every backslash starts an escape: a short one, or a `u` with four hexadecimal digits. -/
inductive Escaped : List Nat → Prop
  | nil : Escaped []
  | plain {r : Nat} {rest : List Nat} (hr : r ≠ 0x5C) (h : Escaped rest) : Escaped (r :: rest)
  | short {next : Nat} {rest : List Nat} (hnext : next ∈ runes "\"\\/bfnrt") (h : Escaped rest) :
      Escaped (0x5C :: next :: rest)
  | unicode {a b c d : Nat} {rest : List Nat} (hhex : ∀ r ∈ [a, b, c, d], isHexRune r = true) (h : Escaped rest) :
      Escaped (0x5C :: 0x75 :: a :: b :: c :: d :: rest)

/-- The text has escapes only. -/
def BackslashNormal (s : Bytes) : Prop := Escaped ((splitRunes s).map Prod.fst)

/-- What is written for the runes of a text: escapes only, and the runes themselves if they have
    nothing else. -/
structure Written (rs : List Nat) (out : List Nat) : Prop where
  scalar : ∀ r ∈ out, Scalar r
  escaped : Escaped out
  same : Escaped rs → out = rs

theorem scalar_backslash : Scalar 0x5C := by decide

/-- A backslash that starts no escape is written twice. -/
theorem Written.double {rest out : List Nat} (h : Written rest out) (hstray : ¬ Escaped (0x5C :: rest)) :
    Written (0x5C :: rest) (0x5C :: 0x5C :: out) := by
  refine ⟨?_, .short (by decide) h.escaped, fun hescaped => absurd hescaped hstray⟩
  exact List.forall_mem_cons.mpr ⟨scalar_backslash, List.forall_mem_cons.mpr ⟨scalar_backslash, h.scalar⟩⟩

/-- What the loop writes. The cases are those of its body. -/
theorem repair_spec (rs : List Nat) (hrs : ∀ r ∈ rs, Scalar r) :
    ∃ out, repairBackslashRunes rs = encode out ∧ Written rs out := by
  fun_induction repairBackslashRunes rs with
  | case1 => exact ⟨[], rfl, List.forall_mem_nil _, .nil, fun _ => rfl⟩
  | case2 r rest hr ih =>
    obtain ⟨hscalar, hrest⟩ := List.forall_mem_cons.mp hrs
    obtain ⟨out, hout, hwritten⟩ := ih hrest
    refine ⟨r :: out, by rw [hout]; rfl, List.forall_mem_cons.mpr ⟨hscalar, hwritten.scalar⟩,
      .plain hr hwritten.escaped, fun hescaped => ?_⟩
    cases hescaped with
    | plain _ h => rw [hwritten.same h]
    | short _ _ => exact absurd rfl hr
    | unicode _ _ => exact absurd rfl hr
  | case3 r hr =>
    obtain rfl := not_not.mp hr
    refine ⟨[0x5C, 0x5C], rfl, Written.double ⟨List.forall_mem_nil _, .nil, fun _ => rfl⟩ fun hescaped => ?_⟩
    cases hescaped with
    | plain hr _ => exact hr rfl
  | case4 r hr next rest hnext ih =>
    obtain rfl := not_not.mp hr
    obtain ⟨-, hrs⟩ := List.forall_mem_cons.mp hrs
    obtain ⟨hscalar, hrest⟩ := List.forall_mem_cons.mp hrs
    obtain ⟨out, hout, hwritten⟩ := ih hrest
    have hmem : next ∈ runes "\"\\/bfnrt" := List.contains_iff_mem.mp hnext
    refine ⟨0x5C :: next :: out, ?_, ?_, .short hmem hwritten.escaped, fun hescaped => ?_⟩
    · rw [hout, List.append_assoc]
      rfl
    · exact List.forall_mem_cons.mpr ⟨scalar_backslash, List.forall_mem_cons.mpr ⟨hscalar, hwritten.scalar⟩⟩
    · cases hescaped with
      | plain hr _ => exact absurd rfl hr
      | short _ h => rw [hwritten.same h]
      | unicode _ _ => exact absurd hmem (by decide)
  | case5 r hr a b c d rest hhex _ ih =>
    obtain rfl := not_not.mp hr
    have hfront : ∀ r ∈ [0x5C, 0x75, a, b, c, d], Scalar r := fun r hr => hrs r (List.mem_append_left rest hr)
    obtain ⟨out, hout, hwritten⟩ := ih fun r hr => hrs r (List.mem_append_right [0x5C, 0x75, a, b, c, d] hr)
    refine ⟨[0x5C, 0x75, a, b, c, d] ++ out, ?_, List.forall_mem_append.mpr ⟨hfront, hwritten.scalar⟩,
      .unicode (List.all_eq_true.mp hhex) hwritten.escaped, fun hescaped => ?_⟩
    · rw [hout, encode_append]
      rfl
    · cases hescaped with
      | plain hr _ => exact absurd rfl hr
      | short hnext _ => exact absurd hnext (by decide)
      | unicode _ h => rw [hwritten.same h]; rfl
  | case6 r hr a b c d rest hhex hnext ih =>
    obtain rfl := not_not.mp hr
    obtain ⟨-, hrest⟩ := List.forall_mem_cons.mp hrs
    obtain ⟨out, hout, hwritten⟩ := ih hrest
    refine ⟨0x5C :: 0x5C :: out, by rw [hout]; rfl, hwritten.double fun hescaped => ?_⟩
    cases hescaped with
    | plain hr _ => exact hr rfl
    | short hmem _ => exact hnext (List.contains_iff_mem.mpr hmem)
    | unicode h _ => exact hhex (List.all_eq_true.mpr h)
  | case7 r hr next rest hother hnext ih =>
    obtain rfl := not_not.mp hr
    obtain ⟨-, hrest⟩ := List.forall_mem_cons.mp hrs
    obtain ⟨out, hout, hwritten⟩ := ih hrest
    refine ⟨0x5C :: 0x5C :: out, by rw [hout]; rfl, hwritten.double fun hescaped => ?_⟩
    cases hescaped with
    | plain hr _ => exact hr rfl
    | short hmem _ => exact hnext (List.contains_iff_mem.mpr hmem)
    | unicode _ _ => exact hother _ _ _ _ _ rfl rfl

/-! Texts. -/

theorem runes_scalar (s : Bytes) : ∀ r ∈ (splitRunes s).map Prod.fst, Scalar r := by
  intro r hr
  obtain ⟨g, hg, rfl⟩ := List.mem_map.mp hr
  exact splitRunes_scalar _ g hg

theorem runes_encode {rs : List Nat} (h : ∀ r ∈ rs, Scalar r) : (splitRunes (encode rs)).map Prod.fst = rs := by
  rw [splitRunes_encode h, List.map_map]
  exact List.map_id rs

/-- A rune of ASCII is a byte of the text. -/
theorem mem_of_mem_runes {b : UInt8} (hb : b.toNat < 0x80) : ∀ {s : Bytes},
    b.toNat ∈ (splitRunes s).map Prod.fst → b ∈ s
  | [], h => absurd h List.not_mem_nil
  | c :: s, h => by
    by_cases hc : c.toNat < 0x80
    · rw [splitRunes_ascii hc, List.map_cons, List.mem_cons] at h
      rcases h with h | h
      · rw [UInt8.toNat_inj.mp h]
        exact List.mem_cons_self
      · exact List.mem_cons_of_mem c (mem_of_mem_runes hb h)
    · have hpos := decodeRune_width_pos c s
      have hout := decodeRune_outside (Nat.not_lt.mp hc) s
      rw [splitRunes_cons, List.map_cons, List.mem_cons] at h
      rcases h with h | h
      · omega
      · exact List.mem_of_mem_drop (mem_of_mem_runes hb h)
  termination_by s => s.length
  decreasing_by
    · simp only [List.length_cons]
      omega
    · simp only [List.length_drop, List.length_cons]
      omega

theorem escaped_of_no_backslash : ∀ {rs : List Nat}, 0x5C ∉ rs → Escaped rs
  | [], _ => .nil
  | r :: _, h => .plain (fun hr => h (hr ▸ List.mem_cons_self)) (escaped_of_no_backslash fun hmem =>
      h (List.mem_cons_of_mem r hmem))

theorem normal_of_no_backslash {s : Bytes} (h : contains s (lit "\\") = false) : BackslashNormal s := by
  apply escaped_of_no_backslash
  intro hmem
  have hbyte : '\\'.toUInt8 ∈ s := mem_of_mem_runes (b := '\\'.toUInt8) (by decide) hmem
  obtain ⟨u, v, rfl⟩ := List.append_of_mem hbyte
  rw [Bool.eq_false_iff] at h
  exact h (contains_iff_within.mpr ⟨u, v, by rw [List.append_assoc]; rfl⟩)

/-- A text in UTF-8 with escapes only is returned as it is. -/
theorem repair_of_normal {s : Bytes} (hutf8 : IsUtf8 s) (h : BackslashNormal s) : repairInvalidJSONBackslashes s = s := by
  unfold repairInvalidJSONBackslashes
  split
  · rfl
  · obtain ⟨rs, hrs, rfl⟩ := hutf8
    obtain ⟨out, hout, hwritten⟩ := repair_spec _ (runes_scalar (encode rs))
    rw [hout, hwritten.same h, runes_encode hrs]

/-- The result of the repair has escapes only, and a second repair leaves it as it is. A text comes
    back unchanged exactly if it has escapes only and either no backslash at all or no byte that
    is not UTF-8. -/
theorem repair_backslashes_normal (s : Bytes) :
    BackslashNormal (repairInvalidJSONBackslashes s) ∧
    repairInvalidJSONBackslashes (repairInvalidJSONBackslashes s) = repairInvalidJSONBackslashes s ∧
    (repairInvalidJSONBackslashes s = s ↔
      BackslashNormal s ∧ (contains s (lit "\\") = false ∨ IsUtf8 s)) := by
  by_cases hback : contains s (lit "\\") = true
  · obtain ⟨out, hout, hwritten⟩ := repair_spec _ (runes_scalar s)
    have hrepair : repairInvalidJSONBackslashes s = encode out := by
      rw [repairInvalidJSONBackslashes, if_neg (not_not.mpr hback), hout]
    have hutf8 : IsUtf8 (encode out) := ⟨out, hwritten.scalar, rfl⟩
    have hnormal : BackslashNormal (encode out) := by
      rw [BackslashNormal, runes_encode hwritten.scalar]
      exact hwritten.escaped
    rw [hrepair]
    refine ⟨hnormal, repair_of_normal hutf8 hnormal, fun hsame => ?_, fun ⟨h, hcase⟩ => ?_⟩
    · rw [← hsame]
      exact ⟨hnormal, Or.inr hutf8⟩
    · rcases hcase with hnone | hs
      · rw [hback] at hnone
        cases hnone
      · exact hrepair.symm.trans (repair_of_normal hs h)
  · have hnone : contains s (lit "\\") = false := Bool.eq_false_iff.mpr hback
    have hsame : repairInvalidJSONBackslashes s = s := by rw [repairInvalidJSONBackslashes, if_pos hback]
    rw [hsame, hsame]
    exact ⟨normal_of_no_backslash hnone, rfl, fun _ => ⟨normal_of_no_backslash hnone, Or.inl hnone⟩, fun _ => rfl⟩

/-- A byte that is not UTF-8 is replaced although the only backslash starts an escape. -/
theorem repair_replaces_bytes : BackslashNormal [0xFF, 0x5C, 0x6E] ∧
    repairInvalidJSONBackslashes [0xFF, 0x5C, 0x6E] = lit "\ufffd\\n" ∧
    lit "\ufffd\\n" ≠ [0xFF, 0x5C, 0x6E] := by
  have hrunes : (splitRunes [0xFF, 0x5C, 0x6E]).map Prod.fst = [0xFFFD, 0x5C, 0x6E] := by decide +kernel
  refine ⟨?_, by decide +kernel, by decide +kernel⟩
  rw [BackslashNormal, hrunes]
  exact .plain (by decide) (.short (by decide) .nil)

end DeepSeekWebToApi.Toolcall
