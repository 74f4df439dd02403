import DeepSeekWebToApi.Lib.Unicode

/- Upper case, by a table of ranges like the one of lower case. The two are not inverse to
   each other: U+0131 and U+017F have the capitals of `i` and `s`, and the text of U+0250
   grows by a byte. -/
namespace GoStrings

/-- A range turned round. -/
def CaseRange.turned (c : CaseRange) : CaseRange :=
  ⟨(c.lo + c.delta).toNat, (c.hi + c.delta).toNat, c.stride, -c.delta⟩

/-- The upper-case mappings outside ASCII: those that do not turn a lower-case one round, and the
    others. -/
def upperRanges : List CaseRange :=
  [(0xB5, 743), (0xDF, 0), (0x131, -232), (0x17F, -300), (0x1C5, -1), (0x1C6, -2), (0x1C8, -1),
   (0x1C9, -2), (0x1CB, -1), (0x1CC, -2), (0x1F2, -1), (0x1F3, -2), (0x345, 84), (0x3C2, -31),
   (0x3D0, -62), (0x3D1, -57), (0x3D5, -47), (0x3D6, -54), (0x3F0, -86), (0x3F1, -80), (0x3F5, -96),
   (0x1C80, -6254), (0x1C81, -6253), (0x1C82, -6244), (0x1C83, -6242), (0x1C84, -6242), (0x1C85, -6243),
   (0x1C86, -6236), (0x1C87, -6181), (0x1C88, 35266), (0x1E9B, -59), (0x1FBE, -7205)].map CaseRange.single ++
    caseRanges.map CaseRange.turned

/-- `unicode.ToUpper`. -/
def upperRune (r : Nat) : Nat :=
  if r < 0x80 then (if 0x61 ≤ r ∧ r ≤ 0x7A then r - 32 else r)
  else
    match upperRanges.find? (fun c => c.lo ≤ r && r ≤ c.hi && (r - c.lo) % c.stride == 0) with
    | some c => (r + c.delta).toNat
    | none => r

/-- Upper-case an ASCII byte. -/
def upperAscii (b : UInt8) : UInt8 := if within 0x61 0x7A b then b - 32 else b

/-- `strings.ToUpper`. -/
def toUpper (s : Bytes) : Bytes :=
  if s.all (· < 0x80) then s.map upperAscii
  else (splitRunes s).flatMap (fun g => encodeRune (upperRune g.1))

example : toUpper (lit "response") = lit "RESPONSE" := by decide
example : toUpper (lit "thınk") = lit "THINK" := by decide

end GoStrings
