import DeepSeekWebToApi.Lib.JsonAny

/- The text `fmt.Sprint` gives for a decoded JSON value: the elements of a slice between
   brackets, the entries of a map in the order of their keys. -/
namespace GoJson
open GoStrings

/-- What the language and `fmt` do with a float: the text of the verb `v`, which starts with
    a digit, a sign or the `N` of NaN, and the conversion to `int`. -/
structure FloatText (F : Type) where
  print : F → Bytes
  truncate : F → Int
  head : ∀ f, ∃ b rest, print f = b :: rest ∧ (isDigit b = true ∨ b ∈ lit "+-N")

/-- The conversions of a format that has the whole numbers only. -/
def wholeText : FloatText Int where
  print := formatInt
  truncate := id
  head n := by
    obtain ⟨b, rest, h, hb⟩ := (isNumber_formatInt n).head
    refine ⟨b, rest, h, hb.symm.imp_right ?_⟩
    rintro rfl
    decide

section sprint
variable {F : Type} (num : FloatText F)

mutual
/-- `fmt.Sprint`. What is not of a type the decoder gives to an `any` is not printed. -/
def Any.sprint : Any F → Bytes
  | .nil => lit "<nil>"
  | .bool b => if b then lit "true" else lit "false"
  | .float f => num.print f
  | .text s => s
  | .slice items => lit "[" ++ sprintItems items ++ lit "]"
  | .map entries => lit "map[" ++ sprintEntries entries ++ lit "]"
  | .other _ => []
def sprintItems : List (Any F) → Bytes
  | [] => []
  | [item] => item.sprint
  | item :: items => item.sprint ++ lit " " ++ sprintItems items
def sprintEntries : List (Bytes × Any F) → Bytes
  | [] => []
  | [(key, value)] => key ++ lit ":" ++ value.sprint
  | (key, value) :: entries => key ++ lit ":" ++ value.sprint ++ lit " " ++ sprintEntries entries
end

end sprint

end GoJson
