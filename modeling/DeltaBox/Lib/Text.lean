import Mathlib.Data.List.Basic

/-!
# Lines of a text

`str.splitlines` and `str.rstrip`, with the line breaks and the blanks that the language knows.
-/

namespace DeltaBox

namespace OverList

/-- A statement about the characters of a list is decided by going through the list, not through all
characters. -/
scoped instance (priority := high) decidableBall (l : List Char) (p : Char → Prop)
    [DecidablePred p] : Decidable (∀ c ∈ l, p c) := List.decidableBAll p l

end OverList

namespace Text

/-- A character that ends a line. -/
def isBreak (c : Char) : Bool :=
  c.toNat ∈ [10, 11, 12, 13, 28, 29, 30, 133, 8232, 8233]

/-- `str.isspace` of one character. -/
def isSpace (c : Char) : Bool :=
  isBreak c || c.toNat ∈ [9, 31, 32, 160, 5760, 8239, 8287, 12288] ||
    (8192 ≤ c.toNat && c.toNat ≤ 8202)

/-- `str.splitlines()`. A text that ends in a line break has no empty line behind it. -/
def splitlines : List Char → List (List Char)
  | [] => []
  | '\r' :: '\n' :: cs => [] :: splitlines cs
  | c :: cs =>
    if isBreak c then [] :: splitlines cs
    else match splitlines cs with
      | [] => [[c]]
      | l :: ls => (c :: l) :: ls

/-- `str.rstrip()`. -/
def rstrip (cs : List Char) : List Char := (cs.reverse.dropWhile isSpace).reverse

example : splitlines "a\r\n\nb".toList = ["a".toList, [], "b".toList] := by decide +kernel

end Text

end DeltaBox
