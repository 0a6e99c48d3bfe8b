/-
# Laying out texts

A text is written in front of what follows it: `write x rest` is the text of
`x`, then `rest`.  Nothing is copied, so a text takes time in proportion to its
length however deep the thing nests that it describes.
-/

namespace CapLisp

/-- Puts a separator in front of a text if there are more elements to come. -/
def separated {α : Type} (sep : List Char) : (more : List α) → List Char → List Char
  | [], text => text
  | _ :: _, text => sep ++ text

/-- Names with a space between neighbours, in front of `rest`. -/
def writeNames : List String → (rest : List Char) → List Char
  | [], rest => rest
  | name :: more, rest => name.toList ++ separated [' '] more (writeNames more rest)

end CapLisp
