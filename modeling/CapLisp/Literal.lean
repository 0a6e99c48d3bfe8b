/-
# String literals

A string is written between quotes.  Five characters are written as a
backslash and a letter or sign, every other one stands for itself.

| character | escape |
| --- | --- |
| quote | `\"` |
| backslash | `\\` |
| line feed | `\n` |
| tab | `\t` |
| carriage return | `\r` |

Reading a literal accepts these escapes only, so `unescaped` undoes `escaped`.
-/

namespace CapLisp
namespace Literal

/-- How a character stands inside a string literal. -/
def escaped (c : Char) : List Char :=
  if c = '"' then ['\\', '"']
  else if c = '\\' then ['\\', '\\']
  else if c = '\n' then ['\\', 'n']
  else if c = '\t' then ['\\', 't']
  else if c = '\r' then ['\\', 'r']
  else [c]

/-- The character that a backslash before `c` stands for. -/
def unescaped (c : Char) : Option Char :=
  if c = 'n' then some '\n'
  else if c = 't' then some '\t'
  else if c = 'r' then some '\r'
  else if c = '\\' then some '\\'
  else if c = '"' then some '"'
  else none

/-- The literal of a string. -/
def ofString (text : String) : List Char :=
  '"' :: (text.toList.flatMap escaped ++ ['"'])

/-- An escape is a backslash before a sign that stands for the character; a
character without one is neither a quote nor a backslash. -/
theorem escaped_cases (c : Char) :
    (∃ d, escaped c = ['\\', d] ∧ unescaped d = some c) ∨
      (escaped c = [c] ∧ c ≠ '"' ∧ c ≠ '\\') := by
  unfold escaped
  split
  · next h => exact .inl ⟨'"', rfl, by subst h; decide⟩
  split
  · next h => exact .inl ⟨'\\', rfl, by subst h; decide⟩
  split
  · next h => exact .inl ⟨'n', rfl, by subst h; decide⟩
  split
  · next h => exact .inl ⟨'t', rfl, by subst h; decide⟩
  split
  · next h => exact .inl ⟨'r', rfl, by subst h; decide⟩
  · exact .inr ⟨rfl, by assumption, by assumption⟩

end Literal
end CapLisp
