/-
# Numbers

Numbers are signed 64-bit words.  Arithmetic is exact: a result outside the
range is refused, never wrapped.
-/

namespace CapLisp
namespace Number

/-- The number with the given value, if it is in range. -/
def ofInt? (z : Int) : Option Int64 :=
  if Int64.minValue.toInt ≤ z ∧ z ≤ Int64.maxValue.toInt then some (Int64.ofInt z) else none

/-- The sum, if it is in range. -/
def add? (a b : Int64) : Option Int64 := ofInt? (a.toInt + b.toInt)

/-- The difference, if it is in range. -/
def sub? (a b : Int64) : Option Int64 := ofInt? (a.toInt - b.toInt)

/-- The product, if it is in range. -/
def mul? (a b : Int64) : Option Int64 := ofInt? (a.toInt * b.toInt)

/-- The value of a number is in range and gives the number back. -/
theorem ofInt?_toInt (n : Int64) : ofInt? n.toInt = some n := by
  have h₁ := n.minValue_le_toInt
  have h₂ := n.toInt_le
  rw [ofInt?, if_pos ⟨h₁, h₂⟩, Int64.ofInt_toInt]

/-- A number made of a value has that value. -/
theorem toInt_of_ofInt? {z : Int} {n : Int64} (h : ofInt? z = some n) : n.toInt = z := by
  unfold ofInt? at h
  split at h
  · next hz =>
    obtain rfl := Option.some.inj h
    rw [Int64.toInt_minValue, Int64.toInt_maxValue] at hz
    exact Int64.toInt_ofInt_of_le (by omega) (by omega)
  · simp at h

end Number
end CapLisp
