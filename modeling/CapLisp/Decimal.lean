/-
# Decimal notation of whole numbers

Numbers are written in base ten without leading zeros, a negative one after a
minus sign.  A run of digits is read back by `Nat.ofDigitChars 10`, so writing
and reading are inverse (`natOf_ofNat`).
-/

namespace CapLisp
namespace Decimal

/-- The decimal digits of `n`, most significant first. -/
def ofNat (n : Nat) : List Char := Nat.toDigits 10 n

/-- The decimal text of `n`: a minus sign for a negative number, then digits. -/
def ofInt (n : Int) : List Char :=
  match n with
  | .ofNat m => ofNat m
  | .negSucc m => '-' :: ofNat (m + 1)

/-- The decimal text of a natural number. -/
def textOfNat (n : Nat) : String := String.ofList (ofNat n)

/-- The decimal text of a whole number. -/
def textOfInt (n : Int) : String := String.ofList (ofInt n)

/-- The number that a run of digits denotes. -/
def natOf (digits : List Char) : Nat := Nat.ofDigitChars 10 digits 0

/-- The digits of a number denote it. -/
theorem natOf_ofNat (n : Nat) : natOf (ofNat n) = n := by
  unfold natOf ofNat
  rw [Nat.ofDigitChars_toDigits (by decide) (by decide)]

/-- Every number has a digit. -/
theorem ofNat_ne_nil (n : Nat) : ofNat n ≠ [] := Nat.toDigits_ne_nil

/-- Only digits stand in the notation of a natural number. -/
theorem isDigit_of_mem_ofNat {c : Char} {n : Nat} (h : c ∈ ofNat n) : c.isDigit :=
  Nat.isDigit_of_mem_toDigits (by decide) (by decide) h

/-- The text of a natural number starts with a digit. -/
theorem exists_cons_ofNat (n : Nat) : ∃ c digits, ofNat n = c :: digits ∧ c.isDigit = true := by
  obtain ⟨c, digits, hcons⟩ := List.exists_cons_of_ne_nil (ofNat_ne_nil n)
  exact ⟨c, digits, hcons, isDigit_of_mem_ofNat (hcons ▸ List.mem_cons_self ..)⟩

/-- The text of a whole number starts with a digit or a minus sign. -/
theorem exists_cons_ofInt (n : Int) :
    ∃ c digits, ofInt n = c :: digits ∧ (c.isDigit = true ∨ c = '-') := by
  cases n with
  | ofNat m =>
    obtain ⟨c, digits, hcons, hc⟩ := exists_cons_ofNat m
    exact ⟨c, digits, hcons, .inl hc⟩
  | negSucc m => exact ⟨'-', _, rfl, .inr rfl⟩

end Decimal
end CapLisp
