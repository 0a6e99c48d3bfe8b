/-
# JSON literals are read

Between the quotes of a string stands the spelling of its text (`Text.Denotes`), with
no quote outside an escape, so it is read up to the closing quote and denotes the text
(`string?_of_denotes`, `textOf?_of_denotes`).  What is written for a text is one of its
spellings (`denotes_encode`); this is so for every character:

| character | how it stands |
| --- | --- |
| quote, backslash, U+0008, U+000C, U+000A, U+000D, U+0009 | a backslash and a sign |
| any other below U+0020 | `\u00` and two digits, never half of a surrogate pair |
| any other | as it is |

The literal of a whole number has no leading zero, so it is read up to what follows,
if that goes on with no literal, and denotes the number (`number?_ofInt`,
`intOf?_ofInt`).
-/

import CapLisp.Json.Document
import CapLisp.Json.Reader
import CapLisp.Number
import CapLisp.Proofs.Reader.Token

namespace CapLisp

namespace Decimal

/-- **No digits of a positive number start with a zero.** -/
theorem head?_ofNat_ne_zero {n : Nat} (h : 0 < n) : (ofNat n).head? ≠ some '0' := by
  induction n using Nat.strongRecOn with
  | ind n ih =>
    by_cases hn : n < 10
    · have hdigit : ∀ m < 10, 0 < m → some m.digitChar ≠ some '0' := by decide
      rw [ofNat, Nat.toDigits_of_lt_base hn]
      exact hdigit n hn h
    · have hpos : 0 < n / 10 := Nat.div_pos (by omega) (by omega)
      have hfirst := ih (n / 10) (Nat.div_lt_self h (by omega)) hpos
      obtain ⟨c, digits, hcons, -⟩ := exists_cons_ofNat (n / 10)
      rw [hcons] at hfirst
      rw [ofNat, Nat.toDigits_of_base_le (by omega) (by omega), ← ofNat, hcons]
      exact hfirst

end Decimal

namespace Json

namespace Text

/-! ### Texts -/

/-- The escape of a control character denotes its number. -/
theorem unit?_hexDigit {n : Nat} (h : n < 32) :
    unit? '0' '0' (hexDigit (n / 16)) (hexDigit (n % 16)) = some n := by
  have hall : ∀ m < 32, unit? '0' '0' (hexDigit (m / 16)) (hexDigit (m % 16)) = some m := by
    decide
  exact hall n h

/-- How a character stands in a string: as an escape that denotes it, or as itself. -/
theorem escape_cases (c : Char) :
    (∃ sign, escape c = ['\\', sign] ∧ simple? sign = some c) ∨
      (∃ x y, escape c = ['\\', 'u', '0', '0', x, y] ∧ unit? '0' '0' x y = some c.toNat) ∨
      (escape c = [c] ∧ c ≠ '"' ∧ c ≠ '\\' ∧ 32 ≤ c.toNat) := by
  unfold escape
  split
  · next h => exact .inl ⟨'"', rfl, by subst h; decide⟩
  split
  · next h => exact .inl ⟨'\\', rfl, by subst h; decide⟩
  split
  · next h => exact .inl ⟨'b', rfl, by subst h; decide⟩
  split
  · next h => exact .inl ⟨'f', rfl, by subst h; decide⟩
  split
  · next h => exact .inl ⟨'n', rfl, by subst h; decide⟩
  split
  · next h => exact .inl ⟨'r', rfl, by subst h; decide⟩
  split
  · next h => exact .inl ⟨'t', rfl, by subst h; decide⟩
  split
  · next h => exact .inr (.inl ⟨_, _, rfl, unit?_hexDigit h⟩)
  · exact .inr (.inr ⟨rfl, by assumption, by assumption, by omega⟩)

/-- **What is written for a text denotes it.** -/
theorem denotes_encode (chars : List Char) : Denotes (encode chars) chars := by
  induction chars with
  | nil => exact .nil
  | cons c chars ih =>
    rw [encode, List.flatMap_cons]
    rw [encode] at ih
    rcases escape_cases c with ⟨sign, hescape, hsign⟩ | ⟨x, y, hescape, hunit⟩ |
      ⟨hescape, hquote, hbackslash, hc⟩
    · rw [hescape]
      exact .sign hsign ih
    · rw [hescape]
      exact .unit hunit ih
    · rw [hescape]
      exact .raw hquote hbackslash hc ih

variable {literal chars : List Char}

/-- The sign of an escape does not announce a unit. -/
theorem ne_u_of_simple? {sign c : Char} (h : simple? sign = some c) : sign ≠ 'u' := by
  rintro rfl
  cases h

/-- A character is no half of a surrogate pair. -/
theorem isHigh_isLow_toNat (c : Char) : isHigh c.toNat = false ∧ isLow c.toNat = false := by
  have hvalid : c.toNat < 0xD800 ∨ 0xDFFF < c.toNat ∧ c.toNat < 0x110000 := c.valid
  simp only [isHigh, isLow, Bool.and_eq_false_iff, decide_eq_false_iff_not]
  omega

/-- **Decoding gives what a literal denotes.** -/
theorem decode_of_denotes (h : Denotes literal chars) : decode literal none = some chars := by
  induction h with
  | nil => rfl
  | raw hquote hbackslash hcontrol h ih =>
    rw [decode, if_neg (by simp only [hbackslash, false_or]; omega), ih]
    · rfl
    all_goals simp_all
  | sign hsign h ih =>
    rw [decode, hsign, Option.bind_eq_bind, Option.bind_some, ih]
    · rfl
    · rintro w x y z rest rfl -
      exact ne_u_of_simple? hsign rfl
  | @unit w x y z c _ _ hunit h ih =>
    obtain ⟨hhigh, hlow⟩ := isHigh_isLow_toNat c
    simp [decode, hunit, hhigh, hlow, ih]
  | pair hhigh ishigh hlow islow h ih =>
    simp [decode, hhigh, ishigh, hlow, islow, ih]

end Text

/-- **The text of a literal is what it denotes.** -/
theorem textOf?_of_denotes {literal : List Char} {text : String}
    (h : Text.Denotes literal text.toList) : textOf? literal = some text := by
  rw [textOf?, Text.decode_of_denotes h, Option.map_some, String.ofList_toList]

namespace Reader

/-- **A literal is read up to the closing quote.** -/
theorem string?_of_denotes {literal chars : List Char} (h : Text.Denotes literal chars)
    (rest : List Char) : string? (literal ++ '"' :: rest) = some (literal, rest) := by
  induction h with
  | nil => simp [string?]
  | raw hquote hbackslash hcontrol h ih =>
    rw [List.cons_append, string?, if_neg (by simp only [hbackslash, false_or]; omega), ih]
    · rfl
    all_goals simp_all
  | sign hsign h ih =>
    rw [List.cons_append, List.cons_append, string?, hsign, ih]
    · rfl
    · rintro w x y z rest rfl -
      exact Text.ne_u_of_simple? hsign rfl
  | unit hunit h ih => simp [string?, hunit, ih]
  | pair hhigh ishigh hlow islow h ih => simp [string?, hhigh, hlow, ih]

/-! ### Numbers -/

/-- Tells whether a text is at its end, at a blank or at a sign that ends a number. -/
def endsNumber : List Char → Bool
  | [] => true
  | c :: _ => isBlank c || c == ',' || c == ']' || c == '\x7d'

/-- No digit ends a number. -/
theorem isDigit_of_endsNumber {rest : List Char} (h : endsNumber rest = true) :
    ∀ c ∈ rest.head?, c.isDigit = false := by
  rintro c hc
  cases rest with
  | nil => cases hc
  | cons d rest =>
    obtain rfl := Option.some.inj hc
    simp only [endsNumber, isBlank, Bool.or_eq_true, beq_iff_eq] at h
    obtain (((((rfl | rfl) | rfl) | rfl) | rfl) | rfl) | rfl := h <;> rfl

/-- Neither a fraction nor an exponent is at a sign that ends a number. -/
theorem tail?_of_endsNumber {rest : List Char} (h : endsNumber rest = true) :
    fraction? rest = some ([], rest) ∧ exponent? rest = some ([], rest) := by
  cases rest with
  | nil => exact ⟨rfl, rfl⟩
  | cons d rest =>
    simp only [endsNumber, isBlank, Bool.or_eq_true, beq_iff_eq] at h
    obtain (((((rfl | rfl) | rfl) | rfl) | rfl) | rfl) | rfl := h <;> exact ⟨rfl, rfl⟩

/-- The digits of a number are a whole part. -/
theorem whole?_ofNat (n : Nat) {rest : List Char} (hrest : endsNumber rest = true) :
    whole? (Decimal.ofNat n ++ rest) = some (Decimal.ofNat n, rest) := by
  by_cases hn : n = 0
  · subst hn
    rfl
  · obtain ⟨htake, hdrop⟩ := CapLisp.Reader.takeWhile_dropWhile_append
      (fun _ => Decimal.isDigit_of_mem_ofNat) (isDigit_of_endsNumber hrest)
    have hfirst := Decimal.head?_ofNat_ne_zero (Nat.pos_of_ne_zero hn)
    have hempty : (Decimal.ofNat n).isEmpty = false := by simp [Decimal.ofNat_ne_nil]
    rw [whole?, digits?, htake, hdrop, hempty]
    · rfl
    · intro more heq
      obtain ⟨c, digits, hcons, -⟩ := Decimal.exists_cons_ofNat n
      rw [hcons] at heq hfirst
      exact hfirst (congrArg some (List.cons.inj heq).1)

/-- **The literal of a whole number is read up to a sign that ends it.** -/
theorem number?_ofInt (n : Int) {rest : List Char} (hrest : endsNumber rest = true) :
    number? (Decimal.ofInt n ++ rest) = some (Decimal.ofInt n, rest) := by
  obtain ⟨hfraction, hexponent⟩ := tail?_of_endsNumber hrest
  cases n with
  | ofNat m =>
    have hwhole := whole?_ofNat m hrest
    obtain ⟨c, digits, hcons, hc⟩ := Decimal.exists_cons_ofNat m
    have hminus : c ≠ '-' := by
      rintro rfl
      cases hc
    rw [hcons, List.cons_append] at hwhole
    rw [Decimal.ofInt, hcons, List.cons_append]
    simp [number?, hminus, hwhole, hfraction, hexponent]
  | negSucc m =>
    have hwhole := whole?_ofNat (m + 1) hrest
    simp [Decimal.ofInt, number?, hwhole, hfraction, hexponent]

end Reader

/-- **The literal of a whole number denotes it.** -/
theorem intOf?_ofInt (n : Int) : intOf? (Decimal.ofInt n) = some n := by
  cases n with
  | ofNat m =>
    obtain ⟨c, digits, hcons, hc⟩ := Decimal.exists_cons_ofNat m
    have hminus : c ≠ '-' := by
      rintro rfl
      cases hc
    have hall : (c :: digits).all Char.isDigit = true :=
      hcons ▸ List.all_eq_true.2 fun _ => Decimal.isDigit_of_mem_ofNat
    have hvalue : Decimal.natOf (c :: digits) = m := hcons ▸ Decimal.natOf_ofNat m
    rw [Decimal.ofInt, hcons, intOf?, if_pos hall, hvalue]
    · rfl
    · rintro more heq
      exact hminus (List.cons.inj heq).1
  | negSucc m =>
    have hall : (Decimal.ofNat (m + 1)).all Char.isDigit = true :=
      List.all_eq_true.2 fun _ => Decimal.isDigit_of_mem_ofNat
    have hzero : Decimal.ofNat (m + 1) ≠ ['0'] := fun h =>
      Decimal.head?_ofNat_ne_zero (Nat.succ_pos m) (by rw [h]; rfl)
    rw [Decimal.ofInt, intOf?, if_pos (by simp [hall, hzero]), Decimal.natOf_ofNat]
    rfl

end Json
end CapLisp
