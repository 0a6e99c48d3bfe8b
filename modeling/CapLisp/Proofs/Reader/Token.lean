/-
# Tokens are read off the front

A token is read back whatever stands behind it, as long as that does not go on
with the token.

| token | what may stand behind it |
| --- | --- |
| atom, keyword | no atom character |
| number, boolean | neither an atom character nor `#` |
| string | anything |

So a text where each token ends before such a character (`endsToken`) is read
token by token.  One atom is not read back: a sign and digits, which are taken
for a number when they end in time (`number?_of_isSignedRun`).
-/

import CapLisp.Reader.Token

namespace CapLisp
namespace Reader

/-! ### Classes of characters -/

/-- A digit may stand in an atom. -/
theorem isAtomChar_of_isDigit {c : Char} (h : c.isDigit = true) : isAtomChar c = true := by
  simp [isAtomChar, h]

/-- A digit is no letter. -/
theorem isAlpha_eq_false_of_isDigit {c : Char} (h : c.isDigit = true) : c.isAlpha = false := by
  have hle : c.toNat ≤ 57 := (Char.isDigit_iff_toNat.1 h).2
  have hupper : ¬ 'A'.val ≤ c.val := fun hA => by
    have hge : 65 ≤ c.toNat := UInt32.le_iff_toNat_le.1 hA
    omega
  have hlower : ¬ 'a'.val ≤ c.val := fun ha => by
    have hge : 97 ≤ c.toNat := UInt32.le_iff_toNat_le.1 ha
    omega
  show (decide (c.val ≥ 'A'.val ∧ c.val ≤ 'Z'.val) ||
    (decide (c.val ≥ 'a'.val) && decide (c.val ≤ 'z'.val))) = false
  rw [decide_eq_false (mt And.left hupper), decide_eq_false hlower]
  rfl

/-- No digit starts an atom. -/
theorem isAtomStart_eq_false_of_isDigit {c : Char} (h : c.isDigit = true) :
    isAtomStart c = false := by
  have hspecials : atomSpecials.toList.all (fun d => !d.isDigit) = true := by decide
  rw [isAtomStart, isAlpha_eq_false_of_isDigit h, Bool.false_or, List.contains_eq_mem,
    decide_eq_false_iff_not]
  intro hmem
  have hdigit := List.all_eq_true.1 hspecials c hmem
  rw [h] at hdigit
  cases hdigit

/-- A token may end before a text that starts with no atom character and no `#`. -/
theorem endsToken_iff {rest : List Char} :
    endsToken rest = true ↔ ∀ c ∈ rest.head?, isAtomChar c = false ∧ c ≠ '#' := by
  cases rest <;> simp [endsToken]

/-- A run of characters of one class is taken off the front. -/
theorem takeWhile_dropWhile_append {p : Char → Bool} {run rest : List Char}
    (hrun : ∀ c ∈ run, p c = true) (hrest : ∀ c ∈ rest.head?, p c = false) :
    (run ++ rest).takeWhile p = run ∧ (run ++ rest).dropWhile p = rest := by
  rw [List.takeWhile_append_of_pos hrun, List.dropWhile_append_of_pos hrun]
  cases rest with
  | nil => simp
  | cons c rest => simp [hrest c rfl]

/-- The name of an atom ends where its token does. -/
theorem isAtomChar_head {rest : List Char} (h : endsToken rest = true) :
    ∀ c ∈ rest.head?, isAtomChar c = false :=
  fun c hc => (endsToken_iff.1 h c hc).1

/-- Digits end where their token does. -/
theorem isDigit_head {rest : List Char} (h : endsToken rest = true) :
    ∀ c ∈ rest.head?, c.isDigit = false := by
  intro c hc
  refine Bool.eq_false_iff.2 fun hdigit => ?_
  have hchar := isAtomChar_of_isDigit hdigit
  rw [isAtomChar_head h c hc] at hchar
  cases hchar

/-! ### Names -/

/-- Tells whether characters spell an atom: one that starts an atom, then atom characters. -/
def isName : List Char → Bool
  | [] => false
  | c :: rest => isAtomStart c && rest.all isAtomChar

/-- Tells whether characters are a sign and one or more digits. -/
def isSignedRun : List Char → Bool
  | [] => false
  | sign :: digits =>
    (sign == '+' || sign == '-') && !digits.isEmpty && digits.all Char.isDigit

/-- A name starts as an atom does and goes on with characters of atoms. -/
theorem exists_of_isName {name : List Char} (h : isName name = true) :
    ∃ c tail, name = c :: tail ∧ isAtomStart c = true ∧ ∀ d ∈ tail, isAtomChar d = true := by
  cases name with
  | nil => cases h
  | cons c tail =>
    rw [isName, Bool.and_eq_true, List.all_eq_true] at h
    exact ⟨c, tail, rfl, h⟩

/-- A name is read as an atom up to the end of the token. -/
theorem atom?_append {name rest : List Char} (hname : isName name = true)
    (hrest : endsToken rest = true) :
    atom? (name ++ rest) = some (.atom (String.ofList name), rest) := by
  obtain ⟨c, tail, rfl, hc, htail⟩ := exists_of_isName hname
  obtain ⟨htake, hdrop⟩ := takeWhile_dropWhile_append htail (isAtomChar_head hrest)
  rw [List.cons_append, atom?, if_pos hc, htake, hdrop]

/-- A name behind a colon is read as a keyword up to the end of the token. -/
theorem keyword_append {name rest : List Char} (hne : name ≠ [])
    (hname : ∀ c ∈ name, isAtomChar c = true) (hrest : endsToken rest = true) :
    keyword (name ++ rest) = .ok (.keyword (String.ofList name), rest) := by
  obtain ⟨htake, hdrop⟩ := takeWhile_dropWhile_append hname (isAtomChar_head hrest)
  simp only [keyword, htake, hdrop, List.isEmpty_iff, hne, ↓reduceIte]

/-! ### Numbers -/

/-- Whether a minus sign is at the front, and what is left after a sign. -/
def signOf (text : List Char) : Bool × List Char :=
  match text with
  | '-' :: rest => (true, rest)
  | '+' :: rest => (false, rest)
  | _ => (false, text)

/-- A character that is no sign leaves the text unsigned. -/
theorem signOf_cons {c : Char} (h : ¬ (c = '+' ∨ c = '-')) (rest : List Char) :
    signOf (c :: rest) = (false, c :: rest) := by
  unfold signOf
  split
  · next heq => exact absurd (Or.inr (List.cons.inj heq).1) h
  · next heq => exact absurd (Or.inl (List.cons.inj heq).1) h
  · rfl

/-- What a run of digits with the given sign is read as. -/
def numberOutcome (negative : Bool) (digits text rest : List Char) : Outcome Value :=
  let size : Int := Decimal.natOf digits
  match Number.ofInt? (if negative then -size else size) with
  | some n => .ok (.number n, rest)
  | none => .error ⟨.numberRange, text⟩

/-- A number is a sign, or none, and a run of digits that nothing goes on with. -/
theorem number?_eq (text : List Char) :
    number? text =
      let digits := (signOf text).2.takeWhile Char.isDigit
      let rest := (signOf text).2.dropWhile Char.isDigit
      if digits.isEmpty || !endsToken rest then none
      else some (numberOutcome (signOf text).1 digits text rest) := by
  unfold number?
  split
  next negative body heq =>
  have hsign : signOf text = (negative, body) := heq
  rw [hsign]
  dsimp only
  split
  · rfl
  · rw [numberOutcome]
    generalize Number.ofInt? (if negative = true
      then -(Decimal.natOf (body.takeWhile Char.isDigit) : Int)
      else (Decimal.natOf (body.takeWhile Char.isDigit) : Int)) = found
    cases found <;> rfl

/-- **Digits that end in time are a number**, with or without a sign. -/
theorem number?_eq_some {text digits rest : List Char} {negative : Bool}
    (hsign : signOf text = (negative, digits ++ rest)) (hne : digits ≠ [])
    (hdigits : ∀ c ∈ digits, c.isDigit = true) (hrest : endsToken rest = true) :
    number? text = some (numberOutcome negative digits text rest) := by
  obtain ⟨htake, hdrop⟩ := takeWhile_dropWhile_append hdigits (isDigit_head hrest)
  have hempty : digits.isEmpty = false := by simpa using hne
  rw [number?_eq, hsign]
  simp only [htake, hdrop, hempty, hrest, Bool.not_true, Bool.or_false, Bool.false_eq_true,
    ↓reduceIte]

/-- **Every number is read back.** -/
theorem number?_ofInt (n : Int64) {rest : List Char} (hrest : endsToken rest = true) :
    number? (Decimal.ofInt n.toInt ++ rest) = some (.ok (.number n, rest)) := by
  have hback := Number.ofInt?_toInt n
  cases hn : n.toInt with
  | ofNat m =>
    have hdigits : ∀ c ∈ Decimal.ofNat m, c.isDigit = true := fun _ => Decimal.isDigit_of_mem_ofNat
    obtain ⟨c, more, hcons, hc⟩ := Decimal.exists_cons_ofNat m
    have hsign : signOf (Decimal.ofNat m ++ rest) = (false, Decimal.ofNat m ++ rest) := by
      rw [hcons]
      refine signOf_cons ?_ _
      rintro (rfl | rfl) <;> exact absurd hc (by decide)
    have hsize : Number.ofInt? (Decimal.natOf (Decimal.ofNat m)) = some n := by
      rw [Decimal.natOf_ofNat, ← hback, hn]
      rfl
    rw [Decimal.ofInt, number?_eq_some hsign (Decimal.ofNat_ne_nil m) hdigits hrest]
    simp [numberOutcome, hsize]
  | negSucc m =>
    have hsize : Number.ofInt? (-(Decimal.natOf (Decimal.ofNat (m + 1)) : Int)) = some n := by
      rw [Decimal.natOf_ofNat, ← hback, hn]
      rfl
    have hsign : signOf ('-' :: (Decimal.ofNat (m + 1) ++ rest)) =
        (true, Decimal.ofNat (m + 1) ++ rest) := rfl
    rw [Decimal.ofInt, List.cons_append, number?_eq_some hsign (Decimal.ofNat_ne_nil _)
      (fun _ => Decimal.isDigit_of_mem_ofNat) hrest]
    simp [numberOutcome, hsize]

/-- **A sign and digits that end in time are a number**, or a fault. -/
theorem number?_of_isSignedRun {name rest : List Char} (hname : isSignedRun name = true)
    (hrest : endsToken rest = true) :
    ∃ negative digits,
      number? (name ++ rest) = some (numberOutcome negative digits (name ++ rest) rest) := by
  cases name with
  | nil => cases hname
  | cons sign digits =>
    simp only [isSignedRun, Bool.and_eq_true, Bool.or_eq_true, beq_iff_eq, Bool.not_eq_true',
      List.isEmpty_eq_false_iff, List.all_eq_true] at hname
    obtain ⟨⟨rfl | rfl, hne⟩, hdigits⟩ := hname
    · exact ⟨false, digits, number?_eq_some rfl hne hdigits hrest⟩
    · exact ⟨true, digits, number?_eq_some rfl hne hdigits hrest⟩

/-- A number in range is read with the rest behind its digits. -/
theorem eq_of_numberOutcome_eq_ok {negative : Bool} {digits text rest left : List Char}
    {v : Value} (h : numberOutcome negative digits text rest = .ok (v, left)) :
    left = rest ∧ ∃ n, v = .number n := by
  simp only [numberOutcome] at h
  split at h
  · next n _ =>
    obtain ⟨rfl, rfl⟩ := Prod.mk.inj (Except.ok.inj h)
    exact ⟨rfl, n, rfl⟩
  · cases h

/-- Digits that an atom character follows do not end in time. -/
theorem endsToken_dropWhile {tail rest : List Char} (htail : ∀ d ∈ tail, isAtomChar d = true)
    (hstop : ∃ d ∈ tail, d.isDigit = false) :
    endsToken ((tail ++ rest).dropWhile Char.isDigit) = false := by
  induction tail with
  | nil => simp at hstop
  | cons d tail ih =>
    obtain ⟨hd, htail⟩ := List.forall_mem_cons.1 htail
    rw [List.cons_append, List.dropWhile_cons]
    split
    · next hdigit =>
      refine ih htail ?_
      obtain ⟨e, he, hdigit'⟩ := hstop
      rcases List.mem_cons.1 he with rfl | he
      · rw [hdigit] at hdigit'
        cases hdigit'
      · exact ⟨e, he, hdigit'⟩
    · simp [endsToken, hd]

/-- **Any other name is no number.**  Without a sign it starts with no digit, and
after one its digits are none or cut short by an atom character. -/
theorem number?_of_isName {name rest : List Char} (hname : isName name = true)
    (hrun : isSignedRun name = false) (hrest : endsToken rest = true) :
    number? (name ++ rest) = none := by
  obtain ⟨c, tail, rfl, hc, htail⟩ := exists_of_isName hname
  rw [number?_eq]
  refine if_pos ?_
  by_cases hsign : c = '+' ∨ c = '-'
  · have hbody : (signOf (c :: tail ++ rest)).2 = tail ++ rest := by
      rcases hsign with rfl | rfl <;> rfl
    rw [hbody, Bool.or_eq_true, Bool.not_eq_true']
    cases tail with
    | nil =>
      left
      cases rest with
      | nil => rfl
      | cons d rest => simp [isDigit_head hrest d rfl]
    | cons d tail =>
      right
      refine endsToken_dropWhile htail ?_
      have hall : (d :: tail).all Char.isDigit = false := by
        rcases hsign with rfl | rfl <;> simpa [isSignedRun] using hrun
      obtain ⟨e, he, hdigit⟩ := List.all_eq_false.1 hall
      exact ⟨e, he, Bool.eq_false_iff.2 hdigit⟩
  · rw [List.cons_append, signOf_cons hsign]
    have hdigit : c.isDigit = false := Bool.eq_false_iff.2 fun h => by
      rw [isAtomStart_eq_false_of_isDigit h] at hc
      cases hc
    simp [hdigit]

/-! ### Strings -/

/-- **Every string is read back**, whatever its characters are. -/
theorem stringBody_escaped (chars rest : List Char) :
    stringBody (chars.flatMap Literal.escaped ++ '"' :: rest) = .ok (chars, rest) := by
  induction chars with
  | nil => simp [stringBody]
  | cons c chars ih =>
    rw [List.flatMap_cons, List.append_assoc]
    rcases Literal.escaped_cases c with ⟨d, hescaped, hd⟩ | ⟨hescaped, hquote, hbackslash⟩
    · rw [hescaped, List.cons_append, List.cons_append, List.nil_append, stringBody, hd]
      simp only [ih]
      rfl
    · rw [hescaped, List.cons_append, List.nil_append, stringBody]
      · rw [ih]
        rfl
      all_goals simp_all

end Reader
end CapLisp
