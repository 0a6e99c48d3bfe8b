/-
# One form or a sequence of forms

A text is read as its only form or as the sequence of its forms.  Both readers take
a form off the front of what is left after the spacing.  One of them then asks that
nothing but spacing follows, the other goes on.

| reader | accepts |
| --- | --- |
| `parse` | a form and spacing behind it (`parse_eq_ok_iff`) |
| `forms` | spacing (`forms_eq_nil_iff`), or a form and then forms (`forms_eq_cons_iff`) |

So a text has an only form exactly if the sequence of its forms has one member, and
sequences are read piece by piece (`reading_compositional`).
-/

import CapLisp.Proofs.Reader.Concatenation

namespace CapLisp

/-- Changing the error of an outcome does not change whether it ends well. -/
theorem mapError_eq_ok_iff {ε ε' α : Type} {x : Except ε α} {f : ε → ε'} {a : α} :
    x.mapError f = .ok a ↔ x = .ok a :=
  ⟨eq_ok_of_mapError_eq_ok, fun h => by rw [h]; rfl⟩

/-- An error seen through a change of errors was an error before it. -/
theorem exists_of_mapError_eq_error {ε ε' α : Type} {x : Except ε α} {f : ε → ε'} {e' : ε'}
    (h : x.mapError f = .error e') : ∃ e, x = .error e ∧ f e = e' := by
  cases x with
  | error e => exact ⟨e, rfl, Except.error.inj h⟩
  | ok => cases h

namespace Reader

variable {config : Config} {text : List Char} {v : Value} {items : List Value}

/-- Nothing is read where nothing is left. -/
theorem form_nil_ne_ok (config : Config) (room : Nat) (r : Value × List Char) :
    form config room [] ≠ .ok r := fun h => by
  have hopens : Opens [] := opens_of_form h
  cases hopens

/-- **A text is its only form** if it is spacing, the form and spacing. -/
theorem parse_eq_ok_iff :
    parse config text = .ok v ↔ ∃ rest,
      form config config.maxDepth (skip config.comments text .blank) = .ok (v, rest) ∧
        skip config.comments rest .blank = [] := by
  rw [parse]
  split
  · next hskip =>
    rw [hskip]
    refine ⟨fun h => (by cases h), ?_⟩
    rintro ⟨rest, hform, -⟩
    exact absurd hform (form_nil_ne_ok _ _ _)
  · split
    · next hform =>
      rw [hform]
      refine ⟨fun h => (by cases h), ?_⟩
      rintro ⟨rest, h, -⟩
      cases h
    · next w rest hform =>
      rw [hform]
      constructor
      · intro h
        split at h
        · next hrest =>
          cases h
          exact ⟨rest, rfl, hrest⟩
        · cases h
      · rintro ⟨left, h, hrest⟩
        cases h
        rw [hrest]

/-- No forms are read exactly from a gap. -/
theorem forms_eq_nil_iff {bound : Nat} :
    forms config (bound + 1) text = .ok [] ↔ skip config.comments text .blank = [] := by
  rw [forms]
  split
  · next hskip => exact iff_of_true rfl hskip
  · next hskip =>
    refine iff_of_false (fun h => ?_) hskip
    split at h
    · cases h
    · obtain ⟨more, -, hcons⟩ := exists_of_map_eq_ok h
      cases hcons

/-- A form and others are read exactly if the form is read and the others behind it. -/
theorem forms_eq_cons_iff {bound : Nat} :
    forms config (bound + 1) text = .ok (v :: items) ↔ ∃ rest,
      form config config.maxDepth (skip config.comments text .blank) = .ok (v, rest) ∧
        forms config bound rest = .ok items := by
  rw [forms]
  split
  · next hskip =>
    rw [hskip]
    refine ⟨fun h => (by cases h), ?_⟩
    rintro ⟨rest, hform, -⟩
    exact absurd hform (form_nil_ne_ok _ _ _)
  · split
    · next hform =>
      rw [hform]
      refine ⟨fun h => (by cases h), ?_⟩
      rintro ⟨rest, h, -⟩
      cases h
    · next w rest hform =>
      rw [hform]
      constructor
      · intro h
        obtain ⟨more, hmore, hcons⟩ := exists_of_map_eq_ok h
        cases hcons
        exact ⟨rest, rfl, hmore⟩
      · rintro ⟨left, h, hmore⟩
        cases h
        rw [hmore]
        rfl

/-- **A text has an only form** exactly if its sequence of forms has one member. -/
theorem parse_eq_ok_iff_parseProgram :
    parse config text = .ok v ↔ parseProgram config text = .ok [v] := by
  rw [parseProgram, mapError_eq_ok_iff, forms_eq_cons_iff, parse_eq_ok_iff]
  refine exists_congr fun rest => and_congr_right fun hform => ?_
  -- A form takes characters off, so the bound leaves room for the end of the text.
  have hlength : 0 < text.length :=
    (Nat.zero_le _).trans_lt ((length_lt_of_form hform).trans_le (length_skip_le _ _))
  obtain ⟨bound, hbound⟩ := Nat.exists_eq_add_one_of_ne_zero hlength.ne'
  rw [hbound, forms_eq_nil_iff]

end Reader

/-- **Reading is compositional.**  If a text is read as some forms, then with a line feed
and another text behind it, it is read as these forms and those of the other text, or
refused with the very error that the other text is refused with.  And a text has an only
form exactly if it is read as the sequence of this form alone. -/
theorem reading_compositional (config : Reader.Config) (a : String) :
    (∀ xs, readProgramWith config a = .ok xs → ∀ b,
      (∀ ys, readProgramWith config b = .ok ys →
        readProgramWith config (a ++ "\n" ++ b) = .ok (xs ++ ys)) ∧
      ∀ e, readProgramWith config b = .error e →
        readProgramWith config (a ++ "\n" ++ b) = .error e) ∧
    ∀ v, readWith config a = .ok v ↔ readProgramWith config a = .ok [v] := by
  refine ⟨fun xs ha b => ?_, fun v => ?_⟩
  · have hjoined := readProgramWith_append ha b
    refine ⟨fun ys hb => ?_, fun e hb => ?_⟩
    · rw [hjoined, hb]
      rfl
    · rw [hjoined, hb]
      rfl
  · rw [readWith, readProgramWith, mapError_eq_ok_iff, mapError_eq_ok_iff,
      Reader.parse_eq_ok_iff_parseProgram]

/-- The first text ends in a number and a comment.  The second one is read; the third one
is refused, since it opens a block comment and does not close it. -/
theorem reading_compositional_comment :
    let x := Value.list [.atom "def", .atom "x", .number (-5)]
    let e := Error.read ⟨.invalidSyntax, "Invalid syntax", some "#| y"⟩
    readProgramWith ⟨true, 2⟩ "(def x -5) ; a number" = .ok [x] ∧
      readProgramWith ⟨true, 2⟩ "x" = .ok [.atom "x"] ∧
      readProgramWith ⟨true, 2⟩ "x #| y" = .error e ∧
      readProgramWith ⟨true, 2⟩ ("(def x -5) ; a number" ++ "\n" ++ "x") = .ok [x, .atom "x"] ∧
      readProgramWith ⟨true, 2⟩ ("(def x -5) ; a number" ++ "\n" ++ "x #| y") = .error e ∧
      readWith ⟨true, 2⟩ "(def x -5) ; a number" = .ok x := by
  have ha : readProgramWith ⟨true, 2⟩ "(def x -5) ; a number" =
      .ok [.list [.atom "def", .atom "x", .number (-5)]] := rfl
  have hx : readProgramWith ⟨true, 2⟩ "x" = .ok [.atom "x"] := rfl
  have he : readProgramWith ⟨true, 2⟩ "x #| y" =
      .error (.read ⟨.invalidSyntax, "Invalid syntax", some "#| y"⟩) := rfl
  obtain ⟨hjoin, honly⟩ := reading_compositional ⟨true, 2⟩ "(def x -5) ; a number"
  exact ⟨ha, hx, he, (hjoin _ ha "x").1 _ hx, (hjoin _ ha "x #| y").2 _ he, (honly _).2 ha⟩

end CapLisp
