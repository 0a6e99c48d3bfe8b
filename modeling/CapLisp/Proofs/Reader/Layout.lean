/-
# Layouts of a text

A value has one text and many layouts.  A layout has the tokens of the text and any
spacing between them: blanks and, where comments are read, comments.

| where | spacing |
| --- | --- |
| around the whole text, behind an opening delimiter, behind a quote sign | any, or none |
| between two elements | some, with a blank first |
| between the last element and the closing delimiter | none, or some with a blank first |

A blank comes first behind an element because a comment sign could go on with its
token: `#` ends no number.  A list of the atom `quote` and one more element may be
written with a quote sign.

The reader reads every layout of a readable value back (`form_of_spells`).
-/

import CapLisp.Proofs.Syntax
import CapLisp.Proofs.View.Text

namespace CapLisp

namespace Value

/-- Tells whether an atom is a sign and digits, which the reader takes for a number. -/
def looksLikeNumber : Value → Bool
  | atom name => Reader.isSignedRun name.toList
  | _ => false

/-- Tells that a value is one that its text stands for. -/
def isReadable (v : Value) : Prop := v.isSpelled ∧ v.looksLikeNumber = false

/-- A value that is readable at every depth. -/
def Readable (v : Value) : Prop := v.Everywhere isReadable

/-- Tells whether a value is a single token. -/
def isToken : Value → Bool
  | atom _ | keyword _ | string _ | number _ | bool _ => true
  | _ => false

end Value

namespace Reader

/-- Blanks and, where they are read, comments. -/
inductive Spacing (comments : Bool) : List Char → Prop
  | nil : Spacing comments []
  | blank {c : Char} {rest : List Char} (hc : isBlank c = true) (h : Spacing comments rest) :
    Spacing comments (c :: rest)
  | line {body rest : List Char} (on : comments = true) (hbody : '\n' ∉ body)
    (h : Spacing comments rest) : Spacing comments (';' :: (body ++ '\n' :: rest))
  | block {body rest : List Char} (on : comments = true) (hbody : ¬ ['|', '#'] <:+: body)
    (h : Spacing comments rest) :
    Spacing comments ('#' :: '|' :: (body ++ '|' :: '#' :: rest))

/-- Spacing with a blank first, as it stands behind an element. -/
inductive Break (comments : Bool) : List Char → Prop
  | intro {c : Char} {rest : List Char} (hc : isBlank c = true) (h : Spacing comments rest) :
    Break comments (c :: rest)

/-- Elements with a break between neighbours, and perhaps one behind the last. -/
inductive Row (comments : Bool) (spells : Value → List Char → Prop) :
    List Value → List Char → Prop
  | nil : Row comments spells [] []
  | last {v : Value} {text : List Char} (hv : spells v text) : Row comments spells [v] text
  | spaced {v : Value} {text gap : List Char} (hv : spells v text) (hgap : Break comments gap) :
    Row comments spells [v] (text ++ gap)
  | cons {v w : Value} {more : List Value} {text gap row : List Char} (hv : spells v text)
    (hgap : Break comments gap) (hrow : Row comments spells (w :: more) row) :
    Row comments spells (v :: w :: more) (text ++ (gap ++ row))

/-- The layouts of a value: its text with any spacing between the tokens. -/
inductive Spells (comments : Bool) : Value → List Char → Prop
  | token {v : Value} (h : v.isToken = true) : Spells comments v (v.write [])
  | list {items : List Value} {gap row : List Char} (hgap : Spacing comments gap)
    (hrow : Row comments (Spells comments) items row) :
    Spells comments (.list items) ('(' :: (gap ++ (row ++ [')'])))
  | vector {items : List Value} {gap row : List Char} (hgap : Spacing comments gap)
    (hrow : Row comments (Spells comments) items row) :
    Spells comments (.vector items) ('[' :: (gap ++ (row ++ [']'])))
  | dict {entries : Dict} {gap row : List Char} (hgap : Spacing comments gap)
    (hrow : Row comments (Spells comments) (Value.entryParts entries) row) :
    Spells comments (.dict entries) ('\x7b' :: (gap ++ (row ++ ['\x7d'])))
  | quoted {v : Value} {gap text : List Char} (hgap : Spacing comments gap)
    (hv : Spells comments v text) : Spells comments v.quoted ('\'' :: (gap ++ text))

/-- The layouts of a whole text: those of its value, with spacing around them. -/
inductive Layout (comments : Bool) (v : Value) : List Char → Prop
  | intro {before text after : List Char} (hbefore : Spacing comments before)
    (hv : Spells comments v text) (hafter : after = [] ∨ Break comments after) :
    Layout comments v (before ++ (text ++ after))

/-! ### Spacing is skipped -/

section

variable {comments : Bool} {gap text rest : List Char}

/-- A line comment is skipped up to its line feed. -/
theorem skip_line {body : List Char} (hbody : '\n' ∉ body) (rest : List Char) :
    skip comments (body ++ '\n' :: rest) .line = skip comments rest .blank := by
  induction body with
  | nil => simp [skip]
  | cons c body ih =>
    obtain ⟨hc, hbody⟩ := not_or.1 (mt List.mem_cons.2 hbody)
    rw [List.cons_append, skip, if_neg (Ne.symm hc), ih hbody]

/-- A block comment is skipped up to its end. -/
theorem skip_block {body : List Char} (hbody : ¬ ['|', '#'] <:+: body)
    (start rest : List Char) :
    skip comments (body ++ '|' :: '#' :: rest) (.block start) = skip comments rest .blank := by
  induction body with
  | nil => simp [skip]
  | cons c body ih =>
    have htail : ¬ ['|', '#'] <:+: body := fun h =>
      hbody (h.trans (List.suffix_cons c body).isInfix)
    rw [List.cons_append, skip, ih htail]
    -- The closing sign cannot start in the body.
    rintro more rfl hrest
    cases body with
    | nil => simp at hrest
    | cons d body =>
      obtain ⟨rfl, -⟩ := List.cons.inj hrest
      exact hbody ⟨[], body, rfl⟩

/-- A blank is skipped. -/
theorem skip_blank {c : Char} (hc : isBlank c = true) (rest : List Char) :
    skip comments (c :: rest) .blank = skip comments rest .blank := by
  rw [skip, if_pos hc]
  rintro more rfl -
  exact absurd hc (by decide)

/-- **Spacing is skipped.** -/
theorem skip_append (hgap : Spacing comments gap) (rest : List Char) :
    skip comments (gap ++ rest) .blank = skip comments rest .blank := by
  induction hgap with
  | nil => rfl
  | blank hc _ ih => rw [List.cons_append, skip_blank hc, ih]
  | @line body gap on hbody _ ih =>
    have hsign : (comments && ';' == ';') = true := by simp [on]
    rw [List.cons_append, List.append_assoc, List.cons_append, skip, if_neg (by decide),
      if_pos hsign, skip_line hbody, ih]
    rintro more h -
    exact absurd h (by decide)
  | @block body gap on hbody _ ih =>
    rw [List.cons_append, List.cons_append, List.append_assoc, List.cons_append, List.cons_append,
      skip, if_pos on, skip_block hbody, ih]

/-- What breaks two tokens is a gap. -/
theorem Break.spacing (h : Break comments gap) : Spacing comments gap := by
  cases h with
  | intro hc h => exact .blank hc h

/-- A token may end before a break. -/
theorem Break.endsToken (h : Break comments gap) (rest : List Char) :
    endsToken (gap ++ rest) = true := by
  cases h with
  | @intro c gap hc _ =>
    simp only [isBlank, Bool.or_eq_true, beq_iff_eq] at hc
    obtain ((rfl | rfl) | rfl) | rfl := hc <;> rfl

/-- Tells that a text starts with a token or an opening delimiter. -/
inductive Opens : List Char → Prop
  | intro {c : Char} {rest : List Char}
    (hc : c ∉ [' ', '\t', '\r', '\n', ';', '#', ')', ']', '\x7d']) : Opens (c :: rest)
  | bool {c : Char} {rest : List Char} (hc : c ≠ '|') : Opens ('#' :: c :: rest)

/-- Nothing is skipped in front of a character that starts no gap. -/
theorem skip_of_ne {c : Char} (hblank : isBlank c = false) (hline : c ≠ ';')
    (hblock : c = '#' → text.head? ≠ some '|') :
    skip comments (c :: text) .blank = c :: text := by
  rw [skip, if_neg (by simp [hblank]), if_neg (by simp [hline])]
  rintro more rfl rfl
  exact hblock rfl rfl

/-- A text that opens a form does so with text behind it. -/
theorem Opens.append (h : Opens text) (rest : List Char) : Opens (text ++ rest) := by
  cases h with
  | intro hc => exact .intro hc
  | bool hc => exact .bool hc

/-- **Nothing is skipped where a token starts.** -/
theorem Opens.skip_eq (h : Opens text) : skip comments text .blank = text := by
  cases h with
  | @intro c more hc =>
    simp only [List.mem_cons, List.not_mem_nil, or_false, not_or] at hc
    refine skip_of_ne ?_ hc.2.2.2.2.1 fun h => absurd h hc.2.2.2.2.2.1
    simp [isBlank, hc]
  | bool hc => exact skip_of_ne rfl (by decide) fun _ => by simpa using hc

end

/-! ### Elements -/

section

variable {config : Config} {read : List Char → Outcome Value} {close : Char}
  {gap text rest : List Char} {bound : Nat}

/-- The closing delimiters. -/
def isCloser (c : Char) : Bool := c == ')' || c == ']' || c == '\x7d'

/-- Nothing is skipped in front of a closing sign. -/
theorem skip_closer (hclose : isCloser close = true) (rest : List Char) :
    skip config.comments (close :: rest) .blank = close :: rest := by
  simp only [isCloser, Bool.or_eq_true, beq_iff_eq] at hclose
  obtain (rfl | rfl) | rfl := hclose
  all_goals exact skip_of_ne rfl (by decide) fun h => absurd h (by decide)

/-- A closing sign ends a token. -/
theorem endsToken_closer (hclose : isCloser close = true) (rest : List Char) :
    endsToken (close :: rest) = true := by
  simp only [isCloser, Bool.or_eq_true, beq_iff_eq] at hclose
  obtain (rfl | rfl) | rfl := hclose <;> rfl

/-- The closing sign ends the elements. -/
theorem elements_closer (hclose : isCloser close = true) (rest : List Char) :
    elements config read close (bound + 1) (close :: rest) = .ok ([], rest) := by
  rw [elements, skip_closer hclose]
  exact if_pos rfl

/-- A gap in front of the elements is skipped. -/
theorem elements_append (hgap : Spacing config.comments gap) (rest : List Char) :
    elements config read close (bound + 1) (gap ++ rest) =
      elements config read close (bound + 1) rest := by
  rw [elements, elements, skip_append hgap]

/-- Elements are read one by one. -/
theorem elements_of_opens (hclose : isCloser close = true) (hopens : Opens text) :
    elements config read close (bound + 1) text =
      (read text).andThen fun item rest =>
        (elements config read close bound rest).andThen fun items rest =>
          .ok (item :: items, rest) := by
  rw [elements, hopens.skip_eq]
  simp only [isCloser, Bool.or_eq_true, beq_iff_eq] at hclose
  cases hopens with
  | intro hc =>
    refine if_neg ?_
    rintro rfl
    obtain (rfl | rfl) | rfl := hclose <;> exact hc (by decide)
  | bool hc =>
    refine if_neg ?_
    rintro rfl
    obtain (h | h) | h := hclose <;> exact absurd h (by decide)

/-- **A row of elements is read up to its closing delimiter.** -/
theorem elements_of_row {spells : Value → List Char → Prop} {items : List Value}
    {row : List Char} (hclose : isCloser close = true)
    (hopens : ∀ v ∈ items, ∀ text, spells v text → Opens text)
    (hread : ∀ v ∈ items, ∀ text rest, spells v text → endsToken rest = true →
      read (text ++ rest) = .ok (v, rest))
    (hrow : Row config.comments spells items row) (hbound : items.length < bound)
    (rest : List Char) :
    elements config read close bound (row ++ close :: rest) = .ok (items, rest) := by
  obtain ⟨bound, rfl⟩ := Nat.exists_eq_add_one_of_ne_zero (Nat.ne_zero_of_lt hbound)
  induction hrow generalizing bound with
  | nil => exact elements_closer hclose rest
  | @last v text hv =>
    obtain ⟨bound, rfl⟩ := Nat.exists_eq_add_one_of_ne_zero (by simp at hbound; omega : bound ≠ 0)
    have hitem := hread v (List.mem_cons_self ..) text (close :: rest) hv
      (endsToken_closer hclose rest)
    rw [elements_of_opens hclose ((hopens v (List.mem_cons_self ..) text hv).append _), hitem]
    simp only [Outcome.andThen, elements_closer hclose]
  | @spaced v text gap hv hgap =>
    obtain ⟨bound, rfl⟩ := Nat.exists_eq_add_one_of_ne_zero (by simp at hbound; omega : bound ≠ 0)
    have hitem := hread v (List.mem_cons_self ..) text (gap ++ close :: rest) hv
      (hgap.endsToken _)
    rw [List.append_assoc,
      elements_of_opens hclose ((hopens v (List.mem_cons_self ..) text hv).append _), hitem]
    simp only [Outcome.andThen, elements_append hgap.spacing, elements_closer hclose]
  | @cons v w more text gap row hv hgap hrow ih =>
    obtain ⟨bound, rfl⟩ := Nat.exists_eq_add_one_of_ne_zero (by simp at hbound; omega : bound ≠ 0)
    have hitem := hread v (List.mem_cons_self ..) text (gap ++ (row ++ close :: rest)) hv
      (hgap.endsToken _)
    have hrest := ih (fun u hu => hopens u (List.mem_cons_of_mem _ hu))
      (fun u hu => hread u (List.mem_cons_of_mem _ hu)) bound (by simp at hbound ⊢; omega)
    rw [List.append_assoc, List.append_assoc,
      elements_of_opens hclose ((hopens v (List.mem_cons_self ..) text hv).append _), hitem]
    simp only [Outcome.andThen, elements_append hgap.spacing, hrest]

end

/-! ### Forms -/

section

variable {config : Config} {room : Nat} {rest : List Char}

/-- A quote sign quotes the form behind it. -/
theorem form_quote (rest : List Char) :
    form config (room + 1) ('\'' :: rest) =
      (form config room (skip config.comments rest .blank)).andThen fun quoted rest =>
        .ok (quoted.quoted, rest) := rfl

/-- A parenthesis opens a list. -/
theorem form_list (rest : List Char) :
    form config (room + 1) ('(' :: rest) =
      (elements config (form config room) ')' ('(' :: rest).length rest).andThen
        fun items rest => .ok (.list items, rest) := rfl

/-- A bracket opens a vector. -/
theorem form_vector (rest : List Char) :
    form config (room + 1) ('[' :: rest) =
      (elements config (form config room) ']' ('[' :: rest).length rest).andThen
        fun items rest => .ok (.vector items, rest) := rfl

/-- A brace opens a dictionary, whose forms must come in pairs. -/
theorem form_dict (rest : List Char) :
    form config (room + 1) ('\x7b' :: rest) =
      (elements config (form config room) '\x7d' ('\x7b' :: rest).length rest).andThen
        fun items left =>
          if items.length % 2 = 0 then .ok (.dict (Dict.ofEntries (Dict.pairs items)), left)
          else .error ⟨.oddDict, '\x7b' :: rest⟩ := rfl

/-- A quotation mark opens a string. -/
theorem form_string (rest : List Char) :
    form config (room + 1) ('"' :: rest) =
      (stringBody rest).andThen fun chars rest =>
        .ok (.string (String.ofList chars), rest) := rfl

/-- A colon opens a keyword. -/
theorem form_keyword (rest : List Char) :
    form config (room + 1) (':' :: rest) = keyword rest := rfl

/-- A boolean is read from its text. -/
theorem form_bool (b : Bool) (rest : List Char) (hrest : endsToken rest = true) :
    form config (room + 1) ((Value.bool b).write rest) = .ok (.bool b, rest) := by
  cases b with
  | true =>
    show form config (room + 1) ('#' :: 't' :: rest) = _
    simp [form, bool?, hrest]
  | false =>
    show form config (room + 1) ('#' :: 'f' :: rest) = _
    simp [form, bool?, hrest]

/-- Tells whether a character starts an atom or a number. -/
def startsWord (c : Char) : Bool := isAtomStart c || c.isDigit

/-- A sign that starts no word differs from one that does. -/
theorem ne_of_startsWord {c d : Char} (hc : startsWord c = true) (hd : startsWord d = false) :
    c ≠ d := by
  rintro rfl
  rw [hc] at hd
  cases hd

/-- A character that starts a word opens a form. -/
theorem Opens.word {c : Char} (hc : startsWord c = true) (rest : List Char) :
    Opens (c :: rest) := by
  refine .intro fun hmem => ?_
  have hsigns : [' ', '\t', '\r', '\n', ';', '#', ')', ']', '\x7d'].all
      (fun d => !startsWord d) = true := by decide
  have hword := List.all_eq_true.1 hsigns c hmem
  rw [hc] at hword
  cases hword

/-- A word is a number or else an atom. -/
theorem form_word {c : Char} (hc : startsWord c = true) (rest : List Char) :
    form config (room + 1) (c :: rest) =
      match number? (c :: rest) with
      | some outcome => outcome
      | none =>
        match atom? (c :: rest) with
        | some outcome => .ok outcome
        | none => .error ⟨.unexpected, c :: rest⟩ := by
  have hbool : bool? (c :: rest) = none := by
    unfold bool?
    split
    · next heq => exact absurd (List.cons.inj heq).1 (ne_of_startsWord hc rfl)
    · next heq => exact absurd (List.cons.inj heq).1 (ne_of_startsWord hc rfl)
    · rfl
  rw [form, hbool]
  all_goals first
    | rfl
    | exact fun _ heq => ne_of_startsWord hc rfl (List.cons.inj heq).1

end

end Reader
end CapLisp
