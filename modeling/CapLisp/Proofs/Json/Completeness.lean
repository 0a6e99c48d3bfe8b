/-
# The reader accepts every strict JSON text

A text that spells a document is read, and the tree that is read shows the document: the
same shape, and literals that denote its numbers and strings (`parse?_of_isSpelledBy`).

The reader counts steps.  It may take two for each character, and that is enough: a
tree takes one step and so does an element or member, which holds at least one
character and has a sign behind it.
-/

import CapLisp.Proofs.Json.Spelling
import Mathlib.Data.List.DropRight

namespace CapLisp

/-! ### What a tree shows -/

namespace Document

mutual

/-- Tells that a tree has the shape of a document and literals that denote what stands
in it. -/
def Shows : Document → Json → Prop
  | null, j => j = .null
  | bool b, j => j = .bool b
  | number n, j => j = .number (Decimal.ofInt n)
  | string s, j => ∃ literal, j = .string literal ∧ Json.textOf? literal = some s
  | array items, j => ∃ items', j = .array items' ∧ ShowsAll items items'
  | map entries, j => ∃ members, j = .object members ∧ ShowsEntries entries members
termination_by structural d => d

/-- Tells that the elements are shown one by one. -/
def ShowsAll : List Document → List Json → Prop
  | [], items' => items' = []
  | item :: more, items' => ∃ item' more', items' = item' :: more' ∧ Shows item item' ∧
    ShowsAll more more'
termination_by structural items => items

/-- Tells that the entries are shown one by one, each key as the name of a member. -/
def ShowsEntries : List (Document × Document) → List (List Char × Json) → Prop
  | [], members => members = []
  | (key, value) :: more, members => ∃ literal value' more',
    members = (literal, value') :: more' ∧
    (∃ name, key = string name ∧ Json.textOf? literal = some name) ∧ Shows value value' ∧
    ShowsEntries more more'
termination_by structural entries => entries

end

end Document

namespace Json
namespace Reader

variable {bound : Nat} {c : Char} {gap text rest : List Char}

/-! ### Blanks -/

/-- The blanks of a text are those that the reader skips. -/
theorem isBlank_of_mem (h : c ∈ [' ', '\n', '\t', '\r']) : isBlank c = true :=
  List.all_eq_true.1 (rfl : [' ', '\n', '\t', '\r'].all isBlank = true) c h

/-- **Blanks are skipped.** -/
theorem skip_gap (h : Gap gap) (text : List Char) : skip (gap ++ text) = skip text :=
  List.dropWhile_append_of_pos fun c hc => isBlank_of_mem (h c hc)

/-- Nothing is skipped in front of a sign. -/
theorem skip_of_not_blank (hc : isBlank c = false) (text : List Char) :
    skip (c :: text) = c :: text := by
  simp [skip, hc]

/-- Blanks in front of a sign are skipped. -/
theorem skip_gap_cons (c : Char) (hc : isBlank c = false) (h : Gap gap) (text : List Char) :
    skip (gap ++ c :: text) = c :: text := by
  rw [skip_gap h, skip_of_not_blank hc]

/-- Skipping twice skips no more than skipping once. -/
theorem skip_skip (text : List Char) : skip (skip text) = skip text :=
  List.dropWhile_idempotent ..

/-- Blanks end a number. -/
theorem endsNumber_gap (h : Gap gap) : endsNumber gap = true := by
  cases gap with
  | nil => rfl
  | cons c gap => simp [endsNumber, isBlank_of_mem (List.forall_mem_cons.1 h).1]

/-- Blanks in front of a sign that ends a number end it. -/
theorem endsNumber_gap_cons (c : Char) (hc : endsNumber [c] = true) (h : Gap gap)
    (text : List Char) : endsNumber (gap ++ c :: text) = true := by
  cases gap with
  | nil => exact hc
  | cons d gap =>
    have hends := endsNumber_gap h
    exact hends

/-! ### One step of the reader -/

/-- A tree may stand after blanks. -/
theorem value?_skip (bound : Nat) (text : List Char) :
    value? bound (skip text) = value? bound text := by
  cases bound with
  | zero => rfl
  | succ bound => rw [value?, value?, skip_skip]

/-- Blanks in front of a tree are skipped. -/
theorem value?_gap (h : Gap gap) (bound : Nat) (text : List Char) :
    value? bound (gap ++ text) = value? bound text := by
  rw [← value?_skip, skip_gap h, value?_skip]

/-- Elements may stand after blanks. -/
theorem items?_skip (bound : Nat) (text : List Char) :
    items? bound (skip text) = items? bound text := by
  cases bound with
  | zero => rfl
  | succ bound => rw [items?, items?, value?_skip]

/-- Members may stand after blanks. -/
theorem members?_skip (bound : Nat) (text : List Char) :
    members? bound (skip text) = members? bound text := by
  cases bound with
  | zero => rfl
  | succ bound => rw [members?, members?, skip_skip]

/-- A bracket starts an array. -/
theorem value?_array (bound : Nat) (text : List Char) :
    value? (bound + 1) ('[' :: text) =
      match skip text with
      | ']' :: left => some (.array [], left)
      | left => (items? bound left).map fun (items, left) => (.array items, left) := rfl

/-- A brace starts an object. -/
theorem value?_object (bound : Nat) (text : List Char) :
    value? (bound + 1) ('\x7b' :: text) =
      match skip text with
      | '\x7d' :: left => some (.object [], left)
      | left => (members? bound left).map fun (members, left) => (.object members, left) := rfl

/-- A quote starts a string. -/
theorem value?_string (bound : Nat) (text : List Char) :
    value? (bound + 1) ('"' :: text) =
      (string? text).map fun (literal, left) => (.string literal, left) := rfl

/-- Tells whether a character starts a number. -/
def startsNumber (c : Char) : Bool := c.isDigit || c == '-'

/-- A number starts with a digit or a minus sign. -/
theorem startsNumber_iff : startsNumber c = true ↔ c.isDigit = true ∨ c = '-' := by
  simp [startsNumber]

/-- A sign that starts no number differs from one that does. -/
theorem ne_of_startsNumber {d : Char} (hc : startsNumber c = true)
    (hd : startsNumber d = false) : c ≠ d := by
  rintro rfl
  rw [hc] at hd
  cases hd

/-- No number starts with a blank. -/
theorem isBlank_of_startsNumber (hc : startsNumber c = true) : isBlank c = false := by
  have hspace : c ≠ ' ' := ne_of_startsNumber hc rfl
  have hfeed : c ≠ '\n' := ne_of_startsNumber hc rfl
  have htab : c ≠ '\t' := ne_of_startsNumber hc rfl
  have hreturn : c ≠ '\r' := ne_of_startsNumber hc rfl
  simp [isBlank, hspace, hfeed, htab, hreturn]

/-- A digit or a minus sign starts a number. -/
theorem value?_number (hc : startsNumber c = true) (bound : Nat) (text : List Char) :
    value? (bound + 1) (c :: text) =
      (number? (c :: text)).map fun (literal, left) => (.number literal, left) := by
  have hbrace : c ≠ '\x7b' := ne_of_startsNumber hc rfl
  have hbracket : c ≠ '[' := ne_of_startsNumber hc rfl
  have hquote : c ≠ '"' := ne_of_startsNumber hc rfl
  have ht : c ≠ 't' := ne_of_startsNumber hc rfl
  have hf : c ≠ 'f' := ne_of_startsNumber hc rfl
  have hn : c ≠ 'n' := ne_of_startsNumber hc rfl
  rw [value?, skip_of_not_blank (isBlank_of_startsNumber hc)]
  simp only [hbrace, hbracket, hquote, ht, hf, hn, ↓reduceIte]

end Reader
end Json

/-! ### Reading a spelling -/

namespace Document

open Json (Gap Listed)
open Json.Reader

/-- Tells that a text is read as a document, as long as the reader may take two
steps for each of its characters.  The text starts with no blank and no closing
bracket. -/
structure ReadFrom (d : Document) (text : List Char) : Prop where
  starts : ∃ c more, text = c :: more ∧ isBlank c = false ∧ c ≠ ']'
  reads : ∀ (bound : Nat) (rest : List Char), endsNumber rest = true → 2 * text.length ≤ bound →
    ∃ j, value? bound (text ++ rest) = some (j, rest) ∧ d.Shows j

namespace ReadFrom

variable {d : Document} {bound : Nat} {inner rest : List Char}

/-- The reader has a step to take, since there is a character to read. -/
theorem of_reads {c : Char} {more : List Char} (hblank : isBlank c = false) (hc : c ≠ ']')
    (reads : ∀ (bound : Nat) (rest : List Char), endsNumber rest = true →
      2 * more.length + 1 ≤ bound →
      ∃ j, value? (bound + 1) (c :: (more ++ rest)) = some (j, rest) ∧ d.Shows j) :
    ReadFrom d (c :: more) where
  starts := ⟨c, more, rfl, hblank, hc⟩
  reads bound rest hrest hbound := by
    rw [List.length_cons] at hbound
    obtain ⟨bound, rfl⟩ := Nat.exists_eq_add_one_of_ne_zero (by omega : bound ≠ 0)
    exact reads bound rest hrest (by omega)

/-- **The elements of an array are read** up to the closing bracket. -/
theorem items?_listed {parts : List (Document × List Char)}
    (h : ∀ part ∈ parts, ReadFrom part.1 part.2) (hne : parts ≠ [])
    (hinner : Listed (parts.map Prod.snd) inner) (hbound : 2 * inner.length + 1 ≤ bound)
    (rest : List Char) :
    ∃ items, items? bound (inner ++ ']' :: rest) = some (items, rest) ∧
      ShowsAll (parts.map Prod.fst) items := by
  -- Each element takes one step of the bound and at least one character, so that the bound,
  -- twice the text, is enough for the rest of the list.
  induction parts generalizing bound inner with
  | nil => exact absurd rfl hne
  | cons part parts ih =>
    obtain ⟨bound, rfl⟩ := Nat.exists_eq_add_one_of_ne_zero (by omega : bound ≠ 0)
    obtain ⟨hpart, hparts⟩ := List.forall_mem_cons.1 h
    cases parts with
    | nil =>
      obtain _ | ⟨hbefore, hafter⟩ := hinner
      simp only [List.length_append] at hbound
      obtain ⟨j, hread, hshows⟩ := hpart.reads bound _
        (endsNumber_gap_cons ']' rfl hafter rest) (by omega)
      refine ⟨[j], ?_, j, [], rfl, hshows, rfl⟩
      rw [items?, List.append_assoc, List.append_assoc, value?_gap hbefore, hread]
      simp only [Option.bind_eq_bind, Option.bind_some, skip_gap_cons ']' rfl hafter]
    | cons next parts =>
      obtain _ | _ | ⟨hbefore, hafter, hmore⟩ := hinner
      simp only [List.length_append, List.length_cons] at hbound
      obtain ⟨items, hitems, hshowsAll⟩ := ih hparts (List.cons_ne_nil _ _) hmore
        (by omega : _ ≤ bound)
      obtain ⟨j, hread, hshows⟩ := hpart.reads bound _
        (endsNumber_gap_cons ',' rfl hafter _) (by omega)
      refine ⟨j :: items, ?_, j, items, rfl, hshows, hshowsAll⟩
      rw [items?]
      simp only [List.append_assoc, List.cons_append]
      rw [value?_gap hbefore, hread]
      simp only [Option.bind_eq_bind, Option.bind_some, skip_gap_cons ',' rfl hafter, hitems,
        Option.map_some]

section

variable {m : Member} {j : Json} {before after : List Char}

/-- The last member is read up to the closing brace. -/
theorem members?_last (hname : Json.Text.Denotes m.literal m.name.toList)
    (hgap : Gap m.before ∧ Gap m.after) (hbefore : Gap before) (hafter : Gap after)
    (hread : value? bound (m.text ++ (after ++ '\x7d' :: rest)) =
      some (j, after ++ '\x7d' :: rest)) :
    members? (bound + 1) (before ++ (m.chars ++ (after ++ '\x7d' :: rest))) =
      some ([(m.literal, j)], rest) := by
  rw [members?, Member.chars, List.cons_append, skip_gap_cons '"' rfl hbefore]
  simp only [after?, Option.bind_eq_bind, Option.bind_some, ↓reduceIte, List.append_assoc,
    List.cons_append, string?_of_denotes hname, skip_gap_cons ':' rfl hgap.1, value?_gap hgap.2,
    hread, skip_gap_cons '\x7d' rfl hafter]

/-- Any other member is read up to the comma, and the others are read behind it. -/
theorem members?_more (hname : Json.Text.Denotes m.literal m.name.toList)
    (hgap : Gap m.before ∧ Gap m.after) (hbefore : Gap before) (hafter : Gap after)
    {text : List Char} {members : List (List Char × Json)}
    (hread : value? bound (m.text ++ (after ++ ',' :: text)) = some (j, after ++ ',' :: text))
    (hmembers : members? bound text = some (members, rest)) :
    members? (bound + 1) (before ++ (m.chars ++ (after ++ ',' :: text))) =
      some ((m.literal, j) :: members, rest) := by
  rw [members?, Member.chars, List.cons_append, skip_gap_cons '"' rfl hbefore]
  simp only [after?, Option.bind_eq_bind, Option.bind_some, ↓reduceIte, List.append_assoc,
    List.cons_append, string?_of_denotes hname, skip_gap_cons ':' rfl hgap.1, value?_gap hgap.2,
    hread, skip_gap_cons ',' rfl hafter, hmembers, Option.map_some]

end

/-- **The members of an object are read** up to the closing brace. -/
theorem members?_listed {members : List Member}
    (hnames : ∀ m ∈ members, Json.Text.Denotes m.literal m.name.toList)
    (hgaps : ∀ m ∈ members, Gap m.before ∧ Gap m.after)
    (h : ∀ m ∈ members, ReadFrom m.value m.text) (hne : members ≠ [])
    (hinner : Listed (members.map Member.chars) inner) (hbound : 2 * inner.length + 1 ≤ bound)
    (rest : List Char) :
    ∃ read, members? bound (inner ++ '\x7d' :: rest) = some (read, rest) ∧
      ShowsEntries (members.map Member.entry) read := by
  induction members generalizing bound inner with
  | nil => exact absurd rfl hne
  | cons m members ih =>
    obtain ⟨bound, rfl⟩ := Nat.exists_eq_add_one_of_ne_zero (by omega : bound ≠ 0)
    obtain ⟨hname, hnames⟩ := List.forall_mem_cons.1 hnames
    obtain ⟨hgap, hgaps⟩ := List.forall_mem_cons.1 hgaps
    obtain ⟨hvalue, hvalues⟩ := List.forall_mem_cons.1 h
    -- The name is kept as it is spelled, and read when the entry is looked up.
    have htext : Json.textOf? m.literal = some m.name := Json.textOf?_of_denotes hname
    have hlength : m.text.length ≤ m.chars.length := by
      simp only [Member.chars, List.length_cons, List.length_append]
      omega
    cases members with
    | nil =>
      obtain _ | ⟨hbefore, hafter⟩ := hinner
      simp only [List.length_append] at hbound
      obtain ⟨j, hread, hshows⟩ := hvalue.reads bound _
        (endsNumber_gap_cons '\x7d' rfl hafter rest) (by omega)
      refine ⟨[(m.literal, j)], ?_, m.literal, j, [], rfl, ⟨m.name, rfl, htext⟩, hshows, rfl⟩
      rw [List.append_assoc, List.append_assoc]
      exact members?_last hname hgap hbefore hafter hread
    | cons next members =>
      obtain _ | _ | ⟨hbefore, hafter, hmore⟩ := hinner
      simp only [List.length_append, List.length_cons] at hbound
      obtain ⟨read, hmembers, hshowsAll⟩ := ih hnames hgaps hvalues (List.cons_ne_nil _ _) hmore
        (by omega : _ ≤ bound)
      obtain ⟨j, hread, hshows⟩ := hvalue.reads bound _
        (endsNumber_gap_cons ',' rfl hafter _) (by omega)
      refine ⟨(m.literal, j) :: read, ?_, m.literal, j, read, rfl, ⟨m.name, rfl, htext⟩, hshows,
        hshowsAll⟩
      simp only [List.append_assoc, List.cons_append]
      exact members?_more hname hgap hbefore hafter hread hmembers

/-- What is listed starts with its first text, after blanks. -/
theorem skip_listed {c : Char} {first text : List Char} {more : List (List Char)}
    (hfirst : first = c :: text) (hc : isBlank c = false)
    (hinner : Listed (first :: more) inner) (rest : List Char) :
    ∃ tail, skip (inner ++ rest) = c :: tail := by
  subst hfirst
  have hskip : ∀ {before : List Char}, Gap before → ∀ after,
      skip (before ++ ((c :: text) ++ after) ++ rest) = c :: (text ++ (after ++ rest)) :=
    fun hbefore after => by
      simp only [List.append_assoc, List.cons_append]
      exact skip_gap_cons c hc hbefore _
  obtain _ | ⟨hbefore, -⟩ | ⟨hbefore, -, -⟩ := hinner
  · exact ⟨_, hskip hbefore _⟩
  · exact ⟨_, hskip hbefore _⟩

/-- **An array is read.** -/
theorem array {parts : List (Document × List Char)} (h : ∀ part ∈ parts, ReadFrom part.1 part.2)
    (hinner : Listed (parts.map Prod.snd) inner) :
    ReadFrom (array (parts.map Prod.fst)) ('[' :: (inner ++ [']'])) := by
  refine of_reads rfl (by decide) fun bound rest _ hbound => ?_
  simp only [List.length_append, List.length_cons, List.length_nil] at hbound
  rw [List.append_assoc, value?_array]
  cases parts with
  | nil =>
    obtain ⟨hgap⟩ := hinner
    refine ⟨.array [], ?_, [], rfl, rfl⟩
    rw [List.cons_append, List.nil_append, skip_gap_cons ']' rfl hgap]
    rfl
  | cons part parts =>
    obtain ⟨c, text, htext, hblank, hc⟩ := (h part (List.mem_cons_self ..)).starts
    obtain ⟨tail, hskip⟩ := skip_listed htext hblank hinner (']' :: rest)
    obtain ⟨items, hitems, hshows⟩ := items?_listed h (List.cons_ne_nil _ _) hinner
      (by omega : _ ≤ bound) rest
    refine ⟨.array items, ?_, items, rfl, hshows⟩
    rw [← items?_skip, hskip] at hitems
    rw [List.cons_append, List.nil_append, hskip]
    split
    · next heq => exact absurd (List.cons.inj heq).1 hc
    · rw [hitems]
      rfl

/-- **An object is read.** -/
theorem map {members : List Member}
    (hname : ∀ m ∈ members, Json.Text.Denotes m.literal m.name.toList)
    (hgap : ∀ m ∈ members, Gap m.before ∧ Gap m.after)
    (h : ∀ m ∈ members, ReadFrom m.value m.text)
    (hinner : Listed (members.map Member.chars) inner) :
    ReadFrom (map (members.map Member.entry)) ('\x7b' :: (inner ++ ['\x7d'])) := by
  refine of_reads rfl (by decide) fun bound rest _ hbound => ?_
  simp only [List.length_append, List.length_cons, List.length_nil] at hbound
  rw [List.append_assoc, value?_object]
  cases members with
  | nil =>
    obtain ⟨hblank⟩ := hinner
    refine ⟨.object [], ?_, [], rfl, rfl⟩
    rw [List.cons_append, List.nil_append, skip_gap_cons '\x7d' rfl hblank]
    rfl
  | cons m members =>
    obtain ⟨tail, hskip⟩ := skip_listed rfl rfl hinner ('\x7d' :: rest)
    obtain ⟨read, hmembers, hshows⟩ := members?_listed hname hgap h (List.cons_ne_nil _ _) hinner
      (by omega : _ ≤ bound) rest
    refine ⟨.object read, ?_, read, rfl, hshows⟩
    rw [← members?_skip, hskip] at hmembers
    rw [List.cons_append, List.nil_append, hskip]
    split
    · next heq => exact absurd (List.cons.inj heq).1 (by decide)
    · rw [hmembers]
      rfl

/-- A number is read. -/
theorem number (n : Int) : ReadFrom (number n) (Decimal.ofInt n) := by
  obtain ⟨c, digits, hcons, hsign⟩ := Decimal.exists_cons_ofInt n
  have hc := startsNumber_iff.2 hsign
  rw [hcons]
  refine of_reads (isBlank_of_startsNumber hc) (ne_of_startsNumber hc rfl)
    fun bound rest hrest _ => ⟨.number (c :: digits), ?_, congrArg _ hcons.symm⟩
  have hnumber := number?_ofInt n hrest
  rw [hcons, List.cons_append] at hnumber
  rw [value?_number hc, hnumber]
  rfl

/-- A string is read. -/
theorem string {s : String} {literal : List Char} (h : Json.Text.Denotes literal s.toList) :
    ReadFrom (string s) ('"' :: (literal ++ ['"'])) := by
  refine of_reads rfl (by decide) fun bound rest _ _ =>
    ⟨.string literal, ?_, literal, rfl, Json.textOf?_of_denotes h⟩
  rw [List.append_assoc, value?_string, List.cons_append, List.nil_append, string?_of_denotes h]
  rfl

end ReadFrom

/-- **Every text that spells a document is read as it.** -/
theorem Spells.readFrom {d : Document} {chars : List Char} (h : d.Spells chars) :
    ReadFrom d chars := by
  induction h with
  | null => exact .of_reads rfl (by decide) fun _ _ _ _ => ⟨.null, rfl, rfl⟩
  | bool b => cases b <;> exact .of_reads rfl (by decide) fun _ _ _ _ => ⟨.bool _, rfl, rfl⟩
  | number n => exact .number n
  | string h => exact .string h
  | array _ hinner ih => exact .array ih hinner
  | map hname hgap _ hinner ih => exact .map hname hgap ih hinner

/-- **Every strict JSON text is read**, to a tree that shows the document that the text
spells. -/
theorem parse?_of_isSpelledBy {d : Document} {text : String} (h : d.IsSpelledBy text) :
    ∃ j, Json.parse? text = some j ∧ d.Shows j := by
  obtain ⟨before, chars, after, hbefore, hspells, hafter, heq⟩ := h
  have hlength : 2 * chars.length ≤ 2 * text.toList.length + 1 := by
    simp only [heq, List.length_append]
    omega
  obtain ⟨j, hread, hshows⟩ := hspells.readFrom.reads _ after (endsNumber_gap hafter) hlength
  have hrest : skip after = [] := by
    have hskip := skip_gap hafter []
    rwa [List.append_nil] at hskip
  refine ⟨j, ?_, hshows⟩
  rw [Json.parse?, heq, value?_gap hbefore, ← heq, hread]
  simp [hrest]

end Document
end CapLisp
