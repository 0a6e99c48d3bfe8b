/-
# Compact texts spell their documents

The compact text of a document whose maps have only strings as keys is strict JSON for
it (`isSpelledBy_text`): every literal denotes what it stands for, and commas stand
between the elements and members and nowhere else.

Arrays and objects nest as deep in a text that spells a document as in the document
(`depth_eq_nesting`).  What carries the induction is how a text adds to the nesting of
what stands behind it (`NestsTo`): texts in a row nest as deep as the deepest of them,
a string nests nothing whatever signs stand in it, and brackets add one level.
-/

import CapLisp.Proofs.Json.Literal

namespace CapLisp

namespace Json

/-- No blanks at all are a run of blanks. -/
theorem gap_nil : Gap [] := List.forall_mem_nil _

end Json

namespace Document

open Json (Gap Listed gap_nil)

/-! ### The compact text -/

/-- Tells that the compact text of a document spells it, whatever stands behind it. -/
def IsWritten (d : Document) : Prop :=
  ∃ chars, d.Spells chars ∧ ∀ rest, d.json.write rest = chars ++ rest

/-- **The elements of an array are written as a list of their texts.** -/
theorem exists_parts {items : List Document} (h : ∀ item ∈ items, item.IsWritten) :
    ∃ (parts : List (Document × List Char)) (inner : List Char), parts.map Prod.fst = items ∧
      (∀ part ∈ parts, Spells part.1 part.2) ∧ Listed (parts.map Prod.snd) inner ∧
      ∀ rest, Json.writeItems (jsonAll items) rest = inner ++ rest := by
  induction items with
  | nil => exact ⟨[], [], rfl, List.forall_mem_nil _, .nil gap_nil, fun _ => rfl⟩
  | cons item more ih =>
    obtain ⟨⟨chars, hspells, hwrite⟩, hmore⟩ := List.forall_mem_cons.1 h
    obtain ⟨parts, inner, rfl, hparts, hinner, hinners⟩ := ih hmore
    have hfirst : ∀ rest, Json.writeItems (jsonAll (item :: parts.map Prod.fst)) rest =
        chars ++ separated [','] (jsonAll (parts.map Prod.fst)) (inner ++ rest) := by
      rintro rest
      rw [jsonAll, Json.writeItems, hinners, hwrite]
    refine ⟨(item, chars) :: parts, ?_⟩
    -- A comma follows the element exactly if another one does.
    cases parts with
    | nil =>
      obtain ⟨hgap⟩ := hinner
      refine ⟨[] ++ (chars ++ inner), rfl, List.forall_mem_singleton.2 hspells,
        .last gap_nil hgap, fun rest => ?_⟩
      rw [hfirst, List.nil_append, List.append_assoc]
      rfl
    | cons part parts =>
      refine ⟨[] ++ (chars ++ ([] ++ ',' :: inner)), rfl,
        List.forall_mem_cons.2 ⟨hspells, hparts⟩, .cons gap_nil gap_nil hinner, fun rest => ?_⟩
      rw [hfirst, List.nil_append, List.append_assoc]
      rfl

/-- The first member is written in front of the others. -/
theorem writeMembers_member (name : String) (value : Document)
    (more : List (Document × Document)) (rest : List Char) :
    Json.writeMembers (jsonEntries (member name value :: more)) rest =
      '"' :: (Json.Text.encode name.toList ++ '"' :: ':' ::
        value.json.write (separated [','] more (Json.writeMembers (jsonEntries more) rest))) := by
  cases more <;> rfl

/-- **The members of an object are written as a list of their texts.** -/
theorem exists_members {members : List (String × Document)}
    (h : ∀ m ∈ members, IsWritten m.2) :
    ∃ (parts : List Member) (inner : List Char),
      parts.map Member.entry = (members.map fun (name, value) => member name value) ∧
      (∀ m ∈ parts, Json.Text.Denotes m.literal m.name.toList) ∧
      (∀ m ∈ parts, Gap m.before ∧ Gap m.after) ∧ (∀ m ∈ parts, Spells m.value m.text) ∧
      Listed (parts.map Member.chars) inner ∧
      ∀ rest, Json.writeMembers (jsonEntries (parts.map Member.entry)) rest = inner ++ rest := by
  induction members with
  | nil =>
    exact ⟨[], [], rfl, List.forall_mem_nil _, List.forall_mem_nil _, List.forall_mem_nil _,
      .nil gap_nil, fun _ => rfl⟩
  | cons first more ih =>
    obtain ⟨name, value⟩ := first
    obtain ⟨⟨chars, (hspells : value.Spells chars), hwrite⟩, hmore⟩ := List.forall_mem_cons.1 h
    obtain ⟨parts, inner, hentries, hnames, hgaps, hvalues, hinner, hinners⟩ := ih hmore
    have hname := Json.Text.denotes_encode name.toList
    let first : Member := ⟨name, Json.Text.encode name.toList, [], [], value, chars⟩
    have hfirst : ∀ rest, Json.writeMembers (jsonEntries (first.entry :: parts.map Member.entry))
        rest = first.chars ++ separated [','] (parts.map Member.entry) (inner ++ rest) := by
      rintro rest
      rw [Member.entry, writeMembers_member, hinners]
      simp [first, Member.chars, hwrite]
    refine ⟨first :: parts, ?_⟩
    -- The writer puts commas between members, and none behind the last one.
    cases parts with
    | nil =>
      obtain ⟨hgap⟩ := hinner
      refine ⟨[] ++ (first.chars ++ inner), congrArg (first.entry :: ·) hentries,
        List.forall_mem_singleton.2 hname, List.forall_mem_singleton.2 ⟨gap_nil, gap_nil⟩,
        List.forall_mem_singleton.2 hspells, .last gap_nil hgap, fun rest => ?_⟩
      rw [List.map_cons, hfirst, List.nil_append, List.append_assoc]
      rfl
    | cons part parts =>
      refine ⟨[] ++ (first.chars ++ ([] ++ ',' :: inner)), congrArg (first.entry :: ·) hentries,
        List.forall_mem_cons.2 ⟨hname, hnames⟩,
        List.forall_mem_cons.2 ⟨⟨gap_nil, gap_nil⟩, hgaps⟩,
        List.forall_mem_cons.2 ⟨hspells, hvalues⟩, .cons gap_nil gap_nil hinner, fun rest => ?_⟩
      rw [List.map_cons, hfirst, List.nil_append, List.append_assoc]
      rfl

/-- **What is written for a document spells it.** -/
theorem HasTextKeys.isWritten {d : Document} (h : d.HasTextKeys) : d.IsWritten := by
  induction h with
  | null => exact ⟨_, .null, fun _ => rfl⟩
  | bool b => exact ⟨_, .bool b, fun _ => by cases b <;> rfl⟩
  | number n => exact ⟨_, .number n, fun _ => rfl⟩
  | string s =>
    refine ⟨_, .string (Json.Text.denotes_encode s.toList), fun rest => ?_⟩
    simp [json, Json.ofText, Json.write]
  | array h ih =>
    obtain ⟨parts, inner, rfl, hparts, hinner, hwrite⟩ := exists_parts ih
    refine ⟨_, .array hparts hinner, fun rest => ?_⟩
    simp [json, Json.write, hwrite]
  | object h ih =>
    obtain ⟨parts, inner, hentries, hnames, hgaps, hvalues, hinner, hwrite⟩ := exists_members ih
    rw [Document.object, ← hentries]
    refine ⟨_, .map hnames hgaps hvalues hinner, fun rest => ?_⟩
    simp [json, Json.write, hwrite]

/-- **The compact text of a document is strict JSON for it.** -/
theorem isSpelledBy_text {d : Document} (h : d.HasTextKeys) : d.IsSpelledBy d.text := by
  obtain ⟨chars, hspells, hwrite⟩ := h.isWritten
  refine ⟨[], chars, [], gap_nil, hspells, gap_nil, ?_⟩
  rw [text, Json.text, String.toList_ofList, hwrite]
  rfl

end Document

/-! ### Nesting -/

namespace Json

variable {m n : Nat} {a b text : List Char}

/-- As many arrays and objects are open as are open to begin with. -/
theorem le_deepest (level : Nat) (quoted : Bool) (text : List Char) :
    level ≤ deepest level quoted text := by
  fun_induction deepest level quoted text with
  | case1 => exact Nat.le_refl _
  | case2 level _ rest ih => exact ih
  | case3 level c rest _ ih => exact ih
  | case4 level c rest h ih => omega
  | case5 level c rest _ _ => exact Nat.le_max_left ..
  | case6 level c rest _ _ ih => exact ih

/-- Tells whether a character is no bracket, no brace and no quote. -/
def isPlain (c : Char) : Bool :=
  c != '"' && c != '[' && c != ']' && c != '\x7b' && c != '\x7d'

/-- Digits are plain. -/
theorem isPlain_of_isDigit {c : Char} (h : c.isDigit = true) : isPlain c = true := by
  have hne : ∀ d : Char, d.isDigit = false → c ≠ d := fun d hd heq => by
    rw [heq, hd] at h
    cases h
  simp [isPlain, hne '"' rfl, hne '[' rfl, hne ']' rfl, hne '\x7b' rfl, hne '\x7d' rfl]

/-- Tells that a text opens `n` levels more than are open, and closes them all. -/
def NestsTo (n : Nat) (text : List Char) : Prop :=
  ∀ level rest, deepest level false (text ++ rest) = max (level + n) (deepest level false rest)

namespace NestsTo

/-- Nothing opens no level. -/
theorem nil : NestsTo 0 [] := fun level rest =>
  (Nat.max_eq_right (le_deepest level false rest)).symm

/-- Two texts in a row nest as deep as the deeper one. -/
theorem append (ha : NestsTo m a) (hb : NestsTo n b) : NestsTo (max m n) (a ++ b) := by
  rintro level rest
  rw [List.append_assoc, ha, hb]
  omega

/-- A plain character opens no level. -/
theorem cons {c : Char} (hc : isPlain c = true) (h : NestsTo n text) : NestsTo n (c :: text) := by
  rintro level rest
  simp only [isPlain, Bool.and_eq_true, bne_iff_ne] at hc
  obtain ⟨⟨⟨⟨hquote, hopen⟩, hclose⟩, hbrace⟩, hbrace'⟩ := hc
  have hstart : (c == '"') = false := beq_false_of_ne hquote
  have hopens : ¬ (c = '[' ∨ c = '\x7b') := not_or.2 ⟨hopen, hbrace⟩
  have hcloses : ¬ (c = ']' ∨ c = '\x7d') := not_or.2 ⟨hclose, hbrace'⟩
  rw [List.cons_append, deepest, if_neg hopens, if_neg hcloses, hstart, h]

/-- A text of plain characters opens no level. -/
theorem of_all (h : text.all isPlain = true) : NestsTo 0 text := by
  induction text with
  | nil => exact nil
  | cons c text ih =>
    rw [List.all_cons, Bool.and_eq_true] at h
    exact .cons h.1 (ih h.2)

/-- Blanks open no level. -/
theorem of_gap {gap : List Char} (h : Gap gap) : NestsTo 0 gap :=
  of_all (List.all_eq_true.2 fun c hc =>
    List.all_eq_true.1 (rfl : [' ', '\n', '\t', '\r'].all isPlain = true) c (h c hc))

/-- A pair of brackets, or of braces, adds a level to what it holds. -/
theorem inside {c d : Char} (hc : c = '[' ∨ c = '\x7b') (hd : d = ']' ∨ d = '\x7d')
    (h : NestsTo n text) : NestsTo (n + 1) (c :: (text ++ [d])) := by
  rintro level rest
  have hclose : ¬ (d = '[' ∨ d = '\x7b') := by
    obtain rfl | rfl := hd <;> decide
  rw [List.cons_append, deepest, if_pos hc, List.append_assoc, h, List.cons_append,
    List.nil_append, deepest, if_neg hclose, if_pos hd, Nat.add_sub_cancel]
  omega

end NestsTo

/-- The digits of a unit are no quote and no backslash. -/
theorem ne_of_hexValue? {c : Char} {n : Nat} (h : Text.hexValue? c = some n) :
    c ≠ '"' ∧ c ≠ '\\' := by
  constructor <;> rintro rfl <;> cases h

/-- Inside a string any other character leaves it open. -/
theorem deepest_raw {c : Char} (hquote : c ≠ '"') (hbackslash : c ≠ '\\') (level : Nat)
    (rest : List Char) : deepest level true (c :: rest) = deepest level true rest := by
  have hstart : (c != '"') = true := by simpa using hquote
  rw [deepest, hstart]
  rintro d rest' heq -
  exact hbackslash heq

/-- Inside a string the escape of a unit leaves it open. -/
theorem deepest_unit {w x y z : Char} {u : Nat} (h : Text.unit? w x y z = some u) (level : Nat)
    (rest : List Char) :
    deepest level true ('\\' :: 'u' :: w :: x :: y :: z :: rest) = deepest level true rest := by
  simp only [Text.unit?, Option.bind_eq_bind, Option.bind_eq_some_iff] at h
  obtain ⟨_, hw, _, hx, _, hy, _, hz, -⟩ := h
  obtain ⟨hw, hw'⟩ := ne_of_hexValue? hw
  obtain ⟨hx, hx'⟩ := ne_of_hexValue? hx
  obtain ⟨hy, hy'⟩ := ne_of_hexValue? hy
  obtain ⟨hz, hz'⟩ := ne_of_hexValue? hz
  rw [deepest, deepest_raw hw hw', deepest_raw hx hx', deepest_raw hy hy', deepest_raw hz hz']

/-- **A literal does not close its string**, whatever it denotes. -/
theorem deepest_of_denotes {literal chars : List Char} (h : Text.Denotes literal chars)
    (level : Nat) (rest : List Char) :
    deepest level true (literal ++ '"' :: rest) = deepest level false rest := by
  induction h with
  | nil => rfl
  | raw hquote hbackslash hcontrol h ih => rw [List.cons_append, deepest_raw hquote hbackslash, ih]
  | sign hsign h ih => rw [List.cons_append, List.cons_append, deepest, ih]
  | unit hunit h ih =>
    simp only [List.cons_append]
    rw [deepest_unit hunit, ih]
  | pair hhigh ishigh hlow islow h ih =>
    simp only [List.cons_append]
    rw [deepest_unit hhigh, deepest_unit hlow, ih]

/-- A string opens no level. -/
theorem nestsTo_string {literal chars : List Char} (h : Text.Denotes literal chars) :
    NestsTo 0 ('"' :: (literal ++ ['"'])) := by
  rintro level rest
  rw [List.cons_append, deepest, if_neg (by decide), if_neg (by decide), List.append_assoc]
  exact (deepest_of_denotes h level rest).trans (NestsTo.nil level rest)

/-- A comma with a text behind it nests as deep as that text. -/
theorem nestsTo_comma (h : NestsTo n text) : NestsTo n (',' :: text) := .cons rfl h

/-- **Texts in a row nest as deep as the deepest of them.** -/
theorem nestsTo_listed {α : Type} {chars : α → List Char} {nesting : α → Nat} {parts : List α}
    {inner : List Char} (h : ∀ part ∈ parts, NestsTo (nesting part) (chars part))
    (hinner : Listed (parts.map chars) inner) :
    NestsTo ((parts.map nesting).foldr max 0) inner := by
  induction parts generalizing inner with
  | nil =>
    obtain ⟨hgap⟩ := hinner
    exact .of_gap hgap
  | cons part parts ih =>
    obtain ⟨hpart, hparts⟩ := List.forall_mem_cons.1 h
    cases parts with
    | nil =>
      obtain _ | ⟨hbefore, hafter⟩ := hinner
      have hone := (NestsTo.of_gap hbefore).append (hpart.append (.of_gap hafter))
      rwa [Nat.zero_max] at hone
    | cons next parts =>
      obtain _ | _ | ⟨hbefore, hafter, hmore⟩ := hinner
      have hmany := (NestsTo.of_gap hbefore).append
        (hpart.append ((NestsTo.of_gap hafter).append (nestsTo_comma (ih hparts hmore))))
      rwa [Nat.zero_max, Nat.zero_max] at hmany

end Json

namespace Document

open Json (NestsTo nestsTo_string nestsTo_listed)

/-- The deepest nesting of the elements, one after the other. -/
theorem nestingOfItems_map {α : Type} (f : α → Document) (parts : List α) :
    nestingOfItems (parts.map f) = (parts.map fun part => (f part).nesting).foldr max 0 := by
  induction parts with
  | nil => rfl
  | cons part parts ih => rw [List.map_cons, nestingOfItems, ih, List.map_cons, List.foldr_cons]

/-- The deepest nesting of the members, one after the other. -/
theorem nestingOfEntries_map (members : List Member) :
    nestingOfEntries (members.map Member.entry) =
      (members.map fun m => m.value.nesting).foldr max 0 := by
  induction members with
  | nil => rfl
  | cons m members ih =>
    rw [List.map_cons, Member.entry, member, nestingOfEntries, ih, List.map_cons, List.foldr_cons]

/-- A member nests as deep as its value. -/
theorem Member.nestsTo {m : Member} (hname : Json.Text.Denotes m.literal m.name.toList)
    (hgap : Json.Gap m.before ∧ Json.Gap m.after) (h : NestsTo m.value.nesting m.text) :
    NestsTo m.value.nesting m.chars := by
  have hcolon : NestsTo m.value.nesting (':' :: (m.after ++ m.text)) :=
    .cons rfl (by simpa using (NestsTo.of_gap hgap.2).append h)
  have hall := (nestsTo_string hname).append ((NestsTo.of_gap hgap.1).append hcolon)
  rw [Nat.zero_max, Nat.zero_max] at hall
  rw [Member.chars]
  simpa using hall

/-- **A text nests as deep as the document that it spells.** -/
theorem Spells.nestsTo {d : Document} {chars : List Char} (h : d.Spells chars) :
    NestsTo d.nesting chars := by
  induction h with
  | null => exact .of_all rfl
  | bool b => cases b <;> exact .of_all rfl
  | number n =>
    refine .of_all (List.all_eq_true.2 fun c hc => ?_)
    cases n with
    | ofNat m => exact Json.isPlain_of_isDigit (Decimal.isDigit_of_mem_ofNat hc)
    | negSucc m =>
      obtain rfl | hdigit := List.mem_cons.1 hc
      · rfl
      · exact Json.isPlain_of_isDigit (Decimal.isDigit_of_mem_ofNat hdigit)
  | string h => exact nestsTo_string h
  | array h hinner ih =>
    rw [nesting, nestingOfItems_map]
    exact .inside (.inl rfl) (.inl rfl) (nestsTo_listed ih hinner)
  | map hname hgap h hinner ih =>
    rw [nesting, nestingOfEntries_map]
    exact .inside (.inr rfl) (.inr rfl)
      (nestsTo_listed (fun m hm => m.nestsTo (hname m hm) (hgap m hm) (ih m hm)) hinner)

/-- **Arrays and objects nest as deep in a text as in the document that it spells.** -/
theorem depth_eq_nesting {d : Document} {text : String} (h : d.IsSpelledBy text) :
    Json.depth text = d.nesting := by
  obtain ⟨before, chars, after, hbefore, hspells, hafter, heq⟩ := h
  have hnests := (NestsTo.of_gap hbefore).append (hspells.nestsTo.append (.of_gap hafter)) 0 []
  rw [List.append_nil, Json.deepest, Nat.zero_max, Nat.max_zero, Nat.zero_add,
    Nat.max_zero] at hnests
  rw [Json.depth, heq, hnests]

end Document
end CapLisp
