/-
# Texts put behind each other

The reader looks ahead at the end of a token and searches forward for the end of
a comment.  Neither changes what it read when more text follows after a line
feed: a token that ended with the text still ends there, and a line comment that
was open ends there, too.

| of the first text | with more text behind it |
| --- | --- |
| what is skipped (`Skips`) | is skipped, an open line comment up to the line feed |
| a form (`form_append_of_eq`) | is read as before, and the rest is longer |
| the forms (`parseProgram_append`) | come first, then those of the second text |

A block comment that was never closed is no spacing.  The reader stops at it, so
a text whose forms were all read has none.
-/

import CapLisp.Proofs.Reader.ReadBack
import Mathlib.Data.List.TakeWhile

namespace CapLisp
namespace Reader

/-! ### What is skipped -/

section

variable {comments : Bool} {gap text rest out : List Char}

/-- Two gaps in a row are a gap. -/
theorem Spacing.append (hgap : Spacing comments gap) (h : Spacing comments rest) :
    Spacing comments (gap ++ rest) := by
  induction hgap with
  | nil => exact h
  | blank hc _ ih => exact .blank hc ih
  | line on hbody _ ih =>
    rw [List.cons_append, List.append_assoc, List.cons_append]
    exact .line on hbody ih
  | block on hbody _ ih =>
    rw [List.cons_append, List.cons_append, List.append_assoc, List.cons_append, List.cons_append]
    exact .block on hbody ih

/-- What is left of a text after skipping: what stands behind its spacing, or nothing
where the text ends in a line comment. -/
inductive Skips (comments : Bool) : List Char → List Char → Prop
  | spacing {gap rest : List Char} (hgap : Spacing comments gap) : Skips comments (gap ++ rest) rest
  | comment {gap body : List Char} (hgap : Spacing comments gap) (on : comments = true)
    (hbody : '\n' ∉ body) : Skips comments (gap ++ ';' :: body) []

/-- What is skipped behind a gap is skipped with it. -/
theorem Skips.behind (hgap : Spacing comments gap) (h : Skips comments text out) :
    Skips comments (gap ++ text) out := by
  cases h with
  | spacing h =>
    rw [← List.append_assoc]
    exact .spacing (hgap.append h)
  | comment h on hbody =>
    rw [← List.append_assoc]
    exact .comment (hgap.append h) on hbody

/-- A line comment without a line feed takes in the rest of the text. -/
theorem skip_line_eq_nil {body : List Char} (hbody : '\n' ∉ body) :
    skip comments body .line = [] := by
  induction body with
  | nil => rfl
  | cons c body ih =>
    obtain ⟨hc, hbody⟩ := not_or.1 (mt List.mem_cons.2 hbody)
    rw [skip, if_neg (Ne.symm hc), ih hbody]

/-- A line comment that nothing ends is skipped. -/
theorem skip_comment_eq_nil {body : List Char} (on : comments = true) (hbody : '\n' ∉ body) :
    skip comments (';' :: body) .blank = [] := by
  rw [skip, if_neg (by decide), if_pos (by simp [on]), skip_line_eq_nil hbody]
  rintro _ h
  exact absurd h (by decide)

/-- A block that is never closed is left as a whole. -/
theorem skip_block_eq_start {body : List Char} (hbody : ¬ ['|', '#'] <:+: body)
    (start : List Char) : skip comments body (.block start) = start := by
  induction body with
  | nil => rfl
  | cons c body ih =>
    have htail : ¬ ['|', '#'] <:+: body :=
      fun h => hbody (h.trans (List.suffix_cons c body).isInfix)
    rw [skip, ih htail]
    rintro more rfl rfl
    exact hbody ⟨[], more, rfl⟩

/-- A block ends at the first closing sign. -/
theorem exists_block {text : List Char} (h : ['|', '#'] <:+: text) :
    ∃ body rest, text = body ++ '|' :: '#' :: rest ∧ ¬ ['|', '#'] <:+: body := by
  induction text with
  | nil => exact absurd (List.infix_nil.1 h) (List.cons_ne_nil _ _)
  | cons c text ih =>
    by_cases hstart : ['|', '#'] <+: c :: text
    · obtain ⟨rest, hrest⟩ := hstart
      exact ⟨[], rest, hrest.symm,
        fun hnil => absurd (List.infix_nil.1 hnil) (List.cons_ne_nil _ _)⟩
    · obtain ⟨body, rest, rfl, hbody⟩ := ih ((List.infix_cons_iff.1 h).resolve_left hstart)
      refine ⟨c :: body, rest, rfl, fun hinfix => ?_⟩
      rcases List.infix_cons_iff.1 hinfix with hfront | hinfix
      · exact hstart (hfront.trans ⟨'|' :: '#' :: rest, rfl⟩)
      · exact hbody hinfix

/-- **Skipping takes spacing off the front**, and a line comment that nothing ends. -/
theorem skips (comments : Bool) (text : List Char) :
    Skips comments text (skip comments text .blank) := by
  induction hsize : text.length using Nat.strongRecOn generalizing text with
  | _ size ih =>
  subst hsize
  cases text with
  | nil => exact .spacing .nil
  | cons c text =>
    -- Spacing at the front leaves a shorter text to skip in.
    have hbehind : ∀ gap rest : List Char, c :: text = gap ++ rest → Spacing comments gap →
        gap ≠ [] → Skips comments (c :: text) (skip comments (c :: text) .blank) := by
      intro gap rest htext hgap hne
      rw [htext, skip_append hgap]
      refine .behind hgap (ih _ ?_ rest rfl)
      have hpos := List.length_pos_iff.2 hne
      rw [htext, List.length_append]
      omega
    by_cases hblank : isBlank c = true
    · exact hbehind [c] text rfl (.blank hblank .nil) (List.cons_ne_nil _ _)
    by_cases hline : comments = true ∧ c = ';'
    · obtain ⟨on, rfl⟩ := hline
      by_cases hfeed : '\n' ∈ text
      · obtain ⟨body, rest, rfl, hbody⟩ := List.eq_append_cons_of_mem hfeed
        exact hbehind (';' :: (body ++ ['\n'])) rest (by simp)
          (.line on hbody .nil) (List.cons_ne_nil _ _)
      · rw [skip_comment_eq_nil on hfeed]
        exact .comment .nil on hfeed
    by_cases hopen : comments = true ∧ ∃ more, c :: text = '#' :: '|' :: more
    · obtain ⟨on, more, htext⟩ := hopen
      obtain ⟨rfl, rfl⟩ := List.cons.inj htext
      by_cases hclosed : ['|', '#'] <:+: more
      · obtain ⟨body, rest, rfl, hbody⟩ := exists_block hclosed
        exact hbehind ('#' :: '|' :: (body ++ ['|', '#'])) rest (by simp)
          (.block on hbody .nil) (List.cons_ne_nil _ _)
      · have hskip : skip comments ('#' :: '|' :: more) .blank = '#' :: '|' :: more := by
          rw [skip, if_pos on, skip_block_eq_start hclosed]
        rw [hskip]
        exact .spacing .nil
    · have hskip : skip comments (c :: text) .blank = c :: text := by
        by_cases hblock : ∃ more, c :: text = '#' :: '|' :: more
        · obtain ⟨more, htext⟩ := hblock
          have hoff : ¬ comments = true := fun on => hopen ⟨on, more, htext⟩
          rw [htext, skip, if_neg hoff]
        · rw [skip, if_neg hblank, if_neg (by simpa using hline)]
          rintro more rfl rfl
          exact hblock ⟨more, rfl⟩
      rw [hskip]
      exact .spacing .nil

/-- **Only spacing is skipped as a whole**, with a line comment at the end or without. -/
theorem skip_eq_nil_iff : skip comments text .blank = [] ↔ Skips comments text [] := by
  refine ⟨fun h => h ▸ skips comments text, fun h => ?_⟩
  generalize hout : ([] : List Char) = out at h
  cases h with
  | spacing hgap =>
    subst hout
    exact skip_append hgap []
  | comment hgap on hbody => rw [skip_append hgap, skip_comment_eq_nil on hbody]

/-- **Skipping ends at a suffix of the text.** -/
theorem skip_suffix (comments : Bool) (text : List Char) :
    skip comments text .blank <:+ text := by
  generalize skip comments text .blank = out, skips comments text = hskips
  cases hskips with
  | spacing => exact List.suffix_append _ _
  | comment => exact List.nil_suffix

/-- Skipping leaves no more text than there was. -/
theorem length_skip_le (comments : Bool) (text : List Char) :
    (skip comments text .blank).length ≤ text.length := (skip_suffix comments text).length_le

/-- What is skipped before a token is skipped with more text behind it, too. -/
theorem skip_append_of_eq {more : List Char} (hskip : skip comments text .blank = out)
    (hout : skip comments (out ++ more) .blank = out ++ more) (hne : out ≠ []) :
    skip comments (text ++ more) .blank = out ++ more := by
  have hskips := skips comments text
  rw [hskip] at hskips
  cases hskips with
  | spacing hgap => rw [List.append_assoc, skip_append hgap, hout]
  | comment => exact absurd rfl hne

/-- **A text that is skipped as a whole** is skipped in front of a line feed. -/
theorem skip_append_of_eq_nil (hskip : skip comments text .blank = []) (more : List Char) :
    skip comments (text ++ '\n' :: more) .blank = skip comments more .blank := by
  have hskips := skips comments text
  rw [hskip] at hskips
  generalize hout : ([] : List Char) = out at hskips
  cases hskips with
  | spacing hgap =>
    subst hout
    rw [List.append_nil, skip_append hgap, skip_blank rfl]
  | @comment gap body hgap on hbody =>
    have hall : gap ++ ';' :: body ++ '\n' :: more = gap ++ (';' :: (body ++ ['\n']) ++ more) := by
      simp
    rw [hall, skip_append hgap, skip_append (.line on hbody .nil)]

end

/-! ### Tokens -/

section

variable {text rest more : List Char}

/-- The end of a run of characters is where it was, unless the run ends with the text
and goes on with what follows. -/
theorem takeWhile_append_of_head {p : Char → Bool}
    (hmore : text.dropWhile p = [] → ∀ c ∈ more.head?, p c = false) :
    (text ++ more).takeWhile p = text.takeWhile p ∧
      (text ++ more).dropWhile p = text.dropWhile p ++ more := by
  have hrun : ∀ c ∈ text.takeWhile p, p c = true := List.all_eq_true.1 List.all_takeWhile
  have hrest : ∀ c ∈ (text.dropWhile p ++ more).head?, p c = false := by
    have hstop := List.head?_dropWhile_not p text
    cases hdrop : text.dropWhile p with
    | nil => simpa using hmore hdrop
    | cons d tail =>
      rw [hdrop] at hstop
      simpa using hstop
  have hsplit := takeWhile_dropWhile_append hrun hrest
  rwa [← List.append_assoc, List.takeWhile_append_dropWhile] at hsplit

/-- Text put behind a rest changes what ends a token only if nothing was left. -/
theorem endsToken_append (hmore : rest = [] → endsToken more = true) :
    endsToken (rest ++ more) = endsToken rest := by
  cases rest with
  | nil => exact hmore rfl
  | cons c rest => rfl

/-- The sign of a text does not depend on what stands behind the text. -/
theorem signOf_append (hne : text ≠ []) (more : List Char) :
    signOf (text ++ more) = ((signOf text).1, (signOf text).2 ++ more) := by
  cases text with
  | nil => exact absurd rfl hne
  | cons c text =>
    by_cases hsign : c = '+' ∨ c = '-'
    · rcases hsign with rfl | rfl <;> rfl
    · rw [List.cons_append, signOf_cons hsign, signOf_cons hsign]
      rfl

/-- A number is one with more text behind it, and nothing else becomes one. -/
theorem number?_append (hne : text ≠ [])
    (hmore : (signOf text).2.dropWhile Char.isDigit = [] → endsToken more = true) :
    (number? text = none → number? (text ++ more) = none) ∧
      ∀ v rest, number? text = some (.ok (v, rest)) →
        number? (text ++ more) = some (.ok (v, rest ++ more)) := by
  obtain ⟨htake, hdrop⟩ := takeWhile_append_of_head fun h => isDigit_head (hmore h)
  rw [number?_eq text, number?_eq (text ++ more), signOf_append hne]
  simp only [htake, hdrop, endsToken_append hmore]
  split
  · refine ⟨fun _ => rfl, fun v rest h => ?_⟩
    cases h
  · refine ⟨fun h => (Option.some_ne_none _ h).elim, fun v rest h => ?_⟩
    have houtcome := Option.some.inj h
    simp only [numberOutcome] at houtcome ⊢
    split at houtcome
    · obtain ⟨rfl, rfl⟩ := Prod.mk.inj (Except.ok.inj houtcome)
      rfl
    · cases houtcome

/-- An atom is read alike with text behind it that does not go on with it. -/
theorem atom?_append_of_eq {v : Value} (h : atom? text = some (v, rest))
    (hmore : rest = [] → endsToken more = true) :
    atom? (text ++ more) = some (v, rest ++ more) := by
  cases text with
  | nil => cases h
  | cons c text =>
    rw [atom?] at h
    split at h
    · next hc =>
      obtain ⟨rfl, rfl⟩ := Prod.mk.inj (Option.some.inj h)
      obtain ⟨htake, hdrop⟩ := takeWhile_append_of_head fun h => isAtomChar_head (hmore h)
      rw [List.cons_append, atom?, htake, hdrop, if_pos hc]
    · cases h

/-- A keyword is read alike with text behind it that does not go on with it. -/
theorem keyword_append_of_eq {v : Value} (h : keyword text = .ok (v, rest))
    (hmore : rest = [] → endsToken more = true) :
    keyword (text ++ more) = .ok (v, rest ++ more) := by
  simp only [keyword] at h
  split at h
  · cases h
  · next hname =>
    obtain ⟨rfl, rfl⟩ := Prod.mk.inj (Except.ok.inj h)
    obtain ⟨htake, hdrop⟩ := takeWhile_append_of_head fun h => isAtomChar_head (hmore h)
    simp only [keyword, htake, hdrop]
    rw [if_neg hname]

/-- A closed string is read alike whatever stands behind it. -/
theorem stringBody_append {chars : List Char} (h : stringBody text = .ok (chars, rest))
    (more : List Char) : stringBody (text ++ more) = .ok (chars, rest ++ more) := by
  fun_induction stringBody text generalizing chars with
  | case1 | case3 => cases h
  | case2 left =>
    obtain ⟨rfl, rfl⟩ := Prod.mk.inj (Except.ok.inj h)
    rfl
  | case4 c left d hd ih =>
    obtain ⟨tail, left', hbody, h⟩ := Outcome.exists_of_andThen h
    obtain ⟨rfl, rfl⟩ := Prod.mk.inj (Except.ok.inj h)
    rw [List.cons_append, List.cons_append, stringBody, hd]
    simp only [ih hbody]
    rfl
  | case5 => cases h
  | case6 c left hquote hend hescape ih =>
    obtain ⟨tail, left', hbody, h⟩ := Outcome.exists_of_andThen h
    obtain ⟨rfl, rfl⟩ := Prod.mk.inj (Except.ok.inj h)
    have hbackslash : c ≠ '\\' := by
      rintro rfl
      cases left with
      | nil => exact hend rfl rfl
      | cons d left => exact hescape d left rfl rfl
    rw [List.cons_append, stringBody, ih hbody]
    · rfl
    · exact hquote
    · exact fun h _ => hbackslash h
    · exact fun _ _ h _ => hbackslash h

end

/-! ### Forms -/

section

variable {config : Config} {room : Nat} {text rest more : List Char} {v : Value}

/-- What is tried as a number starts as a word does. -/
theorem exists_startsWord_of_number? {outcome : Outcome Value} (h : number? text = some outcome) :
    ∃ c tail, text = c :: tail ∧ startsWord c = true := by
  cases text with
  | nil => cases h
  | cons c tail =>
    refine ⟨c, tail, rfl, ?_⟩
    by_cases hsign : c = '+' ∨ c = '-'
    · rcases hsign with rfl | rfl <;> decide
    · rw [number?_eq, signOf_cons hsign] at h
      cases hdigit : c.isDigit with
      | true => rw [startsWord, hdigit, Bool.or_true]
      | false => simp [hdigit] at h

/-- What is read as an atom starts as a word does. -/
theorem exists_startsWord_of_atom? (h : atom? text = some (v, rest)) :
    ∃ c tail, text = c :: tail ∧ startsWord c = true := by
  cases text with
  | nil => cases h
  | cons c tail =>
    rw [atom?] at h
    split at h
    · next hc => exact ⟨c, tail, rfl, startsWord_of_isAtomStart hc⟩
    · cases h

/-- What is read as a boolean is its text with the end of a token behind it. -/
theorem exists_of_bool? (h : bool? text = some (v, rest)) :
    ∃ b, v = .bool b ∧ text = v.write rest ∧ endsToken rest = true := by
  unfold bool? at h
  split at h
  · split at h <;> cases h
    exact ⟨true, rfl, rfl, ‹_›⟩
  · split at h <;> cases h
    exact ⟨false, rfl, rfl, ‹_›⟩
  · cases h

/-- **A form starts with a token or an opening delimiter.** -/
theorem opens_of_form (h : form config room text = .ok (v, rest)) : Opens text := by
  cases room with
  | zero => cases h
  | succ room =>
    unfold form at h
    split at h
    · exact .intro (by decide)
    · exact .intro (by decide)
    · exact .intro (by decide)
    · exact .intro (by decide)
    · exact .intro (by decide)
    · exact .intro (by decide)
    · split at h
      · next hbool =>
        obtain rfl := Except.ok.inj h
        obtain ⟨b, rfl, rfl, -⟩ := exists_of_bool? hbool
        cases b <;> exact .bool (by decide)
      · split at h
        · next hnumber =>
          obtain ⟨c, tail, rfl, hc⟩ := exists_startsWord_of_number? hnumber
          exact .word hc tail
        · split at h
          · next hatom =>
            obtain ⟨c, tail, rfl, hc⟩ := exists_startsWord_of_atom? hatom
            exact .word hc tail
          · cases h

/-- Elements are not closed by the end of the text. -/
theorem elements_nil_ne_ok {read : List Char → Outcome Value} {close : Char} {bound : Nat}
    (r : List Value × List Char) : elements config read close bound [] ≠ .ok r := by
  intro h
  cases bound <;> cases h

/-- Elements are read in front of any more text if their forms are, since the closing
delimiter ends the last of them. -/
theorem elements_append_of_eq {read : List Char → Outcome Value} {close : Char}
    (hclose : isCloser close = true)
    (hopens : ∀ {text v rest}, read text = .ok (v, rest) → Opens text)
    (hread : ∀ {text v rest}, read text = .ok (v, rest) → (rest = [] → endsToken more = true) →
      read (text ++ more) = .ok (v, rest ++ more))
    {bound bound' : Nat} (hbound : bound ≤ bound') {items : List Value}
    (h : elements config read close bound text = .ok (items, rest)) :
    elements config read close bound' (text ++ more) = .ok (items, rest ++ more) := by
  induction bound generalizing bound' text items with
  | zero => cases h
  | succ bound ih =>
    obtain ⟨bound', rfl⟩ : ∃ less, bound' = less + 1 :=
      Nat.exists_eq_add_one_of_ne_zero (by omega)
    rw [elements] at h
    split at h
    · cases h
    · next c left hskip =>
      split at h
      · next hc =>
        subst hc
        obtain ⟨rfl, rfl⟩ := Prod.mk.inj (Except.ok.inj h)
        rw [elements, skip_append_of_eq hskip (skip_closer hclose _) (List.cons_ne_nil _ _)]
        exact if_pos rfl
      · next hc =>
        obtain ⟨item, left', hitem, h⟩ := Outcome.exists_of_andThen h
        obtain ⟨items', left'', hitems, h⟩ := Outcome.exists_of_andThen h
        obtain ⟨rfl, rfl⟩ := Prod.mk.inj (Except.ok.inj h)
        have hstart := hopens hitem
        -- The item cannot have ended with the text: the closing delimiter was still to come.
        have hends : left' = [] → endsToken more = true := by
          rintro rfl
          exact absurd hitems (elements_nil_ne_ok _)
        rw [elements, skip_append_of_eq hskip (hstart.append _).skip_eq (List.cons_ne_nil _ _)]
        simp only [List.cons_append, if_neg hc]
        rw [← List.cons_append, hread hitem hends]
        simp only [Outcome.andThen, ih (Nat.le_of_succ_le_succ hbound) hitems]

/-- A number ends behind its digits. -/
theorem eq_dropWhile_of_number? (h : number? text = some (.ok (v, rest))) :
    rest = (signOf text).2.dropWhile Char.isDigit := by
  rw [number?_eq] at h
  dsimp only at h
  split at h
  · cases h
  · exact (eq_of_numberOutcome_eq_ok (Option.some.inj h)).1

/-- Where a sign and digits go on up to the end of a text, so does an atom. -/
theorem eq_nil_of_atom? (h : atom? text = some (v, rest))
    (hdigits : (signOf text).2.dropWhile Char.isDigit = []) : rest = [] := by
  cases text with
  | nil => cases h
  | cons c text =>
    have htext : ∀ d ∈ text, isAtomChar d = true := fun d hd => by
      refine isAtomChar_of_isDigit (List.dropWhile_eq_nil_iff.1 hdigits d ?_)
      by_cases hsign : c = '+' ∨ c = '-'
      · rcases hsign with rfl | rfl <;> exact hd
      · rw [signOf_cons hsign]
        exact List.mem_cons_of_mem _ hd
    rw [atom?] at h
    split at h
    · obtain ⟨-, rfl⟩ := Prod.mk.inj (Option.some.inj h)
      exact List.dropWhile_eq_nil_iff.2 htext
    · cases h

/-- A word is read in front of more text that does not go on with it. -/
theorem form_word_append_of_eq {c : Char} (hc : startsWord c = true)
    (h : form config (room + 1) (c :: text) = .ok (v, rest))
    (hmore : rest = [] → endsToken more = true) :
    form config (room + 1) (c :: text ++ more) = .ok (v, rest ++ more) := by
  rw [form_word hc] at h
  rw [List.cons_append, form_word hc, ← List.cons_append]
  split at h
  · next hnumber =>
    rw [h] at hnumber
    obtain ⟨-, hsome⟩ := number?_append (List.cons_ne_nil c text) fun hdigits =>
      hmore ((eq_dropWhile_of_number? hnumber).trans hdigits)
    rw [hsome v rest hnumber]
  · next hnumber =>
    split at h
    · next hatom =>
      obtain rfl := Except.ok.inj h
      obtain ⟨hnone, -⟩ := number?_append (List.cons_ne_nil c text) fun hdigits =>
        hmore (eq_nil_of_atom? hatom hdigits)
      rw [hnone hnumber, atom?_append_of_eq hatom hmore]
    · cases h

/-- A boolean is read alike with text behind it that does not go on with it. -/
theorem form_bool_append {b : Bool} (hrest : endsToken rest = true)
    (hmore : rest = [] → endsToken more = true) :
    form config (room + 1) ((Value.bool b).write rest ++ more) = .ok (.bool b, rest ++ more) := by
  have hwrite : (Value.bool b).write rest ++ more = (Value.bool b).write (rest ++ more) := by
    cases b <;> rfl
  rw [hwrite, form_bool b _ ((endsToken_append hmore).trans hrest)]

/-- **A form is read in front of more text**, unless it ends with the text and what
follows goes on with its last token. -/
theorem form_append_of_eq (h : form config room text = .ok (v, rest))
    (hmore : rest = [] → endsToken more = true) :
    form config room (text ++ more) = .ok (v, rest ++ more) := by
  induction room generalizing text v rest with
  | zero => cases h
  | succ room ih =>
    -- Kept as it is for the words: what they are is decided by the whole run of characters.
    have hform := h
    have helements : ∀ {c close : Char} {left left' : List Char} {items : List Value},
        isCloser close = true →
        elements config (form config room) close (c :: left).length left = .ok (items, left') →
        elements config (form config room) close (c :: (left ++ more)).length (left ++ more) =
          .ok (items, left' ++ more) := fun hclose hitems =>
      elements_append_of_eq hclose opens_of_form ih (by simp) hitems
    unfold form at h
    split at h
    · obtain ⟨quoted, left, hquoted, h⟩ := Outcome.exists_of_andThen h
      cases h
      have hstart := opens_of_form hquoted
      have hne : ∀ {text}, Opens text → text ≠ [] := by rintro _ h rfl; cases h
      rw [List.cons_append, form_quote, skip_append_of_eq rfl (hstart.append more).skip_eq
        (hne hstart), ih hquoted hmore]
      rfl
    · obtain ⟨items, left, hitems, h⟩ := Outcome.exists_of_andThen h
      cases h
      rw [List.cons_append, form_list, helements rfl hitems]
      rfl
    · obtain ⟨items, left, hitems, h⟩ := Outcome.exists_of_andThen h
      cases h
      rw [List.cons_append, form_vector, helements rfl hitems]
      rfl
    · obtain ⟨items, left, hitems, h⟩ := Outcome.exists_of_andThen h
      rw [List.cons_append, form_dict, helements rfl hitems]
      simp only [Outcome.andThen]
      split at h
      · next heven =>
        cases h
        rw [if_pos heven]
      · cases h
    · obtain ⟨chars, left, hchars, h⟩ := Outcome.exists_of_andThen h
      cases h
      rw [List.cons_append, form_string, stringBody_append hchars]
      rfl
    · rw [List.cons_append, form_keyword, keyword_append_of_eq h hmore]
    · split at h
      · next hbool =>
        obtain rfl := Except.ok.inj h
        obtain ⟨b, rfl, rfl, hrest⟩ := exists_of_bool? hbool
        exact form_bool_append hrest hmore
      · split at h
        · next hnumber =>
          obtain ⟨c, tail, rfl, hc⟩ := exists_startsWord_of_number? hnumber
          exact form_word_append_of_eq hc hform hmore
        · split at h
          · next hatom =>
            obtain ⟨c, tail, rfl, hc⟩ := exists_startsWord_of_atom? hatom
            exact form_word_append_of_eq hc hform hmore
          · cases h

/-! ### Progress -/

/-- Dropping a run leaves no more text than there was. -/
theorem length_dropWhile_le (p : Char → Bool) (text : List Char) :
    (text.dropWhile p).length ≤ text.length :=
  (List.dropWhile_sublist p).length_le

/-- A string takes in at least its closing quote. -/
theorem length_lt_of_stringBody {chars : List Char} (h : stringBody text = .ok (chars, rest)) :
    rest.length < text.length := by
  fun_induction stringBody text generalizing chars with
  | case1 | case3 | case5 => cases h
  | case2 left =>
    obtain ⟨rfl, rfl⟩ := Prod.mk.inj (Except.ok.inj h)
    exact Nat.lt_succ_self _
  | case4 c left d hd ih =>
    obtain ⟨tail, left', hbody, h⟩ := Outcome.exists_of_andThen h
    obtain ⟨rfl, rfl⟩ := Prod.mk.inj (Except.ok.inj h)
    exact (ih hbody).trans (Nat.lt_succ_of_lt (Nat.lt_succ_self _))
  | case6 c left _ _ _ ih =>
    obtain ⟨tail, left', hbody, h⟩ := Outcome.exists_of_andThen h
    obtain ⟨rfl, rfl⟩ := Prod.mk.inj (Except.ok.inj h)
    exact (ih hbody).trans (Nat.lt_succ_self _)

/-- A keyword leaves no more text than there was. -/
theorem length_le_of_keyword (h : keyword text = .ok (v, rest)) : rest.length ≤ text.length := by
  simp only [keyword] at h
  split at h
  · cases h
  · obtain ⟨-, rfl⟩ := Prod.mk.inj (Except.ok.inj h)
    exact length_dropWhile_le _ text

/-- A number takes in at least one character. -/
theorem length_lt_of_number? (h : number? text = some (.ok (v, rest))) :
    rest.length < text.length := by
  rw [number?_eq] at h
  dsimp only at h
  split at h
  · cases h
  · next hdigits =>
    obtain ⟨rfl, -⟩ := eq_of_numberOutcome_eq_ok (Option.some.inj h)
    have hbody : (signOf text).2.length ≤ text.length := by
      unfold signOf
      split <;> simp
    have hsplit := congrArg List.length
      (List.takeWhile_append_dropWhile (p := Char.isDigit) (l := (signOf text).2))
    have hpos : 0 < ((signOf text).2.takeWhile Char.isDigit).length := by
      rw [List.length_pos_iff]
      rintro hnil
      simp [hnil] at hdigits
    rw [List.length_append] at hsplit
    omega

/-- An atom takes in at least one character. -/
theorem length_lt_of_atom? (h : atom? text = some (v, rest)) : rest.length < text.length := by
  cases text with
  | nil => cases h
  | cons c text =>
    rw [atom?] at h
    split at h
    · obtain ⟨-, rfl⟩ := Prod.mk.inj (Option.some.inj h)
      exact Nat.lt_succ_of_le (length_dropWhile_le _ text)
    · cases h

/-- Elements end behind where they started, at a closing delimiter. -/
theorem length_lt_of_elements {read : List Char → Outcome Value} {close : Char}
    (hread : ∀ {text v rest}, read text = .ok (v, rest) → rest.length < text.length)
    {bound : Nat} {items : List Value}
    (h : elements config read close bound text = .ok (items, rest)) :
    rest.length < text.length := by
  induction bound generalizing text items with
  | zero => cases h
  | succ bound ih =>
    have hskip := length_skip_le config.comments text
    rw [elements] at h
    split at h
    · cases h
    · next c left heq =>
      rw [heq] at hskip
      split at h
      · obtain ⟨-, rfl⟩ := Prod.mk.inj (Except.ok.inj h)
        exact Nat.lt_of_succ_le hskip
      · obtain ⟨item, left', hitem, h⟩ := Outcome.exists_of_andThen h
        obtain ⟨items', left'', hitems, h⟩ := Outcome.exists_of_andThen h
        obtain ⟨-, rfl⟩ := Prod.mk.inj (Except.ok.inj h)
        exact (ih hitems).trans ((hread hitem).trans_le hskip)

/-- **Reading a form takes characters off the text.** -/
theorem length_lt_of_form (h : form config room text = .ok (v, rest)) :
    rest.length < text.length := by
  induction room generalizing text v rest with
  | zero => cases h
  | succ room ih =>
    unfold form at h
    split at h
    · obtain ⟨quoted, left, hquoted, h⟩ := Outcome.exists_of_andThen h
      cases h
      exact (ih hquoted).trans_le ((length_skip_le _ _).trans (Nat.le_succ _))
    · obtain ⟨items, left, hitems, h⟩ := Outcome.exists_of_andThen h
      cases h
      exact (length_lt_of_elements ih hitems).trans (Nat.lt_succ_self _)
    · obtain ⟨items, left, hitems, h⟩ := Outcome.exists_of_andThen h
      cases h
      exact (length_lt_of_elements ih hitems).trans (Nat.lt_succ_self _)
    · obtain ⟨items, left, hitems, h⟩ := Outcome.exists_of_andThen h
      split at h <;> cases h
      exact (length_lt_of_elements ih hitems).trans (Nat.lt_succ_self _)
    · obtain ⟨chars, left, hchars, h⟩ := Outcome.exists_of_andThen h
      cases h
      exact (length_lt_of_stringBody hchars).trans (Nat.lt_succ_self _)
    · exact Nat.lt_succ_of_le (length_le_of_keyword h)
    · split at h
      · next hbool =>
        obtain rfl := Except.ok.inj h
        obtain ⟨b, rfl, rfl, -⟩ := exists_of_bool? hbool
        have hlength : ((Value.bool b).write rest).length = rest.length + 2 := by cases b <;> rfl
        omega
      · split at h
        · next hnumber =>
          rw [h] at hnumber
          exact length_lt_of_number? hnumber
        · split at h
          · next hatom =>
            obtain rfl := Except.ok.inj h
            exact length_lt_of_atom? hatom
          · cases h

end

/-! ### Programs -/

section

variable {config : Config} {text : List Char}

/-- Forms depend on what is left after the spacing. -/
theorem forms_congr {bound : Nat} {text' : List Char}
    (h : skip config.comments text .blank = skip config.comments text' .blank) :
    forms config (bound + 1) text = forms config (bound + 1) text' := by
  rw [forms, forms, h]

/-- **A bound above the length of the text bounds nothing.** -/
theorem forms_eq_of_length_lt {bound bound' : Nat} (h : text.length < bound)
    (h' : text.length < bound') : forms config bound text = forms config bound' text := by
  induction bound generalizing bound' text with
  | zero => exact absurd h (Nat.not_lt_zero _)
  | succ bound ih =>
    obtain ⟨bound', rfl⟩ : ∃ less, bound' = less + 1 :=
      Nat.exists_eq_add_one_of_ne_zero (by omega)
    have hskip := length_skip_le config.comments text
    rw [forms, forms]
    split
    · rfl
    · split
      · rfl
      · next hform =>
        have hrest := length_lt_of_form hform
        exact congrArg _ (ih (by omega) (by omega))

/-- **The forms of two texts follow each other.**  Whatever the second text reads as
or fails with, it does so behind the first one and a line feed. -/
theorem forms_append {bound : Nat} {xs : List Value} (ha : forms config bound text = .ok xs)
    (more : List Char) {all last : Nat} (hall : (text ++ '\n' :: more).length < all)
    (hlast : more.length < last) :
    forms config all (text ++ '\n' :: more) = (forms config last more).map (xs ++ ·) := by
  induction bound generalizing text xs all with
  | zero => cases ha
  | succ bound ih =>
    obtain ⟨all, rfl⟩ : ∃ less, all = less + 1 := Nat.exists_eq_add_one_of_ne_zero (by omega)
    rw [forms] at ha
    split at ha
    -- The first text is used up: the line feed ends a comment that may still be open.
    · next hskip =>
      obtain rfl := Except.ok.inj ha
      have hmore : more.length < all + 1 := by
        rw [List.length_append, List.length_cons] at hall
        omega
      rw [forms_congr (skip_append_of_eq_nil hskip more), forms_eq_of_length_lt hmore hlast]
      cases forms config last more <;> rfl
    -- A form is read in front of the rest as well, since the line feed ends its last token.
    · next hne =>
      split at ha
      · cases ha
      · next v rest hform =>
        obtain ⟨items, hitems, rfl⟩ := exists_of_map_eq_ok ha
        obtain ⟨c, left, hstart⟩ := List.exists_cons_of_ne_nil hne
        rw [hstart] at hform
        have hopens := opens_of_form hform
        have hlength := length_lt_of_form hform
        have hskipLength := length_skip_le config.comments text
        rw [hstart] at hskipLength
        have hrest : (rest ++ '\n' :: more).length < all := by
          simp only [List.length_append, List.length_cons] at *
          omega
        rw [forms, skip_append_of_eq hstart (hopens.append _).skip_eq (List.cons_ne_nil _ _),
          List.cons_append]
        simp only
        rw [← List.cons_append, form_append_of_eq hform fun _ => rfl]
        simp only [ih hitems hrest]
        cases forms config last more <;> rfl

/-- **Programs put behind each other** read as the forms of the first and those of the
second, or fail with the error of the second. -/
theorem parseProgram_append {xs : List Value} (ha : parseProgram config text = .ok xs)
    (more : List Char) :
    parseProgram config (text ++ '\n' :: more) = (parseProgram config more).map (xs ++ ·) := by
  rw [parseProgram] at ha
  rw [parseProgram, parseProgram, forms_append (eq_ok_of_mapError_eq_ok ha) more
    (Nat.lt_succ_self _) (Nat.lt_succ_self more.length)]
  cases forms config (more.length + 1) more <;> rfl

end

end Reader

/-- **The forms of a text and of another one behind a line feed.** -/
theorem readProgramWith_append {config : Reader.Config} {a : String} {xs : List Value}
    (ha : readProgramWith config a = .ok xs) (b : String) :
    readProgramWith config (a ++ "\n" ++ b) = (readProgramWith config b).map (xs ++ ·) := by
  have hparse : Reader.parseProgram config a.toList = .ok xs :=
    eq_ok_of_mapError_eq_ok ha
  have htext : (a ++ "\n" ++ b).toList = a.toList ++ '\n' :: b.toList := by
    simp [String.toList_append]
  rw [readProgramWith, readProgramWith, htext, Reader.parseProgram_append hparse]
  cases Reader.parseProgram config b.toList <;> rfl

end CapLisp
