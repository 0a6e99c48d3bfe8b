/-
# Stricter options only reject

The reader has two options, and neither makes it read a text as something else.

| stricter option | outcome |
| --- | --- |
| fewer levels of nesting | the same, or a refusal since the text nests too deep (`Stricter`) |
| no comments | if it succeeds, the same as with comments |

Running out of levels is final.  No alternative of a form, no quote sign and no
delimiter goes on after it, so it passes through every step of the reader
(`Stricter.andThen`), and all that is left to compare are two readers that have not run
out (`stricter_form`).

Without comments a form starts where a token or a delimiter does, and nothing is skipped
there with comments either; what was skipped before are blanks, and these are skipped
either way.  So the two readers stop and go on at the same places
(`form_of_comments_off`).
-/

import CapLisp.Proofs.Reader.Program

namespace CapLisp
namespace Reader

/-! ### Fewer levels -/

/-- Tells that a reader ends as a more lenient one does, or else runs out of levels. -/
inductive Stricter {α : Type} : Except Stop α → Except Stop α → Prop
  | same (r : Except Stop α) : Stricter r r
  | tooDeep (rest : List Char) (r : Except Stop α) : Stricter (.error ⟨.tooDeep, rest⟩) r

/-- Running out of levels is final. -/
theorem Stricter.andThen {α β : Type} {strict lenient : Outcome α}
    {next next' : α → List Char → Outcome β} (h : Stricter strict lenient)
    (hnext : ∀ a rest, Stricter (next a rest) (next' a rest)) :
    Stricter (strict.andThen next) (lenient.andThen next') := by
  cases h with
  | same =>
    rcases strict with stop | ⟨a, rest⟩
    · exact .same _
    · exact hnext a rest
  | tooDeep rest => exact .tooDeep rest _

/-- A change of results keeps one outcome stricter than the other. -/
theorem Stricter.map {α β : Type} {strict lenient : Except Stop α} (h : Stricter strict lenient)
    (f : α → β) : Stricter (strict.map f) (lenient.map f) := by
  cases h with
  | same => exact .same _
  | tooDeep rest => exact .tooDeep rest _

section

variable {comments : Bool} {d d' : Nat}

/-- Elements are read more strictly if each of them is. -/
theorem stricter_elements {read read' : List Char → Outcome Value}
    (hread : ∀ text, Stricter (read text) (read' text)) (close : Char) (bound : Nat)
    (text : List Char) :
    Stricter (elements ⟨comments, d⟩ read close bound text)
      (elements ⟨comments, d'⟩ read' close bound text) := by
  induction bound generalizing text with
  | zero => exact .same _
  | succ bound ih =>
    rw [elements, elements]
    dsimp only
    split
    · exact .same _
    · split
      · exact .same _
      · exact (hread _).andThen fun item rest => (ih rest).andThen fun items rest => .same _

/-- **With fewer levels** a form is read as with more, or they run out. -/
theorem stricter_form {room room' : Nat} (h : room ≤ room') (text : List Char) :
    Stricter (form ⟨comments, d⟩ room text) (form ⟨comments, d'⟩ room' text) := by
  induction room generalizing room' text with
  | zero => exact .tooDeep text _
  | succ room ih =>
    obtain ⟨room', rfl⟩ : ∃ less, room' = less + 1 := Nat.exists_eq_add_one_of_ne_zero (by omega)
    have hroom : room ≤ room' := Nat.le_of_succ_le_succ h
    have helements : ∀ (close : Char) (bound : Nat) (text : List Char),
        Stricter (elements ⟨comments, d⟩ (form ⟨comments, d⟩ room) close bound text)
          (elements ⟨comments, d'⟩ (form ⟨comments, d'⟩ room') close bound text) :=
      stricter_elements (ih hroom)
    unfold form
    split
    · exact (ih hroom _).andThen fun quoted rest => .same _
    · exact (helements _ _ _).andThen fun items rest => .same _
    · exact (helements _ _ _).andThen fun items rest => .same _
    · exact (helements _ _ _).andThen fun items rest => .same _
    -- A token takes one level whatever it is.
    · exact .same _
    · exact .same _
    · exact .same _

/-- A lower bound on the nesting reads forms more strictly. -/
theorem stricter_forms (h : d ≤ d') (bound : Nat) (text : List Char) :
    Stricter (forms ⟨comments, d⟩ bound text) (forms ⟨comments, d'⟩ bound text) := by
  induction bound generalizing text with
  | zero => exact .same _
  | succ bound ih =>
    rw [forms, forms]
    dsimp only
    split
    · exact .same _
    · have hform : Stricter (form ⟨comments, d⟩ d (skip comments text .blank))
          (form ⟨comments, d'⟩ d' (skip comments text .blank)) := stricter_form h _
      generalize form ⟨comments, d⟩ d _ = strict, form ⟨comments, d'⟩ d' _ = lenient at hform ⊢
      cases hform with
      | same =>
        rcases strict with stop | ⟨v, rest⟩
        · exact .same _
        · exact (ih rest).map _
      | tooDeep rest => exact .tooDeep rest _

end

/-! ### No comments -/

section

variable {comments : Bool} {d : Nat} {text rest out : List Char} {v : Value} {items : List Value}

/-- Blanks are spacing under every option. -/
theorem Spacing.of_comments_off {gap : List Char} (comments : Bool) (h : Spacing false gap) :
    Spacing comments gap := by
  induction h with
  | nil => exact .nil
  | blank hc _ ih => exact .blank hc ih
  | line on | block on => cases on

/-- What is skipped without comments is skipped with them, up to a place where nothing
more is skipped. -/
theorem skip_of_comments_off (hskip : skip false text .blank = out)
    (hout : skip comments out .blank = out) : skip comments text .blank = out := by
  have hskips := skips false text
  rw [hskip] at hskips
  cases hskips with
  | spacing hgap => rw [skip_append (hgap.of_comments_off comments), hout]
  | comment _ on => cases on

/-- Elements read without comments are read alike with them. -/
theorem elements_of_comments_off {read read' : List Char → Outcome Value} {close : Char}
    (hclose : isCloser close = true)
    (hopens : ∀ {text v rest}, read text = .ok (v, rest) → Opens text)
    (hread : ∀ {text v rest}, read text = .ok (v, rest) → read' text = .ok (v, rest))
    {bound : Nat} (h : elements ⟨false, d⟩ read close bound text = .ok (items, rest)) :
    elements ⟨comments, d⟩ read' close bound text = .ok (items, rest) := by
  induction bound generalizing text items with
  | zero => cases h
  | succ bound ih =>
    rw [elements] at h ⊢
    split at h
    · cases h
    · next c left hskip =>
      split at h
      · next hc =>
        subst hc
        have hstop : skip comments (c :: left) .blank = c :: left :=
          @skip_closer ⟨comments, d⟩ c hclose left
        rw [skip_of_comments_off hskip hstop]
        exact (if_pos rfl).trans h
      · next hc =>
        obtain ⟨item, left', hitem, h⟩ := Outcome.exists_of_andThen h
        obtain ⟨items', left'', hitems, h⟩ := Outcome.exists_of_andThen h
        obtain ⟨rfl, rfl⟩ := Prod.mk.inj (Except.ok.inj h)
        rw [skip_of_comments_off hskip (hopens hitem).skip_eq]
        simp only [if_neg hc, hread hitem, Outcome.andThen, ih hitems]

/-- **A form that is read without comments** is read with them. -/
theorem form_of_comments_off {room : Nat} (h : form ⟨false, d⟩ room text = .ok (v, rest)) :
    form ⟨comments, d⟩ room text = .ok (v, rest) := by
  induction room generalizing text v rest with
  | zero => cases h
  | succ room ih =>
    have helements : ∀ {close : Char} {bound : Nat} {left left' : List Char} {items : List Value},
        isCloser close = true →
        elements ⟨false, d⟩ (form ⟨false, d⟩ room) close bound left = .ok (items, left') →
        elements ⟨comments, d⟩ (form ⟨comments, d⟩ room) close bound left = .ok (items, left') :=
      fun hclose => elements_of_comments_off hclose opens_of_form ih
    revert h
    unfold form
    split
    · intro h
      obtain ⟨quoted, left, hquoted, h⟩ := Outcome.exists_of_andThen h
      rw [skip_of_comments_off rfl (opens_of_form hquoted).skip_eq, ih hquoted]
      exact h
    · intro h
      obtain ⟨items, left, hitems, h⟩ := Outcome.exists_of_andThen h
      rw [helements rfl hitems]
      exact h
    · intro h
      obtain ⟨items, left, hitems, h⟩ := Outcome.exists_of_andThen h
      rw [helements rfl hitems]
      exact h
    · intro h
      obtain ⟨items, left, hitems, h⟩ := Outcome.exists_of_andThen h
      rw [helements rfl hitems]
      exact h
    -- There is no spacing inside a token.
    · exact id
    · exact id
    · exact id

/-- A form stands at the same place with comments as without. -/
theorem form_skip_of_comments_off {room : Nat}
    (h : form ⟨false, d⟩ room (skip false text .blank) = .ok (v, rest)) :
    form ⟨comments, d⟩ room (skip comments text .blank) = .ok (v, rest) := by
  rw [skip_of_comments_off rfl (opens_of_form h).skip_eq]
  exact form_of_comments_off h

/-- A text parsed without comments is parsed alike with them. -/
theorem parse_of_comments_off (h : parse ⟨false, d⟩ text = .ok v) :
    parse ⟨comments, d⟩ text = .ok v := by
  obtain ⟨rest, hform, hrest⟩ := parse_eq_ok_iff.1 h
  exact parse_eq_ok_iff.2
    ⟨rest, form_skip_of_comments_off hform, skip_of_comments_off hrest rfl⟩

/-- Forms read without comments are read alike with them. -/
theorem forms_of_comments_off {bound : Nat} (h : forms ⟨false, d⟩ bound text = .ok items) :
    forms ⟨comments, d⟩ bound text = .ok items := by
  obtain ⟨bound, rfl⟩ : ∃ less, bound = less + 1 :=
    Nat.exists_eq_add_one_of_ne_zero fun hbound => by
    subst hbound
    cases h
  induction items generalizing bound text with
  | nil => exact forms_eq_nil_iff.2 (skip_of_comments_off (forms_eq_nil_iff.1 h) rfl)
  | cons v items ih =>
    obtain ⟨rest, hform, hrest⟩ := forms_eq_cons_iff.1 h
    refine forms_eq_cons_iff.2 ⟨rest, form_skip_of_comments_off hform, ?_⟩
    cases bound with
    | zero => cases hrest
    | succ bound => exact ih _ hrest

end

end Reader

/-- Tells that a text was refused since it nests too deep. -/
def IsTooDeep {α : Type} (r : Except Error α) : Prop :=
  ∃ e : ReadError, r = .error (.read e) ∧ e.kind = .tooDeeplyNested

section

variable {comments : Bool} {d d' : Nat}

/-- A stop for the nesting is one for the nesting whatever is left. -/
theorem isTooDeep_of_stop {α : Type} (rest : List Char) :
    IsTooDeep (α := α) (.error (.read (Reader.Stop.error ⟨.tooDeep, rest⟩))) :=
  ⟨_, rfl, rfl⟩

/-- A text is read with fewer levels as with more, or it is refused. -/
theorem readWith_eq_or_isTooDeep (h : d ≤ d') (source : String) :
    readWith ⟨comments, d⟩ source = readWith ⟨comments, d'⟩ source ∨
      IsTooDeep (readWith ⟨comments, d⟩ source) := by
  rw [readWith, readWith, Reader.parse, Reader.parse]
  dsimp only
  split
  · exact .inl rfl
  · have hform : Reader.Stricter
        (Reader.form ⟨comments, d⟩ d (Reader.skip comments source.toList .blank))
        (Reader.form ⟨comments, d'⟩ d' (Reader.skip comments source.toList .blank)) :=
      Reader.stricter_form h _
    generalize Reader.form ⟨comments, d⟩ d _ = strict,
      Reader.form ⟨comments, d'⟩ d' _ = lenient at hform ⊢
    cases hform with
    | same => exact .inl rfl
    | tooDeep rest => exact .inr (isTooDeep_of_stop rest)

/-- A sequence of forms is read with fewer levels as with more, or it is refused. -/
theorem readProgramWith_eq_or_isTooDeep (h : d ≤ d') (source : String) :
    readProgramWith ⟨comments, d⟩ source = readProgramWith ⟨comments, d'⟩ source ∨
      IsTooDeep (readProgramWith ⟨comments, d⟩ source) := by
  have hforms : Reader.Stricter
      (Reader.forms ⟨comments, d⟩ (source.toList.length + 1) source.toList)
      (Reader.forms ⟨comments, d'⟩ (source.toList.length + 1) source.toList) :=
    Reader.stricter_forms h _ _
  rw [readProgramWith, readProgramWith, Reader.parseProgram, Reader.parseProgram]
  generalize Reader.forms ⟨comments, d⟩ _ _ = strict,
    Reader.forms ⟨comments, d'⟩ _ _ = lenient at hforms ⊢
  cases hforms with
  | same => exact .inl rfl
  | tooDeep rest => exact .inr (isTooDeep_of_stop rest)

end

/-- **Stricter options only reject.**  With fewer levels of nesting a text, read as one
form or as a sequence of forms, ends as it does with more levels, well or not, or else
it is refused since it nests too deep; and what is read nests no deeper than allowed.
What is read without comments is read with them as the same forms. -/
theorem stricter_options_only_reject {d d' : Nat} (h : d ≤ d') (source : String) :
    (∀ comments,
      (readWith ⟨comments, d⟩ source = readWith ⟨comments, d'⟩ source ∨
        IsTooDeep (readWith ⟨comments, d⟩ source)) ∧
      (readProgramWith ⟨comments, d⟩ source = readProgramWith ⟨comments, d'⟩ source ∨
        IsTooDeep (readProgramWith ⟨comments, d⟩ source)) ∧
      (∀ v, readWith ⟨comments, d⟩ source = .ok v → v.nesting ≤ d) ∧
      ∀ xs, readProgramWith ⟨comments, d⟩ source = .ok xs → ∀ v ∈ xs, v.nesting ≤ d) ∧
    (∀ v, readWith ⟨false, d⟩ source = .ok v → readWith ⟨true, d⟩ source = .ok v) ∧
    ∀ xs, readProgramWith ⟨false, d⟩ source = .ok xs →
      readProgramWith ⟨true, d⟩ source = .ok xs := by
  refine ⟨fun comments => ⟨readWith_eq_or_isTooDeep h source,
    readProgramWith_eq_or_isTooDeep h source, fun v hv => (spelled_readWith hv).nesting_le,
    fun xs hxs v hv => (spelled_readProgramWith hxs v hv).nesting_le⟩, fun v hv => ?_,
    fun xs hxs => ?_⟩
  · rw [readWith, mapError_eq_ok_iff] at hv ⊢
    exact Reader.parse_of_comments_off hv
  · rw [readProgramWith, mapError_eq_ok_iff, Reader.parseProgram, mapError_eq_ok_iff] at hxs ⊢
    exact Reader.forms_of_comments_off hxs

/-- A quoted list takes three levels.  It is read without comments, though it holds the
signs of comments in a string, and refused with two levels. -/
theorem stricter_options_only_reject_quoted :
    let v := Value.quoted (.list [.atom "a", .string ";#|", .bool true])
    2 ≤ 3 ∧ 3 ≤ 64 ∧ readWith ⟨false, 3⟩ "'(a \";#|\" #t)" = .ok v ∧ v.nesting ≤ 3 ∧
      readWith ⟨true, 3⟩ "'(a \";#|\" #t)" = .ok v ∧
      readWith ⟨true, 64⟩ "'(a \";#|\" #t)" = .ok v ∧
      readProgramWith ⟨true, 3⟩ "'(a \";#|\" #t)" = .ok [v] ∧
      IsTooDeep (readWith ⟨true, 2⟩ "'(a \";#|\" #t)") := by
  have hread : readWith ⟨false, 3⟩ "'(a \";#|\" #t)" =
      .ok (.quoted (.list [.atom "a", .string ";#|", .bool true])) := rfl
  have hprogram : readProgramWith ⟨false, 3⟩ "'(a \";#|\" #t)" =
      .ok [.quoted (.list [.atom "a", .string ";#|", .bool true])] := rfl
  obtain ⟨hlevels, hone, hmany⟩ :=
    stricter_options_only_reject (by decide : 3 ≤ 64) "'(a \";#|\" #t)"
  obtain ⟨-, -, hnesting, -⟩ := hlevels false
  obtain ⟨hmore, -⟩ := hlevels true
  have hon := hone _ hread
  have hdeep : ¬ IsTooDeep (readWith ⟨true, 3⟩ "'(a \";#|\" #t)") := by
    rintro ⟨e, he, -⟩
    rw [hon] at he
    cases he
  obtain ⟨hfewer, -⟩ :=
    (stricter_options_only_reject (by decide : 2 ≤ 3) "'(a \";#|\" #t)").1 true
  have hne : readWith ⟨true, 2⟩ "'(a \";#|\" #t)" ≠ readWith ⟨true, 3⟩ "'(a \";#|\" #t)" := by
    have hfails : (readWith ⟨true, 2⟩ "'(a \";#|\" #t)").isOk = false := rfl
    intro h
    rw [h, hon] at hfails
    cases hfails
  exact ⟨by decide, by decide, hread, hnesting _ hread, hon,
    (hmore.resolve_right hdeep).symm.trans hon, hmany _ hprogram, hfewer.resolve_left hne⟩

end CapLisp
