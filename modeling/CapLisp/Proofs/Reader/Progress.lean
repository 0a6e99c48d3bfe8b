/-
# The reader moves forward

Whatever the reader reads or refuses, it ends at a suffix of the text that it was given
(`form_rest_suffix`), and behind a form it is nearer to the end (`length_lt_of_form`).

| loop | ends since |
| --- | --- |
| over blanks and comments, over the characters of a string | each turn takes characters off |
| over the elements of a list, a vector or a dict (`elementLoop`) | each form is not empty |
| over the forms of a program (`formLoop`) | each form is not empty |

The last two loops are bounded in their definitions.  `ElementLoop` and `FormLoop` are
the same loops without a bound, and the bounds that the reader chooses are never reached.

An error shows the text from the place where reading stopped.  The place is a byte offset,
the length of the text less the length of what was left there, so it points at what was
left only because that is a suffix (`Stop.pointsAt`).
-/

import CapLisp.Proofs.Reader.Completion

namespace CapLisp

namespace ReadError

/-- Behind as many bytes as a text has stands what was put behind it. -/
theorem afterBytes_append (front rest : List Char) :
    afterBytes (String.ofList front).utf8ByteSize (front ++ rest) = rest := by
  induction front with
  | nil => cases rest <;> rfl
  | cons c front ih =>
    have hpos := c.utf8Size_pos
    rw [String.ofList_cons, String.utf8ByteSize_append, String.utf8ByteSize_singleton,
      List.cons_append, afterBytes, if_neg (by omega), if_pos (by omega), Nat.add_sub_cancel_left,
      ih]

/-- Tells that an error reports the place of `text` where `rest` is left: its context is
the start of `rest`, and just what stands at the offset that is computed from the lengths.
It reports an incomplete text exactly if nothing is left, unless the text nests too deep. -/
structure PointsAt (e : ReadError) (text rest : List Char) : Prop where
  suffix : rest <:+ text
  context : e.context = some (contextOf rest)
  offset : e.withContext (String.ofList text)
    ((String.ofList text).utf8ByteSize - (String.ofList rest).utf8ByteSize) = e
  incomplete_iff : e.kind ≠ .tooDeeplyNested → (e.kind = .incomplete ↔ rest = [])

/-- The context at the position of a suffix is the one of the suffix. -/
theorem withContext_of_suffix {e : ReadError} {text rest : List Char} (hrest : rest <:+ text)
    (hcontext : e.context = some (contextOf rest)) :
    e.withContext (String.ofList text)
      ((String.ofList text).utf8ByteSize - (String.ofList rest).utf8ByteSize) = e := by
  obtain ⟨front, rfl⟩ := hrest
  rw [String.ofList_append, String.utf8ByteSize_append, Nat.add_sub_cancel, withContext,
    ← String.ofList_append, String.toList_ofList, afterBytes_append, ← hcontext]

end ReadError

namespace Reader

/-- What was left of the text where reading ended, well or not. -/
def Outcome.rest {α : Type} : Outcome α → List Char
  | .ok (_, rest) => rest
  | .error stop => stop.rest

/-- Reading on from a suffix of the text ends at a suffix of the text. -/
theorem Outcome.rest_andThen_suffix {α β : Type} {outcome : Outcome α}
    {next : α → List Char → Outcome β} {text : List Char} (h : outcome.rest <:+ text)
    (hnext : ∀ a rest, rest <:+ text → (next a rest).rest <:+ text) :
    (outcome.andThen next).rest <:+ text := by
  rcases outcome with stop | ⟨a, rest⟩
  · exact h
  · exact hnext a rest h

section

variable {config : Config} {room : Nat} {text rest : List Char}

/-! ### Tokens -/

/-- A string ends, or fails, at a suffix of its text. -/
theorem stringBody_rest_suffix (text : List Char) : (stringBody text).rest <:+ text := by
  fun_induction stringBody text with
  | case1 => exact List.suffix_rfl
  | case2 rest => exact List.suffix_cons _ _
  | case3 => exact List.nil_suffix
  | case4 c rest d hd ih =>
    have hrest : rest <:+ '\\' :: c :: rest :=
      (List.suffix_cons c rest).trans (List.suffix_cons _ _)
    exact Outcome.rest_andThen_suffix (ih.trans hrest) fun _ _ h => h
  | case5 => exact List.suffix_rfl
  | case6 c rest _ _ _ ih =>
    exact Outcome.rest_andThen_suffix (ih.trans (List.suffix_cons c rest)) fun _ _ h => h

/-- A keyword ends, or fails, at a suffix of its text. -/
theorem keyword_rest_suffix (text : List Char) : (keyword text).rest <:+ text := by
  simp only [keyword]
  split
  · exact List.suffix_rfl
  · exact List.dropWhile_suffix _

/-- A number ends, or fails, at a suffix of its text. -/
theorem number?_rest_suffix {outcome : Outcome Value} (h : number? text = some outcome) :
    outcome.rest <:+ text := by
  rw [number?_eq] at h
  dsimp only at h
  split at h
  · cases h
  · obtain rfl := Option.some.inj h
    have hsign : (signOf text).2 <:+ text := by
      unfold signOf
      split
      · exact List.suffix_cons _ _
      · exact List.suffix_cons _ _
      · exact List.suffix_rfl
    rw [numberOutcome]
    split
    · exact (List.dropWhile_suffix _).trans hsign
    · exact List.suffix_rfl

/-- An atom ends at a suffix of its text. -/
theorem atom?_suffix {v : Value} (h : atom? text = some (v, rest)) : rest <:+ text := by
  cases text with
  | nil => cases h
  | cons c text =>
    rw [atom?] at h
    split at h
    · obtain ⟨-, rfl⟩ := Prod.mk.inj (Option.some.inj h)
      exact (List.dropWhile_suffix _).trans (List.suffix_cons _ _)
    · cases h

/-- A boolean ends at a suffix of its text. -/
theorem bool?_suffix {v : Value} (h : bool? text = some (v, rest)) : rest <:+ text := by
  obtain ⟨b, rfl, rfl, -⟩ := exists_of_bool? h
  cases b with
  | false => exact ⟨['#', 'f'], rfl⟩
  | true => exact ⟨['#', 't'], rfl⟩

/-! ### Forms -/

/-- Elements end, or fail, at a suffix of their text if each of them does. -/
theorem elements_rest_suffix {read : List Char → Outcome Value}
    (hread : ∀ text, (read text).rest <:+ text) (close : Char) (bound : Nat) (text : List Char) :
    (elements config read close bound text).rest <:+ text := by
  induction bound generalizing text with
  | zero => exact List.suffix_rfl
  | succ bound ih =>
    have hskip := skip_suffix config.comments text
    rw [elements]
    split
    · exact List.nil_suffix
    · next c left heq =>
      rw [heq] at hskip
      split
      · exact (List.suffix_cons c left).trans hskip
      · refine Outcome.rest_andThen_suffix ((hread _).trans hskip) fun item rest hrest => ?_
        exact Outcome.rest_andThen_suffix ((ih rest).trans hrest) fun _ _ h => h

/-- **Reading a form ends at a suffix of the text**, whether it is read or refused. -/
theorem form_rest_suffix (config : Config) (room : Nat) (text : List Char) :
    (form config room text).rest <:+ text := by
  induction room generalizing text with
  | zero => exact List.suffix_rfl
  | succ room ih =>
    have helements : ∀ (c close : Char) (left : List Char),
        (elements config (form config room) close (c :: left).length left).rest <:+ c :: left :=
      fun c close left => (elements_rest_suffix ih close _ left).trans (List.suffix_cons c left)
    unfold form
    split
    · next rest =>
      have hskip := (skip_suffix config.comments rest).trans (List.suffix_cons '\'' rest)
      exact Outcome.rest_andThen_suffix ((ih _).trans hskip) fun _ _ h => h
    · exact Outcome.rest_andThen_suffix (helements _ _ _) fun _ _ h => h
    · exact Outcome.rest_andThen_suffix (helements _ _ _) fun _ _ h => h
    · refine Outcome.rest_andThen_suffix (helements _ _ _) fun items rest h => ?_
      split
      · exact h
      · exact List.suffix_rfl
    · next rest =>
      have hbody := (stringBody_rest_suffix rest).trans (List.suffix_cons '"' rest)
      exact Outcome.rest_andThen_suffix hbody fun _ _ h => h
    · next rest => exact (keyword_rest_suffix rest).trans (List.suffix_cons ':' rest)
    · split
      · next hbool => exact bool?_suffix hbool
      · split
        · next hnumber => exact number?_rest_suffix hnumber
        · split
          · next hatom => exact atom?_suffix hatom
          · exact List.suffix_rfl

/-- A form after a gap ends, or fails, at a suffix of the text. -/
theorem form_skip_suffix (config : Config) (room : Nat) (text : List Char) :
    (form config room (skip config.comments text .blank)).rest <:+ text :=
  (form_rest_suffix config room _).trans (skip_suffix config.comments text)

/-! ### Loops -/

/-- The loop over the elements up to `close`, without a bound on their number. -/
inductive ElementLoop (config : Config) (read : List Char → Outcome Value) (close : Char) :
    List Char → Outcome (List Value) → Prop
  | ended {text : List Char} (hskip : skip config.comments text .blank = []) :
    ElementLoop config read close text (.error ⟨.unexpected, []⟩)
  | closed {text rest : List Char} (hskip : skip config.comments text .blank = close :: rest) :
    ElementLoop config read close text (.ok ([], rest))
  | refused {text left : List Char} {c : Char} {stop : Stop}
    (hskip : skip config.comments text .blank = c :: left) (hc : c ≠ close)
    (hread : read (c :: left) = .error stop) : ElementLoop config read close text (.error stop)
  | element {text left rest : List Char} {c : Char} {item : Value} {outcome : Outcome (List Value)}
    (hskip : skip config.comments text .blank = c :: left) (hc : c ≠ close)
    (hread : read (c :: left) = .ok (item, rest))
    (hrest : ElementLoop config read close rest outcome) :
    ElementLoop config read close text
      (outcome.andThen fun items rest => .ok (item :: items, rest))

/-- **The loop over elements ends** before a bound above the length of the text, if each
element takes characters off. -/
theorem elementLoop {read : List Char → Outcome Value} {close : Char}
    (hread : ∀ {text v rest}, read text = .ok (v, rest) → rest.length < text.length)
    {bound : Nat} (hbound : text.length < bound) :
    ElementLoop config read close text (elements config read close bound text) := by
  induction bound generalizing text with
  | zero => exact absurd hbound (Nat.not_lt_zero _)
  | succ bound ih =>
    have hlength := length_skip_le config.comments text
    rw [elements]
    split
    · next hskip => exact .ended hskip
    · next c left hskip =>
      rw [hskip] at hlength
      split
      · next hc =>
        subst hc
        exact .closed hskip
      · next hc =>
        cases hitem : read (c :: left) with
        | error stop => exact .refused hskip hc hitem
        | ok r =>
          obtain ⟨item, rest⟩ := r
          -- The rest is shorter by a character at least, and the bound less by one.
          have hless := hread hitem
          exact .element hskip hc hitem (ih (by omega))

/-- The loop over the forms of a program, without a bound on their number. -/
inductive FormLoop (config : Config) : List Char → Except Stop (List Value) → Prop
  | ended {text : List Char} (hskip : skip config.comments text .blank = []) :
    FormLoop config text (.ok [])
  | refused {text : List Char} {stop : Stop} (hskip : skip config.comments text .blank ≠ [])
    (hform : form config config.maxDepth (skip config.comments text .blank) = .error stop) :
    FormLoop config text (.error stop)
  | read {text rest : List Char} {v : Value} {outcome : Except Stop (List Value)}
    (hskip : skip config.comments text .blank ≠ [])
    (hform : form config config.maxDepth (skip config.comments text .blank) = .ok (v, rest))
    (hrest : FormLoop config rest outcome) : FormLoop config text (outcome.map (v :: ·))

/-- **The loop over forms ends** before a bound above the length of the text. -/
theorem formLoop {bound : Nat} (hbound : text.length < bound) :
    FormLoop config text (forms config bound text) := by
  induction bound generalizing text with
  | zero => exact absurd hbound (Nat.not_lt_zero _)
  | succ bound ih =>
    have hlength := length_skip_le config.comments text
    rw [forms]
    split
    · next hskip => exact .ended hskip
    · next hskip =>
      split
      · next hform => exact .refused hskip hform
      · next v rest hform =>
        have hless := length_lt_of_form hform
        exact .read hskip hform (ih (by omega))

/-- The forms of a program are refused at a suffix of the text. -/
theorem FormLoop.suffix {stop : Stop} (h : FormLoop config text (.error stop)) :
    stop.rest <:+ text := by
  generalize houtcome : Except.error stop = outcome at h
  induction h with
  | ended => cases houtcome
  | @refused text _ _ hform =>
    cases houtcome
    have hrest := form_skip_suffix config config.maxDepth text
    rwa [hform] at hrest
  | @read text _ _ outcome _ hform _ ih =>
    cases outcome with
    | ok => cases houtcome
    | error =>
      cases houtcome
      have hrest := form_skip_suffix config config.maxDepth text
      rw [hform] at hrest
      exact (ih rfl).trans hrest

/-! ### Errors -/

/-- **The error of a stop points at what was left there.** -/
theorem Stop.pointsAt {stop : Stop} (h : stop.rest <:+ text) :
    stop.error.PointsAt text stop.rest := by
  have hcontext : stop.error.context = some (ReadError.contextOf stop.rest) := by
    unfold Stop.error
    dsimp only
    split
    · rfl
    · split
      · rfl
      · split <;> rfl
  refine ⟨h, hcontext, ReadError.withContext_of_suffix h hcontext, fun hkind => ?_⟩
  rw [Stop.kind_eq_incomplete_iff]
  refine ⟨Stop.AtEnd.rest_eq, fun hrest => ⟨fun hfault => hkind ?_, hrest⟩⟩
  rw [Stop.error, if_pos hfault]

/-- Where reading the only form of a text fails: inside the form, or behind it and the
spacing that follows it. -/
inductive FailsAt (config : Config) (text : List Char) : List Char → Prop
  | inside {stop : Stop}
    (hform : form config config.maxDepth (skip config.comments text .blank) = .error stop) :
    FailsAt config text stop.rest
  | behind {v : Value} {rest : List Char}
    (hform : form config config.maxDepth (skip config.comments text .blank) = .ok (v, rest))
    (hrest : skip config.comments rest .blank ≠ []) :
    FailsAt config text (skip config.comments rest .blank)

/-- A failure to parse points at the suffix where the reader stopped. -/
theorem pointsAt_of_parse {e : ReadError} (hblank : skip config.comments text .blank ≠ [])
    (h : parse config text = .error e) :
    ∃ rest, FailsAt config text rest ∧ e.PointsAt text rest := by
  have hsuffix := form_skip_suffix config config.maxDepth text
  rw [parse] at h
  split at h
  · next hnil => exact absurd hnil hblank
  · split at h
    · next stop hform =>
      obtain rfl := Except.error.inj h
      rw [hform] at hsuffix
      exact ⟨stop.rest, .inside hform, stop.pointsAt hsuffix⟩
    · next v rest hform =>
      rw [hform] at hsuffix
      split at h
      · cases h
      · next hleft =>
        obtain rfl := Except.error.inj h
        have hrest := (skip_suffix config.comments rest).trans hsuffix
        refine ⟨_, .behind hform hleft, hrest, rfl, ReadError.withContext_of_suffix hrest rfl, ?_⟩
        exact fun _ => ⟨fun hkind => (by cases hkind), fun hnil => absurd hnil hleft⟩

/-- A failure to parse a program points at the suffix where the loop stopped. -/
theorem pointsAt_of_parseProgram {e : ReadError} (h : parseProgram config text = .error e) :
    ∃ stop, FormLoop config text (.error stop) ∧ e.PointsAt text stop.rest := by
  have hloop : FormLoop config text (forms config (text.length + 1) text) :=
    formLoop (Nat.lt_succ_self _)
  rw [parseProgram] at h
  cases hforms : forms config (text.length + 1) text with
  | ok items =>
    rw [hforms] at h
    cases h
  | error stop =>
    rw [hforms] at h hloop
    obtain rfl := Except.error.inj h
    exact ⟨stop, hloop, stop.pointsAt hloop.suffix⟩

end
end Reader

/-- **The reader moves forward and reports where it stopped.**  Skipping ends at a suffix
of the text.  A form that is read ends at a shorter suffix, one that is refused at a suffix,
and the loops over elements and over forms end.  If a text is refused that holds more than
blanks and comments, the error points at the place where reading failed. -/
theorem reader_moves_forward (config : Reader.Config) :
    (∀ comments text, Reader.skip comments text .blank <:+ text) ∧
    (∀ room text,
      (∀ v rest, Reader.form config room text = .ok (v, rest) →
        rest <:+ text ∧ rest.length < text.length) ∧
      (∀ stop, Reader.form config room text = .error stop → stop.rest <:+ text) ∧
      ∀ close, Reader.ElementLoop config (Reader.form config room) close text
        (Reader.elements config (Reader.form config room) close (text.length + 1) text)) ∧
    (∀ text, Reader.FormLoop config text (Reader.forms config (text.length + 1) text)) ∧
    ∀ source err, ¬ Reader.Skips config.comments source.toList [] →
      (readWith config source = .error err → ∃ e rest, err = .read e ∧
        Reader.FailsAt config source.toList rest ∧ e.PointsAt source.toList rest) ∧
      (readProgramWith config source = .error err → ∃ e stop, err = .read e ∧
        Reader.FormLoop config source.toList (.error stop) ∧
          e.PointsAt source.toList stop.rest) := by
  refine ⟨Reader.skip_suffix, fun room text => ⟨fun v rest h => ?_, fun stop h => ?_, fun close =>
    Reader.elementLoop Reader.length_lt_of_form (Nat.lt_succ_self _)⟩, fun text =>
    Reader.formLoop (Nat.lt_succ_self _), fun source err hblank => ⟨fun h => ?_, fun h => ?_⟩⟩
  · have hsuffix := Reader.form_rest_suffix config room text
    rw [h] at hsuffix
    exact ⟨hsuffix, Reader.length_lt_of_form h⟩
  · have hsuffix := Reader.form_rest_suffix config room text
    rwa [h] at hsuffix
  · obtain ⟨e, hparse, rfl⟩ := exists_of_mapError_eq_error h
    obtain ⟨rest, hfails, hpoints⟩ :=
      Reader.pointsAt_of_parse (mt Reader.skip_eq_nil_iff.1 hblank) hparse
    exact ⟨e, rest, rfl, hfails, hpoints⟩
  · obtain ⟨e, hparse, rfl⟩ := exists_of_mapError_eq_error h
    obtain ⟨stop, hfails, hpoints⟩ := Reader.pointsAt_of_parseProgram hparse
    exact ⟨e, stop, rfl, hfails, hpoints⟩

/-- The text goes on behind its first form, and a later form is refused behind a comment. -/
theorem reader_moves_forward_behind :
    let source := "\"é\" (a ; b\n 12x"
    let e : ReadError := ⟨.trailingContent, "Unexpected remaining input", some "(a ; b\\n 12x"⟩
    let e' : ReadError := ⟨.invalidSyntax, "Invalid syntax", some "12x"⟩
    ¬ Reader.Skips true source.toList [] ∧
      readWith ⟨true, 4⟩ source = .error (.read e) ∧
      readProgramWith ⟨true, 4⟩ source = .error (.read e') ∧
      (∃ rest, Reader.FailsAt ⟨true, 4⟩ source.toList rest ∧ e.PointsAt source.toList rest) ∧
      ∃ stop, Reader.FormLoop ⟨true, 4⟩ source.toList (.error stop) ∧
        e'.PointsAt source.toList stop.rest := by
  have hread : readWith ⟨true, 4⟩ "\"é\" (a ; b\n 12x" =
    .error (.read ⟨.trailingContent, "Unexpected remaining input", some "(a ; b\\n 12x"⟩) := rfl
  have hprogram : readProgramWith ⟨true, 4⟩ "\"é\" (a ; b\n 12x" =
    .error (.read ⟨.invalidSyntax, "Invalid syntax", some "12x"⟩) := rfl
  intro source e e'
  have hblank : ¬ Reader.Skips true source.toList [] := by
    rw [← Reader.skip_eq_nil_iff]
    decide +kernel
  obtain ⟨-, -, -, hreport⟩ := reader_moves_forward ⟨true, 4⟩
  obtain ⟨f, rest, hf, hfails, hpoints⟩ := (hreport source _ hblank).1 hread
  obtain ⟨f', stop, hf', hfails', hpoints'⟩ := (hreport source _ hblank).2 hprogram
  obtain rfl : e = f := Error.read.inj hf
  obtain rfl : e' = f' := Error.read.inj hf'
  exact ⟨hblank, hread, hprogram, ⟨rest, hfails, hpoints⟩, stop, hfails', hpoints'⟩

end CapLisp
