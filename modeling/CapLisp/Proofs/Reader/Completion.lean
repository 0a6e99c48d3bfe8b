/-
# Incomplete texts can be completed

A text is refused as incomplete if reading stopped at its end, for another reason than
its nesting.  Then there is a text that completes it: behind it the reader goes on and
reads a form.

| reading stopped | what completes it |
| --- | --- |
| before a form, behind a quote sign | an atom |
| behind the colon of a keyword | a character of its name |
| inside a string | a quote; behind a backslash an `n` first |
| among elements | what completes the one that was begun, then the closing delimiter |
| in an open line comment | a line feed first |

A dict takes an even number of forms, so its elements are completed to a number of the
right parity (`exists_elements`).  The atom that this may take fits into the nesting:
a dict has an element or has begun one, and elements take a level more than the dict.
-/

import CapLisp.Proofs.Reader.Program

namespace CapLisp
namespace Reader

/-- Tells that reading stopped at the end of the text, and not since it nests too deep. -/
structure Stop.AtEnd (stop : Stop) : Prop where
  fault_ne : stop.fault ≠ .tooDeep
  rest_eq : stop.rest = []

/-- **A text is incomplete** if reading stopped at its end. -/
theorem Stop.kind_eq_incomplete_iff {stop : Stop} :
    stop.error.kind = .incomplete ↔ stop.AtEnd := by
  obtain ⟨fault, rest⟩ := stop
  constructor
  · intro h
    simp only [Stop.error] at h
    split at h
    · cases h
    · next hfault =>
      split at h
      · next hrest => exact ⟨hfault, List.isEmpty_iff.1 hrest⟩
      · split at h <;> cases h
  · rintro ⟨hfault, hrest⟩
    obtain rfl : rest = [] := hrest
    rw [Stop.error, if_neg hfault]
    rfl

/-- Reading that stopped did so in its first part or behind it. -/
theorem Outcome.stop_of_andThen {α β : Type} {outcome : Outcome α}
    {next : α → List Char → Outcome β} {stop : Stop} (h : outcome.andThen next = .error stop) :
    outcome = .error stop ∨ ∃ a rest, outcome = .ok (a, rest) ∧ next a rest = .error stop := by
  rcases outcome with stop' | ⟨a, rest⟩
  · obtain rfl := Except.error.inj h
    exact .inl rfl
  · exact .inr ⟨a, rest, rfl, h⟩

section

variable {config : Config} {room : Nat} {text rest : List Char} {stop : Stop}

/-! ### Tokens -/

/-- A string cut off at the end of the text can be completed. -/
theorem exists_stringBody (h : stringBody text = .error stop) (hend : stop.AtEnd) :
    ∃ more chars, stringBody (text ++ more) = .ok (chars, []) := by
  fun_induction stringBody text with
  | case1 => exact ⟨['"'], [], rfl⟩
  | case2 => cases h
  | case3 => exact ⟨['n', '"'], ['\n'], rfl⟩
  | case4 c left d hd ih =>
    rcases Outcome.stop_of_andThen h with h | ⟨_, _, -, h⟩
    · obtain ⟨more, chars, hmore⟩ := ih h
      refine ⟨more, d :: chars, ?_⟩
      rw [List.cons_append, List.cons_append, stringBody, hd]
      simp only [hmore]
      rfl
    · cases h
  | case5 =>
    cases h
    exact absurd hend.rest_eq (List.cons_ne_nil _ _)
  | case6 c left hquote hlast hescape ih =>
    rcases Outcome.stop_of_andThen h with h | ⟨_, _, -, h⟩
    · obtain ⟨more, chars, hmore⟩ := ih h
      refine ⟨more, c :: chars, ?_⟩
      have hbackslash : c ≠ '\\' := by
        rintro rfl
        cases left with
        | nil => exact hlast rfl rfl
        | cons d left => exact hescape d left rfl rfl
      rw [List.cons_append, stringBody, hmore]
      · rfl
      · exact hquote
      · exact fun h _ => hbackslash h
      · exact fun _ _ h _ => hbackslash h
    · cases h

/-- A keyword cut off at the end of the text can be completed. -/
theorem exists_keyword (h : keyword text = .error stop) (hend : stop.AtEnd) :
    ∃ more v, keyword (text ++ more) = .ok (v, []) := by
  simp only [keyword] at h
  split at h
  · obtain rfl := Except.error.inj h
    obtain rfl : text = [] := hend.rest_eq
    exact ⟨['a'], _, rfl⟩
  · cases h

/-- A number that is out of range is one that has begun. -/
theorem rest_ne_nil_of_number? (h : number? text = some (.error stop)) : stop.rest ≠ [] := by
  rw [number?_eq] at h
  dsimp only at h
  split at h
  · cases h
  · next hdigits =>
    have houtcome := Option.some.inj h
    simp only [numberOutcome] at houtcome
    split at houtcome
    · cases houtcome
    · obtain rfl := Except.error.inj houtcome
      rintro rfl
      exact hdigits rfl

/-- An atom is read wherever there is a level left. -/
theorem form_a (hrest : endsToken rest = true) :
    form config (room + 1) ('a' :: rest) = .ok (.atom (String.ofList ['a']), rest) := by
  have hname : isName ['a'] = true ∧ isSignedRun ['a'] = false := by decide
  exact form_name hname.1 hname.2 hrest

/-! ### Spacing -/

/-- What a form needs behind what was skipped before it can be put behind the text. -/
theorem exists_skip_append {comments : Bool} {more : List Char}
    (hopens : Opens (skip comments text .blank ++ more)) :
    ∃ more', skip comments (text ++ more') .blank = skip comments text .blank ++ more := by
  by_cases hskip : skip comments text .blank = []
  · rw [hskip, List.nil_append] at hopens ⊢
    exact ⟨'\n' :: more, (skip_append_of_eq_nil hskip more).trans hopens.skip_eq⟩
  · exact ⟨more, skip_append_of_eq rfl hopens.skip_eq hskip⟩

/-! ### Elements -/

section

variable {close : Char} (hclose : isCloser close = true)

/-- An element whose form begins in the text is read, and elements follow it. -/
theorem elements_cons_append {bound : Nat} {c : Char} {left more left' : List Char} {v : Value}
    {items : List Value} (hskip : skip config.comments text .blank = c :: left) (hc : c ≠ close)
    (hitem : form config room (c :: left ++ more) = .ok (v, left'))
    (hitems : elements config (form config room) close bound left' = .ok (items, rest)) :
    elements config (form config room) close (bound + 1) (text ++ more) =
      .ok (v :: items, rest) := by
  rw [elements, skip_append_of_eq hskip (opens_of_form hitem).skip_eq (List.cons_ne_nil _ _),
    List.cons_append]
  simp only [if_neg hc]
  rw [← List.cons_append, hitem]
  simp only [Outcome.andThen, hitems]

include hclose

/-- Elements are ended with no more or one more of them. -/
theorem exists_row (config : Config) (parity : Nat) (hroom : parity % 2 = 0 ∨ room ≠ 0) :
    ∃ row items, items.length % 2 = parity % 2 ∧ ∀ bound, row.length < bound →
      elements config (form config room) close bound ('\n' :: row) = .ok (items, []) := by
  have hgap : Spacing config.comments ['\n'] := .blank rfl .nil
  by_cases heven : parity % 2 = 0
  · refine ⟨[close], [], heven.symm, fun bound hbound => ?_⟩
    obtain ⟨bound, rfl⟩ : ∃ less, bound = less + 1 := Nat.exists_eq_add_one_of_ne_zero (by omega)
    exact (elements_append hgap [close]).trans (elements_closer hclose [])
  · obtain ⟨room, rfl⟩ := Nat.exists_eq_add_one_of_ne_zero (hroom.resolve_left heven)
    refine ⟨['a', close], [.atom (String.ofList ['a'])], by simp; omega, fun bound hbound => ?_⟩
    obtain ⟨bound, rfl⟩ : ∃ less, bound = less + 2 :=
      ⟨bound - 2, by rw [List.length_cons, List.length_singleton] at hbound; omega⟩
    have hopens : Opens ['a', close] := .intro (by decide)
    refine (elements_append hgap ['a', close]).trans ?_
    rw [elements_of_opens hclose hopens, form_a (endsToken_closer hclose [])]
    simp only [Outcome.andThen, elements_closer hclose]

/-- **Elements that end with the text can be completed**, to an even number of them and,
if they take up a level that there is, to an odd one. -/
theorem exists_elements
    (hform : ∀ {text stop}, form config room text = .error stop → stop.AtEnd →
      ∃ more v, form config room (text ++ more) = .ok (v, []))
    {bound : Nat} (hbound : text.length < bound)
    (h : elements config (form config room) close bound text = .error stop) (hend : stop.AtEnd)
    (parity : Nat) (hroom : parity % 2 = 0 ∨ room ≠ 0) :
    ∃ more items, items.length % 2 = parity % 2 ∧ (text = [] → endsToken more = true) ∧
      ∀ bound, (text ++ more).length < bound →
        elements config (form config room) close bound (text ++ more) = .ok (items, []) := by
  induction bound generalizing text parity with
  | zero => exact absurd hbound (Nat.not_lt_zero _)
  | succ bound ih =>
    have hlength := length_skip_le config.comments text
    rw [elements] at h
    split at h
    · next hskip =>
      -- No form was begun.
      obtain ⟨row, items, hparity, hrow⟩ := exists_row hclose config parity hroom
      refine ⟨'\n' :: row, items, hparity, fun _ => rfl, fun bound hbound => ?_⟩
      have hless : row.length < bound := by
        rw [List.length_append, List.length_cons] at hbound
        omega
      obtain ⟨bound, rfl⟩ := Nat.exists_eq_add_one_of_ne_zero (Nat.ne_zero_of_lt hbound)
      rw [← hrow _ hless, elements, elements, skip_append_of_eq_nil hskip, skip_blank rfl]
    · next c left hskip =>
      have htext : 0 < text.length := by
        rw [hskip, List.length_cons] at hlength
        omega
      have hne : text ≠ [] := List.length_pos_iff.1 htext
      split at h
      · cases h
      · next hc =>
        rcases Outcome.stop_of_andThen h with h | ⟨item, left', hitem, h⟩
        · -- A form was begun; the elements end behind it.
          have hlevel : room ≠ 0 := by
            rintro rfl
            cases h
            exact hend.fault_ne rfl
          obtain ⟨more, v, hv⟩ := hform h hend
          obtain ⟨row, items, hparity, hrow⟩ :=
            exists_row hclose config (parity + 1) (.inr hlevel)
          have hitem := form_append_of_eq hv (fun _ => (rfl : endsToken ('\n' :: row) = true))
          rw [List.append_assoc, List.nil_append] at hitem
          refine ⟨more ++ '\n' :: row, v :: items, ?_, (absurd · hne), fun bound hbound => ?_⟩
          · rw [List.length_cons]
            omega
          · simp only [List.length_append, List.length_cons] at hbound
            obtain ⟨bound, rfl⟩ := Nat.exists_eq_add_one_of_ne_zero (Nat.ne_zero_of_lt hbound)
            exact elements_cons_append hskip hc hitem (hrow bound (by omega))
        · rcases Outcome.stop_of_andThen h with h | ⟨_, _, -, h⟩
          · -- A form was read; the elements behind it are completed.
            have hlevel : room ≠ 0 := by
              rintro rfl
              cases hitem
            have hleft := length_lt_of_form hitem
            rw [hskip] at hlength
            obtain ⟨more, items, hparity, hmore, hitems⟩ :=
              ih (by omega) h (parity + 1) (.inr hlevel)
            refine ⟨more, item :: items, ?_, (absurd · hne), fun bound hbound => ?_⟩
            · rw [List.length_cons]
              omega
            · rw [List.length_append] at hbound
              obtain ⟨bound, rfl⟩ := Nat.exists_eq_add_one_of_ne_zero (Nat.ne_zero_of_lt hbound)
              refine elements_cons_append hskip hc (form_append_of_eq hitem hmore)
                (hitems bound ?_)
              rw [List.length_append]
              omega
          · cases h

end

/-! ### Forms -/

/-- **A form that ends with the text can be completed.** -/
theorem exists_form (h : form config room text = .error stop) (hend : stop.AtEnd) :
    ∃ more v, form config room (text ++ more) = .ok (v, []) := by
  induction room generalizing text stop with
  | zero =>
    cases h
    exact absurd rfl hend.fault_ne
  | succ room ih =>
    -- An opening delimiter counts for the bound on the elements, as they are all behind it.
    have helements : ∀ {c close : Char} {left : List Char}, isCloser close = true →
        elements config (form config room) close (c :: left).length left = .error stop →
        ∃ more items, items.length % 2 = 0 ∧
          elements config (form config room) close (c :: left ++ more).length (left ++ more) =
            .ok (items, []) := by
      intro c close left hclose hitems
      obtain ⟨more, items, heven, -, hmore⟩ :=
        exists_elements hclose ih (Nat.lt_succ_self _) hitems hend 0 (.inl rfl)
      exact ⟨more, items, heven, hmore _ (Nat.lt_succ_self _)⟩
    unfold form at h
    split at h
    · rcases Outcome.stop_of_andThen h with h | ⟨_, _, -, h⟩
      · obtain ⟨more, v, hv⟩ := ih h hend
        obtain ⟨more', hskip⟩ := exists_skip_append (opens_of_form hv)
        refine ⟨more', v.quoted, ?_⟩
        rw [List.cons_append, form_quote, hskip, hv]
        rfl
      · cases h
    · rcases Outcome.stop_of_andThen h with h | ⟨_, _, -, h⟩
      · obtain ⟨more, items, -, hitems⟩ := helements rfl h
        refine ⟨more, .list items, ?_⟩
        rw [List.cons_append, form_list, ← List.cons_append, hitems]
        rfl
      · cases h
    · rcases Outcome.stop_of_andThen h with h | ⟨_, _, -, h⟩
      · obtain ⟨more, items, -, hitems⟩ := helements rfl h
        refine ⟨more, .vector items, ?_⟩
        rw [List.cons_append, form_vector, ← List.cons_append, hitems]
        rfl
      · cases h
    · rcases Outcome.stop_of_andThen h with h | ⟨items, left, -, h⟩
      · obtain ⟨more, items, heven, hitems⟩ := helements rfl h
        refine ⟨more, .dict (Dict.ofEntries (Dict.pairs items)), ?_⟩
        rw [List.cons_append, form_dict, ← List.cons_append, hitems]
        simp only [Outcome.andThen, if_pos heven]
      · -- A dict that was closed is not one that ends with the text.
        split at h
        · cases h
        · cases h
          exact absurd hend.rest_eq (List.cons_ne_nil _ _)
    · rcases Outcome.stop_of_andThen h with h | ⟨_, _, -, h⟩
      · obtain ⟨more, chars, hchars⟩ := exists_stringBody h hend
        refine ⟨more, .string (String.ofList chars), ?_⟩
        rw [List.cons_append, form_string, hchars]
        rfl
      · cases h
    · exact exists_keyword h hend
    · split at h
      · cases h
      · split at h
        · next hnumber =>
          rw [h] at hnumber
          exact absurd hend.rest_eq (rest_ne_nil_of_number? hnumber)
        · split at h
          · cases h
          · obtain rfl := Except.error.inj h
            obtain rfl : text = [] := hend.rest_eq
            exact ⟨['a'], _, form_a rfl⟩

end

/-- **An incomplete text can be completed** if a form may take a level. -/
theorem exists_parse {config : Config} {text : List Char} {e : ReadError}
    (hdepth : 1 ≤ config.maxDepth) (h : parse config text = .error e)
    (hkind : e.kind = .incomplete) : ∃ more v, parse config (text ++ more) = .ok v := by
  suffices hstart : ∃ more v,
      form config config.maxDepth (skip config.comments text .blank ++ more) = .ok (v, []) by
    obtain ⟨more, v, hv⟩ := hstart
    obtain ⟨more', hskip⟩ := exists_skip_append (opens_of_form hv)
    refine ⟨more', v, parse_eq_ok_iff.2 ⟨[], ?_, rfl⟩⟩
    rw [hskip, hv]
  rw [parse] at h
  split at h
  · next hskip =>
    obtain ⟨room, hroom⟩ := Nat.exists_eq_add_one_of_ne_zero (Nat.one_le_iff_ne_zero.1 hdepth)
    rw [hskip, hroom]
    exact ⟨['a'], _, form_a rfl⟩
  · split at h
    · next hform =>
      obtain rfl := Except.error.inj h
      exact exists_form hform (Stop.kind_eq_incomplete_iff.1 hkind)
    · -- What follows a form is refused for another reason.
      split at h
      · cases h
      · cases h
        cases hkind

end Reader

/-- **A text that is refused as incomplete can be completed**: there is a text behind
which it is read under the same options. -/
theorem exists_completion_of_incomplete {config : Reader.Config} {source : String} {e : ReadError}
    (hdepth : 1 ≤ config.maxDepth) (h : readWith config source = .error (.read e))
    (hkind : e.kind = .incomplete) : ∃ more v, readWith config (source ++ more) = .ok v := by
  have hparse : Reader.parse config source.toList = .error e := by
    rw [readWith] at h
    cases hread : Reader.parse config source.toList with
    | ok v =>
      rw [hread] at h
      cases h
    | error e' =>
      rw [hread] at h
      cases h
      rfl
  obtain ⟨more, v, hv⟩ := Reader.exists_parse hdepth hparse hkind
  refine ⟨String.ofList more, v, mapError_eq_ok_iff.2 ?_⟩
  rw [String.toList_append, String.toList_ofList]
  exact hv

/-- A dict in a list that is quoted ends with a keyword without its value and in a comment. -/
theorem exists_completion_of_incomplete_comment :
    let e : ReadError := ⟨.incomplete, "Unexpected end of input", some ""⟩
    readWith ⟨true, 5⟩ "'(f \x7b:a (b \"c\") :d ; e" = .error (.read e) ∧
      ∃ more v, readWith ⟨true, 5⟩ ("'(f \x7b:a (b \"c\") :d ; e" ++ more) = .ok v := by
  have h : readWith ⟨true, 5⟩ "'(f \x7b:a (b \"c\") :d ; e" =
      .error (.read ⟨.incomplete, "Unexpected end of input", some ""⟩) := rfl
  exact ⟨h, exists_completion_of_incomplete (by decide) h rfl⟩

end CapLisp
