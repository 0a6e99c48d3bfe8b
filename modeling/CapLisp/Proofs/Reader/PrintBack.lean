/-
# What is read and printed again

A text may spell an atom that looks like a number: a sign and digits are an atom
where `#` stands right behind them, as in `(-5#t)`, and nowhere else
(`head?_of_atom?`).  Its own text is `-5`, and in the text of the list a space stands
behind that, so a number is read back.

There is no other exception.  What is read from the text of a spelled value holds
no such atom (`form_write`), so a value that is read back holds none; and one that
holds none is read back, since all that is read is spelled and within the nesting
allowed (`readWith_text_iff`).
-/

import CapLisp.Proofs.Reader.ReadBack

namespace CapLisp

namespace Reader

variable {config : Config} {room : Nat} {text rest left : List Char}

/-- **An atom looks like a number only in front of `#`.** -/
theorem head?_of_atom? {name : String} (hnumber : number? text = none)
    (hatom : atom? text = some (.atom name, rest)) (hrun : isSignedRun name.toList = true) :
    rest.head? = some '#' := by
  cases text with
  | nil => cases hatom
  | cons c tail =>
    rw [atom?] at hatom
    split at hatom
    · next hc =>
      obtain ⟨hname, rfl⟩ := Prod.mk.inj (Option.some.inj hatom)
      have htext : c :: tail = name.toList ++ tail.dropWhile isAtomChar := by
        rw [← Value.atom.inj hname, String.toList_ofList, List.cons_append,
          List.takeWhile_append_dropWhile]
      -- If the run could end here, it would have been taken for a number.
      have hends : endsToken (tail.dropWhile isAtomChar) ≠ true := fun hends => by
        obtain ⟨negative, digits, hsome⟩ := number?_of_isSignedRun hrun hends
        rw [← htext, hnumber] at hsome
        cases hsome
      have hhead := List.head?_dropWhile_not isAtomChar tail
      cases hdrop : tail.dropWhile isAtomChar with
      | nil => exact absurd (hdrop ▸ rfl) hends
      | cons d more =>
        rw [hdrop] at hends hhead
        simp_all [endsToken]
    · cases hatom

/-! ### Printed texts -/

/-- The text of a value that was spelled opens a form. -/
theorem opens_write {v : Value} (hv : v.Spelled) (rest : List Char) : Opens (v.write rest) := by
  rw [Value.write_append hv]
  exact (opens_of_spells hv.here (spells_write true hv)).append rest

/-- A token that is printed is read as a readable value, which need not be the token. -/
theorem form_write_token {v w : Value} (hv : v.isSpelled) (htoken : v.isToken = true)
    (hrest : endsToken rest = true)
    (h : form config (room + 1) (v.write [] ++ rest) = .ok (w, left)) :
    left = rest ∧ w.Readable := by
  by_cases hword : v.looksLikeNumber = true
  · cases v with
    | atom name =>
      obtain ⟨c, tail, hcons, hc, -⟩ := exists_of_isName hv
      obtain ⟨negative, digits, hnumber⟩ := number?_of_isSignedRun hword hrest
      rw [Value.write_atom, List.append_nil] at h
      rw [hcons, List.cons_append] at h hnumber
      rw [form_word (startsWord_of_isAtomStart hc), hnumber] at h
      obtain ⟨rfl, n, rfl⟩ := eq_of_numberOutcome_eq_ok h
      exact ⟨rfl, Value.everywhere_number.2 ⟨rfl, rfl⟩⟩
    | _ => cases hword
  · have hreadable : v.isReadable := ⟨hv, Bool.eq_false_iff.2 hword⟩
    rw [form_token hreadable htoken hrest] at h
    obtain ⟨rfl, rfl⟩ := Prod.mk.inj (Except.ok.inj h)
    refine ⟨rfl, Value.everywhere_iff.2 ⟨hreadable, ?_⟩⟩
    cases v <;> first | exact List.forall_mem_nil _ | cases htoken

/-- A space or the closing delimiter stands behind a printed element. -/
theorem endsToken_separated {close : Char} (hclose : isCloser close = true) (more : List Value)
    (rest : List Char) :
    endsToken (separated [' '] more (Value.writeAll more (close :: rest))) = true := by
  cases more with
  | nil => exact endsToken_closer hclose rest
  | cons => rfl

/-- Elements that are printed are read as readable values up to their closing delimiter. -/
theorem elements_writeAll {read : List Char → Outcome Value} {close : Char}
    (hclose : isCloser close = true) {items : List Value}
    (hopens : ∀ v ∈ items, ∀ rest, Opens (v.write rest))
    (hread : ∀ v ∈ items, ∀ {rest w left}, endsToken rest = true →
      read (v.write rest) = .ok (w, left) → left = rest ∧ w.Readable)
    {bound : Nat} {found : List Value}
    (h : elements config read close bound (Value.writeAll items (close :: rest)) =
      .ok (found, left)) :
    left = rest ∧ ∀ w ∈ found, w.Readable := by
  induction items generalizing bound found with
  | nil =>
    cases bound with
    | zero => cases h
    | succ bound =>
      rw [Value.writeAll, elements_closer hclose] at h
      obtain ⟨rfl, rfl⟩ := Prod.mk.inj (Except.ok.inj h)
      exact ⟨rfl, List.forall_mem_nil _⟩
  | cons v more ih =>
    cases bound with
    | zero => cases h
    | succ bound =>
      obtain ⟨hopensV, hopensMore⟩ := List.forall_mem_cons.1 hopens
      obtain ⟨hreadV, hreadMore⟩ := List.forall_mem_cons.1 hread
      rw [Value.writeAll, elements_of_opens hclose (hopensV _)] at h
      obtain ⟨w, rest', hw, h⟩ := Outcome.exists_of_andThen h
      obtain ⟨found, rest'', hfound, h⟩ := Outcome.exists_of_andThen h
      obtain ⟨rfl, rfl⟩ := Prod.mk.inj (Except.ok.inj h)
      obtain ⟨rfl, hreadable⟩ := hreadV (endsToken_separated hclose more rest) hw
      -- The space that ends the element is skipped in front of the next one.
      have hrest : elements config read close bound (Value.writeAll more (close :: rest)) =
          .ok (found, rest'') := by
        cases bound with
        | zero => cases hfound
        | succ bound =>
          rw [← hfound]
          cases more with
          | nil => rfl
          | cons => exact (elements_append (.blank rfl .nil : Spacing config.comments [' ']) _).symm
      obtain ⟨rfl, hmore⟩ := ih hopensMore hreadMore hrest
      exact ⟨rfl, List.forall_mem_cons.2 ⟨hreadable, hmore⟩⟩

/-- **What is read from the text of a spelled value is readable**, and ends where
that text does. -/
theorem form_write {v : Value} (hv : v.Spelled) :
    ∀ {room : Nat} {rest left : List Char} {w : Value}, endsToken rest = true →
      form config room (v.write rest) = .ok (w, left) → left = rest ∧ w.Readable := by
  induction hv with
  | @intro v hv hparts ih =>
    intro room rest left w hrest h
    have hspelled : v.Spelled := ⟨hv, hparts⟩
    cases room with
    | zero => cases h
    | succ room =>
      have hopens : ∀ w ∈ v.parts, ∀ rest, Opens (w.write rest) :=
        fun w hw => opens_write (hparts w hw)
      have hread : ∀ u ∈ v.parts, ∀ {rest w left}, endsToken rest = true →
          form config room (u.write rest) = .ok (w, left) → left = rest ∧ w.Readable :=
        fun u hu => ih u hu
      cases v with
      | list items =>
        rw [Value.write_list, form_list] at h
        obtain ⟨found, left, hfound, h⟩ := Outcome.exists_of_andThen h
        obtain ⟨rfl, rfl⟩ := Prod.mk.inj (Except.ok.inj h)
        obtain ⟨rfl, hitems⟩ := elements_writeAll rfl hopens hread hfound
        exact ⟨rfl, Value.everywhere_list.2 ⟨⟨rfl, rfl⟩, hitems⟩⟩
      | vector items =>
        rw [Value.write_vector, form_vector] at h
        obtain ⟨found, left, hfound, h⟩ := Outcome.exists_of_andThen h
        obtain ⟨rfl, rfl⟩ := Prod.mk.inj (Except.ok.inj h)
        obtain ⟨rfl, hitems⟩ := elements_writeAll rfl hopens hread hfound
        exact ⟨rfl, Value.everywhere_vector.2 ⟨⟨rfl, rfl⟩, hitems⟩⟩
      | dict entries =>
        rw [Value.write_dict, Value.writeEntries_eq, form_dict] at h
        obtain ⟨found, left, hfound, h⟩ := Outcome.exists_of_andThen h
        obtain ⟨rfl, hitems⟩ := elements_writeAll rfl hopens hread hfound
        -- Keys may have become equal numbers, so entries may be lost; the others are readable.
        split at h
        · obtain ⟨rfl, rfl⟩ := Prod.mk.inj (Except.ok.inj h)
          refine ⟨rfl, Value.everywhere_dict.2 ⟨⟨Dict.unequal_ofEntries _, rfl⟩, ?_⟩⟩
          refine Dict.forall_mem_ofEntries fun entry hentry => ?_
          obtain ⟨hkey, hvalue⟩ := Dict.mem_of_mem_pairs hentry
          exact ⟨hitems _ hkey, hitems _ hvalue⟩
        · cases h
      | atom | keyword | string | number | bool =>
        rw [Value.write_append hspelled] at h
        exact form_write_token hv rfl hrest h
      | _ => cases hv

/-- What is parsed from the text of a spelled value is readable. -/
theorem readable_of_parse_write {v w : Value} (hv : v.Spelled)
    (h : parse config (v.write []) = .ok w) : w.Readable := by
  rw [parse, (opens_write hv []).skip_eq] at h
  split at h
  · cases h
  · split at h
    · cases h
    · next hform =>
      split at h
      · cases h
        exact (form_write hv rfl hform).2
      · cases h

end Reader

/-- **A value that was read is read back from its text** exactly if no atom in it
looks like a number.  This holds of the form of a text and of each form of a program. -/
theorem readWith_text_iff {config : Reader.Config} {v : Value}
    (h : (∃ source, readWith config source = .ok v) ∨
      ∃ source items, readProgramWith config source = .ok items ∧ v ∈ items) :
    readWith config v.text = .ok v ↔ v.Everywhere fun w => w.looksLikeNumber = false := by
  have hv : v.SpelledWithin config.maxDepth := by
    rcases h with ⟨source, h⟩ | ⟨source, items, h, hmem⟩
    · exact spelled_readWith h
    · exact spelled_readProgramWith h v hmem
  rw [readWith, Value.text, String.toList_ofList]
  constructor
  · intro hback
    have hparse : Reader.parse config (v.write []) = .ok v := by
      cases hresult : Reader.parse config (v.write []) with
      | error e =>
        rw [hresult] at hback
        cases hback
      | ok w =>
        rw [hresult] at hback
        obtain rfl := Except.ok.inj hback
        rfl
    exact (Reader.readable_of_parse_write hv.spelled hparse).mono fun _ hw => hw.2
  · intro hwords
    have hreadable : v.Readable := hv.spelled.and hwords
    rw [Reader.parse_of_layout hreadable hv.nesting_le (.of_write _ hv.spelled)]
    rfl

/-- **A text that is not read back from what it prints.**  It spells a list with an
atom, and what it prints spells one with a number. -/
theorem readWith_text_ne :
    readWith .default "(-5#t)" = .ok (.list [.atom "-5", .bool true]) ∧
      (Value.list [.atom "-5", .bool true]).text = "(-5 #t)" ∧
      readWith .default (Value.list [.atom "-5", .bool true]).text =
        .ok (.list [.number (-5), .bool true]) ∧
      readWith .default (Value.list [.atom "-5", .bool true]).text ≠
        .ok (.list [.atom "-5", .bool true]) := by
  have hread : readWith .default (Value.list [.atom "-5", .bool true]).text =
      .ok (.list [.number (-5), .bool true]) := rfl
  refine ⟨rfl, rfl, hread, ?_⟩
  rw [hread]
  intro h
  cases h

/-- A text with a sign and digits before a blank is read back from what it prints. -/
theorem readWith_text_iff_spaced :
    ∃ v, v = Value.list [.atom "-", .number (-5), .bool true] ∧
      readWith .default "(- -5 #t)" = .ok v ∧ readWith .default v.text = .ok v := by
  have h : readWith .default "(- -5 #t)" = .ok (.list [.atom "-", .number (-5), .bool true]) := rfl
  have hwords : (Value.list [.atom "-", .number (-5), .bool true]).Everywhere
      fun w => w.looksLikeNumber = false := by
    have hminus : Reader.isSignedRun ['-'] = false := rfl
    simp [Value.looksLikeNumber, hminus]
  exact ⟨_, rfl, h, (readWith_text_iff (.inl ⟨_, h⟩)).2 hwords⟩

end CapLisp
