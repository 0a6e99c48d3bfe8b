/-
# What a text can spell

The reader builds forms out of atoms, keywords, strings, numbers and booleans,
put into lists, vectors and dicts.  It builds no closure, no environment and no
state, and no reference to a primitive or to a slot: these a program gets from
evaluation alone (`syntactic_readProgram`).

More precisely, the name of an atom and of a keyword is made of the characters
that the reader takes for one, the keys of a dict are pairwise unequal, and a form
nests no deeper than the reader allows (`spelled_form`).
-/

import CapLisp.Proofs.Metadata
import CapLisp.Proofs.Reader.Token
import CapLisp.Proofs.WellFormed
import CapLisp.Reader.Form

namespace CapLisp

namespace Dict

/-- Entries put into a dict keep what holds of all of them. -/
theorem forall_mem_ofEntries {Q : Value → Prop} {entries : List (Value × Value)}
    (h : ∀ entry ∈ entries, Q entry.1 ∧ Q entry.2) :
    ∀ entry ∈ ofEntries entries, Q entry.1 ∧ Q entry.2 := by
  have hstep : ∀ done : Dict, (∀ entry ∈ done, Q entry.1 ∧ Q entry.2) → ∀ entry ∈ entries,
      ∀ other ∈ insert entry.1 entry.2 done, Q other.1 ∧ Q other.2 :=
    fun done hdone entry hmem => forall_mem_insert (h entry hmem).1 (h entry hmem).2 hdone
  exact List.foldlRecOn (motive := fun done : Dict => ∀ entry ∈ done, Q entry.1 ∧ Q entry.2)
    entries _ (List.forall_mem_nil _) hstep

/-- **Entries put into a dict have unequal keys**, whatever their own keys are. -/
theorem unequal_ofEntries (entries : List (Value × Value)) : (ofEntries entries).Unequal :=
  List.foldlRecOn (motive := Unequal) entries _ List.Pairwise.nil
    fun _ hdone entry _ => unequal_insert hdone entry.1 entry.2

end Dict

namespace Value

/-! ### Nesting -/

mutual

/-- How deep lists, vectors and dicts nest; any other value counts one. -/
def nesting : Value → Nat
  | list items => nestingOfAll items + 1
  | vector items => nestingOfAll items + 1
  | dict entries => nestingOfEntries entries + 1
  | _ => 1
termination_by structural v => v

/-- The deepest nesting of an element. -/
def nestingOfAll : List Value → Nat
  | [] => 0
  | item :: rest => max (nesting item) (nestingOfAll rest)
termination_by structural items => items

/-- The deepest nesting of a key or a value. -/
def nestingOfEntries : List (Value × Value) → Nat
  | [] => 0
  | (key, value) :: rest => max (nesting key) (max (nesting value) (nestingOfEntries rest))
termination_by structural entries => entries

end

/-- Elements nest within a bound exactly if each of them does. -/
theorem nestingOfAll_le_iff {items : List Value} {n : Nat} :
    nestingOfAll items ≤ n ↔ ∀ v ∈ items, v.nesting ≤ n := by
  induction items with
  | nil => simp [nestingOfAll]
  | cons item rest ih => rw [nestingOfAll, Nat.max_le, ih, List.forall_mem_cons]

/-- Entries nest within a bound exactly if their keys and values do. -/
theorem nestingOfEntries_le_iff {entries : List (Value × Value)} {n : Nat} :
    nestingOfEntries entries ≤ n ↔ ∀ v ∈ entryParts entries, v.nesting ≤ n := by
  induction entries with
  | nil => simp [nestingOfEntries, entryParts]
  | cons entry rest ih =>
    rw [nestingOfEntries, Nat.max_le, Nat.max_le, ih, entryParts, List.forall_mem_cons,
      List.forall_mem_cons]

/-- Every value takes a level. -/
theorem one_le_nesting (v : Value) : 1 ≤ v.nesting := by
  cases v <;> simp [nesting]

/-! ### Spelled values -/

/-- Tells that a value is of a kind that a text can spell. -/
def isSyntax : Value → Bool
  | atom _ | keyword _ | string _ | number _ | bool _ => true
  | list _ | vector _ | dict _ => true
  | null | lambda _ | lambdaRec _ _ | primFn _ | ref _ | env _ | state _ => false

/-- A value that holds nothing but what a text can spell. -/
def Syntactic (v : Value) : Prop := v.Everywhere fun w => w.isSyntax = true

/-- Tells that a value is one that a text can spell: the names of atoms and keywords
are made of their characters, and the keys of a dict are pairwise unequal. -/
def isSpelled : Value → Prop
  | atom name => Reader.isName name.toList = true
  | keyword name => name.toList ≠ [] ∧ ∀ c ∈ name.toList, Reader.isAtomChar c = true
  | dict entries => Dict.Unequal entries
  | v => v.isSyntax = true

/-- A value that is spelled at every depth. -/
def Spelled (v : Value) : Prop := v.Everywhere isSpelled

/-- What can be spelled is syntax. -/
theorem isSyntax_of_isSpelled {v : Value} (h : v.isSpelled) : v.isSyntax = true := by
  cases v <;> first | rfl | exact h

/-- A form nests deeper than its parts by one. -/
theorem nesting_le_succ_iff {v : Value} (hv : v.isSyntax = true) {n : Nat} :
    v.nesting ≤ n + 1 ↔ ∀ w ∈ v.parts, w.nesting ≤ n := by
  cases v with
  | list items => rw [nesting, Nat.add_le_add_iff_right, nestingOfAll_le_iff]; rfl
  | vector items => rw [nesting, Nat.add_le_add_iff_right, nestingOfAll_le_iff]; rfl
  | dict entries => rw [nesting, Nat.add_le_add_iff_right, nestingOfEntries_le_iff]; rfl
  | atom | keyword | string | number | bool => simp [nesting, parts]
  | _ => cases hv

/-- Tells that a value is spelled and nests at most `room` deep. -/
structure SpelledWithin (room : Nat) (v : Value) : Prop where
  spelled : v.Spelled
  nesting_le : v.nesting ≤ room

namespace SpelledWithin

variable {room : Nat} {items : List Value}

/-- A spelled value without parts takes one level. -/
theorem leaf {v : Value} (h : v.isSpelled) (hparts : v.parts = []) :
    SpelledWithin (room + 1) v where
  spelled := everywhere_iff.2 ⟨h, by simp [hparts]⟩
  nesting_le := (nesting_le_succ_iff (isSyntax_of_isSpelled h)).2 (by simp [hparts])

/-- What a value holds directly is spelled with one level less. -/
theorem of_parts {v : Value} (h : v.isSpelled) (hparts : ∀ w ∈ v.parts, SpelledWithin room w) :
    SpelledWithin (room + 1) v where
  spelled := everywhere_iff.2 ⟨h, fun w hw => (hparts w hw).spelled⟩
  nesting_le := (nesting_le_succ_iff (isSyntax_of_isSpelled h)).2
    fun w hw => (hparts w hw).nesting_le

/-- A quote takes a level more than what it quotes. -/
theorem quoted {v : Value} (h : SpelledWithin room v) : SpelledWithin (room + 1) v.quoted := by
  have hroom : room = room - 1 + 1 := by
    have := one_le_nesting v
    have := h.nesting_le
    omega
  have hquote : SpelledWithin room (atom "quote") := hroom ▸ leaf rfl rfl
  exact of_parts rfl (List.forall_mem_cons.2 ⟨hquote, List.forall_mem_singleton.2 h⟩)

/-- The entries of a dict are among the forms that it was read from. -/
theorem dict (h : ∀ v ∈ items, SpelledWithin room v) :
    SpelledWithin (room + 1) (.dict (Dict.ofEntries (Dict.pairs items))) := by
  refine of_parts (Dict.unequal_ofEntries _) ?_
  have hentries : ∀ entry ∈ Dict.pairs items,
      SpelledWithin room entry.1 ∧ SpelledWithin room entry.2 := fun entry hentry => by
    obtain ⟨hkey, hvalue⟩ := Dict.mem_of_mem_pairs hentry
    exact ⟨h _ hkey, h _ hvalue⟩
  intro w hw
  obtain ⟨entry, hmem, rfl | rfl⟩ := mem_entryParts.1 hw
  · exact (Dict.forall_mem_ofEntries hentries entry hmem).1
  · exact (Dict.forall_mem_ofEntries hentries entry hmem).2

end SpelledWithin

end Value

namespace Reader

open Value (SpelledWithin)

/-- Reading that went on after a first part had one. -/
theorem Outcome.exists_of_andThen {α β : Type} {outcome : Outcome α}
    {next : α → List Char → Outcome β} {r : β × List Char} (h : outcome.andThen next = .ok r) :
    ∃ a rest, outcome = .ok (a, rest) ∧ next a rest = .ok r := by
  rcases outcome with stop | ⟨a, rest⟩
  · cases h
  · exact ⟨a, rest, rfl, h⟩

variable {config : Config} {text rest : List Char} {room : Nat}

/-- What holds of every form that is read holds of the elements. -/
theorem forall_mem_elements {read : List Char → Outcome Value} {close : Char} {P : Value → Prop}
    (hread : ∀ {text v rest}, read text = .ok (v, rest) → P v) {bound : Nat}
    {items : List Value} (h : elements config read close bound text = .ok (items, rest)) :
    ∀ v ∈ items, P v := by
  induction bound generalizing text items rest with
  | zero => cases h
  | succ bound ih =>
    rw [elements] at h
    split at h
    · cases h
    · split at h
      · cases h
        exact List.forall_mem_nil _
      · obtain ⟨item, rest', hitem, h⟩ := Outcome.exists_of_andThen h
        obtain ⟨items', rest'', hitems, h⟩ := Outcome.exists_of_andThen h
        cases h
        exact List.forall_mem_cons.2 ⟨hread hitem, ih hitems⟩

/-- A keyword that is read can be spelled. -/
theorem spelled_keyword {v : Value} (h : keyword text = .ok (v, rest)) :
    SpelledWithin (room + 1) v := by
  simp only [keyword] at h
  split at h
  · cases h
  · next hne =>
    cases h
    refine .leaf ⟨?_, ?_⟩ rfl
    · simpa using hne
    · simpa using fun c hc => List.all_eq_true.1 List.all_takeWhile c hc

/-- A boolean that is read can be spelled. -/
theorem spelled_bool {v : Value} (h : bool? text = some (v, rest)) :
    SpelledWithin (room + 1) v := by
  unfold bool? at h
  split at h
  · split at h <;> cases h
    exact .leaf rfl rfl
  · split at h <;> cases h
    exact .leaf rfl rfl
  · cases h

/-- A number that is read can be spelled. -/
theorem spelled_number {v : Value} (h : number? text = some (.ok (v, rest))) :
    SpelledWithin (room + 1) v := by
  rw [number?_eq] at h
  dsimp only at h
  split at h
  · cases h
  · obtain ⟨-, n, rfl⟩ := eq_of_numberOutcome_eq_ok (Option.some.inj h)
    exact .leaf rfl rfl

/-- An atom that is read can be spelled. -/
theorem spelled_atom {v : Value} (h : atom? text = some (v, rest)) :
    SpelledWithin (room + 1) v := by
  unfold atom? at h
  split at h
  · cases h
  · split at h <;> cases h
    next hstart =>
    refine .leaf ?_ rfl
    rw [Value.isSpelled, String.toList_ofList, isName, hstart, Bool.true_and]
    exact List.all_takeWhile

/-- **A form is spelled at every depth and nests no deeper than its room.** -/
theorem spelled_form {v : Value} (h : form config room text = .ok (v, rest)) :
    SpelledWithin room v := by
  -- The cases follow the first character, as the reader does.
  induction room generalizing text v rest with
  | zero => cases h
  | succ room ih =>
    unfold form at h
    split at h
    · obtain ⟨quoted, rest', hquoted, h⟩ := Outcome.exists_of_andThen h
      cases h
      exact .quoted (ih hquoted)
    · obtain ⟨items, rest', hitems, h⟩ := Outcome.exists_of_andThen h
      cases h
      exact .of_parts rfl (forall_mem_elements ih hitems)
    · obtain ⟨items, rest', hitems, h⟩ := Outcome.exists_of_andThen h
      cases h
      exact .of_parts rfl (forall_mem_elements ih hitems)
    · obtain ⟨items, rest', hitems, h⟩ := Outcome.exists_of_andThen h
      split at h <;> cases h
      exact .dict (forall_mem_elements ih hitems)
    · obtain ⟨chars, rest', _, h⟩ := Outcome.exists_of_andThen h
      cases h
      exact .leaf rfl rfl
    · exact spelled_keyword h
    · split at h
      · next hbool =>
        obtain rfl := Except.ok.inj h
        exact spelled_bool hbool
      · split at h
        · next hnumber =>
          rw [h] at hnumber
          exact spelled_number hnumber
        · split at h
          · next hatom =>
            obtain rfl := Except.ok.inj h
            exact spelled_atom hatom
          · cases h

/-- Forms that are read can be spelled within the bound of the reader. -/
theorem spelled_forms {bound : Nat} {items : List Value}
    (h : forms config bound text = .ok items) :
    ∀ v ∈ items, SpelledWithin config.maxDepth v := by
  induction bound generalizing text items with
  | zero => cases h
  | succ bound ih =>
    rw [forms] at h
    split at h
    · cases h
      exact List.forall_mem_nil _
    · split at h
      · cases h
      · next hform =>
        obtain ⟨items', hitems, rfl⟩ := exists_of_map_eq_ok h
        exact List.forall_mem_cons.2 ⟨spelled_form hform, ih hitems⟩

end Reader

/-- **The form of a text** is spelled and nests no deeper than the options allow. -/
theorem spelled_readWith {config : Reader.Config} {source : String} {v : Value}
    (h : readWith config source = .ok v) : v.SpelledWithin config.maxDepth := by
  simp only [readWith, Reader.parse] at h
  split at h
  · cases h
  · split at h
    · cases h
    · next hform =>
      split at h <;> cases h
      exact Reader.spelled_form hform

/-- **The forms of a text** are spelled and nest no deeper than the options allow. -/
theorem spelled_readProgramWith {config : Reader.Config} {source : String} {items : List Value}
    (h : readProgramWith config source = .ok items) :
    ∀ v ∈ items, v.SpelledWithin config.maxDepth := by
  simp only [readProgramWith, Reader.parseProgram] at h
  rcases hforms : Reader.forms config (source.toList.length + 1) source.toList with stop | read
  · rw [hforms] at h
    cases h
  · rw [hforms] at h
    cases h
    exact Reader.spelled_forms hforms

/-- **The forms of a text hold nothing but what a text can spell.** -/
theorem syntactic_readProgram {source : String} {items : List Value}
    (h : readProgram source = .ok items) : ∀ v ∈ items, v.Syntactic := fun v hv =>
  Value.Everywhere.mono (fun _ => Value.isSyntax_of_isSpelled)
    (spelled_readProgramWith h v hv).spelled

end CapLisp
