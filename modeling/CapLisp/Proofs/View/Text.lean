/-
# The text shows the view only

The text of an environment lists its visible bindings in order, whatever its
variant, and no text shows a serial number.  So a value and its view have the
same text (`text_view`).
-/

import CapLisp.Proofs.View.Basic
import CapLisp.Value.Text

namespace CapLisp
namespace Value

/-! ### Equations

Stated by hand, since the literals in `write` are too much for the generated ones. -/

/-- An atom is written as its name. -/
theorem write_atom (name : String) (rest : List Char) :
    write (atom name) rest = name.toList ++ rest := rfl

/-- A keyword is written as its name behind a colon. -/
theorem write_keyword (name : String) (rest : List Char) :
    write (keyword name) rest = ':' :: (name.toList ++ rest) := rfl

/-- A string is written as its literal. -/
theorem write_string (text : String) (rest : List Char) :
    write (string text) rest = Literal.ofString text ++ rest := rfl

/-- A number is written in decimal notation. -/
theorem write_number (n : Int64) (rest : List Char) :
    write (number n) rest = Decimal.ofInt n.toInt ++ rest := rfl

/-- A list is written between parentheses. -/
theorem write_list (items : List Value) (rest : List Char) :
    write (list items) rest = '(' :: writeAll items (')' :: rest) := rfl

/-- A vector is written between brackets. -/
theorem write_vector (items : List Value) (rest : List Char) :
    write (vector items) rest = '[' :: writeAll items (']' :: rest) := rfl

/-- A dictionary is written between braces. -/
theorem write_dict (entries : List (Value × Value)) (rest : List Char) :
    write (dict entries) rest = '\x7b' :: writeEntries entries ('\x7d' :: rest) := rfl

/-- A closure as a value is written as the closure. -/
theorem write_lambda (fn : Closure Value) (rest : List Char) :
    write (lambda fn) rest = writeClosure fn rest := rfl

/-- A recursive closure is written with its name in front of it. -/
theorem write_lambdaRec (name : String) (fn : Closure Value) (rest : List Char) :
    write (lambdaRec name fn) rest =
      "#<rec:".toList ++ (name.toList ++ ' ' :: writeClosure fn ('>' :: rest)) := rfl

/-- A closure is written as the form that makes it. -/
theorem writeClosure_eq (fn : Closure Value) (rest : List Char) :
    writeClosure fn rest =
      "(fn [".toList ++ writeNames fn.params (']' :: writeBodies fn.bodies (')' :: rest)) := by
  cases fn
  rfl

/-- An environment as a value is written with its bindings. -/
theorem write_env (e : Env Value) (rest : List Char) :
    write (env e) rest = "#<env ".toList ++ writeEnv e ('>' :: rest) := rfl

/-- A state is written with its bindings and the number of its slots. -/
theorem write_state (s : State Value) (rest : List Char) :
    write (state s) rest = "#<state ".toList ++
      writeEnv s.env (" refs=".toList ++ (Decimal.ofNat s.refs.length ++ '>' :: rest)) := by
  obtain ⟨e, refs⟩ := s
  rfl

/-! ### Texts piece by piece -/

/-- Whether a separator is written depends only on there being more. -/
theorem separated_map {α β : Type} (f : α → β) (sep : List Char) (more : List α)
    (text : List Char) : separated sep (more.map f) text = separated sep more text := by
  cases more <;> rfl

/-- A change that keeps the texts of elements keeps that of the row. -/
theorem writeAll_map {f : Value → Value} {items : List Value}
    (h : ∀ v ∈ items, ∀ rest, write (f v) rest = write v rest) (rest : List Char) :
    writeAll (items.map f) rest = writeAll items rest := by
  induction items with
  | nil => rfl
  | cons item more ih =>
    obtain ⟨hitem, hmore⟩ := List.forall_mem_cons.1 h
    rw [List.map_cons, writeAll, writeAll, separated_map, ih hmore, hitem]

/-- A change that keeps the texts of keys and values keeps that of the entries. -/
theorem writeEntries_map {f : Value × Value → Value × Value} {entries : List (Value × Value)}
    (h : ∀ entry ∈ entries, ∀ rest, write (f entry).1 rest = write entry.1 rest ∧
      write (f entry).2 rest = write entry.2 rest) (rest : List Char) :
    writeEntries (entries.map f) rest = writeEntries entries rest := by
  induction entries with
  | nil => rfl
  | cons entry more ih =>
    obtain ⟨hentry, hmore⟩ := List.forall_mem_cons.1 h
    rw [List.map_cons, writeEntries, writeEntries, separated_map, ih hmore, (hentry _).1,
      (hentry _).2]

/-- A change that keeps the texts of bodies keeps that of the row. -/
theorem writeBodies_map {f : Value → Value} {bodies : List Value}
    (h : ∀ v ∈ bodies, ∀ rest, write (f v) rest = write v rest) (rest : List Char) :
    writeBodies (bodies.map f) rest = writeBodies bodies rest := by
  induction bodies with
  | nil => rfl
  | cons form more ih =>
    obtain ⟨hform, hmore⟩ := List.forall_mem_cons.1 h
    rw [List.map_cons, writeBodies, writeBodies, ih hmore, hform]

/-- A change that keeps the texts of values keeps that of the bindings. -/
theorem writeBindings_map {f : Value → Value} {bindings : List (String × Value)}
    (h : ∀ v ∈ bindings.map Prod.snd, ∀ rest, write (f v) rest = write v rest)
    (rest : List Char) :
    writeBindings (mapFrames f bindings) rest = writeBindings bindings rest := by
  induction bindings with
  | nil => rfl
  | cons binding more ih =>
    obtain ⟨name, value⟩ := binding
    obtain ⟨hvalue, hmore⟩ := List.forall_mem_cons.1 h
    rw [mapFrames_cons, writeBindings, writeBindings, mapFrames, separated_map, ← mapFrames,
      ih hmore, hvalue]

/-- Whether a separator is written does not depend on the order of what is to come. -/
theorem separated_reverse {α : Type} (sep : List Char) (more : List α) (text : List Char) :
    separated sep more.reverse text = separated sep more text := by
  cases hr : more.reverse with
  | nil => rw [List.reverse_eq_nil_iff.1 hr]
  | cons last others =>
    cases more with
    | nil => cases hr
    | cons first rest => rfl

/-- The last binding is written in front of what follows. -/
theorem writeBindings_append_singleton (bindings : List (String × Value)) (name : String)
    (value : Value) (rest : List Char) :
    writeBindings (bindings ++ [(name, value)]) rest =
      writeBindings bindings (separated [',', ' '] bindings
        (name.toList ++ (" => ".toList ++ write value rest))) := by
  induction bindings with
  | nil => rfl
  | cons binding more ih =>
    obtain ⟨key, first⟩ := binding
    rw [List.cons_append, writeBindings, writeBindings, ih]
    cases more <;> rfl

/-- Frames are written newest first, each in front of the newer ones, so that
the oldest one comes out first. -/
theorem writeFrames_eq (frames : List (String × Value)) (seen : List String)
    (sep rest : List Char) :
    writeFrames frames seen sep rest =
      writeBindings (Chain.newest seen frames).reverse
        (separated sep (Chain.newest seen frames) rest) := by
  induction frames generalizing seen sep rest with
  | nil => rfl
  | cons frame older ih =>
    obtain ⟨name, value⟩ := frame
    by_cases h : name ∈ seen
    · simp only [writeFrames, Chain.newest, h, ↓reduceIte, ih]
    · simp only [writeFrames, Chain.newest, h, ↓reduceIte]
      rw [ih, List.reverse_cons, writeBindings_append_singleton, separated_reverse]
      rfl

/-- **The text of an environment** lists its visible bindings in order. -/
theorem writeEnv_eq (e : Env Value) (rest : List Char) :
    writeEnv e rest = '{' :: writeBindings e.bindings ('}' :: rest) := by
  cases e with
  | persistent frames =>
    rw [writeEnv, writeFrames_eq, Env.bindings, Chain.visible]
    cases Chain.newest [] frames <;> rfl
  | mutable bindings => rfl

/-! ### Views -/

/-- A closure has the text of what is looked at, if its bodies do. -/
theorem writeClosure_viewClosure {d : Detail} {fn : Closure Value}
    (h : ∀ v ∈ fn.bodies, ∀ rest, write (v.view d) rest = write v rest) (rest : List Char) :
    writeClosure (viewClosure d fn) rest = writeClosure fn rest := by
  rw [viewClosure_eq, writeClosure_eq, writeClosure_eq, writeBodies_map h]

/-- An environment has the text of what is looked at, if its values do. -/
theorem writeEnv_viewEnv {d : Detail} {e : Env Value} (he : d = .visible → e.Distinct)
    (h : ∀ v ∈ e.values, ∀ rest, write (v.view d) rest = write v rest) (rest : List Char) :
    writeEnv (viewEnv d e) rest = writeEnv e rest := by
  have hbindings : ∀ v ∈ e.bindings.map Prod.snd, ∀ rest, write (v.view d) rest = write v rest :=
    fun v hv => h v (Env.mem_values_of_mem_bindings hv)
  rw [writeEnv_eq, writeEnv_eq, viewEnv_eq,
    Detail.bindings_env fun hd => Env.distinct_map _ (he hd), ← Env.mapFrames_bindings,
    writeBindings_map hbindings]

/-- **A regular value has the text of what is looked at.** -/
theorem write_view {d : Detail} {v : Value} (hv : v.Regular d) (rest : List Char) :
    write (v.view d) rest = write v rest := by
  induction v using inductionOnParts generalizing rest with
  | step v ih =>
  have hparts : ∀ a ∈ v.parts, ∀ rest, write (a.view d) rest = write a rest :=
    fun a ha => ih a ha (hv.inside a ha)
  cases v with
  | list items =>
    have hitems : ∀ a ∈ items, ∀ rest, write (a.view d) rest = write a rest := hparts
    rw [view_list, write_list, write_list, writeAll_map hitems]
  | vector items =>
    have hitems : ∀ a ∈ items, ∀ rest, write (a.view d) rest = write a rest := hparts
    rw [view_vector, write_vector, write_vector, writeAll_map hitems]
  | dict entries =>
    have hentries : ∀ entry ∈ entries, ∀ rest,
        write (viewEntry d entry).1 rest = write entry.1 rest ∧
        write (viewEntry d entry).2 rest = write entry.2 rest := fun entry hmem rest =>
      ⟨hparts _ (mem_entryParts.2 ⟨entry, hmem, Or.inl rfl⟩) rest,
        hparts _ (mem_entryParts.2 ⟨entry, hmem, Or.inr rfl⟩) rest⟩
    rw [view_dict, write_dict, write_dict, writeEntries_map hentries]
  | lambda fn =>
    have hbodies := fun a ha => hparts a (List.mem_append_left _ ha)
    rw [view_lambda, write_lambda, write_lambda, writeClosure_viewClosure hbodies]
  | lambdaRec name fn =>
    have hbodies := fun a ha => hparts a (List.mem_append_left _ ha)
    rw [view_lambdaRec, write_lambdaRec, write_lambdaRec, writeClosure_viewClosure hbodies]
  | env e => rw [view_env, write_env, write_env, writeEnv_viewEnv hv.here hparts]
  | state s =>
    have hvalues := fun a ha => hparts a (List.mem_append_left _ ha)
    rw [view_state, viewState_eq, write_state, write_state, List.length_map,
      writeEnv_viewEnv hv.here hvalues]
  | _ => simp

/-- **A value and its view have the same text.** -/
theorem text_view {d : Detail} {v : Value} (hv : v.Regular d) : (v.view d).text = v.text := by
  rw [text, text, write_view hv]

end Value
end CapLisp
