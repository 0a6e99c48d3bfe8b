/-
# What the metadata of a module says

Metadata is read off three entries of a dict (`ofValue_eq_ok`), and the value
of a module states it again, next to the environment (`toValue_eq`,
`exists_toValue`).
-/

import CapLisp.Eval.SpecialForm
import CapLisp.Proofs.Arguments

namespace CapLisp

/-- A computation that ends well went through a value of its first step. -/
theorem exists_of_bind_eq_ok {ε α β : Type} {x : Except ε α} {next : α → Except ε β} {b : β}
    (h : x >>= next = .ok b) : ∃ a, x = .ok a ∧ next a = .ok b := by
  cases x with
  | ok a => exact ⟨a, rfl, h⟩
  | error e => cases h

/-- What is mapped over an outcome that ends well. -/
theorem exists_of_map_eq_ok {ε α β : Type} {x : Except ε α} {f : α → β} {b : β}
    (h : x.map f = .ok b) : ∃ a, x = .ok a ∧ f a = b := by
  cases x with
  | ok a => exact ⟨a, rfl, Except.ok.inj h⟩
  | error e => cases h

/-- Changing the error of an outcome makes none end well. -/
theorem eq_ok_of_mapError_eq_ok {ε ε' α : Type} {x : Except ε α} {f : ε → ε'} {a : α}
    (h : x.mapError f = .ok a) : x = .ok a := by
  cases x with
  | ok b => exact congrArg Except.ok (Except.ok.inj h)
  | error e => cases h

namespace SpecialForm.Metadata

/-- Exported names were written as atoms. -/
theorem eq_map_atom_of_exportNames {items : List Value} {names : List String}
    (h : exportNames items = .ok names) : items = names.map .atom := by
  induction items generalizing names with
  | nil =>
    obtain rfl := Except.ok.inj h
    rfl
  | cons item rest ih =>
    cases item with
    | atom name =>
      obtain ⟨others, hothers, rfl⟩ := exists_of_map_eq_ok h
      rw [List.map_cons, ← ih hothers]
    | _ => cases h

/-- A field that is read is there and of its kind. -/
theorem field_eq_ok {entries : Dict} {key : String} {kind : Kind} {v : Value}
    (h : field entries key kind = .ok v) :
    Dict.find? (.keyword key) entries = some v ∧ v.kind = kind := by
  rw [field] at h
  split at h
  · cases h
  · next value hfind =>
    split at h
    · next hkind =>
      obtain rfl := Except.ok.inj h
      exact ⟨hfind, hkind⟩
    · cases h

/-- **Metadata that a value states** are three entries of a dict. -/
theorem ofValue_eq_ok {v : Value} {info : Metadata} (h : ofValue v = .ok info) :
    ∃ entries, v = .dict entries ∧
      Dict.find? (.keyword "module") entries = some (.atom info.name) ∧
      Dict.find? (.keyword "doc") entries = some (.string info.doc) ∧
      Dict.find? (.keyword "exports") entries = some (.vector (info.exports.map .atom)) := by
  cases v with
  | dict entries =>
    obtain ⟨name, hname, h⟩ := exists_of_bind_eq_ok h
    obtain ⟨doc, hdoc, h⟩ := exists_of_bind_eq_ok h
    obtain ⟨exports, hexports, h⟩ := exists_of_bind_eq_ok h
    obtain ⟨names, hnames, h⟩ := exists_of_bind_eq_ok h
    obtain rfl := Except.ok.inj h
    obtain ⟨hname, hkind⟩ := field_eq_ok hname
    obtain ⟨name, rfl⟩ := Value.eq_atom_of_kind hkind
    obtain ⟨hdoc, hkind⟩ := field_eq_ok hdoc
    obtain ⟨doc, rfl⟩ := Value.eq_string_of_kind hkind
    obtain ⟨hexports, hkind⟩ := field_eq_ok hexports
    obtain ⟨exports, rfl⟩ := Value.eq_vector_of_kind hkind
    rw [vectorItems] at hnames
    refine ⟨entries, rfl, hname, hdoc, ?_⟩
    rw [hexports, eq_map_atom_of_exportNames hnames]
  | _ => cases h

/-- **The value of a module** is a dict of four entries, put in one after another. -/
theorem toValue_eq (info : Metadata) (e : Env Value) :
    info.toValue e = .dict (Dict.ofEntries [
      (.keyword "module", .atom info.name),
      (.keyword "doc", .string info.doc),
      (.keyword "env", .env (.mutable e.thaw)),
      (.keyword "exports", .vector (info.exports.map .atom))]) := by
  simp [toValue, Dict.ofEntries, Dict.insert, Value.beq_eq, Value.beq]

/-- Atoms are read as the names they are. -/
theorem exportNames_map_atom (names : List String) : exportNames (names.map .atom) = .ok names := by
  induction names with
  | nil => rfl
  | cons name rest ih =>
    rw [List.map_cons, exportNames, ih]
    rfl

/-- **The value of a module states its metadata**, next to the environment. -/
theorem exists_toValue (info : Metadata) (e : Env Value) :
    ∃ entries, info.toValue e = .dict entries ∧ ofValue (.dict entries) = .ok info ∧
      Dict.find? (.keyword "env") entries = some (.env (.mutable e.thaw)) := by
  refine ⟨_, rfl, ?_, rfl⟩
  have hfields : ofValue (info.toValue e) = exportNames (info.exports.map .atom) >>= fun exports =>
      .ok ⟨info.name, info.doc, exports⟩ := rfl
  rw [exportNames_map_atom] at hfields
  exact hfields

end SpecialForm.Metadata
end CapLisp
