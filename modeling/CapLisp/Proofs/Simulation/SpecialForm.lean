/-
# Special forms agree

On related operands every form but one ends alike, whatever is held elsewhere
(`agree_specialForm`).  The form left out is `def-rec`: whether it takes a
closure depends on who else holds it.  Related code does not name it.
-/

import CapLisp.Proofs.Metadata
import CapLisp.Proofs.Simulation.Call

namespace CapLisp
namespace Simulation

open SpecialForm

variable {S : Simulation} {table : Table} {eval : Evaluator} {held held' : List Value}
  {operands operands' : List Value}

/-- Alike parameters are read as the same names. -/
theorem alike_params {items items' : List Value} (h : List.Forall₂ S.value items items')
    (seen : List String) : params seen items = params seen items' := by
  induction h generalizing seen with
  | nil => rfl
  | cons hitem _ ih =>
    cases S.alike hitem with
    | atom => rw [params, params, ih]
    | _ => rfl

/-- Making closures of alike operands agrees. -/
theorem agree_runClosure (h : List.Forall₂ S.value operands operands') :
    S.Agree S.value (runClosure operands) (runClosure operands') := by
  cases h with
  | nil => exact .fail_of_values_eq_nil rfl
  | cons hparams h =>
    cases h with
    | nil => cases S.alike hparams <;> exact .fail_of_values_eq_nil rfl
    | cons hbody hbodies =>
      cases S.alike hparams with
      | vector hitems =>
        rw [runClosure, runClosure, alike_params hitems]
        split
        · exact .fail_of_values_eq_nil rfl
        · refine .get_bind fun b b' hb => .bind .nextSerial fun serial serial' _ => .pure ?_
          exact S.of_alike (.lambda ⟨rfl, .cons hbody hbodies, S.freeze hb.env⟩)
      | _ => exact .fail_of_values_eq_nil rfl

/-- A wrong number of operands is refused alike. -/
theorem agree_arityError {form : SpecialForm} {expected : Nat}
    (hlength : operands.length = operands'.length) :
    S.Agree S.value (Action.fail (form.arityError expected operands.length))
      (Action.fail (form.arityError expected operands'.length)) := by
  rw [hlength]
  exact .fail_of_values_eq_nil rfl

/-- Quoting alike operands agrees. -/
theorem agree_runQuote (h : List.Forall₂ S.value operands operands') :
    S.Agree S.value (runQuote operands) (runQuote operands') := by
  have hlength := h.length_eq
  cases h with
  | nil => exact agree_arityError hlength
  | cons hform h =>
    cases h with
    | nil => exact .pure hform
    | cons => exact agree_arityError hlength

/-- Two targets of a definition: one name, related expressions. -/
structure AlikeTarget (S : Simulation) (target target' : String × Value) : Prop where
  name : target.1 = target'.1
  expr : S.value target.2 target'.2

/-- Alike operands have alike targets. -/
theorem outcome_target (form : SpecialForm)
    (h : List.Forall₂ S.value operands operands') :
    S.Outcome S.AlikeTarget (form.target operands) (form.target operands') := by
  have hlength := h.length_eq
  have harity : S.Outcome S.AlikeTarget
      (.error (form.arityError 2 operands.length))
      (.error (form.arityError 2 operands'.length)) := by
    rw [hlength]
    exact .of_values_eq_nil rfl
  cases h with
  | nil => exact harity
  | cons hname h =>
    cases h with
    | nil => cases S.alike hname <;> exact harity
    | cons hexpr h =>
      cases h with
      | nil =>
        cases S.alike hname with
        | atom => exact .ok ⟨rfl, hexpr⟩
        | _ => exact .of_values_eq_nil rfl
      | cons => cases S.alike hname <;> exact harity

/-- Definitions agree if evaluation does. -/
theorem agree_runDefine (heval : S.AgreeEval table eval)
    (h : List.Forall₂ S.value operands operands') :
    S.Agree S.value (runDefine eval ⟨table, held⟩ operands)
      (runDefine eval ⟨table, held'⟩ operands') := by
  refine .bind (.ofExcept (outcome_target SpecialForm.define h)) fun target target' ht => ?_
  obtain ⟨name, expr⟩ := target
  obtain ⟨name', expr'⟩ := target'
  obtain rfl : name = name' := ht.name
  refine .bind (heval _ _ _ _ ht.expr) fun value value' hvalue => ?_
  exact .bind (.define name hvalue) fun _ _ _ => .pure alike_null

/-- Alike values count as true alike. -/
theorem alike_isTruthy {v w : Value} (h : S.value v w) : v.isTruthy = w.isTruthy := by
  cases S.alike h <;> rfl

/-- Branches agree if evaluation does. -/
theorem agree_runBranch (heval : S.AgreeEval table eval)
    (h : List.Forall₂ S.value operands operands') :
    S.Agree S.value (runBranch eval ⟨table, held⟩ operands)
      (runBranch eval ⟨table, held'⟩ operands') := by
  have hlength := h.length_eq
  match operands, operands', h with
  | [test, yes, no], [test', yes', no'], .cons htest (.cons hyes (.cons hno .nil)) =>
    refine .bind (heval _ _ _ _ htest) fun value value' hvalue => ?_
    rw [alike_isTruthy hvalue]
    split
    · exact heval _ _ _ _ hyes
    · exact heval _ _ _ _ hno
  | [], [], .nil => exact agree_arityError hlength
  | [_], [_], .cons _ .nil => exact agree_arityError hlength
  | [_, _], [_, _], .cons _ (.cons _ .nil) => exact agree_arityError hlength
  | _ :: _ :: _ :: _ :: _, _ :: _ :: _ :: _ :: _, .cons _ (.cons _ (.cons _ (.cons _ _))) =>
    exact agree_arityError hlength

/-- The clauses of conditionals agree if evaluation does. -/
theorem agree_runClauses (heval : S.AgreeEval table eval) : {operands operands' : List Value} →
    List.Forall₂ S.value operands operands' →
    S.Agree S.value (runClauses eval ⟨table, held⟩ operands)
      (runClauses eval ⟨table, held'⟩ operands')
  | _, _, .nil => .pure alike_null
  | _, _, .cons _ .nil => .pure alike_null
  | _, _, .cons htest (.cons hexpr h) => by
    refine .bind (heval _ _ _ _ htest) fun value value' hvalue => ?_
    rw [alike_isTruthy hvalue]
    split
    · exact heval _ _ _ _ hexpr
    · exact agree_runClauses heval h

/-- Conditionals agree if evaluation does. -/
theorem agree_runCond (heval : S.AgreeEval table eval)
    (h : List.Forall₂ S.value operands operands') :
    S.Agree S.value (runCond eval ⟨table, held⟩ operands)
      (runCond eval ⟨table, held'⟩ operands') := by
  unfold runCond
  rw [h.length_eq]
  split
  · exact agree_runClauses heval h
  · exact .fail_of_values_eq_nil rfl

/-- The forms of modules agree if evaluation does. -/
theorem agree_runForms (heval : S.AgreeEval table eval)
    (h : List.Forall₂ S.value operands operands') :
    S.Agree (fun _ _ => True) (runForms eval ⟨table, held⟩ operands)
      (runForms eval ⟨table, held'⟩ operands') := by
  induction h with
  | nil => exact .pure trivial
  | cons hform _ ih => exact .bind (heval _ _ _ _ hform) fun _ _ _ => ih

/-! ### Modules -/

/-- A field of related dicts holds related values, or is refused alike. -/
theorem alike_field {entries others : Dict} (h : List.Forall₂ (AlikeEntry S.value) entries others)
    (key : String) (kind : Kind) :
    (∃ fault, Metadata.field entries key kind = .error fault ∧
      Metadata.field others key kind = .error fault) ∨
    ∃ v w, Metadata.field entries key kind = .ok v ∧ Metadata.field others key kind = .ok w ∧
      S.value v w := by
  have hkey : S.value (.keyword key) (.keyword key) := S.of_alike (.keyword key)
  unfold Metadata.field
  refine rel_cases (alike_find? hkey h) (fun v w hv => ?_) (Or.inl ⟨_, rfl, rfl⟩)
  by_cases hkind : w.kind = kind
  · exact Or.inr ⟨v, w, if_pos ((kind_eq hv).trans hkind), if_pos hkind, hv⟩
  · exact Or.inl ⟨_, if_neg fun hk => hkind ((kind_eq hv).symm.trans hk), if_neg hkind⟩

/-- Alike exports are read as the same names. -/
theorem alike_exportNames {items items' : List Value}
    (h : List.Forall₂ S.value items items') :
    Metadata.exportNames items = Metadata.exportNames items' := by
  induction h with
  | nil => rfl
  | cons hitem _ ih =>
    cases S.alike hitem with
    | atom => rw [Metadata.exportNames, Metadata.exportNames, ih]
    | _ => rfl

/-- **Related metadata says the same.** -/
theorem alike_ofValue {v w : Value} (h : S.value v w) :
    Metadata.ofValue v = Metadata.ofValue w := by
  cases S.alike h with
  | dict hentries =>
    rw [Metadata.ofValue, Metadata.ofValue]
    rcases alike_field hentries "module" .atom with ⟨_, hl, hr⟩ | ⟨name, name', hl, hr, hname⟩ <;>
      rw [hl, hr]
    · rfl
    rcases alike_field hentries "doc" .string with ⟨_, hl, hr⟩ | ⟨doc, doc', hl, hr, hdoc⟩ <;>
      simp only [bind, Except.bind] <;> rw [hl, hr]
    rcases alike_field hentries "exports" .vector with
      ⟨_, hl, hr⟩ | ⟨exports, exports', hl, hr, hexports⟩ <;> simp only [] <;> rw [hl, hr]
    have hatom : name.atom? = name'.atom? := by cases S.alike hname <;> rfl
    have htext : Metadata.docText doc = Metadata.docText doc' := by cases S.alike hdoc <;> rfl
    have hnames : Metadata.exportNames (Metadata.vectorItems exports) =
        Metadata.exportNames (Metadata.vectorItems exports') := by
      cases S.alike hexports with
      | vector hitems => exact alike_exportNames hitems
      | _ => rfl
    simp only [hatom, htext, hnames]
  | _ => rfl

/-- The values of a module are related where the metadata and the environments are. -/
theorem alike_toValue {v w : Value} (hv : S.value v w) {info : Metadata}
    (hinfo : Metadata.ofValue v = .ok info) {e e' : Env Value}
    (h : S.env (.mutable e.thaw) (.mutable e'.thaw)) :
    S.value (info.toValue e) (info.toValue e') := by
  have hinfo' : Metadata.ofValue w = .ok info := (alike_ofValue hv).symm.trans hinfo
  obtain ⟨entries, rfl, hname, _, hexports⟩ := Metadata.ofValue_eq_ok hinfo
  obtain ⟨others, rfl, hname', _, hexports'⟩ := Metadata.ofValue_eq_ok hinfo'
  have hkey : ∀ name, S.value (.keyword name) (.keyword name) :=
    fun name => S.of_alike (.keyword name)
  cases S.alike hv with
  | dict hentries =>
    have hself : ∀ {key found}, Dict.find? (.keyword key) entries = some found →
        Dict.find? (.keyword key) others = some found → S.value found found := by
      intro key found hl hr
      have hrel := alike_find? (hkey key) hentries
      rw [hl, hr] at hrel
      cases hrel with
      | some hfound => exact hfound
    exact S.of_alike (.dict (.cons ⟨hkey _, hself hname hname'⟩
      (.cons ⟨hkey _, alike_string _⟩ (.cons ⟨hkey _, S.of_alike (.env h)⟩
        (.cons ⟨hkey _, hself hexports hexports'⟩ .nil)))))

/-- Alike environments leave the same exports undefined. -/
theorem alike_missing (info : Metadata) {e e' : Env Value} (h : S.env e e') :
    info.missing e = info.missing e' := by
  unfold Metadata.missing
  refine List.filter_congr fun name _ => ?_
  exact rel_cases (S.lookup h name) (fun _ _ _ => rfl) rfl

/-- Modules agree if evaluation does. -/
theorem agree_runModule (heval : S.AgreeEval table eval)
    (h : List.Forall₂ S.value operands operands') :
    S.Agree S.value (runModule eval ⟨table, held⟩ operands)
      (runModule eval ⟨table, held'⟩ operands') := by
  cases h with
  | nil => exact .fail_of_values_eq_nil rfl
  | cons hmetadata hforms =>
    refine .bind (heval _ _ _ _ hmetadata) fun value value' hvalue => ?_
    rw [← alike_ofValue hvalue]
    cases hinfo : Metadata.ofValue value with
    | error fault => exact .fail (S.invalidDeclaration fault hvalue)
    | ok info =>
      refine .get_bind fun b b' hb => ?_
      refine .bind (R := S.env) (.within (S.thaw hb.env) rfl ?_) fun e e' he => ?_
      · exact .bind (agree_runForms heval hforms) fun _ _ _ =>
          .get_bind fun c c' hc => .pure hc.env
      · rw [← alike_missing info he]
        split
        · exact .pure (alike_toValue hvalue hinfo (S.thaw he))
        · exact .fail_of_values_eq_nil rfl

/-- **Every special form but `def-rec` agrees** on related operands. -/
theorem agree_specialForm (heval : S.AgreeEval table eval) {form : SpecialForm}
    (hform : form ≠ defineRec) (h : List.Forall₂ S.value operands operands') :
    S.Agree S.value (form.run eval ⟨table, held⟩ operands)
      (form.run eval ⟨table, held'⟩ operands') := by
  cases form with
  | closure => exact agree_runClosure h
  | quote => exact agree_runQuote h
  | define => exact agree_runDefine heval h
  | defineRec => exact absurd rfl hform
  | sequence => exact agree_evalBody heval alike_null h
  | branch => exact agree_runBranch heval h
  | cond => exact agree_runCond heval h
  | module => exact agree_runModule heval h

end Simulation
end CapLisp
