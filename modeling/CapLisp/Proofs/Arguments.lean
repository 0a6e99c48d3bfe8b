/-
# The arguments that operations run on

A signature check that passes fixes what the arguments of an operation look
like.  `Operation.Fits` lists the shapes, one constructor for each way in which
an operation reads its arguments, and `fits_of_check` says that there are no
others.  What holds of an operation's result is proved shape by shape from it.
-/

import CapLisp.Primitive.Table
import Mathlib.Data.List.Forall2

namespace CapLisp

namespace Value

variable {v : Value}

/-- A value of the kind of atoms is an atom. -/
theorem eq_atom_of_kind (h : v.kind = .atom) : ∃ name, v = .atom name := by
  cases v <;> simp_all [kind]

/-- A value of the kind of numbers is a number. -/
theorem eq_number_of_kind (h : v.kind = .number) : ∃ n, v = .number n := by
  cases v <;> simp_all [kind]

/-- A value of the kind of booleans is a boolean. -/
theorem eq_bool_of_kind (h : v.kind = .boolean) : ∃ b, v = .bool b := by
  cases v <;> simp_all [kind]

/-- A value of the kind of strings is a string. -/
theorem eq_string_of_kind (h : v.kind = .string) : ∃ text, v = .string text := by
  cases v <;> simp_all [kind]

/-- A value of the kind of vectors is a vector. -/
theorem eq_vector_of_kind (h : v.kind = .vector) : ∃ items, v = .vector items := by
  cases v <;> simp_all [kind]

/-- A value of the kind of dictionaries is a dictionary. -/
theorem eq_dict_of_kind (h : v.kind = .dict) : ∃ entries, v = .dict entries := by
  cases v <;> simp_all [kind]

/-- A value of the kind of references is a reference. -/
theorem eq_ref_of_kind (h : v.kind = .ref) : ∃ index, v = .ref index := by
  cases v <;> simp_all [kind]

/-- A value of the kind of states is a state. -/
theorem eq_state_of_kind (h : v.kind = .state) : ∃ s, v = .state s := by
  cases v <;> simp_all [kind]

end Value

namespace Signature

/-- Tells whether each argument is of the kind asked for at its position. -/
def acceptsAll : List ArgKind → List Value → Bool
  | expected :: kinds, arg :: args => expected.accepts arg && acceptsAll kinds args
  | _, _ => true

/-- The check of the kinds passes exactly if every argument is of its kind. -/
theorem checkKinds_eq_ok_iff {op : String} {kinds : List ArgKind} {args : List Value} :
    checkKinds op kinds args = .ok () ↔ acceptsAll kinds args = true := by
  induction kinds generalizing args with
  | nil => simp [checkKinds, acceptsAll]
  | cons expected kinds ih =>
    cases args with
    | nil => simp [checkKinds, acceptsAll]
    | cons arg args =>
      rw [checkKinds, acceptsAll, Bool.and_eq_true]
      by_cases h : expected.accepts arg = true
      · rw [if_pos h, ih]
        exact ⟨fun hk => ⟨h, hk⟩, And.right⟩
      · rw [if_neg h]
        exact ⟨nofun, fun hk => absurd hk.1 h⟩

/-- **A check passes** if the count fits the arity and each argument its kind. -/
theorem check_eq_ok_iff {op : String} {args : List Value} {signature : Signature} :
    signature.check op args = .ok () ↔
      signature.arity.accepts args.length = true ∧ acceptsAll signature.kinds args = true := by
  unfold check Arity.validate
  by_cases h : signature.arity.accepts args.length = true
  · rw [if_pos h, ← @checkKinds_eq_ok_iff op]
    exact ⟨fun hk => ⟨h, hk⟩, And.right⟩
  · rw [if_neg h]
    exact ⟨nofun, fun hk => absurd hk.1 h⟩

/-- A check refuses either the count of the arguments or the kind of one. -/
theorem check_eq_error {op : String} {args : List Value} {signature : Signature} {e : Error}
    (h : signature.check op args = .error e) :
    (∃ expected actual, e = .wrongNumberArgs op expected actual) ∨
      ∃ expected actual, e = .wrongKind op expected actual := by
  have hkinds : ∀ kinds args, checkKinds op kinds args = .error e →
      ∃ expected actual, e = .wrongKind op expected actual := by
    intro kinds args hk
    fun_induction checkKinds op kinds args with
    | case1 expected kinds arg args _ ih => exact ih hk
    | case2 expected kinds arg args _ =>
      cases hk
      exact ⟨expected, arg.kind, rfl⟩
    | case3 => cases hk
  unfold check Arity.validate at h
  split at h
  · exact Or.inr (hkinds _ _ h)
  · cases h
    exact Or.inl ⟨_, _, rfl⟩

end Signature

namespace ArgKind

variable {v : Value}

/-- A single kind accepts the values of that kind. -/
theorem accepts_is {kind : Kind} : (ArgKind.is kind).accepts v = true ↔ v.kind = kind := by
  simp [accepts]

/-- Lists and vectors are what is like a list. -/
theorem accepts_listLike : ArgKind.listLike.accepts v = true ↔
    (∃ items, v = .list items) ∨ ∃ items, v = .vector items := by
  cases v <;> simp [accepts, Value.kind]

/-- A sequence is accepted exactly if the value can be taken as one. -/
theorem accepts_sequence : ArgKind.sequence.accepts v = true ↔ ∃ s, v.sequence? = some s := by
  simp [accepts, Option.isSome_iff_exists]

/-- Lists, vectors and strings can be taken as sequences, and nothing else. -/
theorem isSome_sequence? : v.sequence?.isSome =
    (v.kind == .list || v.kind == .vector || v.kind == .string) := by
  cases v <;> rfl

/-- What is asked of an argument is asked of its kind. -/
theorem accepts_congr {w : Value} (expected : ArgKind) (h : v.kind = w.kind) :
    expected.accepts v = expected.accepts w := by
  cases expected with
  | any => rfl
  | is kind => rw [accepts, accepts, h]
  | listLike => rw [accepts, accepts, h]
  | sequence => rw [accepts, accepts, isSome_sequence?, isSome_sequence?, h]

end ArgKind

/-- **A signature looks at the kinds of the arguments only.** -/
theorem Signature.check_congr (op : String) (signature : Signature) {vs ws : List Value}
    (h : List.Forall₂ (fun v w => v.kind = w.kind) vs ws) :
    signature.check op vs = signature.check op ws := by
  have hkinds : ∀ kinds, checkKinds op kinds vs = checkKinds op kinds ws := by
    induction h with
    | nil => exact fun _ => rfl
    | cons hv _ ih =>
      intro kinds
      cases kinds with
      | nil => rfl
      | cons expected kinds =>
        rw [checkKinds, checkKinds, ArgKind.accepts_congr expected hv, hv, ih]
  rw [check, check, h.length_eq, hkinds]

namespace Operation

/-- The arguments that an operation reads. -/
inductive Fits : Operation → List Value → Prop
  | throw (label : String) (payload : Value) : Fits throw [.atom label, payload]
  | list (args : List Value) : Fits list args
  | dict (args : List Value) : Fits dict args
  | eq (a b : Value) : Fits eq [a, b]
  | cons_list (head : Value) (items : List Value) : Fits cons [head, .list items]
  | cons_vector (head : Value) (items : List Value) : Fits cons [head, .vector items]
  | first_list (items : List Value) : Fits first [.list items]
  | first_vector (items : List Value) : Fits first [.vector items]
  | rest_list (items : List Value) : Fits rest [.list items]
  | rest_vector (items : List Value) : Fits rest [.vector items]
  | length {v : Value} {s : Sequence} (h : v.sequence? = some s) : Fits length [v]
  | take (n : Int64) {v : Value} {s : Sequence} (h : v.sequence? = some s) :
    Fits take [.number n, v]
  | drop (n : Int64) {v : Value} {s : Sequence} (h : v.sequence? = some s) :
    Fits drop [.number n, v]
  | nth (n : Int64) {v : Value} {s : Sequence} (h : v.sequence? = some s) :
    Fits nth [.number n, v]
  | addRight (items : List Value) (v : Value) : Fits addRight [.vector items, v]
  | lookup (key : Value) (entries : Dict) : Fits lookup [key, .dict entries]
  | insert (key value : Value) (entries : Dict) : Fits insert [key, value, .dict entries]
  | ref (v : Value) : Fits ref [v]
  | readRef (index : UInt64) : Fits readRef [.ref index]
  | writeRef (index : UInt64) (v : Value) : Fits writeRef [.ref index, v]
  | add (m n : Int64) : Fits add [.number m, .number n]
  | sub (m n : Int64) : Fits sub [.number m, .number n]
  | mul (m n : Int64) : Fits mul [.number m, .number n]
  | lt (m n : Int64) : Fits lt [.number m, .number n]
  | gt (m n : Int64) : Fits gt [.number m, .number n]
  | not (b : Bool) : Fits not [.bool b]
  | stringAppend (args : List Value) : Fits stringAppend args
  | pureState : Fits pureState []
  | currentState : Fits currentState []
  | stateEnv (s : State Value) : Fits stateEnv [.state s]

/-- **Arguments that pass the check of an operation have one of the shapes.** -/
theorem fits_of_check {op : Operation} {args : List Value}
    (h : op.signature.check op.name args = .ok ()) : op.Fits args := by
  obtain ⟨hcount, hkinds⟩ := Signature.check_eq_ok_iff.1 h
  -- The count first: it says how many arguments to take apart.
  cases op <;>
    simp only [signature, Arity.accepts, beq_iff_eq, List.length_eq_zero_iff,
      List.length_eq_one_iff, List.length_eq_two, List.length_eq_three] at hcount
  case list => exact .list args
  case dict => exact .dict args
  case stringAppend => exact .stringAppend args
  case pureState => exact hcount ▸ .pureState
  case currentState => exact hcount ▸ .currentState
  case ref =>
    obtain ⟨v, rfl⟩ := hcount
    exact .ref v
  case eq =>
    obtain ⟨a, b, rfl⟩ := hcount
    exact .eq a b
  case insert =>
    obtain ⟨key, value, v, rfl⟩ := hcount
    simp only [signature, Signature.acceptsAll, Bool.and_eq_true, ArgKind.accepts_is] at hkinds
    obtain ⟨entries, rfl⟩ := Value.eq_dict_of_kind hkinds.2.2.1
    exact .insert key value entries
  case first | rest =>
    obtain ⟨v, rfl⟩ := hcount
    simp only [signature, Signature.acceptsAll, Bool.and_eq_true, ArgKind.accepts_listLike]
      at hkinds
    obtain ⟨items, rfl⟩ | ⟨items, rfl⟩ := hkinds.1 <;> constructor
  case length =>
    obtain ⟨v, rfl⟩ := hcount
    simp only [signature, Signature.acceptsAll, Bool.and_eq_true, ArgKind.accepts_sequence]
      at hkinds
    obtain ⟨s, hs⟩ := hkinds.1
    exact .length hs
  case readRef =>
    obtain ⟨v, rfl⟩ := hcount
    simp only [signature, Signature.acceptsAll, Bool.and_eq_true, ArgKind.accepts_is] at hkinds
    obtain ⟨index, rfl⟩ := Value.eq_ref_of_kind hkinds.1
    exact .readRef index
  case not =>
    obtain ⟨v, rfl⟩ := hcount
    simp only [signature, Signature.acceptsAll, Bool.and_eq_true, ArgKind.accepts_is] at hkinds
    obtain ⟨b, rfl⟩ := Value.eq_bool_of_kind hkinds.1
    exact .not b
  case stateEnv =>
    obtain ⟨v, rfl⟩ := hcount
    simp only [signature, Signature.acceptsAll, Bool.and_eq_true, ArgKind.accepts_is] at hkinds
    obtain ⟨s, rfl⟩ := Value.eq_state_of_kind hkinds.1
    exact .stateEnv s
  -- Two arguments each, told apart by the kinds that are checked.
  all_goals
    obtain ⟨a, b, rfl⟩ := hcount
    simp only [signature, Signature.acceptsAll, Bool.and_eq_true, ArgKind.accepts_is,
      ArgKind.accepts_listLike, ArgKind.accepts_sequence] at hkinds
  case throw =>
    obtain ⟨label, rfl⟩ := Value.eq_atom_of_kind hkinds.1
    exact .throw label b
  case cons => obtain ⟨items, rfl⟩ | ⟨items, rfl⟩ := hkinds.2.1 <;> constructor
  case take | drop | nth =>
    obtain ⟨n, rfl⟩ := Value.eq_number_of_kind hkinds.1
    obtain ⟨s, hs⟩ := hkinds.2.1
    constructor
    exact hs
  case addRight =>
    obtain ⟨items, rfl⟩ := Value.eq_vector_of_kind hkinds.1
    exact .addRight items b
  case lookup =>
    obtain ⟨entries, rfl⟩ := Value.eq_dict_of_kind hkinds.2.1
    exact .lookup a entries
  case writeRef =>
    obtain ⟨index, rfl⟩ := Value.eq_ref_of_kind hkinds.1
    exact .writeRef index b
  case add | sub | mul | lt | gt =>
    obtain ⟨m, rfl⟩ := Value.eq_number_of_kind hkinds.1
    obtain ⟨n, rfl⟩ := Value.eq_number_of_kind hkinds.2.1
    constructor

end Operation

/-- The arguments that a primitive reads. -/
inductive Primitive.Fits : Primitive → List Value → Prop
  | baseEval (expr : Value) (s : State Value) : Fits baseEval [expr, .state s]
  | apply_list (func : Value) (args : List Value) : Fits apply [func, .list args]
  | apply_vector (func : Value) (args : List Value) : Fits apply [func, .vector args]
  | operation {op : Operation} {args : List Value} (h : op.Fits args) : Fits (operation op) args
  | host (name : String) (signature : Signature) (steps : List Value → Procedure)
    (args : List Value) : Fits (host name signature steps) args

/-- Arguments that pass the check of a primitive have one of the shapes. -/
theorem Primitive.fits_of_check {p : Primitive} {args : List Value}
    (h : p.check args = .ok ()) : p.Fits args := by
  cases p with
  | operation op => exact .operation (Operation.fits_of_check h)
  | host name signature steps => exact .host name signature steps args
  | baseEval =>
    obtain ⟨hcount, hkinds⟩ := Signature.check_eq_ok_iff.1 h
    simp only [signature, Arity.accepts, beq_iff_eq, List.length_eq_two] at hcount
    obtain ⟨expr, v, rfl⟩ := hcount
    simp only [signature, Signature.acceptsAll, Bool.and_eq_true, ArgKind.accepts_is] at hkinds
    obtain ⟨s, rfl⟩ := Value.eq_state_of_kind hkinds.2.1
    exact .baseEval expr s
  | apply =>
    obtain ⟨hcount, hkinds⟩ := Signature.check_eq_ok_iff.1 h
    simp only [signature, Arity.accepts, beq_iff_eq, List.length_eq_two] at hcount
    obtain ⟨func, v, rfl⟩ := hcount
    simp only [signature, Signature.acceptsAll, Bool.and_eq_true, ArgKind.accepts_listLike]
      at hkinds
    obtain ⟨items, rfl⟩ | ⟨items, rfl⟩ := hkinds.2.1
    · exact .apply_list func items
    · exact .apply_vector func items

end CapLisp
