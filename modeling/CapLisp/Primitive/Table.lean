/-
# Capability tables

A table lists the primitives that a program can reach, in the order of their
registration, each under its own name.  An atom that names an entry evaluates
to a reference to it, whatever the environment says, and the reference is
looked up again when it is called; so a table without an entry takes the
capability away.

The shipped catalog:

| group | primitives |
| --- | --- |
| evaluation | `base-eval`, `apply`, `throw` |
| constructors, equality | `list`, `dict`, `eq?` |
| sequences | `cons`, `first`, `rest`, `length`, `take`, `drop`, `nth`, `add-right` |
| dicts | `lookup`, `insert` |
| references | `ref`, `read-ref`, `write-ref` |
| numbers, booleans, strings | `+`, `-`, `*`, `<`, `>`, `not`, `string-append` |
| states | `pure-state`, `get-current-state`, `state-env` |

A host adds primitives of its own as procedures.  A procedure is a tree of
steps, so that what it may do with the bindings is plain from its type: it
looks names up, defines names, evaluates expressions and applies functions.
-/

import CapLisp.Primitive.Operation
import CapLisp.Value.Inspect

namespace CapLisp

/-- What a host procedure does on given arguments.  Each step but the last says
how to go on from its outcome; `kept` lists the values that the procedure
itself holds on to while a step runs, besides its arguments, and `frames` is the
number of procedures that the stack of the host takes inside an application. -/
inductive Procedure where
  | done (outcome : Except Error Value)
  | lookup (name : String) (next : Option Value → Procedure)
  | define (name : String) (value : Value) (next : Procedure)
  | eval (expr : Value) (kept : List Value) (next : Except Error Value → Procedure)
  | apply (frames : Nat) (func : Value) (args : List Value) (kept : List Value)
      (next : Except Error Value → Procedure)

/-- A primitive: one of the shipped ones or one of the host's. -/
inductive Primitive where
  | baseEval
  | apply
  | operation (op : Operation)
  | host (name : String) (signature : Signature) (procedure : List Value → Procedure)

namespace Primitive

/-- The name that a primitive is registered under. -/
def name : Primitive → String
  | baseEval => "base-eval"
  | apply => "apply"
  | operation op => op.name
  | host name _ _ => name

/-- The arguments of a primitive. -/
def signature : Primitive → Signature
  | baseEval => ⟨.exact 2, [.any, .is .state]⟩
  | apply => ⟨.exact 2, [.any, .listLike]⟩
  | operation op => op.signature
  | host _ signature _ => signature

/-- Checks the arguments of a call. -/
def check (p : Primitive) (args : List Value) : Except Error Unit := p.signature.check p.name args

/-- The shipped catalog in order. -/
def catalog : List Primitive := baseEval :: apply :: Operation.all.map operation

/-- The inspected form of a primitive. -/
def inspect (p : Primitive) : String :=
  "Primitive \x7b name: " ++ String.ofList (Literal.inspectedString p.name) ++
    ", arity: " ++ p.signature.arity.inspect ++
    ", kinds: [" ++ ", ".intercalate (p.signature.kinds.map ArgKind.inspect) ++ "], .. \x7d"

end Primitive

/-- The primitives that a program can reach, in the order of registration. -/
abbrev Table := List Primitive

namespace Table

/-- The entry of the given name. -/
def find? (name : String) (table : Table) : Option Primitive :=
  List.find? (fun p => p.name == name) table

/-- Tells whether there is an entry of the given name. -/
def contains (name : String) (table : Table) : Bool := (find? name table).isSome

/-- The names of the entries in order. -/
def names (table : Table) : List String := table.map Primitive.name

/-- Adds an entry: one of the same name is replaced in its place. -/
def register (p : Primitive) : Table → Table
  | [] => [p]
  | q :: rest => if q.name = p.name then p :: rest else q :: register p rest

/-- The table without the entries of the given names. -/
def without (names : List String) (table : Table) : Table :=
  table.filter fun p => !names.contains p.name

/-- The table that grants the shipped catalog. -/
def shipped : Table := Primitive.catalog

/-- A registered primitive is found under its name, in front of any other of that name. -/
theorem find?_register (p : Primitive) (name : String) (table : Table) :
    find? name (register p table) = if p.name = name then some p else find? name table := by
  induction table with
  | nil => by_cases h : p.name = name <;> simp [register, find?, h]
  | cons q rest ih =>
    by_cases hq : q.name = p.name
    · by_cases h : p.name = name <;> simp [register, find?, hq, h]
    · by_cases h : q.name = name
      · subst h
        simp [register, find?, hq, Ne.symm hq]
      · simpa [register, find?, hq, h] using ih

end Table
end CapLisp
