/-
# What holds everywhere in a value

`Everywhere P v` says that `P` holds of `v` and of every value inside it: of
elements, keys and values, of the code and the scope of closures, of frames
(shadowed ones included) and of slots, at any depth.  What a program can get
hold of starting from a value is inside it, so a limit on what may occur in a
value is stated as what holds everywhere in it.

Proofs about all values go by induction on the parts (`inductionOnParts`).
-/

import CapLisp.Dict
import CapLisp.Proofs.Frames
import CapLisp.Value.Parts

namespace CapLisp
namespace Value

/-- **Induction on parts.**  What holds of a value once it holds of all its
parts holds of every value. -/
theorem inductionOnParts {motive : Value → Prop}
    (step : ∀ v : Value, (∀ w ∈ v.parts, motive w) → motive v) (v : Value) : motive v :=
  step v fun w _ => inductionOnParts step w
termination_by v.size
decreasing_by exact size_lt_of_mem_parts ‹_›

/-- Tells that `P` holds of a value and of every value inside it. -/
inductive Everywhere (P : Value → Prop) : Value → Prop
  | intro {v : Value} (here : P v) (inside : ∀ w ∈ v.parts, Everywhere P w) : Everywhere P v

variable {P Q : Value → Prop}

/-- A property holds everywhere in a value if it holds there and everywhere in its parts. -/
theorem everywhere_iff {v : Value} :
    Everywhere P v ↔ P v ∧ ∀ w ∈ v.parts, Everywhere P w :=
  ⟨fun ⟨here, inside⟩ => ⟨here, inside⟩, fun ⟨here, inside⟩ => ⟨here, inside⟩⟩

/-- What holds everywhere in a value holds of the value. -/
theorem Everywhere.here {v : Value} (h : Everywhere P v) : P v := (everywhere_iff.1 h).1

/-- What holds everywhere in a value holds everywhere in its parts. -/
theorem Everywhere.inside {v : Value} (h : Everywhere P v) : ∀ w ∈ v.parts, Everywhere P w :=
  (everywhere_iff.1 h).2

/-- A weaker property holds wherever a stronger one does. -/
theorem Everywhere.mono (himp : ∀ v, P v → Q v) {v : Value} (h : Everywhere P v) :
    Everywhere Q v := by
  induction h with
  | intro here _ ih => exact ⟨himp _ here, ih⟩

/-- Two properties that hold everywhere hold everywhere together. -/
theorem Everywhere.and {v : Value} (hP : Everywhere P v) (hQ : Everywhere Q v) :
    Everywhere (fun w => P w ∧ Q w) v := by
  induction hP with
  | intro here _ ih => exact ⟨⟨here, hQ.here⟩, fun w hw => ih w hw (hQ.inside w hw)⟩

/-- Tells that a value is, or stands somewhere inside, another one. -/
inductive Inside (w : Value) : Value → Prop
  | here : Inside w w
  | part {u v : Value} (hu : u ∈ v.parts) (h : Inside w u) : Inside w v

/-- What is inside a part is inside the whole. -/
theorem Inside.trans {u v w : Value} (hvw : Inside v w) (huv : Inside u v) : Inside u w := by
  induction hvw with
  | here => exact huv
  | part hu _ ih => exact .part hu ih

/-- What holds everywhere in a value is what holds of all that is inside it. -/
theorem everywhere_iff_inside {v : Value} : Everywhere P v ↔ ∀ w, Inside w v → P w := by
  constructor
  · intro h w hw
    induction hw with
    | here => exact h.here
    | part hu _ ih => exact ih (h.inside _ hu)
  · intro h
    induction v using inductionOnParts with
    | step v ih => exact .intro (h v .here) fun w hw => ih w hw fun u hu => h u (.part hw hu)

/-- The parts of entries are their keys and values. -/
theorem mem_entryParts {w : Value} {entries : List (Value × Value)} :
    w ∈ entryParts entries ↔ ∃ entry ∈ entries, w = entry.1 ∨ w = entry.2 := by
  induction entries with
  | nil => simp [entryParts]
  | cons entry rest ih => simp [entryParts, ih, or_assoc]

/-! ### Kind by kind -/

/-- An atom has no parts. -/
@[simp] theorem everywhere_atom {name : String} :
    Everywhere P (.atom name) ↔ P (.atom name) := by
  rw [everywhere_iff]; simp [parts]

/-- A keyword has no parts. -/
@[simp] theorem everywhere_keyword {name : String} :
    Everywhere P (.keyword name) ↔ P (.keyword name) := by
  rw [everywhere_iff]; simp [parts]

/-- A string has no parts. -/
@[simp] theorem everywhere_string {text : String} :
    Everywhere P (.string text) ↔ P (.string text) := by
  rw [everywhere_iff]; simp [parts]

/-- A number has no parts. -/
@[simp] theorem everywhere_number {n : Int64} :
    Everywhere P (.number n) ↔ P (.number n) := by
  rw [everywhere_iff]; simp [parts]

/-- A boolean has no parts. -/
@[simp] theorem everywhere_bool {b : Bool} : Everywhere P (.bool b) ↔ P (.bool b) := by
  rw [everywhere_iff]; simp [parts]

/-- Null has no parts. -/
@[simp] theorem everywhere_null : Everywhere P .null ↔ P .null := by
  rw [everywhere_iff]; simp [parts]

/-- The name of a primitive has no parts. -/
@[simp] theorem everywhere_primFn {name : String} :
    Everywhere P (.primFn name) ↔ P (.primFn name) := by
  rw [everywhere_iff]; simp [parts]

/-- A reference has no parts; its slot is not one. -/
@[simp] theorem everywhere_ref {index : UInt64} :
    Everywhere P (.ref index) ↔ P (.ref index) := by
  rw [everywhere_iff]; simp [parts]

/-- The parts of a list are its elements. -/
@[simp] theorem everywhere_list {items : List Value} :
    Everywhere P (.list items) ↔ P (.list items) ∧ ∀ w ∈ items, Everywhere P w := by
  rw [everywhere_iff]; rfl

/-- The parts of a vector are its elements. -/
@[simp] theorem everywhere_vector {items : List Value} :
    Everywhere P (.vector items) ↔ P (.vector items) ∧ ∀ w ∈ items, Everywhere P w := by
  rw [everywhere_iff]; rfl

/-- The parts of a dictionary are its keys and values. -/
@[simp] theorem everywhere_dict {entries : List (Value × Value)} :
    Everywhere P (.dict entries) ↔ P (.dict entries) ∧
      ∀ entry ∈ entries, Everywhere P entry.1 ∧ Everywhere P entry.2 := by
  rw [everywhere_iff]
  refine and_congr_right fun _ => ?_
  constructor
  · intro h entry hmem
    exact ⟨h _ (mem_entryParts.2 ⟨entry, hmem, Or.inl rfl⟩),
      h _ (mem_entryParts.2 ⟨entry, hmem, Or.inr rfl⟩)⟩
  · intro h w hw
    obtain ⟨entry, hmem, rfl | rfl⟩ := mem_entryParts.1 hw
    · exact (h entry hmem).1
    · exact (h entry hmem).2

/-- What holds everywhere in the code and the scope of a closure. -/
def EverywhereInClosure (P : Value → Prop) (fn : Closure Value) : Prop :=
  (∀ w ∈ fn.bodies, Everywhere P w) ∧ ∀ w ∈ fn.scope.map Prod.snd, Everywhere P w

/-- A weaker property holds in a closure wherever a stronger one does. -/
theorem EverywhereInClosure.imp (himp : ∀ v, P v → Q v) {fn : Closure Value}
    (h : EverywhereInClosure P fn) : EverywhereInClosure Q fn :=
  ⟨fun w hw => (h.1 w hw).mono himp, fun w hw => (h.2 w hw).mono himp⟩

/-- The parts of a closure are its bodies and the values of its scope. -/
theorem forall_mem_closureParts {fn : Closure Value} :
    (∀ w ∈ closureParts fn, Everywhere P w) ↔ EverywhereInClosure P fn := by
  simp only [closureParts, List.mem_append, or_imp, forall_and]
  rfl

/-- A closure as a value has the parts of the closure. -/
@[simp] theorem everywhere_lambda {fn : Closure Value} :
    Everywhere P (.lambda fn) ↔ P (.lambda fn) ∧ EverywhereInClosure P fn := by
  rw [everywhere_iff, ← forall_mem_closureParts]; rfl

/-- A recursive closure has the parts of the closure. -/
@[simp] theorem everywhere_lambdaRec {name : String} {fn : Closure Value} :
    Everywhere P (.lambdaRec name fn) ↔ P (.lambdaRec name fn) ∧ EverywhereInClosure P fn := by
  rw [everywhere_iff, ← forall_mem_closureParts]; rfl

/-- The parts of an environment are its values, shadowed ones too. -/
@[simp] theorem everywhere_env {e : Env Value} :
    Everywhere P (.env e) ↔ P (.env e) ∧ ∀ w ∈ e.values, Everywhere P w := by
  rw [everywhere_iff]; rfl

/-- The parts of a state are the values of its environment and its slots. -/
@[simp] theorem everywhere_state {s : State Value} :
    Everywhere P (.state s) ↔ P (.state s) ∧
      (∀ w ∈ s.env.values, Everywhere P w) ∧ ∀ w ∈ s.refs, Everywhere P w := by
  rw [everywhere_iff]
  simp only [parts, List.mem_append, or_imp, forall_and]

end Value

namespace Dict

/-- A look-up finds the value of an entry of equal key. -/
theorem exists_mem_of_find? {key value : Value} {entries : Dict}
    (h : find? key entries = some value) :
    ∃ entry ∈ entries, (key == entry.1) = true ∧ entry.2 = value := by
  induction entries with
  | nil => cases h
  | cons entry rest ih =>
    obtain ⟨other, found⟩ := entry
    rw [find?] at h
    split at h
    · next hkey => exact ⟨(other, found), List.mem_cons_self .., hkey, Option.some.inj h⟩
    · obtain ⟨entry, hmem, he⟩ := ih h
      exact ⟨entry, List.mem_cons_of_mem _ hmem, he⟩

/-- An entry after an insertion has its key and its value from before, or from
what was inserted. -/
theorem mem_insert_cases {key value : Value} {entries : Dict} {entry : Value × Value}
    (h : entry ∈ insert key value entries) :
    (entry.1 = key ∨ ∃ old ∈ entries, entry.1 = old.1) ∧ (entry.2 = value ∨ entry ∈ entries) := by
  induction entries with
  | nil =>
    obtain rfl := List.mem_singleton.1 h
    exact ⟨Or.inl rfl, Or.inl rfl⟩
  | cons first rest ih =>
    obtain ⟨other, old⟩ := first
    rw [insert] at h
    split at h
    · rcases List.mem_cons.1 h with rfl | h
      · exact ⟨Or.inr ⟨_, List.mem_cons_self .., rfl⟩, Or.inl rfl⟩
      · exact ⟨Or.inr ⟨entry, List.mem_cons_of_mem _ h, rfl⟩, Or.inr (List.mem_cons_of_mem _ h)⟩
    · rcases List.mem_cons.1 h with rfl | h
      · exact ⟨Or.inr ⟨_, List.mem_cons_self .., rfl⟩, Or.inr (List.mem_cons_self ..)⟩
      · obtain ⟨hkey, hvalue⟩ := ih h
        refine ⟨hkey.imp_right ?_, hvalue.imp_right (List.mem_cons_of_mem _)⟩
        rintro ⟨old, hold, he⟩
        exact ⟨old, List.mem_cons_of_mem _ hold, he⟩

/-- Inserting keeps what holds of all keys and values. -/
theorem forall_mem_insert {Q : Value → Prop} {key value : Value} {entries : Dict}
    (hkey : Q key) (hvalue : Q value) (h : ∀ entry ∈ entries, Q entry.1 ∧ Q entry.2) :
    ∀ entry ∈ insert key value entries, Q entry.1 ∧ Q entry.2 := by
  intro entry hmem
  obtain ⟨hk, hv⟩ := mem_insert_cases hmem
  constructor
  · rcases hk with hk | ⟨old, hold, hk⟩
    · rwa [hk]
    · rw [hk]
      exact (h old hold).1
  · rcases hv with hv | hv
    · rwa [hv]
    · exact (h entry hv).2

/-- The keys and values of pairs are among the arguments that were paired. -/
theorem mem_of_mem_pairs {args : List Value} {entry : Value × Value} (h : entry ∈ pairs args) :
    entry.1 ∈ args ∧ entry.2 ∈ args := by
  fun_induction pairs args with
  | case1 key value rest ih =>
    rcases List.mem_cons.1 h with rfl | h
    · simp
    · obtain ⟨hkey, hvalue⟩ := ih h
      simp [hkey, hvalue]
  | case2 => simp at h

end Dict
end CapLisp
