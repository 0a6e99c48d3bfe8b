/-
# Sequences by their elements

A list is walked cell by cell, a vector is indexed and the characters of a string are
counted, yet a sequence is known by two things: its kind and the list of its elements
(`Value.Comprises`).  What is read of it is read of that list (`Sequence.ReadsAs`), and
what the operations on sequences come to is said in terms of it (`CallsOnElements`).

| call | elements of the result | otherwise |
| --- | --- | --- |
| `take n` | the first `n` | refused if `n` is negative or above the length |
| `drop n` | all but the first `n` | refused if `n` is negative or above the length |
| `nth n` | the first of `drop n` | refused if `n` is negative or not below the length |
| `cons x` | `x` in front | |
| `first`, `rest` | the first, all but the first | refused if there is none |
| `add-right x` | `x` behind | refused for a list |

The counts of the language are signed words.  They name a position of the list if they
are not negative, however large.
-/

import CapLisp.Proofs.Signatures

namespace CapLisp

/-- Tells that a value is the sequence of a kind with the given elements. -/
structure Value.Comprises (v : Value) (kind : Kind) (items : List Value) : Prop where
  kind : v.kind = kind
  elements : v.sequence?.map Sequence.elements = some items

namespace Value

/-- A list comprises its elements. -/
theorem comprises_list (items : List Value) : (Value.list items).Comprises .list items := ⟨rfl, rfl⟩

/-- A vector comprises its elements. -/
theorem comprises_vector (items : List Value) : (Value.vector items).Comprises .vector items :=
  ⟨rfl, rfl⟩

/-- A string comprises its characters as strings. -/
theorem comprises_string (characters : List Char) :
    (Value.string (String.ofList characters)).Comprises .string
      (characters.map Sequence.ofChar) := by
  refine ⟨rfl, ?_⟩
  rw [sequence?, String.toList_ofList]
  rfl

/-- A value that is a sequence comprises its elements. -/
theorem comprises_of_sequence? {v : Value} {s : Sequence} (h : v.sequence? = some s) :
    v.Comprises v.kind s.elements :=
  ⟨rfl, congrArg (Option.map Sequence.elements) h⟩

end Value

/-- Different characters are different strings. -/
theorem Sequence.ofChar_injective {c d : Char} (h : Sequence.ofChar c = Sequence.ofChar d) :
    c = d := by
  have htext : (String.singleton c).toList = (String.singleton d).toList :=
    congrArg String.toList (Value.string.inj h)
  rw [String.toList_singleton, String.toList_singleton] at htext
  exact List.head_eq_of_cons_eq htext

/-- **A sequence is determined by its kind and its elements.** -/
theorem Value.Comprises.eq {v w : Value} {kind : Kind} {items : List Value}
    (hv : v.Comprises kind items) (hw : w.Comprises kind items) : v = w := by
  have hkind : v.kind = w.kind := hv.kind.trans hw.kind.symm
  have helements : v.sequence?.map Sequence.elements = w.sequence?.map Sequence.elements :=
    hv.elements.trans hw.elements.symm
  have hsome := hv.elements
  cases v with
  | list items =>
    cases w with
    | list items' => exact congrArg Value.list (Option.some.inj helements)
    | _ => cases hkind
  | vector items =>
    cases w with
    | vector items' => exact congrArg Value.vector (Option.some.inj helements)
    | _ => cases hkind
  | string text =>
    cases w with
    | string text' =>
      have hchars : text.toList = text'.toList :=
        (List.map_injective_iff.2 fun _ _ => Sequence.ofChar_injective) (Option.some.inj helements)
      exact congrArg Value.string (String.toList_inj.1 hchars)
    | _ => cases hkind
  | _ => cases hsome

/-! ### Reading a sequence -/

namespace Sequence

/-- What is read of a sequence of a kind, by the list of its elements. -/
structure ReadsAs (s : Sequence) (kind : Kind) (items : List Value) : Prop where
  length : s.length = items.length
  nth : ∀ index, s.nth? index = items[index]?
  slice : ∀ start stop, start ≤ stop.getD items.length → stop.getD items.length ≤ items.length →
    ∃ part, s.slice? start stop = some part ∧
      part.Comprises kind (items.extract start (stop.getD items.length))
  slice_none : ∀ start stop,
    ¬ (start ≤ stop.getD items.length ∧ stop.getD items.length ≤ items.length) →
      s.slice? start stop = none

/-- A slice within the elements is cut out. -/
theorem slice?_of_fits {α : Type} {xs : List α} {start stop : Nat}
    (h : start ≤ stop ∧ stop ≤ xs.length) :
    CapLisp.slice? xs start stop = some (xs.extract start stop) :=
  (if_pos h).trans (congrArg some (List.extract_eq_take_drop ..).symm)

/-- A change of the elements commutes with cutting out a slice. -/
theorem extract_map {α β : Type} (f : α → β) (xs : List α) (start stop : Nat) :
    (xs.map f).extract start stop = (xs.extract start stop).map f := by
  rw [List.extract_eq_take_drop, List.extract_eq_take_drop, List.map_take, List.map_drop]

/-- **The three kinds are read as one.** -/
theorem readsAs {v : Value} {s : Sequence} (h : v.sequence? = some s) :
    s.ReadsAs v.kind s.elements := by
  refine ⟨(length_elements s).symm, fun index => (getElem?_elements s index).symm, ?_, ?_⟩
  · intro start stop hstart hstop
    rw [length_elements] at hstart hstop ⊢
    cases v with
    | list items =>
      cases h
      refine ⟨_, ?_, Value.comprises_list _⟩
      exact (congrArg (Option.map Value.list) (sliceList?_eq ..)).trans
        (congrArg (Option.map Value.list) (slice?_of_fits ⟨hstart, hstop⟩))
    | vector items =>
      cases h
      exact ⟨_, congrArg (Option.map Value.vector) (slice?_of_fits ⟨hstart, hstop⟩),
        Value.comprises_vector _⟩
    | string text =>
      cases h
      rw [elements, extract_map]
      refine ⟨_, ?_, Value.comprises_string _⟩
      exact (congrArg (Option.map _) (sliceText?_eq ..)).trans
        (congrArg (Option.map _) (slice?_of_fits ⟨hstart, hstop⟩))
    | _ => cases h
  · intro start stop hfits
    rw [length_elements] at hfits
    cases s with
    | list items =>
      exact congrArg (Option.map Value.list) ((sliceList?_eq ..).trans (if_neg hfits))
    | vector items => exact congrArg (Option.map Value.vector) (if_neg hfits)
    | text characters => exact congrArg (Option.map _) ((sliceText?_eq ..).trans (if_neg hfits))

namespace ReadsAs

variable {s : Sequence} {kind : Kind} {items : List Value} {count : Nat}

/-- The front of a sequence comprises the first elements. -/
theorem front (h : s.ReadsAs kind items) (hcount : count ≤ items.length) :
    ∃ part, s.slice? 0 (some count) = some part ∧ part.Comprises kind (items.take count) := by
  obtain ⟨part, hpart, hitems⟩ := h.slice 0 (some count) (Nat.zero_le _) hcount
  rw [List.extract_eq_take_drop, Option.getD_some, Nat.sub_zero, List.drop_zero] at hitems
  exact ⟨part, hpart, hitems⟩

/-- The back of a sequence comprises the last elements. -/
theorem back (h : s.ReadsAs kind items) (hcount : count ≤ items.length) :
    ∃ part, s.slice? count none = some part ∧ part.Comprises kind (items.drop count) := by
  obtain ⟨part, hpart, hitems⟩ := h.slice count none hcount (Nat.le_refl _)
  rw [List.extract_eq_take_drop, Option.getD_none,
    List.take_of_length_le (Nat.le_of_eq List.length_drop)] at hitems
  exact ⟨part, hpart, hitems⟩

/-- There is no front longer than the sequence. -/
theorem front_none (h : s.ReadsAs kind items) (hcount : ¬ count ≤ items.length) :
    s.slice? 0 (some count) = none :=
  h.slice_none 0 (some count) fun hfits => hcount hfits.2

/-- There is no back behind the end of the sequence. -/
theorem back_none (h : s.ReadsAs kind items) (hcount : ¬ count ≤ items.length) :
    s.slice? count none = none :=
  h.slice_none count none fun hfits => hcount hfits.1

end ReadsAs

end Sequence

/-! ### Calling the operations on sequences -/

/-- The operations on sequences. -/
def Operation.sequential : List Operation :=
  [length, take, drop, nth, cons, first, rest, addRight]

/-- The refusal of a count of `op` that no part of a sequence of the given length fits;
`short` is the failure of a count that is too large. -/
def Operation.refusedCount (op : Operation) (short : Nat → Nat → Failure) (n : Int64)
    (length : Nat) : Error :=
  .failed (if n.toInt < 0 then .negativeIndex op.name n else short n.toInt.toNat length)

/-- What the operations that count come to on the sequence `v` of the given elements,
where `call` calls an operation from the bindings `b`. -/
structure CountedCalls (call : Operation → List Value → Except Error Value × Bindings)
    (b : Bindings) (v : Value) (items : List Value) : Prop where
  length : (items.length : Int) ≤ Int64.maxValue.toInt →
    ∃ n : Int64, n.toInt = items.length ∧ call .length [v] = (.ok (.number n), b)
  split : ∀ n : Int64, 0 ≤ n.toInt → n.toInt ≤ items.length →
    ∃ front back ahead behind, call .take [.number n, v] = (.ok front, b) ∧
      call .drop [.number n, v] = (.ok back, b) ∧ front.Comprises v.kind ahead ∧
      back.Comprises v.kind behind ∧ ahead.length = n.toInt ∧ ahead ++ behind = items
  take_refused : ∀ n : Int64, ¬ (0 ≤ n.toInt ∧ n.toInt ≤ items.length) →
    call .take [.number n, v] =
      (.error (Operation.take.refusedCount .shortTake n items.length), b)
  drop_refused : ∀ n : Int64, ¬ (0 ≤ n.toInt ∧ n.toInt ≤ items.length) →
    call .drop [.number n, v] =
      (.error (Operation.drop.refusedCount .shortDrop n items.length), b)
  nth : ∀ n : Int64, 0 ≤ n.toInt → n.toInt < items.length →
    ∃ item back behind, items[n.toInt.toNat]? = some item ∧
      call .nth [.number n, v] = (.ok item, b) ∧ call .drop [.number n, v] = (.ok back, b) ∧
      back.Comprises v.kind (item :: behind)
  nth_refused : ∀ n : Int64, ¬ (0 ≤ n.toInt ∧ n.toInt < items.length) →
    call .nth [.number n, v] =
      (.error (Operation.nth.refusedCount .indexRange n items.length), b)

/-- What the operations at an end come to on the sequence `v` of the given elements,
where `call` calls an operation from the bindings `b`. -/
structure EndCalls (call : Operation → List Value → Except Error Value × Bindings)
    (b : Bindings) (v : Value) (items : List Value) : Prop where
  cons : ArgKind.listLike.accepts v = true → ∀ item,
    ∃ w, call .cons [item, v] = (.ok w, b) ∧ w.Comprises v.kind (item :: items)
  first_rest : ArgKind.listLike.accepts v = true → ∀ item behind, items = item :: behind →
    call .first [v] = (.ok item, b) ∧
      ∃ w, call .rest [v] = (.ok w, b) ∧ w.Comprises v.kind behind
  empty : ArgKind.listLike.accepts v = true → items = [] →
    call .first [v] = (.error (.failed (.emptySequence Operation.first.name)), b) ∧
      call .rest [v] = (.error (.failed (.emptySequence Operation.rest.name)), b)
  addRight : v.kind = .vector → ∀ item,
    ∃ w, call .addRight [v, item] = (.ok w, b) ∧ w.Comprises .vector (items ++ [item])
  addRight_refused : v.kind = .list → ∀ item,
    call .addRight [v, item] =
      (.error (.wrongKind Operation.addRight.name (.is .vector) .list), b)

namespace Operation

/-- A number that is not negative is a position. -/
theorem position_of_nonneg {op : Operation} {n : Int64} (h : 0 ≤ n.toInt) :
    op.position n = .ok n.toInt.toNat := by
  rw [position, if_neg]
  rw [Int64.lt_iff_toInt_lt, Int64.toInt_zero]
  omega

/-- A negative number is no position. -/
theorem position_of_neg {op : Operation} {n : Int64} (h : n.toInt < 0) :
    op.position n = .error (.failed (.negativeIndex op.name n)) := by
  rw [position, if_pos]
  rwa [Int64.lt_iff_toInt_lt, Int64.toInt_zero]

variable {v : Value} {s : Sequence} {n : Int64}

/-- What a function of a position comes to, at a position that the count names. -/
theorem counted_of_nonneg {op : Operation} (hs : v.sequence? = some s) (h : 0 ≤ n.toInt)
    (f : Nat → Sequence → Except Error Value) :
    (op.position n >>= fun count => op.onSequence v (f count)) = f n.toInt.toNat s := by
  rw [position_of_nonneg h]
  exact onSequence_eq hs _

/-- A count that is refused, for being negative or by the function of the position. -/
theorem counted_refused {op : Operation} (hs : v.sequence? = some s)
    {f : Nat → Sequence → Except Error Value} {short : Nat → Nat → Failure}
    (h : 0 ≤ n.toInt → f n.toInt.toNat s = .error (.failed (short n.toInt.toNat s.length))) :
    (op.position n >>= fun count => op.onSequence v (f count)) =
      .error (op.refusedCount short n s.length) := by
  by_cases hn : n.toInt < 0
  · rw [position_of_neg hn, refusedCount, if_pos hn]
    rfl
  · rw [counted_of_nonneg hs (Int.not_lt.1 hn), h (Int.not_lt.1 hn), refusedCount, if_neg hn]

/-- The length of a sequence is a number, if it is in range. -/
theorem result_length (hs : v.sequence? = some s)
    (hrange : (s.length : Int) ≤ Int64.maxValue.toInt) :
    ∃ n : Int64, n.toInt = s.length ∧ result length [v] = .ok (.number n) := by
  have hfound : Number.ofInt? s.length = some (Int64.ofInt s.length) := by
    refine if_pos ⟨?_, hrange⟩
    rw [Int64.toInt_minValue]
    omega
  refine ⟨_, Number.toInt_of_ofInt? hfound, (onSequence_eq hs _).trans ?_⟩
  simp only [hfound]

/-- `take` gives the front of the given length. -/
theorem result_take {part : Value} (hs : v.sequence? = some s) (hn : 0 ≤ n.toInt)
    (h : s.slice? 0 (some n.toInt.toNat) = some part) : result take [.number n, v] = .ok part := by
  refine (counted_of_nonneg hs hn _).trans ?_
  rw [h]

/-- `drop` gives the back from the given position. -/
theorem result_drop {part : Value} (hs : v.sequence? = some s) (hn : 0 ≤ n.toInt)
    (h : s.slice? n.toInt.toNat none = some part) : result drop [.number n, v] = .ok part := by
  refine (counted_of_nonneg hs hn _).trans ?_
  rw [h]

/-- `nth` gives the element at the given position. -/
theorem result_nth {item : Value} (hs : v.sequence? = some s) (hn : 0 ≤ n.toInt)
    (h : s.nth? n.toInt.toNat = some item) : result nth [.number n, v] = .ok item := by
  refine (counted_of_nonneg hs hn _).trans ?_
  rw [h]

/-- `length` takes any sequence. -/
theorem check_length (hs : v.sequence? = some s) :
    (Primitive.operation length).check [v] = .ok () := by
  have hv : ArgKind.sequence.accepts v = true := ArgKind.accepts_sequence.2 ⟨s, hs⟩
  exact Signature.check_eq_ok_iff.2 ⟨rfl, Bool.and_eq_true_iff.2 ⟨hv, rfl⟩⟩

/-- Accepted counts are numbers in front of sequences. -/
theorem check_counted {op : Operation} (hop : op.signature = ⟨.exact 2, [.is .number, .sequence]⟩)
    (hs : v.sequence? = some s) : (Primitive.operation op).check [.number n, v] = .ok () := by
  have hv : ArgKind.sequence.accepts v = true := ArgKind.accepts_sequence.2 ⟨s, hs⟩
  refine Signature.check_eq_ok_iff.2 ?_
  rw [Primitive.signature, hop]
  exact ⟨rfl, Bool.and_eq_true_iff.2 ⟨rfl, Bool.and_eq_true_iff.2 ⟨hv, rfl⟩⟩⟩

end Operation

section

variable {table : Table} {eval : Evaluator} {held args : List Value} {b : Bindings}

variable {v : Value} {s : Sequence}

/-- The operations that count through a sequence agree with its elements. -/
theorem countedCalls (hgrants : ∀ op ∈ Operation.sequential, table.Grants (.operation op))
    (hs : v.sequence? = some s) :
    CountedCalls (fun op args => (op.call eval ⟨table, held⟩ args).run b) b v s.elements := by
  have hreads := Sequence.readsAs hs
  have htake : ∀ n, (Operation.take.call eval ⟨table, held⟩ [.number n, v]).run b =
      (Operation.take.result [.number n, v], b) := fun n =>
    run_call_pure (hgrants .take (by decide)) (Operation.check_counted rfl hs) rfl
  have hdrop : ∀ n, (Operation.drop.call eval ⟨table, held⟩ [.number n, v]).run b =
      (Operation.drop.result [.number n, v], b) := fun n =>
    run_call_pure (hgrants .drop (by decide)) (Operation.check_counted rfl hs) rfl
  have hnth : ∀ n, (Operation.nth.call eval ⟨table, held⟩ [.number n, v]).run b =
      (Operation.nth.result [.number n, v], b) := fun n =>
    run_call_pure (hgrants .nth (by decide)) (Operation.check_counted rfl hs) rfl
  refine ⟨?length, ?split, ?take_refused, ?drop_refused, ?nth, ?nth_refused⟩
  case length =>
    intro hrange
    obtain ⟨n, hn, hresult⟩ := Operation.result_length hs (hreads.length ▸ hrange)
    refine ⟨n, hreads.length ▸ hn, ?_⟩
    rw [run_call_pure (hgrants .length (by decide)) (Operation.check_length hs) rfl, hresult]
  case split =>
    intro n hn hlength
    have hcount : n.toInt.toNat ≤ s.elements.length := by omega
    obtain ⟨front, hfront, hahead⟩ := hreads.front hcount
    obtain ⟨back, hback, hbehind⟩ := hreads.back hcount
    refine ⟨front, back, _, _, ?_, ?_, hahead, hbehind, ?_, List.take_append_drop ..⟩
    · rw [htake, Operation.result_take hs hn hfront]
    · rw [hdrop, Operation.result_drop hs hn hback]
    · rw [List.length_take_of_le hcount, Int.toNat_of_nonneg hn]
  case take_refused =>
    intro n hn
    rw [htake, hreads.length.symm]
    refine congrArg (·, b) (Operation.counted_refused hs fun hnonneg => ?_)
    rw [hreads.front_none (by omega)]
  case drop_refused =>
    intro n hn
    rw [hdrop, hreads.length.symm]
    refine congrArg (·, b) (Operation.counted_refused hs fun hnonneg => ?_)
    rw [hreads.back_none (by omega)]
  case nth =>
    intro n hn hlength
    have hcount : n.toInt.toNat < s.elements.length := by omega
    obtain ⟨back, hback, hbehind⟩ := hreads.back (Nat.le_of_lt hcount)
    have hitem := List.getElem?_eq_getElem hcount
    refine ⟨_, back, _, hitem, ?_, ?_, List.drop_eq_getElem_cons hcount ▸ hbehind⟩
    · rw [hnth, Operation.result_nth hs hn ((hreads.nth _).trans hitem)]
    · rw [hdrop, Operation.result_drop hs hn hback]
  case nth_refused =>
    intro n hn
    rw [hnth, hreads.length.symm]
    refine congrArg (·, b) (Operation.counted_refused hs fun hnonneg => ?_)
    rw [hreads.nth, List.getElem?_eq_none (by omega)]

/-- The operations at the ends of a sequence agree with its elements. -/
theorem endCalls (hgrants : ∀ op ∈ Operation.sequential, table.Grants (.operation op))
    (hs : v.sequence? = some s) :
    EndCalls (fun op args => (op.call eval ⟨table, held⟩ args).run b) b v s.elements := by
  have hcons := hgrants .cons (by decide)
  have hfirst := hgrants .first (by decide)
  have hrest := hgrants .rest (by decide)
  have hright := hgrants .addRight (by decide)
  -- Of the values whose elements are known, the lists and vectors are left.
  cases v with
  | list items =>
    cases hs
    refine ⟨fun _ item => ⟨_, run_call_pure hcons rfl rfl, Value.comprises_list _⟩, ?_, ?_, nofun,
      fun _ item => run_call_refused hright rfl⟩
    · rintro - item behind ⟨⟩
      exact ⟨run_call_pure hfirst rfl rfl, _, run_call_pure hrest rfl rfl, Value.comprises_list _⟩
    · rintro - ⟨⟩
      exact ⟨run_call_pure hfirst rfl rfl, run_call_pure hrest rfl rfl⟩
  | vector items =>
    cases hs
    refine ⟨fun _ item => ⟨_, run_call_pure hcons rfl rfl, Value.comprises_vector _⟩, ?_, ?_,
      fun _ item => ⟨_, run_call_pure hright rfl rfl, Value.comprises_vector _⟩, nofun⟩
    · rintro - item behind ⟨⟩
      exact ⟨run_call_pure hfirst rfl rfl, _, run_call_pure hrest rfl rfl, Value.comprises_vector _⟩
    · rintro - ⟨⟩
      exact ⟨run_call_pure hfirst rfl rfl, run_call_pure hrest rfl rfl⟩
  | string text => exact ⟨nofun, nofun, nofun, nofun, nofun⟩
  | _ => cases hs

end

/-- **Lists, vectors and strings are one kind of sequence.**  What is read of a sequence
value is read of the list of its elements, in the kind of the value; and under a table
that grants the operations on sequences, at any depth and in any bindings, each of them
does to the value what it does to that list.  `add-right` is for vectors alone. -/
theorem sequence_refines_elements {table : Table}
    (hgrants : ∀ op ∈ Operation.sequential, table.Grants (.operation op)) (eval : Evaluator)
    (held : List Value) (b : Bindings) {v : Value} {s : Sequence} (hs : v.sequence? = some s) :
    v.Comprises v.kind s.elements ∧ s.ReadsAs v.kind s.elements ∧
      CountedCalls (fun op args => (op.call eval ⟨table, held⟩ args).run b) b v s.elements ∧
      EndCalls (fun op args => (op.call eval ⟨table, held⟩ args).run b) b v s.elements :=
  ⟨Value.comprises_of_sequence? hs, Sequence.readsAs hs, countedCalls hgrants hs,
    endCalls hgrants hs⟩

/-- A text whose characters take one and two bytes. -/
theorem sequence_refines_elements_text :
    let v : Value := .string "aλb"
    let s : Sequence := .text ['a', 'λ', 'b']
    let call := fun (op : Operation) (args : List Value) =>
      (op.call (Eval.eval 4) ⟨Table.shipped, []⟩ args).run .empty
    (∀ op ∈ Operation.sequential, Table.shipped.Grants (.operation op)) ∧
    v.sequence? = some s ∧ s.elements = [.string "a", .string "λ", .string "b"] ∧
    s.ReadsAs .string s.elements ∧ CountedCalls call .empty v s.elements ∧
    EndCalls call .empty v s.elements := by
  intro v s call
  have hgrants : ∀ op ∈ Operation.sequential, Table.shipped.Grants (.operation op) := by
    intro op _
    cases op <;> rfl
  have hs : v.sequence? = some s := by rfl
  obtain ⟨-, hreads, hcounted, hend⟩ :=
    sequence_refines_elements hgrants (Eval.eval 4) [] .empty hs
  exact ⟨hgrants, hs, by rfl, hreads, hcounted, hend⟩

/-- A list is a sequence, but nothing is put behind it. -/
theorem addRight_refuses_list :
    let v : Value := .list [.number 1]
    let r := (Operation.addRight.call (Eval.eval 4) ⟨Table.shipped, []⟩ [v, .number 2]).run .empty
    v.Comprises .list [.number 1] ∧
    r = (.error (.wrongKind Operation.addRight.name (.is .vector) .list), .empty) ∧
    ∀ w, w.Comprises .list ([.number 1] ++ [.number 2]) → r.1 ≠ .ok w := by
  intro v r
  have hr : r = (.error (.wrongKind Operation.addRight.name (.is .vector) .list), .empty) := by rfl
  refine ⟨Value.comprises_list _, hr, fun w _ hw => ?_⟩
  rw [hr] at hw
  cases hw

end CapLisp
