/-
# Dict literals and the `dict` primitive

A dict is put together in three places: by the reader from the forms of a literal,
by evaluation from their values, and by `dict` from its arguments.  Each of them
collapses equal keys: the first key stays in its place, with the last value.

A literal means what the call means that has the same forms for operands, with two
reservations.

* The reader collapses before anything is evaluated.  So a literal means the call on
  the forms that are left, which are all of them if no two key forms are equal.
* Evaluation lets go of a key that equals an earlier one, and of the value that it
  replaces, while a call holds all its arguments.  A `def-rec` can tell, and nothing
  else.

The second one needs a key that comes up twice (`Eval.keysApart`) and a `def-rec`
behind it.
-/

import CapLisp.Proofs.Applications
import CapLisp.Proofs.Invariant.Hosts
import CapLisp.Proofs.Reader.Concatenation
import CapLisp.Proofs.Variants

namespace CapLisp

/-! ### Reading -/

namespace Reader

variable {config : Config} {room : Nat} {forms : List Value} {texts : List String}

/-- Tells that a text is that of one form, which nests at most `room` deep. -/
def IsForm (config : Config) (room : Nat) (v : Value) (text : List Char) : Prop :=
  form config room text = .ok (v, [])

/-- Texts with a space between neighbours are a row. -/
theorem row_of_texts {comments : Bool} {spells : Value → List Char → Prop}
    (h : List.Forall₂ (fun v text => spells v text.toList) forms texts) :
    Row comments spells forms (" ".intercalate texts).toList := by
  rw [String.toList_intercalate]
  induction h with
  | nil => exact .nil
  | @cons v text _ _ hv hrest ih =>
    cases hrest with
    | nil =>
      simp only [List.map_cons, List.map_nil, List.intercalate, List.intersperse,
        List.flatten_cons, List.flatten_nil, List.append_nil]
      exact .last hv
    | cons =>
      simp only [List.map_cons, List.intercalate, List.intersperse_cons_cons,
        List.flatten_cons] at ih ⊢
      exact .cons hv (.intro rfl .nil) ih

/-- Forms between delimiters are read. -/
theorem elements_of_texts {close : Char} (hclose : isCloser close = true)
    (h : List.Forall₂ (fun v text => IsForm config room v text.toList) forms texts) :
    elements config (form config room) close
        (((" ".intercalate texts).toList ++ [close]).length + 1)
        ((" ".intercalate texts).toList ++ [close]) = .ok (forms, []) := by
  refine elements_of_gap close forms hclose (fun _ _ _ => opens_of_form) ?_ .nil (row_of_texts h) []
  intro v _ text rest htext hrest
  exact form_append_of_eq htext fun _ => hrest

/-- A text that spells one form is parsed as it. -/
theorem parse_of_isForm {v : Value} {text : List Char} (h : IsForm config config.maxDepth v text) :
    parse config text = .ok v := by
  have hopens := opens_of_form h
  rw [parse, hopens.skip_eq]
  split
  · cases hopens
  · simp only [show form config config.maxDepth text = .ok (v, []) from h, skip]

/-- A text that spells one form is read as it. -/
theorem read_of_isForm {source : String} {v : Value}
    (h : IsForm .default maxParseDepth v source.toList) : read source = .ok v := by
  rw [read, readWith, parse_of_isForm h]
  rfl

/-- **A dict literal reads as the dict of its forms**, with equal keys collapsed. -/
theorem read_literal
    (h : List.Forall₂ (fun v text => IsForm .default (maxParseDepth - 1) v text.toList)
      forms texts)
    (heven : forms.length % 2 = 0) :
    read ("\x7b" ++ " ".intercalate texts ++ "\x7d") =
      .ok (.dict (Dict.ofEntries (Dict.pairs forms))) := by
  have htext : ("\x7b" ++ " ".intercalate texts ++ "\x7d").toList =
      '\x7b' :: ((" ".intercalate texts).toList ++ ['\x7d']) := by
    simp only [String.toList_append]
    rfl
  refine read_of_isForm ?_
  rw [htext, IsForm, show maxParseDepth = maxParseDepth - 1 + 1 from rfl, form_dict,
    List.length_cons, elements_of_texts rfl h]
  exact if_pos heven

/-- A list reads as the list of its forms. -/
theorem read_list
    (h : List.Forall₂ (fun v text => IsForm .default (maxParseDepth - 1) v text.toList)
      forms texts) :
    read ("(" ++ " ".intercalate texts ++ ")") = .ok (.list forms) := by
  have htext : ("(" ++ " ".intercalate texts ++ ")").toList =
      '(' :: ((" ".intercalate texts).toList ++ [')']) := by
    simp only [String.toList_append]
    rfl
  refine read_of_isForm ?_
  rw [htext, IsForm, show maxParseDepth = maxParseDepth - 1 + 1 from rfl, form_list,
    List.length_cons, elements_of_texts rfl h]
  rfl

end Reader

/-! ### What is held -/

/-- The parts of two runs of entries follow one another. -/
theorem Value.entryParts_append (entries more : Dict) :
    entryParts (entries ++ more) = entryParts entries ++ entryParts more := by
  induction entries with
  | nil => rfl
  | cons entry rest ih => simp only [List.cons_append, entryParts, ih]

/-- A dict holds what its keys and values hold. -/
theorem Value.holds_dict (serial : Nat) (entries : Dict) :
    holds serial (.dict entries) = (entryParts entries).any (holds serial) := by
  rw [holds_eq]
  rfl

/-- A list holds what its elements hold. -/
theorem Value.holds_list (serial : Nat) (items : List Value) :
    holds serial (.list items) = items.any (holds serial) := by
  rw [holds_eq]
  rfl

namespace Invariant

variable {table : Table} {I : Invariant table} {held held' : List Value}

/-- A dict holds the key and the value of a new entry, as well as the entries before. -/
theorem HeldAlike.insert {key value : Value} {done : Dict}
    (h : I.HeldAlike (.dict done :: held) held')
    (hnew : ∀ entry ∈ done, (key == entry.1) = false) :
    I.HeldAlike (.dict (Dict.insert key value done) :: held) (value :: key :: held') := by
  intro n fn hname hfn
  have hdone := h n fn hname hfn
  simp only [List.any_cons, Value.holds_dict] at hdone ⊢
  rw [Dict.insert_of_unequal hnew, Value.entryParts_append, List.any_append, ← hdone]
  simp only [Value.entryParts, List.any_cons, List.any_nil, Bool.or_false]
  ac_rfl

end Invariant

/-! ### Running -/

/-- Tells whether the keys of a dict come up unequal when its entries are evaluated in
order from the given bindings, up to one that fails. -/
def Eval.keysApart (eval : Evaluator) (ctx : Context) : (done : Dict) → Dict → Bindings → Bool
  | _, [], _ => true
  | done, (key, value) :: rest, b =>
    match (eval (ctx.hold (.dict done)) key).run b with
    | (.error _, _) => true
    | (.ok key, b) =>
      done.all (fun entry => !(key == entry.1)) &&
        match (eval (ctx.holdAll [key, .dict done]) value).run b with
        | (.error _, _) => true
        | (.ok value, b) => keysApart eval ctx (Dict.insert key value done) rest b

section

variable {table : Table} {eval : Evaluator} {held held' : List Value} {b : Bindings}

/-- Each operand gives one argument. -/
theorem length_evalAll {ctx : Context} {exprs args : List Value} {b' : Bindings}
    (h : (evalAll eval ctx exprs).run b = (.ok args, b')) : args.length = exprs.length := by
  induction exprs generalizing ctx args b with
  | nil =>
    cases h
    rfl
  | cons expr rest ih =>
    simp only [evalAll, Action.run_bind] at h
    rcases hvalue : (eval ctx expr).run b with ⟨_ | value, b₁⟩ <;> simp only [hvalue] at h
    · cases h
    · rcases hrest : (evalAll eval (ctx.hold value) rest).run b₁ with ⟨_ | values, b₂⟩ <;>
        simp only [hrest] at h <;> cases h
      exact congrArg Nat.succ (ih hrest)

/-- The call of `dict` with an even number of arguments gives the dict of the arguments. -/
theorem run_call_dict (hdict : table.Grants (.operation .dict)) {args : List Value}
    (heven : args.length % 2 = 0) :
    (Operation.dict.call eval ⟨table, held⟩ args).run b =
      (.ok (.dict (Dict.ofEntries (Dict.pairs args))), b) := by
  have harity : Arity.accepts args.length .even = true := beq_iff_eq.2 heven
  have hcheck : (Primitive.operation .dict).check args = .ok () := by
    change (Arity.validate _ args.length .even >>= fun _ => Signature.checkKinds _ [] args) = _
    rw [Arity.validate, if_pos harity]
    rfl
  exact run_call_pure hdict hcheck rfl

/-- **The entries of a dict evaluated in order** make the dict of the values that their
keys and values have as arguments in a row. -/
theorem run_entries {I : Invariant table} (heval : I.CoincideEval eval) {n : Stage}
    (hb : n ≤ b.stage) (hs : I.Sound b) {done entries : Dict}
    (hentries : ∀ v ∈ Value.entryParts entries, I.Good n v)
    (halike : I.HeldAlike (.dict done :: held) held')
    (hcase : (∀ u w, I.HeldAlike u w) ∨ Eval.keysApart eval ⟨table, held⟩ done entries b = true) :
    (Eval.entries eval ⟨table, held⟩ done entries).run b =
      (evalAll eval ⟨table, held'⟩ (Value.entryParts entries) >>= fun args =>
        pure ((Dict.pairs args).foldl (fun dict entry => Dict.insert entry.1 entry.2 dict)
          done)).run b := by
  induction entries generalizing n done held' b with
  | nil => rfl
  | cons entry rest ih =>
    obtain ⟨key, value⟩ := entry
    obtain ⟨hkey, hvalue, hrest⟩ : I.Good n key ∧ I.Good n value ∧
        ∀ v ∈ Value.entryParts rest, I.Good n v := by
      simpa only [Value.entryParts, List.forall_mem_cons] using hentries
    obtain ⟨hkept, hrun⟩ := heval n _ _ key halike hkey b hb hs
    simp only [Eval.entries, Value.entryParts, evalAll, Action.run_bind, Context.hold]
    rw [hrun]
    rcases hk : (eval ⟨table, .dict done :: held⟩ key).run b with ⟨_ | k, b₁⟩
    · rfl
    rw [hk] at hkept
    have hb₁ : n ≤ b₁.stage := hb.trans hkept.stage_le
    have hpair : I.HeldAlike (k :: .dict done :: held) (k :: held') := halike.append [k]
    obtain ⟨hkept', hrun'⟩ := heval n _ _ value hpair hvalue b₁ hb₁ hkept.sound
    simp only [Context.holdAll, List.cons_append, List.nil_append]
    rw [hrun']
    rcases hv : (eval ⟨table, k :: .dict done :: held⟩ value).run b₁ with ⟨_ | v, b₂⟩
    · rfl
    rw [hv] at hkept'
    -- The dict holds what the arguments do, unless the key is there already.
    have hnext : I.HeldAlike (.dict (Dict.insert k v done) :: held) (v :: k :: held') ∧
        ((∀ u w, I.HeldAlike u w) ∨
          Eval.keysApart eval ⟨table, held⟩ (Dict.insert k v done) rest b₂ = true) := by
      rcases hcase with hall | hapart
      · exact ⟨hall _ _, .inl hall⟩
      · simp only [Eval.keysApart, Context.hold, Context.holdAll, List.cons_append,
          List.nil_append, hk, hv, Bool.and_eq_true, List.all_eq_true, Bool.not_eq_true'] at hapart
        exact ⟨halike.insert hapart.1, .inr hapart.2⟩
    simp only [ih (hb₁.trans hkept'.stage_le) hkept'.sound hrest hnext.1 hnext.2, Action.run_bind]
    rcases (evalAll eval ⟨table, v :: k :: held'⟩ (Value.entryParts rest)).run b₂ with ⟨_ | args, _⟩
    · rfl
    · rfl

/-- A call of `dict` evaluates its operands and puts them together. -/
theorem eval_call_dict (hdict : table.find? "dict" = some (.operation .dict)) {room : Nat}
    {operands : List Value} (heven : operands.length % 2 = 0) :
    (Eval.eval (room + 2) ⟨table, held⟩ (.list (.atom "dict" :: operands))).run b =
      (evalAll (Eval.eval (room + 1)) ⟨table, .primFn "dict" :: held⟩ operands >>= fun args =>
        pure (.dict (Dict.ofEntries (Dict.pairs args)))).run b := by
  have hgrant : table.Grants (.operation .dict) := hdict
  have hform : Eval.eval (room + 2) ⟨table, held⟩ (.list (.atom "dict" :: operands)) =
      (do
        let args ← evalAll (Eval.eval (room + 1)) ⟨table, .primFn "dict" :: held⟩ operands
        Operation.dict.call (Eval.eval (room + 1)) ⟨table, held⟩ args) :=
    eval_operationForm hgrant room held operands
  rw [hform]
  simp only [Action.run_bind, Action.run_pure]
  rcases hargs : (evalAll (Eval.eval (room + 1)) ⟨table, .primFn "dict" :: held⟩ operands).run b
    with ⟨_ | args, b'⟩
  · rfl
  · have hlength : args.length % 2 = 0 := (length_evalAll hargs).symm ▸ heven
    exact run_call_dict hgrant hlength

/-- **A dict used as code means the call of `dict` with its keys and values for
operands.** -/
theorem eval_dict_eq_call {I : Invariant table} (hhosts : I.GoodHosts)
    (hdict : table.find? "dict" = some (.operation .dict)) {n : Stage} (hb : n ≤ b.stage)
    (hs : I.Sound b) {entries : Dict} (hentries : I.Good n (.dict entries))
    (halike : I.HeldAlike held held') {room : Nat} (hroom : entries = [] → room ≠ 0)
    (hcase : (∀ u w, I.HeldAlike u w) ∨
      Eval.keysApart (Eval.eval room) ⟨table, held⟩ [] entries b = true) :
    (Eval.eval (room + 1) ⟨table, held⟩ (.dict entries)).run b =
      (Eval.eval (room + 1) ⟨table, held'⟩
        (.list (.atom "dict" :: Value.entryParts entries))).run b := by
  -- In the last level both sides fail on the first form that they evaluate.
  cases room with
  | zero =>
    cases entries with
    | nil => exact absurd rfl (hroom rfl)
    | cons entry rest => rfl
  | succ room =>
    -- The literal holds the entries so far, the call the procedure and its arguments.  No
    -- closure stands in either at the start.
    have hstart : I.HeldAlike (.dict [] :: held) (.primFn "dict" :: held') := by
      intro m fn hname hfn
      rw [List.any_cons, List.any_cons, halike m fn hname hfn, Value.holds_eq, Value.holds_eq]
      rfl
    have heven : (Value.entryParts entries).length % 2 = 0 := by
      rw [Dict.length_entryParts]
      omega
    have hruns := run_entries (Invariant.coincideEval_eval hhosts (room + 1)) hb hs
      hentries.inside hstart hcase
    have hstep : Eval.eval (room + 2) ⟨table, held⟩ (.dict entries) =
        (do return .dict (← Eval.entries (Eval.eval (room + 1)) ⟨table, held⟩ [] entries)) := rfl
    rw [eval_call_dict hdict heven, hstep, Action.run_bind, hruns]
    simp only [Action.run_bind]
    rcases (evalAll (Eval.eval (room + 1)) ⟨table, .primFn "dict" :: held'⟩
      (Value.entryParts entries)).run b with ⟨_ | args, b'⟩
    · rfl
    · rfl

end

namespace Dict

/-- Pairing an even number of values keeps them in order. -/
theorem entryParts_pairs {items : List Value} (heven : items.length % 2 = 0) :
    Value.entryParts (pairs items) = items := by
  fun_induction pairs items with
  | case1 key value rest ih =>
    have hrest : rest.length % 2 = 0 := by
      simp only [List.length_cons] at heven
      omega
    rw [Value.entryParts, ih hrest]
  | case2 items hshort =>
    rcases items with _ | ⟨key, _ | ⟨value, rest⟩⟩
    · rfl
    · cases heven
    · exact absurd rfl (hshort key value rest)

/-- A dictionary with an entry inserted is not empty. -/
theorem insert_ne_nil (key value : Value) (dict : Dict) : insert key value dict ≠ [] := by
  cases dict with
  | nil => exact List.cons_ne_nil _ _
  | cons entry rest =>
    rw [insert]
    split <;> exact List.cons_ne_nil _ _

/-- A dict of at least one entry is not empty. -/
theorem ofEntries_ne_nil {entries : List (Value × Value)} (hne : entries ≠ []) :
    ofEntries entries ≠ [] := by
  cases entries with
  | nil => exact absurd rfl hne
  | cons entry rest =>
    exact List.foldlRecOn (motive := (· ≠ [])) rest _ (insert_ne_nil _ _ _)
      fun dict _ other _ => insert_ne_nil other.1 other.2 dict

end Dict

namespace Invariant

variable {table : Table}

/-- A dict and the call with its keys and values for operands hold the same closures. -/
theorem heldAlike_dict (I : Invariant table) (entries : Dict)
    (held : List Value) :
    I.HeldAlike (.dict entries :: held)
      (.list (.atom "dict" :: Value.entryParts entries) :: held) := by
  intro n fn _ _
  have hatom : Value.holds fn.serial (.atom "dict") = false := by
    rw [Value.holds_eq]
    rfl
  simp only [List.any_cons, Value.holds_dict, Value.holds_list, hatom, Bool.false_or]

/-- Without `def-rec` the limit on plain values asks nothing of procedures but to hand on
what they are given. -/
theorem limitsOnly_plainness :
    (plainness .full table).LimitsOnly (· = .atom "def-rec") where
  value {n v} h := by
    cases v with
    | atom name => exact fun he => h (congrArg Value.atom he)
    | env e => rintro ⟨⟩
    | state s => rintro ⟨⟩
    | _ => trivial
  breach _ := trivial

end Invariant

/-- **A dict literal means the same as a call of `dict`.**  Let an even number of texts be
given, each of one form.  Between braces they read as a dict, behind `dict` in
parentheses as a call.  Under any table that grants the shipped `dict`, at any depth,
from any bindings and whatever else is held: evaluating the literal comes to the same
result or error, in the same bindings, as evaluating the call of `dict` on the forms
that are left once equal key forms are collapsed.  If no two key forms are equal, this
is the call that was read.

Either `def-rec` occurs nowhere in the forms and the bindings, and the procedures of the
host do not bring it in; or no key of the literal comes up equal to an earlier one.  The
depth limit tells the two apart for the empty literal alone, in the last level: the call
takes one more for its head. -/
theorem dictLiteral_eq_call {table : Table} (hdict : table.find? "dict" = some (.operation .dict))
    {texts : List String} {forms : List Value}
    (htexts : List.Forall₂
      (fun form text => Reader.IsForm .default (Reader.maxParseDepth - 1) form text.toList)
      forms texts)
    (heven : texts.length % 2 = 0) :
    let entries := Dict.ofEntries (Dict.pairs forms)
    read ("\x7b" ++ " ".intercalate texts ++ "\x7d") = .ok (.dict entries) ∧
    read ("(" ++ " ".intercalate ("dict" :: texts) ++ ")") = .ok (.list (.atom "dict" :: forms)) ∧
    ∀ (room : Nat) (held : List Value) (b : Bindings), (forms = [] → room ≠ 0) →
      (table.HandsOn (· = .atom "def-rec") ∧ b.Without "def-rec" ∧
          (∀ form ∈ forms, form.Without "def-rec") ∨
        Eval.keysApart (Eval.eval room) ⟨table, .dict entries :: held⟩ [] entries b = true) →
      let run := fun expr => (Eval.eval (room + 1) ⟨table, expr :: held⟩ expr).run b
      run (.dict entries) = run (.list (.atom "dict" :: Value.entryParts entries)) ∧
      (Dict.Unequal (Dict.pairs forms) →
        run (.dict entries) = run (.list (.atom "dict" :: forms))) := by
  intro entries
  have heven' : forms.length % 2 = 0 := by rw [htexts.length_eq, heven]
  have hname : Reader.IsForm .default (Reader.maxParseDepth - 1) (.atom "dict") "dict".toList := by
    rfl
  refine ⟨Reader.read_literal htexts heven', Reader.read_list (.cons hname htexts), ?_⟩
  intro room held b hroom hcase run
  have hempty : entries = [] → room ≠ 0 := fun hnil => hroom (by
    have hpairs : Dict.pairs forms = [] := by
      by_contra hne
      exact Dict.ofEntries_ne_nil hne hnil
    rw [← Dict.entryParts_pairs heven', hpairs, Value.entryParts])
  have hleft : run (.dict entries) = run (.list (.atom "dict" :: Value.entryParts entries)) := by
    -- Without `def-rec` nothing asks what is held; with it, unequal keys hold alike.
    rcases hcase with ⟨htable, hb, hforms⟩ | hapart
    · let I := Invariant.plainness .full table
      have hsound : I.Sound b :=
        ⟨⟨(by rintro ⟨⟩), fun v hv => (hb.env v hv).plain⟩,
          fun v hv => (hb.refs v hv).plain, Nat.zero_le _⟩
      have hgood : I.Good b.stage (.dict entries) := Invariant.good_ofEntries fun entry hmem =>
        ⟨(hforms _ (Dict.mem_of_mem_pairs hmem).1).plain,
          (hforms _ (Dict.mem_of_mem_pairs hmem).2).plain⟩
      exact eval_dict_eq_call (Invariant.limitsOnly_plainness.goodHosts htable) hdict le_rfl
        hsound hgood (I.heldAlike_dict entries held) hempty
        (.inl fun u w => Invariant.heldAlike_plainness u w)
    · exact eval_dict_eq_call Invariant.goodHosts_free hdict le_rfl (Invariant.sound_free b)
        (Invariant.good_free _ _) ((Invariant.free table).heldAlike_dict entries held) hempty
        (.inr hapart)
  refine ⟨hleft, fun hunequal => ?_⟩
  have hforms : Value.entryParts entries = forms := by
    rw [show entries = Dict.pairs forms from Dict.ofEntries_of_unequal hunequal,
      Dict.entryParts_pairs heven']
  rw [hleft, hforms]

/-- A key form that writes a slot, a `def-rec` behind it, and a value form that reads the
slot. -/
theorem dictLiteral_eq_call_effects :
    let texts := ["(write-ref r 1)", "(def-rec f (fn [x] x))", ":b", "(read-ref r)"]
    let forms : List Value := [
      .list [.atom "write-ref", .atom "r", .number 1],
      .list [.atom "def-rec", .atom "f", .list [.atom "fn", .vector [.atom "x"], .atom "x"]],
      .keyword "b",
      .list [.atom "read-ref", .atom "r"]]
    let entries := Dict.ofEntries (Dict.pairs forms)
    let b : Bindings := ⟨.persistent [("r", .ref 0)], [.null], 0⟩
    let run := fun expr => (Eval.eval 8 ⟨Table.shipped, [expr]⟩ expr).run b
    texts.length % 2 = 0 ∧ read ("\x7b" ++ " ".intercalate texts ++ "\x7d") = .ok (.dict entries) ∧
    Eval.keysApart (Eval.eval 7) ⟨Table.shipped, [.dict entries]⟩ [] entries b = true ∧
    Dict.Unequal (Dict.pairs forms) ∧ ((run (.dict entries)).1.map Value.text).toOption =
      some "\x7b1 null :b 1\x7d" ∧
    run (.dict entries) = run (.list (.atom "dict" :: forms)) := by
  intro texts forms entries b run
  have hdict : Table.shipped.find? "dict" = some (.operation .dict) := by rfl
  have htexts : List.Forall₂
      (fun form text => Reader.IsForm .default (Reader.maxParseDepth - 1) form text.toList)
      forms texts :=
    .cons (by rfl) (.cons (by rfl) (.cons (by rfl) (.cons (by rfl) .nil)))
  have heven : texts.length % 2 = 0 := by simp [texts]
  have hapart : Eval.keysApart (Eval.eval 7) ⟨Table.shipped, [.dict entries]⟩ [] entries b =
      true := by
    decide +kernel
  have hunequal : Dict.Unequal (Dict.pairs forms) := by
    unfold Dict.Unequal
    decide +kernel
  obtain ⟨hread, -, hruns⟩ := dictLiteral_eq_call hdict htexts heven
  obtain ⟨-, hcall⟩ := hruns 7 [] b (fun _ => Nat.succ_ne_zero 6) (.inr hapart)
  exact ⟨heven, hread, hapart, hunequal, by decide +kernel, hcall hunequal⟩

/-- **Without the reservations a literal and a call differ.**  The reader collapses two
equal key forms, so the first value form is not evaluated.  And where a key comes up
twice, the literal lets go of the closure that it replaces, which the call still holds
when a `def-rec` asks for it. -/
theorem dictLiteral_ne_call :
    let b : Bindings := ⟨.persistent [("r", .ref 0)], [.lambda ⟨0, ["x"], [.atom "x"], []⟩], 1⟩
    let run := fun source => (read source).toOption.map fun expr =>
      (evaluate Table.shipped expr).run b
    let literal := fun texts => run ("\x7b" ++ " ".intercalate texts ++ "\x7d")
    let call := fun texts => run ("(" ++ " ".intercalate ("dict" :: texts) ++ ")")
    let collapsed := [":a", "(def x 1)", ":a", "2"]
    let released := [":a", "(read-ref r)", "(first (list :a))", "0",
      ":c", "(def-rec f (first (list (read-ref r) (write-ref r 0))))"]
    ((literal collapsed).map fun r => (r.2.env.lookup "x").isSome) = some false ∧
    ((call collapsed).map fun r => (r.2.env.lookup "x").isSome) = some true ∧
    ((literal released).map fun r => r.1.isOk) = some true ∧
    ((call released).map fun r => r.1.isOk) = some false := by
  decide +kernel

end CapLisp
