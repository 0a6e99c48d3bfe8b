/-
# Readable values are read back

A readable value of any nesting that the reader allows is read back from its text
and from every other layout of it (`readWith_of_layout`).

The argument follows the recursion of the reader.  A token is read off the front,
for what stands behind it ends it (`form_token`).  Elements are read one by one up
to the closing delimiter (`elements_of_row`), so a form is read back as soon as its
parts are (`form_of_spells`).  The text of a value is one of its layouts
(`spells_write`).
-/

import CapLisp.Proofs.Reader.Layout

namespace CapLisp

namespace Dict

/-- Pairing the keys and values of entries gives the entries back. -/
theorem pairs_entryParts (entries : List (Value × Value)) :
    pairs (Value.entryParts entries) = entries := by
  induction entries with
  | nil => rfl
  | cons entry rest ih => rw [Value.entryParts, pairs, ih]

/-- Each entry has a key and a value. -/
theorem length_entryParts (entries : List (Value × Value)) :
    (Value.entryParts entries).length = 2 * entries.length := by
  induction entries with
  | nil => rfl
  | cons entry rest ih =>
    rw [Value.entryParts, List.length_cons, List.length_cons, ih, List.length_cons]
    omega

end Dict

namespace Value

/-! ### Texts in front of others -/

/-- Elements are written in front of a rest without a look at it. -/
theorem writeAll_append (items : List Value)
    (h : ∀ v ∈ items, ∀ rest, v.write rest = v.write [] ++ rest) (rest : List Char) :
    writeAll items rest = writeAll items [] ++ rest := by
  induction items with
  | nil => rfl
  | cons item more ih =>
    obtain ⟨hitem, hmore⟩ := List.forall_mem_cons.1 h
    rw [writeAll, writeAll, hitem, hitem (separated [' '] more (writeAll more []))]
    cases more with
    | nil => simp [separated, writeAll]
    | cons next more => rw [separated, separated, ih hmore, List.append_assoc, List.append_assoc]

/-- The text of entries is that of their keys and values in turn. -/
theorem writeEntries_eq (entries : List (Value × Value)) (rest : List Char) :
    writeEntries entries rest = writeAll (entryParts entries) rest := by
  induction entries with
  | nil => rfl
  | cons entry more ih =>
    obtain ⟨key, value⟩ := entry
    rw [writeEntries, entryParts, writeAll, writeAll, ih]
    cases more <;> rfl

/-- **The text of a spelled value does not depend on what stands behind it.** -/
theorem write_append {v : Value} (hv : v.Spelled) (rest : List Char) :
    v.write rest = v.write [] ++ rest := by
  induction hv generalizing rest with
  | @intro v hv _ ih =>
    cases v with
    | atom | keyword | string | number =>
      simp only [write_atom, write_keyword, write_string, write_number, List.append_nil,
        List.cons_append]
    | bool b => cases b <;> rfl
    | list items =>
      have hitems := writeAll_append items ih
      rw [write_list, write_list, hitems, hitems [')']]
      simp
    | vector items =>
      have hitems := writeAll_append items ih
      rw [write_vector, write_vector, hitems, hitems [']']]
      simp
    | dict entries =>
      have hparts := writeAll_append (entryParts entries) ih
      rw [write_dict, write_dict, writeEntries_eq, writeEntries_eq, hparts, hparts ['\x7d']]
      simp
    | _ => cases hv

/-- A readable value can be spelled. -/
theorem Readable.spelled {v : Value} (hv : v.Readable) : v.Spelled :=
  hv.mono fun _ h => h.1

end Value

namespace Reader

variable {config : Config} {room : Nat} {rest : List Char}

/-! ### Tokens -/

/-- What starts an atom starts a word. -/
theorem startsWord_of_isAtomStart {c : Char} (hc : isAtomStart c = true) :
    startsWord c = true := by
  simp [startsWord, hc]

/-- The text of a number starts as a word does. -/
theorem startsWord_of_ofInt {n : Int} {c : Char} {digits : List Char}
    (h : Decimal.ofInt n = c :: digits) : startsWord c = true := by
  obtain ⟨d, more, hcons, hd⟩ := Decimal.exists_cons_ofInt n
  obtain rfl : d = c := (List.cons.inj (hcons.symm.trans h)).1
  rcases hd with hd | rfl
  · simp [startsWord, hd]
  · rfl

/-- A number is read from its digits. -/
theorem form_number (n : Int64) (hrest : endsToken rest = true) :
    form config (room + 1) (Decimal.ofInt n.toInt ++ rest) = .ok (.number n, rest) := by
  have hnumber := number?_ofInt n hrest
  obtain ⟨c, digits, hcons, -⟩ := Decimal.exists_cons_ofInt n.toInt
  rw [hcons, List.cons_append] at hnumber ⊢
  rw [form_word (startsWord_of_ofInt hcons), hnumber]

/-- A name that is no number is read as an atom. -/
theorem form_name {name : List Char} (hname : isName name = true)
    (hrun : isSignedRun name = false) (hrest : endsToken rest = true) :
    form config (room + 1) (name ++ rest) = .ok (.atom (String.ofList name), rest) := by
  have hnumber := number?_of_isName hname hrun hrest
  have hatom := atom?_append hname hrest
  obtain ⟨c, tail, rfl, hc, -⟩ := exists_of_isName hname
  rw [List.cons_append] at hnumber hatom ⊢
  rw [form_word (startsWord_of_isAtomStart hc), hnumber, hatom]

/-- **A readable token is read back** in front of a text that ends it. -/
theorem form_token {v : Value} (hv : v.isReadable) (htoken : v.isToken = true)
    (hrest : endsToken rest = true) :
    form config (room + 1) (v.write [] ++ rest) = .ok (v, rest) := by
  obtain ⟨hspelled, hword⟩ := hv
  cases v with
  | atom name =>
    rw [Value.write_atom, List.append_nil, form_name hspelled hword hrest, String.ofList_toList]
  | keyword name =>
    rw [Value.write_keyword, List.append_nil, List.cons_append, form_keyword,
      keyword_append hspelled.1 hspelled.2 hrest, String.ofList_toList]
  | string text =>
    have hbody := stringBody_escaped text.toList rest
    rw [Value.write_string, Literal.ofString, List.append_nil, List.cons_append,
      List.append_assoc, form_string, List.singleton_append, hbody]
    simp only [Outcome.andThen, String.ofList_toList]
  | number n => rw [Value.write_number, List.append_nil, form_number n hrest]
  | bool b =>
    rw [← Value.write_append (Value.everywhere_bool.2 rfl)]
    exact form_bool b rest hrest
  | _ => cases htoken

/-- A token starts where its text does. -/
theorem opens_token {v : Value} (hv : v.isSpelled) (htoken : v.isToken = true) :
    Opens (v.write []) := by
  cases v with
  | atom name =>
    obtain ⟨c, tail, hcons, hc, -⟩ := exists_of_isName hv
    rw [Value.write_atom, hcons]
    exact .word (startsWord_of_isAtomStart hc) _
  | keyword name => exact .intro (by decide)
  | string text => exact .intro (by decide)
  | number n =>
    obtain ⟨c, digits, hcons, -⟩ := Decimal.exists_cons_ofInt n.toInt
    rw [Value.write_number, hcons]
    exact .word (startsWord_of_ofInt hcons) _
  | bool b => cases b <;> exact .bool (by decide)
  | _ => cases htoken

/-! ### Forms -/

/-- A layout starts with a token or an opening delimiter. -/
theorem opens_of_spells {comments : Bool} {v : Value} {text : List Char} (hv : v.isSpelled)
    (h : Spells comments v text) : Opens text := by
  cases h with
  | token htoken => exact opens_token hv htoken
  | list | vector | dict | quoted => exact .intro (by decide)

/-- A row has at least one character for each of its elements. -/
theorem length_le_of_row {comments : Bool} {spells : Value → List Char → Prop}
    {items : List Value} {row : List Char}
    (hopens : ∀ v ∈ items, ∀ text, spells v text → Opens text)
    (hrow : Row comments spells items row) : items.length ≤ row.length := by
  have hpos : ∀ {v text}, v ∈ items → spells v text → 0 < text.length := fun hv htext => by
    cases hopens _ hv _ htext <;> exact Nat.succ_pos _
  induction hrow with
  | nil => exact Nat.zero_le _
  | last hv => exact hpos (List.mem_singleton_self _) hv
  | spaced hv =>
    have := hpos (List.mem_singleton_self _) hv
    simp only [List.length_append, List.length_singleton]
    omega
  | cons hv _ _ ih =>
    have := hpos (List.mem_cons_self ..) hv
    have := ih (fun u hu => hopens u (List.mem_cons_of_mem _ hu))
      (fun hu => hpos (List.mem_cons_of_mem _ hu))
    simp only [List.length_append, List.length_cons] at *
    omega

/-- Elements are read back behind an opening delimiter. -/
theorem elements_of_gap (close : Char) (items : List Value) {gap row : List Char}
    {spells : Value → List Char → Prop} (hclose : isCloser close = true)
    (hopens : ∀ v ∈ items, ∀ text, spells v text → Opens text)
    (hread : ∀ v ∈ items, ∀ text rest, spells v text → endsToken rest = true →
      form config room (text ++ rest) = .ok (v, rest))
    (hgap : Spacing config.comments gap) (hrow : Row config.comments spells items row)
    (rest : List Char) :
    elements config (form config room) close ((gap ++ (row ++ close :: rest)).length + 1)
      (gap ++ (row ++ close :: rest)) = .ok (items, rest) := by
  have hlength := length_le_of_row hopens hrow
  rw [elements_append hgap]
  refine elements_of_row hclose hopens hread hrow ?_ rest
  simp only [List.length_append, List.length_cons]
  omega

/-- **A readable value is read back from each of its layouts**, in front of a text
that ends its last token. -/
theorem form_of_spells {v : Value} (hv : v.Readable) :
    ∀ {room : Nat} {text rest : List Char}, Spells config.comments v text → v.nesting ≤ room →
      endsToken rest = true → form config room (text ++ rest) = .ok (v, rest) := by
  induction hv with
  | @intro v hv hparts ih =>
    intro room text rest htext hroom hrest
    obtain ⟨room, rfl⟩ : ∃ less, room = less + 1 :=
      Nat.exists_eq_add_one_of_ne_zero (by have := v.one_le_nesting; omega)
    -- Reading a part takes place with one level less, which is enough for the part.
    have hnesting := (Value.nesting_le_succ_iff (Value.isSyntax_of_isSpelled hv.1)).1 hroom
    have hopens : ∀ w ∈ v.parts, ∀ text, Spells config.comments w text → Opens text :=
      fun w hw text => opens_of_spells (hparts w hw).here.1
    have hread : ∀ w ∈ v.parts, ∀ text rest, Spells config.comments w text →
        endsToken rest = true → form config room (text ++ rest) = .ok (w, rest) :=
      fun w hw text rest htext => ih w hw htext (hnesting w hw)
    cases htext with
    | token htoken => exact form_token hv htoken hrest
    | @list items gap row hgap hrow =>
      have hitems := elements_of_gap ')' items rfl hopens hread hgap hrow rest
      simp only [List.cons_append, List.append_assoc, List.nil_append, form_list,
        List.length_cons, hitems, Outcome.andThen]
    | @vector items gap row hgap hrow =>
      have hitems := elements_of_gap ']' items rfl hopens hread hgap hrow rest
      simp only [List.cons_append, List.append_assoc, List.nil_append, form_vector,
        List.length_cons, hitems, Outcome.andThen]
    | @dict entries gap row hgap hrow =>
      have hitems := elements_of_gap '\x7d' (Value.entryParts entries) rfl hopens hread hgap
        hrow rest
      have heven : (Value.entryParts entries).length % 2 = 0 := by
        rw [Dict.length_entryParts]
        omega
      have hentries : Dict.ofEntries (Dict.pairs (Value.entryParts entries)) = entries := by
        rw [Dict.pairs_entryParts, Dict.ofEntries_of_unequal hv.1]
      simp only [List.cons_append, List.append_assoc, List.nil_append, form_dict,
        List.length_cons, hitems, Outcome.andThen, heven, hentries, ↓reduceIte]
    | @quoted w gap text hgap htext =>
      have hw : w ∈ w.quoted.parts := by simp [Value.quoted, Value.parts]
      have hopen := (hopens w hw text htext).append rest
      simp only [List.cons_append, List.append_assoc, form_quote, skip_append hgap, hopen.skip_eq,
        hread w hw text rest htext hrest, Outcome.andThen]

/-! ### Texts are layouts -/

/-- The texts of the elements with spaces between them are a row. -/
theorem row_writeAll {comments : Bool} {spells : Value → List Char → Prop} (items : List Value)
    (happend : ∀ v ∈ items, ∀ rest, v.write rest = v.write [] ++ rest)
    (hspells : ∀ v ∈ items, spells v (v.write [])) :
    Row comments spells items (Value.writeAll items []) := by
  induction items with
  | nil => exact .nil
  | cons v more ih =>
    obtain ⟨hv, hmore⟩ := List.forall_mem_cons.1 hspells
    obtain ⟨happendV, happendMore⟩ := List.forall_mem_cons.1 happend
    cases more with
    | nil => exact .last hv
    | cons w more =>
      rw [Value.writeAll, happendV]
      exact .cons hv (.intro rfl .nil) (ih happendMore hmore)

/-- **The text of a spelled value is one of its layouts.** -/
theorem spells_write (comments : Bool) {v : Value} (hv : v.Spelled) :
    Spells comments v (v.write []) := by
  induction hv with
  | @intro v hv hparts ih =>
    have happend : ∀ w ∈ v.parts, ∀ rest, w.write rest = w.write [] ++ rest :=
      fun w hw => Value.write_append (hparts w hw)
    cases v with
    | list items =>
      rw [Value.write_list, Value.writeAll_append items happend]
      exact .list .nil (row_writeAll items happend ih)
    | vector items =>
      rw [Value.write_vector, Value.writeAll_append items happend]
      exact .vector .nil (row_writeAll items happend ih)
    | dict entries =>
      rw [Value.write_dict, Value.writeEntries_eq,
        Value.writeAll_append (Value.entryParts entries) happend]
      exact .dict .nil (row_writeAll _ happend ih)
    | atom | keyword | string | number | bool => exact .token rfl
    | _ => cases hv

/-- The text of a value is one of its layouts. -/
theorem Layout.of_write (comments : Bool) {v : Value} (hv : v.Spelled) :
    Layout comments v (v.write []) := by
  have h := Layout.intro .nil (spells_write comments hv) (.inl rfl)
  rwa [List.append_nil] at h

/-- A layout is parsed. -/
theorem parse_of_layout {v : Value} (hv : v.Readable) (hroom : v.nesting ≤ config.maxDepth)
    {text : List Char} (h : Layout config.comments v text) : parse config text = .ok v := by
  cases h with
  | @intro before text after hbefore htext hafter =>
    have hopens := (opens_of_spells hv.here.1 htext).append after
    have hends : endsToken after = true := by
      rcases hafter with rfl | hafter
      · rfl
      · simpa using hafter.endsToken []
    have hskip : skip config.comments after .blank = [] := by
      rcases hafter with rfl | hafter
      · rfl
      · simpa [skip] using skip_append hafter.spacing []
    have hform := form_of_spells hv htext hroom hends
    rw [parse, skip_append hbefore, hopens.skip_eq]
    split
    · next heq =>
      rw [heq] at hopens
      cases hopens
    · simp only [hform, hskip]

end Reader

/-- **Every layout of a readable value is read back**, its text among them, as long as
the value nests no deeper than the options allow. -/
theorem readWith_of_layout (config : Reader.Config) {v : Value} (hv : v.Readable)
    (hroom : v.nesting ≤ config.maxDepth) :
    readWith config v.text = .ok v ∧
      ∀ text, Reader.Layout config.comments v text →
        readWith config (String.ofList text) = .ok v := by
  have hread : ∀ text, Reader.Layout config.comments v text →
      readWith config (String.ofList text) = .ok v := fun text htext => by
    rw [readWith, String.toList_ofList, Reader.parse_of_layout hv hroom htext]
    rfl
  exact ⟨hread _ (.of_write _ hv.spelled), hread⟩

/-- A quoted dict is read from its text and from a layout with comments. -/
theorem readWith_of_layout_commented :
    ∃ (v : Value) (text : List Char),
      v = .list [.atom "quote", .dict [(.keyword "k", .vector [.number (-5), .bool true])]] ∧
      text = "; a\n' \x7b:k [ -5 #|b|# #t\n]\x7d ".toList ∧
      v.Readable ∧ v.nesting ≤ Reader.Config.default.maxDepth ∧ Reader.Layout true v text ∧
      readWith .default v.text = .ok v ∧ readWith .default (String.ofList text) = .ok v := by
  have hblank : Reader.Spacing true [' '] := .blank rfl .nil
  have hbreak : Reader.Break true [' '] := .intro rfl .nil
  have hcomment : Reader.Spacing true [';', ' ', 'a', '\n'] :=
    .line rfl (by decide : '\n' ∉ [' ', 'a']) .nil
  have hblock : Reader.Spacing true ['#', '|', 'b', '|', '#', ' '] :=
    .block rfl (by decide : ¬ ['|', '#'] <:+: ['b']) hblank
  have hminus : Reader.Spells true (.number (-5)) ['-', '5'] := .token rfl
  have htrue : Reader.Spells true (.bool true) ['#', 't'] := .token rfl
  have hkey : Reader.Spells true (.keyword "k") [':', 'k'] := .token rfl
  have hvector : Reader.Spells true (.vector [.number (-5), .bool true])
      "[ -5 #|b|# #t\n]".toList :=
    .vector hblank (.cons hminus (.intro rfl hblock) (.spaced htrue (.intro rfl .nil)))
  have hrow : Reader.Row true (Reader.Spells true)
      [.keyword "k", .vector [.number (-5), .bool true]] ":k [ -5 #|b|# #t\n]".toList :=
    .cons hkey hbreak (.last hvector)
  have hdict : Reader.Spells true (.dict [(.keyword "k", .vector [.number (-5), .bool true])])
      ('\x7b' :: ([] ++ (":k [ -5 #|b|# #t\n]".toList ++ ['\x7d']))) :=
    .dict .nil hrow
  have hlayout := Reader.Layout.intro hcomment (.quoted hblank hdict) (.inr hbreak)
  have hreadable :
      (Value.dict [(.keyword "k", .vector [.number (-5), .bool true])]).quoted.Readable := by
    have hquote : Reader.isName ['q', 'u', 'o', 't', 'e'] = true ∧
        Reader.isSignedRun ['q', 'u', 'o', 't', 'e'] = false := by decide
    have hk : Reader.isAtomChar 'k' = true := by decide
    simp [Value.Readable, Value.quoted, Value.isReadable, Value.isSpelled,
      Value.looksLikeNumber, Value.isSyntax, Dict.Unequal, hquote, hk]
  have hroom : (Value.dict [(.keyword "k", .vector [.number (-5), .bool true])]).quoted.nesting ≤
      Reader.Config.default.maxDepth := by decide
  obtain ⟨htext, hread⟩ := readWith_of_layout .default hreadable hroom
  exact ⟨_, _, rfl, rfl, hreadable, hroom, hlayout, htext, hread _ hlayout⟩
end CapLisp
