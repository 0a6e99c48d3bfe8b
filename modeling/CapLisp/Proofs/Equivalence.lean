/-
# Equality is an equivalence

Equality of dicts and of environments looks from the left only: as many entries,
and each of the left found on the right.  It is symmetric all the same.  The keys
of the left are pairwise unequal, so they find different entries on the right,
and as many different ones as there are leave none out: the right is the partners
of the left in another order (`exists_perm_forall₂`).

Finding an entry is equality of keys again, so the argument needs symmetry and
transitivity of what is inside.  Transitivity comes first, since it counts
nothing, and holds of all values (`beq_trans`).  Symmetry is for well-formed
values, which are all that are ever built (`beq_symm`).
-/

import CapLisp.Proofs.View.Equality
import CapLisp.Proofs.WellFormed

namespace CapLisp

/-- **Counting.**  If each of some elements has a partner in a list of the same
length and no two of them share one, then that list is their partners in another order. -/
theorem exists_perm_forall₂ {α β : Type} {R : α → β → Prop} {as : List α} {bs : List β}
    (hlength : as.length = bs.length) (hpartner : ∀ a ∈ as, ∃ b ∈ bs, R a b)
    (happart : as.Pairwise fun a a' => ∀ b ∈ bs, R a b → ¬ R a' b) :
    ∃ partners, partners.Perm bs ∧ List.Forall₂ R as partners := by
  induction as generalizing bs with
  | nil =>
    rw [List.eq_nil_of_length_eq_zero hlength.symm]
    exact ⟨[], .nil, .nil⟩
  | cons a as ih =>
    obtain ⟨⟨partner, hmem, hR⟩, hpartner⟩ := List.forall_mem_cons.1 hpartner
    obtain ⟨hfirst, happart⟩ := List.pairwise_cons.1 happart
    -- The partner of the first element is taken, and the others find theirs in the rest.
    obtain ⟨before, after, rfl⟩ := List.append_of_mem hmem
    have hsub : before ++ after ⊆ before ++ partner :: after := by
      intro b hb
      rcases List.mem_append.1 hb with hb | hb
      · exact List.mem_append_left _ hb
      · exact List.mem_append_right _ (List.mem_cons_of_mem _ hb)
    have hrest : ∀ a' ∈ as, ∃ b ∈ before ++ after, R a' b := by
      intro a' ha'
      obtain ⟨b, hb, hRb⟩ := hpartner a' ha'
      have hne : b ≠ partner := by
        rintro rfl
        exact hfirst a' ha' b hmem hR hRb
      exact ⟨b, by simpa [hne] using hb, hRb⟩
    obtain ⟨partners, hperm, hrel⟩ := ih (by simp at hlength ⊢; omega) hrest
      (happart.imp fun h b hb => h b (hsub hb))
    exact ⟨partner :: partners, (hperm.cons partner).trans List.perm_middle.symm, .cons hR hrel⟩

/-- Each member of that list is a partner. -/
theorem exists_mem_of_forall_exists_mem {α β : Type} {R : α → β → Prop} {as : List α}
    {bs : List β} (hlength : as.length = bs.length) (hpartner : ∀ a ∈ as, ∃ b ∈ bs, R a b)
    (happart : as.Pairwise fun a a' => ∀ b ∈ bs, R a b → ¬ R a' b) :
    ∀ b ∈ bs, ∃ a ∈ as, R a b := by
  obtain ⟨partners, hperm, hrel⟩ := exists_perm_forall₂ hlength hpartner happart
  intro b hb
  obtain ⟨i, hi, rfl⟩ := List.getElem_of_mem (hperm.mem_iff.2 hb)
  have hi' : i < as.length := hrel.length_eq ▸ hi
  exact ⟨as[i], List.getElem_mem hi', hrel.get hi' hi⟩

/-- Different names that are as many as others and all among them leave none of
those out. -/
theorem subset_of_nodup_of_length_eq {names others : List String} (hnodup : names.Nodup)
    (hsub : names ⊆ others) (hlength : names.length = others.length) : others ⊆ names := by
  intro name hname
  have hapart : names.Pairwise fun a a' => ∀ b ∈ others, a = b → ¬ a' = b :=
    hnodup.imp fun hne b _ ha ha' => hne (ha.trans ha'.symm)
  obtain ⟨a, ha, rfl⟩ :=
    exists_mem_of_forall_exists_mem hlength (fun a ha => ⟨a, hsub ha, rfl⟩) hapart name hname
  exact ha

namespace Value

/-! ### Equality, kind by kind -/

/-- **Entries are equal** to entries among which each of them has one of equal key
and value. -/
theorem beqEntries_iff {entries others : Dict} :
    beqEntries entries others = true ↔
      ∀ a ∈ entries, ∃ b ∈ others, beq a.1 b.1 = true ∧ beq a.2 b.2 = true := by
  induction entries with
  | nil => simp [beqEntries]
  | cons entry rest ih =>
    obtain ⟨key, value⟩ := entry
    rw [beqEntries, Bool.and_eq_true, ih, List.forall_mem_cons, List.any_eq_true]
    simp only [Bool.and_eq_true]

/-- Closures are equal if they have equal parameters and bodies. -/
theorem beqClosure_iff {f g : Closure Value} :
    beqClosure f g = true ↔ f.params = g.params ∧ beqAll f.bodies g.bodies = true := by
  obtain ⟨serial, params, bodies, scope⟩ := f
  rw [beqClosure, Bool.and_eq_true, beq_iff_eq]

/-- A scope is found in an environment if every name visible in it is bound to an equal value
there. -/
theorem beqScope_iff {frames : List (String × Value)} {other : Env Value} :
    beqScope frames [] other = true ↔
      ∀ name v, frames.lookup name = some v →
        ∃ w, other.lookup name = some w ∧ beq v w = true := by
  have hnodup := Chain.nodup_names_newest [] frames
  rw [beqScope_eq_all, List.all_eq_true, Prod.forall]
  refine forall₂_congr fun name v => ?_
  rw [← lookup_eq_some_iff hnodup, Chain.lookup_newest_nil, agreesIn, Option.any_eq_true]

/-- **Environments are equal** if they bind as many names and what a look-up finds
in the left is equal to what it finds in the right. -/
theorem beqEnv_iff {e other : Env Value} :
    beqEnv e other = true ↔ e.size = other.size ∧
      ∀ name v, e.lookup name = some v →
        ∃ w, other.lookup name = some w ∧ beq v w = true := by
  cases e with
  | persistent frames => rw [beqEnv, Bool.and_eq_true, beq_iff_eq, beqScope_iff]; rfl
  | mutable bindings => rw [beqEnv, Bool.and_eq_true, beq_iff_eq, beqScope_iff]; rfl

/-- States are equal if their environments and their slots are. -/
theorem beqState_iff {s other : State Value} :
    beqState s other = true ↔
      beqEnv s.env other.env = true ∧ beqAll s.refs other.refs = true := by
  obtain ⟨e, refs⟩ := s
  rw [beqState, Bool.and_eq_true]

/-! ### Transitivity -/

/-- Equality of lists is transitive if that of their elements is. -/
theorem beqAll_trans {as bs cs : List Value}
    (h : ∀ a ∈ as, ∀ b c, beq a b = true → beq b c = true → beq a c = true)
    (hab : beqAll as bs = true) (hbc : beqAll bs cs = true) : beqAll as cs = true := by
  induction as generalizing bs cs with
  | nil =>
    cases bs with
    | nil => exact hbc
    | cons b bs => simp [beqAll] at hab
  | cons a as ih =>
    obtain ⟨ha, has⟩ := List.forall_mem_cons.1 h
    cases bs with
    | nil => simp [beqAll] at hab
    | cons b bs =>
      cases cs with
      | nil => simp [beqAll] at hbc
      | cons c cs =>
        rw [beqAll, Bool.and_eq_true] at hab hbc ⊢
        exact ⟨ha b c hab.1 hbc.1, ih has hab.2 hbc.2⟩

/-- Inclusion of dictionaries is transitive if equality of their parts is. -/
theorem beqEntries_trans {as bs cs : Dict}
    (h : ∀ a ∈ entryParts as, ∀ b c, beq a b = true → beq b c = true → beq a c = true)
    (hab : beqEntries as bs = true) (hbc : beqEntries bs cs = true) :
    beqEntries as cs = true := by
  rw [beqEntries_iff] at hab hbc ⊢
  intro a ha
  obtain ⟨b, hb, hkey, hvalue⟩ := hab a ha
  obtain ⟨c, hc, hkey', hvalue'⟩ := hbc b hb
  exact ⟨c, hc, h _ (mem_entryParts.2 ⟨a, ha, Or.inl rfl⟩) _ _ hkey hkey',
    h _ (mem_entryParts.2 ⟨a, ha, Or.inr rfl⟩) _ _ hvalue hvalue'⟩

/-- Equality of closures is transitive if that of their bodies is. -/
theorem beqClosure_trans {f g k : Closure Value}
    (h : ∀ a ∈ f.bodies, ∀ b c, beq a b = true → beq b c = true → beq a c = true)
    (hfg : beqClosure f g = true) (hgk : beqClosure g k = true) : beqClosure f k = true := by
  rw [beqClosure_iff] at hfg hgk ⊢
  exact ⟨hfg.1.trans hgk.1, beqAll_trans h hfg.2 hgk.2⟩

/-- Equality of environments is transitive if that of their values is. -/
theorem beqEnv_trans {e e' e'' : Env Value}
    (h : ∀ a ∈ e.values, ∀ b c, beq a b = true → beq b c = true → beq a c = true)
    (he : beqEnv e e' = true) (he' : beqEnv e' e'' = true) : beqEnv e e'' = true := by
  rw [beqEnv_iff] at he he' ⊢
  refine ⟨he.1.trans he'.1, ?_⟩
  intro name v hfind
  obtain ⟨w, hfind', hvw⟩ := he.2 name v hfind
  obtain ⟨u, hfind'', hwu⟩ := he'.2 name w hfind'
  exact ⟨u, hfind'', h v (Env.mem_values_of_lookup hfind) w u hvw hwu⟩

/-- **Equality is transitive**, of all values. -/
theorem beq_trans {a b c : Value} (hab : beq a b = true) (hbc : beq b c = true) :
    beq a c = true := by
  induction a using inductionOnParts generalizing b c with
  | step a ih =>
  have hparts : ∀ w ∈ a.parts, ∀ b c, beq w b = true → beq b c = true → beq w c = true :=
    fun w hw b c => ih w hw
  -- Values of two kinds are unequal, so the three are of one kind.
  cases a with
  | list items =>
    cases b <;> simp only [beq, Bool.false_eq_true] at hab
    cases c <;> simp only [beq, Bool.false_eq_true] at hbc ⊢
    exact beqAll_trans hparts hab hbc
  | vector items =>
    cases b <;> simp only [beq, Bool.false_eq_true] at hab
    cases c <;> simp only [beq, Bool.false_eq_true] at hbc ⊢
    exact beqAll_trans hparts hab hbc
  | dict entries =>
    cases b <;> simp only [beq, Bool.false_eq_true, Bool.and_eq_true, beq_iff_eq] at hab
    cases c <;> simp only [beq, Bool.false_eq_true, Bool.and_eq_true, beq_iff_eq] at hbc ⊢
    exact ⟨hab.1.trans hbc.1, beqEntries_trans hparts hab.2 hbc.2⟩
  | lambda fn =>
    cases b <;> simp only [beq, Bool.false_eq_true] at hab
    cases c <;> simp only [beq, Bool.false_eq_true] at hbc ⊢
    exact beqClosure_trans (fun w hw => hparts w (List.mem_append_left _ hw)) hab hbc
  | lambdaRec name fn =>
    cases b <;> simp only [beq, Bool.false_eq_true, Bool.and_eq_true, beq_iff_eq] at hab
    cases c <;> simp only [beq, Bool.false_eq_true, Bool.and_eq_true, beq_iff_eq] at hbc ⊢
    exact ⟨hab.1.trans hbc.1,
      beqClosure_trans (fun w hw => hparts w (List.mem_append_left _ hw)) hab.2 hbc.2⟩
  | env e =>
    cases b <;> simp only [beq, Bool.false_eq_true] at hab
    cases c <;> simp only [beq, Bool.false_eq_true] at hbc ⊢
    exact beqEnv_trans hparts hab hbc
  | state s =>
    cases b <;> simp only [beq, Bool.false_eq_true, beqState_iff] at hab
    cases c <;> simp only [beq, Bool.false_eq_true, beqState_iff] at hbc ⊢
    exact ⟨beqEnv_trans (fun w hw => hparts w (List.mem_append_left _ hw)) hab.1 hbc.1,
      beqAll_trans (fun w hw => hparts w (List.mem_append_right _ hw)) hab.2 hbc.2⟩
  | _ =>
    cases b <;> simp only [beq, Bool.false_eq_true, beq_iff_eq] at hab
    all_goals cases c <;> simp only [beq, Bool.false_eq_true, beq_iff_eq] at hbc ⊢
    all_goals exact hab.trans hbc

/-! ### Symmetry -/

/-- Equality of lists is symmetric if that of their elements is. -/
theorem beqAll_symm {as bs : List Value}
    (h : ∀ a ∈ as, ∀ b ∈ bs, beq a b = true → beq b a = true)
    (hab : beqAll as bs = true) : beqAll bs as = true := by
  induction as generalizing bs with
  | nil =>
    cases bs with
    | nil => exact hab
    | cons b bs => simp [beqAll] at hab
  | cons a as ih =>
    cases bs with
    | nil => simp [beqAll] at hab
    | cons b bs =>
      rw [beqAll, Bool.and_eq_true] at hab ⊢
      refine ⟨h a (List.mem_cons_self ..) b (List.mem_cons_self ..) hab.1, ih ?_ hab.2⟩
      exact fun x hx y hy => h x (List.mem_cons_of_mem _ hx) y (List.mem_cons_of_mem _ hy)

/-- Two entries with unequal keys are not equal to one and the same entry. -/
theorem apart_of_unequal {as bs : Dict} (hkeys : as.Unequal)
    (hsymm : ∀ a ∈ as, ∀ b ∈ bs, beq a.1 b.1 = true → beq b.1 a.1 = true) :
    as.Pairwise fun a a' => ∀ b ∈ bs, (beq a.1 b.1 = true ∧ beq a.2 b.2 = true) →
      ¬ (beq a'.1 b.1 = true ∧ beq a'.2 b.2 = true) := by
  refine List.Pairwise.imp_of_mem ?_ hkeys
  intro a a' ha ha' hne b hb hmatch hmatch'
  have hequal : beq a'.1 a.1 = true := beq_trans hmatch'.1 (hsymm a ha b hb hmatch.1)
  rw [Value.beq_eq, hequal] at hne
  cases hne

/-- Entries with unequal keys that are found among as many others are all that
those are equal to. -/
theorem beqEntries_symm {as bs : Dict} (hkeys : as.Unequal) (hlength : as.length = bs.length)
    (h : ∀ a ∈ entryParts as, ∀ b ∈ entryParts bs, beq a b = true → beq b a = true)
    (hab : beqEntries as bs = true) : beqEntries bs as = true := by
  have hkey : ∀ a ∈ as, ∀ b ∈ bs, beq a.1 b.1 = true → beq b.1 a.1 = true :=
    fun a ha b hb => h _ (mem_entryParts.2 ⟨a, ha, Or.inl rfl⟩) _
      (mem_entryParts.2 ⟨b, hb, Or.inl rfl⟩)
  have hvalue : ∀ a ∈ as, ∀ b ∈ bs, beq a.2 b.2 = true → beq b.2 a.2 = true :=
    fun a ha b hb => h _ (mem_entryParts.2 ⟨a, ha, Or.inr rfl⟩) _
      (mem_entryParts.2 ⟨b, hb, Or.inr rfl⟩)
  have happart := apart_of_unequal hkeys hkey
  rw [beqEntries_iff] at hab ⊢
  intro b hb
  obtain ⟨a, ha, hmatch⟩ := exists_mem_of_forall_exists_mem hlength hab happart b hb
  exact ⟨a, ha, hkey a ha b hb hmatch.1, hvalue a ha b hb hmatch.2⟩

/-- Equality of closures is symmetric if that of their bodies is. -/
theorem beqClosure_symm {f g : Closure Value}
    (h : ∀ a ∈ f.bodies, ∀ b ∈ g.bodies, beq a b = true → beq b a = true)
    (hfg : beqClosure f g = true) : beqClosure g f = true := by
  rw [beqClosure_iff] at hfg ⊢
  exact ⟨hfg.1.symm, beqAll_symm h hfg.2⟩

/-- **Environments are equal** if they bind the same names, and these to equal values. -/
theorem beqEnv_iff_rel {e other : Env Value} (he : e.Distinct) (ho : other.Distinct) :
    beqEnv e other = true ↔ ∀ name,
      Option.Rel (fun v w => beq v w = true) (e.lookup name) (other.lookup name) := by
  constructor
  · intro hab name
    obtain ⟨hsize, hfound⟩ := beqEnv_iff.1 hab
    have hsub : e.bindings.map Prod.fst ⊆ other.bindings.map Prod.fst := by
      intro name hname
      obtain ⟨v, hfind⟩ :=
        Option.isSome_iff_exists.1 ((Env.mem_names_bindings_iff he name).1 hname)
      obtain ⟨w, hfind', _⟩ := hfound name v hfind
      exact (Env.mem_names_bindings_iff ho name).2 (Option.isSome_iff_exists.2 ⟨w, hfind'⟩)
    -- The names on the left are among as many names on the right, so they are all of them.
    have hsuper : other.bindings.map Prod.fst ⊆ e.bindings.map Prod.fst := by
      refine subset_of_nodup_of_length_eq (Env.nodup_names_bindings he) hsub ?_
      rw [List.length_map, List.length_map]
      exact hsize
    cases hfind : e.lookup name with
    | some v =>
      obtain ⟨w, hfind', hvw⟩ := hfound name v hfind
      rw [hfind']
      exact .some hvw
    | none =>
      cases hfind' : other.lookup name with
      | none => exact .none
      | some w =>
        have hname := hsuper ((Env.mem_names_bindings_iff ho name).2 (by rw [hfind']; rfl))
        rw [Env.mem_names_bindings_iff he, hfind] at hname
        cases hname
  · intro hrel
    refine beqEnv_iff.2 ⟨?_, fun name v hfind => ?_⟩
    -- The same names are bound, each once: the listings may differ in order alone.
    · have hnames : (e.bindings.map Prod.fst).Perm (other.bindings.map Prod.fst) := by
        refine (List.perm_ext_iff_of_nodup (Env.nodup_names_bindings he)
          (Env.nodup_names_bindings ho)).2 fun name => ?_
        rw [Env.mem_names_bindings_iff he, Env.mem_names_bindings_iff ho]
        have hname := hrel name
        generalize e.lookup name = found, other.lookup name = found' at hname
        cases hname <;> rfl
      have hlength := hnames.length_eq
      rwa [List.length_map, List.length_map] at hlength
    · have hname := hrel name
      rw [hfind] at hname
      generalize other.lookup name = found at hname
      cases hname with
      | some hvw => exact ⟨_, rfl, hvw⟩

/-- Equality of environments is symmetric if that of their values is. -/
theorem beqEnv_symm {e other : Env Value} (he : e.Distinct) (ho : other.Distinct)
    (h : ∀ a ∈ e.values, ∀ b ∈ other.values, beq a b = true → beq b a = true)
    (hab : beqEnv e other = true) : beqEnv other e = true := by
  refine (beqEnv_iff_rel ho he).2 fun name => ?_
  have hrel := (beqEnv_iff_rel he ho).1 hab name
  cases hfind : e.lookup name <;> cases hfind' : other.lookup name <;> rw [hfind, hfind'] at hrel
  · exact .none
  · cases hrel
  · cases hrel
  · cases hrel with
    | some hvw =>
      exact .some (h _ (Env.mem_values_of_lookup hfind) _ (Env.mem_values_of_lookup hfind') hvw)

/-- **Equality is symmetric**, of well-formed values. -/
theorem beq_symm {a b : Value} (ha : a.WellFormed) (hb : b.WellFormed) (hab : beq a b = true) :
    beq b a = true := by
  induction a using inductionOnParts generalizing b with
  | step a ih =>
  -- Look-ups compare a part with any part of the other side, not with its counterpart.
  have hparts : ∀ v ∈ a.parts, ∀ w ∈ b.parts, beq v w = true → beq w v = true :=
    fun v hv w hw => ih v hv (ha.inside v hv) (hb.inside w hw)
  cases a with
  | list items =>
    cases b <;> simp only [beq, Bool.false_eq_true] at hab ⊢
    exact beqAll_symm hparts hab
  | vector items =>
    cases b <;> simp only [beq, Bool.false_eq_true] at hab ⊢
    exact beqAll_symm hparts hab
  | dict entries =>
    cases b <;> simp only [beq, Bool.false_eq_true, Bool.and_eq_true, beq_iff_eq] at hab ⊢
    exact ⟨hab.1.symm, beqEntries_symm ha.here hab.1 hparts hab.2⟩
  | lambda fn =>
    cases b <;> simp only [beq, Bool.false_eq_true] at hab ⊢
    exact beqClosure_symm (fun v hv w hw =>
      hparts v (List.mem_append_left _ hv) w (List.mem_append_left _ hw)) hab
  | lambdaRec name fn =>
    cases b <;> simp only [beq, Bool.false_eq_true, Bool.and_eq_true, beq_iff_eq] at hab ⊢
    exact ⟨hab.1.symm, beqClosure_symm (fun v hv w hw =>
      hparts v (List.mem_append_left _ hv) w (List.mem_append_left _ hw)) hab.2⟩
  | env e =>
    cases b <;> simp only [beq, Bool.false_eq_true] at hab ⊢
    exact beqEnv_symm ha.here hb.here hparts hab
  | state s =>
    cases b <;> simp only [beq, Bool.false_eq_true, beqState_iff] at hab ⊢
    exact ⟨beqEnv_symm ha.here hb.here (fun v hv w hw =>
        hparts v (List.mem_append_left _ hv) w (List.mem_append_left _ hw)) hab.1,
      beqAll_symm (fun v hv w hw =>
        hparts v (List.mem_append_right _ hv) w (List.mem_append_right _ hw)) hab.2⟩
  | _ =>
    cases b <;> simp only [beq, Bool.false_eq_true, beq_iff_eq] at hab ⊢
    all_goals exact hab.symm

/-- **Equality is an equivalence relation** on the well-formed values of every kind:
on dicts whatever the order of their entries and whatever their keys, on
environments of either variant on either side, and on states. -/
theorem beq_equivalence :
    Equivalence fun a b : {v : Value // v.WellFormed} => (a.val == b.val) = true where
  refl a := by rw [beq_eq, beq_self]
  symm {a b} h := by
    rw [beq_eq] at h ⊢
    exact beq_symm a.property b.property h
  trans h h' := by
    rw [beq_eq] at h h' ⊢
    exact beq_trans h h'

/-- A dict keyed by a dict and by an environment, both ways round. -/
example :
    (dict [(dict [(number 1, null), (number 2, null)], atom "x"),
        (env (.mutable [("a", null), ("b", nil)]), atom "y")] ==
      dict [(env (.persistent [("a", null), ("b", nil), ("a", nil)]), atom "y"),
        (dict [(number 2, null), (number 1, null)], atom "x")]) = true := by
  decide +kernel

end Value

namespace Dict

/-- The entry whose key equals the one that is looked up is the one that is found. -/
theorem find?_of_mem {key : Value} {entries : Dict} {entry : Value × Value}
    (hkeys : entries.Unequal) (hwell : key.WellFormed ∧ entry.1.WellFormed)
    (hmem : entry ∈ entries) (hequal : (key == entry.1) = true) :
    find? key entries = some entry.2 := by
  induction entries with
  | nil => cases hmem
  | cons first rest ih =>
    obtain ⟨other, value⟩ := first
    obtain ⟨hfirst, hrest⟩ := List.pairwise_cons.1 hkeys
    rw [find?]
    rcases List.mem_cons.1 hmem with rfl | hmem
    · rw [if_pos hequal]
    · -- The key of an earlier entry is not equal too, as the two would be equal.
      have hother : ¬ (key == other) = true := fun h => by
        rw [Value.beq_eq] at h hequal
        have hsame := Value.beq_trans (Value.beq_symm hwell.1 hwell.2 hequal) h
        rw [← Value.beq_eq, hfirst entry hmem] at hsame
        cases hsame
      rw [if_neg hother, ih hrest hmem]

end Dict

namespace Value

/-- **Dicts are compared by look-up**: as many entries, and each key of the left is
found in the right with an equal value. -/
theorem beq_dict_iff {as bs : Dict} (ha : (dict as).WellFormed) (hb : (dict bs).WellFormed) :
    (dict as == dict bs) = true ↔ as.length = bs.length ∧
      ∀ entry ∈ as, ∃ found, Dict.find? entry.1 bs = some found ∧ (found == entry.2) = true := by
  have hwell := (everywhere_dict.1 ha).2
  have hwell' := (everywhere_dict.1 hb).2
  rw [beq_eq, beq, Bool.and_eq_true, beq_iff_eq, beqEntries_iff]
  refine and_congr_right fun _ => forall₂_congr fun entry hentry => ?_
  obtain ⟨hkey, hvalue⟩ := hwell entry hentry
  constructor
  · rintro ⟨other, hother, hkeys, hvalues⟩
    rw [← beq_eq] at hkeys
    refine ⟨other.2, Dict.find?_of_mem hb.here ⟨hkey, (hwell' other hother).1⟩ hother hkeys, ?_⟩
    rw [beq_eq]
    exact beq_symm hvalue (hwell' other hother).2 hvalues
  · rintro ⟨found, hfind, hvalues⟩
    obtain ⟨other, hother, hkeys, rfl⟩ := Dict.exists_mem_of_find? hfind
    rw [beq_eq] at hkeys hvalues
    exact ⟨other, hother, hkeys, beq_symm (hwell' other hother).2 hvalue hvalues⟩

end Value
end CapLisp
