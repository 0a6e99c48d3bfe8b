/-
# Hashing agrees with equality

Equality forgets the order of dict entries, the scope of closures and the variant and
order of environments.  Hashing has to forget all of that, too: a key that is equal to a
stored one and has another hash would never be found.

It does (`hashTokens_eq_of_beq`).  The one step that takes an argument is that of dicts.
Equal dicts hold the same entries in another order, up to equality of keys and values
(`exists_perm_of_beq_dict`), and the hashes of the entries are added up, which no order
changes (`hashEntries_perm`).  A look-up by hash is then a look-up among all the entries
(`Dict.findByHash?_eq_find?`).
-/

import CapLisp.Proofs.Equivalence
import CapLisp.Value.Hash

namespace CapLisp
namespace Value

/-- **Equal dicts hold the same entries in another order**, up to equality of the keys and
the values. -/
theorem exists_perm_of_beq_dict {as bs : Dict} (ha : (dict as).WellFormed)
    (hb : (dict bs).WellFormed) (hab : beq (dict as) (dict bs) = true) :
    ∃ partners, partners.Perm bs ∧ List.Forall₂
      (fun a b => beq a.1 b.1 = true ∧ beq a.2 b.2 = true) as partners := by
  have hwell := (everywhere_dict.1 ha).2
  have hwell' := (everywhere_dict.1 hb).2
  rw [beq, Bool.and_eq_true, beq_iff_eq, beqEntries_iff] at hab
  refine exists_perm_forall₂ hab.1 hab.2 (apart_of_unequal ha.here ?_)
  exact fun a hmem b hmem' => beq_symm (hwell a hmem).1 (hwell' b hmem').1

section

variable {entryHash : List HashToken → UInt64}

/-! ### Dicts -/

/-- The hash of an entry. -/
def entryCode (entryHash : List HashToken → UInt64) (entry : Value × Value) : UInt64 :=
  entryHash (entry.1.hashTokens entryHash ++ entry.2.hashTokens entryHash)

/-- Entries add up their codes, in whatever order. -/
theorem hashEntries_eq_foldl (sum : UInt64) (entries : Dict) :
    hashEntries entryHash sum entries =
      (entries.map (entryCode entryHash)).foldl (· + ·) sum := by
  induction entries generalizing sum with
  | nil => rfl
  | cons entry rest ih => exact ih _

/-- **The sum of the hashes does not depend on the order** of the entries. -/
theorem hashEntries_perm {entries others : Dict} (h : entries.Perm others) (sum : UInt64) :
    hashEntries entryHash sum entries = hashEntries entryHash sum others := by
  have hcomm : ∀ a b c : UInt64, a + b + c = a + c + b := fun a b c => by
    rw [UInt64.add_assoc, UInt64.add_comm b c, ← UInt64.add_assoc]
  rw [hashEntries_eq_foldl, hashEntries_eq_foldl]
  exact (h.map _).foldl_eq' (fun a _ b _ c => hcomm c a b) sum

/-- Entries with equal codes one by one add up to the same. -/
theorem hashEntries_congr {R : Value × Value → Value × Value → Prop} {as bs : Dict}
    (hrel : List.Forall₂ R as bs)
    (hcode : ∀ a ∈ as, ∀ b ∈ bs, R a b → entryCode entryHash a = entryCode entryHash b)
    (sum : UInt64) : hashEntries entryHash sum as = hashEntries entryHash sum bs := by
  rw [hashEntries_eq_foldl, hashEntries_eq_foldl]
  congr 1
  induction hrel with
  | nil => rfl
  | cons hab _ ih =>
    rw [List.map_cons, List.map_cons,
      hcode _ (List.mem_cons_self ..) _ (List.mem_cons_self ..) hab,
      ih fun a ha b hb => hcode a (List.mem_cons_of_mem _ ha) b (List.mem_cons_of_mem _ hb)]

/-! ### Elements and closures -/

/-- Equal lists feed the same tokens if their equal elements do. -/
theorem hashTokensAll_congr {as bs : List Value}
    (h : ∀ a ∈ as, ∀ b ∈ bs, beq a b = true → a.hashTokens entryHash = b.hashTokens entryHash)
    (hab : beqAll as bs = true) :
    as.length = bs.length ∧ hashTokensAll entryHash as = hashTokensAll entryHash bs := by
  induction as generalizing bs with
  | nil =>
    cases bs with
    | nil => exact ⟨rfl, rfl⟩
    | cons b bs => simp [beqAll] at hab
  | cons a as ih =>
    cases bs with
    | nil => simp [beqAll] at hab
    | cons b bs =>
      rw [beqAll, Bool.and_eq_true] at hab
      have hitem := h a (List.mem_cons_self ..) b (List.mem_cons_self ..) hab.1
      obtain ⟨hlength, hrest⟩ := ih (fun x hx y hy =>
        h x (List.mem_cons_of_mem _ hx) y (List.mem_cons_of_mem _ hy)) hab.2
      refine ⟨by rw [List.length_cons, List.length_cons, hlength], ?_⟩
      rw [hashTokensAll, hashTokensAll, hitem, hrest]

/-- Equal closures feed the same tokens if their equal bodies do. -/
theorem hashTokensClosure_congr {f g : Closure Value}
    (h : ∀ a ∈ f.bodies, ∀ b ∈ g.bodies, beq a b = true →
      a.hashTokens entryHash = b.hashTokens entryHash)
    (hfg : beqClosure f g = true) :
    hashTokensClosure entryHash f = hashTokensClosure entryHash g := by
  obtain ⟨hparams, hbodies⟩ := beqClosure_iff.1 hfg
  obtain ⟨hlength, htokens⟩ := hashTokensAll_congr h hbodies
  obtain ⟨_, _, bodies, _⟩ := f
  obtain ⟨_, _, others, _⟩ := g
  rw [hashTokensClosure, hashTokensClosure]
  dsimp only at hparams hlength htokens
  rw [hparams, hlength, htokens]

end

/-- **Equal values feed the same tokens to the hasher**, whatever kind they are of and
however they nest. -/
theorem hashTokens_eq_of_beq {a b : Value} (ha : a.WellFormed) (hb : b.WellFormed)
    (hab : beq a b = true) (entryHash : List HashToken → UInt64) :
    a.hashTokens entryHash = b.hashTokens entryHash := by
  induction a using inductionOnParts generalizing b with
  | step a ih =>
  have hparts : ∀ v ∈ a.parts, ∀ w ∈ b.parts, beq v w = true →
      v.hashTokens entryHash = w.hashTokens entryHash :=
    fun v hv w hw => ih v hv (ha.inside v hv) (hb.inside w hw)
  -- Values of two kinds are unequal, so the two are of one kind.
  cases a with
  | list items =>
    cases b <;> simp only [beq, Bool.false_eq_true] at hab
    next others =>
    have htokens : hashTokensAll entryHash items = hashTokensAll entryHash others :=
      (hashTokensAll_congr hparts hab).2
    rw [hashTokens, hashTokens, htokens]
  | vector items =>
    cases b <;> simp only [beq, Bool.false_eq_true] at hab
    next others =>
    have htokens : items.length = others.length ∧ _ := hashTokensAll_congr hparts hab
    rw [hashTokens, hashTokens, htokens.1, htokens.2]
  | dict entries =>
    have hdict := hab
    cases b <;> simp only [beq, Bool.false_eq_true, Bool.and_eq_true, beq_iff_eq] at hab
    next others =>
    obtain ⟨partners, hperm, hrel⟩ := exists_perm_of_beq_dict ha hb hdict
    have hcode : ∀ e ∈ entries, ∀ e' ∈ partners, (beq e.1 e'.1 = true ∧ beq e.2 e'.2 = true) →
        entryCode entryHash e = entryCode entryHash e' := by
      intro e he e' he' hequal
      have hmem : e' ∈ others := hperm.subset he'
      rw [entryCode, entryCode,
        hparts e.1 (mem_entryParts.2 ⟨e, he, .inl rfl⟩) e'.1
          (mem_entryParts.2 ⟨e', hmem, .inl rfl⟩) hequal.1,
        hparts e.2 (mem_entryParts.2 ⟨e, he, .inr rfl⟩) e'.2
          (mem_entryParts.2 ⟨e', hmem, .inr rfl⟩) hequal.2]
    rw [hashTokens, hashTokens, hab.1, hashEntries_congr hrel hcode, hashEntries_perm hperm]
  | lambda fn =>
    cases b <;> simp only [beq, Bool.false_eq_true] at hab
    next g =>
    have htokens : hashTokensClosure entryHash fn = hashTokensClosure entryHash g :=
      hashTokensClosure_congr (fun v hv w hw =>
        hparts v (List.mem_append_left _ hv) w (List.mem_append_left _ hw)) hab
    rw [hashTokens, hashTokens, htokens]
  | lambdaRec name fn =>
    cases b <;> simp only [beq, Bool.false_eq_true, Bool.and_eq_true, beq_iff_eq] at hab
    next g =>
    have htokens : hashTokensClosure entryHash fn = hashTokensClosure entryHash g :=
      hashTokensClosure_congr (fun v hv w hw =>
        hparts v (List.mem_append_left _ hv) w (List.mem_append_left _ hw)) hab.2
    rw [hashTokens, hashTokens, hab.1, htokens]
  | env e =>
    cases b <;> simp only [beq, Bool.false_eq_true] at hab
    rw [hashTokens, hashTokens, (beqEnv_iff.1 hab).1]
  | state s =>
    cases b <;> simp only [beq, Bool.false_eq_true] at hab
    rfl
  | _ =>
    cases b <;> simp only [beq, Bool.false_eq_true, beq_iff_eq] at hab
    all_goals first | rfl | rw [hab]

end Value

namespace Dict

/-- A look-up by hash is a look-up among all the entries, if no equal key has another hash. -/
theorem findByHash?_eq_find? {hash : Value → UInt64} {key : Value} {entries : Dict}
    (h : ∀ entry ∈ entries, (key == entry.1) = true → hash entry.1 = hash key) :
    findByHash? hash key entries = find? key entries := by
  induction entries with
  | nil => rfl
  | cons entry rest ih =>
    have hrest := ih fun e he => h e (List.mem_cons_of_mem _ he)
    rw [findByHash?] at hrest ⊢
    rw [find?, List.filter_cons, ← hrest]
    by_cases hhash : hash entry.1 = hash key
    · rw [if_pos (beq_iff_eq.2 hhash), find?]
    · -- A key of another hash is skipped, and it is not equal.
      have hunequal : ¬(key == entry.1) = true := fun hequal =>
        hhash (h entry (List.mem_cons_self ..) hequal)
      rw [if_neg (fun hbeq => hhash (beq_iff_eq.1 hbeq)), if_neg hunequal]

end Dict

namespace Value

section

variable (entryHash finish : List HashToken → UInt64)

/-- The hash that a hasher makes of the tokens of a value. -/
def hashWith (v : Value) : UInt64 := finish (v.hashTokens entryHash)

/-- **Equal values have equal hashes.** -/
theorem hashWith_eq_of_beq {a b : Value} (ha : a.WellFormed) (hb : b.WellFormed)
    (hab : (a == b) = true) : a.hashWith entryHash finish = b.hashWith entryHash finish := by
  rw [beq_eq] at hab
  rw [hashWith, hashWith, hashTokens_eq_of_beq ha hb hab]

/-- **A look-up by hash finds what a look-up among all the entries finds.** -/
theorem findByHash?_hashWith {key : Value} (hkey : key.WellFormed) {entries : Dict}
    (hentries : (dict entries).WellFormed) :
    Dict.findByHash? (hashWith entryHash finish) key entries = Dict.find? key entries :=
  Dict.findByHash?_eq_find? fun entry hmem hequal =>
    (hashWith_eq_of_beq entryHash finish hkey ((everywhere_dict.1 hentries).2 entry hmem).1
      hequal).symm

/-- Equality of dicts may look the keys up by their hashes. -/
theorem beq_dict_iff_findByHash? {as bs : Dict} (ha : (dict as).WellFormed)
    (hb : (dict bs).WellFormed) :
    (dict as == dict bs) = true ↔ as.length = bs.length ∧
      ∀ entry ∈ as, ∃ found,
        Dict.findByHash? (hashWith entryHash finish) entry.1 bs = some found ∧
          (found == entry.2) = true := by
  rw [beq_dict_iff ha hb]
  refine and_congr_right fun _ => forall₂_congr fun entry hmem => ?_
  rw [findByHash?_hashWith entryHash finish ((everywhere_dict.1 ha).2 entry hmem).1 hb]

end

/-- **Equal values are hashed alike.**  Whatever the hash of an entry of a dict makes of the
tokens of that entry, the two values feed the same tokens to the hasher.  A dict that holds
one of them as a key therefore finds its value when it looks the other one up by hash, and a
look-up by hash never finds less than a look-up among all the entries. -/
theorem equal_values_hash_alike {a b : Value} (ha : a.WellFormed) (hb : b.WellFormed)
    (hab : (a == b) = true) (entryHash finish : List HashToken → UInt64) :
    a.hashTokens entryHash = b.hashTokens entryHash ∧
      ∀ entries, (dict entries).WellFormed →
        Dict.findByHash? (hashWith entryHash finish) a entries = Dict.find? a entries ∧
        ∀ value, (b, value) ∈ entries →
          Dict.findByHash? (hashWith entryHash finish) a entries = some value := by
  have htokens : a.hashTokens entryHash = b.hashTokens entryHash :=
    hashTokens_eq_of_beq ha hb (by rwa [beq_eq] at hab) entryHash
  refine ⟨htokens, fun entries hentries => ?_⟩
  have hfind := findByHash?_hashWith entryHash finish ha hentries
  refine ⟨hfind, fun value hmem => ?_⟩
  rw [hfind]
  exact Dict.find?_of_mem (everywhere_dict.1 hentries).1 ⟨ha, hb⟩ hmem hab

/-- A dict that is keyed by a dict, and the same one in another order, with closures made in
another scope and an environment of the other variant in it. -/
theorem equal_values_hash_alike_reordered :
    let hasher : List HashToken → UInt64 := fun tokens => UInt64.ofNat tokens.length
    let key : Value := .lambda ⟨1, ["x"], [.atom "x"], []⟩
    let key' : Value := .lambda ⟨2, ["x"], [.atom "x"], [("y", .null)]⟩
    let inner : Dict := [(.number 1, .env (.mutable [("x", .null)])), (key, .null)]
    let inner' : Dict :=
      [(key', .null), (.number 1, .env (.persistent [("x", .null), ("x", .number 2)]))]
    let as : Dict := [(.dict inner, .number 7), (.keyword "k", .vector [key])]
    let bs : Dict := [(.keyword "k", .vector [key']), (.dict inner', .number 7)]
    (dict as == dict bs) = true ∧
      (dict as).hashTokens hasher = (dict bs).hashTokens hasher ∧
      Dict.findByHash? (hashWith hasher hasher) (dict as) [(.null, .null), (dict bs, .number 3)] =
        some (.number 3) := by
  intro hasher key key' inner inner' as bs
  have hequal : (dict as == dict bs) = true := by decide +kernel
  have hkey : key.WellFormed := by
    simp [key, WellFormed, isWellFormed, EverywhereInClosure]
  have hkey' : key'.WellFormed := by
    simp [key', WellFormed, isWellFormed, EverywhereInClosure]
  have hinner : (dict inner).WellFormed := by
    refine everywhere_dict.2 ⟨List.pairwise_pair.2 (by decide +kernel), ?_⟩
    simpa [inner, WellFormed, isWellFormed, Env.Distinct, Env.values] using hkey
  have hinner' : (dict inner').WellFormed := by
    refine everywhere_dict.2 ⟨List.pairwise_pair.2 (by decide +kernel), ?_⟩
    simpa [inner', WellFormed, isWellFormed, Env.Distinct, Env.values] using hkey'
  have has : (dict as).WellFormed := by
    refine everywhere_dict.2 ⟨List.pairwise_pair.2 (by decide +kernel), ?_⟩
    simpa [as, WellFormed, isWellFormed, -everywhere_dict] using ⟨hinner, hkey⟩
  have hbs : (dict bs).WellFormed := by
    refine everywhere_dict.2 ⟨List.pairwise_pair.2 (by decide +kernel), ?_⟩
    simpa [bs, WellFormed, isWellFormed, -everywhere_dict] using ⟨hkey', hinner'⟩
  have hstore : (dict [(.null, .null), (dict bs, .number 3)]).WellFormed := by
    refine everywhere_dict.2 ⟨List.pairwise_pair.2 (by decide +kernel), ?_⟩
    simpa [WellFormed, isWellFormed] using hbs
  obtain ⟨htokens, hfind⟩ := equal_values_hash_alike has hbs hequal hasher hasher
  exact ⟨hequal, htokens, (hfind _ hstore).2 (.number 3) (by simp)⟩

end Value
end CapLisp
