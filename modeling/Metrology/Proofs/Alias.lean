import Metrology.Document
import Metrology.Session
import Metrology.Proofs.Monomial
import Metrology.Proofs.Outcome
import Mathlib.Data.List.Nodup

/-!
# Names of units and how they are read

A table never gives a name away twice, so the name that is shown for a unit leads back to that
unit.  The reader of documents looks a name up only after it has compared it with four words of
its own.  A unit that is shown under one of these words is not read back, and every other unit is.
-/

namespace Metrology

/-! ## Tables -/

namespace AliasTable

variable {t : AliasTable} {name : String} {unit : Monomial}

/-- The names of a table. -/
def names (t : AliasTable) : List String := t.entries.map Prod.fst

/-- The table of a list of entries, of which the first of each name counts. -/
def ofEntries (l : List (String × Monomial)) : AliasTable :=
  l.foldl (fun t e => t.insert e.1 e.2) empty

theorem isSome_unit?_iff : (t.unit? name).isSome ↔ name ∈ t.names := by
  have hnone : t.unit? name = none ↔ name ∉ t.names := by
    rw [unit?, List.lookup_eq_none_iff, names, List.mem_map]
    constructor
    · rintro h ⟨e, he, rfl⟩
      simpa using h e he
    · intro h e he
      simpa using fun heq : name = e.1 => h ⟨e, he, heq.symm⟩
  rw [Option.isSome_iff_ne_none, Ne, hnone, Decidable.not_not]

theorem names_insert :
    (t.insert name unit).names = if name ∈ t.names then t.names else t.names ++ [name] := by
  rw [insert]
  by_cases hname : name ∈ t.names
  · rw [if_pos (isSome_unit?_iff.2 hname), if_pos hname]
  · rw [if_neg (mt isSome_unit?_iff.1 hname), if_neg hname]
    simp [names]

theorem nodup_names_insert (h : t.names.Nodup) : (t.insert name unit).names.Nodup := by
  rw [names_insert]
  split
  · exact h
  · rename_i hname
    rw [← List.concat_eq_append]
    exact h.concat hname

theorem mem_names_insert {n : String} :
    n ∈ (t.insert name unit).names ↔ n = name ∨ n ∈ t.names := by
  rw [names_insert]
  split
  · rename_i hname
    constructor
    · exact .inr
    · rintro (rfl | hn)
      · exact hname
      · exact hn
  · rw [List.mem_append, List.mem_singleton, or_comm]

theorem nodup_names_foldl_insert {l : List (String × Monomial)} (h : t.names.Nodup) :
    (l.foldl (fun t e => t.insert e.1 e.2) t).names.Nodup := by
  induction l generalizing t with
  | nil => exact h
  | cons e rest ih => exact ih (nodup_names_insert h)

theorem mem_names_foldl_insert {l : List (String × Monomial)} {n : String} :
    n ∈ (l.foldl (fun t e => t.insert e.1 e.2) t).names ↔ n ∈ l.map Prod.fst ∨ n ∈ t.names := by
  induction l generalizing t with
  | nil => simp
  | cons e rest ih =>
    rw [List.foldl_cons, ih, mem_names_insert, List.map_cons, List.mem_cons, or_left_comm, or_assoc]

theorem nodup_names_ofEntries (l : List (String × Monomial)) : (ofEntries l).names.Nodup :=
  nodup_names_foldl_insert List.nodup_nil

theorem mem_names_ofEntries {l : List (String × Monomial)} {n : String} :
    n ∈ (ofEntries l).names ↔ n ∈ l.map Prod.fst := by
  rw [ofEntries, mem_names_foldl_insert]
  simp [names, empty]

/-- The name that is shown for a unit is a name of that unit. -/
theorem mem_entries_of_name? (h : t.name? unit = some name) : (name, unit) ∈ t.entries := by
  obtain ⟨⟨n, u⟩, hfind, rfl⟩ := Option.map_eq_some_iff.1 h
  have hu : u = unit := by simpa using List.find?_some hfind
  exact hu ▸ List.mem_of_find?_eq_some hfind

theorem lookup_of_mem {l : List (String × Monomial)} (hnodup : (l.map Prod.fst).Nodup)
    (h : (name, unit) ∈ l) : l.lookup name = some unit := by
  induction l with
  | nil => cases h
  | cons e rest ih =>
    obtain ⟨hfresh, hrest⟩ := List.nodup_cons.1 hnodup
    rw [SortedMap.lookup_cons_eq_ite]
    rcases List.mem_cons.1 h with rfl | h
    · rw [if_pos rfl]
    · have hne : name ≠ e.1 := by
        rintro rfl
        exact hfresh (List.mem_map.2 ⟨_, h, rfl⟩)
      rw [if_neg hne, ih hrest h]

/-- In a table without repeated names the name shown for a unit is looked up as that unit. -/
theorem unit?_of_name? (hnodup : t.names.Nodup) (h : t.name? unit = some name) :
    t.unit? name = some unit :=
  lookup_of_mem hnodup (mem_entries_of_name? h)

end AliasTable

namespace Session

open AliasTable

variable {dims : Dimensions} {entries : List (String × Monomial)} {t t' : AliasTable}

/-- Registration takes entries over the dimensions only. -/
theorem foldlM_register_eq_ok
    (h : entries.foldlM (fun (t : AliasTable) e => do return (← t.register dims e.1 e.2).2) t =
      .ok t') :
    (∀ e ∈ entries, dims.undeclared? e.2 = none) ∧
      t' = entries.foldl (fun t e => t.insert e.1 e.2) t := by
  induction entries generalizing t with
  | nil =>
    cases h
    exact ⟨List.forall_mem_nil _, rfl⟩
  | cons e rest ih =>
    obtain ⟨t₁, hstep, hrest⟩ := bind_eq_ok_iff.1 h
    obtain ⟨⟨free, t₂⟩, hregister, ht₁⟩ := bind_eq_ok_iff.1 hstep
    cases ht₁
    unfold register at hregister
    split at hregister
    · cases hregister
    · rename_i hdeclared
      cases hregister
      obtain ⟨hall, ht'⟩ := ih hrest
      exact ⟨List.forall_mem_cons.2 ⟨hdeclared, hall⟩, ht'⟩

/-- A session knows the names of its manifest and, where they are free, the standard ones. -/
theorem aliasTable_eq_ok (h : aliasTable dims entries = .ok t) :
    (∀ e ∈ entries, dims.undeclared? e.2 = none) ∧
      t = ofEntries (entries ++ standardEntries dims) := by
  obtain ⟨own, hown, ht⟩ := bind_eq_ok_iff.1 h
  cases ht
  obtain ⟨hdeclared, rfl⟩ := foldlM_register_eq_ok hown
  exact ⟨hdeclared, by rw [extendStandard, ofEntries, List.foldl_append]⟩

section Configure

variable {manifest : Manifest} {overrides : Overrides} {s : Session}

theorem aliasTable_of_configure (h : configure manifest overrides = .ok s) :
    aliasTable s.dimensions manifest.aliases = .ok s.aliases := by
  obtain ⟨dims, -, h⟩ := bind_eq_ok_iff.1 h
  obtain ⟨aliases, haliases, hs⟩ := bind_eq_ok_iff.1 h
  cases hs
  exact haliases

theorem aliases_of_configure (h : configure manifest overrides = .ok s) :
    s.aliases = ofEntries (manifest.aliases ++ standardEntries s.dimensions) :=
  (aliasTable_eq_ok (aliasTable_of_configure h)).2

end Configure

end Session

/-! ## Spellings and readings -/

theorem Dimensions.undeclared?_eq_none_iff {dims : Dimensions} {unit : Monomial} :
    dims.undeclared? unit = none ↔ ∀ d ∈ unit.dimensions, d ∈ dims.names := by
  simp [undeclared?, Monomial.undeclared?, List.find?_eq_none]

/-- A unit over some dimensions, if it is concrete. -/
def Qualifier.Declared (dims : Dimensions) : Qualifier → Prop
  | concrete unit => dims.undeclared? unit = none
  | _ => True

instance (dims : Dimensions) (u : Qualifier) : Decidable (u.Declared dims) := by
  unfold Qualifier.Declared
  split <;> infer_instance

/-- The words that a document can use for a unit in any session. -/
def Vocabulary.words : List String := ["top", "bottom", "polymorphic", "raw"]

namespace Spelling

/-- The unit of a document that has a spelling. -/
def written : Spelling → WrittenUnit
  | top => .named "top"
  | bottom => .named "bottom"
  | poly => .named "polymorphic"
  | named name => .named name
  | raw unit => .monomial unit

/-- A name that a document uses for something else. -/
def Captured : Spelling → Prop
  | named name => name ∈ Vocabulary.words
  | _ => False

instance (s : Spelling) : Decidable s.Captured := by
  unfold Captured
  split <;> infer_instance

end Spelling

namespace Vocabulary

variable {v : Vocabulary} {name : String} {unit : Monomial} {u : Qualifier}

theorem concrete_eq_ok (h : v.dimensions.undeclared? unit = none) :
    v.concrete unit = .ok (some (.concrete unit)) := by
  rw [concrete, h]

theorem resolve_named (hname : name ∉ words) (hunit : v.aliases.unit? name = some unit) :
    v.resolve (.named name) = v.concrete unit := by
  have hne : name ≠ "top" ∧ name ≠ "bottom" ∧ name ≠ "polymorphic" ∧ name ≠ "raw" := by
    simpa [words] using hname
  simp [resolve, hne, hunit]

/-- A word of the reader is never read as a concrete unit. -/
theorem resolve_word_ne (hname : name ∈ words) :
    v.resolve (.named name) ≠ .ok (some (.concrete unit)) := by
  simp only [words, List.mem_cons, List.not_mem_nil, or_false] at hname
  rcases hname with rfl | rfl | rfl | rfl <;> simp [resolve]

/-- The spelling of a unit is read back exactly if it is not a word with another meaning. -/
theorem resolve_written_eq_iff (hnodup : v.aliases.names.Nodup) (hu : u.Declared v.dimensions) :
    v.resolve (Spelling.ofQualifier v.aliases u).written = .ok (some u) ↔
      ¬(Spelling.ofQualifier v.aliases u).Captured := by
  cases u with
  | top | bottom | poly => simp [Spelling.ofQualifier, Spelling.written, resolve, Spelling.Captured]
  | concrete unit =>
    cases hname : v.aliases.name? unit with
    | none =>
      have hspelling : Spelling.ofQualifier v.aliases (.concrete unit) = .raw unit := by
        rw [Spelling.ofQualifier, hname]
      rw [hspelling]
      exact iff_of_true (concrete_eq_ok hu) id
    | some name =>
      have hspelling : Spelling.ofQualifier v.aliases (.concrete unit) = .named name := by
        rw [Spelling.ofQualifier, hname]
      rw [hspelling]
      by_cases hword : name ∈ words
      · exact iff_of_false (resolve_word_ne hword) (not_not_intro hword)
      · have hread := resolve_named hword (AliasTable.unit?_of_name? hnodup hname)
        exact iff_of_true (hread.trans (concrete_eq_ok hu)) hword

/-- What a written unit means, where nothing stands for an unresolved annotation.  A word of the
reader comes before a name of the session. -/
inductive Means (v : Vocabulary) : WrittenUnit → Option Qualifier → Prop
  | top : Means v (.named "top") (some .top)
  | bottom : Means v (.named "bottom") (some .bottom)
  | poly : Means v (.named "polymorphic") (some .poly)
  | raw : Means v (.named "raw") none
  | named {name : String} {unit : Monomial} (noWord : name ∉ words)
    (registered : v.aliases.unit? name = some unit)
    (declared : ∀ d ∈ unit.dimensions, d ∈ v.dimensions.names) :
    Means v (.named name) (some (.concrete unit))
  | monomial {unit : Monomial} (declared : ∀ d ∈ unit.dimensions, d ∈ v.dimensions.names) :
    Means v (.monomial unit) (some (.concrete unit))

theorem concrete_eq_ok_iff {unit : Monomial} {q : Option Qualifier} :
    v.concrete unit = .ok q ↔
      (∀ d ∈ unit.dimensions, d ∈ v.dimensions.names) ∧ q = some (.concrete unit) := by
  rw [← Dimensions.undeclared?_eq_none_iff, concrete]
  cases v.dimensions.undeclared? unit with
  | none => simp [eq_comm]
  | some dim => simp

theorem resolve_eq_ok_iff {w : WrittenUnit} {q : Option Qualifier} :
    v.resolve w = .ok q ↔ v.Means w q := by
  constructor
  · intro h
    unfold resolve at h
    split at h
    · cases h
      exact .top
    · cases h
      exact .bottom
    · cases h
      exact .poly
    · cases h
      exact .raw
    · rename_i name htop hbottom hpoly hraw
      split at h
      · rename_i unit hunit
        obtain ⟨hdeclared, rfl⟩ := concrete_eq_ok_iff.1 h
        have hname : name ∉ words := by
          simpa [words] using ⟨htop, hbottom, hpoly, hraw⟩
        exact .named hname hunit hdeclared
      · cases h
    · obtain ⟨hdeclared, rfl⟩ := concrete_eq_ok_iff.1 h
      exact .monomial hdeclared
  · intro h
    cases h with
    | top | bottom | poly | raw => rfl
    | named noWord registered declared =>
      rw [resolve_named noWord registered]
      exact concrete_eq_ok_iff.2 ⟨declared, rfl⟩
    | monomial declared => exact concrete_eq_ok_iff.2 ⟨declared, rfl⟩

/-- A reading gives units over the dimensions of the vocabulary only. -/
theorem declared_of_resolve {w : WrittenUnit} (h : v.resolve w = .ok (some u)) :
    u.Declared v.dimensions := by
  cases resolve_eq_ok_iff.1 h with
  | top | bottom | poly => trivial
  | named _ _ declared | monomial declared =>
    exact Dimensions.undeclared?_eq_none_iff.2 declared

end Vocabulary

/-! ## Which names are words -/

namespace AliasTable

theorem scales_not_word : ∀ s ∈ scales, s.1.toList ≠ [] ∧
    ∀ word ∈ Vocabulary.words, s.1.toList.head? ≠ word.toList.head? := by
  decide

theorem derived_not_word : ∀ e ∈ derived, e.1 ∉ Vocabulary.words := by
  decide

/-- Of the standard names only those of base dimensions can be words of the reader. -/
theorem mem_names_of_standard_word {dims : Dimensions} {word : String}
    (hword : word ∈ Vocabulary.words) (h : word ∈ (standardEntries dims).map Prod.fst) :
    word ∈ dims.names := by
  obtain ⟨e, he, rfl⟩ := List.mem_map.1 h
  simp only [standardEntries, List.mem_append, List.mem_cons, List.mem_map, List.mem_flatMap,
    List.mem_filter] at he
  rcases he with ((rfl | ⟨d, hd, rfl⟩) | ⟨e, ⟨he, -⟩, rfl⟩) | ⟨d, hd, s, hs, rfl⟩
  · exact absurd hword (by decide)
  · exact hd
  · exact absurd hword (derived_not_word e he)
  · -- a scaled name starts with the letter of its scale, and no word does
    obtain ⟨hnil, hne⟩ := scales_not_word s hs
    have hhead : (s.1 ++ d).toList.head? = s.1.toList.head? := by
      rw [String.toList_append, List.head?_append_of_ne_nil _ hnil]
    exact absurd hhead.symm (hne _ hword)

end AliasTable

/-- A captured spelling is the name of a base dimension or of an entry of the manifest. -/
theorem Session.exists_of_captured {manifest : Manifest} {overrides : Overrides} {s : Session}
    (h : Session.configure manifest overrides = .ok s) {u : Qualifier}
    (hu : (Spelling.ofQualifier s.aliases u).Captured) :
    ∃ word ∈ Vocabulary.words, word ∈ s.dimensions.names ∨ word ∈ manifest.aliases.map Prod.fst := by
  cases u with
  | top | bottom | poly => cases hu
  | concrete unit =>
    cases hname : s.aliases.name? unit with
    | none =>
      rw [Spelling.ofQualifier, hname] at hu
      cases hu
    | some word =>
      rw [Spelling.ofQualifier, hname] at hu
      have hmem : word ∈ s.aliases.names :=
        List.mem_map_of_mem (f := Prod.fst) (AliasTable.mem_entries_of_name? hname)
      rw [Session.aliases_of_configure h, AliasTable.mem_names_ofEntries, List.map_append,
        List.mem_append] at hmem
      refine ⟨word, hu, hmem.symm.imp_left ?_⟩
      exact AliasTable.mem_names_of_standard_word hu

end Metrology
