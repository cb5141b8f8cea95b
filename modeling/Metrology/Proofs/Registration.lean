import Metrology.Proofs.Alias
import Metrology.Proofs.Lattice
import Mathlib.Logic.Function.Basic

/-!
# Histories of alias tables

A table grows by calls that offer entries to it: one entry where a name is registered, a list of
them where the standard names are added.  An offer whose name is taken changes nothing.  So the
first offer of a name decides what it stands for, and the earliest entry of a unit decides how the
unit is shown.  The same answers come from a table with two indexes, one of names and one of units,
that are kept up to date entry by entry.
-/

namespace Metrology
namespace AliasTable

variable {t : AliasTable} {name n : String} {unit v : Monomial}

/-- A call that may add names to a table. -/
inductive Call where
  | register (dims : Dimensions) (name : String) (unit : Monomial)
  | extendStandard (dims : Dimensions)

/-- The entries that a call offers to a table, none if it is refused. -/
def Call.offers : Call → List (String × Monomial)
  | register dims name unit => if dims.undeclared? unit = none then [(name, unit)] else []
  | extendStandard dims => standardEntries dims

/-- The answer to a call and the table after it.  The answer to a registration says whether the
name was free, and a refused one leaves the table to the caller. -/
def perform (t : AliasTable) : Call → Except ConfigError (Option Bool) × AliasTable
  | .register dims name unit =>
    match t.register dims name unit with
    | .error e => (.error e, t)
    | .ok (free, t') => (.ok (some free), t')
  | .extendStandard dims => (.ok none, t.extendStandard dims)

/-- The table after some calls on the table without names. -/
def after (calls : List Call) : AliasTable := calls.foldl (fun t c => (t.perform c).2) empty

/-! ## Lookups -/

theorem unit?_insert :
    (t.insert name unit).unit? n = (t.unit? n).or (if n = name then some unit else none) := by
  rw [insert]
  split
  · rename_i htaken
    obtain ⟨u, hu⟩ := Option.isSome_iff_exists.1 htaken
    by_cases hn : n = name
    · rw [hn, hu]
      rfl
    · rw [if_neg hn, Option.or_none]
  · rw [unit?, List.lookup_append, SortedMap.lookup_cons_eq_ite]
    rfl

/-- A name stands for what it stood for before, or else for the unit of its first offer. -/
theorem unit?_foldl_insert (l : List (String × Monomial)) :
    (l.foldl (fun t e => t.insert e.1 e.2) t).unit? n = (t.unit? n).or (l.lookup n) := by
  induction l generalizing t with
  | nil => exact (Option.or_none).symm
  | cons e rest ih =>
    rw [List.foldl_cons, ih, unit?_insert, Option.or_assoc, SortedMap.lookup_cons_eq_ite]
    by_cases hn : n = e.1
    · rw [if_pos hn, if_pos hn]
      rfl
    · rw [if_neg hn, if_neg hn]
      rfl

theorem unit?_eq_find? (t : AliasTable) (n : String) :
    t.unit? n = (t.entries.find? fun e => e.1 = n).map Prod.snd := by
  rw [unit?]
  induction t.entries with
  | nil => rfl
  | cons e rest ih =>
    rw [SortedMap.lookup_cons_eq_ite, List.find?_cons, ih]
    by_cases hn : n = e.1
    · simp [hn]
    · simp [hn, Ne.symm hn]

/-- A unit is shown under the name of its earliest entry. -/
theorem name?_eq_some_iff :
    t.name? v = some n ↔
      ∃ earlier later, t.entries = earlier ++ (n, v) :: later ∧ ∀ e ∈ earlier, e.2 ≠ v := by
  simp only [name?, Option.map_eq_some_iff, List.find?_eq_some_iff_append, decide_eq_true_eq,
    Bool.not_eq_true', decide_eq_false_iff_not]
  constructor
  · rintro ⟨⟨n, v⟩, ⟨rfl, hentries⟩, rfl⟩
    exact hentries
  · intro hentries
    exact ⟨(n, v), ⟨rfl, hentries⟩, rfl⟩

theorem name?_eq_none_iff : t.name? v = none ↔ ∀ e ∈ t.entries, e.2 ≠ v := by
  simp [name?]

/-! ## One call -/

theorem perform_register_of_undeclared {dims : Dimensions} {dim : String}
    (h : dims.undeclared? unit = some dim) :
    t.perform (.register dims name unit) = (.error (.aliasDimension name dim), t) := by
  rw [perform, register, h]

theorem perform_register {dims : Dimensions} (h : dims.undeclared? unit = none) :
    t.perform (.register dims name unit) =
      (.ok (some (t.unit? name).isNone), t.insert name unit) := by
  rw [perform, register, h]

/-- A call offers its entries one after the other. -/
theorem perform_snd (t : AliasTable) (c : Call) :
    (t.perform c).2 = c.offers.foldl (fun t e => t.insert e.1 e.2) t := by
  cases c with
  | register dims name unit =>
    rw [Call.offers]
    cases h : dims.undeclared? unit with
    | none =>
      rw [perform_register h]
      rfl
    | some dim =>
      rw [perform_register_of_undeclared h]
      rfl
  | extendStandard dims => rfl

/-- An answer that reports a failure or a name that was taken. -/
def Declined (answer : Except ConfigError (Option Bool)) : Prop :=
  (∃ e, answer = .error e) ∨ answer = .ok (some false)

theorem perform_snd_of_declined {c : Call} (h : Declined (t.perform c).1) :
    (t.perform c).2 = t := by
  cases c with
  | register dims name unit =>
    cases hdims : dims.undeclared? unit with
    | none =>
      rw [perform_register hdims] at h ⊢
      rcases h with ⟨e, he⟩ | hanswer
      · cases he
      · have htaken : (t.unit? name).isSome := by simpa using hanswer
        exact if_pos htaken
    | some dim => rw [perform_register_of_undeclared hdims]
  | extendStandard dims => rcases h with ⟨e, he⟩ | he <;> cases he

/-! ## Runs -/

/-- The table after some calls is the table of all their offers. -/
theorem after_eq_ofEntries (calls : List Call) :
    after calls = ofEntries (calls.flatMap Call.offers) := by
  rw [after, ofEntries, List.foldl_flatMap]
  simp only [perform_snd]

theorem nodup_names_after (calls : List Call) : (after calls).names.Nodup := by
  rw [after_eq_ofEntries]
  exact nodup_names_ofEntries _

theorem entries_prefix_insert (t : AliasTable) (name : String) (unit : Monomial) :
    t.entries <+: (t.insert name unit).entries := by
  rw [insert]
  split
  · exact List.prefix_rfl
  · exact List.prefix_append _ _

theorem entries_prefix_foldl_insert (t : AliasTable) (l : List (String × Monomial)) :
    t.entries <+: (l.foldl (fun t e => t.insert e.1 e.2) t).entries := by
  induction l generalizing t with
  | nil => exact List.prefix_rfl
  | cons e rest ih => exact (entries_prefix_insert t e.1 e.2).trans (ih _)

/-- Entries are never moved or dropped. -/
theorem entries_prefix_after (calls later : List Call) :
    (after calls).entries <+: (after (calls ++ later)).entries := by
  rw [after_eq_ofEntries, after_eq_ofEntries, ofEntries, ofEntries, List.flatMap_append,
    List.foldl_append]
  exact entries_prefix_foldl_insert _ _

/-- Somewhere in a history a name was offered with a unit and was still free. -/
def Registered (calls : List Call) (n : String) (v : Monomial) : Prop :=
  ∃ earlier later, calls.flatMap Call.offers = earlier ++ (n, v) :: later ∧
    n ∉ (ofEntries earlier).names

theorem unit?_after_eq_some_iff {calls : List Call} :
    (after calls).unit? n = some v ↔ Registered calls n v := by
  have hlookup : (after calls).unit? n = (calls.flatMap Call.offers).lookup n := by
    rw [after_eq_ofEntries, ofEntries, unit?_foldl_insert]
    rfl
  rw [hlookup, List.lookup_eq_some_iff]
  refine exists_congr fun earlier => exists_congr fun later => and_congr_right fun _ => ?_
  rw [mem_names_ofEntries, List.mem_map]
  simp only [bne_iff_ne, not_exists, not_and]
  exact forall_congr' fun e => forall_congr' fun _ => ne_comm

/-! ## Indexes -/

/-- A table that finds its entries by the places of names and of units. -/
structure Indexed where
  entries : List (String × Monomial)
  byName : String → Option Nat
  byUnit : Monomial → Option Nat

namespace Indexed

/-- The table without names. -/
def empty : Indexed := ⟨[], fun _ => none, fun _ => none⟩

/-- Adds an entry at the end unless its name has a place.  A unit keeps the place that it has. -/
def insert (s : Indexed) (name : String) (unit : Monomial) : Indexed :=
  if (s.byName name).isSome then s
  else
    { entries := s.entries ++ [(name, unit)]
      byName := Function.update s.byName name (some s.entries.length)
      byUnit := Function.update s.byUnit unit ((s.byUnit unit).or (some s.entries.length)) }

/-- The table of the offers of some calls. -/
def after (calls : List Call) : Indexed :=
  (calls.flatMap Call.offers).foldl (fun s e => s.insert e.1 e.2) empty

/-- The unit at the place of a name. -/
def unit? (s : Indexed) (name : String) : Option Monomial :=
  ((s.byName name).bind fun i => s.entries[i]?).map Prod.snd

/-- The name at the place of a unit. -/
def name? (s : Indexed) (unit : Monomial) : Option String :=
  ((s.byUnit unit).bind fun i => s.entries[i]?).map Prod.fst

/-- The indexes give the first places of names and units in the entries of a table. -/
structure Represents (s : Indexed) (t : AliasTable) : Prop where
  entries : s.entries = t.entries
  byName : ∀ n, s.byName n = t.entries.findIdx? fun e => e.1 = n
  byUnit : ∀ v, s.byUnit v = t.entries.findIdx? fun e => e.2 = v

variable {s : Indexed}

theorem Represents.unit?_eq (h : s.Represents t) (n : String) : s.unit? n = t.unit? n := by
  rw [unit?, h.byName, h.entries, ← List.find?_eq_bind_findIdx?_getElem?, unit?_eq_find?]

theorem Represents.name?_eq (h : s.Represents t) (v : Monomial) : s.name? v = t.name? v := by
  rw [name?, h.byUnit, h.entries, ← List.find?_eq_bind_findIdx?_getElem?, AliasTable.name?]

/-- A key that is new at the end gets the last place. -/
theorem findIdx?_concat {κ : Type} [DecidableEq κ] (key : String × Monomial → κ)
    (l : List (String × Monomial)) (e : String × Monomial) :
    (fun k => (l ++ [e]).findIdx? fun e => key e = k) =
      Function.update (fun k => l.findIdx? fun e => key e = k) (key e)
        ((l.findIdx? fun e' => key e' = key e).or (some l.length)) := by
  funext k
  rw [List.findIdx?_append, List.findIdx?_singleton, Function.update_apply]
  by_cases hk : k = key e
  · simp [hk]
  · simp [hk, Ne.symm hk]

/-- The indexes stay right when an entry is added. -/
theorem Represents.insert (h : s.Represents t) (name : String) (unit : Monomial) :
    (s.insert name unit).Represents (t.insert name unit) := by
  have htaken : (s.byName name).isSome ↔ (t.unit? name).isSome := by
    rw [h.byName, List.findIdx?_isSome, unit?_eq_find?, Option.isSome_map, List.find?_isSome,
      List.any_eq_true]
  by_cases hname : (t.unit? name).isSome
  · rw [Indexed.insert, if_pos (htaken.2 hname), AliasTable.insert, if_pos hname]
    exact h
  · have hfree : (t.entries.findIdx? fun e => e.1 = name) = none := by
      rw [← h.byName]
      exact Option.not_isSome_iff_eq_none.1 (mt htaken.1 hname)
    rw [Indexed.insert, if_neg (mt htaken.1 hname), AliasTable.insert, if_neg hname]
    refine ⟨congrArg (· ++ _) h.entries, congrFun ?_, congrFun ?_⟩
    · rw [findIdx?_concat Prod.fst, hfree, Option.none_or, h.entries, funext h.byName]
    · rw [findIdx?_concat Prod.snd, h.entries, h.byUnit, funext h.byUnit]

theorem Represents.foldl_insert (h : s.Represents t) (l : List (String × Monomial)) :
    (l.foldl (fun s e => s.insert e.1 e.2) s).Represents
      (l.foldl (fun t e => t.insert e.1 e.2) t) := by
  induction l generalizing s t with
  | nil => exact h
  | cons e rest ih => exact ih (h.insert e.1 e.2)

/-- After every history the indexed table is the plain one with the right indexes. -/
theorem represents_after (calls : List Call) : (after calls).Represents (AliasTable.after calls) := by
  have hempty : empty.Represents AliasTable.empty := ⟨rfl, fun _ => rfl, fun _ => rfl⟩
  rw [after_eq_ofEntries]
  exact hempty.foldl_insert _

end Indexed

/-- After every history, failed calls included, names are different from each other, a name stands
for the unit of the registration that found it free, and a unit is shown under the name of its
earliest entry, which stands for that unit.  Later calls put their entries behind, and a call that
fails or finds its name taken changes nothing.  Two indexes that are kept entry by entry answer
alike. -/
theorem after_first_registration_wins (calls : List Call) :
    (after calls).names.Nodup ∧
    (∀ n v, (after calls).unit? n = some v ↔ Registered calls n v) ∧
    (∀ v n, (after calls).name? v = some n ↔ ∃ earlier later,
      (after calls).entries = earlier ++ (n, v) :: later ∧ ∀ e ∈ earlier, e.2 ≠ v) ∧
    (∀ v, (after calls).name? v = none ↔ ∀ e ∈ (after calls).entries, e.2 ≠ v) ∧
    (∀ v n, (after calls).name? v = some n → (after calls).unit? n = some v) ∧
    (∀ later, (after calls).entries <+: (after (calls ++ later)).entries) ∧
    (∀ c, Declined ((after calls).perform c).1 → ((after calls).perform c).2 = after calls) ∧
    (Indexed.after calls).entries = (after calls).entries ∧
    (∀ n, (Indexed.after calls).unit? n = (after calls).unit? n) ∧
    ∀ v, (Indexed.after calls).name? v = (after calls).name? v := by
  have hnodup := nodup_names_after calls
  have hindexed := Indexed.represents_after calls
  exact ⟨hnodup, fun _ _ => unit?_after_eq_some_iff, fun _ _ => name?_eq_some_iff,
    fun _ => name?_eq_none_iff, fun _ _ => unit?_of_name? hnodup, entries_prefix_after calls,
    fun _ => perform_snd_of_declined, hindexed.entries, hindexed.unit?_eq, hindexed.name?_eq⟩

/-- Lengths have a name of their own before the standard names are added. -/
def renamed : List Call :=
  [.register Lattice.metres "length" (.base "m"), .extendStandard Lattice.metres]

/-- The length keeps its own name beside the standard one, which cannot be given away, and a time
cannot be named. -/
theorem after_first_registration_wins_renamed :
    ((after renamed).name? (.base "m") = some "length" ∧
      (after renamed).unit? "length" = some (.base "m")) ∧
    (after renamed).unit? "m" = some (.base "m") ∧
    (Declined ((after renamed).perform (.register Lattice.metres "m" .one)).1 ∧
      ((after renamed).perform (.register Lattice.metres "m" .one)).2 = after renamed) ∧
    (Declined ((after renamed).perform (.register Lattice.metres "t" (.base "s"))).1 ∧
      ((after renamed).perform (.register Lattice.metres "t" (.base "s"))).2 = after renamed) := by
  obtain ⟨-, -, -, -, hback, -, hdeclined, -⟩ := after_first_registration_wins renamed
  have hname : (after renamed).name? (.base "m") = some "length" := by decide +kernel
  have htaken : Declined ((after renamed).perform (.register Lattice.metres "m" .one)).1 := by
    rw [perform_register (by decide +kernel)]
    exact .inr (congrArg Except.ok (by decide +kernel))
  have hundeclared : Lattice.metres.undeclared? (.base "s") = some "s" := by decide +kernel
  have hfails : Declined ((after renamed).perform (.register Lattice.metres "t" (.base "s"))).1 := by
    rw [perform_register_of_undeclared hundeclared]
    exact .inl ⟨_, rfl⟩
  exact ⟨⟨hname, hback _ _ hname⟩, by decide +kernel, ⟨htaken, hdeclined _ htaken⟩, hfails,
    hdeclined _ hfails⟩

end AliasTable
end Metrology
