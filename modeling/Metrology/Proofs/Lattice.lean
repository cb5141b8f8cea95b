import Metrology.Lattice
import Mathlib.Logic.Relation

/-!
# The subtype graph of a lattice

Building a lattice adds one row after another to its graph and never a second row for a qualifier.
So what is looked up for a qualifier is what its row lists, and the top for a unit without a row.
Following direct supertypes never leads to a qualifier that is not above the first one, and it
leads to everything above it with one exception.  The graph puts only the polymorphic qualifier
and the top above the bottom, so no concrete unit is reached from there.
-/

namespace Metrology

namespace Qualifier

theorem le_iff {a b : Qualifier} : a ≤ b ↔ b = .top ∨ a = .bottom ∨ a = b := Iff.rfl

theorem le_refl (a : Qualifier) : a ≤ a := .inr (.inr rfl)

theorem le_trans {a b c : Qualifier} (hab : a ≤ b) (hbc : b ≤ c) : a ≤ c := by
  rcases le_iff.1 hbc with rfl | rfl | rfl
  · exact .inl rfl
  · rcases le_iff.1 hab with h | rfl | rfl
    · cases h
    · exact .inr (.inl rfl)
    · exact .inr (.inl rfl)
  · exact hab

end Qualifier

namespace Lattice

variable {dims : Dimensions} {extra : List Monomial} {l : Lattice} {a b : Qualifier}

/-! ## Rows -/

section Rows

variable {graph : SubtypeGraph} {q : Qualifier}

/-- The rows list the direct supertypes of their qualifiers, of which none has two rows. -/
structure Rows (graph : SubtypeGraph) : Prop where
  listed : ∀ row ∈ graph, row.2 = directSupertypes row.1
  nodup : (graph.map Prod.fst).Nodup

theorem isSome_lookup_iff : (graph.lookup q).isSome ↔ q ∈ graph.map Prod.fst := by
  simp only [List.lookup_isSome_iff, List.mem_map, beq_iff_eq, eq_comm (a := q)]

theorem mem_map_addRow {p : Qualifier} :
    p ∈ (addRow graph q).map Prod.fst ↔ p ∈ graph.map Prod.fst ∨ p = q := by
  rw [addRow]
  split
  case isTrue hrow =>
    rw [isSome_lookup_iff] at hrow
    exact (or_iff_left_of_imp fun heq => heq ▸ hrow).symm
  case isFalse => simp

theorem Rows.addRow (h : Rows graph) (q : Qualifier) : Rows (addRow graph q) := by
  rw [Lattice.addRow]
  split
  case isTrue => exact h
  case isFalse hrow =>
    rw [isSome_lookup_iff] at hrow
    constructor
    · intro row hmem
      rcases List.mem_append.1 hmem with hmem | hmem
      · exact h.listed row hmem
      · rw [List.mem_singleton.1 hmem]
    · rw [List.map_append, List.map_cons, List.map_nil, List.nodup_append]
      refine ⟨h.nodup, List.pairwise_singleton _ _, fun p hp p' hp' heq => hrow ?_⟩
      have hq : p = q := heq.trans (List.mem_singleton.1 hp')
      exact hq ▸ hp

theorem Rows.foldl_addRow (h : Rows graph) (qs : List Qualifier) :
    Rows (qs.foldl Lattice.addRow graph) := by
  induction qs generalizing graph with
  | nil => exact h
  | cons q rest ih => exact ih (h.addRow q)

theorem mem_map_foldl_addRow {qs : List Qualifier} :
    q ∈ (qs.foldl addRow graph).map Prod.fst ↔ q ∈ graph.map Prod.fst ∨ q ∈ qs := by
  induction qs generalizing graph with
  | nil => simp
  | cons p rest ih => rw [List.foldl_cons, ih, mem_map_addRow, List.mem_cons, or_assoc]

theorem Rows.perm {other : SubtypeGraph} (h : Rows graph) (hperm : other.Perm graph) :
    Rows other :=
  ⟨fun row hrow => h.listed row (hperm.mem_iff.1 hrow), (hperm.map _).nodup_iff.2 h.nodup⟩

theorem Rows.lookup_eq (h : Rows graph) (hq : q ∈ graph.map Prod.fst) :
    graph.lookup q = some (directSupertypes q) := by
  obtain ⟨supertypes, hlookup⟩ := Option.isSome_iff_exists.1 (isSome_lookup_iff.2 hq)
  obtain ⟨earlier, later, rfl, -⟩ := List.lookup_eq_some_iff.1 hlookup
  rw [hlookup]
  exact congrArg some (h.listed (q, supertypes) (by simp))

end Rows

/-! ## Building -/

/-- A lattice is refused only for a unit that is not over the dimensions. -/
theorem exists_build_eq_ok_iff :
    (∃ l, build dims extra = .ok l) ↔ ∀ unit ∈ extra, dims.undeclared? unit = none := by
  have hnone : undeclaredUnit? dims extra = none ↔
      ∀ unit ∈ extra, dims.undeclared? unit = none := by
    simp [undeclaredUnit?, List.findSome?_eq_none_iff]
  rw [← hnone, build]
  cases undeclaredUnit? dims extra with
  | none => simp
  | some found => simp

/-- A lattice is over its dimensions, and its graph consists of the rows that were added. -/
theorem build_eq_ok (h : build dims extra = .ok l) : l.dimensions = dims ∧
    l.supertypes.Perm ((.top :: .poly :: .bottom ::
      (Monomial.one :: dims.names.map Monomial.base ++ extra).map .concrete).foldl addRow []) := by
  unfold build at h
  split at h
  · cases h
  · cases h
    exact ⟨rfl, List.mergeSort_perm _ _⟩

theorem rows_of_build (h : build dims extra = .ok l) : Rows l.supertypes :=
  (Rows.foldl_addRow ⟨List.forall_mem_nil _, List.nodup_nil⟩ _).perm (build_eq_ok h).2

theorem mem_qualifiers_iff (h : build dims extra = .ok l) {q : Qualifier} :
    q ∈ l.qualifiers ↔ q ∈ [.top, .bottom, .poly, .dimensionless] ∨
      (∃ d ∈ dims.names, q = .base d) ∨ ∃ unit ∈ extra, q = .concrete unit := by
  rw [qualifiers, ((build_eq_ok h).2.map _).mem_iff, mem_map_foldl_addRow]
  cases q with
  | top | bottom | poly => simp
  | concrete unit => simp [Qualifier.dimensionless, Qualifier.base, eq_comm]

/-- Looked up in the graph, or else taken for the top, the direct supertypes are those that a row
lists. -/
theorem supertypesOf_of_build (h : build dims extra = .ok l) (q : Qualifier) :
    l.supertypesOf q = directSupertypes q := by
  have hrow : q ∈ l.qualifiers → l.supertypesOf q = directSupertypes q := fun hq => by
    rw [supertypesOf, (rows_of_build h).lookup_eq hq, Option.getD_some]
  by_cases hq : q ∈ l.qualifiers
  · exact hrow hq
  · cases q with
    | top | bottom | poly => exact hrow ((mem_qualifiers_iff h).2 (.inl (by simp)))
    | concrete unit =>
      -- the fallback is the row that the unit would have
      have hnone : l.supertypes.lookup (.concrete unit) = none :=
        Option.not_isSome_iff_eq_none.1 (mt isSome_lookup_iff.1 hq)
      rw [supertypesOf, hnone]
      rfl

/-! ## Reachability -/

/-- One step up. -/
def Edge (l : Lattice) (a b : Qualifier) : Prop := b ∈ l.supertypesOf a

/-- Any number of steps up. -/
def Reaches (l : Lattice) : Qualifier → Qualifier → Prop := Relation.ReflTransGen l.Edge

/-- A row goes up and never lists a concrete unit. -/
theorem le_of_mem_directSupertypes (h : b ∈ directSupertypes a) :
    a ≤ b ∧ ∀ unit, b ≠ .concrete unit := by
  cases a with
  | top => cases h
  | bottom =>
    simp only [directSupertypes, List.mem_cons, List.not_mem_nil, or_false] at h
    refine ⟨.inr (.inl rfl), ?_⟩
    rcases h with rfl | rfl <;> simp
  | poly | concrete unit =>
    simp only [directSupertypes, List.mem_singleton] at h
    exact ⟨.inl h, by simp [h]⟩

theorem top_mem_directSupertypes (h : a ≠ .top) : .top ∈ directSupertypes a := by
  cases a with
  | top => exact absurd rfl h
  | bottom | poly | concrete unit => exact List.mem_cons_self

section Reaches

variable (hbuild : build dims extra = .ok l)
include hbuild

theorem edge_iff : l.Edge a b ↔ b ∈ directSupertypes a := by
  rw [Edge, supertypesOf_of_build hbuild]

/-- Whatever is reached is above the start, and it is the start itself if it is concrete. -/
theorem le_of_reaches (h : l.Reaches a b) : a ≤ b ∧ ∀ unit, b = .concrete unit → a = b := by
  induction h with
  | refl => exact ⟨Qualifier.le_refl a, fun _ _ => rfl⟩
  | tail _ hstep ih =>
    obtain ⟨hle, hconcrete⟩ := le_of_mem_directSupertypes ((edge_iff hbuild).1 hstep)
    exact ⟨Qualifier.le_trans ih.1 hle, fun unit hunit => absurd hunit (hconcrete unit)⟩

theorem not_reaches_concrete_of_bottom (unit : Monomial) : ¬l.Reaches .bottom (.concrete unit) := by
  intro h
  cases (le_of_reaches hbuild h).2 unit rfl

theorem reaches_top : l.Reaches a .top := by
  by_cases htop : a = .top
  · rw [htop]
    exact .refl
  · exact .single ((edge_iff hbuild).2 (top_mem_directSupertypes htop))

theorem reaches_poly : l.Reaches .bottom .poly :=
  .single ((edge_iff hbuild).2 (by simp [directSupertypes]))

theorem reaches_of_le (h : a ≤ b) : l.Reaches a b ∨ a = .bottom ∧ ∃ unit, b = .concrete unit := by
  rcases Qualifier.le_iff.1 h with rfl | rfl | rfl
  · exact .inl (reaches_top hbuild)
  · cases b with
    | top => exact .inl (reaches_top hbuild)
    | bottom => exact .inl .refl
    | poly => exact .inl (reaches_poly hbuild)
    | concrete unit => exact .inr ⟨rfl, unit, rfl⟩
  · exact .inl .refl

end Reaches

/-- The qualifiers of a lattice are the special ones, plain numbers, the base dimensions and the
extra units.  Its graph spans the order of qualifiers, except that no concrete unit is reached
from the bottom. -/
theorem le_iff_reaches_or_bottom (dims : Dimensions) (extra : List Monomial) (l : Lattice)
    (h : build dims extra = .ok l) :
    (∀ q, q ∈ l.qualifiers ↔ q ∈ [.top, .bottom, .poly, .dimensionless] ∨
      (∃ d ∈ dims.names, q = .base d) ∨ ∃ unit ∈ extra, q = .concrete unit) ∧
    (∀ a b, a ≤ b ↔ l.Reaches a b ∨ a = .bottom ∧ ∃ unit, b = .concrete unit) ∧
    ∀ unit, ¬l.Reaches .bottom (.concrete unit) := by
  refine ⟨fun q => mem_qualifiers_iff h, fun a b => ⟨reaches_of_le h, ?_⟩,
    not_reaches_concrete_of_bottom h⟩
  rintro (hreaches | ⟨rfl, -⟩)
  · exact (le_of_reaches h hreaches).1
  · exact .inr (.inl rfl)

/-- Lengths as the only dimension. -/
def metres : Dimensions := ⟨["m"], by decide, by decide, by decide⟩

/-- The unit of a length. -/
def metre : Qualifier := .base "m"

/-- A thousand metres. -/
def kilometre : Monomial := (Monomial.base "m").setPower ((Exponent.ofInt? 3).getD 0)

/-- From a unit that was added only the top is reached, which is all that is above it. -/
theorem le_iff_reaches_or_bottom_kilometre :
    ∃ l, build metres [kilometre, kilometre] = .ok l ∧ metre ∈ l.qualifiers ∧
      .concrete kilometre ∈ l.qualifiers ∧ l.Reaches (.concrete kilometre) .top ∧
      ¬l.Reaches (.concrete kilometre) metre ∧ l.Reaches .bottom .poly ∧
      ¬l.Reaches .bottom metre := by
  have hdeclared : ∀ unit ∈ [kilometre, kilometre], metres.undeclared? unit = none := by
    decide +kernel
  obtain ⟨l, hl⟩ := exists_build_eq_ok_iff.2 hdeclared
  obtain ⟨hmem, hle, hbottom⟩ := le_iff_reaches_or_bottom metres [kilometre, kilometre] l hl
  have hkilometre : ∀ b, .concrete kilometre ≤ b ↔ l.Reaches (.concrete kilometre) b := by
    simpa using hle (.concrete kilometre)
  have hne : ¬.concrete kilometre ≤ metre := by decide +kernel
  refine ⟨l, hl, (hmem _).2 (.inr (.inl ⟨"m", by simp [metres], rfl⟩)),
    (hmem _).2 (.inr (.inr ⟨_, List.mem_cons_self, rfl⟩)), (hkilometre _).1 (.inl rfl),
    mt (hkilometre _).2 hne, ?_, hbottom _⟩
  simpa using (hle .bottom .poly).1 (.inr (.inl rfl))

/-- The bottom is below the unit of a length, and its supertypes do not lead there. -/
theorem not_reaches_metre_of_bottom_le :
    ∃ l, build metres [] = .ok l ∧ .bottom ∈ l.qualifiers ∧ metre ∈ l.qualifiers ∧
      .bottom ≤ metre ∧ ¬l.Reaches .bottom metre ∧
      ¬∀ a ∈ l.qualifiers, ∀ b ∈ l.qualifiers, (a ≤ b ↔ l.Reaches a b) := by
  obtain ⟨l, hl⟩ := exists_build_eq_ok_iff.2 (List.forall_mem_nil fun unit =>
    metres.undeclared? unit = none)
  have hbottom : .bottom ∈ l.qualifiers := (mem_qualifiers_iff hl).2 (.inl (by simp))
  have hmetre : metre ∈ l.qualifiers :=
    (mem_qualifiers_iff hl).2 (.inr (.inl ⟨"m", by simp [metres], rfl⟩))
  have hle : Qualifier.bottom ≤ metre := .inr (.inl rfl)
  have hnot : ¬l.Reaches .bottom metre := not_reaches_concrete_of_bottom hl _
  exact ⟨l, hl, hbottom, hmetre, hle, hnot, fun hall =>
    hnot ((hall .bottom hbottom metre hmetre).1 hle)⟩

end Lattice
end Metrology
