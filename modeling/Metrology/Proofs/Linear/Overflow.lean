import Metrology.Proofs.Linear.Determined
import Metrology.Proofs.Linear.RoundTrip
import Mathlib.Data.List.Sublists

/-!
# The size of the numbers in linear systems

An equation is built term by term.  A relation has a term with coefficient one, a term with minus
one and at most one more, so a coefficient on the way is a sum of some of these, whichever of the
operands are the same slot.  It stays between minus two and two, and a right-hand side stays within
three times the largest magnitude of an exponent.

The encoding is then repeated with a range that every computed integer must fit.  A range that
holds the numbers above refuses none of them, and the signed words of 64 bits are such a range.
-/

namespace Metrology

theorem mapM_eq_some_map {α β : Type} {f : α → Option β} {g : α → β} {l : List α}
    (h : ∀ a ∈ l, f a = some (g a)) : l.mapM f = some (l.map g) := by
  induction l with
  | nil => rfl
  | cons a rest ih =>
    obtain ⟨ha, hrest⟩ := List.forall_mem_cons.1 h
    rw [List.mapM_cons, ha, ih hrest]
    rfl

namespace Linear

/-! ## Equations on the way -/

/-- Every coefficient is one or two or the opposite of these, and the right-hand side is within
three times the largest magnitude of an exponent. -/
structure Equation.Narrow (e : Equation) : Prop where
  coefficients : ∀ t ∈ e.terms.entries, t.2 ∈ [-2, -1, 1, 2]
  rhs : e.rhs.natAbs ≤ 3 * 2 ^ 31

namespace Relation

variable {unknowns : List SlotId} {c : Component}

/-- The equation that some terms come to over a component. -/
def stage (unknowns : List SlotId) (component : Component) (terms : List (Operand × ℤ)) :
    Equation :=
  terms.foldl (addTo unknowns component) Equation.trivial

theorem coefficient_addTo (e : Equation) (t : Operand × ℤ) (i : ℕ) :
    (addTo unknowns c e t).coefficient i = e.coefficient i ∨
      (addTo unknowns c e t).coefficient i = e.coefficient i + t.2 := by
  unfold addTo
  split
  · exact .inl rfl
  · exact .inl rfl
  · split
    · rw [Equation.coefficient_addTerm]
      split
      · exact .inr rfl
      · exact .inl (Int.add_zero _)
    · exact .inl rfl

variable (unknowns c) in
/-- A coefficient grows by the sum of the coefficients of some of the terms: those of its slot. -/
theorem exists_sublist_coefficient_eq (terms : List (Operand × ℤ)) (e : Equation) (i : ℕ) :
    ∃ s : List ℤ, s.Sublist (terms.map Prod.snd) ∧
      (terms.foldl (addTo unknowns c) e).coefficient i = e.coefficient i + s.sum := by
  induction terms generalizing e with
  | nil => exact ⟨[], List.Sublist.refl _, (Int.add_zero _).symm⟩
  | cons t rest ih =>
    obtain ⟨s, hs, hsum⟩ := ih (addTo unknowns c e t)
    rcases coefficient_addTo e t i with hsame | hadded
    · exact ⟨s, hs.cons t.2, by rw [List.foldl_cons, hsum, hsame]⟩
    · refine ⟨t.2 :: s, hs.cons_cons t.2, ?_⟩
      rw [List.foldl_cons, hsum, hadded, List.sum_cons, Int.add_assoc]

/-- No choice among the coefficients of a relation of basic shape has a sum beyond two, since two
of them are opposite. -/
theorem Basic.natAbs_sum_le_two {r : Relation} (hr : r.Basic) {s : List ℤ}
    (hs : s.Sublist (r.terms.map Prod.snd)) : s.sum.natAbs ≤ 2 := by
  have hshapes : ∀ coefficients ∈ [[1, -1], [1, -1, -1], [1, -1, (1 : ℤ)]],
      ∀ s ∈ coefficients.sublists, s.sum.natAbs ≤ 2 := by decide
  refine hshapes (r.terms.map Prod.snd) ?_ s (List.mem_sublists.2 hs)
  cases hr with
  | equal | product | quotient => simp [Relation.equal]

theorem reduced_stage (terms : List (Operand × ℤ)) : (stage unknowns c terms).Reduced := by
  have hstep : ∀ (e : Equation) (t : Operand × ℤ), e.Reduced →
      (addTo unknowns c e t).Reduced := by
    intro e t he
    unfold addTo
    split
    · exact he
    · exact he
    · split
      · exact he.addTerm _ _
      · exact he
  exact List.foldlRecOn terms (addTo unknowns c) Equation.reduced_trivial
    fun e he t _ => hstep e t he

/-- Every stage in which the equation of a relation of basic shape is built is narrow. -/
theorem narrow_stage {r : Relation} (hr : r.Basic) {terms : List (Operand × ℤ)}
    (hterms : terms <+: r.terms) : (stage unknowns c terms).Narrow := by
  refine ⟨fun t ht => ?_, ?_⟩
  · -- The coefficient of a slot is a sum over its terms, which are among those of the relation.
    obtain ⟨s, hs, hsum⟩ :=
      exists_sublist_coefficient_eq unknowns c terms Equation.trivial t.1
    have hle : s.sum.natAbs ≤ 2 := hr.natAbs_sum_le_two (hs.trans (hterms.sublist.map Prod.snd))
    have hzero : Equation.trivial.coefficient t.1 = 0 := rfl
    have hvalue : t.2 = s.sum := by
      rw [← Equation.coefficient_of_mem_entries ht, stage, hsum, hzero, Int.zero_add]
    have hne : t.2 ≠ 0 := reduced_stage terms t ht
    simp only [List.mem_cons, List.not_mem_nil, or_false]
    omega
  · have hwithin : (stage unknowns c terms).Within (0 + terms.length) :=
      within_foldl_addTo (fun t ht => hr.light.2 t (hterms.subset ht)) Equation.within_trivial
    have hlength : 0 + terms.length ≤ 3 := by
      rw [Nat.zero_add]
      exact Nat.le_trans hterms.length_le hr.light.1
    exact Nat.le_trans hwithin.2 (Nat.mul_le_mul_right _ hlength)

end Relation

/-! ## Relations of a model -/

/-- The categories and relations of a model, out of which its equations are built. -/
def relationsOf (m : Model) : Except SolveError (Categories × List Relation) := do
  let constraints ← SolveError.ofForeign m.linked
  let categories := Categories.ofConstraints m.slots.size constraints
  let outcomes ← constraints.mapM categories.encodeConstraint
  if (outcomes.filterMap reason?).isEmpty then
    .ok (categories, outcomes.flatMap fun o => o.toOption.getD [])
  else .error (.unsatisfiable (outcomes.filterMap reason?))

theorem Encoding.ofModel_eq_bind (m : Model) (components : List Component) :
    ofModel m components =
      relationsOf m >>= fun found => ofRelations found.1 found.2 components := by
  simp only [ofModel, relationsOf, bind_assoc]
  refine bind_congr fun constraints => bind_congr fun outcomes => ?_
  by_cases hempty : (outcomes.filterMap reason?).isEmpty = true
  · simp only [hempty]
    rfl
  · simp only [Bool.eq_false_iff.2 hempty]
    rfl

theorem basic_of_mem_relationsOf {m : Model} {k : Categories} {relations : List Relation}
    (h : relationsOf m = .ok (k, relations)) : ∀ r ∈ relations, r.Basic := by
  obtain ⟨constraints, -, h⟩ := bind_eq_ok_iff.1 h
  obtain ⟨outcomes, houtcomes, h⟩ := bind_eq_ok_iff.1 h
  split at h
  case isTrue =>
    cases h
    intro r hr
    obtain ⟨c, -, found, hfound, hmem⟩ :=
      Categories.exists_relations_of_mem_outcomes houtcomes hr
    exact (Categories.fewBasic_of_relations_eq_ok hfound).2 r hmem
  case isFalse => cases h

/-! ## Encoding within a range -/

section Within

variable (fits : ℤ → Bool)

namespace Equation

/-- Adds a multiple of an unknown, if the sum of the coefficients fits. -/
def addTermWithin (e : Equation) (index : ℕ) (coefficient : ℤ) : Option Equation := do
  let merged ← Option.guard fits (e.coefficient index + coefficient)
  if merged = 0 then
    return { e with terms := e.terms.erase index }
  else
    return { e with terms := e.terms.insert index merged }

/-- Adds to the right-hand side, if the sum fits. -/
def addRhsWithin (e : Equation) (value : ℤ) : Option Equation := do
  let sum ← Option.guard fits (e.rhs + value)
  return { e with rhs := sum }

end Equation

namespace Relation

/-- Moves one term into an equation, if the integers that this takes fit. -/
def addToWithin (unknowns : List SlotId) (component : Component) (e : Equation)
    (t : Operand × ℤ) : Option Equation :=
  match t.1.slot with
  | .constant (.concrete unit) => do
    let opposite ← Option.guard fits (-t.2)
    let product ← Option.guard fits (opposite * (component.valueOf unit).val)
    e.addRhsWithin fits product
  | .constant _ => some e
  | .unknown _ =>
    match unknowns.idxOf? t.1.id with
    | some index => e.addTermWithin fits index t.2
    | none => some e

/-- The equation of a relation, if the integers on the way to it fit. -/
def equationWithin (unknowns : List SlotId) (component : Component) (r : Relation) :
    Option Equation :=
  r.terms.foldlM (addToWithin fits unknowns component) Equation.trivial

end Relation

namespace Encoding

/-- The conflicts and the system of one component, if the integers in its equations fit. -/
def componentWithin (unknowns : List SlotId) (relations : List Relation)
    (component : Component) : Option (List Reason × ComponentSystem) := do
  let equations ← relations.mapM (Relation.equationWithin fits unknowns component)
  let conflicts := (relations.zip equations).filterMap fun p =>
    if p.2.isConstant && p.2.rhs != 0 then some (Reason.constants p.1.origin component) else none
  let opened := equations.filter fun e => !e.isConstant
  return (conflicts, systemOfEquations component unknowns.length opened)

/-- The systems of relations, if the integers in their equations fit. -/
def ofRelationsWithin (categories : Categories) (relations : List Relation)
    (components : List Component) : Option (Except SolveError Encoding) := do
  let unknowns := unknownsOf relations
  let parts ← components.mapM (componentWithin fits unknowns relations)
  let reasons := parts.flatMap Prod.fst
  let systems := parts.map Prod.snd
  return if reasons.isEmpty then
    .ok ⟨unknowns, categories, systems.filter fun s => !s.equations.isEmpty⟩
  else .error (.unsatisfiable reasons)

/-- The encoding of a model, if the integers in its equations fit. -/
def ofModelWithin (m : Model) (components : List Component) :
    Option (Except SolveError Encoding) :=
  match relationsOf m with
  | .error e => some (.error e)
  | .ok (categories, relations) => ofRelationsWithin fits categories relations components

end Encoding

variable {fits}

namespace Equation

variable {e : Equation}

theorem addTermWithin_eq_some {i : ℕ} {k : ℤ} (h : fits (e.coefficient i + k) = true) :
    e.addTermWithin fits i k = some (e.addTerm i k) := by
  rw [addTermWithin, Option.guard_pos h, Option.bind_eq_bind, Option.bind_some]
  split
  case isTrue hzero => rw [addTerm_of_eq_zero hzero, Option.pure_def]
  case isFalse hne => rw [addTerm_of_ne_zero hne, Option.pure_def]

theorem addRhsWithin_eq_some {k : ℤ} (h : fits (e.rhs + k) = true) :
    e.addRhsWithin fits k = some (e.addRhs k) := by
  rw [addRhsWithin, Option.guard_pos h]
  rfl

end Equation

variable (hfits : ∀ i : ℤ, i.natAbs ≤ 3 * 2 ^ 31 → fits i = true)
include hfits

namespace Relation

variable {unknowns : List SlotId} {c : Component}

/-- A step to an equation with small numbers is taken. -/
theorem addToWithin_eq_some {e : Equation} {t : Operand × ℤ} (ht : t.2.natAbs = 1)
    (h : (addTo unknowns c e t).Within 3) :
    addToWithin fits unknowns c e t = some (addTo unknowns c e t) := by
  obtain ⟨⟨id, slot⟩, k⟩ := t
  cases slot with
  | constant q =>
    cases q with
    | concrete unit =>
      have hopposite : fits (-k) = true := hfits _ (by omega)
      have hproduct : fits (-k * (c.valueOf unit).val) = true :=
        hfits _ (Nat.le_trans (natAbs_moved_le ht unit) (by omega))
      simp only [addToWithin, Option.guard_pos hopposite, Option.guard_pos hproduct,
        Option.bind_eq_bind, Option.bind_some]
      -- The sum is the right-hand side of the next equation.
      exact Equation.addRhsWithin_eq_some (hfits _ h.2)
    | top | bottom | poly => rfl
  | unknown location =>
    simp only [addTo, addToWithin] at h ⊢
    cases hindex : unknowns.idxOf? id with
    | none => rfl
    | some index =>
      simp only [hindex] at h
      -- The sum is a coefficient of the next equation, or zero where that has none.
      refine Equation.addTermWithin_eq_some (hfits _ ?_)
      have hsum := h.1 index
      rw [Equation.coefficient_addTerm, if_pos rfl] at hsum
      omega

theorem foldlM_addToWithin_eq_some {terms : List (Operand × ℤ)}
    (hterms : ∀ t ∈ terms, t.2.natAbs = 1) {n : ℕ} {e : Equation} (h : e.Within n)
    (hn : n + terms.length ≤ 3) :
    terms.foldlM (addToWithin fits unknowns c) e =
      some (terms.foldl (addTo unknowns c) e) := by
  induction terms generalizing n e with
  | nil => rfl
  | cons t rest ih =>
    obtain ⟨ht, hrest⟩ := List.forall_mem_cons.1 hterms
    rw [List.length_cons] at hn
    have hstep : (addTo unknowns c e t).Within (n + 1) := within_addTo h ht
    rw [List.foldlM_cons, addToWithin_eq_some hfits ht (hstep.mono (by omega)), Option.bind_eq_bind,
      Option.bind_some, List.foldl_cons]
    exact ih hrest hstep (by omega)

theorem equationWithin_eq_some {r : Relation} (hr : r.Light) :
    r.equationWithin fits unknowns c = some (r.equation unknowns c) := by
  refine foldlM_addToWithin_eq_some hfits hr.2 Equation.within_trivial ?_
  rw [Nat.zero_add]
  exact hr.1

end Relation

namespace Encoding

variable {relations : List Relation} (hlight : ∀ r ∈ relations, r.Light)
include hlight

theorem componentWithin_eq_some (unknowns : List SlotId) (c : Component) :
    componentWithin fits unknowns relations c =
      some (constantConflicts unknowns relations c, systemOf unknowns relations c) := by
  have hequations : relations.mapM (Relation.equationWithin fits unknowns c) =
      some (relations.map (Relation.equation unknowns c)) :=
    mapM_eq_some_map fun r hr => Relation.equationWithin_eq_some hfits (hlight r hr)
  rw [componentWithin, hequations, Option.bind_eq_bind, Option.bind_some, Option.pure_def,
    List.zip_map_right, List.zip_eq_zipWith, List.zipWith_self, List.map_map, List.filterMap_map]
  rfl

theorem ofRelationsWithin_eq_some (k : Categories) (components : List Component) :
    ofRelationsWithin fits k relations components = some (ofRelations k relations components) := by
  have hparts : components.mapM (componentWithin fits (unknownsOf relations) relations) =
      some (components.map fun c => (constantConflicts (unknownsOf relations) relations c,
        systemOf (unknownsOf relations) relations c)) :=
    mapM_eq_some_map fun c _ => componentWithin_eq_some hfits hlight _ c
  rw [ofRelationsWithin, hparts, Option.bind_eq_bind, Option.bind_some, Option.pure_def,
    List.flatMap_map, List.map_map]
  rfl

omit hlight in
/-- The encoding of a model is the same in every range that holds the integers up to three times
the largest magnitude of an exponent. -/
theorem ofModelWithin_eq_some (m : Model) (components : List Component) :
    ofModelWithin fits m components = some (ofModel m components) := by
  rw [ofModel_eq_bind, ofModelWithin]
  split
  · rename_i e he
    rw [he]
    rfl
  · rename_i k relations hrelations
    rw [hrelations]
    exact ofRelationsWithin_eq_some hfits
      (fun r hr => (basic_of_mem_relationsOf hrelations r hr).light) k components

end Encoding
end Within

end Linear
end Metrology
