import Metrology.Proofs.Linear.Soundness
import Metrology.Proofs.Smt.Exactness

/-!
# Agreement of the two backends

What elimination finds satisfies every assertion of the SMT problem of the model.  A check of the
found units is clean, so all that is left is the range of exponents: a product or quotient of
concrete units that became a relation has a concrete result, and the result is in range because
it is a unit.
-/

namespace Metrology
namespace Linear

/-! ## Relations and the range of exponents -/

namespace Categories

variable {k : Categories} {unit : Operand → Qualifier} {origin : Constraint SlotId}
variable {lhs rhs result : Operand} {relations : List Relation}

theorem of_result_eq_none {sign : Int} (hl : k.of lhs = none) (hr : k.of rhs = none)
    (h : k.arithmetic origin lhs rhs result sign = .ok relations) : k.of result = none := by
  simp only [arithmetic, isTop, isBottom, hl, hr] at h
  cases hresult : k.of result with
  | none => rfl
  | some category => simp [hresult] at h

/-- An operation that has relations and the right result does not leave the range. -/
theorem staysInRange_of_arithmetic_eq_ok
    {op : Qualifier → Qualifier → Qualifier} {sign : Int} (hop : Qualifier.Arithmetic op sign)
    (hl : Fits (k.of lhs) (unit lhs)) (hr : Fits (k.of rhs) (unit rhs))
    (hresult : Fits (k.of result) (unit result))
    (h : k.arithmetic origin lhs rhs result sign = .ok relations)
    (heq : op (unit lhs) (unit rhs) = unit result) :
    Qualifier.StaysInRange sign (unit lhs) (unit rhs) := by
  cases hu : unit lhs with
  | top | bottom | poly => trivial
  | concrete a =>
    cases hv : unit rhs with
    | top | bottom | poly => trivial
    | concrete b =>
      have hnone := of_result_eq_none ((of_eq_none_iff hl).2 ⟨a, hu⟩)
        ((of_eq_none_iff hr).2 ⟨b, hv⟩) h
      obtain ⟨r, hw⟩ := (of_eq_none_iff hresult).1 hnone
      rw [Qualifier.StaysInRange, ← hop.exists_concrete_iff]
      exact ⟨r, by rw [← hu, ← hv, heq, hw]⟩

/-- A constraint that has relations and holds for units that agree with the categories stays in
range. -/
theorem inRange_of_relations_eq_ok
    {c : Constraint Operand} (hunit : ∀ o ∈ c.slots, Respects k unit o)
    (hdiv : k.divisionError? c = none) (h : k.relations c = .ok relations)
    (hholds : (c.map unit).Holds) : (c.map unit).InRange := by
  cases c with
  | subtype sub sup | equal lhs rhs | join lhs rhs result => trivial
  | product lhs rhs result =>
    obtain ⟨hl, hr, hresult⟩ := Constraint.and_of_forall_mem_triple hunit
    exact Constraint.inRange_product_iff.2 (staysInRange_of_arithmetic_eq_ok
      Qualifier.mul_arithmetic hl.fits hr.fits hresult.fits h hholds)
  | quotient lhs rhs result =>
    obtain ⟨hl, hr, hresult⟩ := Constraint.and_of_forall_mem_triple hunit
    have hquotient := (Constraint.quotient_holds_iff (divisor_ne_bottom hr.fits hdiv)).1 hholds
    exact Constraint.inRange_quotient_iff.2 (staysInRange_of_arithmetic_eq_ok
      Qualifier.quotient_arithmetic hl.fits hr.fits hresult.fits h hquotient)

end Categories

/-! ## What a solve finds -/

section Solved

variable {m : Model} {relations : List Relation} {values : List (Component × SystemValues)}

/-- A unit that is put together from answers over components of the model has no others. -/
theorem over_unitOf {k : Categories}
    (hvalues : ∀ c ∈ values.map Prod.fst, c ∈ m.components) (id : SlotId) :
    ((encodingOf k relations m.components).unitOf values id).Over m.components := by
  cases hcategory : k.get? id with
  | some category =>
    rw [Encoding.unitOf_of_category hcategory]
    cases category <;> trivial
  | none =>
    cases hindex : (encodingOf k relations m.components).unknowns.idxOf? id with
    | none =>
      have hone : (encodingOf k relations m.components).unitOf values id = .concrete .one := by
        rw [Encoding.unitOf, hindex]
        simp only [encodingOf, hcategory]
      rw [hone]
      intro c _
      rw [Component.valueOf_one, Exponent.val_zero]
    | some i =>
      rw [Encoding.unitOf_of_idxOf? hcategory hindex]
      intro c hc
      rw [valueOf_foldl_assignStored_of_not_mem (mt (hvalues c) hc), Component.valueOf_one,
        Exponent.val_zero]

/-- All constraints of a model stay in range under what is found for it. -/
theorem inRange_assembled (h : Related m relations)
    (hcheck : m.polyAsTop.check (assembled m relations values) = .ok []) :
    ∀ c ∈ m.operandConstraints,
      (c.map (Operand.plainUnitIn (assembled m relations values))).InRange := by
  intro c hc
  obtain ⟨found, hfound, -⟩ := h.exists_relations c hc
  have hholds := ((Model.check_polyAsTop_eq_nil_iff.1 hcheck).2 c hc).2
  refine Categories.inRange_of_relations_eq_ok (fun o ho => ?_) (h.divisions c hc) hfound hholds
  obtain ⟨id, -, rfl⟩ := Model.exists_operandAt_of_mem_slots h.closed hc ho
  exact respects_operandAt (fits_assembled m relations values) id

end Solved
end Linear

namespace Smt

/-! ## Agreement -/

/-- A division that the problem refuses is one that elimination refuses. -/
theorem divisionError?_eq_none_of_linear {k : Linear.Categories} {c : Constraint Operand}
    (h : k.divisionError? c = none) : divisionError? c = none := by
  cases c with
  | subtype sub sup | equal lhs rhs | join lhs rhs result | product lhs rhs result => rfl
  | quotient lhs rhs result =>
    rw [divisionError?, if_neg]
    intro hslot
    simp [Linear.Categories.divisionError?, Linear.Categories.isBottom, Linear.Categories.of,
      hslot] at h

/-- Where elimination finds units for the unknowns of a model, the model has an SMT problem and
the valuation of these units satisfies all its assertions.  So where the assertions cannot all
hold, elimination finds nothing. -/
theorem linear_solution_satisfies (m : Model)
    (hnames : ∀ d ∈ m.usedDimensions, Dimensions.ValidName d) :
    (∀ solved, Linear.solve .builtin m = .ok solved →
      ∃ p, Problem.ofModel m m.components = .ok p ∧
        p.Satisfied (.ofAssignment m.components solved.solution)) ∧
    (∀ p, Problem.ofModel m m.components = .ok p → (∀ v, ¬p.Satisfied v) →
      ∀ solved, Linear.solve .builtin m ≠ .ok solved) := by
  have hsatisfies : ∀ solved, Linear.solve .builtin m = .ok solved →
      ∃ p, Problem.ofModel m m.components = .ok p ∧
        p.Satisfied (.ofAssignment m.components solved.solution) := by
    intro solved hsolve
    obtain ⟨relations, values, hrelated, hagree, hdecoded, hsolution⟩ :=
      Linear.exists_assembled_of_solve_eq_ok hsolve
    have hcheck := Linear.check_assembled hrelated hagree hdecoded
    have hproblem : ∃ p, Problem.ofModel m m.components = .ok p :=
      Problem.exists_ofModel_eq_ok_iff.2 ⟨hrelated.closed, fun c hc =>
        divisionError?_eq_none_of_linear (hrelated.divisions c hc)⟩
    obtain ⟨p, hp⟩ := hproblem
    have hshows : ∀ id ∈ m.unknownIds, ∃ unit, solved.solution.get? id = some unit ∧
        Shows (.ofAssignment m.components solved.solution) m.components
          (.ofUnknown m.components id) unit := by
      intro id hid
      obtain ⟨location, hslot⟩ := Model.mem_unknownIds_iff.1 hid
      have hget := Linear.get?_assembled relations values hslot
      rw [← hsolution] at hget
      exact ⟨_, hget, shows_ofUnknown (components_name_inj hnames) hget
        (Linear.over_unitOf (fun c hc => (Linear.components_of_decoded hdecoded).subset hc) id)⟩
    refine ⟨p, hp, (Problem.satisfied_iff_of_shows hp hshows).2 ?_⟩
    rw [hsolution]
    exact ⟨hcheck, Linear.inRange_assembled hrelated hcheck⟩
  refine ⟨hsatisfies, fun p hp hnone solved hsolve => ?_⟩
  obtain ⟨p', hp', hsatisfied⟩ := hsatisfies solved hsolve
  cases hp.symm.trans hp'
  exact hnone _ hsatisfied

/-- The square of `m`, its join with a polymorphic constant, and a quotient of the bottom by it. -/
def mixedModel : Model where
  slots := #[.constant (.concrete (Monomial.one.set "m" 1)), .constant .poly, .constant .bottom,
    .unknown "x", .unknown "y", .unknown "z"]
  constraints := #[.product 0 0 3, .join 1 3 4, .quotient 2 3 5]

/-- What elimination finds. -/
def mixedSolved : Solved where
  solution := SortedMap.ofList
    [(3, .concrete (Monomial.one.set "m" ((Exponent.ofInt? 2).getD 0))), (4, .top), (5, .bottom)]
  statistics :=
    { backend := .linear, unknowns := 1, equations := 2, soft := 0, groups := 2 }

theorem linear_solution_satisfies_mixed :
    (∀ d ∈ mixedModel.usedDimensions, Dimensions.ValidName d) ∧
      Linear.solve .builtin mixedModel = .ok mixedSolved ∧
      ∃ p, Problem.ofModel mixedModel mixedModel.components = .ok p ∧
        p.Satisfied (.ofAssignment mixedModel.components mixedSolved.solution) :=
  have hnames : ∀ d ∈ mixedModel.usedDimensions, Dimensions.ValidName d := by decide +kernel
  have hsolve : Linear.solve .builtin mixedModel = .ok mixedSolved := by decide +kernel
  ⟨hnames, hsolve, (linear_solution_satisfies _ hnames).1 _ hsolve⟩

end Smt
end Metrology
