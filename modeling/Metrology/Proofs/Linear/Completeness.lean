import Metrology.Proofs.Linear.Encoding

/-!
# Completeness of solving by elimination

Where a solve answers that the constraints cannot all hold, no assignment that agrees with the
categories satisfies them without leaving the range of exponents.
-/

namespace Metrology
namespace Linear

variable {m : Model} {relations : List Relation} {s : Assignment}

/-- A satisfied model has no constants that disagree. -/
theorem constantsAgree_of_holds
    (h : ∀ r ∈ relations, r.Holds (Operand.plainUnitIn s)) (components : List Component) :
    ConstantsAgree relations components := by
  intro c _ r hr hconstant
  rw [← Equation.holds_iff_of_isConstant hconstant (pointOf (unknownsOf relations) c s),
    equation_holds_pointOf_iff hr]
  exact h r hr c

/-- A satisfied model has a solution of each of its systems. -/
theorem openEquations_hold
    (h : ∀ r ∈ relations, r.Holds (Operand.plainUnitIn s)) (c : Component) :
    ∀ e ∈ openEquations relations c, e.Holds (pointOf (unknownsOf relations) c s) := by
  intro e he
  obtain ⟨r, hr, rfl⟩ := List.mem_map.1 (List.mem_filter.1 he).1
  exact (equation_holds_pointOf_iff hr).2 (h r hr c)

/-- No system of a satisfied model is found unsatisfiable. -/
theorem not_mem_decoded_of_holds
    (h : ∀ r ∈ relations, r.Holds (Operand.plainUnitIn s)) {k : Categories}
    {components : List Component} {c : Component} {reasons : List Reason} :
    (c, .error (.unsatisfiable reasons)) ∉
      (encodingOf k relations components).decoded .builtin := by
  intro hmem
  obtain ⟨system, hsystem, heq⟩ := List.mem_map.1 hmem
  obtain ⟨-, hdecoded⟩ := Prod.mk.inj heq
  obtain ⟨c', -, rfl⟩ := List.mem_map.1 (List.mem_filter.1 hsystem).1
  exact not_holds_of_decodeSystem_eq_unsatisfiable hdecoded _ (openEquations_hold h c')

/-- Where a solve finds a model unsatisfiable, no assignment that gives every unknown the unit
of its category, or a concrete unit if it has none, satisfies all constraints without leaving
the range of exponents in a product or quotient. -/
theorem solve_complete (m : Model) (reasons : List Reason)
    (h : solve .builtin m = .error (.unsatisfiable reasons)) :
    ¬∃ s : Assignment,
      (∀ id ∈ m.unknownIds, ∃ unit, s.get? id = some unit ∧ Fits ((categoriesOf m).get? id) unit) ∧
      (∀ c ∈ m.operandConstraints, (c.map (Operand.plainUnitIn s)).InRange) ∧
      m.polyAsTop.check s = .ok [] := by
  rintro ⟨s, hunits, hrange, hcheck⟩
  have hfits : ∀ id ∈ m.unknownIds,
      Fits ((categoriesOf m).get? id) ((s.get? id).getD .top) := by
    intro id hid
    obtain ⟨unit, hunit, hfit⟩ := hunits id hid
    rwa [hunit]
  obtain ⟨hclosed, hchecked⟩ := Model.check_polyAsTop_eq_nil_iff.1 hcheck
  have hholds : ∀ c ∈ m.operandConstraints, (c.map (Operand.plainUnitIn s)).Holds :=
    fun c hc => (hchecked c hc).2
  rcases bind_eq_error_iff.1 h with hmodel | ⟨e, he, hsolve⟩
  · rcases Encoding.ofModel_eq_unsatisfiable hmodel with
      ⟨-, c, hc, why, hdiv, hwhy⟩ | ⟨relations, hrelated, hdisagree⟩
    · refine Categories.relations_eq_error (fun o ho => ?_) hdiv (hrange c hc) hwhy (hholds c hc)
      obtain ⟨id, -, rfl⟩ := Model.exists_operandAt_of_mem_slots hclosed hc ho
      exact respects_operandAt hfits id
    · exact hdisagree (constantsAgree_of_holds ((hrelated.holds_iff hfits).1 hholds) _)
  · obtain ⟨relations, hrelated, -, rfl⟩ := Encoding.ofModel_eq_ok he
    obtain ⟨found, values, hne, hgather⟩ := Encoding.solve_eq_unsatisfiable hsolve
    obtain ⟨c, reasons', hmem⟩ :=
      (gather_eq_ok hgather fun c found => reasons_ne_nil_of_mem_decoded).2 hne
    exact not_mem_decoded_of_holds ((hrelated.holds_iff hfits).1 hholds) hmem

/-- An unknown whose square is `m`. -/
def rootModel : Model where
  slots := #[.constant (.concrete (Monomial.one.set "m" 1)), .unknown "x"]
  constraints := #[.product 1 1 0]

theorem solve_complete_root :
    solve .builtin rootModel = .error (.unsatisfiable [.inconsistent (.dimension "m")]) ∧
    ¬∃ s : Assignment,
      (∀ id ∈ rootModel.unknownIds,
        ∃ unit, s.get? id = some unit ∧ Fits ((categoriesOf rootModel).get? id) unit) ∧
      (∀ c ∈ rootModel.operandConstraints, (c.map (Operand.plainUnitIn s)).InRange) ∧
      rootModel.polyAsTop.check s = .ok [] :=
  have h : solve .builtin rootModel = .error (.unsatisfiable [.inconsistent (.dimension "m")]) := by
    decide +kernel
  ⟨h, solve_complete _ _ h⟩

end Linear
end Metrology
