import Metrology.Proofs.Smt.Folding
import Metrology.Proofs.Smt.Locations

/-!
# Constraints between constants

The formula of a constraint is folded over the variables of the views it relates.  Views of
constants have no variables, so the formula of a constraint between constants is a literal.  It is
the true one exactly if a check does not report the constraint and its product or quotient stays in
range.  The true literal leaves no assertion in the problem, and the false one is asserted as it is.
-/

namespace Metrology
namespace Smt

/-! ## Views over given variables -/

theorem forall_mem_zipWith {α β γ : Type} {f : α → β → γ} {as : List α} {bs : List β} {P : γ → Prop}
    (h : ∀ a ∈ as, ∀ b ∈ bs, P (f a b)) : ∀ c ∈ List.zipWith f as bs, P c := by
  rw [← List.map_uncurry_zip_eq_zipWith, List.forall_mem_map]
  rintro ⟨a, b⟩ hab
  obtain ⟨ha, hb⟩ := List.of_mem_zip hab
  exact h a ha b hb

namespace View

/-- The flags and integers of a view are folds over some variables. -/
structure BuiltFrom (vars : List (String × VarSort)) (view : View) : Prop where
  top : view.top.BuiltFrom vars
  bottom : view.bottom.BuiltFrom vars
  components : ∀ t ∈ view.components, t.BuiltFrom vars

variable {vars : List (String × VarSort)}

/-- The view of a constant has no variables. -/
theorem builtFrom_ofQualifier (components : List Component) (q : Qualifier) :
    (ofQualifier components q).BuiltFrom vars := by
  cases q with
  | top | poly | bottom | concrete =>
    refine ⟨.lit _, .lit _, ?_⟩
    rw [ofQualifier, List.forall_mem_map]
    exact fun _ _ => .lit _

namespace BuiltFrom

variable {a b l r result : View}

theorem concrete (ha : a.BuiltFrom vars) : a.concrete.BuiltFrom vars := by
  refine .conj ?_
  simp only [List.forall_mem_cons, List.not_mem_nil, false_implies, implies_true, and_true]
  exact ⟨ha.top.negate, ha.bottom.negate⟩

theorem same (ha : a.BuiltFrom vars) (hb : b.BuiltFrom vars) :
    (View.same a b).BuiltFrom vars := by
  refine .conj ?_
  simp only [List.forall_mem_cons]
  refine ⟨ha.top.equiv hb.top, ha.bottom.equiv hb.bottom, ?_⟩
  exact forall_mem_zipWith fun s hs t ht => .equate (ha.components s hs) (hb.components t ht)

theorem below (ha : a.BuiltFrom vars) (hb : b.BuiltFrom vars) :
    (View.below a b).BuiltFrom vars := by
  refine .disj ?_
  simp only [List.forall_mem_cons, List.not_mem_nil, false_implies, implies_true, and_true]
  exact ⟨hb.top, ha.bottom, ha.same hb⟩

theorem join (hl : l.BuiltFrom vars) (hr : r.BuiltFrom vars) (hresult : result.BuiltFrom vars) :
    (View.join l r result).BuiltFrom vars := by
  have hany : (Formula.disj [l.top, r.top]).BuiltFrom vars := .disj_pair hl.top hr.top
  have hboth : (Formula.conj [l.concrete, r.concrete]).BuiltFrom vars :=
    .conj_pair hl.concrete hr.concrete
  refine .conj ?_
  simp only [List.forall_mem_cons, List.not_mem_nil, false_implies, implies_true, and_true]
  exact ⟨.imply hany hresult.top,
    .imply (.conj_pair hany.negate hl.bottom) (hresult.same hr),
    .imply (.conj_pair hany.negate hr.bottom) (hresult.same hl),
    .imply (.conj_pair hboth (hl.same hr)) (hresult.same hl),
    .imply (.conj_pair hboth (hl.same hr).negate) hresult.top⟩

theorem arithmetic {op : Term → Term → Term}
    (hop : ∀ s t : Term, s.BuiltFrom vars → t.BuiltFrom vars → (op s t).BuiltFrom vars)
    (hl : l.BuiltFrom vars) (hr : r.BuiltFrom vars) (hresult : result.BuiltFrom vars) :
    (View.arithmetic op l r result).BuiltFrom vars := by
  have hany : (Formula.disj [l.top, r.top]).BuiltFrom vars := .disj_pair hl.top hr.top
  have hcombined : ∀ f ∈ combined op l r result, f.BuiltFrom vars := by
    refine forall_mem_zipWith fun t ht => ?_
    refine forall_mem_zipWith fun x hx y hy => ?_
    exact .equate (hresult.components t ht) (hop x y (hl.components x hx) (hr.components y hy))
  refine .conj ?_
  simp only [List.forall_mem_cons, List.not_mem_nil, false_implies, implies_true, and_true]
  exact ⟨.imply hany hresult.top,
    .imply (.conj_pair hany.negate (.disj_pair hl.bottom hr.bottom)) hresult.bottom,
    .imply (.conj_pair hl.concrete hr.concrete)
      (.conj (List.forall_mem_cons.2 ⟨hresult.concrete, hcombined⟩))⟩

/-- The formula of a constraint is folded over the variables of its views. -/
theorem formula {c : Constraint View} (h : ∀ view ∈ c.slots, view.BuiltFrom vars) :
    (View.formula c).BuiltFrom vars := by
  cases c with
  | subtype a b =>
    obtain ⟨ha, hb⟩ := Constraint.and_of_forall_mem_pair h
    exact ha.below hb
  | equal a b =>
    obtain ⟨ha, hb⟩ := Constraint.and_of_forall_mem_pair h
    exact ha.same hb
  | join l r result =>
    obtain ⟨hl, hr, hresult⟩ := Constraint.and_of_forall_mem_triple h
    exact hl.join hr hresult
  | product l r result =>
    obtain ⟨hl, hr, hresult⟩ := Constraint.and_of_forall_mem_triple h
    exact arithmetic (fun _ _ => .plus) hl hr hresult
  | quotient l r result =>
    obtain ⟨hl, hr, hresult⟩ := Constraint.and_of_forall_mem_triple h
    exact .conj_pair hr.bottom.negate (arithmetic (fun _ _ => .minus) hl hr hresult)

end BuiltFrom
end View

/-! ## Labels of assertions -/

theorem toList_constraintLabel (i : Nat) : (s!"c{i}").toList = 'c' :: Nat.toDigits 10 i := by
  rw [← Numeral.toList_toString_nat]
  simp only [String.toList_append]
  rfl

/-- A label belongs to one constraint. -/
theorem constraintLabel_inj {i j : Nat} (h : s!"c{i}" = s!"c{j}") : i = j :=
  Numeral.toString_nat_inj ((String.append_right_inj _).1 h)

theorem slotLabel_inj {i j : Nat} (h : s!"wf{i}" = s!"wf{j}") : i = j :=
  Numeral.toString_nat_inj ((String.append_right_inj _).1 h)

/-- The label of a slot is not that of a constraint. -/
theorem slotLabel_ne_constraintLabel (id i : Nat) : s!"wf{id}" ≠ s!"c{i}" := by
  intro h
  have htext := congrArg String.toList h
  have hslot : (s!"wf{id}").toList = 'w' :: 'f' :: (toString id).toList := by
    simp only [String.toList_append]
    rfl
  rw [hslot, toList_constraintLabel] at htext
  exact absurd (List.cons.inj htext).1 (by decide)

/-- The assertion of a constraint has its label, its text and its formula. -/
theorem eq_of_mem_constraintAssertions {components : List Component}
    {c : Constraint Operand × Nat} {a : Assertion} (h : a ∈ constraintAssertions components c) :
    a = ⟨s!"c{c.2}", (c.1.map Operand.id).render,
      View.formula (c.1.map (View.ofOperand components))⟩ := by
  unfold constraintAssertions Problem.assert at h
  split at h
  · cases h
  · exact List.mem_singleton.1 h

/-- An assertion is about the form of an unknown slot or is that of a numbered constraint. -/
theorem Problem.mem_hard_iff {m : Model} {components : List Component} {p : Problem}
    (h : ofModel m components = .ok p) {a : Assertion} :
    a ∈ p.hard ↔ (∃ slot ∈ m.unknowns, a = slotAssertion components slot) ∨
      ∃ i c, m.operandConstraints[i]? = some c ∧ a ∈ constraintAssertions components (c, i) := by
  rw [(parts_ofModel h).1, List.mem_append, List.mem_map, List.mem_flatMap]
  refine or_congr (by simp only [eq_comm]) ?_
  constructor
  · rintro ⟨⟨c, i⟩, hc, ha⟩
    exact ⟨i, c, List.mem_zipIdx_iff_getElem?.1 hc, ha⟩
  · rintro ⟨i, c, hc, ha⟩
    exact ⟨(c, i), List.mem_zipIdx_iff_getElem?.2 hc, ha⟩

/-- The assertions with the label of a constraint are those of the constraint. -/
theorem Problem.mem_hard_and_label_iff {m : Model} {components : List Component} {p : Problem}
    (h : ofModel m components = .ok p) {i : Nat} {c : Constraint Operand}
    (hc : m.operandConstraints[i]? = some c) {a : Assertion} :
    a ∈ p.hard ∧ a.label = s!"c{i}" ↔ a ∈ constraintAssertions components (c, i) := by
  rw [mem_hard_iff h]
  constructor
  · rintro ⟨⟨slot, -, rfl⟩ | ⟨j, c', hc', ha⟩, hlabel⟩
    · exact absurd hlabel (slotLabel_ne_constraintLabel slot.1 i)
    · have hj : a.label = s!"c{j}" := by rw [eq_of_mem_constraintAssertions ha]
      obtain rfl := constraintLabel_inj (hj.symm.trans hlabel)
      obtain rfl := Option.some.inj (hc.symm.trans hc')
      exact ha
  · intro ha
    exact ⟨.inr ⟨i, c, hc, ha⟩, by rw [eq_of_mem_constraintAssertions ha]⟩

/-! ## Folding away -/

/-- A check does not report the constraint, and its product or quotient stays in range. -/
def Accepted (violations : List Violation) (s : Assignment) (c : Constraint Operand) : Prop :=
  (∀ fault, ⟨c.map Operand.id, fault⟩ ∉ violations) ∧ (c.map (Operand.plainUnitIn s)).InRange

section Constants

variable {m : Model} {c : Constraint Operand}

/-- The formula of a constraint between constants is a literal. -/
theorem formula_eq_lit_of_constants (components : List Component)
    (hconstant : ∀ o ∈ c.slots, ∃ q, o.slot = .constant q) :
    ∃ b, View.formula (c.map (View.ofOperand components)) = .lit b := by
  apply Formula.BuiltFrom.eq_lit
  apply View.BuiltFrom.formula
  rw [Constraint.slots_map, List.forall_mem_map]
  intro o ho
  obtain ⟨q, hq⟩ := hconstant o ho
  rw [View.ofOperand, hq]
  exact View.builtFrom_ofQualifier components q

/-- The formula of a constraint between constants says under every valuation what a check finds. -/
theorem holds_formula_iff_of_constants (hclosed : m.Closed) (hc : c ∈ m.operandConstraints)
    (hconstant : ∀ o ∈ c.slots, ∃ q, o.slot = .constant q) (v : Valuation) (s : Assignment) :
    (View.formula (c.map (View.ofOperand m.components))).holds v = true ↔
      (c.map Operand.polyAsTop).fault? s = none ∧ (c.map (Operand.plainUnitIn s)).InRange := by
  have hunits : ∀ o ∈ c.slots, (o.polyAsTop.unit? s).isSome := by
    intro o ho
    obtain ⟨q, hq⟩ := hconstant o ho
    simp [Operand.unit?, Operand.polyAsTop, Slot.polyAsTop, hq]
  have hshows : ∀ o ∈ c.slots,
      Shows v m.components (.ofOperand m.components o) (o.plainUnitIn s) := by
    intro o ho
    obtain ⟨id, hid, rfl⟩ := Model.exists_operandAt_of_mem_slots hclosed hc ho
    obtain ⟨q, hq⟩ := hconstant _ ho
    exact shows_ofOperand_of_constant hid hq v
  rw [Constraint.fault?_polyAsTop_eq_none_iff, and_iff_right hunits]
  exact View.holds_formula_iff hshows

theorem divisionError?_eq_none
    (h : ∀ lhs rhs result, c = .quotient lhs rhs result → rhs.slot ≠ .constant .bottom) :
    divisionError? c = none := by
  cases c with
  | subtype | equal | join | product => rfl
  | quotient lhs rhs result => exact if_neg (h lhs rhs result rfl)

end Constants

/-- A constraint between constants that does not divide by the uninhabited one folds to a literal:
to the true one, which leaves no assertion in the problem, if the constraint is accepted, and else
to the false one, which is asserted as it is.  In general a fold is a literal or reduced, and it is
a literal if it has no variables. -/
theorem constants_fold_away :
    (∀ (m : Model) (s : Assignment) (i : Nat) (c : Constraint Operand),
      m.Closed → m.operandConstraints[i]? = some c →
      (∀ o ∈ c.slots, ∃ q, o.slot = .constant q) →
      (∀ lhs rhs result, c = .quotient lhs rhs result → rhs.slot ≠ .constant .bottom) →
      ∃ violations f, m.polyAsTop.check s = .ok violations ∧
        encodeConstraint m.components c = .ok f ∧
        (Accepted violations s c → f = .lit true ∧
          ∀ p, Problem.ofModel m m.components = .ok p → ∀ a ∈ p.hard, a.label ≠ s!"c{i}") ∧
        (¬Accepted violations s c → f = .lit false ∧
          ∀ p, Problem.ofModel m m.components = .ok p → ∀ a,
            a ∈ p.hard ∧ a.label = s!"c{i}" ↔
              a = ⟨s!"c{i}", (c.map Operand.id).render, .lit false⟩)) ∧
    ∀ tree : Formula, tree.fold.Normal ∧ (tree.fold.freeVars = [] → ∃ b, tree.fold = .lit b) := by
  refine ⟨?_, fun tree => ⟨Formula.normal_fold tree, (Formula.normal_fold tree).eq_lit⟩⟩
  intro m s i c hclosed hc hconstant hdivisor
  have hmem : c ∈ m.operandConstraints := List.mem_of_getElem? hc
  obtain ⟨violations, hcheck, hviolations⟩ := Model.exists_check_polyAsTop hclosed s
  obtain ⟨b, hb⟩ := formula_eq_lit_of_constants m.components hconstant
  have haccepted : b = true ↔ Accepted violations s c := by
    rw [Accepted, hviolations c hmem,
      ← holds_formula_iff_of_constants hclosed hmem hconstant ⟨fun _ => false, fun _ => 0⟩ s, hb,
      Formula.holds]
  have hassertions : constraintAssertions m.components (c, i) =
      (Problem.empty.assert s!"c{i}" (c.map Operand.id).render (.lit b)).hard := by
    rw [constraintAssertions, hb]
  refine ⟨violations, .lit b, hcheck, ?_, fun h => ?_, fun h => ?_⟩
  · exact encodeConstraint_eq_ok_iff.2 ⟨divisionError?_eq_none hdivisor, hb.symm⟩
  · obtain rfl := haccepted.2 h
    refine ⟨rfl, fun p hp a ha hlabel => ?_⟩
    have hassert := (Problem.mem_hard_and_label_iff hp hc).1 ⟨ha, hlabel⟩
    rw [hassertions] at hassert
    cases hassert
  · obtain rfl := Bool.eq_false_iff.2 (mt haccepted.1 h)
    refine ⟨rfl, fun p hp a => ?_⟩
    rw [Problem.mem_hard_and_label_iff hp hc, hassertions]
    exact List.mem_singleton

/-- A product of constants that leaves the range, with the top as its result, and two constants that
are the same once the polymorphic one is read as the top. -/
def constantModel : Model where
  slots := #[.constant (.concrete largestPower), .constant (.concrete (Monomial.one.set "m" 1)),
    .constant .top, .constant .poly]
  constraints := #[.product 0 1 2, .equal 2 3]

theorem closed_constantModel : constantModel.Closed := by
  intro c hc
  rcases List.mem_pair.1 hc with rfl | rfl <;> decide

theorem slot_constantModel {c : Constraint SlotId} (hc : c ∈ constantModel.constraints.toList) :
    ∀ o ∈ (c.map constantModel.operandAt).slots, ∃ q, o.slot = .constant q := by
  intro o ho
  rw [Constraint.slots_map] at ho
  obtain ⟨id, hid, rfl⟩ := List.mem_map.1 ho
  have hsize := closed_constantModel c hc id hid
  match id, hsize with
  | 0, _ | 1, _ | 2, _ | 3, _ => exact ⟨_, rfl⟩

/-- A check reports neither constraint, and yet the product folds to the false literal. -/
theorem constants_fold_away_overflow :
    constantModel.Closed ∧ constantModel.polyAsTop.check .empty = .ok [] ∧
      encodeConstraint constantModel.components
        ((Constraint.product 0 1 2).map constantModel.operandAt) = .ok (.lit false) ∧
      encodeConstraint constantModel.components
        ((Constraint.equal 2 3).map constantModel.operandAt) = .ok (.lit true) := by
  have hcheck : constantModel.polyAsTop.check .empty = .ok [] := by decide +kernel
  refine ⟨closed_constantModel, hcheck, ?_, ?_⟩
  · obtain ⟨violations, f, hviolations, hf, -, hreject⟩ :=
      constants_fold_away.1 constantModel .empty 0 _ closed_constantModel rfl
        (slot_constantModel (by simp [constantModel])) (fun _ _ _ h => nomatch h)
    have hrange : ¬Accepted violations .empty
        ((Constraint.product 0 1 2).map constantModel.operandAt) := by
      intro haccepted
      have hunits : ((Constraint.product 0 1 2).map constantModel.operandAt).map
          (Operand.plainUnitIn .empty) =
            .product (.concrete largestPower) (.concrete (Monomial.one.set "m" 1)) .top := by
        decide +kernel
      have hrange := haccepted.2
      rw [hunits] at hrange
      exact absurd (hrange (.dimension "m")) (by decide +kernel)
    rw [hf, (hreject hrange).1]
  · obtain ⟨violations, f, hviolations, hf, haccept, -⟩ :=
      constants_fold_away.1 constantModel .empty 1 _ closed_constantModel rfl
        (slot_constantModel (by simp [constantModel])) (fun _ _ _ h => nomatch h)
    obtain rfl := Except.ok.inj (hcheck.symm.trans hviolations)
    rw [hf, (haccept ⟨fun _ => List.not_mem_nil, trivial⟩).1]

end Smt
end Metrology
