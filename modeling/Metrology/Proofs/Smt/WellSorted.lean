import Metrology.Proofs.Smt.Constants
import Metrology.Proofs.Smt.Decoding

/-!
# Declarations and labels of a problem

The problem of a model is closed: the formulas that it asserts and prefers use only variables that
it declares, each in the sort of its declaration, and it declares no name twice.  Its assertions
have different labels, so the labels of an unsatisfiable core lead back to the assertions that they
come from, and the label of a numbered constraint to the text of that constraint.
-/

namespace Metrology
namespace Smt

/-! ## Variables of formulas -/

section Variables

variable {vars : List (String × VarSort)}

theorem Formula.BuiltFrom.freeVars_subset {f : Formula} (h : f.BuiltFrom vars) :
    f.freeVars ⊆ vars := by
  obtain ⟨tree, rfl, htree⟩ := h
  exact List.Subset.trans (Formula.freeVars_fold_subset tree) htree

theorem Term.BuiltFrom.var {name : String} (h : (name, .int) ∈ vars) :
    (Term.var name).BuiltFrom vars :=
  ⟨.var name, rfl, List.cons_subset.2 ⟨h, List.nil_subset _⟩⟩

theorem Formula.BuiltFrom.var {name : String} (h : (name, .bool) ∈ vars) :
    (Formula.var name).BuiltFrom vars :=
  ⟨.var name, rfl, List.cons_subset.2 ⟨h, List.nil_subset _⟩⟩

namespace View

/-- The view of an unknown slot is built from the slot's own variables. -/
theorem builtFrom_ofUnknown {components : List Component} {id : SlotId}
    (h : slotDeclarations components id ⊆ vars) : (ofUnknown components id).BuiltFrom vars := by
  simp only [slotDeclarations, List.cons_subset] at h
  obtain ⟨htop, hbottom, hints⟩ := h
  refine ⟨.var htop, .var hbottom, ?_⟩
  rw [ofUnknown, List.forall_mem_map]
  exact fun c hc => .var (hints (List.mem_map_of_mem hc))

theorem BuiltFrom.zero {view : View} (h : view.BuiltFrom vars) : view.zero.BuiltFrom vars := by
  refine .conj ?_
  rw [List.forall_mem_map]
  exact fun t ht => .equate (h.components t ht) (.lit 0)

theorem BuiltFrom.wellFormed {view : View} (h : view.BuiltFrom vars) :
    view.wellFormed.BuiltFrom vars := by
  refine .conj ?_
  simp only [List.forall_mem_cons, List.not_mem_nil, false_implies, implies_true, and_true]
  exact ⟨(Formula.BuiltFrom.conj_pair h.top h.bottom).negate, .imply h.top h.zero,
    .imply h.bottom h.zero⟩

end View
end Variables

/-! ## Assertions and preferences -/

/-- Names are declared once and used in their sort, and labels are different. -/
structure Problem.WellSorted (p : Problem) : Prop where
  names : (p.declarations.map Prod.fst).Nodup
  hard : ∀ a ∈ p.hard, a.formula.freeVars ⊆ p.declarations
  soft : ∀ s ∈ p.soft, s.1.freeVars ⊆ p.declarations
  labels : (p.hard.map Assertion.label).Nodup

namespace Problem

variable {m : Model} {components : List Component} {p : Problem}

section Variables

variable (h : ofModel m components = .ok p)

include h

theorem builtFrom_ofUnknown {id : SlotId} (hid : id ∈ m.unknownIds) :
    (View.ofUnknown components id).BuiltFrom p.declarations := by
  apply View.builtFrom_ofUnknown
  rw [declarations_ofModel h]
  exact fun d hd => List.mem_flatMap.2 ⟨id, hid, hd⟩

/-- The view of an operand is built from declared variables. -/
theorem builtFrom_ofOperand (id : SlotId) :
    (View.ofOperand components (m.operandAt id)).BuiltFrom p.declarations := by
  unfold View.ofOperand
  cases hslot : (m.operandAt id).slot with
  | constant q => exact View.builtFrom_ofQualifier components q
  | unknown location =>
    refine builtFrom_ofUnknown h (Model.mem_unknownIds_iff.2 ⟨location, ?_⟩)
    exact Model.operandAt_slot_eq_unknown_iff.1 hslot

/-- Assertions use declared variables in their sort. -/
theorem freeVars_hard_subset {a : Assertion} (ha : a ∈ p.hard) :
    a.formula.freeVars ⊆ p.declarations := by
  apply Formula.BuiltFrom.freeVars_subset
  rcases (mem_hard_iff h).1 ha with ⟨slot, hslot, rfl⟩ | ⟨i, c, hc, hmem⟩
  · exact (builtFrom_ofUnknown h (List.mem_map_of_mem hslot)).wellFormed
  · rw [eq_of_mem_constraintAssertions hmem]
    apply View.BuiltFrom.formula
    obtain ⟨c', -, rfl⟩ := List.mem_map.1 (List.mem_of_getElem? hc)
    rw [Constraint.slots_map, Constraint.slots_map, List.map_map, List.forall_mem_map]
    exact fun id _ => builtFrom_ofOperand h id

/-- Preferences use declared variables in their sort. -/
theorem freeVars_soft_subset {s : Formula × Nat} (hs : s ∈ p.soft) :
    s.1.freeVars ⊆ p.declarations := by
  rw [(parts_ofModel h).2] at hs
  obtain ⟨id, hid, hs⟩ := List.mem_flatMap.1 hs
  unfold prefer at hs
  split at hs
  · cases hs
  · rw [List.mem_singleton.1 hs]
    exact (builtFrom_ofUnknown h hid).concrete.freeVars_subset

end Variables

/-! ## Labels -/

theorem map_label_constraintAssertions_sublist (components : List Component)
    (constraints : List (Constraint Operand × Nat)) :
    ((constraints.flatMap (constraintAssertions components)).map Assertion.label).Sublist
      (constraints.map fun c => s!"c{c.2}") := by
  induction constraints with
  | nil => exact List.Sublist.refl _
  | cons c rest ih =>
    rw [List.flatMap_cons, List.map_append, List.map_cons]
    have hfirst : ((constraintAssertions components c).map Assertion.label).Sublist
        [s!"c{c.2}"] := by
      unfold constraintAssertions assert
      split
      · exact List.nil_sublist _
      · exact List.Sublist.refl _
    exact hfirst.append ih

/-- No two assertions have the same label. -/
theorem labels_nodup (h : ofModel m components = .ok p) : (p.hard.map Assertion.label).Nodup := by
  have hslots : (m.unknowns.map (slotAssertion components)).map Assertion.label =
      m.unknownIds.map fun id => s!"wf{id}" := by
    rw [Model.unknownIds, List.map_map, List.map_map]
    rfl
  have hnumbers : (m.operandConstraints.zipIdx.map fun c => s!"c{c.2}").Nodup := by
    have hmap : (m.operandConstraints.zipIdx.map fun c => s!"c{c.2}") =
        (m.operandConstraints.zipIdx.map Prod.snd).map fun i => s!"c{i}" := by
      rw [List.map_map]
      rfl
    rw [hmap, List.zipIdx_map_snd]
    exact List.Nodup.map (fun i j => constraintLabel_inj) List.nodup_range'
  have hsublist := map_label_constraintAssertions_sublist components m.operandConstraints.zipIdx
  rw [(parts_ofModel h).1, List.map_append, hslots, List.nodup_append]
  refine ⟨?_, hsublist.nodup hnumbers, ?_⟩
  · exact List.pairwise_map.2 (m.unknownIds_sorted.imp fun hlt heq =>
      Nat.ne_of_lt hlt (slotLabel_inj heq))
  · intro label hslot label' hconstraint heq
    obtain ⟨id, -, rfl⟩ := List.mem_map.1 hslot
    obtain ⟨c, -, rfl⟩ := List.mem_map.1 (hsublist.subset hconstraint)
    exact slotLabel_ne_constraintLabel id c.2 heq

/-- The label of an assertion leads back to its origin. -/
theorem origin?_label (h : ofModel m components = .ok p) {a : Assertion} (ha : a ∈ p.hard) :
    p.origin? a.label = some a.origin := by
  rw [origin?]
  cases hfind : p.hard.find? fun b => decide (b.label = a.label) with
  | none => simpa using List.find?_eq_none.1 hfind a ha
  | some b =>
    have hlabel : b.label = a.label := by simpa using List.find?_some hfind
    have hb := List.mem_of_find?_eq_some hfind
    rw [List.inj_on_of_nodup_map (labels_nodup h) hb ha hlabel]
    rfl

/-- An assertion with the label of a constraint is that of the constraint. -/
theorem exists_constraint_of_label (h : ofModel m components = .ok p) {a : Assertion}
    (ha : a ∈ p.hard) {i : Nat} (hlabel : a.label = s!"c{i}") :
    ∃ c, m.constraints[i]? = some c ∧ a.origin = c.render ∧
      encodeConstraint components (c.map m.operandAt) = .ok a.formula := by
  obtain ⟨-, hencode, -⟩ := ofModel_eq_ok (v := ⟨fun _ => false, fun _ => 0⟩) h
  rcases (mem_hard_iff h).1 ha with ⟨slot, -, rfl⟩ | ⟨j, c, hc, hmem⟩
  · exact absurd hlabel (slotLabel_ne_constraintLabel slot.1 i)
  · obtain rfl := eq_of_mem_constraintAssertions hmem
    obtain rfl := constraintLabel_inj hlabel
    obtain ⟨f, hf⟩ := hencode c (List.mem_of_getElem? hc)
    rw [Model.operandConstraints, List.getElem?_map, Array.getElem?_toList,
      Option.map_eq_some_iff] at hc
    obtain ⟨c, hc, rfl⟩ := hc
    refine ⟨c, hc, ?_, ?_⟩
    · cases c <;> rfl
    · rw [hf, (encodeConstraint_eq_ok_iff.1 hf).2]

/-- Labels of assertions are reported as the origins of the assertions. -/
theorem coreReasons_map_label (h : ofModel m components = .ok p) {core : List Assertion}
    (hcore : core ⊆ p.hard) (hne : core ≠ []) :
    p.coreReasons (core.map Assertion.label) = core.map fun a => .core a.origin := by
  have hmap : ((core.map Assertion.label).map fun label =>
      Reason.core ((p.origin? label).getD label)) = core.map fun a => .core a.origin := by
    rw [List.map_map]
    refine List.map_congr_left fun a ha => ?_
    rw [Function.comp_apply, origin?_label h (hcore ha), Option.getD_some]
  unfold coreReasons
  rw [hmap]
  cases core with
  | nil => exact absurd rfl hne
  | cons a rest => rfl

end Problem

/-- The problem of a model with valid dimension names declares no name twice, uses only declared
variables in their sort, and labels its assertions differently.  The label of a numbered constraint
leads to the text of that constraint, and an unsatisfiable core is reported as the origins of its
assertions, of which those labelled by constraints are the formulas of these constraints. -/
theorem ofModel_wellSorted (m : Model) (p : Problem)
    (hnames : ∀ d ∈ m.usedDimensions, Dimensions.ValidName d)
    (hp : Problem.ofModel m m.components = .ok p) :
    p.WellSorted ∧
    (∀ (i : Nat) origin, p.origin? s!"c{i}" = some origin →
      ∃ c, m.constraints[i]? = some c ∧ origin = c.render) ∧
    ∀ core ⊆ p.hard, core ≠ [] →
      p.coreReasons (core.map Assertion.label) = core.map (fun a => .core a.origin) ∧
      ∀ a ∈ core, ∀ i : Nat, a.label = s!"c{i}" →
        ∃ c, m.constraints[i]? = some c ∧ a.origin = c.render ∧
          encodeConstraint m.components (c.map m.operandAt) = .ok a.formula := by
  refine ⟨?_, fun i origin horigin => ?_, fun core hcore hne => ⟨?_, fun a ha i hlabel => ?_⟩⟩
  · exact ⟨declaredNames_nodup hnames hp, fun a => Problem.freeVars_hard_subset hp,
      fun s => Problem.freeVars_soft_subset hp, Problem.labels_nodup hp⟩
  · obtain ⟨a, hfind, rfl⟩ := Option.map_eq_some_iff.1 horigin
    have hlabel : a.label = s!"c{i}" := by simpa using List.find?_some hfind
    obtain ⟨c, hc, hrender, -⟩ :=
      Problem.exists_constraint_of_label hp (List.mem_of_find?_eq_some hfind) hlabel
    exact ⟨c, hc, hrender⟩
  · exact Problem.coreReasons_map_label hp hcore hne
  · exact Problem.exists_constraint_of_label hp (hcore ha) hlabel

/-- The constant `m` as the product of two unknowns, after a constraint that folds away. -/
def factorModel : Model where
  slots := #[.constant (.base "m"), .unknown "x", .unknown "y"]
  constraints := #[.equal 0 0, .product 1 2 0]

/-- The problem of the two factors. -/
def factorProblem : Problem :=
  match Problem.ofModel factorModel factorModel.components with
  | .ok p => p
  | .error _ => .empty

/-- The labels of a problem with a gap keep the numbers of the constraints. -/
theorem ofModel_wellSorted_factors :
    factorProblem.WellSorted ∧ factorProblem.origin? "c0" = none ∧
      (∃ c, factorModel.constraints[1]? = some c ∧ factorProblem.origin? "c1" = some c.render) ∧
      factorProblem.coreReasons ["wf1", "wf2", "c1"] =
        [.core "slot #1 (x) is well-formed", .core "slot #2 (y) is well-formed",
          .core "#0 = #1 * #2"] := by
  obtain ⟨hsorted, horigin, hcore⟩ :=
    ofModel_wellSorted factorModel factorProblem (by decide +kernel) (by decide +kernel)
  have hc : factorProblem.origin? "c1" = some "#0 = #1 * #2" := by decide +kernel
  obtain ⟨c, hget, hrender⟩ := horigin 1 _ hc
  have hlabels : factorProblem.hard.map Assertion.label = ["wf1", "wf2", "c1"] := by decide +kernel
  obtain ⟨hreasons, -⟩ := hcore factorProblem.hard (List.Subset.refl _) (by decide +kernel)
  refine ⟨hsorted, by decide +kernel, ⟨c, hget, hrender ▸ hc⟩, ?_⟩
  rw [← hlabels, hreasons]
  decide +kernel

end Smt
end Metrology
