import Metrology.Proofs.Linear.Encoding

/-!
# Where categories settle

The passes over the constraints of a model come to an end after at most as many rounds as there
are unknowns.  From then on the constraints force nothing new.  This is why the relations that
are made next are between concrete constants and unknowns without a category only, and why
nothing is lost when they become equations.
-/

namespace Metrology
namespace Linear

/-! ## Terms of equations -/

/-- How a term enters the equations of its relation.  A concrete constant moves to the right-hand
side, and an unknown without a category adds to the coefficient at its place. -/
def Relation.Enters (k : Categories) (unknowns : List SlotId) (t : Operand × ℤ) : Prop :=
  (∃ unit, t.1.slot = .constant (.concrete unit) ∧ ∀ component e,
    addTo unknowns component e t = e.addRhs (-t.2 * (component.valueOf unit).val)) ∨
  ∃ location i, t.1.slot = .unknown location ∧ k.get? t.1.id = none ∧
    unknowns[i]? = some t.1.id ∧ ∀ component e, addTo unknowns component e t = e.addTerm i t.2

namespace Categories

variable {k : Categories} {o lhs rhs result : Operand}

/-- An operand without a category is a concrete constant, or no category was found for it. -/
theorem slot_cases_of_eq_none (h : k.of o = none) :
    (∃ unit, o.slot = .constant (.concrete unit)) ∨
      ∃ location, o.slot = .unknown location ∧ k.get? o.id = none := by
  unfold of at h
  split at h
  case h_4 unit hslot => exact .inl ⟨unit, hslot⟩
  case h_5 location hslot => exact .inr ⟨location, hslot, h⟩
  all_goals cases h

theorem exists_concrete_of_eq_none {q : Qualifier} (h : k.of o = none)
    (hslot : o.slot = .constant q) : ∃ unit, q = .concrete unit := by
  rcases slot_cases_of_eq_none h with ⟨unit, hunit⟩ | ⟨location, hunknown, -⟩
  · exact ⟨unit, Slot.constant.inj (hslot.symm.trans hunit)⟩
  · cases hslot.symm.trans hunknown

theorem enters_of_eq_none {relations : List Relation} {r : Relation} (hr : r ∈ relations)
    {t : Operand × ℤ} (ht : t ∈ r.terms) (h : k.of t.1 = none) :
    Relation.Enters k (unknownsOf relations) t := by
  rcases slot_cases_of_eq_none h with ⟨unit, hslot⟩ | ⟨location, hslot, hget⟩
  · refine .inl ⟨unit, hslot, fun component e => ?_⟩
    rw [Relation.addTo, hslot]
  · have hmem := mem_unknownsOf hr ht hslot
    cases hindex : (unknownsOf relations).idxOf? t.1.id with
    | none => exact absurd hmem (List.idxOf?_eq_none_iff.1 hindex)
    | some i =>
      obtain ⟨hlt, heq, -⟩ := List.idxOf?_eq_some_iff.1 hindex
      refine .inr ⟨location, i, hslot, hget, ?_, fun component e => ?_⟩
      · rw [List.getElem?_eq_getElem hlt, heq]
      · rw [Relation.addTo, hslot]
        dsimp only
        rw [hindex]

/-- Unless it has to be refused, a join of operands without categories to the top has relations
exactly if it is between two concrete constants that differ. -/
theorem exists_relations_join_top_iff
    (hl : k.of lhs = none) (hr : k.of rhs = none) (htop : k.of result = some .top)
    (hdis : k.needsDisequality (.join lhs rhs result) = false) :
    (∃ found, k.relations (.join lhs rhs result) = .ok found) ↔
      ∃ a b, a ≠ b ∧ lhs.slot = .constant (.concrete a) ∧ rhs.slot = .constant (.concrete b) := by
  obtain ⟨p, q, hp, hq⟩ := constants_of_not_needsDisequality hl hr htop hdis
  obtain ⟨a, rfl⟩ := exists_concrete_of_eq_none hl hp
  obtain ⟨b, rfl⟩ := exists_concrete_of_eq_none hr hq
  have hjoin : k.relations (.join lhs rhs result) =
      if a = b then .error (.selfJoin (.concrete a)) else .ok [] := by
    simp [relations, joinConcrete, isTop, isBottom, hl, hr, htop, hp, hq]
  rw [hjoin, hp, hq]
  by_cases hab : a = b <;> simp [hab]

end Categories

/-! ## Models -/

variable {m : Model} {constraints : List (Constraint Operand)}

/-- What is encoded without a reason to stop has the relations and the categories of its
constraints. -/
theorem encodingOf_of_outcomes (h : m.linked = .ok constraints)
    {outcomes : List (Except Reason (List Relation))}
    (houtcomes : constraints.mapM
      (Categories.ofConstraints m.slots.size constraints).encodeConstraint = .ok outcomes)
    {components : List Component} {e : Encoding} (he : Encoding.ofModel m components = .ok e) :
    e = encodingOf (Categories.ofConstraints m.slots.size constraints)
      (outcomes.flatMap fun o => o.toOption.getD []) components := by
  obtain ⟨hclosed, rfl⟩ := Model.linked_eq_ok_iff.1 h
  rw [Encoding.ofModel_eq_of_closed hclosed, bind_eq_ok_iff] at he
  obtain ⟨outcomes', houtcomes', he⟩ := he
  cases houtcomes'.symm.trans houtcomes
  exact (Encoding.ofOutcomes_eq_ok he).2.2

/-- The passes over the constraints of a model end, after no more rounds than it has unknowns and
with something found in each, where every unknown that a constraint forces a category on has
one.  If no division and no disequality stops the encoding then, all terms of its relations enter
their equations, the unknowns of the equations have no category, and a join of operands without
categories to the top is accepted exactly for two concrete constants that differ. -/
theorem categories_settle (m : Model) (constraints : List (Constraint Operand))
    (hlinked : m.linked = .ok constraints) (k : Categories)
    (hk : k = Categories.ofConstraints m.slots.size constraints) :
    (∃ n ≤ m.unknowns.length,
      k = (Categories.pass constraints)^[n] SortedMap.empty ∧
      (∀ i < n, ((Categories.pass constraints)^[i] SortedMap.empty).size <
        ((Categories.pass constraints)^[i + 1] SortedMap.empty).size) ∧
      Categories.pass constraints k = k) ∧
    (∀ c ∈ constraints, ∀ o category location, (o, category) ∈ k.forced c →
      o.slot = .unknown location → ∃ found, k.get? o.id = some found) ∧
    ∀ outcomes relations, constraints.mapM k.encodeConstraint = .ok outcomes →
      relations = (outcomes.flatMap fun o => o.toOption.getD []) →
      (∀ r ∈ relations, ∀ t ∈ r.terms, Relation.Enters k (unknownsOf relations) t) ∧
      (∀ id ∈ unknownsOf relations, k.get? id = none) ∧
      (∀ lhs rhs result, .join lhs rhs result ∈ constraints →
        k.of lhs = none → k.of rhs = none → k.of result = some .top →
        ((∃ found, k.relations (.join lhs rhs result) = .ok found) ↔
          ∃ a b, a ≠ b ∧ lhs.slot = .constant (.concrete a) ∧
            rhs.slot = .constant (.concrete b))) ∧
      ∀ components e, Encoding.ofModel m components = .ok e →
        e = encodingOf k relations components := by
  have hids : ∀ c ∈ constraints, ∀ o ∈ c.slots, ∀ location, o.slot = .unknown location →
      o.id ∈ m.unknownIds := fun c hc o ho _ => Model.mem_unknownIds_of_linked hlinked hc ho
  have hlength : m.unknownIds.length = m.unknowns.length := List.length_map _
  obtain ⟨n, hn, heq, hlt, hfix⟩ :=
    Categories.exists_ofConstraints_eq hids (hlength ▸ m.length_unknowns_le)
  subst hk
  refine ⟨⟨n, hlength ▸ hn, heq, hlt, hfix⟩, ?_, ?_⟩
  · intro c hc o category location hforced hslot
    rw [← Categories.of_eq_get? hslot, ← Categories.visit_eq_self_of_pass hfix hc]
    exact Categories.exists_of_foldl_record hforced hslot _
  · intro outcomes relations houtcomes hrelations
    subst hrelations
    have hplain : ∀ r ∈ outcomes.flatMap (fun o => o.toOption.getD []), ∀ t ∈ r.terms,
        (Categories.ofConstraints m.slots.size constraints).of t.1 = none := by
      intro r hr t ht
      obtain ⟨c, -, found, hfound, hmem⟩ :=
        Categories.exists_relations_of_mem_outcomes houtcomes hr
      exact (Categories.plain_of_relations_eq_ok hfound r hmem t ht).2
    refine ⟨fun r hr t ht => Categories.enters_of_eq_none hr ht (hplain r hr t ht), ?_, ?_,
      fun components e he => encodingOf_of_outcomes hlinked houtcomes he⟩
    · intro id hid
      obtain ⟨r, hr, t, ht, rfl, location, hslot⟩ := exists_of_mem_unknownsOf hid
      rw [← Categories.of_eq_get? hslot]
      exact hplain r hr t ht
    · intro lhs rhs result hmem hl hr htop
      obtain ⟨outcome, houtcome⟩ := exists_mapM_eq_ok_iff.1 ⟨_, houtcomes⟩ _ hmem
      exact Categories.exists_relations_join_top_iff hl hr htop
        (Categories.encodeConstraint_eq_ok houtcome).2.1

/-- A join of two units whose result gets to the top in the second round only. -/
def lateModel : Model where
  slots := #[.constant .top, .unknown "x", .unknown "y", .constant (.base "m"),
    .constant (.base "s"), .unknown "z"]
  constraints := #[.equal 2 1, .equal 1 0, .join 3 4 2, .product 3 4 5]

theorem categories_settle_late :
    lateModel.linked = .ok lateModel.operandConstraints ∧
    (categoriesOf lateModel).keys = [1, 2] ∧
    (∃ n ≤ 3, categoriesOf lateModel =
      (Categories.pass lateModel.operandConstraints)^[n] SortedMap.empty) ∧
    ∃ outcomes, lateModel.operandConstraints.mapM (categoriesOf lateModel).encodeConstraint =
        .ok outcomes ∧
      unknownsOf (outcomes.flatMap fun o => o.toOption.getD []) = [5] ∧
      (categoriesOf lateModel).get? 5 = none ∧
      ∃ found, (categoriesOf lateModel).relations (.join (lateModel.operandAt 3)
        (lateModel.operandAt 4) (lateModel.operandAt 2)) = .ok found := by
  have hlinked : lateModel.linked = .ok lateModel.operandConstraints := by decide +kernel
  obtain ⟨⟨n, hn, heq, -⟩, -, hencoded⟩ := categories_settle lateModel _ hlinked _ rfl
  have houtcomes : ∃ outcomes, lateModel.operandConstraints.mapM
      (categoriesOf lateModel).encodeConstraint = .ok outcomes ∧
        unknownsOf (outcomes.flatMap fun o => o.toOption.getD []) = [5] :=
    ⟨[.ok [], .ok [], .ok [], .ok [⟨.product 3 4 5, [(lateModel.operandAt 5, 1),
      (lateModel.operandAt 3, -1), (lateModel.operandAt 4, -1)]⟩]], by decide +kernel⟩
  obtain ⟨outcomes, houtcomes, hunknowns⟩ := houtcomes
  obtain ⟨-, hfree, hjoin, -⟩ := hencoded outcomes _ houtcomes rfl
  refine ⟨hlinked, by decide +kernel, ⟨n, hn, heq⟩, outcomes, houtcomes, hunknowns, ?_, ?_⟩
  · exact hfree 5 (by rw [hunknowns]; exact List.mem_singleton_self 5)
  · refine (hjoin _ _ _ (by decide +kernel) (by decide +kernel) (by decide +kernel)
      (by decide +kernel)).2 ⟨.base "m", .base "s", by decide +kernel, rfl, rfl⟩

end Linear
end Metrology
