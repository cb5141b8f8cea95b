import Metrology.Proofs.Linear.Encoding

/-!
# Soundness of solving by elimination

An assignment found by elimination gives a unit to every unknown slot and satisfies all
constraints.  Unknowns with a category have its unit.  The others are concrete, and every
component of their units satisfies the equations of all relations.
-/

namespace Metrology
namespace Linear

/-! ## Units of unknowns -/

section Assemble

variable {values : List (Component × SystemValues)} {i : ℕ}

/-- Writes the stored value of an unknown, if there is one, into a unit. -/
def assignStored (i : ℕ) (unit : Monomial) (v : Component × SystemValues) : Monomial :=
  match v.2.get? i with
  | some n => v.1.assign unit n
  | none => unit

theorem valueOf_foldl_assignStored_of_not_mem
    {c : Component} (hc : c ∉ values.map Prod.fst) (unit : Monomial) :
    c.valueOf (values.foldl (assignStored i) unit) = c.valueOf unit := by
  induction values generalizing unit with
  | nil => rfl
  | cons v rest ih =>
    obtain ⟨hne, hrest⟩ := not_or.1 (mt List.mem_cons.2 hc)
    rw [List.foldl_cons, ih hrest, assignStored]
    split
    · rw [Component.valueOf_assign, if_neg hne]
    · rfl

/-- The component of an assembled unit is the stored integer of its system. -/
theorem valueOf_foldl_assignStored_of_mem
    (hnodup : (values.map Prod.fst).Nodup) {v : Component × SystemValues} (hv : v ∈ values)
    {unit : Monomial} (hunit : ∀ c : Component, c.valueOf unit = 0 ∨ c ∉ values.map Prod.fst) :
    (v.1.valueOf (values.foldl (assignStored i) unit)).val = v.2.valueOf i := by
  induction values generalizing unit with
  | nil => cases hv
  | cons w rest ih =>
    obtain ⟨hfresh, hnodup⟩ := List.nodup_cons.1 hnodup
    rw [List.foldl_cons]
    rcases List.mem_cons.1 hv with rfl | hv
    -- the answers after `v` belong to other components
    · rw [valueOf_foldl_assignStored_of_not_mem hfresh, assignStored, SystemValues.valueOf]
      cases v.2.get? i with
      | none =>
        have hzero : v.1.valueOf unit = 0 :=
          (hunit v.1).resolve_right fun h => h List.mem_cons_self
        simp [hzero]
      | some n => simp [Component.valueOf_assign]
    · refine ih hnodup hv fun c => ?_
      by_cases hc : c ∈ rest.map Prod.fst
      · left
        have hne : c ≠ w.1 := fun heq => hfresh (heq ▸ hc)
        have hzero : c.valueOf unit = 0 :=
          (hunit c).resolve_right fun h => h (List.mem_cons_of_mem _ hc)
        rw [assignStored]
        split
        · rw [Component.valueOf_assign, if_neg hne, hzero]
        · exact hzero
      · exact .inr hc

end Assemble

namespace Encoding

variable {e : Encoding} {m : Model} {values : List (Component × SystemValues)} {id : SlotId}

theorem unitOf_of_category {category : Category} (h : e.categories.get? id = some category) :
    e.unitOf values id = category.unit := by
  rw [unitOf, h]

theorem unitOf_of_idxOf? {i : ℕ} (hcategory : e.categories.get? id = none)
    (hindex : e.unknowns.idxOf? id = some i) :
    e.unitOf values id = .concrete (values.foldl (assignStored i) .one) := by
  rw [unitOf, hcategory, hindex]
  rfl

theorem unitOf_of_idxOf?_eq_none (hcategory : e.categories.get? id = none)
    (hindex : e.unknowns.idxOf? id = none) : e.unitOf values id = .concrete .one := by
  rw [unitOf, hcategory, hindex]

variable (values) in
theorem exists_unitOf_eq_concrete (hcategory : e.categories.get? id = none) :
    ∃ unit, e.unitOf values id = .concrete unit := by
  cases hindex : e.unknowns.idxOf? id with
  | none => exact ⟨.one, unitOf_of_idxOf?_eq_none hcategory hindex⟩
  | some i => exact ⟨_, unitOf_of_idxOf? hcategory hindex⟩

theorem get?_assemble :
    (e.assemble m values).get? id =
      if id ∈ m.unknownIds then some (e.unitOf values id) else none :=
  m.get?_ofList_unknowns _ id

theorem keys_assemble : (e.assemble m values).keys = m.unknownIds :=
  m.keys_ofList_unknowns _

/-- Every assigned unit is the one of a category or concrete. -/
theorem mem_entries_assemble {entry : SlotId × Qualifier}
    (h : entry ∈ (e.assemble m values).entries) :
    entry.2 = .top ∨ entry.2 = .bottom ∨ ∃ unit, entry.2 = .concrete unit := by
  have hget := SortedMap.get?_eq_some_iff.2 h
  rw [get?_assemble] at hget
  split at hget
  · cases hcategory : e.categories.get? entry.1 with
    | none =>
      obtain ⟨unit, hunit⟩ := exists_unitOf_eq_concrete values hcategory
      exact .inr (.inr ⟨unit, (Option.some.inj hget).symm.trans hunit⟩)
    | some category =>
      have hunit := (Option.some.inj hget).symm.trans (unitOf_of_category hcategory)
      cases category with
      | top => exact .inl hunit
      | bottom => exact .inr (.inl hunit)
  · cases hget

end Encoding

/-! ## Answers to all systems -/

section Answers

variable {m : Model} {k : Categories} {relations : List Relation}
  {values : List (Component × SystemValues)} {components : List Component}

/-- The answers belong to distinct components out of the encoded ones. -/
theorem components_of_decoded
    (h : (encodingOf k relations components).decoded .builtin =
      values.map fun v => (v.1, .ok v.2)) :
    (values.map Prod.fst).Sublist components := by
  have hfst : values.map Prod.fst =
      (encodingOf k relations components).systems.map ComponentSystem.component := by
    have hmap := congrArg (List.map Prod.fst) h
    rw [Encoding.decoded, List.map_map, List.map_map] at hmap
    exact hmap.symm
  have hall :
      (components.map (relationSystem relations)).map ComponentSystem.component = components := by
    rw [List.map_map]
    exact (List.map_congr_left fun c _ => component_systemOfEquations).trans (List.map_id _)
  have hsub := (List.filter_sublist (l := components.map (relationSystem relations))
    (p := fun s => !s.equations.isEmpty)).map ComponentSystem.component
  rw [hall] at hsub
  exact hfst ▸ hsub

theorem mem_map_component_systems_iff {c : Component} :
    c ∈ (encodingOf k relations components).systems.map ComponentSystem.component ↔
      c ∈ components ∧ (relationSystem relations c).equations.isEmpty = false := by
  have hcomponent : ∀ c, (relationSystem relations c).component = c :=
    fun _ => component_systemOfEquations
  constructor
  · intro h
    obtain ⟨s, hs, rfl⟩ := List.mem_map.1 h
    obtain ⟨hmem, hne⟩ := List.mem_filter.1 hs
    obtain ⟨c, hc, rfl⟩ := List.mem_map.1 hmem
    rw [hcomponent]
    exact ⟨hc, by simpa using hne⟩
  · rintro ⟨hc, hne⟩
    apply List.mem_map.2
    refine ⟨relationSystem relations c, List.mem_filter.2 ⟨List.mem_map_of_mem hc, ?_⟩, hcomponent c⟩
    simp [hne]

/-- The components with an answer are those that have a system with equations. -/
theorem mem_components_of_decoded_iff
    (h : (encodingOf k relations components).decoded .builtin = values.map fun v => (v.1, .ok v.2))
    {c : Component} :
    c ∈ values.map Prod.fst ↔
      c ∈ components ∧ (relationSystem relations c).equations.isEmpty = false := by
  have hfst := congrArg (List.map Prod.fst) h
  rw [Encoding.decoded, List.map_map, List.map_map] at hfst
  rw [← mem_map_component_systems_iff (k := k)]
  exact iff_of_eq (congrArg (c ∈ ·) hfst.symm)

/-- An answer is the one to the system of its component. -/
theorem decodedBy_of_mem_values
    (h : (encodingOf k relations components).decoded .builtin = values.map fun v => (v.1, .ok v.2))
    {v : Component × SystemValues} (hv : v ∈ values) :
    decodedBy .builtin (unknownsOf relations) (relationSystem relations v.1) = .ok v.2 := by
  have hmem : (v.1, .ok v.2) ∈ (encodingOf k relations components).decoded .builtin := by
    rw [h]
    exact List.mem_map_of_mem hv
  obtain ⟨s, hs, heq⟩ := List.mem_map.1 hmem
  obtain ⟨hcomponent, hdecoded⟩ := Prod.mk.inj heq
  obtain ⟨c, -, rfl⟩ := List.mem_map.1 (List.mem_filter.1 hs).1
  rw [relationSystem, component_systemOfEquations] at hcomponent
  rw [← hcomponent]
  exact hdecoded

/-- A component with open equations has an answer, and its integers satisfy them. -/
theorem exists_answer
    (h : (encodingOf k relations components).decoded .builtin = values.map fun v => (v.1, .ok v.2))
    {c : Component} (hc : c ∈ components) {e : Equation} (he : e ∈ openEquations relations c) :
    ∃ v ∈ values, v.1 = c ∧ e.Holds v.2.valueOf := by
  have hkey : e.render ∈ (relationSystem relations c).equations.keys :=
    mem_keys_systemOfEquations.2 ⟨e, he, rfl⟩
  have hne : (relationSystem relations c).equations.isEmpty = false := by
    obtain ⟨entry, hentry, -⟩ := List.mem_map.1 hkey
    rw [SortedMap.isEmpty, List.isEmpty_eq_false_iff_exists_mem]
    exact ⟨entry, hentry⟩
  obtain ⟨v, hv, rfl⟩ := List.mem_map.1 ((mem_components_of_decoded_iff h).2 ⟨hc, hne⟩)
  exact ⟨v, hv, rfl, holds_of_decodeSystem_eq_ok (decodedBy_of_mem_values h hv) e he⟩

end Answers

/-! ## Relations under the assembled assignment -/

section Relations

variable {m : Model} {relations : List Relation} {values : List (Component × SystemValues)}

/-- The assignment that is put together from the answers to all systems. -/
def assembled (m : Model) (relations : List Relation)
    (values : List (Component × SystemValues)) : Assignment :=
  (encodingOf (categoriesOf m) relations m.components).assemble m values

variable (relations values) in
theorem get?_assembled {id : SlotId} {location : String}
    (h : m.slots[id]? = some (.unknown location)) :
    (assembled m relations values).get? id =
      some ((encodingOf (categoriesOf m) relations m.components).unitOf values id) := by
  rw [assembled, Encoding.get?_assemble, if_pos (Model.mem_unknownIds_iff.2 ⟨location, h⟩)]

/-- An unknown of a relation is assigned the unit that is put together for it. -/
theorem get?_assembled_of_idxOf?
    (h : Related m relations) {id : SlotId} {i : ℕ}
    (hi : (unknownsOf relations).idxOf? id = some i) :
    (assembled m relations values).get? id =
      some (.concrete (values.foldl (assignStored i) .one)) := by
  have hmem : id ∈ unknownsOf relations := by
    obtain ⟨hlt, rfl, -⟩ := List.idxOf?_eq_some_iff.1 hi
    exact List.getElem_mem hlt
  obtain ⟨r, hr, t, ht, hid, location, hslot⟩ := exists_of_mem_unknownsOf hmem
  obtain ⟨id', -, hoperand, hnone⟩ := h.operand_of_mem hr ht
  have hid' : id' = id := by rw [← hid, hoperand]; rfl
  subst hid'
  rw [hoperand] at hslot hnone
  have hcategory : (categoriesOf m).get? id' = none := by
    rw [Categories.of, hslot] at hnone
    exact hnone
  rw [get?_assembled relations values (Model.operandAt_slot_eq_unknown_iff.1 hslot)]
  exact congrArg some (Encoding.unitOf_of_idxOf? hcategory hi)

/-- In the component of an answer, the assignment gives the unknowns the integers of the
answer. -/
theorem pointOf_assembled
    (h : Related m relations) (hnodup : (values.map Prod.fst).Nodup)
    {v : Component × SystemValues} (hv : v ∈ values) {i : ℕ}
    (hi : i < (unknownsOf relations).length) :
    pointOf (unknownsOf relations) v.1 (assembled m relations values) i = v.2.valueOf i := by
  have hindex := idxOf?_getElem (unknownsOf_nodup relations) hi
  rw [pointOf_of_idxOf? hindex, get?_assembled_of_idxOf? h hindex, Option.getD_some]
  exact valueOf_foldl_assignStored_of_mem hnodup hv fun c => .inl (Component.valueOf_one c)

/-- The assignment satisfies a relation in the components of the model. -/
theorem total_eq_zero_of_mem
    (h : Related m relations) (hagree : ConstantsAgree relations m.components)
    (hdecoded : (encodingOf (categoriesOf m) relations m.components).decoded .builtin =
      values.map fun v => (v.1, .ok v.2))
    {c : Component} (hc : c ∈ m.components) {r : Relation} (hr : r ∈ relations) :
    r.total c (Operand.plainUnitIn (assembled m relations values)) = 0 := by
  rw [← equation_holds_pointOf_iff hr]
  by_cases hconstant : (r.equation (unknownsOf relations) c).isConstant = true
  · rw [Equation.holds_iff_of_isConstant hconstant]
    exact hagree c hc r hr hconstant
  · have hopen : r.equation (unknownsOf relations) c ∈ openEquations relations c :=
      List.mem_filter.2 ⟨List.mem_map.2 ⟨r, hr, rfl⟩, by simpa using hconstant⟩
    obtain ⟨v, hv, rfl, hholds⟩ := exists_answer hdecoded hc hopen
    have hnodup := (components_of_decoded hdecoded).nodup m.components_nodup
    refine (Equation.holds_congr (Relation.below_equation r) fun i hi => ?_).2 hholds
    exact pointOf_assembled h hnodup hv hi

/-- No other component occurs, so the assignment satisfies a relation there. -/
theorem total_eq_zero_of_not_mem
    (h : Related m relations)
    (hdecoded : (encodingOf (categoriesOf m) relations m.components).decoded .builtin =
      values.map fun v => (v.1, .ok v.2))
    {c : Component} (hc : c ∉ m.components) {r : Relation} (hr : r ∈ relations) :
    r.total c (Operand.plainUnitIn (assembled m relations values)) = 0 := by
  have hvalues : c ∉ values.map Prod.fst := fun hmem =>
    hc ((components_of_decoded hdecoded).subset hmem)
  have hterm : ∀ t ∈ r.terms,
      t.2 * c.valueIn (t.1.plainUnitIn (assembled m relations values)) = 0 := by
    intro t ht
    obtain ⟨id, hid, hoperand, -⟩ := h.operand_of_mem hr ht
    rw [mul_eq_zero]
    right
    cases hslot : t.1.slot with
    | constant q =>
      rw [Operand.plainUnitIn_of_constant hslot, valueIn_polyAsTop]
      rw [hoperand] at hslot
      have hget := Model.getElem?_of_operandAt_slot_eq_constant hid hslot
      exact Model.valueIn_constant_eq_zero hc hget
    | unknown location =>
      have hmem := mem_unknownsOf hr ht hslot
      cases hindex : (unknownsOf relations).idxOf? t.1.id with
      | none => exact absurd hmem (List.idxOf?_eq_none_iff.1 hindex)
      | some i =>
        rw [Operand.plainUnitIn_of_unknown hslot, get?_assembled_of_idxOf? h hindex,
          Option.getD_some, Component.valueIn,
          valueOf_foldl_assignStored_of_not_mem hvalues, Component.valueOf_one]
        rfl
  rw [Relation.total, List.map_congr_left hterm]
  simp

/-- The assignment gives the unknowns with a category its unit and the others concrete ones. -/
theorem fits_assembled (m : Model) (relations : List Relation)
    (values : List (Component × SystemValues)) :
    ∀ id ∈ m.unknownIds,
      Fits ((categoriesOf m).get? id) (((assembled m relations values).get? id).getD .top) := by
  intro id hid
  obtain ⟨location, hslot⟩ := Model.mem_unknownIds_iff.1 hid
  rw [get?_assembled relations values hslot, Option.getD_some]
  cases hcategory : (categoriesOf m).get? id with
  | none => exact Encoding.exists_unitOf_eq_concrete values hcategory
  | some category => exact Encoding.unitOf_of_category hcategory

/-- The assignment violates no constraint. -/
theorem check_assembled
    (h : Related m relations) (hagree : ConstantsAgree relations m.components)
    (hdecoded : (encodingOf (categoriesOf m) relations m.components).decoded .builtin =
      values.map fun v => (v.1, .ok v.2)) :
    m.polyAsTop.check (assembled m relations values) = .ok [] := by
  have hholds := (h.holds_iff (fits_assembled m relations values)).2 fun r hr c => by
    by_cases hc : c ∈ m.components
    · exact total_eq_zero_of_mem h hagree hdecoded hc hr
    · exact total_eq_zero_of_not_mem h hdecoded hc hr
  refine Model.check_polyAsTop_eq_nil_iff.2 ⟨h.closed, fun c hc => ⟨fun o ho => ?_, hholds c hc⟩⟩
  obtain ⟨id, -, rfl⟩ := Model.exists_operandAt_of_mem_slots h.closed hc ho
  refine Model.isSome_unit?_polyAsTop (fun id hid => ?_) id
  obtain ⟨location, hslot⟩ := Model.mem_unknownIds_iff.1 hid
  rw [get?_assembled relations values hslot, Option.isSome_some]

end Relations

/-! ## Soundness -/

/-- What is found by the built-in eliminator is put together from the answers to all systems of
the model's relations. -/
theorem exists_assembled_of_solve_eq_ok {solved : Solved} (h : solve .builtin m = .ok solved) :
    ∃ relations values, Related m relations ∧ ConstantsAgree relations m.components ∧
      (encodingOf (categoriesOf m) relations m.components).decoded .builtin =
        values.map (fun v => (v.1, .ok v.2)) ∧
      solved.solution = assembled m relations values := by
  obtain ⟨e, he, hsolve⟩ := bind_eq_ok_iff.1 h
  obtain ⟨relations, hrelated, hagree, rfl⟩ := Encoding.ofModel_eq_ok he
  obtain ⟨values, hgather, rfl⟩ := Encoding.solve_eq_ok hsolve
  have hdecoded := (gather_eq_ok hgather fun c found => reasons_ne_nil_of_mem_decoded).1 rfl
  exact ⟨relations, values, hrelated, hagree, hdecoded, rfl⟩

/-- A solve that succeeds gives exactly the unknown slots a unit, none of them polymorphic, and
violates no constraint when polymorphic constants are read as the top. -/
theorem solve_sound (m : Model) (solved : Solved) (h : solve .builtin m = .ok solved) :
    solved.solution.keys = m.unknownIds ∧
    (∀ entry ∈ solved.solution.entries,
      entry.2 = .top ∨ entry.2 = .bottom ∨ ∃ unit, entry.2 = .concrete unit) ∧
    m.polyAsTop.check solved.solution = .ok [] ∧
    ((∀ s ∈ m.slots.toList, s ≠ .constant .poly) → m.check solved.solution = .ok []) := by
  obtain ⟨e, he, hsolve⟩ := bind_eq_ok_iff.1 h
  obtain ⟨relations, hrelated, hagree, rfl⟩ := Encoding.ofModel_eq_ok he
  obtain ⟨values, hgather, rfl⟩ := Encoding.solve_eq_ok hsolve
  have hdecoded := (gather_eq_ok hgather fun c found => reasons_ne_nil_of_mem_decoded).1 rfl
  have hcheck := check_assembled hrelated hagree hdecoded
  refine ⟨Encoding.keys_assemble, fun entry => Encoding.mem_entries_assemble, hcheck, ?_⟩
  intro hpoly
  rw [Model.polyAsTop_eq_self hpoly] at hcheck
  exact hcheck

/-- Unknowns `q = x * x` with `q * y = m`, and the join of `x` with a polymorphic constant.  With
`y` at zero, `x` would be half of `m`. -/
def halvedModel : Model where
  slots := #[.constant (.concrete (Monomial.one.set "m" 1)), .constant .poly, .unknown "q",
    .unknown "x", .unknown "y", .unknown "t"]
  constraints := #[.product 3 3 2, .product 2 4 0, .join 1 3 5]

/-- What the model is solved to. -/
def halvedSolved : Solved where
  solution := SortedMap.ofList [(2, .concrete .one), (3, .concrete .one),
    (4, .concrete (Monomial.one.set "m" 1)), (5, .top)]
  statistics :=
    { backend := .linear, unknowns := 3, equations := 4, soft := 0, groups := 2 }

theorem solve_sound_halved :
    solve .builtin halvedModel = .ok halvedSolved ∧
      halvedSolved.solution.keys = halvedModel.unknownIds ∧
      halvedModel.polyAsTop.check halvedSolved.solution = .ok [] :=
  have h : solve .builtin halvedModel = .ok halvedSolved := by decide +kernel
  ⟨h, (solve_sound _ _ h).1, (solve_sound _ _ h).2.2.1⟩

end Linear
end Metrology
