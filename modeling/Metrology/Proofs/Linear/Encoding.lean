import Metrology.Proofs.Linear.Eliminator

/-!
# What an encoded model is solved to

How a solve comes to an assignment or to the answer that there is none: the constraints become
relations, the relations become one system for each component, and the answers to the systems
are gathered.
-/

namespace Metrology
namespace Linear

/-! ## Encoding -/

/-- The categories of the unknowns of a model. -/
def categoriesOf (m : Model) : Categories :=
  Categories.ofConstraints m.slots.size m.operandConstraints

/-- The unknowns of relations, in order. -/
def unknownsOf (relations : List Relation) : List SlotId :=
  sortedDistinct (relations.flatMap Relation.unknowns)

/-- The equations of relations over a component that have unknowns. -/
def openEquations (relations : List Relation) (c : Component) : List Equation :=
  (relations.map fun r => r.equation (unknownsOf relations) c).filter fun e => !e.isConstant

/-- The system of relations over a component. -/
def relationSystem (relations : List Relation) (c : Component) : ComponentSystem :=
  systemOfEquations c (unknownsOf relations).length (openEquations relations c)

/-- The systems of relations that have unknowns. -/
def encodingOf (k : Categories) (relations : List Relation) (components : List Component) :
    Encoding :=
  ⟨unknownsOf relations, k,
    (components.map (relationSystem relations)).filter fun s => !s.equations.isEmpty⟩

/-- No equation of relations without unknowns has a right-hand side. -/
def ConstantsAgree (relations : List Relation) (components : List Component) : Prop :=
  ∀ c ∈ components, ∀ r ∈ relations,
    (r.equation (unknownsOf relations) c).isConstant = true →
      (r.equation (unknownsOf relations) c).rhs = 0

/-- A list of relations is what the constraints of a model ask for. -/
structure Related (m : Model) (relations : List Relation) : Prop where
  closed : m.Closed
  divisions : ∀ c ∈ m.operandConstraints, (categoriesOf m).divisionError? c = none
  disequalities : ∀ c ∈ m.operandConstraints, (categoriesOf m).needsDisequality c = false
  exists_relations : ∀ c ∈ m.operandConstraints,
    ∃ found, (categoriesOf m).relations c = .ok found ∧ ∀ r ∈ found, r ∈ relations
  mem_relations : ∀ r ∈ relations, ∃ c ∈ m.operandConstraints,
    ∃ found, (categoriesOf m).relations c = .ok found ∧ r ∈ found

/-- The operands of relations are slots of the model without a category. -/
theorem Related.operand_of_mem
    {m : Model} {relations : List Relation} (h : Related m relations) {r : Relation}
    (hr : r ∈ relations) {t : Operand × ℤ} (ht : t ∈ r.terms) :
    ∃ id < m.slots.size, t.1 = m.operandAt id ∧ (categoriesOf m).of t.1 = none := by
  obtain ⟨c, hc, found, hfound, hmem⟩ := h.mem_relations r hr
  obtain ⟨hslots, hnone⟩ := Categories.plain_of_relations_eq_ok hfound r hmem t ht
  obtain ⟨id, hid, heq⟩ := Model.exists_operandAt_of_mem_slots h.closed hc hslots
  exact ⟨id, hid, heq, hnone⟩

namespace Categories

variable {k : Categories} {c : Constraint Operand}

theorem encodeConstraint_eq_ok {outcome : Except Reason (List Relation)}
    (h : k.encodeConstraint c = .ok outcome) :
    k.divisionError? c = none ∧ k.needsDisequality c = false ∧
      ((∃ found, k.relations c = .ok found ∧ outcome = .ok found) ∨
        ∃ why, k.relations c = .error why ∧
          outcome = .error (.conflict (c.map Operand.id) why)) := by
  unfold encodeConstraint at h
  split at h
  · cases h
  · rename_i hdiv
    split at h
    · cases h
    · rename_i hdis
      refine ⟨hdiv, Bool.eq_false_iff.2 hdis, ?_⟩
      split at h <;> rename_i found hfound <;> cases h
      · exact .inl ⟨found, hfound, rfl⟩
      · exact .inr ⟨found, hfound, rfl⟩

/-- The relations among the outcomes of constraints are what these ask for. -/
theorem exists_relations_of_mem_outcomes
    {constraints : List (Constraint Operand)} {outcomes : List (Except Reason (List Relation))}
    (h : constraints.mapM k.encodeConstraint = .ok outcomes) {r : Relation}
    (hr : r ∈ outcomes.flatMap fun o => o.toOption.getD []) :
    ∃ c ∈ constraints, ∃ found, k.relations c = .ok found ∧ r ∈ found := by
  obtain ⟨outcome, hmem, hr⟩ := List.mem_flatMap.1 hr
  obtain ⟨c, hc, houtcome⟩ := (mem_of_mapM_eq_ok h).1 hmem
  obtain ⟨-, -, ⟨found, hrel, rfl⟩ | ⟨why, -, rfl⟩⟩ := encodeConstraint_eq_ok houtcome
  · exact ⟨c, hc, found, hrel, hr⟩
  · cases hr

theorem encodeConstraint_ne_unsatisfiable {reasons : List Reason} :
    k.encodeConstraint c ≠ .error (.unsatisfiable reasons) := by
  unfold encodeConstraint
  intro h
  split at h
  · cases h
  · split at h
    · cases h
    · split at h <;> cases h

end Categories

namespace Encoding

variable {m : Model} {components : List Component} {e : Encoding} {reasons : List Reason}

theorem mem_constantConflicts_iff
    {unknowns : List SlotId} {relations : List Relation} {c : Component} {reason : Reason} :
    reason ∈ constantConflicts unknowns relations c ↔
      ∃ r ∈ relations, (r.equation unknowns c).isConstant = true ∧
        (r.equation unknowns c).rhs ≠ 0 ∧ reason = .constants r.origin c := by
  simp only [constantConflicts, List.mem_filterMap, Option.ite_none_right_eq_some,
    Bool.and_eq_true, bne_iff_ne, Option.some.injEq]
  constructor
  · rintro ⟨r, hr, ⟨hconstant, hrhs⟩, rfl⟩
    exact ⟨r, hr, hconstant, hrhs, rfl⟩
  · rintro ⟨r, hr, hconstant, hrhs, rfl⟩
    exact ⟨r, hr, ⟨hconstant, hrhs⟩, rfl⟩

theorem ofRelations_eq (k : Categories) (relations : List Relation)
    (components : List Component) :
    ofRelations k relations components =
      if (components.flatMap (constantConflicts (unknownsOf relations) relations)).isEmpty then
        .ok (encodingOf k relations components)
      else .error (.unsatisfiable
        (components.flatMap (constantConflicts (unknownsOf relations) relations))) :=
  rfl

theorem isEmpty_constantConflicts_iff {relations : List Relation} :
    (components.flatMap (constantConflicts (unknownsOf relations) relations)).isEmpty = true ↔
      ConstantsAgree relations components := by
  rw [List.isEmpty_iff, List.flatMap_eq_nil_iff]
  refine forall₂_congr fun c _ => ?_
  rw [List.eq_nil_iff_forall_not_mem]
  constructor
  · intro h r hr hconstant
    by_contra hrhs
    exact h _ (mem_constantConflicts_iff.2 ⟨r, hr, hconstant, hrhs, rfl⟩)
  · intro h reason hreason
    obtain ⟨r, hr, hconstant, hrhs, -⟩ := mem_constantConflicts_iff.1 hreason
    exact hrhs (h r hr hconstant)

theorem ofRelations_eq_ok_iff {k : Categories} {relations : List Relation} :
    ofRelations k relations components = .ok e ↔
      ConstantsAgree relations components ∧ e = encodingOf k relations components := by
  rw [ofRelations_eq, ← isEmpty_constantConflicts_iff]
  split <;> rename_i h <;> simp [h, eq_comm]

theorem ofRelations_eq_unsatisfiable
    {k : Categories} {relations : List Relation}
    (h : ofRelations k relations components = .error (.unsatisfiable reasons)) :
    ¬ConstantsAgree relations components := by
  intro hagree
  rw [ofRelations_eq_ok_iff.2 ⟨hagree, rfl⟩] at h
  cases h

/-- What is made of the outcomes of all constraints. -/
def ofOutcomes (k : Categories) (components : List Component)
    (outcomes : List (Except Reason (List Relation))) : Except SolveError Encoding :=
  if (outcomes.filterMap reason?).isEmpty then
    ofRelations k (outcomes.flatMap fun o => o.toOption.getD []) components
  else .error (.unsatisfiable (outcomes.filterMap reason?))

theorem ofModel_eq_of_closed (h : m.Closed) (components : List Component) :
    ofModel m components =
      m.operandConstraints.mapM (categoriesOf m).encodeConstraint >>=
        ofOutcomes (categoriesOf m) components := by
  rw [ofModel, Model.linked_eq_ok h]
  change (m.operandConstraints.mapM (categoriesOf m).encodeConstraint >>= _) = _
  congr 1
  funext outcomes
  rw [ofOutcomes]
  by_cases hempty : (outcomes.filterMap reason?).isEmpty = true
  · rw [if_pos hempty]
    simp only [hempty]
    rfl
  · rw [if_neg hempty]
    simp only [Bool.eq_false_iff.2 hempty]
    rfl

theorem closed_of_ofModel_ne_foreign
    (h : ∀ slot, ofModel m components ≠ .error (.foreign slot)) : m.Closed := by
  cases hlinked : m.linked with
  | ok constraints => exact (Model.linked_eq_ok_iff.1 hlinked).1
  | error slot =>
    refine absurd ?_ (h slot)
    rw [ofModel, hlinked]
    rfl

theorem isEmpty_reasons_iff {outcomes : List (Except Reason (List Relation))} :
    (outcomes.filterMap reason?).isEmpty = true ↔ ∀ o ∈ outcomes, ∃ found, o = .ok found := by
  rw [List.isEmpty_iff, List.filterMap_eq_nil_iff]
  refine forall₂_congr fun o _ => ?_
  cases o <;> simp [reason?]

theorem ofOutcomes_eq_ok
    {k : Categories} {outcomes : List (Except Reason (List Relation))}
    (h : ofOutcomes k components outcomes = .ok e) :
    (∀ o ∈ outcomes, ∃ found, o = .ok found) ∧
      ConstantsAgree (outcomes.flatMap fun o => o.toOption.getD []) components ∧
      e = encodingOf k (outcomes.flatMap fun o => o.toOption.getD []) components := by
  unfold ofOutcomes at h
  split at h
  case isTrue hreasons => exact ⟨isEmpty_reasons_iff.1 hreasons, ofRelations_eq_ok_iff.1 h⟩
  case isFalse => cases h

/-- Where all constraints have relations, these are what the model asks for. -/
theorem related_of_outcomes
    (hclosed : m.Closed) {outcomes : List (Except Reason (List Relation))}
    (h : m.operandConstraints.mapM (categoriesOf m).encodeConstraint = .ok outcomes)
    (hall : ∀ o ∈ outcomes, ∃ found, o = .ok found) :
    Related m (outcomes.flatMap fun o => o.toOption.getD []) := by
  have hencode : ∀ c ∈ m.operandConstraints, ∃ found,
      (categoriesOf m).divisionError? c = none ∧ (categoriesOf m).needsDisequality c = false ∧
        (categoriesOf m).relations c = .ok found ∧ .ok found ∈ outcomes := by
    intro c hc
    obtain ⟨outcome, houtcome⟩ := exists_mapM_eq_ok_iff.1 ⟨_, h⟩ c hc
    have hmem := (mem_of_mapM_eq_ok h).2 ⟨c, hc, houtcome⟩
    obtain ⟨found, rfl⟩ := hall outcome hmem
    obtain ⟨hdiv, hdis, ⟨found', hrel, heq⟩ | ⟨why, -, heq⟩⟩ :=
      Categories.encodeConstraint_eq_ok houtcome
    · cases heq
      exact ⟨found, hdiv, hdis, hrel, hmem⟩
    · cases heq
  refine ⟨hclosed, ?_, ?_, ?_, ?_⟩
  · intro c hc
    obtain ⟨found, hdiv, -⟩ := hencode c hc
    exact hdiv
  · intro c hc
    obtain ⟨found, -, hdis, -⟩ := hencode c hc
    exact hdis
  · intro c hc
    obtain ⟨found, -, -, hrel, hmem⟩ := hencode c hc
    exact ⟨found, hrel, fun r hr => List.mem_flatMap.2 ⟨_, hmem, hr⟩⟩
  · intro r hr
    exact Categories.exists_relations_of_mem_outcomes h hr

/-- A model that can be encoded has relations for all its constraints. -/
theorem ofModel_eq_ok (h : ofModel m components = .ok e) :
    ∃ relations, Related m relations ∧ ConstantsAgree relations components ∧
      e = encodingOf (categoriesOf m) relations components := by
  have hclosed : m.Closed := closed_of_ofModel_ne_foreign fun slot hslot => by
    rw [hslot] at h
    cases h
  rw [ofModel_eq_of_closed hclosed, bind_eq_ok_iff] at h
  obtain ⟨outcomes, houtcomes, h⟩ := h
  obtain ⟨hall, hencoding⟩ := ofOutcomes_eq_ok h
  exact ⟨_, related_of_outcomes hclosed houtcomes hall, hencoding⟩

/-- A model is unsatisfiable before elimination because a constraint contradicts the categories
or because constants disagree. -/
theorem ofModel_eq_unsatisfiable (h : ofModel m components = .error (.unsatisfiable reasons)) :
    (m.Closed ∧ ∃ c ∈ m.operandConstraints, ∃ why,
      (categoriesOf m).divisionError? c = none ∧ (categoriesOf m).relations c = .error why) ∨
    ∃ relations, Related m relations ∧ ¬ConstantsAgree relations components := by
  have hclosed : m.Closed := closed_of_ofModel_ne_foreign fun slot hslot => by
    rw [hslot] at h
    cases h
  rw [ofModel_eq_of_closed hclosed] at h
  rcases bind_eq_error_iff.1 h with h | ⟨outcomes, houtcomes, h⟩
  · obtain ⟨c, -, hc⟩ := exists_of_mapM_eq_error h
    exact absurd hc Categories.encodeConstraint_ne_unsatisfiable
  · unfold ofOutcomes at h
    split at h
    case isTrue hreasons =>
      exact .inr ⟨_, related_of_outcomes hclosed houtcomes (isEmpty_reasons_iff.1 hreasons),
        ofRelations_eq_unsatisfiable h⟩
    case isFalse hreasons =>
      rw [isEmpty_reasons_iff] at hreasons
      push Not at hreasons
      obtain ⟨outcome, hmem, hne⟩ := hreasons
      obtain ⟨c, hc, houtcome⟩ := (mem_of_mapM_eq_ok houtcomes).1 hmem
      obtain ⟨hdiv, -, ⟨found, -, heq⟩ | ⟨why, hwhy, -⟩⟩ :=
        Categories.encodeConstraint_eq_ok houtcome
      · exact absurd heq (hne found)
      · exact .inl ⟨hclosed, c, hc, why, hdiv, hwhy⟩

end Encoding

/-! ## Equations at units -/

section Units

variable {unknowns : List SlotId} {component : Component} {s : Assignment}

/-- The integers that an assignment gives to numbered unknowns in one component. -/
def pointOf (unknowns : List SlotId) (component : Component) (s : Assignment) (i : ℕ) : ℤ :=
  match unknowns[i]? with
  | some id => component.valueIn ((s.get? id).getD .top)
  | none => 0

theorem pointOf_of_idxOf? {id : SlotId} {i : ℕ} (h : unknowns.idxOf? id = some i) :
    pointOf unknowns component s i = component.valueIn ((s.get? id).getD .top) := by
  obtain ⟨hlt, heq, -⟩ := List.idxOf?_eq_some_iff.1 h
  rw [pointOf, List.getElem?_eq_getElem hlt, heq]

theorem valueIn_polyAsTop (q : Qualifier) :
    component.valueIn q.polyAsTop = component.valueIn q := by
  cases q <;> rfl

/-- The integer of an operand in an equation is that of its unit. -/
theorem operandValue_pointOf
    {o : Operand} (h : ∀ location, o.slot = .unknown location → o.id ∈ unknowns) :
    Relation.operandValue unknowns component (pointOf unknowns component s) o =
      component.valueIn (o.plainUnitIn s) := by
  unfold Relation.operandValue
  cases hslot : o.slot with
  | constant q => rw [Operand.plainUnitIn_of_constant hslot, valueIn_polyAsTop]
  | unknown location =>
    rw [Operand.plainUnitIn_of_unknown hslot]
    cases hindex : unknowns.idxOf? o.id with
    | none => exact absurd (h location hslot) (List.idxOf?_eq_none_iff.1 hindex)
    | some i => exact pointOf_of_idxOf? hindex

theorem unknownsOf_nodup (relations : List Relation) : (unknownsOf relations).Nodup :=
  sortedDistinct_nodup _

theorem mem_unknownsOf
    {relations : List Relation} {r : Relation} (hr : r ∈ relations) {t : Operand × ℤ}
    (ht : t ∈ r.terms) {location : String} (hslot : t.1.slot = .unknown location) :
    t.1.id ∈ unknownsOf relations := by
  refine mem_sortedDistinct.2 (List.mem_flatMap.2 ⟨r, hr, ?_⟩)
  exact List.mem_filterMap.2 ⟨t, ht, by rw [hslot]⟩

theorem exists_of_mem_unknownsOf {relations : List Relation} {id : SlotId}
    (h : id ∈ unknownsOf relations) :
    ∃ r ∈ relations, ∃ t ∈ r.terms, t.1.id = id ∧ ∃ location, t.1.slot = .unknown location := by
  obtain ⟨r, hr, hid⟩ := List.mem_flatMap.1 (mem_sortedDistinct.1 h)
  obtain ⟨t, ht, hslot⟩ := List.mem_filterMap.1 hid
  refine ⟨r, hr, t, ht, ?_⟩
  split at hslot
  · cases hslot
  · rename_i location heq
    exact ⟨Option.some.inj hslot, location, heq⟩

/-- The equation of a relation holds at the integers of an assignment exactly if the
combination of the units does. -/
theorem equation_holds_pointOf_iff
    {relations : List Relation} {r : Relation} (hr : r ∈ relations) :
    (r.equation (unknownsOf relations) component).Holds
        (pointOf (unknownsOf relations) component s) ↔
      r.total component (Operand.plainUnitIn s) = 0 := by
  rw [Relation.equation_holds_iff, Relation.total]
  have hterms : ∀ t ∈ r.terms,
      t.2 * Relation.operandValue (unknownsOf relations) component
          (pointOf (unknownsOf relations) component s) t.1 =
        t.2 * component.valueIn (t.1.plainUnitIn s) := by
    intro t ht
    rw [operandValue_pointOf fun location hslot => mem_unknownsOf hr ht hslot]
  rw [List.map_congr_left hterms]

end Units

/-- Units that fit the categories of all unknowns agree with the categories. -/
theorem respects_operandAt
    {m : Model} {s : Assignment}
    (h : ∀ id ∈ m.unknownIds, Fits ((categoriesOf m).get? id) ((s.get? id).getD .top))
    (id : SlotId) : Respects (categoriesOf m) (Operand.plainUnitIn s) (m.operandAt id) where
  fits := by
    cases hslot : (m.operandAt id).slot with
    | constant q =>
      rw [Operand.plainUnitIn_of_constant hslot, Categories.of, hslot]
      cases q with
      | top | bottom | poly => rfl
      | concrete unit => exact ⟨unit, rfl⟩
    | unknown location =>
      rw [Operand.plainUnitIn_of_unknown hslot, Categories.of, hslot]
      exact h id (Model.mem_unknownIds_iff.2
        ⟨location, Model.operandAt_slot_eq_unknown_iff.1 hslot⟩)
  constant q hq := Operand.plainUnitIn_of_constant hq

/-- For units that agree with the categories, the constraints of a model hold exactly if its
relations do. -/
theorem Related.holds_iff
    {m : Model} {relations : List Relation} (h : Related m relations) {s : Assignment}
    (hfits : ∀ id ∈ m.unknownIds, Fits ((categoriesOf m).get? id) ((s.get? id).getD .top)) :
    (∀ c ∈ m.operandConstraints, (c.map (Operand.plainUnitIn s)).Holds) ↔
      ∀ r ∈ relations, r.Holds (Operand.plainUnitIn s) := by
  have hrespects : ∀ c ∈ m.operandConstraints, ∀ o ∈ c.slots,
      Respects (categoriesOf m) (Operand.plainUnitIn s) o := by
    intro c hc o ho
    obtain ⟨id, -, rfl⟩ := Model.exists_operandAt_of_mem_slots h.closed hc ho
    exact respects_operandAt hfits id
  have hiff : ∀ c ∈ m.operandConstraints, ∀ found, (categoriesOf m).relations c = .ok found →
      ((c.map (Operand.plainUnitIn s)).Holds ↔ ∀ r ∈ found, r.Holds (Operand.plainUnitIn s)) :=
    fun c hc _ hfound => Categories.relations_eq_ok (hrespects c hc) (h.divisions c hc)
      (h.disequalities c hc) hfound
  constructor
  · intro hholds r hr
    obtain ⟨c, hc, found, hfound, hmem⟩ := h.mem_relations r hr
    exact (hiff c hc found hfound).1 (hholds c hc) r hmem
  · intro hholds c hc
    obtain ⟨found, hfound, hsub⟩ := h.exists_relations c hc
    exact (hiff c hc found hfound).2 fun r hr => hholds r (hsub r hr)

/-! ## Gathering -/

section Gather

variable {outcomes : List (Component × Except SolveError SystemValues)}

/-- Gathering succeeds exactly with the values of all systems that have some, and with the
reasons of all systems that are unsatisfiable. -/
theorem gather_eq_ok
    {reasons : List Reason} {values : List (Component × SystemValues)}
    (h : gather outcomes = .ok (reasons, values))
    (hreasons : ∀ c found, (c, .error (.unsatisfiable found)) ∈ outcomes → found ≠ []) :
    (reasons = [] → outcomes = values.map fun v => (v.1, .ok v.2)) ∧
      (reasons ≠ [] → ∃ c found, (c, .error (.unsatisfiable found)) ∈ outcomes) := by
  induction outcomes generalizing reasons values with
  | nil =>
    cases h
    exact ⟨fun _ => rfl, fun hne => absurd rfl hne⟩
  | cons o rest ih =>
    obtain ⟨c, outcome⟩ := o
    have hrest : ∀ c found, (c, .error (.unsatisfiable found)) ∈ rest → found ≠ [] :=
      fun c found hmem => hreasons c found (List.mem_cons_of_mem _ hmem)
    cases outcome with
    | ok found =>
      obtain ⟨⟨reasons', values'⟩, hgather, heq⟩ := map_eq_ok_iff.1 h
      cases heq
      obtain ⟨hnil, hcons⟩ := ih hgather hrest
      refine ⟨fun hempty => ?_, fun hne => ?_⟩
      · rw [hnil hempty]
        rfl
      · obtain ⟨c', found', hmem⟩ := hcons hne
        exact ⟨c', found', List.mem_cons_of_mem _ hmem⟩
    | error failure =>
      cases failure with
      | unsatisfiable found =>
        obtain ⟨⟨reasons', values'⟩, hgather, heq⟩ := map_eq_ok_iff.1 h
        cases heq
        refine ⟨fun hempty => ?_, fun _ => ⟨c, found, List.mem_cons_self⟩⟩
        exact absurd (List.append_eq_nil_iff.1 hempty).1
          (hreasons c found List.mem_cons_self)
      | _ => cases h

theorem gather_ne_unsatisfiable {reasons : List Reason} :
    gather outcomes ≠ .error (.unsatisfiable reasons) := by
  induction outcomes with
  | nil => simp [gather]
  | cons o rest ih =>
    obtain ⟨c, outcome⟩ := o
    cases outcome with
    | ok found =>
      intro h
      exact ih (map_eq_error_iff.1 h)
    | error failure =>
      cases failure with
      | unsatisfiable found =>
        intro h
        exact ih (map_eq_error_iff.1 h)
      | _ => simp [gather]

end Gather

/-! ## Solving -/

/-- The decoded answer of an eliminator to one system. -/
def decodedBy (eliminator : Eliminator) (unknowns : List SlotId) (s : ComponentSystem) :
    Except SolveError SystemValues :=
  eliminator.eliminate s.text >>= decodeSystem s unknowns

/-- The systems of an encoding with their decoded answers. -/
def Encoding.decoded (e : Encoding) (eliminator : Eliminator) :
    List (Component × Except SolveError SystemValues) :=
  e.systems.map fun s => (s.component, decodedBy eliminator e.unknowns s)

section Solve

variable {e : Encoding} {eliminator : Eliminator} {m : Model}

theorem zip_answers (e : Encoding) (eliminator : Eliminator) :
    (e.systems.zip (e.systems.map fun s => eliminator.eliminate s.text)).map
      (fun a => (a.1.component, a.2 >>= decodeSystem a.1 e.unknowns)) = e.decoded eliminator := by
  rw [List.zip_eq_zipWith, List.map_zipWith, List.zipWith_map_right, List.zipWith_self]
  rfl

theorem Encoding.solve_eq_ok {solved : Solved} (h : e.solve eliminator m = .ok solved) :
    ∃ values, gather (e.decoded eliminator) = .ok ([], values) ∧
      solved = ⟨e.assemble m values, e.statistics⟩ := by
  rw [Encoding.solve, Encoding.finish] at h
  obtain ⟨⟨reasons, values⟩, hgather, h⟩ := bind_eq_ok_iff.1 h
  rw [zip_answers] at hgather
  cases reasons with
  | nil =>
    cases h
    exact ⟨values, hgather, rfl⟩
  | cons reason rest => cases h

theorem Encoding.solve_eq_unsatisfiable {reasons : List Reason}
    (h : e.solve eliminator m = .error (.unsatisfiable reasons)) :
    ∃ found values, found ≠ [] ∧ gather (e.decoded eliminator) = .ok (found, values) := by
  rw [Encoding.solve, Encoding.finish] at h
  rcases bind_eq_error_iff.1 h with h | ⟨⟨found, values⟩, hgather, h⟩
  · exact absurd h gather_ne_unsatisfiable
  · rw [zip_answers] at hgather
    cases found with
    | nil => cases h
    | cons reason rest => exact ⟨reason :: rest, values, List.cons_ne_nil _ _, hgather⟩

/-- A system answered by the built-in eliminator is unsatisfiable only for a reason. -/
theorem reasons_ne_nil_of_mem_decoded {c : Component} {reasons : List Reason}
    (h : (c, .error (.unsatisfiable reasons)) ∈ e.decoded .builtin) : reasons ≠ [] := by
  obtain ⟨s, -, heq⟩ := List.mem_map.1 h
  obtain ⟨-, hdecoded⟩ := Prod.mk.inj heq
  rcases bind_eq_error_iff.1 hdecoded with h | ⟨text, -, h⟩
  · exact absurd h eliminate_builtin_ne_unsatisfiable
  · exact decodeSystem_reasons_ne_nil h

end Solve

end Linear
end Metrology
