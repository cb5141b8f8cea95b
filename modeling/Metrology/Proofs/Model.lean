import Metrology.Model.Check
import Metrology.Proofs.Outcome
import Metrology.Proofs.SortedMap

/-!
# Models, their linked constraints and their checks

The constraints of a model without foreign slots are linked by looking every
slot number up.  A check is clean exactly if every slot of a constraint has a
unit and the units satisfy the constraint.
-/

namespace Metrology

namespace Constraint

variable {ε α β γ : Type}

theorem slots_map (f : α → β) (c : Constraint α) : (c.map f).slots = c.slots.map f := by
  cases c <;> rfl

theorem map_map (f : α → β) (g : β → γ) (c : Constraint α) : (c.map f).map g = c.map (g ∘ f) := by
  cases c <;> rfl

theorem map_congr {f g : α → β} {c : Constraint α} (h : ∀ a ∈ c.slots, f a = g a) :
    c.map f = c.map g := by
  cases c <;> simp_all [map, slots]

theorem and_of_forall_mem_pair {P : α → Prop} {a b : α} (h : ∀ o ∈ [a, b], P o) : P a ∧ P b := by
  simpa using h

theorem and_of_forall_mem_triple {P : α → Prop} {a b r : α} (h : ∀ o ∈ [a, b, r], P o) :
    P a ∧ P b ∧ P r := by
  simpa using h

theorem mapExcept_eq_ok_map
    {f : α → Except ε β} {g : α → β} {c : Constraint α} (h : ∀ a ∈ c.slots, f a = .ok (g a)) :
    c.mapExcept f = .ok (c.map g) := by
  cases c <;> simp_all [mapExcept, map, slots, bind, Except.bind, pure, Except.pure]

theorem exists_of_mapExcept_eq_ok
    {f : α → Except ε β} {c : Constraint α} {c' : Constraint β} (h : c.mapExcept f = .ok c') :
    ∀ a ∈ c.slots, ∃ b, f a = .ok b := by
  cases c with
  | subtype a b | equal a b =>
    obtain ⟨a', ha, h⟩ := bind_eq_ok_iff.1 h
    obtain ⟨b', hb, -⟩ := bind_eq_ok_iff.1 h
    simp [slots, ha, hb]
  | join a b r | product a b r | quotient a b r =>
    obtain ⟨a', ha, h⟩ := bind_eq_ok_iff.1 h
    obtain ⟨b', hb, h⟩ := bind_eq_ok_iff.1 h
    obtain ⟨r', hr, -⟩ := bind_eq_ok_iff.1 h
    simp [slots, ha, hb, hr]

end Constraint

theorem idxOf?_getElem {α : Type} [DecidableEq α] {l : List α} (h : l.Nodup) {i : Nat}
    (hi : i < l.length) : l.idxOf? l[i] = some i := by
  rw [List.idxOf?_eq_some_iff]
  refine ⟨hi, rfl, fun j hj heq => ?_⟩
  exact List.pairwise_iff_getElem.1 h j i (Nat.lt_trans hj hi) hi hj heq

/-! ## Linking -/

namespace Model

/-- The operand of a slot number, looked up without a failure. -/
def operandAt (m : Model) (id : SlotId) : Operand :=
  ⟨id, m.slots[id]?.getD (.constant .top)⟩

/-- The constraints with the operands of their slot numbers. -/
def operandConstraints (m : Model) : List (Constraint Operand) :=
  m.constraints.toList.map (Constraint.map m.operandAt)

/-- Every slot that a constraint names is a slot of the model. -/
def Closed (m : Model) : Prop :=
  ∀ c ∈ m.constraints.toList, ∀ id ∈ c.slots, id < m.slots.size

/-- The operands of constraints are slots of a closed model. -/
theorem exists_operandAt_of_mem_slots
    {m : Model} (h : m.Closed) {c : Constraint Operand} (hc : c ∈ m.operandConstraints)
    {o : Operand} (ho : o ∈ c.slots) : ∃ id < m.slots.size, o = m.operandAt id := by
  obtain ⟨c', hc', rfl⟩ := List.mem_map.1 hc
  rw [Constraint.slots_map] at ho
  obtain ⟨id, hid, rfl⟩ := List.mem_map.1 ho
  exact ⟨id, h c' hc' id hid, rfl⟩

theorem operand_eq_ok {m : Model} {id : SlotId} (h : id < m.slots.size) :
    m.operand id = .ok (m.operandAt id) := by
  simp [operand, slot, operandAt, Except.map, h]

theorem lt_size_of_operand_eq_ok
    {m : Model} {id : SlotId} {o : Operand} (h : m.operand id = .ok o) : id < m.slots.size := by
  by_cases hlt : id < m.slots.size
  · exact hlt
  · simp [operand, slot, Except.map, hlt] at h

theorem linked_eq_ok {m : Model} (h : m.Closed) :
    m.linked = .ok m.operandConstraints := by
  apply mapM_eq_ok_map
  intro c hc
  exact Constraint.mapExcept_eq_ok_map fun id hid => operand_eq_ok (h c hc id hid)

/-- A model is linked exactly if no constraint names a foreign slot. -/
theorem linked_eq_ok_iff {m : Model} {constraints : List (Constraint Operand)} :
    m.linked = .ok constraints ↔
      m.Closed ∧ constraints = m.operandConstraints := by
  constructor
  · intro h
    have hclosed : m.Closed := by
      intro c hc id hid
      obtain ⟨c', hc'⟩ := exists_mapM_eq_ok_iff.1 ⟨constraints, h⟩ c hc
      obtain ⟨o, ho⟩ := Constraint.exists_of_mapExcept_eq_ok hc' id hid
      exact lt_size_of_operand_eq_ok ho
    rw [linked_eq_ok hclosed] at h
    exact ⟨hclosed, (Except.ok.inj h).symm⟩
  · rintro ⟨hclosed, rfl⟩
    exact linked_eq_ok hclosed

/-! ## Unknowns -/

theorem mem_numbered_iff {m : Model} {id : SlotId} {s : Slot} :
    (id, s) ∈ m.numbered ↔ m.slots[id]? = some s := by
  simp only [numbered, List.mem_map, Prod.exists, Prod.mk.injEq, List.mem_zipIdx_iff_getElem?,
    Array.getElem?_toList]
  constructor
  · rintro ⟨s', id', h, rfl, rfl⟩
    exact h
  · intro h
    exact ⟨s, id, h, rfl, rfl⟩

theorem mem_unknowns_iff {m : Model} {id : SlotId} {location : String} :
    (id, location) ∈ m.unknowns ↔ m.slots[id]? = some (.unknown location) := by
  simp only [unknowns, List.mem_filterMap, Option.map_eq_some_iff, Prod.mk.injEq]
  constructor
  · rintro ⟨⟨id', s⟩, hmem, location', hlocation, rfl, rfl⟩
    cases s with
    | constant unit => simp [Slot.location?] at hlocation
    | unknown location =>
      cases hlocation
      exact mem_numbered_iff.1 hmem
  · intro h
    exact ⟨(id, .unknown location), mem_numbered_iff.2 h, location, rfl, rfl, rfl⟩

theorem mem_constants_iff {m : Model} {id : SlotId} {unit : Qualifier} :
    (id, unit) ∈ m.constants ↔ m.slots[id]? = some (.constant unit) := by
  simp only [constants, List.mem_filterMap, Option.map_eq_some_iff, Prod.mk.injEq]
  constructor
  · rintro ⟨⟨id', s⟩, hmem, unit', hunit, rfl, rfl⟩
    cases s with
    | constant unit =>
      cases hunit
      exact mem_numbered_iff.1 hmem
    | unknown location => simp [Slot.constant?] at hunit
  · intro h
    exact ⟨(id, .constant unit), mem_numbered_iff.2 h, unit, rfl, rfl, rfl⟩

/-- The numbers of the unknown slots. -/
def unknownIds (m : Model) : List SlotId := m.unknowns.map Prod.fst

theorem mem_unknownIds_iff {m : Model} {id : SlotId} :
    id ∈ m.unknownIds ↔ ∃ location, m.slots[id]? = some (.unknown location) := by
  simp [unknownIds, mem_unknowns_iff]

theorem numbered_sorted (m : Model) : m.numbered.Pairwise fun a b => a.1 < b.1 := by
  rw [numbered, List.pairwise_map]
  have hsorted : ((m.slots.toList.zipIdx).map Prod.snd).Pairwise (· < ·) := by
    rw [List.zipIdx_map_snd, List.range'_eq_map_range]
    simpa using List.pairwise_lt_range
  exact List.pairwise_map.1 hsorted

theorem unknownIds_sorted (m : Model) : m.unknownIds.Pairwise (· < ·) := by
  rw [unknownIds, List.pairwise_map, unknowns, List.pairwise_filterMap]
  refine m.numbered_sorted.imp ?_
  rintro ⟨a, s⟩ ⟨b, t⟩ hlt e he e' he'
  simp only [Option.map_eq_some_iff] at he he'
  obtain ⟨l, -, rfl⟩ := he
  obtain ⟨l', -, rfl⟩ := he'
  exact hlt

theorem length_unknowns_le (m : Model) : m.unknowns.length ≤ m.slots.size := by
  have hle : m.unknowns.length ≤ m.numbered.length := List.length_filterMap_le _ _
  rwa [numbered, List.length_map, List.length_zipIdx, Array.length_toList] at hle

/-- The map that tabulates a function on the unknown slots. -/
theorem get?_ofList_unknowns {ν : Type} (m : Model) (f : SlotId → ν) (id : SlotId) :
    (SortedMap.ofList (m.unknowns.map fun v => (v.1, f v.1))).get? id =
      if id ∈ m.unknownIds then some (f id) else none := by
  have hlist : m.unknowns.map (fun v => (v.1, f v.1)) = m.unknownIds.map fun id => (id, f id) := by
    rw [unknownIds, List.map_map]
    rfl
  rw [hlist, SortedMap.get?_ofList_map]

theorem keys_ofList_unknowns {ν : Type} (m : Model) (f : SlotId → ν) :
    (SortedMap.ofList (m.unknowns.map fun v => (v.1, f v.1))).keys = m.unknownIds := by
  refine SortedMap.eq_of_sorted_of_mem_iff (r := (· < ·)) (fun _ _ => Nat.lt_asymm)
    (SortedMap.keys_sorted _) m.unknownIds_sorted fun id => ?_
  rw [SortedMap.mem_keys_iff, get?_ofList_unknowns]
  split <;> simp [*]

/-- What a slot number of an unknown is linked to. -/
theorem operandAt_slot_eq_unknown_iff {m : Model} {id : SlotId} {location : String} :
    (m.operandAt id).slot = .unknown location ↔ m.slots[id]? = some (.unknown location) := by
  rw [operandAt]
  cases m.slots[id]? <;> simp

/-- The unknowns of linked constraints are those of the model. -/
theorem mem_unknownIds_of_linked
    {m : Model} {constraints : List (Constraint Operand)} (h : m.linked = .ok constraints)
    {c : Constraint Operand} (hc : c ∈ constraints) {o : Operand} (ho : o ∈ c.slots)
    {location : String} (hslot : o.slot = .unknown location) : o.id ∈ m.unknownIds := by
  obtain ⟨hclosed, rfl⟩ := linked_eq_ok_iff.1 h
  obtain ⟨id, -, rfl⟩ := exists_operandAt_of_mem_slots hclosed hc ho
  exact mem_unknownIds_iff.2 ⟨location, operandAt_slot_eq_unknown_iff.1 hslot⟩

theorem getElem?_of_operandAt_slot_eq_constant {m : Model} {id : SlotId}
    (hid : id < m.slots.size) {q : Qualifier} (h : (m.operandAt id).slot = .constant q) :
    m.slots[id]? = some (.constant q) := by
  rw [operandAt, Array.getElem?_eq_getElem hid] at h
  rw [Array.getElem?_eq_getElem hid]
  exact congrArg some h

end Model

/-! ## Polymorphic constants -/

/-- A qualifier with the polymorphic one read as the top. -/
def Qualifier.polyAsTop : Qualifier → Qualifier
  | poly => top
  | unit => unit

theorem Qualifier.polyAsTop_of_ne {q : Qualifier} (h : q ≠ .poly) : q.polyAsTop = q := by
  cases q with
  | poly => exact absurd rfl h
  | top | bottom | concrete u => rfl

/-- A slot with a polymorphic constant read as the top. -/
def Slot.polyAsTop : Slot → Slot
  | constant unit => constant unit.polyAsTop
  | unknown location => unknown location

/-- An operand with a polymorphic constant read as the top. -/
def Operand.polyAsTop (o : Operand) : Operand := ⟨o.id, o.slot.polyAsTop⟩

namespace Model

/-- The model with its polymorphic constants read as the top. -/
def polyAsTop (m : Model) : Model := { m with slots := m.slots.map Slot.polyAsTop }

theorem operandAt_polyAsTop (m : Model) (id : SlotId) :
    m.polyAsTop.operandAt id = (m.operandAt id).polyAsTop := by
  simp only [operandAt, polyAsTop, Operand.polyAsTop, Array.getElem?_map]
  cases m.slots[id]? <;> rfl

theorem closed_polyAsTop {m : Model} : m.polyAsTop.Closed ↔ m.Closed := by
  simp [Closed, polyAsTop]

/-- A model without polymorphic constants is read as it is. -/
theorem polyAsTop_eq_self
    {m : Model} (h : ∀ s ∈ m.slots.toList, s ≠ .constant .poly) : m.polyAsTop = m := by
  have hslots : m.slots.map Slot.polyAsTop = m.slots := by
    apply Array.ext'
    rw [Array.toList_map]
    refine (List.map_congr_left fun s hs => ?_).trans (List.map_id _)
    have hpoly := h s hs
    cases s with
    | unknown location => rfl
    | constant unit =>
      rw [id, Slot.polyAsTop, Qualifier.polyAsTop_of_ne fun heq => hpoly (congrArg _ heq)]
  simp [polyAsTop, hslots]

end Model

/-! ## Checking -/

/-- The unit of an operand, the top where it has none. -/
def Operand.unitIn (s : Assignment) (o : Operand) : Qualifier := (o.unit? s).getD .top

namespace Constraint

theorem mismatch?_eq_none_iff {c : Constraint Qualifier} : c.mismatch? = none ↔ c.Holds := by
  cases c with
  | subtype a b | equal a b | join a b r | product a b r =>
    simp only [mismatch?, Holds]
    split <;> simp_all
  | quotient a b r =>
    simp only [mismatch?, Holds]
    cases a.div b with
    | error e => simp
    | ok want =>
      simp only [Except.ok.injEq]
      split <;> simp_all

theorem evaluate_eq_ok_iff
    {s : Assignment} {c : Constraint Operand} {units : Constraint Qualifier} :
    c.evaluate s = .ok units ↔
      (∀ o ∈ c.slots, (o.unit? s).isSome) ∧ units = c.map (Operand.unitIn s) := by
  have heval : (∀ o ∈ c.slots, (o.unit? s).isSome) →
      c.evaluate s = .ok (c.map (Operand.unitIn s)) := by
    intro h
    apply mapExcept_eq_ok_map
    intro o ho
    obtain ⟨unit, hunit⟩ := Option.isSome_iff_exists.1 (h o ho)
    simp [hunit, Operand.unitIn]
  constructor
  · intro h
    have hsome : ∀ o ∈ c.slots, (o.unit? s).isSome := by
      intro o ho
      obtain ⟨unit, hunit⟩ := exists_of_mapExcept_eq_ok h o ho
      cases hu : o.unit? s with
      | none => simp [hu] at hunit
      | some unit => rfl
    rw [heval hsome] at h
    exact ⟨hsome, (Except.ok.inj h).symm⟩
  · rintro ⟨hsome, rfl⟩
    exact heval hsome

/-- An assignment does not violate a constraint exactly if it gives every operand a unit and
the units satisfy the constraint. -/
theorem fault?_eq_none_iff {s : Assignment} {c : Constraint Operand} :
    c.fault? s = none ↔
      (∀ o ∈ c.slots, (o.unit? s).isSome) ∧ (c.map (Operand.unitIn s)).Holds := by
  rw [fault?]
  cases heval : c.evaluate s with
  | ok units =>
    obtain ⟨hsome, rfl⟩ := evaluate_eq_ok_iff.1 heval
    simp only [mismatch?_eq_none_iff]
    exact ⟨fun h => ⟨hsome, h⟩, fun h => h.2⟩
  | error fault =>
    simp only [reduceCtorEq, false_iff]
    rintro ⟨hsome, -⟩
    rw [evaluate_eq_ok_iff.2 ⟨hsome, rfl⟩] at heval
    cases heval

end Constraint

/-- A check is clean exactly if no constraint is violated. -/
theorem Model.check_eq_nil_iff {m : Model} {s : Assignment} :
    m.check s = .ok [] ↔
      m.Closed ∧ ∀ c ∈ m.operandConstraints, c.fault? s = none := by
  rw [Model.check, bind_eq_ok_iff]
  constructor
  · rintro ⟨constraints, hlinked, hnil⟩
    obtain ⟨hclosed, rfl⟩ := Model.linked_eq_ok_iff.1 hlinked
    refine ⟨hclosed, fun c hc => ?_⟩
    have hfilter := Except.ok.inj hnil
    rw [List.filterMap_eq_nil_iff] at hfilter
    simpa using hfilter c hc
  · rintro ⟨hclosed, hfault⟩
    refine ⟨_, Model.linked_eq_ok hclosed, congrArg Except.ok ?_⟩
    rw [List.filterMap_eq_nil_iff]
    intro c hc
    simp [hfault c hc]

/-- The unit of an operand under an assignment, with the polymorphic one read as the top. -/
def Operand.plainUnitIn (s : Assignment) (o : Operand) : Qualifier := o.polyAsTop.unitIn s

theorem Operand.plainUnitIn_of_constant {s : Assignment} {o : Operand} {q : Qualifier}
    (h : o.slot = .constant q) : o.plainUnitIn s = q.polyAsTop := by
  simp [plainUnitIn, unitIn, unit?, polyAsTop, Slot.polyAsTop, h]

theorem Operand.plainUnitIn_of_unknown {s : Assignment} {o : Operand} {location : String}
    (h : o.slot = .unknown location) : o.plainUnitIn s = (s.get? o.id).getD .top := by
  simp [plainUnitIn, unitIn, unit?, polyAsTop, Slot.polyAsTop, h]

theorem Model.operandConstraints_polyAsTop (m : Model) :
    m.polyAsTop.operandConstraints = m.operandConstraints.map (Constraint.map .polyAsTop) := by
  have hoperand : m.polyAsTop.operandAt = Operand.polyAsTop ∘ m.operandAt :=
    funext m.operandAt_polyAsTop
  rw [operandConstraints, operandConstraints, List.map_map, hoperand]
  exact List.map_congr_left fun c _ => (c.map_map _ _).symm

/-- An assignment does not violate a constraint with polymorphic constants read as the top
exactly if it gives every operand a unit and the units satisfy the constraint. -/
theorem Constraint.fault?_polyAsTop_eq_none_iff {s : Assignment} {c : Constraint Operand} :
    (c.map Operand.polyAsTop).fault? s = none ↔
      (∀ o ∈ c.slots, (o.polyAsTop.unit? s).isSome) ∧ (c.map (Operand.plainUnitIn s)).Holds := by
  rw [Constraint.fault?_eq_none_iff, Constraint.slots_map, List.forall_mem_map, Constraint.map_map]
  rfl

/-- Every operand of a model has a unit if all unknowns have one. -/
theorem Model.isSome_unit?_polyAsTop {m : Model} {s : Assignment}
    (h : ∀ id ∈ m.unknownIds, (s.get? id).isSome) (id : SlotId) :
    ((m.operandAt id).polyAsTop.unit? s).isSome := by
  cases hslot : (m.operandAt id).slot with
  | constant q => simp [Operand.unit?, Operand.polyAsTop, hslot, Slot.polyAsTop]
  | unknown location =>
    have hget := h id (mem_unknownIds_iff.2 ⟨location, operandAt_slot_eq_unknown_iff.1 hslot⟩)
    have hid : (m.operandAt id).id = id := rfl
    simp [Operand.unit?, Operand.polyAsTop, hslot, Slot.polyAsTop, hid, hget]

/-- A check that reads polymorphic constants as the top is clean exactly if every unknown of a
constraint has a unit and the units satisfy all constraints. -/
theorem Model.check_polyAsTop_eq_nil_iff {m : Model} {s : Assignment} :
    m.polyAsTop.check s = .ok [] ↔
      m.Closed ∧ ∀ c ∈ m.operandConstraints,
        (∀ o ∈ c.slots, (o.polyAsTop.unit? s).isSome) ∧ (c.map (Operand.plainUnitIn s)).Holds := by
  rw [Model.check_eq_nil_iff, Model.closed_polyAsTop, operandConstraints_polyAsTop,
    List.forall_mem_map]
  exact and_congr_right fun _ => forall₂_congr fun c _ => Constraint.fault?_polyAsTop_eq_none_iff

/-- A check of a closed model lists the violated constraints. -/
theorem Model.exists_check_polyAsTop {m : Model} (h : m.Closed) (s : Assignment) :
    ∃ violations, m.polyAsTop.check s = .ok violations ∧
      ∀ c ∈ m.operandConstraints, (∀ fault, ⟨c.map Operand.id, fault⟩ ∉ violations) ↔
        (c.map Operand.polyAsTop).fault? s = none := by
  refine ⟨_, congrArg (· >>= _) (Model.linked_eq_ok (closed_polyAsTop.2 h)), fun c hc => ?_⟩
  have hid : ∀ c' ∈ m.operandConstraints,
      (c'.map Operand.polyAsTop).map Operand.id = c.map Operand.id → c' = c := by
    intro c' hc' heq
    obtain ⟨d, -, rfl⟩ := List.mem_map.1 hc
    obtain ⟨d', -, rfl⟩ := List.mem_map.1 hc'
    have hself : ∀ e : Constraint SlotId, (e.map m.operandAt).map Operand.id = e := by
      intro e
      cases e <;> rfl
    have hpoly : ∀ e : Constraint SlotId,
        ((e.map m.operandAt).map Operand.polyAsTop).map Operand.id = e := by
      intro e
      cases e <;> rfl
    rw [hself, hpoly] at heq
    rw [heq]
  rw [operandConstraints_polyAsTop, Option.eq_none_iff_forall_ne_some]
  refine forall_congr' fun fault => not_congr ?_
  simp only [List.mem_filterMap, Option.map_eq_some_iff, Violation.mk.injEq]
  constructor
  · rintro ⟨_, hmem, fault', hfault, heq, rfl⟩
    obtain ⟨c', hc', rfl⟩ := List.mem_map.1 hmem
    rw [← hid c' hc' heq]
    exact hfault
  · intro hfault
    refine ⟨_, List.mem_map_of_mem hc, fault, hfault, ?_, rfl⟩
    cases c <;> rfl

end Metrology
