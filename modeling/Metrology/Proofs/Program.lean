import Metrology.Proofs.Build
import Metrology.Proofs.Qualifier

/-!
# Straight-line programs

Each instruction of a program creates one slot: a constant, a literal or a binary expression over
slots that were created before.  A program is evaluated forward with the operations on qualifiers.
The model that it builds is a straight line, in which every unknown is the result of one
constraint over slots before it.
-/

namespace Metrology

/-! ## Evaluation -/

/-- The unit of a literal; that of a number is not fixed. -/
def LiteralKind.unit? : LiteralKind → Option Qualifier
  | .null => some .bottom
  | .string | .char | .bool => some .dimensionless
  | .number => none

namespace BinaryOp

/-- The unit of a binary expression. -/
def evaluate (op : BinaryOp) (lhs rhs : Qualifier) : Except DivisionError Qualifier :=
  match op with
  | .add | .sub => .ok (lhs.join rhs)
  | .mul => .ok (lhs.mul rhs)
  | .div => lhs.div rhs
  | .rem => .ok lhs
  | .concat | .eq | .ne | .lt | .le | .gt | .ge | .and | .or => .ok .dimensionless

/-- Sums are not of two different concrete units, and the exponents of products and quotients do
not leave their range. -/
def Safe (op : BinaryOp) (lhs rhs : Qualifier) : Prop :=
  match op with
  | .add | .sub => ∀ u v, lhs = .concrete u → rhs = .concrete v → u = v
  | .mul => Qualifier.StaysInRange (-1) lhs rhs
  | .div => Qualifier.StaysInRange 1 lhs rhs
  | .rem | .concat | .eq | .ne | .lt | .le | .gt | .ge | .and | .or => True

end BinaryOp

/-- A step of a program, which creates one slot. -/
inductive Instruction where
  | constant (unit : Qualifier)
  | literal (kind : LiteralKind) (location : String)
  | binary (op : BinaryOp) (lhs rhs : SlotId) (location : String)
deriving DecidableEq

namespace Instruction

/-- Adds the slot of an instruction to a model. -/
def emit : Instruction → Model.Build SlotId
  | constant unit => Model.Build.constant unit
  | literal kind location => Model.Build.literal kind location
  | binary op lhs rhs location => Model.Build.binaryOperation op lhs rhs location

/-- The unit of an instruction, given those of the slots before it. -/
inductive Evaluates (values : List Qualifier) : Instruction → Qualifier → Prop
  | constant {unit : Qualifier} (plain : unit ≠ .poly) : Evaluates values (.constant unit) unit
  | literal {kind : LiteralKind} {location : String} {unit : Qualifier}
    (fixed : kind.unit? = some unit) : Evaluates values (.literal kind location) unit
  | binary {op : BinaryOp} {lhs rhs : SlotId} {location : String} {p q unit : Qualifier}
    (left : values[lhs]? = some p) (right : values[rhs]? = some q) (safe : op.Safe p q)
    (value : op.evaluate p q = .ok unit) : Evaluates values (.binary op lhs rhs location) unit

end Instruction

/-- The units of the slots of a program, evaluated forward. -/
inductive Run : List Instruction → List Qualifier → Prop
  | nil : Run [] []
  | snoc {program : List Instruction} {values : List Qualifier} {i : Instruction}
    {unit : Qualifier} (run : Run program values) (step : i.Evaluates values unit) :
    Run (program ++ [i]) (values ++ [unit])

theorem Run.length_eq {program : List Instruction} {values : List Qualifier}
    (h : Run program values) : values.length = program.length := by
  induction h with
  | nil => rfl
  | snoc _ _ ih => rw [List.length_append, List.length_append, ih]; rfl

/-! ## Definitions of slots -/

theorem Qualifier.div_eq_ok_iff {p q r : Qualifier} :
    p.div q = .ok r ↔ q ≠ .bottom ∧ p.quotient q = r := by
  rw [div]
  split <;> simp [*]

namespace Constraint

/-- A constraint that gives a slot its unit, by the units of slots before it. -/
inductive Defines (values : List Qualifier) (result : SlotId) :
    Constraint SlotId → Qualifier → Prop
  | join {a b : SlotId} {p q : Qualifier} (left : values[a]? = some p)
    (right : values[b]? = some q) (same : ∀ u v, p = .concrete u → q = .concrete v → u = v) :
    Defines values result (.join a b result) (p.join q)
  | product {a b : SlotId} {p q : Qualifier} (left : values[a]? = some p)
    (right : values[b]? = some q) (range : Qualifier.StaysInRange (-1) p q) :
    Defines values result (.product a b result) (p.mul q)
  | quotient {a b : SlotId} {p q : Qualifier} (left : values[a]? = some p)
    (right : values[b]? = some q) (inhabited : q ≠ .bottom)
    (range : Qualifier.StaysInRange 1 p q) :
    Defines values result (.quotient a b result) (p.quotient q)
  | equal {a : SlotId} {p : Qualifier} (left : values[a]? = some p) :
    Defines values result (.equal result a) p

namespace Defines

variable {values : List Qualifier} {result : SlotId} {c : Constraint SlotId} {unit : Qualifier}

/-- The slots of a definition are the defined one and slots with known units. -/
theorem cases_of_mem_slots (h : Defines values result c unit) {id : SlotId} (hid : id ∈ c.slots) :
    id = result ∨ id < values.length := by
  have hlt : ∀ {a p}, values[a]? = some p → a < values.length := fun h =>
    (List.getElem?_eq_some_iff.1 h).1
  cases h with
  | join left right | product left right | quotient left right =>
    rcases List.mem_cons.1 hid with rfl | hid
    · exact .inr (hlt left)
    · rcases List.mem_cons.1 hid with rfl | hid
      · exact .inr (hlt right)
      · exact .inl (List.mem_singleton.1 hid)
  | equal left =>
    rcases List.mem_cons.1 hid with rfl | hid
    · exact .inl rfl
    · exact .inr (List.mem_singleton.1 hid ▸ hlt left)

/-- A definition holds exactly if the defined slot has its unit. -/
theorem holds_iff (h : Defines values result c unit) {f : SlotId → Qualifier}
    (hf : ∀ a p, values[a]? = some p → f a = p) : (c.map f).Holds ↔ f result = unit := by
  cases h with
  | join left right | product left right =>
    rw [map, hf _ _ left, hf _ _ right]
    exact eq_comm
  | quotient left right inhabited =>
    rw [map, hf _ _ left, hf _ _ right, quotient_holds_iff inhabited]
    exact eq_comm
  | equal left =>
    rw [map, hf _ _ left]
    rfl

theorem inRange (h : Defines values result c unit) {f : SlotId → Qualifier}
    (hf : ∀ a p, values[a]? = some p → f a = p) : (c.map f).InRange := by
  cases h with
  | join | equal => trivial
  | product left right range =>
    rw [map, hf _ _ left, hf _ _ right]
    exact inRange_product_iff.2 range
  | quotient left right inhabited range =>
    rw [map, hf _ _ left, hf _ _ right]
    exact inRange_quotient_iff.2 range

/-- What is defined by plain units is plain. -/
theorem ne_poly (h : Defines values result c unit) (hvalues : Qualifier.poly ∉ values) :
    unit ≠ .poly := by
  have hne : ∀ {a : SlotId} {p : Qualifier}, values[a]? = some p → p ≠ .poly := fun h heq =>
    hvalues (heq ▸ List.mem_of_getElem? h)
  cases h with
  | @join a b p q left right =>
    have hp := hne left
    have hq := hne right
    cases p <;> cases q <;> simp_all [Qualifier.join]
  | @product a b p q left right =>
    cases p <;> cases q <;> simp [Qualifier.mul, Qualifier.ofMonomial?]
    split <;> simp
  | @quotient a b p q left right =>
    cases p <;> cases q <;> simp [Qualifier.quotient, Qualifier.ofMonomial?]
    split <;> simp
  | equal left => exact hne left

end Defines
end Constraint

/-! ## Straight-line models -/

namespace Model

/-- Every unknown of the model is defined by slots before it; the slots have the given units. -/
inductive StraightLine : Model → List Qualifier → Prop
  | empty : StraightLine Model.empty []
  | constant {m : Model} {values : List Qualifier} {unit : Qualifier}
    (line : StraightLine m values) (plain : unit ≠ .poly) :
    StraightLine { m with slots := m.slots.push (.constant unit) } (values ++ [unit])
  | unknown {m : Model} {values : List Qualifier} {unit : Qualifier} {c : Constraint SlotId}
    {location : String} (line : StraightLine m values)
    (definition : c.Defines values m.slots.size unit) :
    StraightLine ⟨m.slots.push (.unknown location), m.constraints.push c⟩ (values ++ [unit])

namespace StraightLine

variable {m : Model} {values : List Qualifier}

theorem size_slots (h : m.StraightLine values) : m.slots.size = values.length := by
  induction h with
  | empty => rfl
  | constant _ _ ih | unknown _ _ ih => simp [ih]

theorem size_constraints_le (h : m.StraightLine values) :
    m.constraints.size ≤ values.length := by
  induction h with
  | empty => exact Nat.le_refl 0
  | constant _ _ ih =>
    rw [List.length_append]
    exact Nat.le_add_right_of_le ih
  | unknown _ _ ih =>
    rw [Array.size_push, List.length_append]
    exact Nat.succ_le_succ ih

theorem poly_not_mem (h : m.StraightLine values) : Qualifier.poly ∉ values := by
  induction h with
  | empty => exact List.not_mem_nil
  | constant _ plain ih => simp [ih, plain.symm]
  | unknown _ definition ih => simp [ih, (definition.ne_poly ih).symm]

end StraightLine

/-- A constraint of the model defines an unknown by the slots before it. -/
structure DefinedBy (m : Model) (values : List Qualifier) (id : SlotId) (unit : Qualifier)
    (c : Constraint SlotId) : Prop where
  unknown : ∃ location, m.slots[id]? = some (.unknown location)
  value : values[id]? = some unit
  mem : c ∈ m.constraints.toList
  definition : c.Defines (values.take id) id unit

theorem getElem?_push_of_eq_some {slots : Array Slot} {id : SlotId} {s : Slot}
    (h : slots[id]? = some s) (t : Slot) : (slots.push t)[id]? = some s := by
  have hlt := (Array.getElem?_eq_some_iff.1 h).1
  rw [Array.getElem?_push, if_neg (Nat.ne_of_lt hlt), h]

section Push

variable {m : Model} {s : Slot} {constraints : Array (Constraint SlotId)}

/-- The operands of the slots so far stay when a slot is added. -/
theorem operandAt_push {id : SlotId} (hid : id < m.slots.size) :
    operandAt ⟨m.slots.push s, constraints⟩ id = m.operandAt id := by
  rw [operandAt, operandAt, Array.getElem?_push, if_neg (Nat.ne_of_lt hid)]

theorem slot_operandAt_push :
    (operandAt ⟨m.slots.push s, constraints⟩ m.slots.size).slot = s := by
  rw [operandAt, Array.getElem?_push_size]
  rfl

theorem map_operandAt_push (h : m.Closed) :
    m.constraints.toList.map (Constraint.map (operandAt ⟨m.slots.push s, constraints⟩)) =
      m.operandConstraints :=
  List.map_congr_left fun c hc => Constraint.map_congr fun id hid => operandAt_push (h c hc id hid)

end Push

theorem cases_of_getElem?_snoc {values : List Qualifier} {id : SlotId} {q unit : Qualifier}
    (h : (values ++ [q])[id]? = some unit) :
    values[id]? = some unit ∨ id = values.length ∧ q = unit := by
  rcases Nat.lt_or_ge id values.length with hlt | hge
  · rw [List.getElem?_append_left hlt] at h
    exact .inl h
  · rw [List.getElem?_append_right hge, List.getElem?_singleton] at h
    split at h
    case isTrue hzero => exact .inr ⟨Nat.le_antisymm (Nat.sub_eq_zero_iff_le.1 hzero) hge,
      Option.some.inj h⟩
    case isFalse => cases h

theorem getElem?_take_eq_some_iff {values : List Qualifier} {id a : SlotId} {p : Qualifier} :
    (values.take id)[a]? = some p ↔ a < id ∧ values[a]? = some p := by
  rw [List.getElem?_take, Option.ite_none_right_eq_some]

/-- Definitions stay when a slot is added. -/
theorem DefinedBy.push {m : Model} {values : List Qualifier} {id : SlotId} {unit : Qualifier}
    {c : Constraint SlotId} (h : m.DefinedBy values id unit c) (s : Slot) (q : Qualifier)
    {constraints : Array (Constraint SlotId)}
    (hconstraints : m.constraints.toList ⊆ constraints.toList) :
    DefinedBy ⟨m.slots.push s, constraints⟩ (values ++ [q]) id unit c := by
  have hlt : id < values.length := (List.getElem?_eq_some_iff.1 h.value).1
  obtain ⟨location, hslot⟩ := h.unknown
  refine ⟨⟨location, ?_⟩, ?_, hconstraints h.mem, ?_⟩
  · exact getElem?_push_of_eq_some hslot s
  · rw [List.getElem?_append_left hlt, h.value]
  · rw [List.take_append_of_le_length (Nat.le_of_lt hlt)]
    exact h.definition

namespace StraightLine

variable {m : Model} {values : List Qualifier}

/-- The unit of a slot is its constant or comes from a definition. -/
theorem slot_cases (h : m.StraightLine values) {id : SlotId} {unit : Qualifier}
    (hid : values[id]? = some unit) :
    m.slots[id]? = some (.constant unit) ∨ ∃ c, m.DefinedBy values id unit c := by
  induction h generalizing id unit with
  | empty => cases hid
  | @constant m values q line plain ih =>
    rcases cases_of_getElem?_snoc hid with hid | ⟨rfl, rfl⟩
    · rcases ih hid with hconstant | ⟨c, hc⟩
      · exact .inl (getElem?_push_of_eq_some hconstant _)
      · exact .inr ⟨c, hc.push _ _ (List.Subset.refl _)⟩
    · rw [← line.size_slots, Array.getElem?_push_size]
      exact .inl rfl
  | @unknown m values q c location line definition ih =>
    rcases cases_of_getElem?_snoc hid with hid | ⟨rfl, rfl⟩
    · rcases ih hid with hconstant | ⟨c, hc⟩
      · exact .inl (getElem?_push_of_eq_some hconstant _)
      · exact .inr ⟨c, hc.push _ _ (by simp)⟩
    · refine .inr ⟨c, ⟨location, ?_⟩, hid, by simp, ?_⟩
      · rw [← line.size_slots, Array.getElem?_push_size]
      · rw [List.take_left, ← line.size_slots]
        exact definition

/-- Every constraint is a definition. -/
theorem exists_definedBy (h : m.StraightLine values) {c : Constraint SlotId}
    (hc : c ∈ m.constraints.toList) : ∃ id unit, m.DefinedBy values id unit c := by
  induction h with
  | empty => cases hc
  | @constant m values q line plain ih =>
    obtain ⟨id, unit, h⟩ := ih hc
    exact ⟨id, unit, h.push _ _ (List.Subset.refl _)⟩
  | @unknown m values q c' location line definition ih =>
    rw [Array.toList_push, List.mem_append] at hc
    rcases hc with hc | hc
    · obtain ⟨id, unit, h⟩ := ih hc
      exact ⟨id, unit, h.push _ _ (by simp)⟩
    · obtain rfl := List.mem_singleton.1 hc
      refine ⟨m.slots.size, q, ⟨location, Array.getElem?_push_size⟩, ?_, by simp, ?_⟩
      · simp [line.size_slots]
      · rwa [line.size_slots, List.take_left, ← line.size_slots]

theorem closed (h : m.StraightLine values) : m.Closed := by
  intro c hc id hid
  obtain ⟨result, unit, hdefined⟩ := h.exists_definedBy hc
  have hresult : result < values.length := (List.getElem?_eq_some_iff.1 hdefined.value).1
  rw [h.size_slots]
  rcases hdefined.definition.cases_of_mem_slots hid with rfl | hlt
  · exact hresult
  · rw [List.length_take] at hlt
    exact Nat.lt_of_lt_of_le hlt (Nat.min_le_right _ _)

theorem plainUnitIn_of_constant (h : m.StraightLine values) {id : SlotId} {unit : Qualifier}
    (hid : values[id]? = some unit) (hslot : m.slots[id]? = some (.constant unit))
    {s : Assignment} : (m.operandAt id).plainUnitIn s = unit := by
  have hconstant : (m.operandAt id).slot = .constant unit := by
    rw [operandAt, hslot]
    rfl
  rw [Operand.plainUnitIn_of_constant hconstant]
  exact Qualifier.polyAsTop_of_ne fun heq => h.poly_not_mem (heq ▸ List.mem_of_getElem? hid)

/-- The constraints hold exactly if all slots have the units of the line. -/
theorem holds_iff (h : m.StraightLine values) {s : Assignment} :
    (∀ c ∈ m.operandConstraints, (c.map (Operand.plainUnitIn s)).Holds) ↔
      ∀ id unit, values[id]? = some unit → (m.operandAt id).plainUnitIn s = unit := by
  have hmap : ∀ c : Constraint SlotId, (c.map m.operandAt).map (Operand.plainUnitIn s) =
      c.map fun id => (m.operandAt id).plainUnitIn s := fun c => c.map_map _ _
  constructor
  · intro hholds id
    induction id using Nat.strongRecOn with
    | ind id ih =>
      intro unit hid
      rcases h.slot_cases hid with hconstant | ⟨c, hc⟩
      · exact h.plainUnitIn_of_constant hid hconstant
      · refine (hc.definition.holds_iff fun a p ha => ?_).1
          (hmap c ▸ hholds _ (List.mem_map_of_mem hc.mem))
        obtain ⟨hlt, ha⟩ := getElem?_take_eq_some_iff.1 ha
        exact ih a hlt p ha
  · intro hunits c hc
    obtain ⟨c', hc', rfl⟩ := List.mem_map.1 hc
    obtain ⟨id, unit, hdefined⟩ := h.exists_definedBy hc'
    rw [hmap]
    refine (hdefined.definition.holds_iff fun a p ha => ?_).2 (hunits id unit hdefined.value)
    exact hunits a p (getElem?_take_eq_some_iff.1 ha).2

end StraightLine

/-! ## Building -/

/-- Adds an unknown and its definition. -/
theorem StraightLine.build_defines {m : Model} {values : List Qualifier}
    (h : m.StraightLine values) {c : SlotId → Constraint SlotId} {unit : Qualifier}
    (hc : (c m.slots.size).Defines values m.slots.size unit) (location : String) :
    m.build (do
        let result ← Build.unknown location
        Build.constrain (c result)
        return result) =
      (.ok m.slots.size,
        ⟨m.slots.push (.unknown location), m.constraints.push (c m.slots.size)⟩) := by
  refine build_definition fun id hid => ?_
  rcases hc.cases_of_mem_slots hid with rfl | hlt
  · exact Nat.lt_succ_self _
  · exact Nat.lt_succ_of_lt (h.size_slots ▸ hlt)

/-- An instruction that has a unit adds a slot with this unit. -/
theorem StraightLine.build_emit {m : Model} {values : List Qualifier} (h : m.StraightLine values)
    {i : Instruction} {unit : Qualifier} (hi : i.Evaluates values unit) :
    ∃ m', m.build i.emit = (.ok m.slots.size, m') ∧ m'.StraightLine (values ++ [unit]) := by
  cases hi with
  | constant plain => exact ⟨_, rfl, .constant h plain⟩
  | @literal kind location _ fixed =>
    cases kind with
    | null | string | char | bool =>
      cases fixed
      exact ⟨_, rfl, .constant h (by decide)⟩
    | number => cases fixed
  | @binary op lhs rhs location p q _ left right safe value =>
    cases op with
    | add | sub =>
      cases value
      have hdefines : (Constraint.join lhs rhs m.slots.size).Defines values m.slots.size _ :=
        .join left right safe
      exact ⟨_, h.build_defines (c := .join lhs rhs) hdefines location, .unknown h hdefines⟩
    | mul =>
      cases value
      have hdefines : (Constraint.product lhs rhs m.slots.size).Defines values m.slots.size _ :=
        .product left right safe
      exact ⟨_, h.build_defines (c := .product lhs rhs) hdefines location, .unknown h hdefines⟩
    | div =>
      obtain ⟨inhabited, rfl⟩ := Qualifier.div_eq_ok_iff.1 value
      have hdefines : (Constraint.quotient lhs rhs m.slots.size).Defines values m.slots.size _ :=
        .quotient left right inhabited safe
      exact ⟨_, h.build_defines (c := .quotient lhs rhs) hdefines location, .unknown h hdefines⟩
    | rem =>
      cases value
      have hdefines : (Constraint.equal m.slots.size lhs).Defines values m.slots.size _ :=
        .equal left
      exact ⟨_, h.build_defines (c := (.equal · lhs)) hdefines location, .unknown h hdefines⟩
    | concat | eq | ne | lt | le | gt | ge | and | or =>
      cases value
      have hl := (List.getElem?_eq_some_iff.1 left).1
      have hr := (List.getElem?_eq_some_iff.1 right).1
      rw [← h.size_slots] at hl hr
      refine ⟨_, ?_, .constant h (by decide)⟩
      rw [Instruction.emit]
      exact build_dimensionless rfl (firstFrom_pair_eq_none_iff.2 ⟨hl, hr⟩)

end Model

/-- A program that can be evaluated builds a straight line of its slots. -/
theorem Run.exists_straightLine {program : List Instruction} {values : List Qualifier}
    (h : Run program values) :
    ∃ m, Model.empty.build (program.mapM Instruction.emit) =
      (.ok (List.range program.length), m) ∧ m.StraightLine values := by
  induction h with
  | nil => exact ⟨Model.empty, rfl, .empty⟩
  | @snoc program values i unit run step ih =>
    obtain ⟨m, hbuild, hline⟩ := ih
    obtain ⟨m', hemit, hline'⟩ := hline.build_emit step
    refine ⟨m', ?_, hline'⟩
    have hlength : m.slots.size = program.length := hline.size_slots.trans run.length_eq
    have hlast : m.build ([i].mapM Instruction.emit) = (.ok [program.length], m') := by
      rw [List.mapM_cons, Model.build_bind_of_eq_ok hemit, hlength]
      rfl
    rw [List.mapM_append, Model.build_bind_of_eq_ok hbuild, Model.build_bind_of_eq_ok hlast,
      Model.build_pure, List.length_append, List.length_singleton, List.range_succ]

end Metrology
