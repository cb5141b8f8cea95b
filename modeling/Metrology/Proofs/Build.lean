import Metrology.Proofs.Model

/-!
# Steps that build a model

What a building step returns and how it leaves the model, refused steps included.  Constraints are
refused before anything happens.  A binary expression over an arithmetic operator creates the slot
of its value first and looks at its operands then: the new slot passes as an operand, and a
refusal leaves it behind.
-/

namespace Metrology
namespace Model

/-! ## Sequences of steps -/

theorem build_pure {α : Type} (m : Model) (a : α) :
    m.build (pure a : Build α) = (.ok a, m) :=
  rfl

theorem build_bind {α β : Type} (m : Model) (x : Build α) (f : α → Build β) :
    m.build (x >>= f) = ExceptT.bindCont f (m.build x).1 (m.build x).2 :=
  rfl

theorem build_bind_of_eq_ok {α β : Type} {m m' : Model} {x : Build α} {a : α}
    (h : m.build x = (.ok a, m')) (f : α → Build β) : m.build (x >>= f) = m'.build (f a) := by
  rw [build_bind, h]
  rfl

theorem build_bind_of_eq_error {α β : Type} {m m' : Model} {x : Build α} {e : ForeignSlot}
    (h : m.build x = (.error e, m')) (f : α → Build β) : m.build (x >>= f) = (.error e, m') := by
  rw [build_bind, h]
  rfl

/-! ## Slots and constraints -/

theorem build_unknown (m : Model) (location : String) :
    m.build (Build.unknown location) =
      (.ok m.slots.size, { m with slots := m.slots.push (.unknown location) }) :=
  rfl

theorem build_require {m : Model} {id : SlotId} (h : id < m.slots.size) :
    m.build (Build.require id) = (.ok ⟨⟩, m) := by
  have hget : m.build (get : Build Model) = (.ok m, m) := rfl
  rw [Build.require, build_bind_of_eq_ok hget, if_pos h]
  rfl

theorem build_require_of_foreign {m : Model} {id : SlotId} (h : ¬id < m.slots.size) :
    m.build (Build.require id) = (.error ⟨id⟩, m) := by
  have hget : m.build (get : Build Model) = (.ok m, m) := rfl
  rw [Build.require, build_bind_of_eq_ok hget, if_neg h]
  rfl

/-- The first of some slot numbers that is not below a bound. -/
def firstFrom (bound : Nat) (ids : List SlotId) : Option SlotId :=
  ids.find? fun id => decide (bound ≤ id)

theorem firstFrom_eq_none_iff {bound : Nat} {ids : List SlotId} :
    firstFrom bound ids = none ↔ ∀ id ∈ ids, id < bound := by
  simp [firstFrom]

theorem firstFrom_pair_eq_none_iff {bound : Nat} {lhs rhs : SlotId} :
    firstFrom bound [lhs, rhs] = none ↔ lhs < bound ∧ rhs < bound := by
  simp [firstFrom_eq_none_iff]

theorem build_forM_require {m : Model} {ids : List SlotId} (h : ∀ id ∈ ids, id < m.slots.size) :
    m.build (ids.forM Build.require) = (.ok ⟨⟩, m) := by
  induction ids with
  | nil => rfl
  | cons id rest ih =>
    obtain ⟨hid, hrest⟩ := List.forall_mem_cons.1 h
    rw [List.forM, build_bind_of_eq_ok (build_require hid)]
    exact ih hrest

theorem build_forM_require_of_foreign {m : Model} {ids : List SlotId} {id : SlotId}
    (h : firstFrom m.slots.size ids = some id) :
    m.build (ids.forM Build.require) = (.error ⟨id⟩, m) := by
  induction ids with
  | nil => cases h
  | cons first rest ih =>
    rw [List.forM]
    by_cases hfirst : first < m.slots.size
    · rw [firstFrom, List.find?_cons_of_neg (by simpa using hfirst)] at h
      rw [build_bind_of_eq_ok (build_require hfirst)]
      exact ih h
    · rw [firstFrom, List.find?_cons_of_pos (by simpa using hfirst)] at h
      cases h
      exact build_bind_of_eq_error (build_require_of_foreign hfirst) _

theorem build_constrain {m : Model} {c : Constraint SlotId}
    (h : ∀ id ∈ c.slots, id < m.slots.size) :
    m.build (Build.constrain c) = (.ok ⟨⟩, { m with constraints := m.constraints.push c }) := by
  rw [Build.constrain, build_bind_of_eq_ok (build_forM_require h)]
  rfl

theorem build_constrain_of_foreign {m : Model} {c : Constraint SlotId} {id : SlotId}
    (h : firstFrom m.slots.size c.slots = some id) :
    m.build (Build.constrain c) = (.error ⟨id⟩, m) :=
  build_bind_of_eq_error (build_forM_require_of_foreign h) _

/-! ## Values of binary expressions -/

section Definition

variable {m : Model} {c : SlotId → Constraint SlotId} {location : String}

/-- Adds an unknown and a constraint for it, between slots that then exist. -/
theorem build_definition
    (h : ∀ id ∈ (c m.slots.size).slots, id < m.slots.size + 1) :
    m.build (do
        let result ← Build.unknown location
        Build.constrain (c result)
        return result) =
      (.ok m.slots.size,
        ⟨m.slots.push (.unknown location), m.constraints.push (c m.slots.size)⟩) := by
  rw [← Array.size_push (.unknown location)] at h
  rw [build_bind_of_eq_ok (build_unknown m location), build_bind_of_eq_ok (build_constrain h)]
  rfl

/-- The unknown stays when its constraint is refused. -/
theorem build_definition_of_foreign {id : SlotId}
    (h : firstFrom (m.slots.size + 1) (c m.slots.size).slots = some id) :
    m.build (do
        let result ← Build.unknown location
        Build.constrain (c result)
        return result) =
      (.error ⟨id⟩, ⟨m.slots.push (.unknown location), m.constraints⟩) := by
  rw [build_bind_of_eq_ok (build_unknown m location)]
  refine build_bind_of_eq_error (build_constrain_of_foreign ?_) _
  rwa [Array.size_push]

end Definition

end Model

/-! ## Binary expressions -/

namespace BinaryOp

/-- The operators whose value is an unknown slot with a constraint of its own. -/
def arithmetic : List BinaryOp := [.add, .sub, .mul, .div, .rem]

/-- The constraint by which an arithmetic operator relates its operands and its value. -/
def definition? : BinaryOp → Option (SlotId → SlotId → SlotId → Constraint SlotId)
  | .add | .sub => some .join
  | .mul => some .product
  | .div => some .quotient
  | .rem => some fun lhs _ result => .equal result lhs
  | .concat | .eq | .ne | .lt | .le | .gt | .ge | .and | .or => none

/-- The operands that the constraint of an arithmetic operator names; a remainder has the unit of
its left operand. -/
def operands (op : BinaryOp) (lhs rhs : SlotId) : List SlotId :=
  if op = .rem then [lhs] else [lhs, rhs]

theorem isSome_definition?_iff {op : BinaryOp} : op.definition?.isSome ↔ op ∈ arithmetic := by
  cases op <;> decide

end BinaryOp

namespace Model

section Expression

variable {m : Model} {op : BinaryOp} {c : SlotId → SlotId → SlotId → Constraint SlotId}
  {lhs rhs id : SlotId} {location : String}

theorem binaryOperation_of_definition (h : op.definition? = some c) :
    Build.binaryOperation op lhs rhs location = (do
      let result ← Build.unknown location
      Build.constrain (c lhs rhs result)
      return result) := by
  cases op <;> cases h <;> rfl

theorem binaryOperation_of_no_definition (h : op.definition? = none) :
    Build.binaryOperation op lhs rhs location = (do
      [lhs, rhs].forM Build.require
      Build.constant .dimensionless) := by
  have hpair : (do
        Build.require lhs
        Build.require rhs
        Build.constant .dimensionless) = (do
        [lhs, rhs].forM Build.require
        Build.constant .dimensionless) := by
    simp only [List.forM, bind_assoc, pure_bind]
  cases op with
  | add | sub | mul | div | rem => cases h
  | concat | eq | ne | lt | le | gt | ge | and | or => exact hpair

/-- The value exists when the constraint of an arithmetic operator is added, so only an operand
can be foreign to it. -/
theorem firstFrom_slots_definition (h : op.definition? = some c) (n : Nat) :
    firstFrom (n + 1) (c lhs rhs n).slots = firstFrom (n + 1) (op.operands lhs rhs) := by
  have hlast : ∀ ids, firstFrom (n + 1) (ids ++ [n]) = firstFrom (n + 1) ids := by
    intro ids
    simp [firstFrom, List.find?_append]
  cases op with
  | add | sub | mul | div =>
    cases h
    exact hlast [lhs, rhs]
  | rem =>
    cases h
    simp [firstFrom, Constraint.slots, BinaryOp.operands]
  | concat | eq | ne | lt | le | gt | ge | and | or => cases h

/-- An arithmetic expression is added with its constraint if its operands are slots or its own
value. -/
theorem build_arithmetic (h : op.definition? = some c)
    (hids : firstFrom (m.slots.size + 1) (op.operands lhs rhs) = none) :
    m.build (Build.binaryOperation op lhs rhs location) =
      (.ok m.slots.size,
        ⟨m.slots.push (.unknown location), m.constraints.push (c lhs rhs m.slots.size)⟩) := by
  rw [← firstFrom_slots_definition h, firstFrom_eq_none_iff] at hids
  rw [binaryOperation_of_definition h]
  exact build_definition (c := c lhs rhs) hids

/-- A refused arithmetic expression leaves the slot of its value. -/
theorem build_arithmetic_of_foreign (h : op.definition? = some c)
    (hid : firstFrom (m.slots.size + 1) (op.operands lhs rhs) = some id) :
    m.build (Build.binaryOperation op lhs rhs location) =
      (.error ⟨id⟩, ⟨m.slots.push (.unknown location), m.constraints⟩) := by
  rw [← firstFrom_slots_definition h] at hid
  rw [binaryOperation_of_definition h]
  exact build_definition_of_foreign (c := c lhs rhs) hid

/-- The value of any other expression over slots is dimensionless. -/
theorem build_dimensionless (h : op.definition? = none)
    (hids : firstFrom m.slots.size [lhs, rhs] = none) :
    m.build (Build.binaryOperation op lhs rhs location) =
      (.ok m.slots.size, ⟨m.slots.push (.constant .dimensionless), m.constraints⟩) := by
  rw [binaryOperation_of_no_definition h,
    build_bind_of_eq_ok (build_forM_require (firstFrom_eq_none_iff.1 hids))]
  rfl

theorem build_dimensionless_of_foreign (h : op.definition? = none)
    (hid : firstFrom m.slots.size [lhs, rhs] = some id) :
    m.build (Build.binaryOperation op lhs rhs location) = (.error ⟨id⟩, m) := by
  rw [binaryOperation_of_no_definition h]
  exact build_bind_of_eq_error (build_forM_require_of_foreign hid) _

end Expression

/-! ## Foreign operands -/

/-- A binary expression is refused exactly if an operand is no slot of the model, and a refusal
leaves the model as it was. -/
def RejectsForeign (m : Model) (op : BinaryOp) (lhs rhs : SlotId) (location : String) : Prop :=
  ((∃ e, (m.build (Build.binaryOperation op lhs rhs location)).1 = .error e) ↔
    ¬(lhs < m.slots.size ∧ rhs < m.slots.size)) ∧
  ((∃ e, (m.build (Build.binaryOperation op lhs rhs location)).1 = .error e) →
    (m.build (Build.binaryOperation op lhs rhs location)).2 = m)

section Foreign

variable {m : Model} {op : BinaryOp} {lhs rhs : SlotId} {location : String}

theorem rejectsForeign_of_no_definition (h : op.definition? = none) :
    m.RejectsForeign op lhs rhs location := by
  rw [RejectsForeign, ← firstFrom_pair_eq_none_iff]
  cases hids : firstFrom m.slots.size [lhs, rhs] with
  | none => simp [build_dimensionless h hids]
  | some id => simp [build_dimensionless_of_foreign h hids]

/-- Operands that are slots are never refused. -/
theorem rejectsForeign_of_lt (hl : lhs < m.slots.size) (hr : rhs < m.slots.size) :
    m.RejectsForeign op lhs rhs location := by
  cases h : op.definition? with
  | none => exact rejectsForeign_of_no_definition h
  | some c =>
    have hids : firstFrom (m.slots.size + 1) (op.operands lhs rhs) = none := by
      rw [firstFrom_eq_none_iff]
      intro id hid
      have hmem : id ∈ [lhs, rhs] := by
        rw [BinaryOp.operands] at hid
        split at hid
        · exact List.mem_cons.2 (.inl (List.mem_singleton.1 hid))
        · exact hid
      simp only [List.mem_cons, List.not_mem_nil, or_false] at hmem
      rcases hmem with rfl | rfl
      · exact Nat.lt_succ_of_lt hl
      · exact Nat.lt_succ_of_lt hr
    simp [RejectsForeign, build_arithmetic h hids, hl, hr]

/-- An arithmetic expression with a foreign operand is not refused, or it is refused and leaves a
slot. -/
theorem not_rejectsForeign_of_definition {c : SlotId → SlotId → SlotId → Constraint SlotId}
    (h : op.definition? = some c) (hforeign : ¬(lhs < m.slots.size ∧ rhs < m.slots.size)) :
    ¬m.RejectsForeign op lhs rhs location := by
  rintro ⟨hrefused, hunchanged⟩
  cases hids : firstFrom (m.slots.size + 1) (op.operands lhs rhs) with
  | none =>
    obtain ⟨e, he⟩ := hrefused.2 hforeign
    rw [build_arithmetic h hids] at he
    cases he
  | some id =>
    rw [build_arithmetic_of_foreign h hids] at hunchanged
    have hsize := congrArg (fun m : Model => m.slots.size) (hunchanged ⟨_, rfl⟩)
    simp at hsize

end Foreign

/-- Foreign operands are rejected, and rejected without a trace, exactly by the operators that are
not arithmetic.  An arithmetic operator creates the slot of its value first: it is refused exactly
if an operand that its constraint names is above the number of that slot, and then the slot
stays. -/
theorem rejectsForeign_iff (m : Model) (op : BinaryOp) (lhs rhs : SlotId) (location : String) :
    (m.RejectsForeign op lhs rhs location ↔
      (op ∈ BinaryOp.arithmetic → lhs < m.slots.size ∧ rhs < m.slots.size)) ∧
    (op ∈ BinaryOp.arithmetic →
      ((∃ e, (m.build (Build.binaryOperation op lhs rhs location)).1 = .error e) ↔
        ∃ id ∈ op.operands lhs rhs, m.slots.size < id) ∧
      ((∃ e, (m.build (Build.binaryOperation op lhs rhs location)).1 = .error e) →
        (m.build (Build.binaryOperation op lhs rhs location)).2 =
          { m with slots := m.slots.push (.unknown location) })) := by
  rw [← BinaryOp.isSome_definition?_iff]
  cases h : op.definition? with
  | none => simp [rejectsForeign_of_no_definition h]
  | some c =>
    simp only [Option.isSome_some, forall_const]
    refine ⟨⟨fun hrejects => ?_, fun hlt => rejectsForeign_of_lt hlt.1 hlt.2⟩, ?_⟩
    · exact Decidable.byContradiction fun hforeign =>
        not_rejectsForeign_of_definition h hforeign hrejects
    · cases hids : firstFrom (m.slots.size + 1) (op.operands lhs rhs) with
      | none =>
        rw [build_arithmetic h hids]
        have hbelow := firstFrom_eq_none_iff.1 hids
        simp only [reduceCtorEq, exists_false, false_iff, not_exists, not_and, false_implies,
          and_true]
        exact fun id hid => Nat.not_lt.2 (Nat.lt_succ_iff.1 (hbelow id hid))
      | some id =>
        rw [build_arithmetic_of_foreign h hids]
        have hfound : id ∈ op.operands lhs rhs ∧ m.slots.size + 1 ≤ id :=
          ⟨List.mem_of_find?_eq_some hids, by simpa using List.find?_some hids⟩
        simp only [Except.error.injEq, exists_eq', true_iff, implies_true, and_true]
        exact ⟨id, hfound⟩

/-- The slot of a product passes as its own operand, the right operand of a remainder is not looked
at, and a refused sum leaves its slot. -/
theorem not_rejectsForeign_single :
    let m : Model := ⟨#[.unknown "x"], #[]⟩
    ¬m.RejectsForeign .mul 0 1 "p" ∧ ¬m.RejectsForeign .rem 0 9 "q" ∧
      ¬m.RejectsForeign .add 0 9 "r" := by
  refine ⟨?_, ?_, ?_⟩ <;> exact not_rejectsForeign_of_definition rfl (by decide)

end Model
end Metrology
