import Metrology.Proofs.Build
import Metrology.Proofs.Linear.Encoding
import Metrology.Proofs.Smt.Exactness

/-!
# Histories of models

A model grows by operations, each of which may be refused.  What one operation can do is said
once.  From it follows what every history keeps: slots are numbered in the order of their
creation, slots and constraints stay where they are, and no constraint names a slot that the model
lacks, so that whatever reads the constraints finds all slots.
-/

namespace Metrology

/-- An operation on a model. -/
inductive Operation where
  | constant (unit : Qualifier)
  | rawConstant
  | unknown (location : String)
  | constrain (c : Constraint SlotId)
  | binary (op : BinaryOp) (lhs rhs : SlotId) (location : String)
  | literal (kind : LiteralKind) (location : String)
deriving DecidableEq

/-- The building step of an operation, with the number of the slot that it returns. -/
def Operation.step : Operation → Model.Build (Option SlotId)
  | constant unit => some <$> Model.Build.constant unit
  | rawConstant => some <$> Model.Build.rawConstant
  | unknown location => some <$> Model.Build.unknown location
  | constrain c => (fun _ => none) <$> Model.Build.constrain c
  | binary op lhs rhs location => some <$> Model.Build.binaryOperation op lhs rhs location
  | literal kind location => some <$> Model.Build.literal kind location

namespace Model

/-- Performs an operation; a refused one keeps what it did first. -/
def perform (m : Model) (o : Operation) : Except ForeignSlot (Option SlotId) × Model :=
  m.build o.step

/-- The model after a history that began with the empty model. -/
def after (history : List Operation) : Model :=
  history.foldl (fun m o => (m.perform o).2) empty

theorem after_concat (history : List Operation) (o : Operation) :
    after (history ++ [o]) = ((after history).perform o).2 := by
  rw [after, List.foldl_append]
  rfl

/-! ## One operation -/

/-- What an operation can do to a model: nothing, leave the slot of a refused expression, create
a slot, add a constraint between slots, or create a slot together with a constraint that may name
it. -/
inductive Performed (m : Model) : Except ForeignSlot (Option SlotId) × Model → Prop
  | refused {e : ForeignSlot} : Performed m (.error e, m)
  | abandoned {e : ForeignSlot} {s : Slot} :
    Performed m (.error e, ⟨m.slots.push s, m.constraints⟩)
  | created {s : Slot} : Performed m (.ok (some m.slots.size), ⟨m.slots.push s, m.constraints⟩)
  | constrained {c : Constraint SlotId} (known : ∀ id ∈ c.slots, id < m.slots.size) :
    Performed m (.ok none, ⟨m.slots, m.constraints.push c⟩)
  | defined {s : Slot} {c : Constraint SlotId} (known : ∀ id ∈ c.slots, id < m.slots.size + 1) :
    Performed m (.ok (some m.slots.size), ⟨m.slots.push s, m.constraints.push c⟩)

theorem build_map_of_eq {α β : Type} {m m' : Model} {x : Build α} {outcome : Except ForeignSlot α}
    (h : m.build x = (outcome, m')) (f : α → β) :
    m.build (f <$> x) = (outcome.map f, m') := by
  rw [map_eq_pure_bind]
  cases outcome with
  | ok a => exact build_bind_of_eq_ok h _
  | error e => exact build_bind_of_eq_error h _

theorem performed_constrain (m : Model) (c : Constraint SlotId) :
    Performed m (m.perform (.constrain c)) := by
  rw [perform, Operation.step]
  cases hids : firstFrom m.slots.size c.slots with
  | none =>
    have hknown := firstFrom_eq_none_iff.1 hids
    rw [build_map_of_eq (build_constrain hknown)]
    exact .constrained hknown
  | some id =>
    rw [build_map_of_eq (build_constrain_of_foreign hids)]
    exact .refused

theorem performed_binary (m : Model) (op : BinaryOp) (lhs rhs : SlotId) (location : String) :
    Performed m (m.perform (.binary op lhs rhs location)) := by
  rw [perform, Operation.step]
  cases hop : op.definition? with
  | none =>
    cases hids : firstFrom m.slots.size [lhs, rhs] with
    | none =>
      rw [build_map_of_eq (build_dimensionless hop hids)]
      exact .created
    | some id =>
      rw [build_map_of_eq (build_dimensionless_of_foreign hop hids)]
      exact .refused
  | some c =>
    -- The slot of the value exists when the operands are looked at, hence the bound.
    cases hids : firstFrom (m.slots.size + 1) (op.operands lhs rhs) with
    | none =>
      rw [build_map_of_eq (build_arithmetic hop hids)]
      rw [← firstFrom_slots_definition hop] at hids
      exact .defined (firstFrom_eq_none_iff.1 hids)
    | some id =>
      rw [build_map_of_eq (build_arithmetic_of_foreign hop hids)]
      exact .abandoned

/-- Every operation does one of these things. -/
theorem performed (m : Model) (o : Operation) : Performed m (m.perform o) := by
  cases o with
  | constant unit => exact .created
  | rawConstant => exact .created
  | unknown location => exact .created
  | constrain c => exact performed_constrain m c
  | binary op lhs rhs location => exact performed_binary m op lhs rhs location
  | literal kind location => cases kind <;> exact .created

/-- The new model goes on where the old one ends. -/
structure Extends (m m' : Model) : Prop where
  slots : m.slots.toList <+: m'.slots.toList
  constraints : m.constraints.toList <+: m'.constraints.toList

theorem Extends.refl (m : Model) : m.Extends m := ⟨List.prefix_rfl, List.prefix_rfl⟩

theorem Extends.trans {m₁ m₂ m₃ : Model} (h : m₁.Extends m₂) (h' : m₂.Extends m₃) :
    m₁.Extends m₃ :=
  ⟨h.slots.trans h'.slots, h.constraints.trans h'.constraints⟩

theorem Extends.size_le {m m' : Model} (h : m.Extends m') : m.slots.size ≤ m'.slots.size :=
  h.slots.length_le

namespace Performed

variable {m : Model} {outcome : Except ForeignSlot (Option SlotId) × Model}

theorem extends_self (h : Performed m outcome) : m.Extends outcome.2 := by
  have hslots : ∀ s, m.slots.toList <+: (m.slots.push s).toList := fun s => by simp
  have hconstraints : ∀ c, m.constraints.toList <+: (m.constraints.push c).toList :=
    fun c => by simp
  cases h with
  | refused => exact .refl m
  | abandoned | created => exact ⟨hslots _, List.prefix_rfl⟩
  | constrained => exact ⟨List.prefix_rfl, hconstraints _⟩
  | defined => exact ⟨hslots _, hconstraints _⟩

/-- Operations keep referential integrity. -/
theorem closed (h : Performed m outcome) (hm : m.Closed) : outcome.2.Closed := by
  have hslot : ∀ s, Closed ⟨m.slots.push s, m.constraints⟩ := by
    intro s c hc id hid
    rw [Array.size_push]
    exact Nat.lt_succ_of_lt (hm c hc id hid)
  -- For any model: a definition adds its constraint to the model that has the new slot.
  have hpush : ∀ (m : Model) (c : Constraint SlotId), m.Closed →
      (∀ id ∈ c.slots, id < m.slots.size) → Closed ⟨m.slots, m.constraints.push c⟩ := by
    intro m c hm hknown c' hc' id hid
    rw [Array.toList_push, List.mem_append, List.mem_singleton] at hc'
    rcases hc' with hc' | rfl
    · exact hm c' hc' id hid
    · exact hknown id hid
  cases h with
  | refused => exact hm
  | abandoned | created => exact hslot _
  | constrained known => exact hpush m _ hm known
  | @defined s c known =>
    refine hpush ⟨m.slots.push s, m.constraints⟩ c (hslot s) ?_
    rwa [Array.size_push]

/-- A new slot has the number of slots before it as its number. -/
theorem eq_size_of_numbered (h : Performed m outcome) {e : SlotId × Slot}
    (he : e ∈ outcome.2.numbered) (hnew : e ∉ m.numbered) : e.1 = m.slots.size := by
  have hpush : ∀ (s : Slot) (constraints : Array (Constraint SlotId)),
      e ∈ numbered ⟨m.slots.push s, constraints⟩ → e.1 = m.slots.size := by
    intro s constraints hpushed
    rw [mem_numbered_iff, Array.getElem?_push] at hpushed
    split at hpushed
    case isTrue heq => exact heq
    case isFalse => exact absurd (mem_numbered_iff.2 hpushed) hnew
  cases h with
  | refused | constrained => exact absurd he hnew
  | abandoned | created | defined => exact hpush _ _ he

theorem eq_size_of_eq_ok (h : Performed m outcome) {id : SlotId}
    (hid : outcome.1 = .ok (some id)) : id = m.slots.size ∧ id < outcome.2.slots.size := by
  cases h with
  | refused | abandoned | constrained => cases hid
  | created | defined =>
    cases hid
    rw [Array.size_push]
    exact ⟨rfl, Nat.lt_succ_self _⟩

end Performed

/-! ## Histories -/

theorem extends_after_append (earlier later : List Operation) :
    (after earlier).Extends (after (earlier ++ later)) := by
  induction later using List.reverseRecOn with
  | nil =>
    rw [List.append_nil]
    exact .refl _
  | append_singleton later o ih =>
    rw [← List.append_assoc, after_concat]
    exact ih.trans (performed _ o).extends_self

/-- No history leads to a constraint over a slot that the model lacks. -/
theorem closed_after (history : List Operation) : (after history).Closed := by
  induction history using List.reverseRecOn with
  | nil =>
    intro c hc
    cases hc
  | append_singleton history o ih =>
    rw [after_concat]
    exact (performed _ o).closed ih

theorem lt_size_of_mem_numbered {m : Model} {e : SlotId × Slot} (h : e ∈ m.numbered) :
    e.1 < m.slots.size :=
  (Array.getElem?_eq_some_iff.1 (mem_numbered_iff.1 h)).1

end Model

/-! ## Readers of constraints -/

section Readers

variable {m : Model} {components : List Component} {slot : ForeignSlot}

theorem Model.exists_check_eq_ok (h : m.Closed) (s : Assignment) :
    ∃ violations, m.check s = .ok violations :=
  ⟨_, bind_eq_ok_iff.2 ⟨_, linked_eq_ok h, rfl⟩⟩

theorem Model.exists_resolve_eq_ok {id : SlotId} (h : id < m.slots.size) (s : Assignment) :
    ∃ unit, m.resolve s id = .ok unit :=
  ⟨_, map_eq_ok_iff.2 ⟨_, operand_eq_ok h, rfl⟩⟩

/-- The components of a model are read off its constant slots. -/
theorem Model.mem_components_iff {c : Component} :
    c ∈ m.components ↔ c = .power ∨ ∃ (id : SlotId) (unit : Monomial),
      m.slots[id]? = some (.constant (.concrete unit)) ∧
        ∃ d ∈ unit.dimensions, c = .dimension d := by
  rw [components, List.mem_cons]
  refine or_congr_right ?_
  simp only [List.mem_map, usedDimensions, mem_sortedDistinct, List.mem_flatMap, Prod.exists,
    mem_constants_iff]
  constructor
  · rintro ⟨d, ⟨id, q, hslot, hd⟩, rfl⟩
    cases q with
    | concrete unit => exact ⟨id, unit, hslot, d, hd, rfl⟩
    | top | bottom | poly => cases hd
  · rintro ⟨id, unit, hslot, d, hd, rfl⟩
    exact ⟨d, ⟨id, .concrete unit, hslot, hd⟩, rfl⟩

theorem Linear.Categories.encodeConstraint_ne_foreign {k : Categories} {c : Constraint Operand} :
    k.encodeConstraint c ≠ .error (.foreign slot) := by
  intro h
  unfold encodeConstraint at h
  split at h
  · cases h
  · split at h
    · cases h
    · split at h <;> cases h

theorem Linear.Encoding.ofModel_ne_foreign (h : m.Closed) :
    ofModel m components ≠ .error (.foreign slot) := by
  rw [ofModel_eq_of_closed h]
  intro heq
  rcases bind_eq_error_iff.1 heq with heq | ⟨outcomes, -, heq⟩
  · obtain ⟨c, -, hc⟩ := exists_of_mapM_eq_error heq
    exact Categories.encodeConstraint_ne_foreign hc
  · unfold ofOutcomes at heq
    split at heq
    · rw [ofRelations_eq] at heq
      split at heq <;> cases heq
    · cases heq

theorem Smt.Problem.addConstraint_ne_foreign {p : Problem} {c : Constraint Operand × Nat} :
    addConstraint components p c ≠ .error (.foreign slot) := by
  intro h
  rcases bind_eq_error_iff.1 h with h | ⟨f, -, h⟩
  · unfold encodeConstraint at h
    split at h <;> cases h
  · cases h

theorem Smt.Problem.ofModel_ne_foreign (h : m.Closed) :
    ofModel m components ≠ .error (.foreign slot) := by
  rw [ofModel, Model.linked_eq_ok h]
  intro heq
  rcases bind_eq_error_iff.1 heq with heq | ⟨constraints, -, heq⟩
  · cases heq
  · obtain ⟨p, c, -, hc⟩ := exists_of_foldlM_eq_error heq
    exact addConstraint_ne_foreign hc

/-- Nothing that reads the model meets a foreign slot. -/
structure Model.Readable (m : Model) : Prop where
  check : ∀ s, ∃ violations, m.check s = .ok violations
  resolve : ∀ s, ∀ c ∈ m.constraints.toList, ∀ id ∈ c.slots, ∃ unit, m.resolve s id = .ok unit
  /-- The components need no lookup; they are those of the constant slots. -/
  components : ∀ c, c ∈ m.components ↔ c = .power ∨ ∃ (id : SlotId) (unit : Monomial),
    m.slots[id]? = some (.constant (.concrete unit)) ∧ ∃ d ∈ unit.dimensions, c = .dimension d
  linear : ∀ components slot, Linear.Encoding.ofModel m components ≠ .error (.foreign slot)
  smt : ∀ components slot, Smt.Problem.ofModel m components ≠ .error (.foreign slot)

theorem Model.Closed.readable (h : m.Closed) : m.Readable where
  check := exists_check_eq_ok h
  resolve s c hc id hid := exists_resolve_eq_ok (h c hc id hid) s
  components _ := mem_components_iff
  linear _ _ := Linear.Encoding.ofModel_ne_foreign h
  smt _ _ := Smt.Problem.ofModel_ne_foreign h

end Readers

namespace Model

/-- In every history, refused operations included, each operation leaves the slots and constraints
before it in place and gives a new slot, also one that it abandons, the number of slots before it
as its number; every constraint is between slots of the model.  Numbers of fewer than `2 ^ 32`
slots fit into words of 32 bits.  Nothing that reads the model meets a foreign slot. -/
theorem referential_integrity (history : List Operation)
    (hcount : (after history).slots.size < 2 ^ 32) :
    (∀ earlier o later, history = earlier ++ o :: later →
      (after earlier).Extends ((after earlier).perform o).2 ∧
      ((after earlier).perform o).2.Closed ∧
      (∀ e ∈ ((after earlier).perform o).2.numbered, e ∉ (after earlier).numbered →
        e.1 = (after earlier).slots.size ∧ e.1 < 2 ^ 32) ∧
      ∀ id, ((after earlier).perform o).1 = .ok (some id) →
        id = (after earlier).slots.size ∧ id < ((after earlier).perform o).2.slots.size) ∧
    (after history).Closed ∧ (after history).Readable := by
  refine ⟨?_, closed_after history, (closed_after history).readable⟩
  rintro earlier o later rfl
  have hstep := performed (after earlier) o
  have hsize : ((after earlier).perform o).2.slots.size < 2 ^ 32 := by
    have hlater := extends_after_append (earlier ++ [o]) later
    rw [List.append_assoc, List.singleton_append, after_concat] at hlater
    exact Nat.lt_of_le_of_lt hlater.size_le hcount
  refine ⟨hstep.extends_self, hstep.closed (closed_after earlier), fun e he hnew => ?_,
    fun id hid => hstep.eq_size_of_eq_ok hid⟩
  exact ⟨hstep.eq_size_of_numbered he hnew, Nat.lt_trans (lt_size_of_mem_numbered he) hsize⟩

/-- A product with a foreign operand leaves slot `1`, which a later constraint names; a constraint
and a comparison over foreign slots leave nothing. -/
def interruptedHistory : List Operation :=
  [.unknown "x", .binary .mul 0 7 "x * y", .constrain (.equal 1 0), .constrain (.subtype 0 5),
    .binary .lt 0 9 "x < z", .binary .rem 1 9 "w"]

theorem referential_integrity_interrupted :
    (after interruptedHistory).slots.size < 2 ^ 32 ∧
    after interruptedHistory =
      ⟨#[.unknown "x", .unknown "x * y", .unknown "w"], #[.equal 1 0, .equal 2 1]⟩ ∧
    (after interruptedHistory).Closed ∧ (after interruptedHistory).Readable :=
  have hcount : (after interruptedHistory).slots.size < 2 ^ 32 := by decide
  ⟨hcount, by decide, (referential_integrity interruptedHistory hcount).2⟩

end Model
end Metrology
