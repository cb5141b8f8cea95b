import Metrology.Proofs.Linear.Contention
import Metrology.Proofs.Linear.Determined
import Metrology.Proofs.Program

/-!
# Straight-line programs are evaluated

Elimination computes what forward evaluation computes.  The first pass over the constraints
follows the program, so every slot gets the category of its unit before it is used; a second pass
finds nothing new.  Of the remaining relations, each definition fixes the exponents of its slot by
those of slots before it, so the systems have one solution.
-/

namespace Metrology

namespace Linear

/-! ## Categories of a definition -/

theorem Fits.cases {category : Option Category} {q : Qualifier} (h : Fits category q) :
    (category = none ∧ ∃ u, q = .concrete u) ∨ (category = some .top ∧ q = .top) ∨
      (category = some .bottom ∧ q = .bottom) := by
  rcases category with _ | _ | _
  · exact .inl ⟨rfl, h⟩
  · exact .inr (.inl ⟨rfl, h⟩)
  · exact .inr (.inr ⟨rfl, h⟩)

namespace Categories

variable {k : Categories} {values : List Qualifier} {result : SlotId} {c : Constraint SlotId}
variable {unit : Qualifier} {operand : SlotId → Operand} {o : Operand} {category : Category}

theorem forces_arithmetic_iff {op : Qualifier → Qualifier → Qualifier} {sign : Int}
    (hop : Qualifier.Arithmetic op sign) {lhs rhs result : Operand} {p q : Qualifier}
    (hp : Fits (k.of lhs) p) (hq : Fits (k.of rhs) q) (hrange : Qualifier.StaysInRange sign p q) :
    k.Forces (.product lhs rhs result) o category ↔ o = result ∧ op p q = category.unit := by
  rcases hp.cases with ⟨hl, u, rfl⟩ | ⟨hl, rfl⟩ | ⟨hl, rfl⟩
  · rcases hq.cases with ⟨hr, v, rfl⟩ | ⟨hr, rfl⟩ | ⟨hr, rfl⟩
    · obtain ⟨r, hconcrete⟩ := (hop.exists_concrete_iff u v).2 hrange
      cases category <;> simp [Forces, hl, hr, hconcrete, Category.unit]
    · cases category <;> simp [Forces, hl, hr, hop.top_right, Category.unit]
    · cases category <;> simp [Forces, hl, hr, hop.bottom_right, Category.unit]
  · cases category <;> simp [Forces, hl, hop.top_left, Category.unit]
  · rcases hq.cases with ⟨hr, v, rfl⟩ | ⟨hr, rfl⟩ | ⟨hr, rfl⟩
    · cases category <;> simp [Forces, hl, hr, hop.bottom_left, Category.unit]
    · cases category <;> simp [Forces, hl, hr, hop.top_right, Category.unit]
    · cases category <;> simp [Forces, hl, hr, hop.bottom_bottom, Category.unit]

theorem forces_join_iff {lhs rhs result : Operand} {p q : Qualifier}
    (hp : Fits (k.of lhs) p) (hq : Fits (k.of rhs) q)
    (hsame : ∀ u v, p = .concrete u → q = .concrete v → u = v) (hresult : k.of result = none) :
    k.Forces (.join lhs rhs result) o category ↔ o = result ∧ p.join q = category.unit := by
  rcases hp.cases with ⟨hl, u, rfl⟩ | ⟨hl, rfl⟩ | ⟨hl, rfl⟩ <;>
    rcases hq.cases with ⟨hr, v, rfl⟩ | ⟨hr, rfl⟩ | ⟨hr, rfl⟩
  case inl.inl =>
    obtain rfl := hsame u v rfl rfl
    cases category <;> simp [Forces, hl, hr, hresult, Qualifier.join, Category.unit]
  all_goals cases category <;> simp [Forces, hl, hr, hresult, Qualifier.join, Category.unit]

section Definition

variable (h : c.Defines values result unit)
variable (hfits : ∀ a p, values[a]? = some p → Fits (k.of (operand a)) p)

include h hfits

/-- Before the result has a category, a definition forces the one of its unit on it and nothing
else. -/
theorem forces_definition_iff (hresult : k.of (operand result) = none) :
    k.Forces (c.map operand) o category ↔ o = operand result ∧ unit = category.unit := by
  cases h with
  | join left right same =>
    exact forces_join_iff (hfits _ _ left) (hfits _ _ right) same hresult
  | product left right range =>
    exact forces_arithmetic_iff Qualifier.mul_arithmetic (hfits _ _ left) (hfits _ _ right) range
  | quotient left right inhabited range =>
    exact forces_arithmetic_iff Qualifier.quotient_arithmetic (hfits _ _ left)
      (hfits _ _ right) range
  | equal left =>
    rcases (hfits _ _ left).cases with ⟨hl, u, rfl⟩ | ⟨hl, rfl⟩ | ⟨hl, rfl⟩ <;>
      cases category <;> simp [Forces, Constraint.map, hl, hresult, Category.unit]

/-- Visiting a definition leaves the other slots alone. -/
theorem of_visit_definition (hresult : k.of (operand result) = none)
    (hne : o.id ≠ (operand result).id) :
    (k.visit (c.map operand)).of o = k.of o := by
  cases hslot : o.slot with
  | constant q => exact of_eq_of_constant hslot _ _
  | unknown location =>
    rw [of_eq_get? hslot, of_eq_get? hslot]
    refine Option.ext fun category => ⟨fun hget => ?_, within_visit k _ _ _⟩
    rcases forces_of_get?_visit hget with hget | ⟨o', -, -, hid, hforces⟩
    · exact hget
    · rw [((forces_definition_iff h hfits hresult).1 hforces).1] at hid
      exact absurd hid.symm hne

/-- Visiting a definition gives the result the category of its unit. -/
theorem fits_visit_definition (hresult : k.of (operand result) = none) {location : String}
    (hslot : (operand result).slot = .unknown location) (hpoly : unit ≠ .poly) :
    Fits ((k.visit (c.map operand)).of (operand result)) unit := by
  have hforces : ∀ {o category}, k.Forces (c.map operand) o category ↔
      o = operand result ∧ unit = category.unit := forces_definition_iff h hfits hresult
  cases hnew : (k.visit (c.map operand)).of (operand result) with
  | some category =>
    rw [of_eq_get? hslot] at hresult hnew
    rcases forces_of_get?_visit hnew with hget | ⟨o, -, -, -, hforced⟩
    · cases hresult.symm.trans hget
    · exact (hforces.1 hforced).2
  | none =>
    have hne : ∀ category : Category, unit ≠ category.unit := by
      intro category hunit
      obtain ⟨found, hfound⟩ :=
        exists_of_foldl_record (mem_forced_iff.2 (hforces.2 ⟨rfl, hunit⟩)) hslot k
      cases hnew.symm.trans hfound
    cases unit with
    | concrete u => exact ⟨u, rfl⟩
    | top => exact absurd rfl (hne .top)
    | bottom => exact absurd rfl (hne .bottom)
    | poly => exact absurd rfl hpoly

theorem divisionError?_definition : k.divisionError? (c.map operand) = none := by
  cases h with
  | join | product | equal => rfl
  | quotient left right inhabited =>
    rcases (hfits _ _ right).cases with ⟨hr, -⟩ | ⟨hr, -⟩ | ⟨-, hbottom⟩
    · simp [Constraint.map, divisionError?, isBottom, hr]
    · simp [Constraint.map, divisionError?, isBottom, hr]
    · exact absurd hbottom inhabited

theorem needsDisequality_definition (hresult : Fits (k.of (operand result)) unit) :
    k.needsDisequality (c.map operand) = false := by
  cases h with
  | product | quotient | equal => rfl
  | join left right same =>
    rcases (hfits _ _ left).cases with ⟨hl, u, rfl⟩ | ⟨hl, -⟩ | ⟨hl, -⟩
    · rcases (hfits _ _ right).cases with ⟨hr, v, rfl⟩ | ⟨hr, -⟩ | ⟨hr, -⟩
      · obtain rfl := same u v rfl rfl
        rcases hresult.cases with ⟨hnone, -⟩ | ⟨-, htop⟩ | ⟨hbottom, -⟩
        · simp [Constraint.map, needsDisequality, isTop, hnone]
        · simp [Qualifier.join] at htop
        · simp [Constraint.map, needsDisequality, isTop, hbottom]
      · simp [Constraint.map, needsDisequality, hr]
      · simp [Constraint.map, needsDisequality, hr]
    · simp [Constraint.map, needsDisequality, hl]
    · simp [Constraint.map, needsDisequality, hl]

end Definition

/-! ## Settled categories -/

/-- Where categories agree with units that satisfy a constraint, it forces nothing new. -/
theorem Forces.of_fits {f : Operand → Qualifier} {c : Constraint Operand}
    (hfits : ∀ o ∈ c.slots, Fits (k.of o) (f o)) (hholds : (c.map f).Holds)
    (hrange : (c.map f).InRange) (h : k.Forces c o category) : k.of o = some category := by
  rw [of_eq_some_iff (hfits o h.mem_slots)]
  cases c with
  | equal lhs rhs =>
    obtain ⟨hl, hr⟩ := Constraint.and_of_forall_mem_pair hfits
    have heq : f lhs = f rhs := hholds
    rcases h with ⟨rfl, h⟩ | ⟨rfl, h⟩
    · exact heq.symm.trans ((of_eq_some_iff hl).1 h)
    · exact heq.trans ((of_eq_some_iff hr).1 h)
  | subtype sub sup =>
    obtain ⟨hsub, hsup⟩ := Constraint.and_of_forall_mem_pair hfits
    have hle : f sup = .top ∨ f sub = .bottom ∨ f sub = f sup := hholds
    rcases h with ⟨rfl, rfl, h⟩ | ⟨rfl, rfl, h⟩
    · have htop := (of_eq_some_iff hsub).1 h
      rcases hle with hle | hle | hle <;> simp_all [Category.unit]
    · have hbottom := (of_eq_some_iff hsup).1 h
      rcases hle with hle | hle | hle <;> simp_all [Category.unit]
  | join lhs rhs result =>
    obtain ⟨hl, hr, hresult⟩ := Constraint.and_of_forall_mem_triple hfits
    have hjoin : (f lhs).join (f rhs) = f result := hholds
    rcases h with ⟨rfl, rfl, h | h⟩ | ⟨rfl, rfl, h, h'⟩ | ⟨rfl, h, -, h'⟩ | ⟨rfl, -, h, h'⟩
    · rw [← hjoin, (of_eq_some_iff hl).1 h]
      cases f rhs <;> rfl
    · rw [← hjoin, (of_eq_some_iff hr).1 h]
      cases f lhs <;> rfl
    · rw [← hjoin, (of_eq_some_iff hl).1 h, (of_eq_some_iff hr).1 h']
      rfl
    · rw [(of_eq_some_iff hl).1 h, (of_eq_some_iff hresult).1 h'] at hjoin
      rw [← hjoin]
      cases f o <;> rfl
    · rw [(of_eq_some_iff hr).1 h, (of_eq_some_iff hresult).1 h'] at hjoin
      rw [← hjoin]
      cases f o <;> rfl
  | product lhs rhs result =>
    obtain ⟨hl, hr, hresult⟩ := Constraint.and_of_forall_mem_triple hfits
    obtain ⟨rfl, hunit⟩ := (forces_arithmetic_iff Qualifier.mul_arithmetic hl hr
      (Constraint.inRange_product_iff.1 hrange)).1 h
    exact Eq.trans (Eq.symm hholds) hunit
  | quotient lhs rhs result =>
    obtain ⟨hl, hr, hresult⟩ := Constraint.and_of_forall_mem_triple hfits
    obtain ⟨rfl, hunit⟩ := (forces_arithmetic_iff Qualifier.quotient_arithmetic hl hr
      (Constraint.inRange_quotient_iff.1 hrange)).1 h
    exact (Qualifier.div_eq_ok_iff.1 hholds).2.symm.trans hunit

/-- A pass over satisfied constraints finds nothing where the categories agree with the units. -/
theorem pass_eq_self {f : Operand → Qualifier} {constraints : List (Constraint Operand)}
    (hfits : ∀ c ∈ constraints, ∀ o ∈ c.slots, Fits (k.of o) (f o))
    (hholds : ∀ c ∈ constraints, (c.map f).Holds)
    (hrange : ∀ c ∈ constraints, (c.map f).InRange) : pass constraints k = k := by
  induction constraints with
  | nil => rfl
  | cons c rest ih =>
    obtain ⟨hfits, hrest⟩ := List.forall_mem_cons.1 hfits
    obtain ⟨hholds, hholdsRest⟩ := List.forall_mem_cons.1 hholds
    obtain ⟨hrange, hrangeRest⟩ := List.forall_mem_cons.1 hrange
    have hvisit : k.visit c = k := by
      refine Within.antisymm ((Within.refl k).visit fun o category _ _ hforces => ?_)
        (within_visit k c)
      exact hforces.of_fits hfits hholds hrange
    rw [pass, List.foldl_cons, hvisit]
    exact ih hrest hholdsRest hrangeRest

/-- A run whose second pass finds nothing ends with the first. -/
theorem iterate_eq_pass {constraints : List (Constraint Operand)}
    (h : pass constraints (pass constraints k) = pass constraints k) (rounds : ℕ) :
    iterate constraints (rounds + 1) k = pass constraints k := by
  rw [iterate]
  split
  case isTrue hsize => exact (within_pass constraints k).eq_of_size_le (Nat.le_of_eq hsize)
  case isFalse =>
    cases rounds with
    | zero => rfl
    | succ rounds => rw [iterate, h, if_pos rfl]

end Categories

/-! ## Categories of a straight line -/

/-- The categories agree with the units of all slots of a model. -/
structure Exact (k : Categories) (m : Model) (values : List Qualifier) : Prop where
  keys : ∀ id ∈ k.keys, id < m.slots.size
  fits : ∀ id unit, values[id]? = some unit → Fits (k.of (m.operandAt id)) unit

section StraightLine

variable {m : Model} {values : List Qualifier}

theorem fits_of_constant {k : Categories} {o : Operand} {q : Qualifier} (hq : q ≠ .poly)
    (hslot : o.slot = .constant q) : Fits (k.of o) q := by
  rw [Categories.of, hslot]
  cases q with
  | poly => exact absurd rfl hq
  | top | bottom => rfl
  | concrete u => exact ⟨u, rfl⟩

/-- A definition keeps the categories exact. -/
theorem Exact.visit {k : Categories} (h : Exact k m values) (line : m.StraightLine values)
    {c : Constraint SlotId} {unit : Qualifier} (hc : c.Defines values m.slots.size unit)
    {m' : Model} {location : String} {constraints : Array (Constraint SlotId)}
    (hm' : m' = ⟨m.slots.push (.unknown location), constraints⟩) :
    Exact (k.visit (c.map m'.operandAt)) m' (values ++ [unit]) := by
  have hslot : (m'.operandAt m.slots.size).slot = .unknown location :=
    hm' ▸ Model.slot_operandAt_push
  have hlt : ∀ {a p}, values[a]? = some p → a < m.slots.size := fun ha =>
    line.size_slots ▸ (List.getElem?_eq_some_iff.1 ha).1
  have hfits : ∀ a p, values[a]? = some p → Fits (k.of (m'.operandAt a)) p := by
    intro a p ha
    rw [hm', Model.operandAt_push (hlt ha)]
    exact h.fits a p ha
  have hresult : k.of (m'.operandAt m.slots.size) = none := by
    rw [Categories.of_eq_get? hslot]
    exact SortedMap.get?_eq_none_iff.2 fun hmem => Nat.lt_irrefl _ (h.keys _ hmem)
  refine ⟨?_, fun id q hid => ?_⟩
  · have hsize : m'.slots.size = m.slots.size + 1 := by rw [hm', Array.size_push]
    rw [hsize]
    refine Categories.keys_visit (fun o ho _ _ => ?_) fun id hid =>
      Nat.lt_succ_of_lt (h.keys id hid)
    rw [Constraint.slots_map] at ho
    obtain ⟨id, hid, rfl⟩ := List.mem_map.1 ho
    rcases hc.cases_of_mem_slots hid with rfl | hid
    · exact Nat.lt_succ_self _
    · exact Nat.lt_succ_of_lt (line.size_slots ▸ hid)
  · rcases Model.cases_of_getElem?_snoc hid with hid | ⟨rfl, rfl⟩
    · rw [Categories.of_visit_definition hc hfits hresult (Nat.ne_of_lt (hlt hid))]
      exact hfits id q hid
    · rw [← line.size_slots]
      exact Categories.fits_visit_definition hc hfits hresult hslot (hc.ne_poly line.poly_not_mem)

/-- The first pass settles all categories. -/
theorem exact_pass (h : m.StraightLine values) :
    Exact (Categories.pass m.operandConstraints SortedMap.empty) m values := by
  induction h with
  | empty =>
    refine ⟨fun id hid => ?_, fun id unit hid => ?_⟩
    · cases hid
    · cases hid
  | @constant m values unit line plain ih =>
    rw [Model.operandConstraints, Model.map_operandAt_push line.closed]
    refine ⟨fun id hid => ?_, fun id q hid => ?_⟩
    · rw [Array.size_push]
      exact Nat.lt_succ_of_lt (ih.keys id hid)
    · rcases Model.cases_of_getElem?_snoc hid with hid | ⟨rfl, rfl⟩
      · have hlt : id < m.slots.size := line.size_slots ▸ (List.getElem?_eq_some_iff.1 hid).1
        rw [Model.operandAt_push hlt]
        exact ih.fits id q hid
      · rw [← line.size_slots]
        exact fits_of_constant plain Model.slot_operandAt_push
  | @unknown m values unit c location line definition ih =>
    rw [Model.operandConstraints, Array.toList_push, List.map_append,
      Model.map_operandAt_push line.closed, List.map_singleton, Categories.pass_concat]
    exact ih.visit line definition rfl

/-- The units of a straight line, as an assignment to its unknowns. -/
def evaluated (m : Model) (values : List Qualifier) : Assignment :=
  SortedMap.ofList (m.unknowns.map fun v => (v.1, values[v.1]?.getD .top))

theorem plainUnitIn_evaluated (h : m.StraightLine values) (id : SlotId) (unit : Qualifier)
    (hid : values[id]? = some unit) :
    (m.operandAt id).plainUnitIn (evaluated m values) = unit := by
  rcases h.slot_cases hid with hconstant | ⟨c, hc⟩
  · exact h.plainUnitIn_of_constant hid hconstant
  · obtain ⟨location, hslot⟩ := hc.unknown
    have hmem : id ∈ m.unknownIds := Model.mem_unknownIds_iff.2 ⟨location, hslot⟩
    rw [Operand.plainUnitIn_of_unknown (Model.operandAt_slot_eq_unknown_iff.2 hslot), evaluated]
    simp [Model.operandAt, m.get?_ofList_unknowns fun id => values[id]?.getD .top, hmem, hid]

theorem inRange_evaluated (h : m.StraightLine values) :
    ∀ c ∈ m.operandConstraints, (c.map (Operand.plainUnitIn (evaluated m values))).InRange := by
  intro _ hmem
  obtain ⟨c, hc, rfl⟩ := List.mem_map.1 hmem
  obtain ⟨id, unit, hdefined⟩ := h.exists_definedBy hc
  rw [Constraint.map_map]
  refine hdefined.definition.inRange fun a p ha => ?_
  exact plainUnitIn_evaluated h a p (Model.getElem?_take_eq_some_iff.1 ha).2

theorem holds_evaluated (h : m.StraightLine values) :
    ∀ c ∈ m.operandConstraints, (c.map (Operand.plainUnitIn (evaluated m values))).Holds :=
  h.holds_iff.2 (plainUnitIn_evaluated h)

/-- The categories of a straight line are those of its units. -/
theorem exact_categoriesOf (h : m.StraightLine values) : Exact (categoriesOf m) m values := by
  have hpass := exact_pass h
  have hfits : ∀ c ∈ m.operandConstraints, ∀ o ∈ c.slots,
      Fits ((Categories.pass m.operandConstraints SortedMap.empty).of o)
        (o.plainUnitIn (evaluated m values)) := by
    intro c hc o ho
    obtain ⟨id, hid, rfl⟩ := Model.exists_operandAt_of_mem_slots h.closed hc ho
    rw [h.size_slots] at hid
    have hvalue := List.getElem?_eq_getElem hid
    rw [plainUnitIn_evaluated h id _ hvalue]
    exact hpass.fits id _ hvalue
  have hsettled := Categories.pass_eq_self hfits (holds_evaluated h) (inRange_evaluated h)
  rw [categoriesOf, Categories.ofConstraints, Categories.iterate_eq_pass hsettled]
  exact hpass

theorem fits_evaluated (h : m.StraightLine values) : ∀ id ∈ m.unknownIds,
    Fits ((categoriesOf m).get? id) (((evaluated m values).get? id).getD .top) := by
  intro id hid
  obtain ⟨location, hslot⟩ := Model.mem_unknownIds_iff.1 hid
  have hlt : id < values.length := h.size_slots ▸ (Array.getElem?_eq_some_iff.1 hslot).1
  have hvalue := List.getElem?_eq_getElem hlt
  have hunknown := Model.operandAt_slot_eq_unknown_iff.2 hslot
  have hunit := plainUnitIn_evaluated h id _ hvalue
  have hfits := (exact_categoriesOf h).fits id _ hvalue
  rwa [← hunit, Categories.of_eq_get? hunknown, Operand.plainUnitIn_of_unknown hunknown] at hfits

/-- All constraints of a straight line are encoded. -/
theorem exists_encodeConstraint_of_straightLine (h : m.StraightLine values) :
    ∀ c ∈ m.operandConstraints, ∃ found, (categoriesOf m).encodeConstraint c = .ok (.ok found) := by
  intro c hc
  have hrespects : ∀ o ∈ c.slots,
      Respects (categoriesOf m) (Operand.plainUnitIn (evaluated m values)) o := by
    intro o ho
    obtain ⟨id, -, rfl⟩ := Model.exists_operandAt_of_mem_slots h.closed hc ho
    exact respects_operandAt (fits_evaluated h) id
  obtain ⟨c', hc', rfl⟩ := List.mem_map.1 hc
  obtain ⟨id, unit, hdefined⟩ := h.exists_definedBy hc'
  have hexact := (exact_categoriesOf h).fits
  have hfits : ∀ a p, (values.take id)[a]? = some p →
      Fits ((categoriesOf m).of (m.operandAt a)) p := fun a p ha =>
    hexact a p (Model.getElem?_take_eq_some_iff.1 ha).2
  exact exists_encodeConstraint_eq_ok hrespects
    (Categories.divisionError?_definition hdefined.definition hfits)
    (Categories.needsDisequality_definition hdefined.definition hfits
      (hexact id unit hdefined.value))
    (holds_evaluated h _ hc) (inRange_evaluated h _ hc)

end StraightLine

/-! ## Relations of a definition -/

/-- A relation fixes the integer of an operand by those of the others. -/
def Relation.Determines (r : Relation) (o : Operand) : Prop :=
  ∀ x y : Operand → ℤ, (∀ t ∈ r.terms, t.1 ≠ o → x t.1 = y t.1) →
    (r.terms.map fun t => t.2 * x t.1).sum = 0 → (r.terms.map fun t => t.2 * y t.1).sum = 0 →
      x o = y o

namespace Relation

variable {origin : Constraint SlotId} {a b : Operand}

theorem determines_equal_left (h : b ≠ a) : (equal origin a b).Determines a := by
  intro x y hxy hx hy
  have hb : x b = y b := hxy (b, -1) (by simp [equal]) h
  simp only [equal, List.map_cons, List.map_nil, List.sum_cons, List.sum_nil] at hx hy
  omega

theorem determines_equal_right (h : a ≠ b) : (equal origin a b).Determines b := by
  intro x y hxy hx hy
  have ha : x a = y a := hxy (a, 1) (by simp [equal]) h
  simp only [equal, List.map_cons, List.map_nil, List.sum_cons, List.sum_nil] at hx hy
  omega

end Relation

namespace Categories

variable {k : Categories} {origin : Constraint SlotId} {a b lhs rhs result : Operand}
variable {found : List Relation}

theorem exists_determines_of_same (ha : k.of a = none) (hne : b ≠ a)
    (h : k.same origin a b = .ok found) : ∃ r ∈ found, r.Determines a := by
  rw [same, ha] at h
  cases hb : k.of b with
  | none =>
    rw [hb] at h
    cases h
    exact ⟨_, List.mem_singleton_self _, Relation.determines_equal_left hne⟩
  | some category => simp [hb] at h

theorem require_ne_ok (ha : k.of a = none) {category : Category} :
    k.require a category ≠ .ok found := by
  simp [require, ha]

theorem exists_determines_of_arithmetic {sign : ℤ} (hresult : k.of result = none)
    (hl : lhs ≠ result) (hr : rhs ≠ result)
    (h : k.arithmetic origin lhs rhs result sign = .ok found) :
    ∃ r ∈ found, r.Determines result := by
  unfold arithmetic at h
  split at h
  · exact absurd h (require_ne_ok hresult)
  · split at h
    · exact absurd h (require_ne_ok hresult)
    · rw [hresult] at h
      cases h
      refine ⟨_, List.mem_singleton_self _, fun x y hxy hx hy => ?_⟩
      have hlhs : x lhs = y lhs := hxy (lhs, -1) (by simp) hl
      have hrhs : x rhs = y rhs := hxy (rhs, sign) (by simp) hr
      simp only [List.map_cons, List.map_nil, List.sum_cons, List.sum_nil] at hx hy
      rw [hlhs, hrhs] at hx
      omega

theorem exists_determines_of_join (hresult : k.of result = none)
    (hl : lhs ≠ result) (hr : rhs ≠ result)
    (h : k.relations (.join lhs rhs result) = .ok found) : ∃ r ∈ found, r.Determines result := by
  simp only [relations] at h
  split at h
  · exact absurd h (require_ne_ok hresult)
  · split at h
    · exact exists_determines_of_same hresult hr h
    · split at h
      · exact exists_determines_of_same hresult hl h
      · rw [joinConcrete, hresult] at h
        cases h
        exact ⟨_, List.mem_cons_of_mem _ (List.mem_singleton_self _),
          Relation.determines_equal_right hr⟩

/-- A definition of a slot without a category has a relation that fixes it. -/
theorem exists_determines {values : List Qualifier} {result : SlotId} {c : Constraint SlotId}
    {unit : Qualifier} {operand : SlotId → Operand} (h : c.Defines values result unit)
    (hne : ∀ a < values.length, operand a ≠ operand result)
    (hresult : k.of (operand result) = none)
    (hfound : k.relations (c.map operand) = .ok found) :
    ∃ r ∈ found, r.Determines (operand result) := by
  have hne' : ∀ {a : SlotId} {p : Qualifier}, values[a]? = some p → operand a ≠ operand result :=
    fun ha => hne _ (List.getElem?_eq_some_iff.1 ha).1
  cases h with
  | join left right =>
    exact exists_determines_of_join hresult (hne' left) (hne' right) hfound
  | product left right | quotient left right =>
    exact exists_determines_of_arithmetic hresult (hne' left) (hne' right) hfound
  | equal left => exact exists_determines_of_same hresult (hne' left) hfound

end Categories

/-! ## One solution -/

section Unique

variable {m : Model} {values : List Qualifier} {relations : List Relation}

/-- The unknowns of relations are unknown slots without a category. -/
theorem Related.slot_of_mem_unknownsOf (h : Related m relations) {id : SlotId}
    (hid : id ∈ unknownsOf relations) : id < m.slots.size ∧
      (categoriesOf m).of (m.operandAt id) = none ∧
        ∃ location, (m.operandAt id).slot = .unknown location := by
  obtain ⟨r, hr, t, ht, rfl, location, hslot⟩ := exists_of_mem_unknownsOf hid
  obtain ⟨id, hlt, hoperand, hnone⟩ := h.operand_of_mem hr ht
  rw [hoperand] at hslot hnone ⊢
  exact ⟨hlt, hnone, location, hslot⟩

/-- Along the line, two solutions give every unknown the same integer. -/
theorem operandValue_unique (h : m.StraightLine values) (hrelated : Related m relations)
    {c : Component} {x y : ℕ → ℤ}
    (hx : ∀ r ∈ relations, (r.equation (unknownsOf relations) c).Holds x)
    (hy : ∀ r ∈ relations, (r.equation (unknownsOf relations) c).Holds y) :
    ∀ id ∈ unknownsOf relations,
      Relation.operandValue (unknownsOf relations) c x (m.operandAt id) =
        Relation.operandValue (unknownsOf relations) c y (m.operandAt id) := by
  intro id
  induction id using Nat.strongRecOn with
  | ind id ih =>
    intro hid
    obtain ⟨hlt, hnone, location, hslot⟩ := hrelated.slot_of_mem_unknownsOf hid
    rw [h.size_slots] at hlt
    rcases h.slot_cases (List.getElem?_eq_getElem hlt) with hconstant | ⟨c', hc'⟩
    · cases hconstant.symm.trans (Model.operandAt_slot_eq_unknown_iff.1 hslot)
    -- the definition of the slot has a relation whose other operands stand before it
    have hbefore : ∀ a < (values.take id).length, a < id := by
      intro a ha
      rw [List.length_take] at ha
      exact Nat.lt_of_lt_of_le ha (Nat.min_le_left _ _)
    obtain ⟨found, hfound, hsub⟩ := hrelated.exists_relations _ (List.mem_map_of_mem hc'.mem)
    obtain ⟨r, hr, hdetermines⟩ := Categories.exists_determines hc'.definition
      (fun a ha heq => Nat.ne_of_lt (hbefore a ha) (congrArg Operand.id heq)) hnone hfound
    refine hdetermines _ _ (fun t ht hne => ?_) (Relation.equation_holds_iff.1 (hx r (hsub r hr)))
      (Relation.equation_holds_iff.1 (hy r (hsub r hr)))
    obtain ⟨hmem, -⟩ := Categories.plain_of_relations_eq_ok hfound r hr t ht
    rw [Constraint.slots_map] at hmem
    obtain ⟨a, ha, hoperand⟩ := List.mem_map.1 hmem
    rcases hc'.definition.cases_of_mem_slots ha with rfl | ha
    · exact absurd hoperand.symm hne
    cases hterm : t.1.slot with
    | constant q => simp only [Relation.operandValue, hterm]
    | unknown location =>
      have hunknown := mem_unknownsOf (hsub r hr) ht hterm
      rw [← hoperand] at hunknown ⊢
      exact ih a (hbefore a ha) hunknown

/-- The equations of a straight line have one solution. -/
theorem solution_unique (h : m.StraightLine values) (hrelated : Related m relations)
    {c : Component} {x y : ℕ → ℤ}
    (hx : ∀ r ∈ relations, (r.equation (unknownsOf relations) c).Holds x)
    (hy : ∀ r ∈ relations, (r.equation (unknownsOf relations) c).Holds y) :
    ∀ i < (unknownsOf relations).length, x i = y i := by
  intro i hi
  have hmem := List.getElem_mem hi
  have hindex : (unknownsOf relations).idxOf? (m.operandAt (unknownsOf relations)[i]).id = some i :=
    idxOf?_getElem (unknownsOf_nodup relations) hi
  obtain ⟨-, -, location, hslot⟩ := hrelated.slot_of_mem_unknownsOf hmem
  have hvalues := operandValue_unique h hrelated hx hy _ hmem
  simpa only [Relation.operandValue, hslot, hindex] using hvalues

end Unique

/-! ## Evaluation -/

section Evaluation

variable {m : Model} {values : List Qualifier}

/-- A straight line is solved. -/
theorem exists_solve_of_straightLine (h : m.StraightLine values)
    (hlength : values.length < 2 ^ 63) : ∃ solved, solve .builtin m = .ok solved := by
  obtain ⟨relations, hrelated, hencoded⟩ :=
    exists_related h.closed (exists_encodeConstraint_of_straightLine h)
  have hholds := (hrelated.holds_iff (fits_evaluated h)).1 (holds_evaluated h)
  have hsize := h.size_slots
  have hconstraints := h.size_constraints_le
  refine exists_solve_eq_ok hrelated hencoded hholds (by omega) (by omega) fun c _ y hy => ?_
  exact solution_unique h hrelated hy fun r hr =>
    (equation_holds_pointOf_iff hr).2 (hholds r hr c)

/-- What is found for a straight line is its units. -/
theorem get?_solution_of_straightLine (h : m.StraightLine values) {solved : Solved}
    (hsolve : solve .builtin m = .ok solved) :
    ∀ id ∈ m.unknownIds, ∃ unit, values[id]? = some unit ∧
      solved.solution.get? id = some unit := by
  obtain ⟨relations, found, hrelated, hagree, hdecoded, hsolution⟩ :=
    exists_assembled_of_solve_eq_ok hsolve
  have hcheck := Model.check_polyAsTop_eq_nil_iff.1 (check_assembled hrelated hagree hdecoded)
  rw [← hsolution] at hcheck
  intro id hid
  obtain ⟨location, hslot⟩ := Model.mem_unknownIds_iff.1 hid
  have hunknown := Model.operandAt_slot_eq_unknown_iff.2 hslot
  have hlt : id < values.length := h.size_slots ▸ (Array.getElem?_eq_some_iff.1 hslot).1
  have hvalue := List.getElem?_eq_getElem hlt
  have hget := get?_assembled relations found hslot
  rw [← hsolution] at hget
  -- a clean check leaves the units of the line only
  have hunit := h.holds_iff.1 (fun c hc => (hcheck.2 c hc).2) id _ hvalue
  rw [Operand.plainUnitIn_of_unknown hunknown, Model.operandAt, hget, Option.getD_some] at hunit
  exact ⟨_, hvalue, hunit ▸ hget⟩

/-- Under what is found for a straight line every slot has its unit. -/
theorem resolve_of_straightLine (h : m.StraightLine values) {solved : Solved}
    (hsolve : solve .builtin m = .ok solved) {id : SlotId} (hid : id < values.length) :
    m.resolve solved.solution id = .ok values[id]? := by
  have hvalue := List.getElem?_eq_getElem hid
  have hunit : (m.operandAt id).unit? solved.solution = values[id]? := by
    rcases h.slot_cases hvalue with hconstant | ⟨c, hc⟩
    · rw [Model.operandAt, hconstant, hvalue]
      rfl
    · obtain ⟨location, hslot⟩ := hc.unknown
      obtain ⟨unit, hunit, hget⟩ := get?_solution_of_straightLine h hsolve id
        (Model.mem_unknownIds_iff.2 ⟨location, hslot⟩)
      rw [Model.operandAt, hslot, hunit]
      exact hget
  rw [Model.resolve, Model.operand_eq_ok (h.size_slots ▸ hid), ← hunit]
  rfl

/-- A program that can be evaluated builds a model that is solved.  Every unknown gets its
evaluated unit, so that all slots of the program resolve to their evaluated units.  The bound is
that of the eliminator, which reads the number of equations, at most two for each slot, as a word
of 64 bits. -/
theorem solve_straightLine (program : List Instruction) (values : List Qualifier)
    (hlength : program.length < 2 ^ 63) (h : Run program values) :
    ∃ m solved, Model.empty.build (program.mapM Instruction.emit) =
        (.ok (List.range program.length), m) ∧
      solve .builtin m = .ok solved ∧
      solved.solution.keys = m.unknownIds ∧
      (∀ id ∈ m.unknownIds, ∃ unit, values[id]? = some unit ∧
        solved.solution.get? id = some unit) ∧
      ∀ id < program.length, m.resolve solved.solution id = .ok values[id]? := by
  obtain ⟨m, hbuild, hline⟩ := h.exists_straightLine
  obtain ⟨solved, hsolve⟩ := exists_solve_of_straightLine hline (h.length_eq ▸ hlength)
  obtain ⟨relations, found, -, -, -, hsolution⟩ := exists_assembled_of_solve_eq_ok hsolve
  exact ⟨m, solved, hbuild, hsolve, hsolution ▸ Encoding.keys_assemble,
    get?_solution_of_straightLine hline hsolve,
    fun id hid => resolve_of_straightLine hline hsolve (h.length_eq ▸ hid)⟩

end Evaluation

/-- A speed `m / s`, joined with the unit of `null` and multiplied by `s` again; the product of
`null` and a value of unknown units; a remainder, a comparison and a difference. -/
def speedProgram : List Instruction :=
  [.constant (.base "m"), .constant (.base "s"), .binary .div 0 1 "v", .literal .null "n",
    .binary .add 3 2 "w", .binary .mul 4 1 "d", .constant .top, .binary .mul 3 6 "t",
    .binary .rem 5 7 "r", .binary .lt 8 0 "b", .binary .sub 8 0 "e"]

/-- The monomial `m / s`. -/
def speedMonomial : Monomial := (Monomial.base "m").set "s" ((Exponent.ofInt? (-1)).getD 0)

/-- The units of the slots. -/
def speedValues : List Qualifier :=
  [.base "m", .base "s", .concrete speedMonomial, .bottom, .concrete speedMonomial, .base "m",
    .top, .top, .base "m", .dimensionless, .base "m"]

theorem run_speedProgram : Run speedProgram speedValues := by
  have hdiv : Qualifier.StaysInRange 1 (.base "m") (.base "s") :=
    (Qualifier.quotient_arithmetic.exists_concrete_iff _ _).1 ⟨speedMonomial, by decide +kernel⟩
  have hmul : Qualifier.StaysInRange (-1) (.concrete speedMonomial) (.base "s") :=
    (Qualifier.mul_arithmetic.exists_concrete_iff _ _).1 ⟨Monomial.base "m", by decide +kernel⟩
  have h₁ : Run (speedProgram.take 1) (speedValues.take 1) := .snoc .nil (.constant (by decide))
  have h₂ : Run (speedProgram.take 2) (speedValues.take 2) := .snoc h₁ (.constant (by decide))
  have h₃ : Run (speedProgram.take 3) (speedValues.take 3) :=
    .snoc h₂ (.binary rfl rfl hdiv (by decide +kernel))
  have h₄ : Run (speedProgram.take 4) (speedValues.take 4) := .snoc h₃ (.literal rfl)
  have h₅ : Run (speedProgram.take 5) (speedValues.take 5) :=
    .snoc h₄ (.binary rfl rfl (fun u v hu => by cases hu) rfl)
  have h₆ : Run (speedProgram.take 6) (speedValues.take 6) :=
    .snoc h₅ (.binary rfl rfl hmul (by decide +kernel))
  have h₇ : Run (speedProgram.take 7) (speedValues.take 7) := .snoc h₆ (.constant (by decide))
  have h₈ : Run (speedProgram.take 8) (speedValues.take 8) := .snoc h₇ (.binary rfl rfl trivial rfl)
  have h₉ : Run (speedProgram.take 9) (speedValues.take 9) := .snoc h₈ (.binary rfl rfl trivial rfl)
  have h₁₀ : Run (speedProgram.take 10) (speedValues.take 10) :=
    .snoc h₉ (.binary rfl rfl trivial rfl)
  exact .snoc h₁₀
    (.binary rfl rfl (fun u v hu hv => by cases hu; cases hv; rfl) (by decide +kernel))

/-- The speed, its product with the time, the remainder and the product with a value of unknown
units are found, and the comparison is a plain number. -/
theorem solve_straightLine_speed :
    Run speedProgram speedValues ∧ ∃ m solved,
      Model.empty.build (speedProgram.mapM Instruction.emit) = (.ok (List.range 11), m) ∧
      solve .builtin m = .ok solved ∧ solved.solution.keys = [2, 4, 5, 7, 8, 10] ∧
      solved.solution.get? 2 = some (.concrete speedMonomial) ∧
      solved.solution.get? 5 = some (.base "m") ∧ solved.solution.get? 7 = some .top ∧
      solved.solution.get? 8 = some (.base "m") ∧
      m.resolve solved.solution 9 = .ok (some .dimensionless) := by
  have hids : (Model.empty.build (speedProgram.mapM Instruction.emit)).2.unknownIds =
      [2, 4, 5, 7, 8, 10] := by
    decide +kernel
  obtain ⟨m, solved, hbuild, hsolve, hkeys, hunits, hresolve⟩ :=
    solve_straightLine speedProgram speedValues (by decide) run_speedProgram
  rw [hbuild] at hids
  have hget : ∀ id ∈ [2, 4, 5, 7, 8, 10], ∀ unit, speedValues[id]? = some unit →
      solved.solution.get? id = some unit := by
    intro id hid unit hunit
    obtain ⟨unit', hunit', hget⟩ := hunits id (hids ▸ hid)
    rw [hget, ← hunit', hunit]
  exact ⟨run_speedProgram, m, solved, hbuild, hsolve, hkeys.trans hids,
    hget 2 (by decide) _ rfl, hget 5 (by decide) _ rfl, hget 7 (by decide) _ rfl,
    hget 8 (by decide) _ rfl, hresolve 9 (by decide)⟩

end Linear
end Metrology
