import Metrology.Dimensions
import Metrology.Proofs.Smt.View

/-!
# Exactness of the formulas of a model

An assignment of units to the unknown slots gives every variable of a problem its value.  All
assertions about the form of slots hold there, and the formula of a constraint holds exactly if
the assignment does not violate the constraint and no product or quotient leaves the range of
exponents.
-/

namespace Metrology
namespace Smt

/-! ## Variables -/

theorem toList_varName (id : SlotId) (component : String) :
    (varName id component).toList = Nat.toDigits 10 id ++ '-' :: component.toList := by
  rw [← Numeral.toList_toString_nat, varName]
  simp only [String.toList_append, List.append_assoc]
  rfl

/-- A variable belongs to one slot and one component. -/
theorem varName_inj {a b : SlotId} {c d : String} (h : varName a c = varName b d) :
    a = b ∧ c = d := by
  have hsplit : ∀ (id : SlotId) (name : String),
      Text.splitFirst (· == '-') (varName id name).toList =
        some (Nat.toDigits 10 id, name.toList) := by
    intro id name
    rw [toList_varName]
    refine Text.splitFirst_append_cons (fun x hx => ?_) (by decide)
    have hdigit := Numeral.isDigit_of_mem_toDigits id hx
    have hne : x ≠ '-' := by
      rintro rfl
      exact absurd hdigit (by decide)
    simpa using hne
  have heq := (hsplit a c).symm.trans ((congrArg _ (congrArg String.toList h)).trans (hsplit b d))
  obtain ⟨hdigits, hname⟩ := Prod.mk.inj (Option.some.inj heq)
  refine ⟨?_, String.toList_inj.1 hname⟩
  have hread := congrArg Numeral.digits? hdigits
  rw [Numeral.digits?_toDigits, Numeral.digits?_toDigits] at hread
  exact Option.some.inj hread

/-! ## Valuations of assignments -/

namespace Valuation

/-- The valuation with one flag changed. -/
def setFlag (v : Valuation) (name : String) (b : Bool) : Valuation :=
  { v with flag := fun other => if other = name then b else v.flag other }

/-- The valuation with one integer changed. -/
def setInt (v : Valuation) (name : String) (n : Int) : Valuation :=
  { v with int := fun other => if other = name then n else v.int other }

/-- Gives the variables of a slot the flags and integers of its unit. -/
def bind (components : List Component) (v : Valuation) (slot : SlotId × Qualifier) : Valuation :=
  components.foldl (fun v c => v.setInt (varName slot.1 c.name) (c.valueIn slot.2))
    ((v.setFlag (varName slot.1 topMarker) (slot.2 = .top)).setFlag
      (varName slot.1 bottomMarker) (slot.2 = .bottom))

/-- The valuation of an assignment; other variables are false and zero. -/
def ofAssignment (components : List Component) (s : Assignment) : Valuation :=
  s.entries.foldl (bind components) ⟨fun _ => false, fun _ => 0⟩

section Bind

variable {components : List Component} {v : Valuation} {id : SlotId} {q : Qualifier}

theorem flag_foldl_setInt (name : String) :
    (components.foldl (fun v c => v.setInt (varName id c.name) (c.valueIn q)) v).flag name =
      v.flag name := by
  induction components generalizing v with
  | nil => rfl
  | cons c rest ih =>
    rw [List.foldl_cons, ih]
    rfl

theorem int_foldl_setInt_of_ne {name : String}
    (h : ∀ c ∈ components, varName id c.name ≠ name) :
    (components.foldl (fun v c => v.setInt (varName id c.name) (c.valueIn q)) v).int name =
      v.int name := by
  induction components generalizing v with
  | nil => rfl
  | cons c rest ih =>
    obtain ⟨hc, hrest⟩ := List.forall_mem_cons.1 h
    rw [List.foldl_cons, ih hrest]
    exact if_neg (Ne.symm hc)

/-- Where components have different names, each integer is that of its component. -/
theorem int_foldl_setInt_of_mem {c : Component} (hc : c ∈ components)
    (h : ∀ c' ∈ components, c'.name = c.name → c' = c) :
    (components.foldl (fun v c => v.setInt (varName id c.name) (c.valueIn q)) v).int
      (varName id c.name) = c.valueIn q := by
  induction components generalizing v with
  | nil => cases hc
  | cons d rest ih =>
    obtain ⟨hd, hrest⟩ := List.forall_mem_cons.1 h
    rw [List.foldl_cons]
    by_cases hmem : c ∈ rest
    · exact ih hmem hrest
    · have hcd : c = d := (List.mem_cons.1 hc).resolve_right hmem
      subst hcd
      rw [int_foldl_setInt_of_ne]
      · exact if_pos rfl
      · intro c' hc' hname
        exact hmem (hrest c' hc' (varName_inj hname).2 ▸ hc')

theorem flag_bind_of_ne {id' : SlotId} (h : id' ≠ id) (name : String) :
    (bind components v (id, q)).flag (varName id' name) = v.flag (varName id' name) := by
  rw [bind, flag_foldl_setInt]
  have hne : ∀ marker, varName id' name ≠ varName id marker := fun marker heq =>
    h (varName_inj heq).1
  simp [setFlag, hne]

theorem int_bind_of_ne {id' : SlotId} (h : id' ≠ id) (name : String) :
    (bind components v (id, q)).int (varName id' name) = v.int (varName id' name) := by
  rw [bind, int_foldl_setInt_of_ne fun c _ heq => h (varName_inj heq).1.symm]
  rfl

theorem flag_bind_top :
    (bind components v (id, q)).flag (varName id topMarker) = decide (q = .top) := by
  have hne : varName id topMarker ≠ varName id bottomMarker := fun heq =>
    absurd (varName_inj heq).2 (by decide)
  rw [bind, flag_foldl_setInt]
  simp [setFlag, hne]

theorem flag_bind_bottom :
    (bind components v (id, q)).flag (varName id bottomMarker) = decide (q = .bottom) := by
  rw [bind, flag_foldl_setInt]
  simp [setFlag]

end Bind

/-- What slots that come later in an assignment do not change. -/
theorem foldl_bind_of_ne {components : List Component} {entries : List (SlotId × Qualifier)}
    {id : SlotId} (h : ∀ e ∈ entries, id ≠ e.1) (v : Valuation) (name : String) :
    (entries.foldl (bind components) v).flag (varName id name) = v.flag (varName id name) ∧
      (entries.foldl (bind components) v).int (varName id name) = v.int (varName id name) := by
  induction entries generalizing v with
  | nil => exact ⟨rfl, rfl⟩
  | cons e rest ih =>
    obtain ⟨he, hrest⟩ := List.forall_mem_cons.1 h
    obtain ⟨hflag, hint⟩ := ih hrest (bind components v e)
    rw [List.foldl_cons, hflag, hint]
    exact ⟨flag_bind_of_ne he name, int_bind_of_ne he name⟩

/-- The variables of an assigned slot have the flags and integers of its unit. -/
theorem exists_bind_of_mem (components : List Component) {entries : List (SlotId × Qualifier)}
    (hsorted : entries.Pairwise fun a b => a.1 < b.1) {e : SlotId × Qualifier} (he : e ∈ entries)
    (v : Valuation) :
    ∃ v', ∀ name,
      (entries.foldl (bind components) v).flag (varName e.1 name) =
          (bind components v' e).flag (varName e.1 name) ∧
        (entries.foldl (bind components) v).int (varName e.1 name) =
          (bind components v' e).int (varName e.1 name) := by
  induction entries generalizing v with
  | nil => cases he
  | cons d rest ih =>
    obtain ⟨hlt, hrest⟩ := List.pairwise_cons.1 hsorted
    rcases List.mem_cons.1 he with rfl | he
    -- slots are listed once, so no later binding touches the variables of this one
    · exact ⟨v, foldl_bind_of_ne (fun d hd => Nat.ne_of_lt (hlt d hd)) _⟩
    · exact ih hrest he (bind components v d)

end Valuation

/-! ## Views of operands -/

section Operands

variable {components : List Component} {s : Assignment}

/-- The view of an unknown shows the unit that is assigned to it. -/
theorem shows_ofUnknown
    (hnames : ∀ c ∈ components, ∀ c' ∈ components, c'.name = c.name → c' = c)
    {id : SlotId} {q : Qualifier} (hq : s.get? id = some q) (hover : q.Over components) :
    Shows (.ofAssignment components s) components (.ofUnknown components id) q := by
  obtain ⟨v, hv⟩ := Valuation.exists_bind_of_mem components s.sorted
    (SortedMap.get?_eq_some_iff.1 hq) ⟨fun _ => false, fun _ => 0⟩
  refine ⟨hover, ?_, ?_, ?_⟩
  · rw [View.ofUnknown, Formula.holds, Valuation.ofAssignment, (hv topMarker).1,
      Valuation.flag_bind_top, decide_eq_true_iff]
  · rw [View.ofUnknown, Formula.holds, Valuation.ofAssignment, (hv bottomMarker).1,
      Valuation.flag_bind_bottom, decide_eq_true_iff]
  · rw [View.ofUnknown, List.map_map]
    refine List.map_congr_left fun c hc => ?_
    change (Valuation.ofAssignment components s).int (varName id c.name) = c.valueIn q
    rw [Valuation.ofAssignment, (hv c.name).2, Valuation.bind]
    exact Valuation.int_foldl_setInt_of_mem hc (hnames c hc)

/-- The view of a constant shows it under every valuation. -/
theorem shows_ofQualifier (v : Valuation) {q : Qualifier} (hover : q.polyAsTop.Over components) :
    Shows v components (.ofQualifier components q) q.polyAsTop := by
  refine ⟨hover, ?_, ?_, ?_⟩
  · cases q <;> simp [View.ofQualifier, Qualifier.polyAsTop, Formula.holds]
  · cases q <;> simp [View.ofQualifier, Qualifier.polyAsTop, Formula.holds]
  · cases q <;>
      simp [View.ofQualifier, Qualifier.polyAsTop, Term.value, Component.valueIn,
        Function.comp_def]

/-- A view that shows a unit is well-formed. -/
theorem holds_wellFormed {v : Valuation} {view : View} {q : Qualifier}
    (h : Shows v components view q) : view.wellFormed.holds v = true := by
  rw [View.holds_wellFormed_iff, h.top, h.bottom]
  refine ⟨?_, fun hq t ht => ?_⟩
  · rintro ⟨rfl, hbottom⟩
    cases hbottom
  · have hmem : t.value v ∈ components.map fun c => c.valueIn q := by
      rw [← h.ints]
      exact List.mem_map_of_mem ht
    obtain ⟨c, -, hc⟩ := List.mem_map.1 hmem
    rw [← hc]
    rcases hq with rfl | rfl <;> rfl

end Operands

/-! ## Problems -/

theorem encodeConstraint_eq_ok_iff {components : List Component} {c : Constraint Operand}
    {f : Formula} :
    encodeConstraint components c = .ok f ↔
      divisionError? c = none ∧ f = View.formula (c.map (View.ofOperand components)) := by
  unfold encodeConstraint
  cases divisionError? c with
  | none => simp [eq_comm]
  | some e => simp

namespace Problem

variable {v : Valuation} {components : List Component} {p p' : Problem}

/-- Whether a valuation satisfies all assertions of a problem. -/
def Satisfied (v : Valuation) (p : Problem) : Prop := ∀ a ∈ p.hard, a.formula.holds v = true

theorem satisfied_assert_iff {label origin : String} {f : Formula} :
    (p.assert label origin f).Satisfied v ↔ p.Satisfied v ∧ f.holds v = true := by
  unfold assert
  split
  · rename_i htrue
    simp [htrue, Formula.holds]
  · simp [Satisfied, or_imp, forall_and]

theorem hard_foldl_declare {id : SlotId} :
    (components.foldl (fun p c => p.declare (varName id c.name) .int) p).hard = p.hard := by
  induction components generalizing p with
  | nil => rfl
  | cons c rest ih =>
    rw [List.foldl_cons, ih]
    rfl

theorem hard_prefer {f : Formula} {weight : Nat} : (p.prefer f weight).hard = p.hard := by
  unfold prefer
  split <;> rfl

theorem satisfied_addUnknown_iff {slot : SlotId × String} :
    (addUnknown components p slot).Satisfied v ↔
      p.Satisfied v ∧ (View.ofUnknown components slot.1).wellFormed.holds v = true := by
  rw [addUnknown, Satisfied, hard_prefer]
  refine satisfied_assert_iff.trans (and_congr_left fun _ => ?_)
  rw [Satisfied, hard_foldl_declare]
  rfl

theorem satisfied_foldl_addUnknown_iff {slots : List (SlotId × String)} :
    (slots.foldl (addUnknown components) p).Satisfied v ↔
      p.Satisfied v ∧
        ∀ slot ∈ slots, (View.ofUnknown components slot.1).wellFormed.holds v = true := by
  induction slots generalizing p with
  | nil => simp
  | cons slot rest ih =>
    rw [List.foldl_cons, ih, satisfied_addUnknown_iff, List.forall_mem_cons, and_assoc]

/-- The assertions of constraints are their formulas. -/
theorem foldlM_addConstraint_eq_ok {constraints : List (Constraint Operand × Nat)}
    (h : constraints.foldlM (addConstraint components) p = .ok p') :
    (∀ c ∈ constraints, ∃ f, encodeConstraint components c.1 = .ok f) ∧
      (p'.Satisfied v ↔ p.Satisfied v ∧
        ∀ c ∈ constraints, ∀ f, encodeConstraint components c.1 = .ok f → f.holds v = true) := by
  induction constraints generalizing p with
  | nil =>
    cases h
    simp
  | cons c rest ih =>
    rw [List.foldlM_cons, bind_eq_ok_iff] at h
    obtain ⟨p₁, hc, hrest⟩ := h
    obtain ⟨f, hf, hp₁⟩ := bind_eq_ok_iff.1 hc
    cases hp₁
    obtain ⟨hexists, hiff⟩ := ih hrest
    refine ⟨List.forall_mem_cons.2 ⟨⟨f, hf⟩, hexists⟩, ?_⟩
    rw [hiff, satisfied_assert_iff, List.forall_mem_cons, and_assoc]
    simp [hf]

/-- The problem of a model is built from its operand constraints. -/
theorem foldlM_of_ofModel_eq_ok {m : Model} (h : ofModel m components = .ok p) :
    m.Closed ∧ m.operandConstraints.zipIdx.foldlM (addConstraint components)
      (m.unknowns.foldl (addUnknown components) empty) = .ok p := by
  obtain ⟨constraints, hconstraints, h⟩ := bind_eq_ok_iff.1 h
  have hlinked : m.linked = .ok constraints := by
    cases hm : m.linked with
    | ok found =>
      rw [hm] at hconstraints
      cases hconstraints
      rfl
    | error slot =>
      rw [hm] at hconstraints
      cases hconstraints
  obtain ⟨hclosed, rfl⟩ := Model.linked_eq_ok_iff.1 hlinked
  exact ⟨hclosed, h⟩

/-- The problem of a model asserts the form of its unknowns and its constraints. -/
theorem ofModel_eq_ok {m : Model} (h : ofModel m components = .ok p) :
    m.Closed ∧ (∀ c ∈ m.operandConstraints, ∃ f, encodeConstraint components c = .ok f) ∧
      (p.Satisfied v ↔
        (∀ id ∈ m.unknownIds, (View.ofUnknown components id).wellFormed.holds v = true) ∧
        ∀ c ∈ m.operandConstraints, ∀ f, encodeConstraint components c = .ok f →
          f.holds v = true) := by
  obtain ⟨hclosed, h⟩ := foldlM_of_ofModel_eq_ok h
  obtain ⟨hexists, hiff⟩ := foldlM_addConstraint_eq_ok (v := v) h
  have hall : ∀ P : Constraint Operand → Prop,
      (∀ c ∈ m.operandConstraints.zipIdx, P c.1) ↔ ∀ c ∈ m.operandConstraints, P c := by
    intro P
    rw [← List.forall_mem_map (f := Prod.fst), List.zipIdx_map_fst]
  refine ⟨hclosed, (hall fun c => ∃ f, encodeConstraint components c = .ok f).1 hexists, ?_⟩
  rw [hiff, satisfied_foldl_addUnknown_iff,
    hall fun c => ∀ f, encodeConstraint components c = .ok f → f.holds v = true, Model.unknownIds,
    List.forall_mem_map]
  simp [Satisfied, empty]

theorem exists_foldlM_addConstraint_eq_ok {constraints : List (Constraint Operand × Nat)}
    (h : ∀ c ∈ constraints, divisionError? c.1 = none) (p : Problem) :
    ∃ p', constraints.foldlM (addConstraint components) p = .ok p' := by
  induction constraints generalizing p with
  | nil => exact ⟨p, rfl⟩
  | cons c rest ih =>
    obtain ⟨hc, hrest⟩ := List.forall_mem_cons.1 h
    have hadd : ∃ p', addConstraint components p c = .ok p' :=
      ⟨_, bind_eq_ok_iff.2 ⟨_, encodeConstraint_eq_ok_iff.2 ⟨hc, rfl⟩, rfl⟩⟩
    obtain ⟨p₁, hp₁⟩ := hadd
    obtain ⟨p', hp'⟩ := ih hrest p₁
    refine ⟨p', ?_⟩
    rw [List.foldlM_cons, hp₁]
    exact hp'

/-- A model has a problem exactly if no constraint names a foreign slot or divides by the
uninhabited constant. -/
theorem exists_ofModel_eq_ok_iff {m : Model} :
    (∃ p, ofModel m components = .ok p) ↔
      m.Closed ∧ ∀ c ∈ m.operandConstraints, divisionError? c = none := by
  constructor
  · rintro ⟨p, hp⟩
    obtain ⟨hclosed, hencode, -⟩ := ofModel_eq_ok (v := ⟨fun _ => false, fun _ => 0⟩) hp
    refine ⟨hclosed, fun c hc => ?_⟩
    obtain ⟨f, hf⟩ := hencode c hc
    exact (encodeConstraint_eq_ok_iff.1 hf).1
  · rintro ⟨hclosed, hdiv⟩
    rw [ofModel, Model.linked_eq_ok hclosed]
    refine exists_foldlM_addConstraint_eq_ok (fun c hc => ?_) _
    exact hdiv c.1 (List.fst_mem_of_mem_zipIdx hc)

end Problem

/-! ## Exactness -/

section Exact

variable {m : Model} {s : Assignment}

/-- Valid dimension names keep the components of a model apart. -/
theorem components_name_inj (h : ∀ d ∈ m.usedDimensions, Dimensions.ValidName d) :
    ∀ c ∈ m.components, ∀ c' ∈ m.components, c'.name = c.name → c' = c := by
  have hvalid : ∀ d, Component.dimension d ∈ m.components → d ≠ Component.power.name := by
    intro d hd heq
    obtain ⟨d', hd', hdim⟩ := List.mem_map.1 ((List.mem_cons.1 hd).resolve_left (by simp))
    cases hdim
    exact (h d hd').2 (heq ▸ by decide)
  intro c hc c' hc' hname
  cases c with
  | power =>
    cases c' with
    | power => rfl
    | dimension d' => exact absurd hname (hvalid d' hc')
  | dimension d =>
    cases c' with
    | power => exact absurd hname.symm (hvalid d hc)
    | dimension d' => exact congrArg _ hname

/-- The view of a constant operand shows its unit under every valuation. -/
theorem shows_ofOperand_of_constant {id : SlotId} (hid : id < m.slots.size) {q : Qualifier}
    (hslot : (m.operandAt id).slot = .constant q) (v : Valuation) :
    Shows v m.components (.ofOperand m.components (m.operandAt id))
      ((m.operandAt id).plainUnitIn s) := by
  have hget := Model.getElem?_of_operandAt_slot_eq_constant hid hslot
  rw [View.ofOperand, hslot, Operand.plainUnitIn_of_constant hslot]
  refine shows_ofQualifier v ?_
  cases q with
  | top | bottom | poly => trivial
  | concrete unit =>
    intro c hc
    exact Model.valueIn_constant_eq_zero hc hget

/-- The view of an operand shows its unit if the views of all unknowns do. -/
theorem shows_ofOperand_of_unknowns {v : Valuation}
    (hs : ∀ id ∈ m.unknownIds, ∃ unit, s.get? id = some unit ∧
      Shows v m.components (.ofUnknown m.components id) unit)
    {id : SlotId} (hid : id < m.slots.size) :
    Shows v m.components (.ofOperand m.components (m.operandAt id))
      ((m.operandAt id).plainUnitIn s) := by
  cases hslot : (m.operandAt id).slot with
  | constant q => exact shows_ofOperand_of_constant hid hslot v
  | unknown location =>
    have hget := Model.operandAt_slot_eq_unknown_iff.1 hslot
    obtain ⟨unit, hunit, hshows⟩ := hs id (Model.mem_unknownIds_iff.2 ⟨location, hget⟩)
    have hid' : (m.operandAt id).id = id := rfl
    rw [View.ofOperand, hslot, Operand.plainUnitIn_of_unknown hslot, hid', hunit]
    exact hshows

/-- The view of an operand shows its unit under the valuation of an assignment. -/
theorem shows_ofOperand (hnames : ∀ d ∈ m.usedDimensions, Dimensions.ValidName d)
    (hs : ∀ id ∈ m.unknownIds, ∃ unit, s.get? id = some unit ∧ unit.Over m.components)
    {id : SlotId} (hid : id < m.slots.size) :
    Shows (.ofAssignment m.components s) m.components
      (.ofOperand m.components (m.operandAt id)) ((m.operandAt id).plainUnitIn s) := by
  refine shows_ofOperand_of_unknowns (fun id hid => ?_) hid
  obtain ⟨unit, hunit, hover⟩ := hs id hid
  exact ⟨unit, hunit, shows_ofUnknown (components_name_inj hnames) hunit hover⟩

/-- The formula of a constraint says that the constraint is not violated and stays in range. -/
theorem holds_encodeConstraint_iff (hnames : ∀ d ∈ m.usedDimensions, Dimensions.ValidName d)
    (hs : ∀ id ∈ m.unknownIds, ∃ unit, s.get? id = some unit ∧ unit.Over m.components)
    (hclosed : m.Closed) {c : Constraint Operand} (hc : c ∈ m.operandConstraints) {f : Formula}
    (hf : encodeConstraint m.components c = .ok f) :
    f.holds (.ofAssignment m.components s) = true ↔
      (c.map Operand.polyAsTop).fault? s = none ∧ (c.map (Operand.plainUnitIn s)).InRange := by
  have hslot : ∀ o ∈ c.slots, ∃ id < m.slots.size, o = m.operandAt id := fun o ho =>
    Model.exists_operandAt_of_mem_slots hclosed hc ho
  have hassigned : ∀ o ∈ c.slots, (o.polyAsTop.unit? s).isSome := by
    intro o ho
    obtain ⟨id, -, rfl⟩ := hslot o ho
    refine Model.isSome_unit?_polyAsTop (fun id hid => ?_) id
    obtain ⟨unit, hunit, -⟩ := hs id hid
    rw [hunit, Option.isSome_some]
  have hformula : f = View.formula (c.map (View.ofOperand m.components)) := by
    unfold encodeConstraint at hf
    split at hf
    · cases hf
    · exact (Except.ok.inj hf).symm
  rw [hformula, Constraint.fault?_polyAsTop_eq_none_iff, and_iff_right hassigned]
  have hshows : ∀ o ∈ c.slots, Shows (.ofAssignment m.components s) m.components
      (.ofOperand m.components o) (o.plainUnitIn s) := by
    intro o ho
    obtain ⟨id, hid, rfl⟩ := hslot o ho
    exact shows_ofOperand hnames hs hid
  exact View.holds_formula_iff hshows

/-- A valuation that shows the units of an assignment satisfies a problem exactly if a check
reports nothing and all constraints stay in range. -/
theorem Problem.satisfied_iff_of_shows {v : Valuation} {p : Problem}
    (hp : Problem.ofModel m m.components = .ok p)
    (hs : ∀ id ∈ m.unknownIds, ∃ unit, s.get? id = some unit ∧
      Shows v m.components (.ofUnknown m.components id) unit) :
    p.Satisfied v ↔ m.polyAsTop.check s = .ok [] ∧
      ∀ c ∈ m.operandConstraints, (c.map (Operand.plainUnitIn s)).InRange := by
  obtain ⟨hclosed, hencode, hsatisfied⟩ := Problem.ofModel_eq_ok (v := v) hp
  have hwf : ∀ id ∈ m.unknownIds,
      (View.ofUnknown m.components id).wellFormed.holds v = true := by
    intro id hid
    obtain ⟨unit, -, hshows⟩ := hs id hid
    exact holds_wellFormed hshows
  have hassigned : ∀ id ∈ m.unknownIds, (s.get? id).isSome := by
    intro id hid
    obtain ⟨unit, hunit, -⟩ := hs id hid
    rw [hunit, Option.isSome_some]
  rw [hsatisfied, and_iff_right hwf, Model.check_polyAsTop_eq_nil_iff, and_iff_right hclosed,
    ← forall₂_and]
  refine forall₂_congr fun c hc => ?_
  have hslot : ∀ o ∈ c.slots, ∃ id < m.slots.size, o = m.operandAt id := fun o ho =>
    Model.exists_operandAt_of_mem_slots hclosed hc ho
  have hunits : ∀ o ∈ c.slots, (o.polyAsTop.unit? s).isSome := by
    intro o ho
    obtain ⟨id, -, rfl⟩ := hslot o ho
    exact Model.isSome_unit?_polyAsTop hassigned id
  have hshows : ∀ o ∈ c.slots,
      Shows v m.components (.ofOperand m.components o) (o.plainUnitIn s) := by
    intro o ho
    obtain ⟨id, hid, rfl⟩ := hslot o ho
    exact shows_ofOperand_of_unknowns hs hid
  obtain ⟨f, hf⟩ := hencode c hc
  obtain ⟨hdiv, rfl⟩ := encodeConstraint_eq_ok_iff.1 hf
  rw [and_iff_right hunits, ← View.holds_formula_iff hshows]
  simp [encodeConstraint_eq_ok_iff, hdiv]

end Exact

/-- Under the valuation of an assignment, every unknown is well-formed, and the formula of a
constraint holds exactly if a check does not report the constraint and the constraint stays in
range.  Hence all assertions hold exactly if a check reports nothing and all constraints stay in
range. -/
theorem encoding_exact (m : Model) (p : Problem) (s : Assignment)
    (hnames : ∀ d ∈ m.usedDimensions, Dimensions.ValidName d)
    (hp : Problem.ofModel m m.components = .ok p)
    (hs : ∀ id ∈ m.unknownIds, ∃ unit, s.get? id = some unit ∧ unit.Over m.components) :
    ∃ violations, m.polyAsTop.check s = .ok violations ∧
      (∀ id ∈ m.unknownIds, (View.ofUnknown m.components id).wellFormed.holds
        (.ofAssignment m.components s) = true) ∧
      (∀ c ∈ m.operandConstraints, ∃ f, encodeConstraint m.components c = .ok f ∧
        (f.holds (.ofAssignment m.components s) = true ↔
          (∀ fault, ⟨c.map Operand.id, fault⟩ ∉ violations) ∧
            (c.map (Operand.plainUnitIn s)).InRange)) ∧
      (p.Satisfied (.ofAssignment m.components s) ↔
        m.polyAsTop.check s = .ok [] ∧
          ∀ c ∈ m.operandConstraints, (c.map (Operand.plainUnitIn s)).InRange) := by
  obtain ⟨hclosed, hencode, hsatisfied⟩ :=
    Problem.ofModel_eq_ok (v := .ofAssignment m.components s) hp
  obtain ⟨violations, hcheck, hviolations⟩ := Model.exists_check_polyAsTop hclosed s
  have hwf : ∀ id ∈ m.unknownIds, (View.ofUnknown m.components id).wellFormed.holds
      (.ofAssignment m.components s) = true := by
    intro id hid
    obtain ⟨unit, hunit, hover⟩ := hs id hid
    exact holds_wellFormed (shows_ofUnknown (components_name_inj hnames) hunit hover)
  have hformula : ∀ c ∈ m.operandConstraints, ∀ f, encodeConstraint m.components c = .ok f →
      (f.holds (.ofAssignment m.components s) = true ↔
        (∀ fault, ⟨c.map Operand.id, fault⟩ ∉ violations) ∧
          (c.map (Operand.plainUnitIn s)).InRange) := by
    intro c hc f hf
    rw [hviolations c hc]
    exact holds_encodeConstraint_iff hnames hs hclosed hc hf
  refine ⟨violations, hcheck, hwf, fun c hc => ?_, ?_⟩
  · obtain ⟨f, hf⟩ := hencode c hc
    exact ⟨f, hf, hformula c hc f hf⟩
  · rw [hsatisfied, and_iff_right hwf, Model.check_eq_nil_iff, Model.closed_polyAsTop,
      Model.operandConstraints_polyAsTop, List.forall_mem_map, and_iff_right hclosed,
      ← forall₂_and]
    refine forall₂_congr fun c hc => ?_
    obtain ⟨f, hf⟩ := hencode c hc
    rw [← hviolations c hc, ← hformula c hc f hf]
    constructor
    · intro h
      exact h f hf
    · intro h f' hf'
      rwa [← Except.ok.inj (hf.symm.trans hf')]

/-- A product of two unknowns next to the constant `m`. -/
def productModel : Model where
  slots := #[.unknown "x", .unknown "y", .unknown "r",
    .constant (.concrete (Monomial.one.set "m" 1))]
  constraints := #[.product 0 1 2]

/-- The largest power of `m`. -/
def largestPower : Monomial := Monomial.one.set "m" ((Exponent.ofInt? 2147483647).getD 0)

/-- A product that would leave the range of exponents, with the top as its result. -/
def overflowAssignment : Assignment :=
  SortedMap.ofList
    [(0, .concrete largestPower), (1, .concrete (Monomial.one.set "m" 1)), (2, .top)]

theorem over_productModel (e : Exponent) :
    (Qualifier.concrete (Monomial.one.set "m" e)).Over productModel.components := by
  intro c hc
  have hcomponents : productModel.components = [.power, .dimension "m"] := by decide +kernel
  rw [hcomponents] at hc
  cases c with
  | power => exact absurd List.mem_cons_self hc
  | dimension d =>
    have hd : d ≠ "m" := by
      rintro rfl
      exact hc (by simp)
    rw [Component.valueOf, Monomial.exponent_set, if_neg hd, Monomial.exponent_one,
      Exponent.val_zero]

/-- A check accepts the overflow, and the assertions do not. -/
theorem encoding_exact_overflow :
    (∀ d ∈ productModel.usedDimensions, Dimensions.ValidName d) ∧
    (∀ id ∈ productModel.unknownIds, ∃ unit,
      overflowAssignment.get? id = some unit ∧ unit.Over productModel.components) ∧
    ∃ p, Problem.ofModel productModel productModel.components = .ok p ∧
      productModel.polyAsTop.check overflowAssignment = .ok [] ∧
      ¬p.Satisfied (.ofAssignment productModel.components overflowAssignment) := by
  have hnames : ∀ d ∈ productModel.usedDimensions, Dimensions.ValidName d := by decide +kernel
  have hids : productModel.unknownIds = [0, 1, 2] := by decide +kernel
  have hs : ∀ id ∈ productModel.unknownIds, ∃ unit,
      overflowAssignment.get? id = some unit ∧ unit.Over productModel.components := by
    simp only [hids, List.mem_cons, List.not_mem_nil, or_false, forall_eq_or_imp, forall_eq]
    exact ⟨⟨.concrete largestPower, by decide +kernel, over_productModel _⟩,
      ⟨.concrete (Monomial.one.set "m" 1), by decide +kernel, over_productModel _⟩,
      ⟨.top, by decide +kernel, trivial⟩⟩
  have hproblem : (Problem.ofModel productModel productModel.components).toBool = true := by
    decide +kernel
  cases hp : Problem.ofModel productModel productModel.components with
  | error failure =>
    rw [hp] at hproblem
    cases hproblem
  | ok p =>
    obtain ⟨violations, -, -, -, hiff⟩ := encoding_exact _ p _ hnames hp hs
    refine ⟨hnames, hs, p, rfl, by decide +kernel, fun hsatisfied => ?_⟩
    have hrange := (hiff.1 hsatisfied).2 _ (List.mem_map_of_mem (List.mem_singleton_self _))
    have hunits : ((Constraint.product 0 1 2).map productModel.operandAt).map
        (Operand.plainUnitIn overflowAssignment) =
          .product (.concrete largestPower) (.concrete (Monomial.one.set "m" 1)) .top := by
      decide +kernel
    rw [hunits] at hrange
    exact absurd (hrange (.dimension "m")) (by decide +kernel)

end Smt
end Metrology
