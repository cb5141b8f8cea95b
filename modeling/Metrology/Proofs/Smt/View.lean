import Metrology.Smt.Encoding
import Metrology.Proofs.Qualifier
import Metrology.Proofs.Smt.Formula
import Metrology.Proofs.Text

/-!
# Views of units

A view shows a qualifier under a valuation if its flags and integers are the qualifier's own.
The formula of a constraint between views holds exactly if the constraint holds between the
qualifiers that they show and no product or quotient leaves the range of exponents.
-/

namespace Metrology

/-- A qualifier is a special one that is not polymorphic, or a concrete unit over some
components. -/
def Qualifier.Over (components : List Component) : Qualifier → Prop
  | .top | .bottom => True
  | .poly => False
  | .concrete unit => ∀ c : Component, c ∉ components → (c.valueOf unit).val = 0

namespace Smt

/-- The flags and integers of a view are those of a qualifier. -/
structure Shows (v : Valuation) (components : List Component) (view : View) (q : Qualifier) :
    Prop where
  covered : q.Over components
  top : view.top.holds v = true ↔ q = .top
  bottom : view.bottom.holds v = true ↔ q = .bottom
  ints : view.components.map (Term.value v) = components.map fun c => c.valueIn q

namespace View

open Formula

variable {v : Valuation} {components : List Component}

/-! ## Parts of formulas -/

theorem all_holds_equate {as bs : List Term} (h : as.length = bs.length) :
    (List.zipWith equate as bs).all (holds v) = true ↔
      as.map (Term.value v) = bs.map (Term.value v) := by
  induction as generalizing bs with
  | nil =>
    cases bs with
    | nil => simp
    | cons b bs => simp at h
  | cons a as ih =>
    cases bs with
    | nil => simp at h
    | cons b bs =>
      have hlength : as.length = bs.length := by simpa using h
      simp [ih hlength]

section Integers

variable {l r result : View} {x y z : Component → Int}

theorem length_eq_of_map_value (h : l.components.map (Term.value v) = components.map x) :
    l.components.length = components.length := by
  simpa using congrArg List.length h

/-- Two views are the same if they have the same flags and integers. -/
theorem holds_same_iff_of_map_value (hl : l.components.map (Term.value v) = components.map x)
    (hr : r.components.map (Term.value v) = components.map y) :
    (same l r).holds v = true ↔
      l.top.holds v = r.top.holds v ∧ l.bottom.holds v = r.bottom.holds v ∧
        ∀ c ∈ components, x c = y c := by
  have hlength : l.components.length = r.components.length :=
    (length_eq_of_map_value hl).trans (length_eq_of_map_value hr).symm
  rw [same, holds_conj, List.all_cons, List.all_cons, Bool.and_eq_true, Bool.and_eq_true,
    holds_equiv, holds_equiv, all_holds_equate hlength, hl, hr, List.map_inj_left, beq_iff_eq,
    beq_iff_eq]

/-- The integers of a result are combined from those of its operands. -/
theorem holds_combined_iff_of_map_value {op : Term → Term → Term} {sign : Int}
    (hop : ∀ a b : Term, (op a b).value v = a.value v - sign * b.value v)
    (hl : l.components.map (Term.value v) = components.map x)
    (hr : r.components.map (Term.value v) = components.map y)
    (hresult : result.components.map (Term.value v) = components.map z) :
    (∀ f ∈ combined op l r result, f.holds v = true) ↔
      ∀ c ∈ components, z c = x c - sign * y c := by
  have hlength : result.components.length =
      (List.zipWith op l.components r.components).length := by
    rw [List.length_zipWith, length_eq_of_map_value hl, length_eq_of_map_value hr,
      length_eq_of_map_value hresult, Nat.min_self]
  have hvalue : (List.zipWith op l.components r.components).map (Term.value v) =
      components.map fun c => x c - sign * y c := by
    have hzip : (List.zipWith op l.components r.components).map (Term.value v) =
        List.zipWith (fun x y => x - sign * y) (l.components.map (Term.value v))
          (r.components.map (Term.value v)) := by
      simp [List.map_zipWith, List.zipWith_map, hop]
    rw [hzip, hl, hr, List.zipWith_map, List.zipWith_self]
  rw [← List.all_eq_true, combined, all_holds_equate hlength, hresult, hvalue, List.map_inj_left]

end Integers

/-- A well-formed view has at most one flag, and no component if it has one. -/
theorem holds_wellFormed_iff {view : View} :
    view.wellFormed.holds v = true ↔
      ¬(view.top.holds v = true ∧ view.bottom.holds v = true) ∧
        (view.top.holds v = true ∨ view.bottom.holds v = true →
          ∀ t ∈ view.components, t.value v = 0) := by
  have hzero : view.zero.holds v = true ↔ ∀ t ∈ view.components, t.value v = 0 := by
    rw [zero, holds_conj_iff, List.forall_mem_map]
    simp [Term.value]
  simp only [wellFormed, holds_conj_iff, holds_negate_iff, holds_imply_iff, List.mem_cons,
    List.not_mem_nil, or_false, forall_eq_or_imp, forall_eq, hzero]
  rw [or_imp]

section Two

variable {a b : View} {p q : Qualifier}

theorem holds_concrete_iff (ha : Shows v components a p) :
    a.concrete.holds v = true ↔ ∃ unit, p = .concrete unit := by
  have hover := ha.covered
  simp only [concrete, holds_conj, List.all_cons, List.all_nil, holds_negate, Bool.and_true,
    Bool.and_eq_true, Bool.not_eq_true', Bool.eq_false_iff, ne_eq, ha.top, ha.bottom]
  cases p with
  | poly => cases hover
  | top | bottom | concrete unit => simp

/-- Concrete units over components are equal if they agree there. -/
theorem concrete_eq_of_agree {x y : Monomial}
    (hx : (Qualifier.concrete x).Over components) (hy : (Qualifier.concrete y).Over components)
    (h : ∀ c ∈ components, (c.valueOf x).val = (c.valueOf y).val) : x = y := by
  apply Component.ext_valueOf
  intro c
  by_cases hc : c ∈ components
  · exact h c hc
  · rw [hx c hc, hy c hc]

/-- The formula of equality says that the qualifiers are equal. -/
theorem holds_same_iff (ha : Shows v components a p) (hb : Shows v components b q) :
    (same a b).holds v = true ↔ p = q := by
  rw [holds_same_iff_of_map_value ha.ints hb.ints,
    @Bool.eq_iff_iff (a.top.holds v), @Bool.eq_iff_iff (a.bottom.holds v), ha.top, hb.top,
    ha.bottom, hb.bottom]
  constructor
  · rintro ⟨htop, hbottom, hints⟩
    have hp := ha.covered
    have hq := hb.covered
    cases p with
    | poly => cases hp
    | top => exact (htop.1 rfl).symm
    | bottom => exact (hbottom.1 rfl).symm
    | concrete x =>
      cases q with
      | poly => cases hq
      | top => exact htop.2 rfl
      | bottom => exact hbottom.2 rfl
      | concrete y =>
        rw [concrete_eq_of_agree hp hq hints]
  · rintro rfl
    exact ⟨Iff.rfl, Iff.rfl, fun _ _ => rfl⟩

theorem holds_below_iff (ha : Shows v components a p) (hb : Shows v components b q) :
    (below a b).holds v = true ↔ (Constraint.subtype p q).Holds := by
  rw [below, holds_disj_iff]
  simp only [List.mem_cons, List.not_mem_nil, or_false, exists_eq_or_imp, exists_eq_left, hb.top,
    ha.bottom, holds_same_iff ha hb]
  rfl

end Two

section Three

variable {l r result : View} {p q t : Qualifier}

/-- The formula of a join says that the result is the join. -/
theorem holds_join_iff (hl : Shows v components l p) (hr : Shows v components r q)
    (hresult : Shows v components result t) :
    (join l r result).holds v = true ↔ (Constraint.join p q t).Holds := by
  have hp := hl.covered
  have hq := hr.covered
  simp only [join, holds_conj_iff, holds_disj_iff, holds_imply_iff, holds_negate_iff,
    List.mem_cons, List.not_mem_nil, or_false, forall_eq_or_imp, forall_eq, exists_eq_or_imp,
    exists_eq_left, hl.top, hl.bottom, hr.top, hr.bottom, hresult.top, holds_concrete_iff hl,
    holds_concrete_iff hr, holds_same_iff hresult hl, holds_same_iff hresult hr,
    holds_same_iff hl hr, Constraint.Holds]
  cases p with
  | poly => cases hp
  | top | bottom =>
    cases q with
    | poly => cases hq
    | top | bottom | concrete y => simp [Qualifier.join, eq_comm]
  | concrete x =>
    cases q with
    | poly => cases hq
    | top | bottom => simp [Qualifier.join, eq_comm]
    | concrete y =>
      by_cases hxy : x = y <;> simp [Qualifier.join, hxy, eq_comm]

/-- A concrete result over components is the one of an operation exactly if it is combined from
the operands in these components; then the operation stays in range. -/
theorem combined_iff {qop : Qualifier → Qualifier → Qualifier} {sign : Int}
    (hqop : Qualifier.Arithmetic qop sign) {x y z : Monomial}
    (hx : (Qualifier.concrete x).Over components) (hy : (Qualifier.concrete y).Over components)
    (hz : (Qualifier.concrete z).Over components) :
    (∀ c ∈ components, (c.valueOf z).val = (c.valueOf x).val - sign * (c.valueOf y).val) ↔
      qop (.concrete x) (.concrete y) = .concrete z := by
  rw [hqop.concrete_iff]
  constructor
  · intro h c
    by_cases hc : c ∈ components
    · rw [h c hc]
      omega
    · rw [hx c hc, hy c hc, hz c hc]
      omega
  · intro h c _
    have hc := h c
    omega

/-- The formula of an operation says that the result is right and the operation in range. -/
theorem holds_arithmetic_iff {op : Term → Term → Term} {sign : Int}
    {qop : Qualifier → Qualifier → Qualifier} (hqop : Qualifier.Arithmetic qop sign)
    (hop : ∀ a b : Term, (op a b).value v = a.value v - sign * b.value v)
    (hl : Shows v components l p) (hr : Shows v components r q)
    (hresult : Shows v components result t) :
    (arithmetic op l r result).holds v = true ↔
      qop p q = t ∧ Qualifier.StaysInRange sign p q := by
  have hp := hl.covered
  have hq := hr.covered
  simp only [arithmetic, holds_conj_iff, holds_disj_iff, holds_imply_iff, holds_negate_iff,
    List.mem_cons, List.not_mem_nil, or_false, forall_eq_or_imp, forall_eq, exists_eq_or_imp,
    exists_eq_left, hl.top, hl.bottom, hr.top, hr.bottom, hresult.top, hresult.bottom,
    holds_concrete_iff hl, holds_concrete_iff hr, holds_concrete_iff hresult,
    holds_combined_iff_of_map_value hop hl.ints hr.ints hresult.ints]
  cases p with
  | poly => cases hp
  | top => simp [hqop.top_left, Qualifier.StaysInRange, eq_comm]
  | bottom =>
    cases q with
    | poly => cases hq
    | top => simp [hqop.top_right, Qualifier.StaysInRange, eq_comm]
    | bottom => simp [hqop.bottom_bottom, Qualifier.StaysInRange, eq_comm]
    | concrete y => simp [hqop.bottom_left, Qualifier.StaysInRange, eq_comm]
  | concrete x =>
    cases q with
    | poly => cases hq
    | top => simp [hqop.top_right, Qualifier.StaysInRange, eq_comm]
    | bottom => simp [hqop.bottom_right, Qualifier.StaysInRange, eq_comm]
    | concrete y =>
      have ht := hresult.covered
      simp only [reduceCtorEq, false_or, false_implies, not_false_eq_true, and_false, true_and,
        Qualifier.concrete.injEq, exists_eq', and_self, forall_const, Component.valueIn]
      rw [Qualifier.StaysInRange, ← hqop.exists_concrete_iff]
      constructor
      · rintro ⟨⟨z, rfl⟩, h⟩
        have heq := (combined_iff hqop hp hq ht).1 h
        exact ⟨heq, z, heq⟩
      · rintro ⟨rfl, z, hz⟩
        rw [hz] at ht ⊢
        exact ⟨⟨z, rfl⟩, (combined_iff hqop hp hq ht).2 hz⟩

end Three

/-- The formula of a constraint says that the constraint holds and stays in range. -/
theorem holds_formula_iff {view : Operand → View} {unit : Operand → Qualifier}
    {c : Constraint Operand} (h : ∀ o ∈ c.slots, Shows v components (view o) (unit o)) :
    (formula (c.map view)).holds v = true ↔ (c.map unit).Holds ∧ (c.map unit).InRange := by
  cases c with
  | subtype a b =>
    obtain ⟨ha, hb⟩ := Constraint.and_of_forall_mem_pair h
    simp only [Constraint.map, Constraint.InRange, and_true]
    exact holds_below_iff ha hb
  | equal a b =>
    obtain ⟨ha, hb⟩ := Constraint.and_of_forall_mem_pair h
    simp only [Constraint.map, Constraint.InRange, and_true]
    exact holds_same_iff ha hb
  | join a b r =>
    obtain ⟨ha, hb, hr⟩ := Constraint.and_of_forall_mem_triple h
    simp only [Constraint.map, Constraint.InRange, and_true]
    exact holds_join_iff ha hb hr
  | product a b r =>
    obtain ⟨ha, hb, hr⟩ := Constraint.and_of_forall_mem_triple h
    rw [Constraint.map, Constraint.map, Constraint.inRange_product_iff]
    refine holds_arithmetic_iff Qualifier.mul_arithmetic (fun a b => ?_) ha hb hr
    rw [Term.value_plus]
    omega
  | quotient a b r =>
    obtain ⟨ha, hb, hr⟩ := Constraint.and_of_forall_mem_triple h
    have harithmetic : (arithmetic Term.minus (view a) (view b) (view r)).holds v = true ↔
        (unit a).quotient (unit b) = unit r ∧ Qualifier.StaysInRange 1 (unit a) (unit b) := by
      refine holds_arithmetic_iff Qualifier.quotient_arithmetic (fun a b => ?_) ha hb hr
      rw [Term.value_minus, Int.one_mul]
    rw [Constraint.map, Constraint.map, Constraint.inRange_quotient_iff, formula, holds_conj_iff]
    simp only [List.mem_cons, List.not_mem_nil, or_false, forall_eq_or_imp, forall_eq,
      holds_negate_iff, hb.bottom, harithmetic]
    by_cases hbottom : unit b = .bottom
    · simp [hbottom, Constraint.Holds, Qualifier.div]
    · rw [Constraint.quotient_holds_iff hbottom]
      simp [hbottom]

end View
end Smt
end Metrology
