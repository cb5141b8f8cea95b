import Metrology.Proofs.Model
import Metrology.Proofs.Monomial

/-!
# Arithmetic on qualifiers

Products and quotients of concrete units are settled component by component.  Where a component
leaves the range of exponents, the result is the top.
-/

namespace Metrology

/-- The component of a qualifier, zero where it is not concrete. -/
def Component.valueIn (c : Component) : Qualifier → Int
  | .concrete u => (c.valueOf u).val
  | _ => 0

theorem Component.concrete_eq_iff {a b : Monomial} :
    Qualifier.concrete a = .concrete b ↔
      ∀ c : Component, c.valueIn (.concrete a) = c.valueIn (.concrete b) := by
  constructor
  · intro h c
    rw [h]
  · intro h
    exact congrArg _ (Component.ext_valueOf h)

theorem Model.components_nodup (m : Model) : m.components.Nodup := by
  rw [Model.components, List.nodup_cons]
  refine ⟨by simp, List.pairwise_map.2 ((sortedDistinct_nodup _).imp ?_)⟩
  intro d d' hne heq
  exact hne (Component.dimension.inj heq)

/-- A component that a model lacks is zero in all its constants. -/
theorem Model.valueIn_constant_eq_zero
    {m : Model} {c : Component} (hc : c ∉ m.components) {id : SlotId} {q : Qualifier}
    (hq : m.slots[id]? = some (.constant q)) : c.valueIn q = 0 := by
  cases q with
  | top | bottom | poly => rfl
  | concrete unit =>
    cases c with
    | power => exact absurd List.mem_cons_self hc
    | dimension d =>
      have hd : d ∉ unit.dimensions := by
        intro hd
        apply hc
        refine List.mem_cons_of_mem _ (List.mem_map_of_mem (mem_sortedDistinct.2 ?_))
        exact List.mem_flatMap.2 ⟨(id, .concrete unit), Model.mem_constants_iff.2 hq, hd⟩
      exact congrArg Exponent.val (Component.valueOf_eq_zero_of_not_mem hd)

/-- A product or quotient of two concrete units that does not leave the range in any component.
Every other constraint is in range. -/
def Constraint.InRange : Constraint Qualifier → Prop
  | .product (.concrete a) (.concrete b) _ =>
    ∀ c : Component, InExponentRange ((c.valueOf a).val + (c.valueOf b).val)
  | .quotient (.concrete a) (.concrete b) _ =>
    ∀ c : Component, InExponentRange ((c.valueOf a).val - (c.valueOf b).val)
  | _ => True

theorem Constraint.quotient_holds_iff {p q r : Qualifier} (hq : q ≠ .bottom) :
    (Constraint.quotient p q r).Holds ↔ p.quotient q = r := by
  simp [Constraint.Holds, Qualifier.div, hq]

namespace Qualifier

/-- What products and quotients share: `sign` is the coefficient of the right operand in the
relation of a concrete result. -/
structure Arithmetic (op : Qualifier → Qualifier → Qualifier) (sign : Int) : Prop where
  top_left : ∀ q, op .top q = .top
  top_right : ∀ q, op q .top = .top
  bottom_bottom : op .bottom .bottom = .bottom
  bottom_left : ∀ u, op .bottom (.concrete u) = .bottom
  bottom_right : ∀ u, op (.concrete u) .bottom = .bottom
  concrete_iff : ∀ a b r, op (.concrete a) (.concrete b) = .concrete r ↔
    ∀ c : Component,
      (c.valueOf r).val - (c.valueOf a).val + sign * (c.valueOf b).val = 0
  concrete_cases : ∀ a b, (∃ r, op (.concrete a) (.concrete b) = .concrete r) ∨
    op (.concrete a) (.concrete b) = .top
  exists_concrete_iff : ∀ a b, (∃ r, op (.concrete a) (.concrete b) = .concrete r) ↔
    ∀ c : Component, InExponentRange ((c.valueOf a).val - sign * (c.valueOf b).val)

theorem ofMonomial?_eq_concrete_iff {m : Option Monomial} {r : Monomial} :
    ofMonomial? m = .concrete r ↔ m = some r := by
  cases m <;> simp [ofMonomial?]

theorem ofMonomial?_cases (m : Option Monomial) :
    (∃ r, ofMonomial? m = .concrete r) ∨ ofMonomial? m = .top := by
  cases m with
  | none => exact .inr rfl
  | some r => exact .inl ⟨r, rfl⟩

theorem mul_arithmetic : Arithmetic mul (-1) where
  top_left q := by cases q <;> rfl
  top_right q := by cases q <;> rfl
  bottom_bottom := rfl
  bottom_left _ := rfl
  bottom_right _ := rfl
  concrete_iff a b r := by
    rw [mul, ofMonomial?_eq_concrete_iff, Monomial.mul?_eq_some_iff]
    refine forall_congr' fun c => ?_
    omega
  concrete_cases a b := ofMonomial?_cases (a.mul? b)
  exists_concrete_iff a b := by
    simp only [mul, ofMonomial?_eq_concrete_iff, Monomial.exists_mul?_eq_some_iff]
    refine forall_congr' fun c => ?_
    rw [Int.neg_one_mul, Int.sub_neg]

theorem quotient_arithmetic : Arithmetic quotient 1 where
  top_left q := by cases q <;> rfl
  top_right q := by cases q <;> rfl
  bottom_bottom := rfl
  bottom_left _ := rfl
  bottom_right _ := rfl
  concrete_iff a b r := by
    rw [quotient, ofMonomial?_eq_concrete_iff, Monomial.div?_eq_some_iff]
    refine forall_congr' fun c => ?_
    omega
  concrete_cases a b := ofMonomial?_cases (a.div? b)
  exists_concrete_iff a b := by
    simp only [quotient, ofMonomial?_eq_concrete_iff, Monomial.exists_div?_eq_some_iff]
    refine forall_congr' fun c => ?_
    rw [Int.one_mul]

namespace Arithmetic

variable {op : Qualifier → Qualifier → Qualifier} {sign : Int}

theorem concrete_ne_bottom (h : Arithmetic op sign) (a b : Monomial) :
    op (.concrete a) (.concrete b) ≠ .bottom := by
  rcases h.concrete_cases a b with ⟨r, hr⟩ | htop
  · simp [hr]
  · simp [htop]

theorem ne_top_of_inRange (h : Arithmetic op sign) {a b : Monomial}
    (hrange : ∀ c : Component,
      InExponentRange ((c.valueOf a).val - sign * (c.valueOf b).val)) :
    op (.concrete a) (.concrete b) ≠ .top := by
  obtain ⟨r, hr⟩ := (h.exists_concrete_iff a b).2 hrange
  simp [hr]

end Arithmetic

/-- No component of an operation on concrete units leaves the range of exponents. -/
def StaysInRange (sign : Int) : Qualifier → Qualifier → Prop
  | .concrete a, .concrete b =>
    ∀ c : Component, InExponentRange ((c.valueOf a).val - sign * (c.valueOf b).val)
  | _, _ => True

end Qualifier

theorem Constraint.inRange_product_iff {p q r : Qualifier} :
    (Constraint.product p q r).InRange ↔ Qualifier.StaysInRange (-1) p q := by
  cases p <;> cases q <;> simp [InRange, Qualifier.StaysInRange]

theorem Constraint.inRange_quotient_iff {p q r : Qualifier} :
    (Constraint.quotient p q r).InRange ↔ Qualifier.StaysInRange 1 p q := by
  cases p <;> cases q <;> simp [InRange, Qualifier.StaysInRange]

end Metrology
