import Metrology.Proofs.Qualifier

/-!
# Laws of unit arithmetic

A product or quotient of concrete units is exact in the power of ten and in every dimension, or it
is the top.  Products commute.  They associate as long as neither inner product leaves the range of
exponents; an inner product that leaves it makes its grouping the top, whatever the other one is.
Dividing by a factor and multiplying by a divisor undo each other where the first result is
concrete.
-/

namespace Metrology

/-! ## Exact results -/

namespace Monomial

variable {op : Int → Int → Int} {a b r : Monomial}

/-- The power of ten and all exponents stay in range. -/
def Fits (op : Int → Int → Int) (a b : Monomial) : Prop :=
  InExponentRange (op a.power.val b.power.val) ∧
    ∀ d, InExponentRange (op (a.exponent d).val (b.exponent d).val)

/-- A unit has the exact power of ten and exponents, and keeps no zero among them. -/
structure IsCombination (op : Int → Int → Int) (a b r : Monomial) : Prop where
  power : r.power.val = op a.power.val b.power.val
  exponent : ∀ d, (r.exponent d).val = op (a.exponent d).val (b.exponent d).val
  nonzero : ∀ e ∈ r.exponents.entries, e.2 ≠ 0

theorem fits_iff_valueOf :
    Fits op a b ↔ ∀ c : Component, InExponentRange (op (c.valueOf a).val (c.valueOf b).val) := by
  constructor
  · rintro ⟨hpower, hexponent⟩ c
    cases c with
    | power => exact hpower
    | dimension d => exact hexponent d
  · intro h
    exact ⟨h .power, fun d => h (.dimension d)⟩

theorem isCombination_of_combine? (hop : ∀ x, op x 0 = x) (h : combine? op a b = some r) :
    IsCombination op a b r := by
  have hvalue := (combine?_eq_some_iff hop).1 h
  exact ⟨hvalue .power, fun d => hvalue (.dimension d), r.nonzero⟩

theorem mul?_comm (a b : Monomial) : a.mul? b = b.mul? a := by
  apply Option.ext
  intro r
  rw [mul?_eq_some_iff, mul?_eq_some_iff]
  exact forall_congr' fun c => by rw [Int.add_comm]

end Monomial

namespace Qualifier

/-- A result is the exact concrete unit if that is in range, and else the top. -/
structure ExactOrTop (op : Int → Int → Int) (a b : Monomial) (q : Qualifier) : Prop where
  concrete_iff : (∃ r, q = .concrete r) ↔ Monomial.Fits op a b
  exact : ∀ r, q = .concrete r → Monomial.IsCombination op a b r
  top : ¬Monomial.Fits op a b → q = .top

theorem exactOrTop_combine? {op : Int → Int → Int} (hop : ∀ x, op x 0 = x) (a b : Monomial) :
    ExactOrTop op a b (ofMonomial? (Monomial.combine? op a b)) := by
  have hconcrete : (∃ r, ofMonomial? (Monomial.combine? op a b) = .concrete r) ↔
      Monomial.Fits op a b := by
    simp only [ofMonomial?_eq_concrete_iff]
    rw [Monomial.exists_combine?_eq_some_iff hop, Monomial.fits_iff_valueOf]
  refine ⟨hconcrete, fun r hr => ?_, fun hfits => ?_⟩
  · exact Monomial.isCombination_of_combine? hop (ofMonomial?_eq_concrete_iff.1 hr)
  · exact (ofMonomial?_cases _).resolve_left (mt hconcrete.1 hfits)

/-- The product and the quotient of concrete units are exact or the top. -/
theorem mul_div_exactOrTop (a b : Monomial) :
    ExactOrTop (· + ·) a b ((concrete a).mul (concrete b)) ∧
      ∃ q, (concrete a).div (concrete b) = .ok q ∧ ExactOrTop (· - ·) a b q :=
  ⟨exactOrTop_combine? Int.add_zero a b, _, rfl, exactOrTop_combine? Int.sub_zero a b⟩

/-! ## Laws -/

/-- The product of two concrete units leaves the range of exponents. -/
def Overflows : Qualifier → Qualifier → Prop
  | concrete a, concrete b => ¬Monomial.Fits (· + ·) a b
  | _, _ => False

section Special

variable (q : Qualifier)

@[simp]
theorem top_mul : mul top q = top := by cases q <;> rfl

@[simp]
theorem mul_top : mul q top = top := by cases q <;> rfl

@[simp]
theorem poly_mul : mul poly q = top := by cases q <;> rfl

@[simp]
theorem mul_poly : mul q poly = top := by cases q <;> rfl

end Special

theorem mul_eq_top_of_overflows {a b : Qualifier} (h : Overflows a b) : a.mul b = top := by
  cases a with
  | top | bottom | poly => cases h
  | concrete x =>
    cases b with
    | top | bottom | poly => cases h
    | concrete y => exact (exactOrTop_combine? Int.add_zero x y).top h

theorem exists_concrete_of_not_overflows {x y : Monomial}
    (h : ¬Overflows (concrete x) (concrete y)) : ∃ s, (concrete x).mul (concrete y) = concrete s :=
  (exactOrTop_combine? Int.add_zero x y).concrete_iff.2 (Classical.not_not.1 h)

protected theorem mul_comm (a b : Qualifier) : a.mul b = b.mul a := by
  cases a with
  | top | poly => simp
  | bottom => cases b <;> rfl
  | concrete x =>
    cases b with
    | top | poly => simp
    | bottom => rfl
    | concrete y => rw [mul, mul, Monomial.mul?_comm]

/-- Two results of operations are equal if they are the same concrete unit or none. -/
theorem eq_of_concrete_iff {p q : Qualifier} (hp : (∃ r, p = concrete r) ∨ p = top)
    (hq : (∃ r, q = concrete r) ∨ q = top) (h : ∀ r, p = concrete r ↔ q = concrete r) : p = q := by
  rcases hp with ⟨r, rfl⟩ | rfl
  · exact ((h r).1 rfl).symm
  · rcases hq with ⟨r, rfl⟩ | rfl
    · exact (h r).2 rfl
    · rfl

/-- Concrete units associate if the inner products are concrete. -/
theorem mul_assoc_concrete {x y z s t : Monomial} (hs : (concrete x).mul (concrete y) = concrete s)
    (ht : (concrete y).mul (concrete z) = concrete t) :
    (concrete s).mul (concrete z) = (concrete x).mul (concrete t) := by
  have hs := (mul_arithmetic.concrete_iff x y s).1 hs
  have ht := (mul_arithmetic.concrete_iff y z t).1 ht
  refine eq_of_concrete_iff (mul_arithmetic.concrete_cases s z) (mul_arithmetic.concrete_cases x t)
    fun r => ?_
  rw [mul_arithmetic.concrete_iff, mul_arithmetic.concrete_iff]
  refine forall_congr' fun c => ?_
  have hsc := hs c
  have htc := ht c
  omega

theorem mul_assoc_of_not_overflows {a b c : Qualifier} (hab : ¬Overflows a b)
    (hbc : ¬Overflows b c) : (a.mul b).mul c = a.mul (b.mul c) := by
  cases a with
  | top | poly => simp
  | bottom =>
    cases b with
    | top | poly => simp
    | bottom => cases c <;> rfl
    | concrete y =>
      cases c with
      | top | poly => simp
      | bottom => rfl
      | concrete z =>
        obtain ⟨t, ht⟩ := exists_concrete_of_not_overflows hbc
        rw [ht]
        rfl
  | concrete x =>
    cases b with
    | top | poly => simp
    | bottom => cases c <;> rfl
    | concrete y =>
      obtain ⟨s, hs⟩ := exists_concrete_of_not_overflows hab
      rw [hs]
      cases c with
      | top | poly => simp
      | bottom => rfl
      | concrete z =>
        obtain ⟨t, ht⟩ := exists_concrete_of_not_overflows hbc
        rw [ht]
        exact mul_assoc_concrete hs ht

/-- Two groupings of a product differ exactly if one of them is the top and the other is not. -/
theorem mul_assoc_iff {a b c : Qualifier} :
    (a.mul b).mul c = a.mul (b.mul c) ↔ ((a.mul b).mul c = top ↔ a.mul (b.mul c) = top) := by
  constructor
  · intro h
    rw [h]
  · intro h
    by_cases hab : Overflows a b
    · have hleft : (a.mul b).mul c = top := by rw [mul_eq_top_of_overflows hab, top_mul]
      rw [hleft, h.1 hleft]
    · by_cases hbc : Overflows b c
      · have hright : a.mul (b.mul c) = top := by rw [mul_eq_top_of_overflows hbc, mul_top]
        rw [hright, h.2 hright]
      · exact mul_assoc_of_not_overflows hab hbc

/-- A concrete product is divided by its second factor again. -/
theorem quotient_mul_cancel {x y v : Monomial} (h : (concrete x).mul (concrete y) = concrete v) :
    (concrete v).quotient (concrete y) = concrete x := by
  rw [quotient_arithmetic.concrete_iff]
  intro c
  have hc := (mul_arithmetic.concrete_iff x y v).1 h c
  omega

/-- A concrete quotient is multiplied by its divisor again. -/
theorem mul_quotient_cancel {x y v : Monomial}
    (h : (concrete x).quotient (concrete y) = concrete v) :
    (concrete v).mul (concrete y) = concrete x := by
  rw [mul_arithmetic.concrete_iff]
  intro c
  have hc := (quotient_arithmetic.concrete_iff x y v).1 h c
  omega

/-- Products commute, and associate unless an inner product of concrete units leaves the range, and
even then two different groupings include the top; a concrete product divided by its second factor
is the first, and a concrete quotient times its divisor is the dividend. -/
theorem mul_div_laws (a b c : Qualifier) :
    a.mul b = b.mul a ∧
    (¬Overflows a b → ¬Overflows b c → (a.mul b).mul c = a.mul (b.mul c)) ∧
    ((a.mul b).mul c = a.mul (b.mul c) ∨ (a.mul b).mul c = top ∨ a.mul (b.mul c) = top) ∧
    ∀ x y : Monomial,
      ((∃ v, (concrete x).mul (concrete y) = concrete v) →
        ((concrete x).mul (concrete y)).div (concrete y) = .ok (concrete x)) ∧
      ∀ q, (concrete x).div (concrete y) = .ok (concrete q) →
        (concrete q).mul (concrete y) = concrete x := by
  refine ⟨Qualifier.mul_comm a b, mul_assoc_of_not_overflows, ?_, fun x y => ⟨?_, fun q hq => ?_⟩⟩
  · rw [mul_assoc_iff]
    by_cases hleft : (a.mul b).mul c = top
    · exact .inr (.inl hleft)
    · by_cases hright : a.mul (b.mul c) = top
      · exact .inr (.inr hright)
      · exact .inl ⟨fun h => absurd h hleft, fun h => absurd h hright⟩
  · rintro ⟨v, hv⟩
    rw [hv]
    exact congrArg Except.ok (quotient_mul_cancel hv)
  · exact mul_quotient_cancel (Except.ok.inj hq)

/-- The largest power of ten. -/
def largestScale : Monomial := .ofPower ((Exponent.ofInt? 2147483647).getD 0)

/-- At the largest power of ten the groupings of a product with the bottom differ, and yet a
division is undone. -/
theorem mul_div_laws_largestScale :
    ((concrete largestScale).mul (concrete (.ofPower 1))).mul bottom = top ∧
      (concrete largestScale).mul ((concrete (.ofPower 1)).mul bottom) = bottom ∧
      ∃ q, (concrete largestScale).div (concrete (.ofPower 1)) = .ok (concrete q) ∧
        (concrete q).mul (concrete (.ofPower 1)) = concrete largestScale := by
  have hdiv : (concrete largestScale).div (concrete (.ofPower 1)) =
      .ok (concrete (.ofPower ((Exponent.ofInt? 2147483646).getD 0))) :=
    congrArg Except.ok (by decide +kernel)
  obtain ⟨-, -, -, hcancel⟩ := mul_div_laws top top top
  exact ⟨by decide +kernel, rfl, _, hdiv, (hcancel _ _).2 _ hdiv⟩

end Qualifier
end Metrology
