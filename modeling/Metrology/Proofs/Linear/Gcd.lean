import Metrology.Proofs.Linear.Row
import Mathlib.LinearAlgebra.Matrix.Determinant.Basic
import Mathlib.LinearAlgebra.Matrix.Notation
import Mathlib.Tactic.LinearCombination

/-!
# Greatest common divisors and column steps

Euclid's algorithm rounds its quotients toward zero, so remainders change their sign on the way,
but each is smaller than the one before and the algorithm comes to an end.  The coefficients it
ends with give a step between two columns that can be undone over the integers and that moves the
whole product with a row into the first of them.
-/

namespace Metrology
namespace Linear

/-! ## Euclid's algorithm as a loop -/

/-- What Euclid's algorithm holds at one stage: two remainders with their coefficients. -/
structure Stage where
  a : ℤ
  b : ℤ
  s : ℤ
  s' : ℤ
  t : ℤ
  t' : ℤ

namespace Stage

/-- The stage before any division. -/
def start (a b : ℤ) : Stage := ⟨a, b, 1, 0, 0, 1⟩

/-- The stage after one division. -/
def next (e : Stage) : Stage :=
  let q := e.a.tdiv e.b
  ⟨e.b, e.a - q * e.b, e.s', e.s - q * e.s', e.t', e.t - q * e.t'⟩

/-- The first remainder with its coefficients, with the sign that makes it nonnegative. -/
def answer (e : Stage) : ℤ × ℤ × ℤ := if e.a < 0 then (-e.a, -e.s, -e.t) else (e.a, e.s, e.t)

theorem natAbs_next_lt {e : Stage} (h : e.b ≠ 0) : e.next.b.natAbs < e.b.natAbs := by
  have hmod : e.next.b = e.a.tmod e.b := by rw [Int.tmod_def, mul_comm]; rfl
  rw [hmod, Int.natAbs_tmod]
  exact Nat.mod_lt _ (Int.natAbs_pos.2 h)

/-- The divisions go on exactly until a remainder is zero.  There are no more of them than the
size of the second number. -/
theorem exists_iterate_next (e : Stage) :
    ∃ k ≤ e.b.natAbs, (∀ i < k, (next^[i] e).b ≠ 0) ∧ (next^[k] e).b = 0 ∧
      euclid e.a e.b e.s e.s' e.t e.t' =
        ((next^[k] e).a, (next^[k] e).s, (next^[k] e).t) := by
  obtain ⟨a, b, s, s', t, t'⟩ := e
  dsimp only
  fun_induction euclid a b s s' t t' with
  | case1 a s s' t t' => exact ⟨0, Nat.zero_le _, by simp, rfl, rfl⟩
  | case2 a b s s' t t' hb q ih =>
    obtain ⟨k, hk, hbefore, hlast, heq⟩ := ih
    have hlt := natAbs_next_lt (e := ⟨a, b, s, s', t, t'⟩) hb
    refine ⟨k + 1, Nat.succ_le_of_lt (Nat.lt_of_le_of_lt hk hlt), ?_, hlast, heq⟩
    intro i hi
    cases i with
    | zero => exact hb
    | succ i => exact hbefore i (Nat.lt_of_succ_lt_succ hi)

end Stage

theorem exists_extendedGcd_eq_answer (a b : ℤ) :
    ∃ k ≤ b.natAbs, (∀ i < k, (Stage.next^[i] (.start a b)).b ≠ 0) ∧
      (Stage.next^[k] (.start a b)).b = 0 ∧
      extendedGcd a b = (Stage.next^[k] (.start a b)).answer := by
  obtain ⟨k, hk, hbefore, hlast, heq⟩ := Stage.exists_iterate_next (.start a b)
  refine ⟨k, hk, hbefore, hlast, ?_⟩
  have hstart : euclid a b 1 0 0 1 = _ := heq
  rw [extendedGcd, hstart]
  rfl

/-! ## Bezout coefficients -/

/-- Euclid's algorithm keeps the remainders combinations of the two numbers it starts from. -/
theorem euclid_bezout
    {x y a b s s' t t' : ℤ} (ha : s * x + t * y = a) (hb : s' * x + t' * y = b) :
    (euclid a b s s' t t').2.1 * x + (euclid a b s s' t t').2.2 * y =
      (euclid a b s s' t t').1 := by
  fun_induction euclid a b s s' t t' with
  | case1 a s s' t t' => exact ha
  | case2 a b s s' t t' hne q ih =>
    apply ih hb
    rw [← ha, ← hb]
    ring

/-- The last remainder divides all remainders. -/
theorem euclid_dvd (a b s s' t t' : ℤ) :
    (euclid a b s s' t t').1 ∣ a ∧ (euclid a b s s' t t').1 ∣ b := by
  fun_induction euclid a b s s' t t' with
  | case1 a s s' t t' => exact ⟨dvd_rfl, dvd_zero a⟩
  | case2 a b s s' t t' hne q ih =>
    obtain ⟨hb, hrest⟩ := ih
    refine ⟨?_, hb⟩
    have hsum : (a - q * b) + q * b = a := by ring
    have hdvd := dvd_add hrest (Dvd.dvd.mul_left hb q)
    rwa [hsum] at hdvd

/-- A nonnegative common divisor of two numbers that is a combination of them. -/
structure IsExtendedGcd (a b g s t : ℤ) : Prop where
  nonneg : 0 ≤ g
  bezout : s * a + t * b = g
  dvd_left : g ∣ a
  dvd_right : g ∣ b

theorem isExtendedGcd_of_eq {a b g s t : ℤ} (h : extendedGcd a b = (g, s, t)) :
    IsExtendedGcd a b g s t := by
  have hbezout : (euclid a b 1 0 0 1).2.1 * a + (euclid a b 1 0 0 1).2.2 * b =
      (euclid a b 1 0 0 1).1 := euclid_bezout (by ring) (by ring)
  obtain ⟨hdvda, hdvdb⟩ := euclid_dvd a b 1 0 0 1
  rw [extendedGcd] at h
  rcases he : euclid a b 1 0 0 1 with ⟨g', s', t'⟩
  rw [he] at h hbezout hdvda hdvdb
  simp only at h hbezout hdvda hdvdb
  by_cases hneg : g' < 0
  · rw [if_pos hneg] at h
    cases h
    refine ⟨by omega, ?_, neg_dvd.2 hdvda, neg_dvd.2 hdvdb⟩
    rw [← hbezout]
    ring
  · rw [if_neg hneg] at h
    cases h
    exact ⟨not_lt.1 hneg, hbezout, hdvda, hdvdb⟩

namespace IsExtendedGcd

variable {a b g s t : ℤ}

/-- Every common divisor divides the one that is a combination. -/
theorem dvd (h : IsExtendedGcd a b g s t) {d : ℤ} (ha : d ∣ a) (hb : d ∣ b) : d ∣ g :=
  h.bezout ▸ dvd_add (Dvd.dvd.mul_left ha s) (Dvd.dvd.mul_left hb t)

theorem eq_zero_iff (h : IsExtendedGcd a b g s t) : g = 0 ↔ a = 0 ∧ b = 0 := by
  constructor
  · rintro rfl
    exact ⟨zero_dvd_iff.1 h.dvd_left, zero_dvd_iff.1 h.dvd_right⟩
  · rintro ⟨rfl, rfl⟩
    rw [← h.bezout, mul_zero, mul_zero, add_zero]

/-- The coefficients are Bezout coefficients of the quotients by the greatest common divisor. -/
theorem bezout_tdiv (h : IsExtendedGcd a b g s t) (hb : b ≠ 0) :
    s * a.tdiv g + t * b.tdiv g = 1 := by
  have hg : g ≠ 0 := fun hzero => hb (h.eq_zero_iff.1 hzero).2
  apply mul_right_cancel₀ hg
  calc (s * a.tdiv g + t * b.tdiv g) * g = s * (a.tdiv g * g) + t * (b.tdiv g * g) := by ring
    _ = s * a + t * b := by
      rw [Int.tdiv_mul_cancel h.dvd_left, Int.tdiv_mul_cancel h.dvd_right]
    _ = 1 * g := by rw [h.bezout, one_mul]

/-- The quotients by the greatest common divisor balance the two numbers. -/
theorem tdiv_mul_comm (h : IsExtendedGcd a b g s t) : a.tdiv g * b = b.tdiv g * a := by
  calc a.tdiv g * b = a.tdiv g * (b.tdiv g * g) := by rw [Int.tdiv_mul_cancel h.dvd_right]
    _ = b.tdiv g * (a.tdiv g * g) := by ring
    _ = b.tdiv g * a := by rw [Int.tdiv_mul_cancel h.dvd_left]

end IsExtendedGcd

/-! ## Column steps -/

namespace Integral

open Matrix

/-- The coefficients by which two columns are combined if their products with a row are `a` and
`b`. -/
def columnStep (a b : ℤ) : Matrix (Fin 2) (Fin 2) ℤ :=
  let (g, s, t) := extendedGcd a b
  !![s, t; -(b.tdiv g), a.tdiv g]

theorem columnStep_eq {a b g s t : ℤ} (h : extendedGcd a b = (g, s, t)) :
    columnStep a b = !![s, t; -(b.tdiv g), a.tdiv g] := by
  rw [columnStep, h]

theorem absorb_eq_columnStep {u p c : List ℤ} (h : dot u c ≠ 0) :
    absorb u p c =
      (combine (columnStep (dot u p) (dot u c) 0 0) p (columnStep (dot u p) (dot u c) 0 1) c,
        combine (columnStep (dot u p) (dot u c) 1 0) p (columnStep (dot u p) (dot u c) 1 1) c) := by
  rw [absorb, if_neg h]
  rfl

theorem dot_combine {u p c : List ℤ} (h : p.length = c.length) (a b : ℤ) :
    dot u (combine a p b c) = a * dot u p + b * dot u c := by
  rw [dot_eq_form, entries_combine h, form_add, form_smul, form_smul, ← dot_eq_form,
    ← dot_eq_form]

variable {a b g s t : ℤ}

theorem det_columnStep (h : extendedGcd a b = (g, s, t)) (hb : b ≠ 0) :
    (columnStep a b).det = 1 := by
  rw [columnStep_eq h, det_fin_two_of, ← (isExtendedGcd_of_eq h).bezout_tdiv hb]
  ring

theorem columnStep_mulVec (h : extendedGcd a b = (g, s, t)) :
    columnStep a b *ᵥ ![a, b] = ![g, 0] := by
  have hgcd := isExtendedGcd_of_eq h
  have hentries : ∀ x y z w : ℤ, !![x, y; z, w] *ᵥ ![a, b] = ![x * a + y * b, z * a + w * b] := by
    intro x y z w
    ext i
    fin_cases i <;> simp [mulVec, dotProduct]
  rw [columnStep_eq h, hentries, hgcd.bezout, hgcd.tdiv_mul_comm, neg_mul, neg_add_cancel]

/-- The products of the new columns are those of the old ones under the step. -/
theorem dot_absorb {u p c : List ℤ} (hlength : p.length = c.length) (h : dot u c ≠ 0) :
    ![dot u (absorb u p c).1, dot u (absorb u p c).2] =
      columnStep (dot u p) (dot u c) *ᵥ ![dot u p, dot u c] := by
  rw [absorb_eq_columnStep h, dot_combine hlength, dot_combine hlength]
  ext i
  fin_cases i <;> simp [mulVec, dotProduct]

/-- For all integers Euclid's loop comes to an end, and its answer is their nonnegative greatest
common divisor as a combination of them.  It is zero only if both are.  If the second number is
not zero, the column step of the elimination has determinant one, and it turns columns with the
two numbers as products into columns with the greatest common divisor and zero. -/
theorem extendedGcd_exact (a b : ℤ) :
    (∃ k ≤ b.natAbs, (∀ i < k, (Stage.next^[i] (.start a b)).b ≠ 0) ∧
      (Stage.next^[k] (.start a b)).b = 0 ∧
      extendedGcd a b = (Stage.next^[k] (.start a b)).answer) ∧
    ∃ g s t, extendedGcd a b = (g, s, t) ∧ 0 ≤ g ∧ s * a + t * b = g ∧ g ∣ a ∧ g ∣ b ∧
      (∀ d, d ∣ a → d ∣ b → d ∣ g) ∧ (g = 0 ↔ a = 0 ∧ b = 0) ∧
      (b ≠ 0 → (columnStep a b).det = 1 ∧ columnStep a b *ᵥ ![a, b] = ![g, 0] ∧
        ∀ u p c : List ℤ, p.length = c.length → dot u p = a → dot u c = b →
          absorb u p c =
            (combine (columnStep a b 0 0) p (columnStep a b 0 1) c,
              combine (columnStep a b 1 0) p (columnStep a b 1 1) c) ∧
          dot u (absorb u p c).1 = g ∧ dot u (absorb u p c).2 = 0) := by
  refine ⟨exists_extendedGcd_eq_answer a b, ?_⟩
  rcases hgcd : extendedGcd a b with ⟨g, s, t⟩
  have h := isExtendedGcd_of_eq hgcd
  refine ⟨g, s, t, rfl, h.nonneg, h.bezout, h.dvd_left, h.dvd_right, fun _ => h.dvd,
    h.eq_zero_iff, fun hb => ⟨det_columnStep hgcd hb, columnStep_mulVec hgcd, ?_⟩⟩
  rintro u p c hlength rfl rfl
  have hproducts := (dot_absorb hlength hb).trans (columnStep_mulVec hgcd)
  exact ⟨absorb_eq_columnStep hb, congrFun hproducts 0, congrFun hproducts 1⟩

/-- Two numbers of opposite signs, as the products of the unit columns with a row. -/
theorem extendedGcd_exact_signs :
    extendedGcd (-4) 6 = (2, 1, 1) ∧ (columnStep (-4) 6).det = 1 ∧
      dot [-4, 6] (absorb [-4, 6] [1, 0] [0, 1]).1 = 2 ∧
      dot [-4, 6] (absorb [-4, 6] [1, 0] [0, 1]).2 = 0 := by
  obtain ⟨-, g, s, t, hgcd, -, -, -, -, -, -, hstep⟩ := extendedGcd_exact (-4) 6
  have hvalue : extendedGcd (-4) 6 = (2, 1, 1) := by decide +kernel
  rw [hvalue] at hgcd
  cases hgcd
  obtain ⟨hdet, -, hcolumns⟩ := hstep (by decide)
  exact ⟨hvalue, hdet, (hcolumns [-4, 6] [1, 0] [0, 1] rfl (by decide) (by decide)).2⟩

end Integral
end Linear
end Metrology
