import Metrology.Linear.Eliminator
import Metrology.Proofs.SortedMap
import Mathlib.Algebra.BigOperators.Ring.Finset
import Mathlib.Algebra.Module.BigOperators
import Mathlib.Tactic.Linarith
import Mathlib.Tactic.Ring

/-!
# Rows as linear forms

A list of coefficients is a linear form on numbers for all unknowns.  The inner
product and the combination of lists are the sums and combinations of forms.
-/

namespace Metrology
namespace Linear

open Finset

variable {α : Type} [CommRing α]

/-- The linear form of a list of coefficients. -/
def form (u : List α) (x : ℕ → α) : α := ∑ i ∈ range u.length, u.getD i 0 * x i

/-- The numbers of a list, zero from its end on. -/
def entries (v : List α) : ℕ → α := fun i => v.getD i 0

@[simp]
theorem form_nil (x : ℕ → α) : form [] x = 0 := by
  simp [form]

theorem form_cons (a : α) (u : List α) (x : ℕ → α) :
    form (a :: u) x = a * x 0 + form u fun i => x (i + 1) := by
  rw [form, form, List.length_cons, sum_range_succ', add_comm]
  simp

theorem form_add (u : List α) (x y : ℕ → α) : form u (x + y) = form u x + form u y := by
  simp [form, mul_add, sum_add_distrib]

theorem form_sub (u : List α) (x y : ℕ → α) : form u (x - y) = form u x - form u y := by
  simp [form, mul_sub, sum_sub_distrib]

theorem form_smul (u : List α) (a : α) (x : ℕ → α) : form u (a • x) = a * form u x := by
  simp [form, mul_sum, mul_left_comm]

theorem form_zero (u : List α) : form u 0 = 0 := by
  simp [form]

/-- The inner product of two lists applies one as a form to the other. -/
theorem dot_eq_form (u v : List α) : dot u v = form u (entries v) := by
  induction u generalizing v with
  | nil => simp [dot]
  | cons a u ih =>
    cases v with
    | nil =>
      have hzero : entries ([] : List α) = 0 := by
        funext i
        simp [entries]
      simp [dot, hzero, form_zero]
    | cons b v =>
      rw [form_cons]
      exact congrArg (a * b + ·) (ih v)

theorem length_combine {a b : α} {u v : List α} (h : u.length = v.length) :
    (combine a u b v).length = u.length := by
  simp [combine, h]

theorem getD_zipWith
    {f : α → α → α} (hf : f 0 0 = 0) {u v : List α} (h : u.length = v.length) (i : ℕ) :
    (List.zipWith f u v).getD i 0 = f (u.getD i 0) (v.getD i 0) := by
  by_cases hi : i < u.length
  · have hi' : i < v.length := h ▸ hi
    simp [List.getD_eq_getElem?_getD, hi, hi']
  · have hi' : ¬i < v.length := h ▸ hi
    have hnone : u[i]? = none := List.getElem?_eq_none (Nat.not_lt.1 hi)
    have hnone' : v[i]? = none := List.getElem?_eq_none (Nat.not_lt.1 hi')
    simp [List.getD_eq_getElem?_getD, List.getElem?_zipWith, hnone, hnone', hf]

theorem entries_combine {a b : α} {u v : List α} (h : u.length = v.length) :
    entries (combine a u b v) = a • entries u + b • entries v := by
  funext i
  exact getD_zipWith (f := fun x y => a * x + b * y) (by simp) h i

namespace Row

/-- Whether numbers for all unknowns satisfy the row. -/
def HoldsAt (r : Row α) (x : ℕ → α) : Prop := form r.coefficients x = r.rhs

theorem form_eq_sum {r : Row α} {n : ℕ} (h : r.coefficients.length = n) (x : ℕ → α) :
    form r.coefficients x = ∑ i ∈ range n, r.entry i * x i := by
  subst h
  rfl

/-- The row of an equation holds exactly if the equation does. -/
theorem holdsAt_ofEquation_iff_sum {e : Equation} {n : ℕ} (x : ℕ → ℤ) :
    (ofEquation n e).HoldsAt x ↔ ∑ i ∈ range n, e.coefficient i * x i = e.rhs := by
  have hlength : (ofEquation n e).coefficients.length = n := by simp [ofEquation]
  rw [HoldsAt, form_eq_sum hlength]
  have hsum : ∑ i ∈ range n, (ofEquation n e).entry i * x i =
      ∑ i ∈ range n, e.coefficient i * x i := by
    refine sum_congr rfl fun i hi => ?_
    have hlt : i < n := mem_range.1 hi
    simp [entry, ofEquation, hlt]
  rw [hsum]
  rfl

/-- An integral row holds at integers exactly if it holds at them as rationals. -/
theorem holdsAt_map_cast_iff (r : Row ℤ) (x : ℕ → ℤ) :
    (r.map fun n : ℤ => (n : ℚ)).HoldsAt (fun i => (x i : ℚ)) ↔ r.HoldsAt x := by
  have hform : form (r.map fun n : ℤ => (n : ℚ)).coefficients (fun i => (x i : ℚ)) =
      ((form r.coefficients x : ℤ) : ℚ) := by
    have hlength : (r.map fun n : ℤ => (n : ℚ)).coefficients.length = r.coefficients.length := by
      simp [map]
    rw [form, form, hlength, Int.cast_sum]
    refine sum_congr rfl fun i hi => ?_
    have hlt : i < r.coefficients.length := mem_range.1 hi
    simp [map, hlt]
  rw [HoldsAt, HoldsAt, hform]
  exact Int.cast_inj

end Row

/-- The numbers of an answer, zero where it has none. -/
def valueAt (values : List (ℕ × ℚ)) (i : ℕ) : ℚ := (values.lookup i).getD 0

/-- An answer that lists no unknown twice gives each the number listed for it. -/
theorem valueAt_of_mem
    {values : List (ℕ × ℚ)} (h : values.Pairwise fun a b => a.1 ≠ b.1) {i : ℕ} {v : ℚ}
    (hmem : (i, v) ∈ values) : valueAt values i = v := by
  obtain ⟨before, after, rfl⟩ := List.append_of_mem hmem
  have hbefore : ∀ e ∈ before, (i != e.1) = true := fun e he =>
    bne_iff_ne.2 ((List.pairwise_append.1 h).2.2 e he (i, v) List.mem_cons_self).symm
  rw [valueAt, List.lookup_eq_some_iff.2 ⟨before, after, rfl, hbefore⟩]
  rfl

theorem mem_of_valueAt_ne_zero
    {values : List (ℕ × ℚ)} {i : ℕ} (hi : valueAt values i ≠ 0) :
    (i, valueAt values i) ∈ values := by
  cases hlookup : values.lookup i with
  | none => exact absurd (by rw [valueAt, hlookup]; rfl) hi
  | some v =>
    rw [valueAt, hlookup]
    obtain ⟨before, after, rfl, -⟩ := List.lookup_eq_some_iff.1 hlookup
    exact List.mem_append_right _ List.mem_cons_self

/-- The numbers of an integral answer are integers. -/
theorem valueAt_eq_num {values : List (ℕ × ℚ)} (h : ∀ v ∈ values, v.2.den = 1) (i : ℕ) :
    valueAt values i = ((valueAt values i).num : ℚ) := by
  by_cases hzero : valueAt values i = 0
  · simp [hzero]
  · exact (Rat.coe_int_num_of_den_eq_one (h _ (mem_of_valueAt_ne_zero hzero))).symm

end Linear
end Metrology
