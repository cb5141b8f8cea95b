import Metrology.Smt.Formula

/-!
# The meaning of formulas

A valuation gives every Boolean variable a truth value and every integer variable an integer.
The folding functions build formulas with the meaning of the connectives they stand for.
-/

namespace Metrology
namespace Smt

/-- Truth values and integers for all variables. -/
structure Valuation where
  flag : String → Bool
  int : String → Int

variable {v : Valuation}

/-! ## Terms -/

namespace Term

/-- The integer of a term. -/
def value (v : Valuation) : Term → Int
  | var name => v.int name
  | lit n => n
  | add a b => a.value v + b.value v
  | sub a b => a.value v - b.value v

@[simp]
theorem value_plus (a b : Term) : (a.plus b).value v = a.value v + b.value v := by
  unfold plus
  split <;> simp [value]

@[simp]
theorem value_minus (a b : Term) : (a.minus b).value v = a.value v - b.value v := by
  unfold minus
  split <;> simp [value]

end Term

/-! ## Formulas -/

namespace Formula

mutual

/-- Whether a formula holds. -/
def holds (v : Valuation) : Formula → Bool
  | lit b => b
  | var name => v.flag name
  | not f => !f.holds v
  | and fs => allHold v fs
  | or fs => anyHolds v fs
  | implies a b => !a.holds v || b.holds v
  | iff a b => a.holds v == b.holds v
  | eq a b => a.value v == b.value v

/-- Whether all formulas hold. -/
def allHold (v : Valuation) : List Formula → Bool
  | [] => true
  | f :: fs => f.holds v && allHold v fs

/-- Whether some formula holds. -/
def anyHolds (v : Valuation) : List Formula → Bool
  | [] => false
  | f :: fs => f.holds v || anyHolds v fs

end

theorem allHold_eq_all (fs : List Formula) : allHold v fs = fs.all (holds v) := by
  induction fs with
  | nil => rfl
  | cons f fs ih => rw [allHold, ih, List.all_cons]

theorem anyHolds_eq_any (fs : List Formula) : anyHolds v fs = fs.any (holds v) := by
  induction fs with
  | nil => rfl
  | cons f fs ih => rw [anyHolds, ih, List.any_cons]

@[simp]
theorem holds_negate (f : Formula) : f.negate.holds v = !f.holds v := by
  unfold negate
  split <;> simp [holds]

theorem isLit_iff {b : Bool} {f : Formula} : f.isLit b = true ↔ f = lit b := by
  cases f <;> simp [isLit]

theorem all_holds_conjuncts (f : Formula) : f.conjuncts.all (holds v) = f.holds v := by
  unfold conjuncts
  split <;> simp [holds, allHold_eq_all]

theorem any_holds_disjuncts (f : Formula) : f.disjuncts.any (holds v) = f.holds v := by
  unfold disjuncts
  split <;> simp [holds, anyHolds_eq_any]

@[simp]
theorem holds_conj (fs : List Formula) : (conj fs).holds v = fs.all (holds v) := by
  have hflat : (fs.flatMap conjuncts).all (holds v) = fs.all (holds v) := by
    rw [List.all_flatMap]
    exact congrArg fs.all (funext all_holds_conjuncts)
  unfold conj
  split
  · rename_i hany
    obtain ⟨f, hf, hlit⟩ := List.any_eq_true.1 hany
    rw [isLit_iff.1 hlit] at hf
    rw [holds, eq_comm, List.all_eq_false]
    exact ⟨lit false, hf, by simp [holds]⟩
  · rw [← hflat]
    split
    · rename_i hnil
      simp [hnil, holds]
    · rename_i f hsingle
      simp [hsingle]
    · rw [holds, allHold_eq_all]

@[simp]
theorem holds_disj (fs : List Formula) : (disj fs).holds v = fs.any (holds v) := by
  have hflat : (fs.flatMap disjuncts).any (holds v) = fs.any (holds v) := by
    rw [List.any_flatMap]
    exact congrArg fs.any (funext any_holds_disjuncts)
  unfold disj
  split
  · rename_i hany
    obtain ⟨f, hf, hlit⟩ := List.any_eq_true.1 hany
    rw [isLit_iff.1 hlit] at hf
    rw [holds, eq_comm, List.any_eq_true]
    exact ⟨lit true, hf, by simp [holds]⟩
  · rw [← hflat]
    split
    · rename_i hnil
      simp [hnil, holds]
    · rename_i f hsingle
      simp [hsingle]
    · rw [holds, anyHolds_eq_any]

@[simp]
theorem holds_imply (a b : Formula) : (imply a b).holds v = (!a.holds v || b.holds v) := by
  unfold imply
  split <;> simp [holds]

@[simp]
theorem holds_equiv (a b : Formula) : (equiv a b).holds v = (a.holds v == b.holds v) := by
  unfold equiv
  split
  · simp [holds]
  · simp [holds]
  · simp [holds]
  · simp [holds]
  · split
    · rename_i heq
      simp [heq, holds]
    · simp [holds]

@[simp]
theorem holds_equate (a b : Term) : (equate a b).holds v = (a.value v == b.value v) := by
  unfold equate
  split
  · simp [holds, Term.value]
  · split
    · rename_i heq
      simp [heq, holds]
    · simp [holds]

/-! ## Formulas as propositions -/

theorem holds_negate_iff {f : Formula} : f.negate.holds v = true ↔ ¬f.holds v = true := by
  simp

theorem holds_conj_iff {fs : List Formula} :
    (conj fs).holds v = true ↔ ∀ f ∈ fs, f.holds v = true := by
  simp

theorem holds_disj_iff {fs : List Formula} :
    (disj fs).holds v = true ↔ ∃ f ∈ fs, f.holds v = true := by
  simp

theorem holds_imply_iff {a b : Formula} :
    (imply a b).holds v = true ↔ (a.holds v = true → b.holds v = true) := by
  cases ha : a.holds v <;> simp [ha]

end Formula
end Smt
end Metrology
