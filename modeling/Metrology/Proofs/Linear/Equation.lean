import Metrology.Proofs.Linear.Relations
import Mathlib.Algebra.BigOperators.Ring.Finset
import Mathlib.Tactic.Linarith
import Mathlib.Tactic.Ring

/-!
# What the equations of a relation mean

An equation is a sum over its coefficients.  The equation that a relation
becomes over one component holds at integers for the unknowns exactly if the
combination of the relation vanishes when the unknowns have these integers and
the constants their own.
-/

namespace Metrology
namespace Linear
namespace Equation

open Finset

/-- The unknowns of an equation are below a bound. -/
def Below (e : Equation) (n : Nat) : Prop := ∀ t ∈ e.terms.entries, t.1 < n

instance (e : Equation) (n : Nat) : Decidable (e.Below n) :=
  inferInstanceAs (Decidable (∀ t ∈ e.terms.entries, t.1 < n))

theorem sum_lookup
    {l : List (Nat × Int)} (hl : l.Pairwise fun a b => a.1 < b.1) {n : Nat}
    (hn : ∀ t ∈ l, t.1 < n) (x : Nat → Int) :
    l.foldr (fun t value => t.2 * x t.1 + value) 0 =
      ∑ i ∈ range n, (l.lookup i).getD 0 * x i := by
  induction l with
  | nil => simp
  | cons t rest ih =>
    obtain ⟨hlt, hrest⟩ := List.pairwise_cons.1 hl
    have hfresh : rest.lookup t.1 = none := by
      rw [List.lookup_eq_none_iff]
      intro t' ht'
      have hne : t.1 ≠ t'.1 := Nat.ne_of_lt (hlt t' ht')
      simpa using hne
    have hsplit : ∀ i, (((t :: rest).lookup i).getD 0) * x i =
        (if i = t.1 then t.2 * x t.1 else 0) + (rest.lookup i).getD 0 * x i := by
      intro i
      rw [SortedMap.lookup_cons_eq_ite]
      by_cases hi : i = t.1
      · simp [hi, hfresh]
      · simp [hi]
    rw [List.foldr_cons, ih hrest fun t' ht' => hn t' (by simp [ht'])]
    simp only [hsplit, sum_add_distrib, sum_ite_eq', mem_range]
    rw [if_pos (hn t (by simp))]

/-- The left-hand side is the sum of the coefficients times the unknowns. -/
theorem value_eq_sum {e : Equation} {n : Nat} (hn : e.Below n) (x : Nat → Int) :
    e.value x = ∑ i ∈ range n, e.coefficient i * x i :=
  sum_lookup e.terms.sorted hn x

/-- Only the unknowns of an equation matter. -/
theorem holds_congr {e : Equation} {n : Nat} (hn : e.Below n) {x y : Nat → Int}
    (h : ∀ i < n, x i = y i) : e.Holds x ↔ e.Holds y := by
  have hvalue : e.value x = e.value y := by
    rw [value_eq_sum hn, value_eq_sum hn]
    refine sum_congr rfl fun i hi => ?_
    rw [h i (mem_range.1 hi)]
  rw [Holds, Holds, hvalue]

theorem exists_below (e : Equation) : ∃ n, e.Below n := by
  suffices h : ∀ l : List (Nat × Int), ∃ n, ∀ t ∈ l, t.1 < n from h e.terms.entries
  intro l
  induction l with
  | nil => exact ⟨0, by simp⟩
  | cons t rest ih =>
    obtain ⟨n, hn⟩ := ih
    refine ⟨max n (t.1 + 1), fun t' ht' => ?_⟩
    rcases List.mem_cons.1 ht' with rfl | ht'
    · omega
    · have hlt := hn t' ht'
      omega

theorem Below.mono {e : Equation} {n m : Nat} (h : e.Below n) (hnm : n ≤ m) : e.Below m :=
  fun t ht => Nat.lt_of_lt_of_le (h t ht) hnm

/-! ## Adding terms -/

theorem addTerm_of_eq_zero {e : Equation} {i : Nat} {k : Int} (h : e.coefficient i + k = 0) :
    e.addTerm i k = { e with terms := e.terms.erase i } := by
  simp [addTerm, h]

theorem addTerm_of_ne_zero {e : Equation} {i : Nat} {k : Int} (h : e.coefficient i + k ≠ 0) :
    e.addTerm i k = { e with terms := e.terms.insert i (e.coefficient i + k) } := by
  simp [addTerm, h]

theorem coefficient_addTerm (e : Equation) (i j : Nat) (k : Int) :
    (e.addTerm i k).coefficient j = e.coefficient j + if j = i then k else 0 := by
  by_cases hzero : e.coefficient i + k = 0
  · rw [addTerm_of_eq_zero hzero]
    by_cases hj : j = i
    · subst hj
      simpa [coefficient, SortedMap.get?_erase] using hzero.symm
    · simp [coefficient, SortedMap.get?_erase, hj]
  · rw [addTerm_of_ne_zero hzero]
    by_cases hj : j = i
    · subst hj
      simp [coefficient]
    · simp [coefficient, SortedMap.get?_insert, hj]

/-- Adding a term stores the sum of two coefficients, unless it is zero. -/
theorem mem_entries_addTerm {e : Equation} {i : Nat} {k : Int} {t : Nat × Int}
    (ht : t ∈ (e.addTerm i k).terms.entries) :
    (t = (i, e.coefficient i + k) ∧ t.2 ≠ 0) ∨ t ∈ e.terms.entries := by
  by_cases hzero : e.coefficient i + k = 0
  · rw [addTerm_of_eq_zero hzero] at ht
    exact .inr (List.mem_filter.1 ht).1
  · rw [addTerm_of_ne_zero hzero] at ht
    rcases SortedMap.mem_insertEntry ht with rfl | ht
    · exact .inl ⟨rfl, hzero⟩
    · exact .inr ht

theorem below_addTerm {e : Equation} {i n : Nat} {k : Int} (h : e.Below n) (hi : i < n) :
    (e.addTerm i k).Below n := by
  intro t ht
  rcases mem_entries_addTerm ht with ⟨rfl, -⟩ | ht
  · exact hi
  · exact h t ht

@[simp]
theorem rhs_addTerm (e : Equation) (i : Nat) (k : Int) : (e.addTerm i k).rhs = e.rhs := by
  by_cases hzero : e.coefficient i + k = 0
  · rw [addTerm_of_eq_zero hzero]
  · rw [addTerm_of_ne_zero hzero]

/-- Adding a term adds its multiple of the unknown. -/
theorem value_addTerm (e : Equation) (i : Nat) (k : Int) (x : Nat → Int) :
    (e.addTerm i k).value x = e.value x + k * x i := by
  obtain ⟨n, hn⟩ := e.exists_below
  have hn' : e.Below (max n (i + 1)) := hn.mono (Nat.le_max_left ..)
  have hi : i < max n (i + 1) := by omega
  rw [value_eq_sum (below_addTerm hn' hi), value_eq_sum hn']
  simp only [coefficient_addTerm, add_mul, sum_add_distrib, ite_mul, zero_mul, sum_ite_eq',
    mem_range]
  rw [if_pos hi]

/-- An equation without terms compares zero with its right-hand side. -/
theorem value_of_isConstant {e : Equation} (h : e.isConstant = true) (x : Nat → Int) :
    e.value x = 0 := by
  have hnil : e.terms.entries = [] := by
    simpa [isConstant, SortedMap.isEmpty] using h
  rw [value, hnil, List.foldr_nil]

theorem holds_iff_of_isConstant {e : Equation} (h : e.isConstant = true) (x : Nat → Int) :
    e.Holds x ↔ e.rhs = 0 := by
  rw [Holds, value_of_isConstant h, eq_comm]

end Equation

/-! ## Equations of relations -/

namespace Relation

variable {unknowns : List SlotId} {c : Component} {x : Nat → Int}

/-- The integer of an operand: a constant's own, or that of its unknown. -/
def operandValue
    (unknowns : List SlotId) (c : Component) (x : Nat → Int) (o : Operand) : Int :=
  match o.slot with
  | .constant q => c.valueIn q
  | .unknown _ =>
    match unknowns.idxOf? o.id with
    | some index => x index
    | none => 0

theorem value_addTo (e : Equation) (t : Operand × Int) :
    (addTo unknowns c e t).value x - (addTo unknowns c e t).rhs =
      e.value x - e.rhs + t.2 * operandValue unknowns c x t.1 := by
  unfold addTo operandValue
  cases t.1.slot with
  | constant q =>
    cases q with
    | concrete u =>
      simp only [Equation.addRhs, Component.valueIn]
      change e.value x - _ = _
      ring
    | top | bottom | poly => simp [Component.valueIn]
  | unknown location =>
    cases unknowns.idxOf? t.1.id with
    | none => simp
    | some index =>
      simp only [Equation.value_addTerm, Equation.rhs_addTerm]
      ring

variable (unknowns c x) in
theorem value_foldl_addTo (terms : List (Operand × Int)) (e : Equation) :
    (terms.foldl (addTo unknowns c) e).value x - (terms.foldl (addTo unknowns c) e).rhs =
      e.value x - e.rhs + (terms.map fun t => t.2 * operandValue unknowns c x t.1).sum := by
  induction terms generalizing e with
  | nil => simp
  | cons t rest ih =>
    rw [List.foldl_cons, ih, value_addTo, List.map_cons, List.sum_cons]
    ring

/-- The equation of a relation holds exactly if the combination of the operands' integers
vanishes. -/
theorem equation_holds_iff {r : Relation} :
    (r.equation unknowns c).Holds x ↔
      (r.terms.map fun t => t.2 * operandValue unknowns c x t.1).sum = 0 := by
  have h := value_foldl_addTo unknowns c x r.terms Equation.trivial
  have hzero : Equation.trivial.value x - Equation.trivial.rhs = 0 := rfl
  rw [hzero, zero_add] at h
  rw [← h, Equation.Holds, sub_eq_zero]
  rfl

theorem below_addTo {e : Equation} (h : e.Below unknowns.length) (t : Operand × Int) :
    (addTo unknowns c e t).Below unknowns.length := by
  unfold addTo
  split
  · exact h
  · exact h
  · split
    · rename_i index hindex
      have hlt : index < unknowns.length := by
        obtain ⟨h, -⟩ := List.idxOf?_eq_some_iff.1 hindex
        exact h
      exact Equation.below_addTerm h hlt
    · exact h

theorem below_equation (r : Relation) : (r.equation unknowns c).Below unknowns.length := by
  suffices h : ∀ (terms : List (Operand × Int)) (e : Equation), e.Below unknowns.length →
      (terms.foldl (addTo unknowns c) e).Below unknowns.length from
    h r.terms Equation.trivial (by simp [Equation.Below, Equation.trivial, SortedMap.empty])
  intro terms
  induction terms with
  | nil => exact fun e he => he
  | cons t rest ih => exact fun e he => ih _ (below_addTo he t)

end Relation
end Linear
end Metrology
