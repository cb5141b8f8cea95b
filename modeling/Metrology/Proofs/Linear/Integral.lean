import Metrology.Proofs.Linear.Gcd
import Mathlib.Algebra.Algebra.Operations
import Mathlib.Algebra.Algebra.Pi

/-!
# Exactness of the integral elimination

The integer solutions of the rows that have been processed are a point plus the lattice of the
free columns.  Column operations keep the lattice, and a row either fixes the coordinate of one
column or shows that no integers satisfy the rows.
-/

namespace Metrology
namespace Linear

namespace Integral

open Submodule

/-! ## Lattices of columns -/

/-- The integer combinations of columns. -/
def lattice (columns : List (List ℤ)) : Submodule ℤ (ℕ → ℤ) :=
  span ℤ (entries '' {c | c ∈ columns})

theorem lattice_cons (c : List ℤ) (columns : List (List ℤ)) :
    lattice (c :: columns) = span ℤ {entries c} ⊔ lattice columns := by
  have hset : entries '' {d | d ∈ c :: columns} =
      insert (entries c) (entries '' {d | d ∈ columns}) := by
    rw [← Set.image_insert_eq]
    congr 1
    ext d
    simp
  rw [lattice, lattice, hset, span_insert]

/-- A form that vanishes on columns vanishes on their lattice. -/
theorem form_eq_zero_of_mem_lattice
    {u : List ℤ} {columns : List (List ℤ)} (h : ∀ c ∈ columns, dot u c = 0)
    {z : ℕ → ℤ} (hz : z ∈ lattice columns) : form u z = 0 := by
  induction hz using span_induction with
  | mem z hz =>
    obtain ⟨c, hc, rfl⟩ := hz
    rw [← dot_eq_form]
    exact h c hc
  | zero => exact form_zero u
  | add x y _ _ hx hy => rw [form_add, hx, hy, add_zero]
  | smul a x _ hx => rw [form_smul, hx, mul_zero]

/-! ## Column operations -/

section Columns

variable {n : ℕ} {u p c : List ℤ}

/-- What is left of two columns when the product of the second is moved into the first. -/
structure Absorbed (n : ℕ) (u p c p' c' : List ℤ) : Prop where
  pivot_length : p'.length = n
  column_length : c'.length = n
  product : dot u c' = 0
  span_eq : span ℤ {entries p', entries c'} = span ℤ {entries p, entries c}

theorem absorb_absorbed (hp : p.length = n) (hc : c.length = n) :
    Absorbed n u p c (absorb u p c).1 (absorb u p c).2 := by
  have hlength : p.length = c.length := hp.trans hc.symm
  by_cases hb : dot u c = 0
  · rw [absorb, if_pos hb]
    exact ⟨hp, hc, hb, rfl⟩
  · rcases hgcd : extendedGcd (dot u p) (dot u c) with ⟨g, s, t⟩
    have hproducts := (dot_absorb hlength hb).trans (columnStep_mulVec hgcd)
    refine ⟨?_, ?_, congrFun hproducts 1, ?_⟩
    · rw [absorb_eq_columnStep hb]
      exact (length_combine hlength).trans hp
    · rw [absorb_eq_columnStep hb]
      exact (length_combine hlength).trans hp
    · set a := (dot u p).tdiv g
      set b := (dot u c).tdiv g
      have hdet : s * a + t * b = 1 := (isExtendedGcd_of_eq hgcd).bezout_tdiv hb
      have habsorb : absorb u p c = (combine s p t c, combine (-b) p a c) := by
        rw [absorb_eq_columnStep hb, columnStep_eq hgcd]
        rfl
      rw [habsorb, entries_combine hlength, entries_combine hlength]
      apply le_antisymm
      · exact span_le.2 (Set.pair_subset (mem_span_pair.2 ⟨s, t, rfl⟩)
          (mem_span_pair.2 ⟨-b, a, rfl⟩))
      · refine span_le.2 (Set.pair_subset (mem_span_pair.2 ⟨a, -t, ?_⟩)
          (mem_span_pair.2 ⟨b, s, ?_⟩))
        · linear_combination hdet • entries p
        · linear_combination hdet • entries c

/-- A sweep keeps the lattice and leaves a product with the row in the pivot only. -/
structure Swept (n : ℕ) (u p : List ℤ) (columns : List (List ℤ)) (p' : List ℤ)
    (columns' : List (List ℤ)) : Prop where
  pivot_length : p'.length = n
  column_length : ∀ c ∈ columns', c.length = n
  product : ∀ c ∈ columns', dot u c = 0
  lattice_eq : lattice (p' :: columns') = lattice (p :: columns)

theorem sweep_swept
    (hp : p.length = n) {columns : List (List ℤ)} (hcolumns : ∀ c ∈ columns, c.length = n) :
    Swept n u p columns (sweep u p columns).1 (sweep u p columns).2 := by
  induction columns generalizing p with
  | nil => exact ⟨hp, by simp [sweep], by simp [sweep], rfl⟩
  | cons c rest ih =>
    obtain ⟨hc, hrest⟩ := List.forall_mem_cons.1 hcolumns
    have habsorb := absorb_absorbed (u := u) hp hc
    have hsweep := ih habsorb.pivot_length hrest
    have heq := hsweep.lattice_eq
    simp only [lattice_cons] at heq
    refine ⟨hsweep.pivot_length,
      List.forall_mem_cons.2 ⟨habsorb.column_length, hsweep.column_length⟩,
      List.forall_mem_cons.2 ⟨habsorb.product, hsweep.product⟩, ?_⟩
    simp only [sweep, lattice_cons]
    have hpair := habsorb.span_eq
    rw [span_insert, span_insert] at hpair
    rw [sup_left_comm, heq, sup_left_comm, ← sup_assoc, hpair, sup_assoc]

end Columns

/-! ## Rows -/

/-- The point that the determined coordinates give. -/
def base (fixed : List (ℤ × List ℤ)) : ℕ → ℤ := (fixed.map fun c => c.1 • entries c.2).sum

theorem fixedValue_eq_form (u : List ℤ) (fixed : List (ℤ × List ℤ)) :
    fixedValue u fixed = form u (base fixed) := by
  induction fixed with
  | nil => exact (form_zero u).symm
  | cons c rest ih =>
    have hbase : base (c :: rest) = c.1 • entries c.2 + base rest := by simp [base]
    have hvalue : fixedValue u (c :: rest) = dot u c.2 * c.1 + fixedValue u rest := rfl
    rw [hvalue, hbase, form_add, form_smul, ← dot_eq_form, ih, mul_comm]

theorem base_append_singleton (fixed : List (ℤ × List ℤ)) (c : ℤ × List ℤ) :
    base (fixed ++ [c]) = base fixed + c.1 • entries c.2 := by
  simp [base]

/-- After a number of rows, their solutions are the point of the determined coordinates plus
the lattice of the free columns.  Numbers count as zero from `n` on. -/
structure Invariant (n : ℕ) (rows : List (Row ℤ)) (s : State) : Prop where
  fixed_length : ∀ c ∈ s.fixed, c.2.length = n
  free_length : ∀ c ∈ s.free, c.length = n
  solutions : ∀ x : ℕ → ℤ, (∀ i, n ≤ i → x i = 0) →
    ((∀ r ∈ rows, r.HoldsAt x) ↔ x - base s.fixed ∈ lattice s.free)

section Step

variable {n : ℕ} {rows : List (Row ℤ)} {s : State} {r : Row ℤ}

/-- A row at a point of the lattice of a pivot and of columns that the row vanishes on. -/
theorem holdsAt_iff_of_mem
    {fixed : List (ℤ × List ℤ)} {p : List ℤ} {columns : List (List ℤ)}
    (hproduct : ∀ c ∈ columns, dot r.coefficients c = 0) {x : ℕ → ℤ} {a : ℤ}
    (hx : x - base fixed - a • entries p ∈ lattice columns) :
    r.HoldsAt x ↔ a * dot r.coefficients p = r.rhs - fixedValue r.coefficients fixed := by
  have hform := form_eq_zero_of_mem_lattice hproduct hx
  rw [form_sub, form_sub, form_smul, ← dot_eq_form, ← fixedValue_eq_form] at hform
  rw [Row.HoldsAt]
  constructor <;> intro h <;> linarith

theorem mem_lattice_cons_iff {p : List ℤ} {columns : List (List ℤ)} {y : ℕ → ℤ} :
    y ∈ lattice (p :: columns) ↔ ∃ a : ℤ, y - a • entries p ∈ lattice columns := by
  rw [lattice_cons, mem_sup]
  constructor
  · rintro ⟨_, hp, z, hz, rfl⟩
    obtain ⟨a, rfl⟩ := mem_span_singleton.1 hp
    exact ⟨a, by rwa [add_sub_cancel_left]⟩
  · rintro ⟨a, ha⟩
    exact ⟨a • entries p, mem_span_singleton.2 ⟨a, rfl⟩, _, ha, add_sub_cancel _ _⟩

theorem forall_mem_concat_iff {P : Row ℤ → Prop} :
    (∀ r' ∈ rows ++ [r], P r') ↔ (∀ r' ∈ rows, P r') ∧ P r := by
  rw [List.forall_mem_append, List.forall_mem_singleton]

/-- Column operations that keep the lattice keep the invariant. -/
theorem Invariant.of_swept
    {fixed : List (ℤ × List ℤ)} {p p' : List ℤ} {columns columns' : List (List ℤ)} {u : List ℤ}
    (h : Invariant n rows ⟨fixed, p :: columns⟩) (hswept : Swept n u p columns p' columns') :
    Invariant n rows ⟨fixed, p' :: columns'⟩ where
  fixed_length := h.fixed_length
  free_length := List.forall_mem_cons.2 ⟨hswept.pivot_length, hswept.column_length⟩
  solutions x hx := by
    rw [h.solutions x hx]
    exact hswept.lattice_eq ▸ Iff.rfl

/-- A row that vanishes on all free columns holds at the solutions so far exactly if the
determined coordinates give its right-hand side. -/
theorem Invariant.holdsAt_iff_of_vanishing
    (h : Invariant n rows s) (hproduct : ∀ c ∈ s.free, dot r.coefficients c = 0)
    {x : ℕ → ℤ} (hx : ∀ i, n ≤ i → x i = 0) (hrows : ∀ r' ∈ rows, r'.HoldsAt x) :
    r.HoldsAt x ↔ r.rhs - fixedValue r.coefficients s.fixed = 0 := by
  have hmem := (h.solutions x hx).1 hrows
  have hform := form_eq_zero_of_mem_lattice hproduct hmem
  rw [form_sub, ← fixedValue_eq_form] at hform
  rw [Row.HoldsAt]
  constructor <;> intro h <;> linarith

theorem Invariant.concat_of_vanishing
    (h : Invariant n rows s) (hproduct : ∀ c ∈ s.free, dot r.coefficients c = 0)
    (hresidual : r.rhs - fixedValue r.coefficients s.fixed = 0) :
    Invariant n (rows ++ [r]) s where
  fixed_length := h.fixed_length
  free_length := h.free_length
  solutions x hx := by
    rw [forall_mem_concat_iff, ← h.solutions x hx, and_iff_left_iff_imp]
    intro hrows
    exact (h.holdsAt_iff_of_vanishing hproduct hx hrows).2 hresidual

/-- A row that vanishes on all free columns but the first determines its coordinate. -/
theorem Invariant.holdsAt_iff_of_pivot
    {fixed : List (ℤ × List ℤ)} {p : List ℤ} {columns : List (List ℤ)}
    (h : Invariant n rows ⟨fixed, p :: columns⟩)
    (hproduct : ∀ c ∈ columns, dot r.coefficients c = 0)
    {x : ℕ → ℤ} (hx : ∀ i, n ≤ i → x i = 0) :
    (∀ r' ∈ rows ++ [r], r'.HoldsAt x) ↔
      ∃ a : ℤ, x - base fixed - a • entries p ∈ lattice columns ∧
        a * dot r.coefficients p = r.rhs - fixedValue r.coefficients fixed := by
  rw [forall_mem_concat_iff, h.solutions x hx, mem_lattice_cons_iff]
  constructor
  · rintro ⟨⟨a, ha⟩, hr⟩
    exact ⟨a, ha, (holdsAt_iff_of_mem hproduct ha).1 hr⟩
  · rintro ⟨a, ha, heq⟩
    exact ⟨⟨a, ha⟩, (holdsAt_iff_of_mem hproduct ha).2 heq⟩

theorem Invariant.concat_of_pivot
    {fixed : List (ℤ × List ℤ)} {p : List ℤ} {columns : List (List ℤ)}
    (h : Invariant n rows ⟨fixed, p :: columns⟩)
    (hproduct : ∀ c ∈ columns, dot r.coefficients c = 0)
    (hp : dot r.coefficients p ≠ 0) {a : ℤ}
    (ha : a * dot r.coefficients p = r.rhs - fixedValue r.coefficients fixed) :
    Invariant n (rows ++ [r]) ⟨fixed ++ [(a, p)], columns⟩ where
  fixed_length := by
    rw [List.forall_mem_append, List.forall_mem_singleton]
    exact ⟨h.fixed_length, h.free_length p List.mem_cons_self⟩
  free_length := (List.forall_mem_cons.1 h.free_length).2
  solutions x hx := by
    rw [h.holdsAt_iff_of_pivot hproduct hx, base_append_singleton, ← sub_sub]
    constructor
    · rintro ⟨a', hmem, ha'⟩
      have heq : a' = a := mul_right_cancel₀ hp (ha'.trans ha.symm)
      exact heq ▸ hmem
    · intro hmem
      exact ⟨a, hmem, ha⟩

theorem length_sweep (u p : List ℤ) (columns : List (List ℤ)) :
    (sweep u p columns).2.length = columns.length := by
  induction columns generalizing p with
  | nil => rfl
  | cons c rest ih => exact congrArg (· + 1) (ih _)

/-- What a processed row does to a state: the free columns are swept, and the first of them gets
a coordinate if the row does not vanish on it. -/
theorem step_cases
    {s' : State} (hfree : ∀ c ∈ s.free, c.length = n) (hstep : step s r = some s') :
    (s.free = [] ∧ r.rhs - fixedValue r.coefficients s.fixed = 0 ∧ s' = s) ∨
    ∃ first others p rest, s.free = first :: others ∧
      Swept n r.coefficients first others p rest ∧ rest.length = others.length ∧
      ((dot r.coefficients p = 0 ∧ r.rhs - fixedValue r.coefficients s.fixed = 0 ∧
          s' = ⟨s.fixed, p :: rest⟩) ∨
        (dot r.coefficients p ≠ 0 ∧
          ∃ a, a * dot r.coefficients p = r.rhs - fixedValue r.coefficients s.fixed ∧
            s' = ⟨s.fixed ++ [(a, p)], rest⟩)) := by
  obtain ⟨fixed, free⟩ := s
  cases free with
  | nil =>
    simp only [step, Option.ite_none_right_eq_some, Option.some.injEq] at hstep
    exact .inl ⟨rfl, hstep.1, hstep.2.symm⟩
  | cons first others =>
    obtain ⟨hfirst, hothers⟩ := List.forall_mem_cons.1 hfree
    refine .inr ⟨first, others, _, _, rfl, sweep_swept (u := r.coefficients) hfirst hothers,
      length_sweep _ _ _, ?_⟩
    simp only [step] at hstep
    by_cases hzero : dot r.coefficients (sweep r.coefficients first others).1 = 0
    · rw [if_pos hzero] at hstep
      simp only [Option.ite_none_right_eq_some, Option.some.injEq] at hstep
      exact .inl ⟨hzero, hstep.1, hstep.2.symm⟩
    · rw [if_neg hzero] at hstep
      simp only [Option.ite_none_right_eq_some, Option.some.injEq] at hstep
      exact .inr ⟨hzero, _, Int.tdiv_mul_cancel (Int.dvd_of_tmod_eq_zero hstep.1), hstep.2.symm⟩

/-- A processed row keeps the invariant. -/
theorem step_eq_some
    {s' : State} (h : Invariant n rows s) (hstep : step s r = some s') :
    Invariant n (rows ++ [r]) s' := by
  obtain ⟨fixed, free⟩ := s
  obtain ⟨rfl, hresidual, rfl⟩ | ⟨first, others, p, rest, rfl, hswept, -, hcases⟩ :=
    step_cases h.free_length hstep
  · exact h.concat_of_vanishing (by simp) hresidual
  · -- after the sweep the row vanishes on every column but possibly the first
    have hinv := h.of_swept hswept
    obtain ⟨hzero, hresidual, rfl⟩ | ⟨hzero, a, ha, rfl⟩ := hcases
    · exact hinv.concat_of_vanishing (List.forall_mem_cons.2 ⟨hzero, hswept.product⟩) hresidual
    · exact hinv.concat_of_pivot hswept.product hzero ha

/-- Where a row is refused, no integers satisfy it and the rows before. -/
theorem step_eq_none
    (h : Invariant n rows s) (hstep : step s r = none) {x : ℕ → ℤ}
    (hx : ∀ i, n ≤ i → x i = 0) : ¬∀ r' ∈ rows ++ [r], r'.HoldsAt x := by
  obtain ⟨fixed, free⟩ := s
  intro hholds
  obtain ⟨hrows, hr⟩ := forall_mem_concat_iff.1 hholds
  cases free with
  | nil =>
    simp only [step, ite_eq_right_iff, reduceCtorEq, imp_false] at hstep
    exact hstep ((h.holdsAt_iff_of_vanishing (by simp) hx hrows).1 hr)
  | cons first others =>
    obtain ⟨hfirst, hothers⟩ := List.forall_mem_cons.1 h.free_length
    have hswept := sweep_swept (u := r.coefficients) hfirst hothers
    have hinv := h.of_swept hswept
    simp only [step] at hstep
    by_cases hzero : dot r.coefficients (sweep r.coefficients first others).1 = 0
    · rw [if_pos hzero] at hstep
      simp only [ite_eq_right_iff, reduceCtorEq, imp_false] at hstep
      exact hstep ((hinv.holdsAt_iff_of_vanishing
        (List.forall_mem_cons.2 ⟨hzero, hswept.product⟩) hx hrows).1 hr)
    · rw [if_neg hzero] at hstep
      simp only [ite_eq_right_iff, reduceCtorEq, imp_false] at hstep
      -- the coordinate of a solution witnesses the divisibility that the step found missing
      obtain ⟨a, -, ha⟩ := (hinv.holdsAt_iff_of_pivot hswept.product hx).1 hholds
      exact hstep (Int.tmod_eq_zero_of_dvd ⟨a, by rw [← ha, mul_comm]⟩)

end Step

/-! ## All rows -/

section Run

variable {n : ℕ} {rows processed : List (Row ℤ)}

theorem entries_unitColumn (n j : ℕ) :
    entries (unitColumn n j) = fun i => if i < n ∧ i = j then 1 else 0 := by
  funext i
  by_cases hi : i < n <;> simp [entries, unitColumn, hi]

/-- Before any row, every unknown is its own coordinate. -/
theorem initial_invariant (n : ℕ) : Invariant n [] (initial n) where
  fixed_length := by simp [initial]
  free_length := by simp [initial, unitColumn]
  solutions x hx := by
    have hbase : base (initial n).fixed = 0 := rfl
    have hsum : x = ∑ j ∈ Finset.range n, x j • entries (unitColumn n j) := by
      funext i
      rw [Finset.sum_apply]
      simp only [entries_unitColumn, Pi.smul_apply, smul_eq_mul, mul_ite, mul_one, mul_zero]
      by_cases hi : i < n
      · simp [hi]
      · simp [hi, hx i (Nat.not_lt.1 hi)]
    rw [hbase, sub_zero]
    refine iff_of_true (by simp) ?_
    rw [hsum]
    refine sum_mem fun j hj => smul_mem _ _ (subset_span ⟨unitColumn n j, ?_, rfl⟩)
    exact List.mem_map.2 ⟨j, List.mem_range.2 (Finset.mem_range.1 hj), rfl⟩

theorem run_eq_some
    {s s' : State} (h : Invariant n processed s) (hrun : rows.foldlM step s = some s') :
    Invariant n (processed ++ rows) s' := by
  induction rows generalizing processed s with
  | nil =>
    cases hrun
    rwa [List.append_nil]
  | cons r rest ih =>
    rw [List.foldlM_cons] at hrun
    obtain ⟨t, ht, hrest⟩ := Option.bind_eq_some_iff.1 hrun
    rw [List.append_cons]
    exact ih (step_eq_some h ht) hrest

theorem run_eq_none
    {s : State} (h : Invariant n processed s) (hrun : rows.foldlM step s = none) {x : ℕ → ℤ}
    (hx : ∀ i, n ≤ i → x i = 0) : ¬∀ r ∈ processed ++ rows, r.HoldsAt x := by
  induction rows generalizing processed s with
  | nil => cases hrun
  | cons r rest ih =>
    rw [List.foldlM_cons] at hrun
    rw [List.append_cons]
    cases ht : step s r with
    | none =>
      intro hholds
      exact step_eq_none h ht hx (List.forall_mem_append.1 hholds).1
    | some t =>
      rw [ht] at hrun
      exact ih (step_eq_some h ht) hrun

theorem entries_foldl_combine
    {fixed : List (ℤ × List ℤ)} (hfixed : ∀ c ∈ fixed, c.2.length = n) {x : List ℤ}
    (hx : x.length = n) :
    (fixed.foldl (fun x c => combine 1 x c.1 c.2) x).length = n ∧
      entries (fixed.foldl (fun x c => combine 1 x c.1 c.2) x) = entries x + base fixed := by
  induction fixed generalizing x with
  | nil => simp [hx, base]
  | cons c rest ih =>
    obtain ⟨hc, hrest⟩ := List.forall_mem_cons.1 hfixed
    have hlength : x.length = c.2.length := hx.trans hc.symm
    obtain ⟨hlen, heq⟩ := ih hrest ((length_combine hlength).trans hx)
    refine ⟨hlen, ?_⟩
    rw [List.foldl_cons, heq, entries_combine hlength, one_smul, add_assoc]
    simp [base]

/-- The listed point of a state is the point of its determined coordinates. -/
theorem point_spec {s : State} (h : Invariant n rows s) :
    (s.point n).length = n ∧ entries (s.point n) = base s.fixed := by
  obtain ⟨hlength, hentries⟩ :=
    entries_foldl_combine h.fixed_length (List.length_replicate (n := n) (a := 0))
  refine ⟨hlength, hentries.trans ?_⟩
  have hzero : entries (List.replicate n (0 : ℤ)) = 0 := by
    funext i
    by_cases hi : i < n <;> simp [entries, List.getD_eq_getElem?_getD, hi]
  rw [hzero, zero_add]

/-- The determined coordinates give a solution of all rows. -/
theorem Invariant.holdsAt_point {s : State} (h : Invariant n rows s) :
    ∀ r ∈ rows, r.HoldsAt (entries (s.point n)) := by
  obtain ⟨hlength, hentries⟩ := point_spec h
  refine (h.solutions _ ?_).2 ?_
  · intro i hi
    have hnone : (s.point n)[i]? = none := List.getElem?_eq_none (hlength.le.trans hi)
    rw [entries, List.getD_eq_getElem?_getD, hnone, Option.getD_none]
  · rw [hentries, sub_self]
    exact zero_mem _

end Run

/-! ## The answer -/

/-- The numbers of a list that are not zero, with their places. -/
def nonzeroValues (x : List ℤ) : List (ℕ × ℚ) :=
  x.zipIdx.filterMap fun e => if e.1 = 0 then none else some (e.2, (e.1 : ℚ))

theorem mem_nonzeroValues_iff {x : List ℤ} {v : ℕ × ℚ} :
    v ∈ nonzeroValues x ↔ ∃ k : ℤ, x[v.1]? = some k ∧ k ≠ 0 ∧ v.2 = k := by
  rw [nonzeroValues, List.mem_filterMap]
  constructor
  · rintro ⟨⟨k, i⟩, hmem, hv⟩
    rw [List.mem_zipIdx_iff_getElem?] at hmem
    by_cases hk : k = 0
    · simp [hk] at hv
    · rw [if_neg hk] at hv
      cases hv
      exact ⟨k, hmem, hk, rfl⟩
  · rintro ⟨k, hget, hk, hv⟩
    refine ⟨(k, v.1), List.mem_zipIdx_iff_getElem?.2 hget, ?_⟩
    rw [if_neg hk, ← hv]

theorem nonzeroValues_sorted (x : List ℤ) :
    (nonzeroValues x).Pairwise fun a b => a.1 < b.1 := by
  have hsorted : x.zipIdx.Pairwise fun a b => a.2 < b.2 := by
    rw [← List.pairwise_map (f := Prod.snd), List.zipIdx_map_snd]
    exact List.pairwise_lt_range'
  refine hsorted.filterMap _ ?_
  intro a b hlt c hc d hd
  simp only [Option.ite_none_left_eq_some, Option.some.injEq] at hc hd
  rw [← hc.2, ← hd.2]
  exact hlt

theorem valueAt_nonzeroValues (x : List ℤ) (i : ℕ) :
    valueAt (nonzeroValues x) i = ((entries x i : ℤ) : ℚ) := by
  by_cases hzero : entries x i = 0
  · rw [hzero, Int.cast_zero]
    by_contra hne
    obtain ⟨k, hget, hk, -⟩ := mem_nonzeroValues_iff.1
      (mem_of_valueAt_ne_zero hne)
    apply hk
    rw [← hzero, entries, List.getD_eq_getElem?_getD, hget, Option.getD_some]
  · apply valueAt_of_mem ((nonzeroValues_sorted x).imp Nat.ne_of_lt)
    refine mem_nonzeroValues_iff.2 ⟨entries x i, ?_, hzero, rfl⟩
    rw [entries, List.getD_eq_getElem?_getD] at hzero ⊢
    cases hget : x[i]? with
    | none => exact absurd (by rw [hget]; rfl) hzero
    | some k => rfl

section Solve

variable {n : ℕ} {rows : List (Row ℤ)}

/-- A system answered as unsatisfiable has no integer solution. -/
theorem not_holdsAt_of_solve_eq_unsat
    (h : solve n rows = .unsat) {x : ℕ → ℤ} (hx : ∀ i, n ≤ i → x i = 0) :
    ¬∀ r ∈ rows, r.HoldsAt x := by
  rw [solve] at h
  split at h
  case h_1 hrun => exact run_eq_none (initial_invariant n) hrun hx
  case h_2 => cases h

/-- The numbers of an answer are integers that satisfy the system; they are listed by
increasing unknown. -/
theorem holdsAt_of_solve_eq_sat
    {values : List (ℕ × ℚ)} (h : solve n rows = .sat values) :
    values.Pairwise (fun a b => a.1 < b.1) ∧ (∀ v ∈ values, v.1 < n ∧ v.2.den = 1) ∧
      ∃ x : ℕ → ℤ, (∀ i, valueAt values i = x i) ∧ ∀ r ∈ rows, r.HoldsAt x := by
  rw [solve] at h
  split at h
  case h_1 => cases h
  case h_2 s hrun =>
    have hinv := run_eq_some (initial_invariant n) hrun
    have hvalues : values = nonzeroValues (s.point n) := (Results.sat.inj h).symm
    subst hvalues
    refine ⟨nonzeroValues_sorted _, ?_, entries (s.point n), valueAt_nonzeroValues _,
      hinv.holdsAt_point⟩
    intro v hv
    obtain ⟨k, hget, -, hk⟩ := mem_nonzeroValues_iff.1 hv
    refine ⟨?_, ?_⟩
    · exact (point_spec hinv).1 ▸ (List.getElem?_eq_some_iff.1 hget).1
    · rw [hk]
      exact Rat.den_intCast k

end Solve

end Integral
end Linear
end Metrology
