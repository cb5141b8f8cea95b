import Metrology.Proofs.Linear.Integral
import Mathlib.Data.List.GetD
import Mathlib.LinearAlgebra.Matrix.NonsingularInverse

/-!
# The echelon form that the integral elimination reaches

The columns of a state form a matrix that has an inverse over the integers.  The rows that have
been processed, multiplied by this matrix, vanish from the first free column on, and they fix the
coordinates of the columns before it.  The products need not be computed anew for each row: the
same column operations on the products arrive at them.
-/

namespace Metrology
namespace Linear
namespace Integral

open Matrix Submodule

/-! ## Columns of a state -/

/-- The columns of a state, those with determined coordinates first. -/
def State.columns (s : State) : List (List ℤ) := s.fixed.map Prod.snd ++ s.free

/-- The matrix of the columns of a state. -/
def State.matrix (n : ℕ) (s : State) : Matrix (Fin n) (Fin n) ℤ :=
  of fun i j => entries (s.columns.getD j []) i

/-- The determined coordinates of a state, and zero for the free columns. -/
def State.coordinates (n : ℕ) (s : State) : Fin n → ℤ := fun j => entries (s.fixed.map Prod.fst) j

theorem lattice_append (l l' : List (List ℤ)) : lattice (l ++ l') = lattice l ⊔ lattice l' := by
  have hset : entries '' {c | c ∈ l ++ l'} = entries '' {c | c ∈ l} ∪ entries '' {c | c ∈ l'} := by
    rw [← Set.image_union]
    congr 1
    ext c
    exact List.mem_append
  rw [lattice, lattice, lattice, hset, span_union]

/-- The columns of a state are as many as the unknowns, and all integers for the unknowns are
combinations of them. -/
structure Complete (n : ℕ) (s : State) : Prop where
  length : s.columns.length = n
  spans : ∀ x : ℕ → ℤ, (∀ i, n ≤ i → x i = 0) → x ∈ lattice s.columns

section Step

variable {n : ℕ} {rows : List (Row ℤ)} {s s' : State} {r : Row ℤ}

theorem initial_complete (n : ℕ) : Complete n (initial n) where
  length := by simp [State.columns, initial]
  spans x hx := by
    have hmem := ((initial_invariant n).solutions x hx).1 (by simp)
    have hbase : base (initial n).fixed = 0 := rfl
    rwa [hbase, sub_zero] at hmem

/-- The columns after a processed row: those with coordinates before it are kept, and the others
generate what they generated before. -/
theorem step_columns
    (h : Invariant n rows s) (hstep : step s r = some s') :
    ∃ swept, s'.columns = s.fixed.map Prod.snd ++ swept ∧ swept.length = s.free.length ∧
      lattice swept = lattice s.free := by
  obtain ⟨fixed, free⟩ := s
  obtain ⟨rfl, -, rfl⟩ | ⟨first, others, p, rest, rfl, hswept, hlength, hcases⟩ :=
    step_cases h.free_length hstep
  · exact ⟨[], rfl, rfl, rfl⟩
  · refine ⟨p :: rest, ?_, congrArg (· + 1) hlength, hswept.lattice_eq⟩
    obtain ⟨-, -, rfl⟩ | ⟨-, a, -, rfl⟩ := hcases
    · rfl
    · simp [State.columns]

theorem Complete.step
    (hcomplete : Complete n s) (h : Invariant n rows s) (hstep : step s r = some s') :
    Complete n s' := by
  obtain ⟨swept, hcolumns, hlength, hlattice⟩ := step_columns h hstep
  refine ⟨?_, fun x hx => ?_⟩
  · rw [hcolumns, List.length_append, hlength, ← List.length_append]
    exact hcomplete.length
  · rw [hcolumns, lattice_append, hlattice, ← lattice_append]
    exact hcomplete.spans x hx

theorem run_complete
    {rest : List (Row ℤ)} (hcomplete : Complete n s) (h : Invariant n rows s)
    (hrun : rest.foldlM Integral.step s = some s') : Complete n s' := by
  induction rest generalizing rows s with
  | nil =>
    cases hrun
    exact hcomplete
  | cons r rest ih =>
    rw [List.foldlM_cons] at hrun
    obtain ⟨t, ht, hrest⟩ := Option.bind_eq_some_iff.1 hrun
    exact ih (hcomplete.step h ht) (step_eq_some h ht) hrest

end Step

/-! ## Vectors and matrices -/

section Vectors

variable {n : ℕ}

/-- Integers for the first `n` unknowns as integers for all, zero from there on. -/
def extend (x : Fin n → ℤ) : ℕ → ℤ := fun i => if h : i < n then x ⟨i, h⟩ else 0

theorem extend_of_le (x : Fin n → ℤ) {i : ℕ} (h : n ≤ i) : extend x i = 0 :=
  dif_neg (Nat.not_lt.2 h)

theorem extend_apply (x : Fin n → ℤ) (i : Fin n) : extend x i = x i := dif_pos i.isLt

theorem extend_injective : Function.Injective (extend : (Fin n → ℤ) → ℕ → ℤ) := by
  intro x y h
  funext i
  rw [← extend_apply x, h, extend_apply]

/-- The coefficients of rows as a matrix. -/
def coefficientMatrix (n : ℕ) (rows : List (Row ℤ)) : Matrix (Fin rows.length) (Fin n) ℤ :=
  of fun i j => (rows.get i).entry j

/-- The right-hand sides of rows. -/
def rhsVector (rows : List (Row ℤ)) : Fin rows.length → ℤ := fun i => (rows.get i).rhs

theorem coefficientMatrix_mulVec
    {rows : List (Row ℤ)} (hrows : ∀ r ∈ rows, r.coefficients.length = n) (x : Fin n → ℤ)
    (i : Fin rows.length) :
    (coefficientMatrix n rows *ᵥ x) i = form (rows.get i).coefficients (extend x) := by
  rw [Row.form_eq_sum (hrows _ (rows.get_mem i)), Finset.sum_range, mulVec, dotProduct]
  simp only [extend_apply]
  rfl

/-- A vector solves the rows as a matrix equation exactly if it satisfies each of them. -/
theorem coefficientMatrix_mulVec_eq_iff
    {rows : List (Row ℤ)} (hrows : ∀ r ∈ rows, r.coefficients.length = n) (x : Fin n → ℤ) :
    coefficientMatrix n rows *ᵥ x = rhsVector rows ↔ ∀ r ∈ rows, r.HoldsAt (extend x) := by
  rw [funext_iff]
  simp only [coefficientMatrix_mulVec hrows]
  constructor
  · intro h r hr
    obtain ⟨i, rfl⟩ := List.get_of_mem hr
    exact h i
  · intro h i
    exact h _ (rows.get_mem i)

theorem entries_of_length_le {c : List ℤ} {i : ℕ} (h : c.length ≤ i) : entries c i = 0 := by
  rw [entries, List.getD_eq_getElem?_getD, List.getElem?_eq_none h, Option.getD_none]

/-- The combination of the columns of a state with given coordinates. -/
def State.combination (s : State) (y : Fin n → ℤ) : ℕ → ℤ :=
  ∑ j : Fin n, y j • entries (s.columns.getD j [])

/-- Multiplying with the matrix of a state combines its columns. -/
theorem extend_matrix_mulVec
    {s : State} (hlength : ∀ c ∈ s.columns, c.length = n) (y : Fin n → ℤ) :
    extend (s.matrix n *ᵥ y) = s.combination y := by
  funext i
  rw [State.combination, Finset.sum_apply]
  by_cases hi : i < n
  · rw [extend, dif_pos hi, mulVec, dotProduct]
    exact Finset.sum_congr rfl fun j _ => mul_comm _ _
  · rw [extend_of_le _ (Nat.not_lt.1 hi)]
    refine (Finset.sum_eq_zero fun j _ => ?_).symm
    have hcolumn : (s.columns.getD j []).length ≤ n := by
      rw [List.getD_eq_getElem?_getD]
      cases hget : s.columns[(j : ℕ)]? with
      | none => exact Nat.zero_le n
      | some c => exact (hlength c (List.mem_of_getElem? hget)).le
    rw [Pi.smul_apply, entries_of_length_le (hcolumn.trans (Nat.not_lt.1 hi)), smul_zero]

/-- The columns behind the first `k` are those with a number from `k` on. -/
theorem image_entries_append
    {l l' : List (List ℤ)} {k : ℕ} (hk : l.length = k) (hn : (l ++ l').length = n) :
    entries '' {c | c ∈ l'} =
      (fun j : Fin n => entries ((l ++ l').getD j [])) ''
        ↑(Finset.univ.filter fun j : Fin n => k ≤ j) := by
  subst hk
  rw [List.length_append] at hn
  ext v
  simp only [Set.mem_image, Set.mem_ofPred_eq, Finset.coe_filter, Finset.mem_univ, true_and]
  constructor
  · rintro ⟨c, hc, rfl⟩
    obtain ⟨i, hi, rfl⟩ := List.mem_iff_getElem.1 hc
    refine ⟨⟨l.length + i, by omega⟩, Nat.le_add_right _ _, ?_⟩
    simp [List.getD_eq_getElem?_getD, hi]
  · rintro ⟨j, hj, rfl⟩
    have hlt : j - l.length < l'.length := by omega
    refine ⟨l'[j - l.length], List.getElem_mem hlt, ?_⟩
    simp [List.getD_eq_getElem?_getD, List.getElem?_append_right hj, hlt]

/-- The lattice of the columns behind the first `k` consists of the combinations in which these
do not occur. -/
theorem mem_lattice_append_iff
    {l l' : List (List ℤ)} {k : ℕ} (hk : l.length = k) (hn : (l ++ l').length = n) {x : ℕ → ℤ} :
    x ∈ lattice l' ↔ ∃ y : Fin n → ℤ, (∀ j : Fin n, j < k → y j = 0) ∧
      ∑ j : Fin n, y j • entries ((l ++ l').getD j []) = x := by
  rw [lattice, image_entries_append hk hn, mem_span_image_finset_iff_exists_fun']
  constructor
  · rintro ⟨y, rfl⟩
    refine ⟨fun j => if k ≤ j then y j else 0, fun j hj => if_neg (Nat.not_le.2 hj), ?_⟩
    rw [Finset.sum_filter]
    simp only [ite_smul, zero_smul]
  · rintro ⟨y, hy, rfl⟩
    refine ⟨y, ?_⟩
    rw [Finset.sum_filter]
    refine Finset.sum_congr rfl fun j _ => ?_
    split
    · rfl
    · rename_i hj
      rw [hy j (Nat.not_le.1 hj), zero_smul]

end Vectors

/-! ## Echelon form -/

section Echelon

variable {n : ℕ} {rows : List (Row ℤ)} {s : State}

theorem Invariant.column_length (h : Invariant n rows s) : ∀ c ∈ s.columns, c.length = n := by
  rw [State.columns, List.forall_mem_append, List.forall_mem_map]
  exact ⟨h.fixed_length, h.free_length⟩

theorem Complete.isUnit (hcomplete : Complete n s) (h : Invariant n rows s) :
    IsUnit (s.matrix n) := by
  rw [← mulVec_surjective_iff_isUnit]
  intro x
  have hx := hcomplete.spans (extend x) fun _ => extend_of_le x
  obtain ⟨y, -, hy⟩ :=
    (mem_lattice_append_iff (l := []) rfl hcomplete.length).1 hx
  exact ⟨y, extend_injective ((extend_matrix_mulVec h.column_length y).trans hy)⟩

/-- The determined coordinates give the base point. -/
theorem sum_range_coordinates (fixed : List (ℤ × List ℤ)) (free : List (List ℤ)) :
    ∑ j ∈ Finset.range (fixed.length + free.length), entries (fixed.map Prod.fst) j •
      entries ((fixed.map Prod.snd ++ free).getD j []) = base fixed := by
  induction fixed with
  | nil => simp [entries, base]
  | cons c rest ih =>
    have hbase : base (c :: rest) = c.1 • entries c.2 + base rest := by simp [base]
    rw [List.length_cons, Nat.add_right_comm, Finset.sum_range_succ', hbase, ← ih, add_comm]
    rfl

theorem Complete.length_add_length (hcomplete : Complete n s) :
    s.fixed.length + s.free.length = n := by
  rw [← hcomplete.length, State.columns, List.length_append, List.length_map]

theorem Complete.pivot_le (hcomplete : Complete n s) : s.fixed.length ≤ n :=
  hcomplete.length_add_length ▸ Nat.le_add_right _ _

theorem Complete.combination_coordinates (hcomplete : Complete n s) :
    s.combination (s.coordinates n) = base s.fixed := by
  rw [← sum_range_coordinates s.fixed s.free, hcomplete.length_add_length, Finset.sum_range]
  rfl

theorem combination_sub (s : State) (y z : Fin n → ℤ) :
    s.combination (y - z) = s.combination y - s.combination z := by
  simp only [State.combination, Pi.sub_apply, sub_smul, Finset.sum_sub_distrib]

theorem Complete.combination_injective (hcomplete : Complete n s) (h : Invariant n rows s) :
    Function.Injective (s.combination : (Fin n → ℤ) → ℕ → ℤ) := by
  intro y z hyz
  rw [← extend_matrix_mulVec h.column_length, ← extend_matrix_mulVec h.column_length] at hyz
  exact mulVec_injective_of_isUnit (hcomplete.isUnit h) (extend_injective hyz)

/-- Coordinates give a solution of the processed rows exactly if they are the determined ones in
front of the free columns. -/
theorem Complete.holdsAt_combination_iff
    (hcomplete : Complete n s) (h : Invariant n rows s) (y : Fin n → ℤ) :
    (∀ r ∈ rows, r.HoldsAt (s.combination y)) ↔
      ∀ j : Fin n, j < s.fixed.length → y j = s.coordinates n j := by
  have hsupport : ∀ i, n ≤ i → s.combination y i = 0 := by
    rw [← extend_matrix_mulVec h.column_length]
    exact fun _ => extend_of_le _
  rw [h.solutions _ hsupport, ← hcomplete.combination_coordinates, ← combination_sub,
    mem_lattice_append_iff (List.length_map Prod.snd) hcomplete.length]
  constructor
  · rintro ⟨z, hz, heq⟩ j hj
    have hzy : z = y - s.coordinates n := hcomplete.combination_injective h heq
    have hzero := hz j hj
    rw [hzy, Pi.sub_apply] at hzero
    exact sub_eq_zero.1 hzero
  · intro hy
    exact ⟨y - s.coordinates n, fun j hj => sub_eq_zero.2 (hy j hj), rfl⟩

/-- The processed rows vanish on the free columns. -/
theorem Invariant.dot_free_eq_zero
    (h : Invariant n rows s) {r : Row ℤ} (hr : r ∈ rows) {c : List ℤ} (hc : c ∈ s.free) :
    dot r.coefficients c = 0 := by
  have hbase := h.holdsAt_point r hr
  obtain ⟨hlength, hentries⟩ := point_spec h
  -- a solution stays one if a free column is added to it
  have hmoved : r.HoldsAt (base s.fixed + entries c) := by
    refine (h.solutions _ fun i hi => ?_).2 ?_ r hr
    · rw [← hentries, Pi.add_apply, entries_of_length_le (hlength.le.trans hi),
        entries_of_length_le ((h.free_length c hc).le.trans hi), add_zero]
    · rw [add_sub_cancel_left]
      exact subset_span ⟨c, hc, rfl⟩
  rw [hentries, Row.HoldsAt] at hbase
  rw [Row.HoldsAt, form_add, hbase] at hmoved
  rw [dot_eq_form]
  exact left_eq_add.1 hmoved.symm

theorem coefficientMatrix_mul_matrix
    (hrows : ∀ r ∈ rows, r.coefficients.length = n) (s : State) (i : Fin rows.length)
    (j : Fin n) :
    (coefficientMatrix n rows * s.matrix n) i j =
      dot (rows.get i).coefficients (s.columns.getD j []) := by
  rw [dot_eq_form, Row.form_eq_sum (hrows _ (rows.get_mem i)), Finset.sum_range, mul_apply]
  rfl

theorem dot_getD_eq_zero
    {u : List ℤ} {l : List (List ℤ)} (h : ∀ c ∈ l, dot u c = 0) (j : ℕ) :
    dot u (l.getD j []) = 0 := by
  rw [List.getD_eq_getElem?_getD]
  cases hget : l[j]? with
  | none => simp [dot]
  | some c => exact h c (List.mem_of_getElem? hget)

/-- Processing a row leaves the products of the rows before it as they are. -/
theorem coefficientMatrix_mul_matrix_step
    (hrows : ∀ r ∈ rows, r.coefficients.length = n) (h : Invariant n rows s) {r : Row ℤ}
    {s' : State} (hstep : step s r = some s') :
    coefficientMatrix n rows * s'.matrix n = coefficientMatrix n rows * s.matrix n := by
  obtain ⟨swept, hcolumns, -, hlattice⟩ := step_columns h hstep
  ext i j
  rw [coefficientMatrix_mul_matrix hrows, coefficientMatrix_mul_matrix hrows, hcolumns,
    State.columns]
  have hfree : ∀ c ∈ s.free, dot (rows.get i).coefficients c = 0 :=
    fun c hc => h.dot_free_eq_zero (rows.get_mem i) hc
  have hswept : ∀ c ∈ swept, dot (rows.get i).coefficients c = 0 := by
    intro c hc
    have hmem : entries c ∈ lattice swept := subset_span ⟨c, hc, rfl⟩
    rw [dot_eq_form]
    exact form_eq_zero_of_mem_lattice hfree (hlattice ▸ hmem)
  rcases Nat.lt_or_ge j (s.fixed.map Prod.snd).length with hj | hj
  · rw [List.getD_append _ _ _ _ hj, List.getD_append _ _ _ _ hj]
  · rw [List.getD_append_right _ _ _ _ hj, List.getD_append_right _ _ _ _ hj,
      dot_getD_eq_zero hswept, dot_getD_eq_zero hfree]

end Echelon

/-! ## Products that are kept beside the columns -/

section Tracked

variable {n : ℕ} {rows : List (Row ℤ)}

/-- A column on top of its products with rows. -/
def stack (rows : List (Row ℤ)) (column : List ℤ) : List ℤ :=
  column ++ rows.map fun r => dot r.coefficients column

/-- A state whose columns carry their products with rows. -/
def State.stack (rows : List (Row ℤ)) (s : State) : State :=
  ⟨s.fixed.map fun c => (c.1, Integral.stack rows c.2), s.free.map (Integral.stack rows)⟩

/-- The unit columns on top of the coefficients of rows. -/
def augmented (n : ℕ) (rows : List (Row ℤ)) : State :=
  ⟨[], (List.range n).map fun j => unitColumn n j ++ rows.map fun r => r.entry j⟩

/-- The row that reads the products with a numbered row off the columns that carry them. -/
def reading (n : ℕ) (rows : List (Row ℤ)) (e : Row ℤ × ℕ) : Row ℤ :=
  ⟨unitColumn (n + rows.length) (n + e.2), e.1.rhs⟩

/-- The products that the columns of a state carry. -/
def State.products (n m : ℕ) (s : State) : Matrix (Fin m) (Fin n) ℤ :=
  of fun i j => entries (s.columns.getD j []) (n + i)

theorem sum_unitColumn_mul {w k : ℕ} (hk : k < w) (f : ℕ → ℤ) :
    ∑ i ∈ Finset.range w, entries (unitColumn w k) i * f i = f k := by
  rw [Finset.sum_eq_single_of_mem k (Finset.mem_range.2 hk)]
  · simp [entries_unitColumn, hk]
  · intro i _ hne
    simp [entries_unitColumn, hne]

theorem dot_unitColumn {w k : ℕ} (hk : k < w) (v : List ℤ) :
    dot (unitColumn w k) v = entries v k := by
  have hlength : (unitColumn w k).length = w := by simp [unitColumn]
  rw [dot_eq_form, form, hlength]
  exact sum_unitColumn_mul hk (entries v)

theorem entries_stack_of_lt {c : List ℤ} {i : ℕ} (hi : i < c.length) :
    entries (stack rows c) i = entries c i :=
  List.getD_append _ _ _ _ hi

theorem entries_stack_add {c : List ℤ} (hc : c.length = n) {i : ℕ} {r : Row ℤ}
    (hi : rows[i]? = some r) : entries (stack rows c) (n + i) = dot r.coefficients c := by
  subst hc
  rw [entries, stack, List.getD_append_right c _ _ _ (Nat.le_add_right c.length i),
    Nat.add_sub_cancel_left, List.getD_eq_getElem?_getD, List.getElem?_map, hi]
  rfl

/-- Reading a product off a column that carries it gives that product. -/
theorem dot_reading {e : Row ℤ × ℕ} (he : rows[e.2]? = some e.1) {c : List ℤ} (hc : c.length = n) :
    dot (reading n rows e).coefficients (stack rows c) = dot e.1.coefficients c := by
  have hlt := (List.getElem?_eq_some_iff.1 he).1
  exact (dot_unitColumn (Nat.add_lt_add_left hlt n) _).trans (entries_stack_add hc he)

theorem stack_combine {p c : List ℤ} (h : p.length = c.length) (a b : ℤ) :
    stack rows (combine a p b c) = combine a (stack rows p) b (stack rows c) := by
  have hproducts : rows.map (fun r => dot r.coefficients (combine a p b c)) =
      combine a (rows.map fun r => dot r.coefficients p) b
        (rows.map fun r => dot r.coefficients c) := by
    conv_rhs => rw [combine, List.zipWith_map, List.zipWith_self]
    exact List.map_congr_left fun r _ => dot_combine h a b
  rw [stack, hproducts, stack, stack, combine, combine, combine, List.zipWith_append h]

section Step

variable {e : Row ℤ × ℕ} (he : rows[e.2]? = some e.1)

include he

theorem absorb_stack {p c : List ℤ} (hp : p.length = n) (hc : c.length = n) :
    absorb (reading n rows e).coefficients (stack rows p) (stack rows c) =
      (stack rows (absorb e.1.coefficients p c).1, stack rows (absorb e.1.coefficients p c).2) := by
  rw [absorb, absorb, dot_reading he hp, dot_reading he hc]
  split
  · rfl
  · simp only [stack_combine (hp.trans hc.symm)]

theorem sweep_stack {p : List ℤ} {columns : List (List ℤ)} (hp : p.length = n)
    (hcolumns : ∀ c ∈ columns, c.length = n) :
    sweep (reading n rows e).coefficients (stack rows p) (columns.map (stack rows)) =
      (stack rows (sweep e.1.coefficients p columns).1,
        (sweep e.1.coefficients p columns).2.map (stack rows)) := by
  induction columns generalizing p with
  | nil => rfl
  | cons c rest ih =>
    obtain ⟨hc, hrest⟩ := List.forall_mem_cons.1 hcolumns
    have habsorb := absorb_absorbed (u := e.1.coefficients) hp hc
    rw [List.map_cons, sweep, absorb_stack he hp hc]
    simp only [ih habsorb.pivot_length hrest, sweep, List.map_cons]

theorem fixedValue_stack {fixed : List (ℤ × List ℤ)} (hfixed : ∀ c ∈ fixed, c.2.length = n) :
    fixedValue (reading n rows e).coefficients
      (fixed.map fun c => (c.1, stack rows c.2)) = fixedValue e.1.coefficients fixed := by
  induction fixed with
  | nil => rfl
  | cons c rest ih =>
    obtain ⟨hc, hrest⟩ := List.forall_mem_cons.1 hfixed
    have hcons : ∀ (u : List ℤ) (c : ℤ × List ℤ) (l : List (ℤ × List ℤ)),
        fixedValue u (c :: l) = dot u c.2 * c.1 + fixedValue u l := fun _ _ _ => rfl
    rw [List.map_cons, hcons, hcons, ih hrest, dot_reading he hc]

/-- A row does to columns that carry their products what it does to the columns. -/
theorem step_stack {s : State} (hfixed : ∀ c ∈ s.fixed, c.2.length = n)
    (hfree : ∀ c ∈ s.free, c.length = n) :
    step (s.stack rows) (reading n rows e) = (step s e.1).map (State.stack rows) := by
  obtain ⟨fixed, free⟩ := s
  have hvalue := fixedValue_stack he hfixed
  have hrhs : (reading n rows e).rhs = e.1.rhs := rfl
  cases free with
  | nil =>
    simp only [step, State.stack, List.map_nil, hvalue, hrhs]
    split <;> rfl
  | cons first others =>
    obtain ⟨hfirst, hothers⟩ := List.forall_mem_cons.1 hfree
    have hlength := (sweep_swept (u := e.1.coefficients) hfirst hothers).pivot_length
    simp only [step, State.stack, List.map_cons, hvalue, hrhs, sweep_stack he hfirst hothers,
      dot_reading he hlength, apply_ite (Option.map (State.stack rows)), Option.map_some,
      Option.map_none, List.map_append, List.map_nil]

end Step

theorem augmented_eq_stack (hrows : ∀ r ∈ rows, r.coefficients.length = n) :
    augmented n rows = (initial n).stack rows := by
  rw [augmented, State.stack, initial, List.map_map]
  congr 1
  refine List.map_congr_left fun j hj => ?_
  rw [Function.comp_apply, stack]
  congr 1
  refine List.map_congr_left fun r hr => ?_
  rw [dot_eq_form, Row.form_eq_sum (hrows r hr),
    ← sum_unitColumn_mul (List.mem_range.1 hj) r.entry]
  exact Finset.sum_congr rfl fun i _ => mul_comm _ _

/-- The run that keeps the products beside the columns. -/
def trackedRun (n : ℕ) (rows processed : List (Row ℤ)) : Option State :=
  (processed.zipIdx.map (reading n rows)).foldlM step (augmented n rows)

/-- Rows do to columns that carry their products what they do to the columns. -/
theorem run_stack
    {processed rest : List (Row ℤ)} {s : State} (h : Invariant n processed s)
    (hrest : ∀ i r, rest[i]? = some r → rows[processed.length + i]? = some r) :
    ((rest.zipIdx processed.length).map (reading n rows)).foldlM step (s.stack rows) =
      (rest.foldlM step s).map (State.stack rows) := by
  induction rest generalizing processed s with
  | nil => rfl
  | cons r rest ih =>
    have hr : rows[processed.length]? = some r := hrest 0 r rfl
    rw [List.zipIdx_cons, List.map_cons, List.foldlM_cons, List.foldlM_cons,
      step_stack (e := (r, processed.length)) hr h.fixed_length h.free_length]
    cases ht : step s r with
    | none => rfl
    | some t =>
      have hnext := ih (step_eq_some h ht) fun i r' hi => by
        rw [List.length_append, List.length_singleton, Nat.add_right_comm, Nat.add_assoc]
        exact hrest (i + 1) r' hi
      rwa [List.length_append] at hnext

theorem trackedRun_eq
    {processed : List (Row ℤ)} (hrows : ∀ r ∈ rows, r.coefficients.length = n)
    (hpre : processed <+: rows) :
    trackedRun n rows processed =
      (processed.foldlM step (initial n)).map (State.stack rows) := by
  rw [trackedRun, augmented_eq_stack hrows]
  refine run_stack (initial_invariant n) fun i r hi => ?_
  rw [List.length_nil, Nat.zero_add]
  obtain ⟨rest, rfl⟩ := hpre
  rw [List.getElem?_append_left (List.getElem?_eq_some_iff.1 hi).1, hi]

theorem columns_stack (s : State) : (s.stack rows).columns = s.columns.map (stack rows) := by
  simp [State.columns, State.stack]

/-- The products that are carried along are those of the coefficients with the columns. -/
theorem products_stack
    (hrows : ∀ r ∈ rows, r.coefficients.length = n) {s : State} (hcomplete : Complete n s)
    (hlength : ∀ c ∈ s.columns, c.length = n) :
    (s.stack rows).matrix n = s.matrix n ∧
      (s.stack rows).products n rows.length = coefficientMatrix n rows * s.matrix n := by
  have hcolumn : ∀ j : Fin n, (s.columns.getD j []).length = n ∧
      (s.stack rows).columns.getD j [] = stack rows (s.columns.getD j []) := by
    intro j
    have hj : (j : ℕ) < s.columns.length := hcomplete.length.symm ▸ j.isLt
    simp only [columns_stack, List.getD_eq_getElem?_getD, List.getElem?_map,
      List.getElem?_eq_getElem hj, Option.map_some, Option.getD_some]
    exact ⟨hlength _ (List.getElem_mem hj), trivial⟩
  constructor
  · ext i j
    rw [State.matrix, State.matrix, of_apply, of_apply, (hcolumn j).2]
    exact entries_stack_of_lt ((hcolumn j).1.symm ▸ i.isLt)
  · ext i j
    rw [coefficientMatrix_mul_matrix hrows, State.products, of_apply, (hcolumn j).2]
    exact entries_stack_add (hcolumn j).1 (List.getElem?_eq_getElem i.isLt)

theorem coordinates_stack (s : State) : (s.stack rows).coordinates n = s.coordinates n := by
  funext j
  simp [State.coordinates, State.stack, Function.comp_def]

end Tracked

/-! ## The whole elimination -/

/-- What holds after some of the rows have been processed.  The products with all rows can be kept
by applying the column operations to them.  The columns form a matrix with an integer inverse.
The processed rows vanish on the free columns and determine exactly the coordinates of the others,
and processing a further row does not change their products. -/
structure Echelon (n : ℕ) (rows processed : List (Row ℤ)) (s : State) : Prop where
  tracked : ∃ t, trackedRun n rows processed = some t ∧ t.fixed.length = s.fixed.length ∧
    t.coordinates n = s.coordinates n ∧ t.matrix n = s.matrix n ∧
    t.products n rows.length = coefficientMatrix n rows * s.matrix n
  pivot_le : s.fixed.length ≤ n
  isUnit : IsUnit (s.matrix n)
  vanishing : ∀ i, ∀ j : Fin n, s.fixed.length ≤ j →
    (coefficientMatrix n processed * s.matrix n) i j = 0
  solution_iff : ∀ y : Fin n → ℤ,
    (coefficientMatrix n processed * s.matrix n) *ᵥ y = rhsVector processed ↔
      ∀ j : Fin n, j < s.fixed.length → y j = s.coordinates n j
  undisturbed : ∀ r s', step s r = some s' →
    coefficientMatrix n processed * s'.matrix n = coefficientMatrix n processed * s.matrix n

section Run

variable {n : ℕ} {rows processed : List (Row ℤ)} {s : State}

theorem echelon_of_run
    (hrows : ∀ r ∈ rows, r.coefficients.length = n) (hpre : processed <+: rows)
    (hrun : processed.foldlM step (initial n) = some s) : Echelon n rows processed s := by
  have hinv : Invariant n processed s := run_eq_some (initial_invariant n) hrun
  have hcomplete := run_complete (initial_complete n) (initial_invariant n) hrun
  have hprocessed : ∀ r ∈ processed, r.coefficients.length = n :=
    fun r hr => hrows r (hpre.subset hr)
  refine ⟨?_, hcomplete.pivot_le, hcomplete.isUnit hinv, ?_, ?_, ?_⟩
  · obtain ⟨hmatrix, hproducts⟩ := products_stack hrows hcomplete hinv.column_length
    refine ⟨s.stack rows, ?_, List.length_map _, coordinates_stack s, hmatrix, hproducts⟩
    rw [trackedRun_eq hrows hpre, hrun]
    rfl
  · intro i j hj
    rw [coefficientMatrix_mul_matrix hprocessed, State.columns,
      List.getD_append_right _ _ _ _ ((List.length_map _).trans_le hj)]
    exact dot_getD_eq_zero
      (fun c hc => hinv.dot_free_eq_zero (processed.get_mem i) hc) _
  · intro y
    rw [← mulVec_mulVec, coefficientMatrix_mulVec_eq_iff hprocessed,
      extend_matrix_mulVec hinv.column_length]
    exact hcomplete.holdsAt_combination_iff hinv y
  · intro r s' hstep
    exact coefficientMatrix_mul_matrix_step hprocessed hinv hstep

theorem mulVec_ne_of_run_eq_none
    (hprocessed : ∀ r ∈ processed, r.coefficients.length = n)
    (hrun : processed.foldlM step (initial n) = none) (x : Fin n → ℤ) :
    coefficientMatrix n processed *ᵥ x ≠ rhsVector processed := by
  rw [Ne, coefficientMatrix_mulVec_eq_iff hprocessed]
  exact run_eq_none (initial_invariant n) hrun fun _ => extend_of_le x

/-- The point of a state is the product of its matrix with the coordinates. -/
theorem point_eq_ofFn (h : Invariant n rows s) (hcomplete : Complete n s) :
    s.point n = List.ofFn (s.matrix n *ᵥ s.coordinates n) := by
  obtain ⟨hlength, hentries⟩ := point_spec h
  rw [← hcomplete.combination_coordinates, ← extend_matrix_mulVec h.column_length] at hentries
  refine List.ext_getElem (by rw [hlength, List.length_ofFn]) fun i hi hi' => ?_
  have hvalue := congrFun hentries i
  rw [entries, List.getD_eq_getElem?_getD, List.getElem?_eq_getElem hi, Option.getD_some] at hvalue
  rw [hvalue, List.getElem_ofFn]
  exact extend_apply _ ⟨i, hlength ▸ hi⟩

end Run

/-- After every row that is processed the elimination has an integral echelon form of the rows so
far, and where a row is refused there is none, as no integers satisfy the rows so far under any
change of coordinates.  So the elimination decides over the integers whether rows can be
satisfied, and the numbers it answers with are the product of its matrix with the coordinates. -/
theorem elimination_echelon (n : ℕ) (rows : List (Row ℤ))
    (hrows : ∀ r ∈ rows, r.coefficients.length = n) :
    (∀ processed, processed <+: rows →
      (∀ s, processed.foldlM step (initial n) = some s → Echelon n rows processed s) ∧
      (processed.foldlM step (initial n) = none → trackedRun n rows processed = none ∧
        ∀ (u : Matrix (Fin n) (Fin n) ℤ) (y : Fin n → ℤ),
          (coefficientMatrix n processed * u) *ᵥ y ≠ rhsVector processed)) ∧
    (solve n rows = .unsat ↔
      ∀ x : Fin n → ℤ, coefficientMatrix n rows *ᵥ x ≠ rhsVector rows) ∧
    ∀ values, solve n rows = .sat values → ∃ s, rows.foldlM step (initial n) = some s ∧
      values = nonzeroValues (List.ofFn (s.matrix n *ᵥ s.coordinates n)) ∧
      coefficientMatrix n rows *ᵥ (s.matrix n *ᵥ s.coordinates n) = rhsVector rows := by
  have hanswer : ∀ s, rows.foldlM step (initial n) = some s →
      coefficientMatrix n rows *ᵥ (s.matrix n *ᵥ s.coordinates n) = rhsVector rows := by
    intro s hrun
    rw [mulVec_mulVec, (echelon_of_run hrows List.prefix_rfl hrun).solution_iff]
    exact fun _ _ => rfl
  refine ⟨fun processed hpre => ⟨fun s => echelon_of_run hrows hpre, fun hrun => ?_⟩, ?_, ?_⟩
  · refine ⟨by rw [trackedRun_eq hrows hpre, hrun]; rfl, fun u y => ?_⟩
    rw [← mulVec_mulVec]
    exact mulVec_ne_of_run_eq_none (fun r hr => hrows r (hpre.subset hr)) hrun _
  · cases hrun : rows.foldlM step (initial n) with
    | none => simpa [solve, hrun] using mulVec_ne_of_run_eq_none hrows hrun
    | some s => simpa [solve, hrun] using ⟨_, hanswer s hrun⟩
  · intro values hsolve
    cases hrun : rows.foldlM step (initial n) with
    | none => simp [solve, hrun] at hsolve
    | some s =>
      refine ⟨s, rfl, ?_, hanswer s hrun⟩
      rw [← point_eq_ofFn (run_eq_some (initial_invariant n) hrun)
        (run_complete (initial_complete n) (initial_invariant n) hrun)]
      simp only [solve, hrun, Results.sat.injEq] at hsolve
      exact hsolve.symm

/-- A row and its half. -/
def halvedRows : List (Row ℤ) := [⟨[4, 6], 2⟩, ⟨[2, 3], 1⟩]

/-- A row that no integers satisfy. -/
def oddRows : List (Row ℤ) := [⟨[4, 6], 3⟩]

theorem elimination_echelon_halved :
    ((∀ r ∈ halvedRows, r.coefficients.length = 2) ∧
      ∃ s, halvedRows.foldlM step (initial 2) = some s ∧ Echelon 2 halvedRows halvedRows s) ∧
    (∀ r ∈ oddRows, r.coefficients.length = 2) ∧ solve 2 oddRows = .unsat ∧
      ∀ x : Fin 2 → ℤ, coefficientMatrix 2 oddRows *ᵥ x ≠ rhsVector oddRows := by
  have hhalved : ∀ r ∈ halvedRows, r.coefficients.length = 2 := by decide
  have hodd : ∀ r ∈ oddRows, r.coefficients.length = 2 := by decide
  have hunsat : solve 2 oddRows = .unsat := by decide +kernel
  have hsome : (halvedRows.foldlM step (initial 2)).isSome := by decide +kernel
  obtain ⟨s, hrun⟩ := Option.isSome_iff_exists.1 hsome
  obtain ⟨hechelon, -⟩ := elimination_echelon 2 halvedRows hhalved
  obtain ⟨-, hdecides, -⟩ := elimination_echelon 2 oddRows hodd
  exact ⟨⟨hhalved, s, hrun, (hechelon _ List.prefix_rfl).1 s hrun⟩, hodd, hunsat,
    hdecides.1 hunsat⟩

end Integral
end Linear
end Metrology
