import Metrology.Proofs.Linear.Row
import Mathlib.Algebra.BigOperators.Field
import Mathlib.Data.List.TakeWhile

/-!
# The elimination over the rationals is exact

The elimination keeps the solutions of a system.  Once every column has been
visited, the rows that are left have no coefficients, and each solved row gives
its unknown when the free unknowns are zero.
-/

namespace Metrology
namespace Linear
namespace Rational

open Finset

/-! ## Row operations -/

theorem length_normalize (c : ℕ) (r : Row ℚ) :
    (normalize c r).coefficients.length = r.coefficients.length := by
  simp [normalize, Row.map]

theorem entry_normalize (c : ℕ) (r : Row ℚ) (i : ℕ) :
    (normalize c r).entry i = r.entry i / r.entry c := by
  simp only [normalize, Row.map, Row.entry, List.getD_eq_getElem?_getD, List.getElem?_map]
  cases r.coefficients[i]? <;> simp

theorem length_clear
    {c : ℕ} {s r : Row ℚ} (h : r.coefficients.length = s.coefficients.length) :
    (clear c s r).coefficients.length = r.coefficients.length := by
  simp [clear, h]

theorem entry_clear
    {c : ℕ} {s r : Row ℚ} (h : r.coefficients.length = s.coefficients.length) (i : ℕ) :
    (clear c s r).entry i = r.entry i - r.entry c * s.entry i :=
  getD_zipWith (f := fun x y => x - r.entry c * y) (by simp) h i

/-- Dividing a row by a nonzero entry keeps its solutions. -/
theorem holdsAt_normalize_iff {c : ℕ} {r : Row ℚ} (hc : r.entry c ≠ 0) {x : ℕ → ℚ} :
    (normalize c r).HoldsAt x ↔ r.HoldsAt x := by
  have hform : form (normalize c r).coefficients x = form r.coefficients x / r.entry c := by
    rw [Row.form_eq_sum (length_normalize c r), Row.form_eq_sum rfl, sum_div]
    refine sum_congr rfl fun i _ => ?_
    rw [entry_normalize]
    ring
  rw [Row.HoldsAt, hform]
  change _ / _ = r.rhs / _ ↔ _
  rw [div_left_inj' hc, Row.HoldsAt]

/-- Where the solved row holds, clearing its unknown keeps the solutions of a row. -/
theorem holdsAt_clear_iff
    {c : ℕ} {s r : Row ℚ} (h : r.coefficients.length = s.coefficients.length)
    {x : ℕ → ℚ} (hs : s.HoldsAt x) : (clear c s r).HoldsAt x ↔ r.HoldsAt x := by
  have hform : form (clear c s r).coefficients x =
      form r.coefficients x - r.entry c * form s.coefficients x := by
    rw [Row.form_eq_sum (length_clear h), Row.form_eq_sum rfl, Row.form_eq_sum h.symm,
      mul_sum, ← sum_sub_distrib]
    refine sum_congr rfl fun i _ => ?_
    rw [entry_clear h]
    ring
  rw [Row.HoldsAt, hform, hs]
  change _ = r.rhs - r.entry c * s.rhs ↔ _
  rw [sub_left_inj, Row.HoldsAt]

/-! ## One column -/

/-- Either no pending row mentions the unknown, or the first one that does is solved for it. -/
theorem step_cases (s : State) (c : ℕ) :
    ((∀ r ∈ s.pending, r.entry c = 0) ∧ step s c = s) ∨
    ∃ before found after, s.pending = before ++ found :: after ∧ found.entry c ≠ 0 ∧
      step s c =
        ⟨s.solved.map (fun e => (e.1, clear c (normalize c found) e.2)) ++
            [(c, normalize c found)],
          (before ++ after).map (clear c (normalize c found))⟩ := by
  have hsplit := List.takeWhile_append_dropWhile (p := fun r : Row ℚ => r.entry c == 0)
    (l := s.pending)
  unfold step
  simp only [List.span_eq_takeWhile_dropWhile]
  cases hrest : s.pending.dropWhile fun r => r.entry c == 0 with
  | nil =>
    refine .inl ⟨fun r hr => ?_, rfl⟩
    have hzero := List.dropWhile_eq_nil_iff.1 hrest r hr
    simpa using hzero
  | cons found after =>
    refine .inr ⟨_, found, after, (hrest ▸ hsplit).symm, ?_, rfl⟩
    have hhead := List.head?_dropWhile_not (fun r : Row ℚ => r.entry c == 0) s.pending
    simpa [hrest] using hhead

/-- What holds of an elimination once the columns below `j` have been visited. -/
structure Invariant (n : ℕ) (rows : List (Row ℚ)) (j : ℕ) (s : State) : Prop where
  solved_length : ∀ e ∈ s.solved, e.2.coefficients.length = n
  pending_length : ∀ r ∈ s.pending, r.coefficients.length = n
  column_lt : ∀ e ∈ s.solved, e.1 < j
  sorted : s.solved.Pairwise fun a b => a.1 < b.1
  /-- A solved unknown occurs in its own row only. -/
  reduced : ∀ e ∈ s.solved, ∀ e' ∈ s.solved, e'.2.entry e.1 = if e'.1 = e.1 then 1 else 0
  /-- The pending rows have no coefficients in the visited columns. -/
  cleared : ∀ r ∈ s.pending, ∀ i < j, r.entry i = 0
  equivalent : ∀ x, ((∀ e ∈ s.solved, e.2.HoldsAt x) ∧ ∀ r ∈ s.pending, r.HoldsAt x) ↔
    ∀ r ∈ rows, r.HoldsAt x

theorem initial_invariant
    {n : ℕ} {rows : List (Row ℚ)} (h : ∀ r ∈ rows, r.coefficients.length = n) :
    Invariant n rows 0 ⟨[], rows⟩ where
  solved_length := by simp
  pending_length := h
  column_lt := by simp
  sorted := List.Pairwise.nil
  reduced := by simp
  cleared := by simp
  equivalent := by simp

/-- A row that is solved for the unknown of column `j` and has no coefficients before it. -/
structure Pivot (n j : ℕ) (p : Row ℚ) : Prop where
  length : p.coefficients.length = n
  one : p.entry j = 1
  zero : ∀ i < j, p.entry i = 0

theorem normalize_pivot
    {n j : ℕ} {r : Row ℚ} (hlength : r.coefficients.length = n) (hj : r.entry j ≠ 0)
    (hzero : ∀ i < j, r.entry i = 0) : Pivot n j (normalize j r) where
  length := (length_normalize j r).trans hlength
  one := by rw [entry_normalize, div_self hj]
  zero i hi := by rw [entry_normalize, hzero i hi, zero_div]

section Clear

variable {n j : ℕ} {p : Row ℚ} {rows : List (Row ℚ)} {s : State}

theorem Pivot.entry_clear_self
    (hp : Pivot n j p) {r : Row ℚ} (hr : r.coefficients.length = n) :
    (clear j p r).entry j = 0 := by
  rw [entry_clear (hr.trans hp.length.symm), hp.one, mul_one, sub_self]

theorem Pivot.entry_clear_of_lt
    (hp : Pivot n j p) {r : Row ℚ} (hr : r.coefficients.length = n) {i : ℕ} (hi : i < j) :
    (clear j p r).entry i = r.entry i := by
  rw [entry_clear (hr.trans hp.length.symm), hp.zero i hi, mul_zero, sub_zero]

theorem Pivot.length_clear_eq
    (hp : Pivot n j p) {r : Row ℚ} (hr : r.coefficients.length = n) :
    (clear j p r).coefficients.length = n := by
  rw [length_clear (hr.trans hp.length.symm), hr]

/-- The solved rows stay solved when another unknown is cleared from them. -/
theorem Pivot.reduced
    (hp : Pivot n j p) (h : Invariant n rows j s) :
    ∀ e ∈ s.solved.map (fun e => (e.1, clear j p e.2)) ++ [(j, p)],
      ∀ e' ∈ s.solved.map (fun e => (e.1, clear j p e.2)) ++ [(j, p)],
        e'.2.entry e.1 = if e'.1 = e.1 then 1 else 0 := by
  intro e he e' he'
  rcases List.mem_append.1 he with he | he <;> rcases List.mem_append.1 he' with he' | he'
  · obtain ⟨d, hd, rfl⟩ := List.mem_map.1 he
    obtain ⟨d', hd', rfl⟩ := List.mem_map.1 he'
    rw [hp.entry_clear_of_lt (h.solved_length d' hd') (h.column_lt d hd)]
    exact h.reduced d hd d' hd'
  · obtain ⟨d, hd, rfl⟩ := List.mem_map.1 he
    have hlt := h.column_lt d hd
    rw [List.mem_singleton.1 he', if_neg (Nat.ne_of_gt hlt)]
    exact hp.zero d.1 hlt
  · obtain ⟨d', hd', rfl⟩ := List.mem_map.1 he'
    have hlt := h.column_lt d' hd'
    rw [List.mem_singleton.1 he, hp.entry_clear_self (h.solved_length d' hd'),
      if_neg (Nat.ne_of_lt hlt)]
  · rw [List.mem_singleton.1 he, List.mem_singleton.1 he', if_pos rfl]
    exact hp.one

theorem Invariant.sorted_clear
    (h : Invariant n rows j s) :
    (s.solved.map (fun e => (e.1, clear j p e.2)) ++ [(j, p)]).Pairwise
      fun a b => a.1 < b.1 := by
  refine List.pairwise_append.2 ⟨List.pairwise_map.2 h.sorted, List.pairwise_singleton _ _, ?_⟩
  intro e he e' he'
  obtain ⟨d, hd, rfl⟩ := List.mem_map.1 he
  rw [List.mem_singleton.1 he']
  exact h.column_lt d hd

/-- Where the pivot holds, clearing its unknown from rows keeps their solutions. -/
theorem Pivot.holdsAt_clear_iff
    (hp : Pivot n j p) {x : ℕ → ℚ} (hx : p.HoldsAt x) {r : Row ℚ}
    (hr : r.coefficients.length = n) : (clear j p r).HoldsAt x ↔ r.HoldsAt x :=
  Rational.holdsAt_clear_iff (hr.trans hp.length.symm) hx

/-- Clearing an unknown from all other rows keeps the common solutions. -/
theorem Pivot.forall_holdsAt_iff
    (hp : Pivot n j p) {solved : List (ℕ × Row ℚ)} {pending : List (Row ℚ)}
    (hsolved : ∀ e ∈ solved, e.2.coefficients.length = n)
    (hpending : ∀ r ∈ pending, r.coefficients.length = n) (x : ℕ → ℚ) :
    ((∀ e ∈ solved.map (fun e => (e.1, clear j p e.2)) ++ [(j, p)], e.2.HoldsAt x) ∧
        ∀ r ∈ pending.map (clear j p), r.HoldsAt x) ↔
      (∀ e ∈ solved, e.2.HoldsAt x) ∧ p.HoldsAt x ∧ ∀ r ∈ pending, r.HoldsAt x := by
  simp only [List.forall_mem_append, List.forall_mem_map, List.mem_singleton, forall_eq, and_assoc]
  constructor
  · rintro ⟨hs, hx, hr⟩
    refine ⟨fun e he => ?_, hx, fun r hmem => ?_⟩
    · exact (hp.holdsAt_clear_iff hx (hsolved e he)).1 (hs e he)
    · exact (hp.holdsAt_clear_iff hx (hpending r hmem)).1 (hr r hmem)
  · rintro ⟨hs, hx, hr⟩
    refine ⟨fun e he => ?_, hx, fun r hmem => ?_⟩
    · exact (hp.holdsAt_clear_iff hx (hsolved e he)).2 (hs e he)
    · exact (hp.holdsAt_clear_iff hx (hpending r hmem)).2 (hr r hmem)

end Clear

/-- Solving a pending row for its unknown keeps the invariant. -/
theorem pivot_invariant
    {n j : ℕ} {rows : List (Row ℚ)} {s : State} (h : Invariant n rows j s)
    {before after : List (Row ℚ)} {found : Row ℚ}
    (hpending : s.pending = before ++ found :: after) (hfound : found.entry j ≠ 0) :
    Invariant n rows (j + 1)
      ⟨s.solved.map (fun e => (e.1, clear j (normalize j found) e.2)) ++
          [(j, normalize j found)],
        (before ++ after).map (clear j (normalize j found))⟩ := by
  have hmem : found ∈ s.pending := by simp [hpending]
  have hp : Pivot n j (normalize j found) :=
    normalize_pivot (h.pending_length found hmem) hfound (h.cleared found hmem)
  have hiff : ∀ x, (normalize j found).HoldsAt x ↔ found.HoldsAt x := fun x =>
    holdsAt_normalize_iff hfound
  have hsub : ∀ r ∈ before ++ after, r ∈ s.pending := by
    intro r hr
    rw [hpending]
    rcases List.mem_append.1 hr with hr | hr
    · exact List.mem_append_left _ hr
    · exact List.mem_append_right _ (List.mem_cons_of_mem _ hr)
  have hlength : ∀ r ∈ before ++ after, r.coefficients.length = n := fun r hr =>
    h.pending_length r (hsub r hr)
  generalize normalize j found = p at hp hiff ⊢
  refine ⟨?_, ?_, ?_, h.sorted_clear, hp.reduced h, ?_, ?_⟩
  · intro e he
    rcases List.mem_append.1 he with he | he
    · obtain ⟨d, hd, rfl⟩ := List.mem_map.1 he
      exact hp.length_clear_eq (h.solved_length d hd)
    · rw [List.mem_singleton.1 he]
      exact hp.length
  · intro r hr
    obtain ⟨r', hr', rfl⟩ := List.mem_map.1 hr
    exact hp.length_clear_eq (hlength r' hr')
  · intro e he
    rcases List.mem_append.1 he with he | he
    · obtain ⟨d, hd, rfl⟩ := List.mem_map.1 he
      exact Nat.lt_succ_of_lt (h.column_lt d hd)
    · rw [List.mem_singleton.1 he]
      exact Nat.lt_succ_self j
  · intro r hr i hi
    obtain ⟨r', hr', rfl⟩ := List.mem_map.1 hr
    rcases Nat.lt_succ_iff_lt_or_eq.1 hi with hi | rfl
    · rw [hp.entry_clear_of_lt (hlength r' hr') hi]
      exact h.cleared r' (hsub r' hr') i hi
    · exact hp.entry_clear_self (hlength r' hr')
  · intro x
    rw [hp.forall_holdsAt_iff h.solved_length hlength x, hiff x, ← h.equivalent x, hpending]
    simp only [List.forall_mem_append, List.forall_mem_cons]
    tauto

/-- A visited column keeps the invariant. -/
theorem step_invariant
    {n j : ℕ} {rows : List (Row ℚ)} {s : State} (h : Invariant n rows j s) :
    Invariant n rows (j + 1) (step s j) := by
  rcases step_cases s j with ⟨hzero, hstep⟩ | ⟨before, found, after, hpending, hfound, hstep⟩
  · rw [hstep]
    refine { h with column_lt := ?_, cleared := ?_ }
    · intro e he
      exact Nat.lt_succ_of_lt (h.column_lt e he)
    · intro r hr i hi
      rcases Nat.lt_succ_iff_lt_or_eq.1 hi with hi | rfl
      · exact h.cleared r hr i hi
      · exact hzero r hr
  · rw [hstep]
    exact pivot_invariant h hpending hfound

/-! ## All columns -/

theorem eliminate_invariant
    {n : ℕ} {rows : List (Row ℚ)} (h : ∀ r ∈ rows, r.coefficients.length = n) :
    Invariant n rows n (eliminate n rows) := by
  suffices hj : ∀ j, Invariant n rows j ((List.range j).foldl step ⟨[], rows⟩) from hj n
  intro j
  induction j with
  | zero => exact initial_invariant h
  | succ j ih =>
    rw [List.range_succ, List.foldl_append]
    exact step_invariant ih

theorem Invariant.sorted_values
    {n j : ℕ} {rows : List (Row ℚ)} {s : State} (h : Invariant n rows j s) :
    (s.solved.map fun e => (e.1, e.2.rhs)).Pairwise fun a b => a.1 < b.1 :=
  List.pairwise_map.2 h.sorted

/-- A pending row that is left at the end only compares zero with its right-hand side. -/
theorem Invariant.pending_holdsAt_iff
    {n : ℕ} {rows : List (Row ℚ)} {s : State} (h : Invariant n rows n s)
    {r : Row ℚ} (hr : r ∈ s.pending) (x : ℕ → ℚ) : r.HoldsAt x ↔ r.rhs = 0 := by
  have hform : form r.coefficients x = 0 := by
    rw [Row.form_eq_sum (h.pending_length r hr)]
    refine sum_eq_zero fun i hi => ?_
    rw [h.cleared r hr i (mem_range.1 hi), zero_mul]
  rw [Row.HoldsAt, hform, eq_comm]

/-- The solved rows hold where each solved unknown has the right-hand side of its row and every
other unknown is zero. -/
theorem Invariant.solved_holdsAt
    {n : ℕ} {rows : List (Row ℚ)} {s : State} (h : Invariant n rows n s)
    {e : ℕ × Row ℚ} (he : e ∈ s.solved) :
    e.2.HoldsAt (valueAt (s.solved.map fun e => (e.1, e.2.rhs))) := by
  have hsorted := h.sorted_values
  have hself : valueAt (s.solved.map fun e => (e.1, e.2.rhs)) e.1 = e.2.rhs :=
    valueAt_of_mem (hsorted.imp Nat.ne_of_lt) (List.mem_map.2 ⟨e, he, rfl⟩)
  rw [Row.HoldsAt, Row.form_eq_sum (h.solved_length e he), sum_eq_single e.1]
  · rw [h.reduced e he e he, if_pos rfl, one_mul, hself]
  · intro i _ hi
    by_contra hterm
    obtain ⟨d, hd, heq⟩ := List.mem_map.1
      (mem_of_valueAt_ne_zero (right_ne_zero_of_mul hterm))
    have hcolumn : d.1 = i := congrArg Prod.fst heq
    have hentry := h.reduced d hd e he
    rw [hcolumn, if_neg hi.symm] at hentry
    exact left_ne_zero_of_mul hterm hentry
  · intro hrange
    exact absurd (mem_range.2 (h.column_lt e he)) hrange

/-! ## The answer -/

section Solve

variable {n : ℕ} {rows : List (Row ℤ)}

theorem length_cast
    (h : ∀ r ∈ rows, r.coefficients.length = n) :
    ∀ r ∈ rows.map (Row.map fun k : ℤ => (k : ℚ)), r.coefficients.length = n := by
  intro r hr
  obtain ⟨r', hr', rfl⟩ := List.mem_map.1 hr
  rw [← h r' hr']
  exact List.length_map _

/-- A system answered as unsatisfiable has no rational solution. -/
theorem not_holdsAt_of_solve_eq_unsat
    (h : ∀ r ∈ rows, r.coefficients.length = n) (hsolve : solve n rows = .unsat) (x : ℕ → ℚ) :
    ¬∀ r ∈ rows, (r.map fun k : ℤ => (k : ℚ)).HoldsAt x := by
  intro hx
  have hinv := eliminate_invariant (length_cast h)
  rw [solve] at hsolve
  split at hsolve
  case isFalse => cases hsolve
  case isTrue hany =>
    obtain ⟨r, hr, hne⟩ := List.any_eq_true.1 hany
    have hholds := ((hinv.equivalent x).2 (List.forall_mem_map.2 hx)).2 r hr
    have hzero := (hinv.pending_holdsAt_iff hr x).1 hholds
    simp [hzero] at hne

/-- The numbers of an answer satisfy the system; they are listed by increasing unknown. -/
theorem holdsAt_of_solve_eq_sat
    (h : ∀ r ∈ rows, r.coefficients.length = n) {values : List (ℕ × ℚ)}
    (hsolve : solve n rows = .sat values) :
    values.Pairwise (fun a b => a.1 < b.1) ∧ (∀ v ∈ values, v.1 < n) ∧
      ∀ r ∈ rows, (r.map fun k : ℤ => (k : ℚ)).HoldsAt (valueAt values) := by
  have hinv := eliminate_invariant (length_cast h)
  rw [solve] at hsolve
  split at hsolve
  case isTrue => cases hsolve
  case isFalse hany =>
    cases hsolve
    refine ⟨hinv.sorted_values, List.forall_mem_map.2 hinv.column_lt, ?_⟩
    refine List.forall_mem_map.1 ((hinv.equivalent _).1 ⟨?_, ?_⟩)
    · intro e he
      exact hinv.solved_holdsAt he
    · intro r hr
      refine (hinv.pending_holdsAt_iff hr _).2 ?_
      by_contra hne
      exact hany (List.any_eq_true.2 ⟨r, hr, by simpa using hne⟩)

end Solve

end Rational
end Linear
end Metrology
