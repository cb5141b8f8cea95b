import Metrology.Proofs.Linear.Eliminator

/-!
# Decisions over the integers

The built-in elimination decides exactly whether rows have an integer solution.  An answer of a
tool that solves a system over the rationals is taken as it is if it is integral, and decided again
if it is not: a system counts as unsatisfiable only if it has no integer solution.
-/

namespace Metrology
namespace Linear

/-! ## Rows -/

section Rows

variable {α : Type} [CommRing α]

theorem Row.holds_iff_holdsAt (r : Row α) (x : List α) : r.Holds x ↔ r.HoldsAt (entries x) := by
  rw [Holds, dot_eq_form, HoldsAt]

theorem entries_map_range {n : ℕ} (x : ℕ → α) {i : ℕ} (hi : i < n) :
    entries ((List.range n).map x) i = x i := by
  simp [entries, hi]

/-- A row holds at the list of the first numbers exactly if it holds at all of them. -/
theorem Row.holds_map_range_iff {r : Row α} {n : ℕ} (hr : r.coefficients.length = n)
    (x : ℕ → α) : r.Holds ((List.range n).map x) ↔ r.HoldsAt x := by
  rw [holds_iff_holdsAt]
  exact holdsAt_congr hr fun i hi => entries_map_range x hi

end Rows

section Decision

variable {n : ℕ} {rows : List (Row ℤ)} {values : List (ℕ × ℚ)}

theorem Solves.exists_holds (hrows : ∀ r ∈ rows, r.coefficients.length = n)
    (h : Solves n rows values) : ∃ x : List ℤ, x.length = n ∧ ∀ r ∈ rows, r.Holds x := by
  obtain ⟨x, -, hholds⟩ := h.holds
  exact ⟨(List.range n).map x, by simp, fun r hr =>
    (Row.holds_map_range_iff (hrows r hr) x).2 (hholds r hr)⟩

/-- The numbers of an answer, zero where it has none, satisfy the rows. -/
theorem Solves.holds_values (hrows : ∀ r ∈ rows, r.coefficients.length = n)
    (h : Solves n rows values) {r : Row ℤ} (hr : r ∈ rows) :
    (r.map fun k : ℤ => (k : ℚ)).Holds ((List.range n).map (valueAt values)) := by
  obtain ⟨x, hx, hholds⟩ := h.holds
  have hlength : (r.map fun k : ℤ => (k : ℚ)).coefficients.length = n := by
    rw [← hrows r hr]
    exact List.length_map _
  rw [Row.holds_map_range_iff hlength, funext hx, Row.holdsAt_map_cast_iff]
  exact hholds r hr

/-- Rows are answered as unsatisfiable exactly if no integers satisfy them.  Any other answer
lists unknowns in increasing order with integers, and these, with zero for the unknowns that are
not listed, satisfy all rows. -/
theorem decideRows_exact (n : ℕ) (rows : List (Row ℤ))
    (hrows : ∀ r ∈ rows, r.coefficients.length = n) :
    (decideRows n rows = .unsat ↔ ¬∃ x : List ℤ, x.length = n ∧ ∀ r ∈ rows, r.Holds x) ∧
    (decideRows n rows ≠ .unsat → ∃ values, decideRows n rows = .sat values ∧
      values.Pairwise (fun a b => a.1 < b.1) ∧ (∀ v ∈ values, v.1 < n ∧ v.2.den = 1) ∧
      ∀ r ∈ rows, (r.map fun k : ℤ => (k : ℚ)).Holds ((List.range n).map (valueAt values))) := by
  cases hdecide : decideRows n rows with
  | unsat =>
    refine ⟨iff_of_true rfl ?_, fun hne => absurd rfl hne⟩
    rintro ⟨x, -, hx⟩
    refine not_holdsAt_of_decideRows_eq_unsat hrows hdecide (entries x) fun r hr => ?_
    exact (r.holds_iff_holdsAt x).1 (hx r hr)
  | sat values =>
    have hsolves := decideRows_eq_sat hrows hdecide
    refine ⟨iff_of_false (by simp) (not_not.2 (hsolves.exists_holds hrows)), fun _ => ?_⟩
    exact ⟨values, rfl, hsolves.sorted, fun v hv => ⟨hsolves.below v hv, hsolves.integral v hv⟩,
      fun r hr => hsolves.holds_values hrows hr⟩

/-- The rows `2 x - y = 1` and `y + 3 z = 2`: with the free unknown at zero `x` would be a half. -/
def skewRows : List (Row ℤ) := [⟨[2, -1, 0], 1⟩, ⟨[0, 1, 3], 2⟩]

theorem decideRows_exact_skew :
    (∀ r ∈ skewRows, r.coefficients.length = 3) ∧
    (Rational.solve 3 skewRows).isFractional = true ∧
    ∃ values, decideRows 3 skewRows = .sat values ∧
      values.Pairwise (fun a b => a.1 < b.1) ∧ (∀ v ∈ values, v.1 < 3 ∧ v.2.den = 1) ∧
      ∀ r ∈ skewRows, (r.map fun k : ℤ => (k : ℚ)).Holds ((List.range 3).map (valueAt values)) :=
  have hrows : ∀ r ∈ skewRows, r.coefficients.length = 3 := by decide
  have hsome : decideRows 3 skewRows ≠ .unsat := by decide +kernel
  ⟨hrows, by decide +kernel, (decideRows_exact 3 skewRows hrows).2 hsome⟩

end Decision

/-! ## Answers of tools -/

namespace Equation

/-- Whether rational values of the unknowns satisfy the equation. -/
def HoldsRat (e : Equation) (x : ℕ → ℚ) : Prop :=
  e.terms.entries.foldr (fun t value => (t.2 : ℚ) * x t.1 + value) 0 = e.rhs

instance (e : Equation) (x : ℕ → ℚ) : Decidable (e.HoldsRat x) :=
  inferInstanceAs (Decidable (_ = _))

theorem holdsRat_cast_iff {e : Equation} {x : ℕ → ℤ} :
    e.HoldsRat (fun i => (x i : ℚ)) ↔ e.Holds x := by
  have hvalue : ∀ terms : List (ℕ × ℤ),
      terms.foldr (fun t value => (t.2 : ℚ) * (x t.1 : ℚ) + value) 0 =
        ((terms.foldr (fun t value => t.2 * x t.1 + value) 0 : ℤ) : ℚ) := by
    intro terms
    induction terms with
    | nil => simp
    | cons t rest ih => simp [ih]
  rw [HoldsRat, hvalue, Int.cast_inj]
  rfl

end Equation

/-- A system that can be handed over: its equations are over its unknowns, and its counts and
numbers fit into words of 64 bits. -/
structure Transmissible (component : Component) (n : ℕ) (equations : List Equation) : Prop where
  width : n < 2 ^ 64
  size : (systemOfEquations component n equations).equations.size < 2 ^ 64
  below : ∀ e ∈ equations, e.Below n
  short : ∀ e ∈ equations, e.Short

/-- Values that a tool may return for a system: no unknown has two, and with zero for the unknowns
without one they satisfy the equations over the rationals. -/
structure RationalAnswer (n : ℕ) (equations : List Equation) (values : List (ℕ × ℚ)) : Prop where
  distinct : (values.map Prod.fst).Nodup
  below : ∀ v ∈ values, v.1 < n
  holds : ∀ e ∈ equations, e.HoldsRat (valueAt values)

section Decoding

variable {equations : List Equation} {component : Component} {unknowns : List SlotId}
  {text : String} {values answer : List (ℕ × ℚ)} {found : ReadSystem}

/-- Values without fractions that a tool may return are an answer in integers. -/
theorem RationalAnswer.answers {n : ℕ} (h : RationalAnswer n equations values)
    (hintegral : ∀ v ∈ values, v.2.den = 1) : Answers n equations values := by
  have hnum := valueAt_eq_num hintegral
  refine ⟨List.pairwise_map.1 h.distinct, h.below, hintegral, fun i => (valueAt values i).num,
    hnum, fun e he => ?_⟩
  rw [← Equation.holdsRat_cast_iff, ← funext hnum]
  exact h.holds e he

/-- A fractional answer is replaced by what the system is decided to. -/
theorem integralValues_of_fractional {s : ComponentSystem}
    (hread : Results.read text = .ok (.sat values)) (hfractional : ¬∀ v ∈ values, v.2.den = 1)
    (hsystem : ReadSystem.read s.text = .ok found) :
    (∀ answer, found.decide = .sat answer → integralValues s text = .ok answer) ∧
    (found.decide = .unsat →
      integralValues s text = .error (.unsatisfiable [.noIntegralSolution s.component])) := by
  have hresults : readResults text = .ok (.sat values) := by rw [readResults, hread]
  have hfound : readSystem s.text = .ok found := by rw [readSystem, hsystem]
  have htrue : (Results.sat values).isFractional = true := by
    rw [← Bool.not_eq_false, isFractional_sat_eq_false_iff]
    exact hfractional
  rw [integralValues, hresults, hfound]
  simp only [bind, Except.bind, htrue, if_true]
  constructor
  · intro answer hdecide
    rw [hdecide]
    rfl
  · intro hdecide
    rw [hdecide]
    rfl

/-- The answer that is used solves the system in integers; there is none only if the given one is
fractional and the system has no integer solution. -/
theorem integralValues_cases {n : ℕ} (hsystem : Transmissible component n equations)
    (hread : Results.read text = .ok (.sat values)) (h : RationalAnswer n equations values) :
    (∃ answer, integralValues (systemOfEquations component n equations) text = .ok answer ∧
      Answers n equations answer) ∨
    (∃ reasons, integralValues (systemOfEquations component n equations) text =
      .error (.unsatisfiable reasons)) ∧
      (∃ v ∈ values, v.2.den ≠ 1) ∧ ¬∃ x : ℕ → ℤ, ∀ e ∈ equations, e.Holds x := by
  by_cases hintegral : ∀ v ∈ values, v.2.den = 1
  · exact .inl ⟨values, integralValues_of_integral hread hintegral, h.answers hintegral⟩
  · -- The text of the system is read back, so that the second decision is about its equations.
    obtain ⟨found, hfound, hwidth⟩ := exists_read_systemOfEquations hsystem.width hsystem.size
      fun e he => ⟨hsystem.below e he, hsystem.short e he⟩
    obtain ⟨hsat, hunsat⟩ := integralValues_of_fractional hread hintegral hfound
    cases hdecide : found.decide with
    | sat answer =>
      exact .inl ⟨answer, hsat answer hdecide, hwidth ▸ answers_of_decide hfound hdecide⟩
    | unsat =>
      refine .inr ⟨⟨_, hunsat hdecide⟩, by simpa using hintegral, ?_⟩
      rintro ⟨x, hx⟩
      exact not_holdsAt_of_decideRows_eq_unsat (length_rows found) hdecide x
        ((holdsAt_rows_iff_of_read hfound x).2 hx)

theorem decodeSystem_of_integralValues {s : ComponentSystem}
    (h : integralValues s text = .ok answer) :
    decodeSystem s unknowns text = answer.foldlM (storeValue unknowns) SortedMap.empty := by
  rw [decodeSystem, h]
  rfl

/-- An answer is stored exactly if its integers are in the range of exponents. -/
theorem Answers.exists_stored_iff (h : Answers unknowns.length equations answer) :
    (∃ stored, answer.foldlM (storeValue unknowns) SortedMap.empty = .ok stored) ↔
      ∀ v ∈ answer, InExponentRange v.2.num := by
  constructor
  · rintro ⟨stored, hstored⟩ v hv
    obtain ⟨n, hn, -⟩ := (get?_foldlM_storeValue h.distinct hstored).1 v hv
    exact hn ▸ n.inRange
  · intro hrange
    exact exists_foldlM_storeValue_eq_ok
      (fun v hv => ⟨h.below v hv, h.integral v hv, hrange v hv⟩) _

/-- The three outcomes of reading an answer, with what each says about the answer that is used. -/
theorem decodeSystem_cases (hsystem : Transmissible component unknowns.length equations)
    (hread : Results.read text = .ok (.sat values))
    (h : RationalAnswer unknowns.length equations values) :
    let system := systemOfEquations component unknowns.length equations
    (∃ found answer, decodeSystem system unknowns text = .ok found ∧
      integralValues system text = .ok answer ∧ (∀ v ∈ answer, InExponentRange v.2.num) ∧
      ∀ e ∈ equations, e.Holds found.valueOf) ∨
    (∃ cause answer, decodeSystem system unknowns text = .error (.malformed cause) ∧
      integralValues system text = .ok answer ∧ (∃ v ∈ answer, ¬InExponentRange v.2.num) ∧
      ∃ x : ℕ → ℤ, ∀ e ∈ equations, e.Holds x) ∨
    (∃ reasons, decodeSystem system unknowns text = .error (.unsatisfiable reasons) ∧
      integralValues system text = .error (.unsatisfiable reasons) ∧
      (∃ v ∈ values, v.2.den ≠ 1) ∧ ¬∃ x : ℕ → ℤ, ∀ e ∈ equations, e.Holds x) := by
  intro system
  rcases integralValues_cases hsystem hread h with
    ⟨answer, hanswer, hanswers⟩ | ⟨⟨reasons, herror⟩, hfractional, hnone⟩
  · have hdecode : decodeSystem system unknowns text =
        answer.foldlM (storeValue unknowns) SortedMap.empty :=
      decodeSystem_of_integralValues hanswer
    cases hstored : answer.foldlM (storeValue unknowns) SortedMap.empty with
    | ok found =>
      exact .inl ⟨found, answer, hdecode.trans hstored, hanswer,
        hanswers.exists_stored_iff.1 ⟨found, hstored⟩, hanswers.holds_valueOf hstored⟩
    | error e =>
      obtain ⟨cause, rfl⟩ := foldlM_storeValue_eq_error hstored
      have hrange : ¬∀ v ∈ answer, InExponentRange v.2.num := by
        rw [← hanswers.exists_stored_iff, hstored]
        simp
      obtain ⟨x, -, hx⟩ := hanswers.holds
      exact .inr (.inl ⟨cause, answer, hdecode.trans hstored, hanswer, by simpa using hrange,
        x, hx⟩)
  · have hdecode : decodeSystem system unknowns text = .error (.unsatisfiable reasons) := by
      rw [decodeSystem, herror]
      rfl
    exact .inr (.inr ⟨reasons, hdecode, herror, hfractional, hnone⟩)

end Decoding

/-- An answer of a tool that satisfies a system over the rationals is decoded to integers that
satisfy the system; it counts as unsatisfiable exactly if it is fractional and the system has no
integer solution; and it counts as malformed exactly if an integer of the answer that is used is
out of the range of exponents.  The answer that is used is the given one if that is integral. -/
theorem decodeSystem_exact (component : Component) (equations : List Equation)
    (unknowns : List SlotId) (text : String) (values : List (ℕ × ℚ))
    (hsystem : Transmissible component unknowns.length equations)
    (hread : Results.read text = .ok (.sat values))
    (hvalues : RationalAnswer unknowns.length equations values) :
    let system := systemOfEquations component unknowns.length equations
    (∀ found, decodeSystem system unknowns text = .ok found →
      ∀ e ∈ equations, e.Holds found.valueOf) ∧
    ((∃ reasons, decodeSystem system unknowns text = .error (.unsatisfiable reasons)) ↔
      (∃ v ∈ values, v.2.den ≠ 1) ∧ ¬∃ x : ℕ → ℤ, ∀ e ∈ equations, e.Holds x) ∧
    ((∃ cause, decodeSystem system unknowns text = .error (.malformed cause)) ↔
      ∃ answer, integralValues system text = .ok answer ∧
        ∃ v ∈ answer, ¬InExponentRange v.2.num) ∧
    ((∀ v ∈ values, v.2.den = 1) → integralValues system text = .ok values) ∧
    (∀ e, decodeSystem system unknowns text = .error e →
      (∃ reasons, e = .unsatisfiable reasons) ∨ ∃ cause, e = .malformed cause) := by
  intro system
  have hgiven := integralValues_of_integral (s := system) hread
  rcases decodeSystem_cases hsystem hread hvalues with
    ⟨found, answer, hdecode, hanswer, hrange, hholds⟩ |
      ⟨cause, answer, hdecode, hanswer, hrange, hsolution⟩ |
        ⟨reasons, hdecode, herror, hfractional, hnone⟩
  · refine ⟨?_, ?_, ?_, hgiven, ?_⟩ <;> rw [hdecode]
    · rintro _ ⟨⟩
      exact hholds
    · exact iff_of_false (by simp) fun h => h.2 ⟨_, hholds⟩
    · refine iff_of_false (by simp) ?_
      rintro ⟨used, hused, v, hv, hout⟩
      obtain rfl : answer = used := Except.ok.inj (hanswer.symm.trans hused)
      exact hout (hrange v hv)
    · rintro _ ⟨⟩
  · refine ⟨?_, ?_, ?_, hgiven, ?_⟩ <;> rw [hdecode]
    · rintro _ ⟨⟩
    · exact iff_of_false (by simp) fun h => h.2 hsolution
    · exact iff_of_true ⟨cause, rfl⟩ ⟨answer, hanswer, hrange⟩
    · rintro _ ⟨⟩
      exact .inr ⟨cause, rfl⟩
  · refine ⟨?_, ?_, ?_, hgiven, ?_⟩ <;> rw [hdecode]
    · rintro _ ⟨⟩
    · exact iff_of_true ⟨reasons, rfl⟩ ⟨hfractional, hnone⟩
    · refine iff_of_false (by simp) ?_
      rintro ⟨used, hused, -⟩
      exact nomatch herror.symm.trans hused
    · rintro _ ⟨⟩
      exact .inl ⟨reasons, rfl⟩

/-- The equation `2 x - y = 1`: a half and zero solve it, and so do zero and minus one. -/
def halfEquation : Equation := ((Equation.trivial.addTerm 0 2).addTerm 1 (-1)).addRhs 1

theorem decodeSystem_exact_half :
    Transmissible .power 2 [halfEquation] ∧
    Results.read "sat\n0 1/2\n" = .ok (.sat [(0, 1 / 2)]) ∧
    RationalAnswer 2 [halfEquation] [(0, 1 / 2)] ∧
    ∃ found, decodeSystem (systemOfEquations .power 2 [halfEquation]) [4, 7] "sat\n0 1/2\n" =
      .ok found ∧ ∀ e ∈ [halfEquation], e.Holds found.valueOf := by
  have hsystem : Transmissible .power 2 [halfEquation] :=
    ⟨by decide, by decide +kernel, by decide, by decide⟩
  have hread : Results.read "sat\n0 1/2\n" = .ok (.sat [(0, 1 / 2)]) := by decide +kernel
  have hvalues : RationalAnswer 2 [halfEquation] [(0, 1 / 2)] :=
    ⟨by decide, by decide, by decide +kernel⟩
  obtain ⟨hok, -⟩ := decodeSystem_exact .power [halfEquation] [4, 7] _ _ hsystem hread hvalues
  refine ⟨hsystem, hread, hvalues, ?_⟩
  have hsome : (decodeSystem (systemOfEquations .power 2 [halfEquation]) [4, 7]
      "sat\n0 1/2\n").toOption.isSome = true := by
    decide +kernel
  cases hdecode : decodeSystem (systemOfEquations .power 2 [halfEquation]) [4, 7]
      "sat\n0 1/2\n" with
  | ok found => exact ⟨found, rfl, hok found hdecode⟩
  | error e =>
    rw [hdecode] at hsome
    cases hsome

end Linear
end Metrology
