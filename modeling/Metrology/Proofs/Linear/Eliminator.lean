import Metrology.Linear.Solver
import Metrology.Proofs.Linear.Format
import Metrology.Proofs.Linear.Integral
import Metrology.Proofs.Linear.Rational

/-!
# Exactness of the built-in eliminator

The built-in eliminator finds integers that satisfy all equations of a system, or answers that
there are none.  The statements here go through the texts of the system and of its results.
-/

namespace Metrology
namespace Linear

/-! ## Rows -/

theorem Row.holdsAt_congr {α : Type} [CommRing α]
    {r : Row α} {n : ℕ} (hr : r.coefficients.length = n) {x y : ℕ → α}
    (h : ∀ i < n, x i = y i) : r.HoldsAt x ↔ r.HoldsAt y := by
  have hform : form r.coefficients x = form r.coefficients y := by
    rw [Row.form_eq_sum hr, Row.form_eq_sum hr]
    refine Finset.sum_congr rfl fun i hi => ?_
    rw [h i (Finset.mem_range.1 hi)]
  rw [Row.HoldsAt, Row.HoldsAt, hform]

section Rows

variable {n : ℕ} {rows : List (Row ℤ)}

/-- An answer whose numbers are integers that satisfy all rows. -/
structure Solves (n : ℕ) (rows : List (Row ℤ)) (values : List (ℕ × ℚ)) : Prop where
  sorted : values.Pairwise fun a b => a.1 < b.1
  below : ∀ v ∈ values, v.1 < n
  integral : ∀ v ∈ values, v.2.den = 1
  holds : ∃ x : ℕ → ℤ, (∀ i, valueAt values i = x i) ∧ ∀ r ∈ rows, r.HoldsAt x

theorem Solves.distinct {values : List (ℕ × ℚ)} (h : Solves n rows values) :
    values.Pairwise fun a b => a.1 ≠ b.1 :=
  h.sorted.imp Nat.ne_of_lt

/-- A rational answer without fractions is an integral one. -/
theorem solves_of_rational
    (hrows : ∀ r ∈ rows, r.coefficients.length = n) {values : List (ℕ × ℚ)}
    (h : Rational.solve n rows = .sat values)
    (hintegral : (Results.sat values).isFractional = false) : Solves n rows values := by
  obtain ⟨hsorted, hbelow, hholds⟩ := Rational.holdsAt_of_solve_eq_sat hrows h
  have hden : ∀ v ∈ values, v.2.den = 1 := by
    simpa [Results.isFractional] using hintegral
  have hnum := valueAt_eq_num hden
  refine ⟨hsorted, hbelow, hden, fun i => (valueAt values i).num, hnum, fun r hr => ?_⟩
  rw [← Row.holdsAt_map_cast_iff, ← funext hnum]
  exact hholds r hr

theorem decideRows_eq_sat
    (hrows : ∀ r ∈ rows, r.coefficients.length = n) {values : List (ℕ × ℚ)}
    (h : decideRows n rows = .sat values) : Solves n rows values := by
  unfold decideRows at h
  by_cases hfractional : (Rational.solve n rows).isFractional = true
  · rw [if_pos hfractional] at h
    obtain ⟨hsorted, hvalues, hholds⟩ := Integral.holdsAt_of_solve_eq_sat h
    exact ⟨hsorted, fun v hv => (hvalues v hv).1, fun v hv => (hvalues v hv).2, hholds⟩
  · rw [if_neg hfractional] at h
    rw [h, Bool.not_eq_true] at hfractional
    exact solves_of_rational hrows h hfractional

theorem not_holdsAt_of_decideRows_eq_unsat
    (hrows : ∀ r ∈ rows, r.coefficients.length = n) (h : decideRows n rows = .unsat)
    (x : ℕ → ℤ) : ¬∀ r ∈ rows, r.HoldsAt x := by
  intro hx
  unfold decideRows at h
  by_cases hfractional : (Rational.solve n rows).isFractional = true
  · rw [if_pos hfractional] at h
    refine Integral.not_holdsAt_of_solve_eq_unsat h (x := fun i => if i < n then x i else 0)
      (fun i hi => if_neg (Nat.not_lt.2 hi)) fun r hr => ?_
    refine (Row.holdsAt_congr (hrows r hr) fun i hi => ?_).2 (hx r hr)
    rw [if_pos hi]
  · rw [if_neg hfractional] at h
    refine Rational.not_holdsAt_of_solve_eq_unsat hrows h (fun i => (x i : ℚ)) fun r hr => ?_
    exact (Row.holdsAt_map_cast_iff r x).2 (hx r hr)

end Rows

/-! ## Systems -/

section System

variable {equations : List Equation} {component : Component} {width : ℕ}

/-- The system of a list of equations. -/
def systemOfEquations (component : Component) (width : ℕ) (equations : List Equation) :
    ComponentSystem :=
  equations.foldl ComponentSystem.push ⟨component, width, SortedMap.empty⟩

theorem foldl_push (s : ComponentSystem) (equations : List Equation) :
    equations.foldl ComponentSystem.push s =
      ⟨s.component, s.width,
        equations.foldl (fun found e => found.insert e.render e) s.equations⟩ := by
  induction equations generalizing s with
  | nil => rfl
  | cons e rest ih => exact ih (s.push e)

theorem mem_keys_systemOfEquations {k : String} :
    k ∈ (systemOfEquations component width equations).equations.keys ↔
      ∃ e ∈ equations, e.render = k := by
  rw [systemOfEquations, foldl_push, SortedMap.mem_keys_foldl_insert]
  simp [SortedMap.keys, SortedMap.empty]

theorem width_systemOfEquations :
    (systemOfEquations component width equations).width = width := by
  rw [systemOfEquations, foldl_push]

theorem component_systemOfEquations :
    (systemOfEquations component width equations).component = component := by
  rw [systemOfEquations, foldl_push]

/-- What is read from the text of a system has the solutions of its equations. -/
theorem holdsAt_rows_iff_of_read
    {found : ReadSystem}
    (h : ReadSystem.read (systemOfEquations component width equations).text = .ok found)
    (x : ℕ → ℤ) :
    (∀ r ∈ found.rows, r.HoldsAt x) ↔ ∀ e ∈ equations, e.Holds x := by
  have hline : ∀ k ∈ (systemOfEquations component width equations).equations.keys,
      Text.IsLine k.toList := by
    intro k hk
    obtain ⟨e, -, rfl⟩ := mem_keys_systemOfEquations.1 hk
    exact e.isLine_render
  obtain ⟨hwidth, hread⟩ := ComponentSystem.read_text_eq_ok hline h
  rw [width_systemOfEquations] at hwidth hread
  have hrow : ∀ e : Equation, e.Below width →
      ((Row.ofEquation found.width e).HoldsAt x ↔ e.Holds x) := by
    intro e he
    rw [hwidth, Row.holdsAt_ofEquation_iff_sum, Equation.Holds, Equation.value_eq_sum he]
  rw [ReadSystem.rows, List.forall_mem_map]
  constructor
  · intro hholds e he
    have hkey : e.render ∈ (systemOfEquations component width equations).equations.keys :=
      mem_keys_systemOfEquations.2 ⟨e, he, rfl⟩
    obtain ⟨e', he'⟩ := exists_mapM_eq_ok_iff.1 ⟨_, hread⟩ e.render hkey
    obtain ⟨hbelow, hiff⟩ := Equation.holds_iff_of_read_render he'
    have hmem : e' ∈ found.equations := (mem_of_mapM_eq_ok hread).2 ⟨e.render, hkey, he'⟩
    exact (hiff x).1 ((hrow e' hbelow).1 (hholds e' hmem))
  · intro hholds e' he'
    obtain ⟨k, hk, hreadk⟩ := (mem_of_mapM_eq_ok hread).1 he'
    obtain ⟨e, he, rfl⟩ := mem_keys_systemOfEquations.1 hk
    obtain ⟨hbelow, hiff⟩ := Equation.holds_iff_of_read_render hreadk
    exact (hrow e' hbelow).2 ((hiff x).2 (hholds e he))

/-- The text of a system of short equations is read. -/
theorem exists_read_systemOfEquations (hwidth : width < 2 ^ 64)
    (hsize : (systemOfEquations component width equations).equations.size < 2 ^ 64)
    (h : ∀ e ∈ equations, e.Below width ∧ e.Short) :
    ∃ found, ReadSystem.read (systemOfEquations component width equations).text = .ok found ∧
      found.width = width := by
  have hkey : ∀ k ∈ (systemOfEquations component width equations).equations.keys,
      ∃ e : Equation, e.render = k ∧ e.Below width ∧ e.Short := by
    intro k hk
    obtain ⟨e, he, rfl⟩ := mem_keys_systemOfEquations.1 hk
    exact ⟨e, rfl, h e he⟩
  have hline : ∀ k ∈ (systemOfEquations component width equations).equations.keys,
      Text.IsLine k.toList := by
    intro k hk
    obtain ⟨e, rfl, -⟩ := hkey k hk
    exact e.isLine_render
  have hsystem : (systemOfEquations component width equations).width = width :=
    width_systemOfEquations
  obtain ⟨found, hfound⟩ := ComponentSystem.exists_read_text_eq_ok (hsystem.symm ▸ hwidth) hsize
    (hsystem.symm ▸ hkey)
  exact ⟨found, hfound, (ComponentSystem.read_text_eq_ok hline hfound).1.trans hsystem⟩

theorem length_rows (found : ReadSystem) :
    ∀ r ∈ found.rows, r.coefficients.length = found.width := by
  rw [ReadSystem.rows, List.forall_mem_map]
  intro e _
  simp [Row.ofEquation]

end System

/-! ## Stored values -/

/-- The integer that stored values give to an unknown. -/
def SystemValues.valueOf (values : SystemValues) (i : ℕ) : ℤ :=
  match values.get? i with
  | some n => n.val
  | none => 0

theorem storeValue_eq_ok
    {unknowns : List SlotId} {stored stored' : SystemValues} {v : ℕ × ℚ}
    (h : storeValue unknowns stored v = .ok stored') :
    v.1 < unknowns.length ∧ ∃ n : Exponent, v.2.num = n.val ∧ stored' = stored.insert v.1 n := by
  unfold storeValue at h
  split at h
  · cases h
  · rename_i slot hslot
    split at h
    · rename_i n hn
      cases h
      refine ⟨(List.getElem?_eq_some_iff.1 hslot).1, n, ?_, rfl⟩
      split at hn
      · exact (Exponent.ofInt?_eq_some_iff.1 hn).symm
      · cases hn
    · cases h

/-- Storing fails only because an answer is malformed. -/
theorem storeValue_eq_error
    {unknowns : List SlotId} {stored : SystemValues} {v : ℕ × ℚ} {e : SolveError}
    (h : storeValue unknowns stored v = .error e) : ∃ cause, e = .malformed cause := by
  unfold storeValue at h
  split at h
  · cases h
    exact ⟨_, rfl⟩
  · split at h
    · cases h
    · cases h
      exact ⟨_, rfl⟩

theorem foldlM_storeValue_eq_error
    {unknowns : List SlotId} {values : List (ℕ × ℚ)} {stored : SystemValues} {e : SolveError}
    (h : values.foldlM (storeValue unknowns) stored = .error e) :
    ∃ cause, e = .malformed cause := by
  obtain ⟨_, _, -, hstore⟩ := exists_of_foldlM_eq_error h
  exact storeValue_eq_error hstore

theorem foldlM_storeValue_ne_unsatisfiable
    {unknowns : List SlotId} {values : List (ℕ × ℚ)} {stored : SystemValues}
    {reasons : List Reason} :
    values.foldlM (storeValue unknowns) stored ≠ .error (.unsatisfiable reasons) := by
  intro h
  obtain ⟨_, ⟨⟩⟩ := foldlM_storeValue_eq_error h

/-- Values of known unknowns in the range of exponents are stored. -/
theorem exists_foldlM_storeValue_eq_ok {unknowns : List SlotId} {values : List (ℕ × ℚ)}
    (h : ∀ v ∈ values, v.1 < unknowns.length ∧ v.2.den = 1 ∧ InExponentRange v.2.num)
    (stored : SystemValues) :
    ∃ stored', values.foldlM (storeValue unknowns) stored = .ok stored' := by
  induction values generalizing stored with
  | nil => exact ⟨stored, rfl⟩
  | cons v rest ih =>
    obtain ⟨⟨hlt, hden, hrange⟩, hrest⟩ := List.forall_mem_cons.1 h
    have hstore : storeValue unknowns stored v = .ok (stored.insert v.1 ⟨v.2.num, hrange⟩) := by
      simp [storeValue, List.getElem?_eq_getElem hlt, hden, Exponent.ofInt?, hrange]
    rw [List.foldlM_cons, hstore]
    exact ih hrest _

/-- Values of different unknowns are stored as they are. -/
theorem get?_foldlM_storeValue
    {unknowns : List SlotId} {values : List (ℕ × ℚ)}
    (hdistinct : values.Pairwise fun a b => a.1 ≠ b.1) {stored stored' : SystemValues}
    (h : values.foldlM (storeValue unknowns) stored = .ok stored') :
    (∀ v ∈ values, ∃ n : Exponent, v.2.num = n.val ∧ stored'.get? v.1 = some n) ∧
      ∀ i, (∀ v ∈ values, v.1 ≠ i) → stored'.get? i = stored.get? i := by
  induction values generalizing stored with
  | nil =>
    cases h
    exact ⟨by simp, fun _ _ => rfl⟩
  | cons v rest ih =>
    obtain ⟨hne, hrest⟩ := List.pairwise_cons.1 hdistinct
    rw [List.foldlM_cons, bind_eq_ok_iff] at h
    obtain ⟨stored₁, hv, hfold⟩ := h
    obtain ⟨-, n, hn, rfl⟩ := storeValue_eq_ok hv
    obtain ⟨hmem, hother⟩ := ih hrest hfold
    refine ⟨List.forall_mem_cons.2 ⟨⟨n, hn, ?_⟩, hmem⟩, fun i hi => ?_⟩
    · rw [hother v.1 fun v' hv' => (hne v' hv').symm, SortedMap.get?_insert_self]
    · obtain ⟨hne, hi⟩ := List.forall_mem_cons.1 hi
      rw [hother i hi, SortedMap.get?_insert, if_neg (Ne.symm hne)]

/-- Stored values are the numbers of the answer. -/
theorem valueOf_of_foldlM_storeValue
    {unknowns : List SlotId} {values : List (ℕ × ℚ)}
    (hdistinct : values.Pairwise fun a b => a.1 ≠ b.1) (hintegral : ∀ v ∈ values, v.2.den = 1)
    {stored : SystemValues}
    (h : values.foldlM (storeValue unknowns) SortedMap.empty = .ok stored) (i : ℕ) :
    (stored.valueOf i : ℚ) = valueAt values i := by
  obtain ⟨hmem, hother⟩ := get?_foldlM_storeValue hdistinct h
  by_cases hi : ∃ v ∈ values, v.1 = i
  · obtain ⟨v, hv, rfl⟩ := hi
    obtain ⟨n, hn, hget⟩ := hmem v hv
    rw [valueAt_of_mem hdistinct hv, SystemValues.valueOf, hget]
    simp only [← hn]
    exact Rat.coe_int_num_of_den_eq_one (hintegral v hv)
  · have hnot : ∀ v ∈ values, v.1 ≠ i := fun v hv heq => hi ⟨v, hv, heq⟩
    have hzero : valueAt values i = 0 := by
      by_contra hne
      exact hnot _ (mem_of_valueAt_ne_zero hne) rfl
    rw [hzero, SystemValues.valueOf, hother i hnot, SortedMap.get?_empty]
    rfl

/-! ## Answers -/

section Answers

variable {s : ComponentSystem} {unknowns : List SlotId} {text : String}

theorem eliminate_builtin (text : String) :
    Eliminator.builtin.eliminate text = (readSystem text).map fun system => system.decide.render :=
  rfl

/-- The built-in eliminator answers with its decision on what it reads. -/
theorem eliminate_builtin_eq_ok (h : Eliminator.builtin.eliminate s.text = .ok text) :
    ∃ found, ReadSystem.read s.text = .ok found ∧ text = found.decide.render := by
  rw [eliminate_builtin, map_eq_ok_iff] at h
  obtain ⟨found, hfound, rfl⟩ := h
  refine ⟨found, ?_, rfl⟩
  unfold readSystem at hfound
  split at hfound
  · cases hfound
    assumption
  · cases hfound

theorem readSystem_ne_unsatisfiable {reasons : List Reason} :
    readSystem text ≠ .error (.unsatisfiable reasons) := by
  unfold readSystem
  intro h
  split at h <;> cases h

theorem eliminate_builtin_ne_unsatisfiable {reasons : List Reason} :
    Eliminator.builtin.eliminate text ≠ .error (.unsatisfiable reasons) := by
  rw [eliminate_builtin, ne_eq, map_eq_error_iff]
  exact readSystem_ne_unsatisfiable

theorem readResults_render_eq_ok {r r' : Results} (h : readResults r.render = .ok r') : r' = r := by
  unfold readResults at h
  split at h
  · cases h
    apply Results.eq_of_read_render
    assumption
  · cases h

theorem readResults_ne_unsatisfiable {reasons : List Reason} :
    readResults text ≠ .error (.unsatisfiable reasons) := by
  intro h
  unfold readResults at h
  split at h <;> cases h

theorem isFractional_sat_eq_false_iff {values : List (ℕ × ℚ)} :
    (Results.sat values).isFractional = false ↔ ∀ v ∈ values, v.2.den = 1 := by
  simp [Results.isFractional]

/-- An integral answer is used as it is. -/
theorem integralValues_of_integral {values : List (ℕ × ℚ)}
    (hread : Results.read text = .ok (.sat values)) (hintegral : ∀ v ∈ values, v.2.den = 1) :
    integralValues s text = .ok values := by
  have hresults : readResults text = .ok (.sat values) := by rw [readResults, hread]
  rw [integralValues, hresults]
  change (if (Results.sat values).isFractional = true then _ else _) = _
  rw [isFractional_sat_eq_false_iff.2 hintegral]
  rfl

/-- The values that are decoded from a decision are the decided ones. -/
theorem integralValues_eq_ok
    {found : ReadSystem} {values : List (ℕ × ℚ)}
    (h : integralValues s found.decide.render = .ok values) : found.decide = .sat values := by
  unfold integralValues at h
  obtain ⟨r, hr, h⟩ := bind_eq_ok_iff.1 h
  have hdecide := readResults_render_eq_ok hr
  cases r with
  | unsat => cases h
  | sat values' =>
    have hsolves := decideRows_eq_sat (length_rows found) hdecide.symm
    simp only [isFractional_sat_eq_false_iff.2 hsolves.integral] at h
    cases h
    exact hdecide.symm

theorem integralValues_eq_unsatisfiable
    {found : ReadSystem} {reasons : List Reason}
    (h : integralValues s found.decide.render = .error (.unsatisfiable reasons)) :
    found.decide = .unsat := by
  unfold integralValues at h
  rcases bind_eq_error_iff.1 h with h | ⟨r, hr, h⟩
  · exact absurd h readResults_ne_unsatisfiable
  · have hdecide := readResults_render_eq_ok hr
    cases r with
    | unsat => exact hdecide.symm
    | sat values =>
      have hsolves := decideRows_eq_sat (length_rows found) hdecide.symm
      simp only [isFractional_sat_eq_false_iff.2 hsolves.integral] at h
      cases h

/-- An unsatisfiable answer comes with a reason. -/
theorem decodeSystem_reasons_ne_nil {reasons : List Reason}
    (h : decodeSystem s unknowns text = .error (.unsatisfiable reasons)) : reasons ≠ [] := by
  unfold decodeSystem at h
  rcases bind_eq_error_iff.1 h with h | ⟨answer, -, h⟩
  · unfold integralValues at h
    rcases bind_eq_error_iff.1 h with h | ⟨r, -, h⟩
    · exact absurd h readResults_ne_unsatisfiable
    · split at h
      · cases h
        simp
      · split at h
        · rcases bind_eq_error_iff.1 h with h | ⟨found, -, h⟩
          · exact absurd h readSystem_ne_unsatisfiable
          · split at h <;> cases h
            simp
        · cases h
  · exact absurd h foldlM_storeValue_ne_unsatisfiable

end Answers

/-- An answer with one integer for each of some unknowns, which satisfy all equations. -/
structure Answers (n : ℕ) (equations : List Equation) (answer : List (ℕ × ℚ)) : Prop where
  distinct : answer.Pairwise fun a b => a.1 ≠ b.1
  below : ∀ v ∈ answer, v.1 < n
  integral : ∀ v ∈ answer, v.2.den = 1
  holds : ∃ x : ℕ → ℤ, (∀ i, valueAt answer i = x i) ∧ ∀ e ∈ equations, e.Holds x

section Exact

variable {equations : List Equation} {component : Component} {width : ℕ}
  {unknowns : List SlotId} {answer : List (ℕ × ℚ)}

/-- What a system is decided to is an answer to its equations. -/
theorem answers_of_decide {found : ReadSystem}
    (hread : ReadSystem.read (systemOfEquations component width equations).text = .ok found)
    (hdecide : found.decide = .sat answer) : Answers found.width equations answer := by
  have hsolves := decideRows_eq_sat (length_rows found) hdecide
  obtain ⟨x, hx, hholds⟩ := hsolves.holds
  exact ⟨hsolves.distinct, hsolves.below, hsolves.integral, x, hx,
    (holdsAt_rows_iff_of_read hread x).1 hholds⟩

/-- What is stored of an answer satisfies the equations. -/
theorem Answers.holds_valueOf {n : ℕ} (h : Answers n equations answer) {stored : SystemValues}
    (hstored : answer.foldlM (storeValue unknowns) SortedMap.empty = .ok stored) :
    ∀ e ∈ equations, e.Holds stored.valueOf := by
  obtain ⟨x, hx, hholds⟩ := h.holds
  have heq : stored.valueOf = x := by
    funext i
    have hcast := (valueOf_of_foldlM_storeValue h.distinct h.integral hstored i).trans (hx i)
    exact_mod_cast hcast
  rw [heq]
  exact hholds

/-- The integers found for a system satisfy its equations. -/
theorem holds_of_decodeSystem_eq_ok
    {values : SystemValues}
    (h : Eliminator.builtin.eliminate (systemOfEquations component width equations).text >>=
      decodeSystem (systemOfEquations component width equations) unknowns = .ok values) :
    ∀ e ∈ equations, e.Holds values.valueOf := by
  obtain ⟨text, htext, h⟩ := bind_eq_ok_iff.1 h
  obtain ⟨found, hread, rfl⟩ := eliminate_builtin_eq_ok htext
  unfold decodeSystem at h
  obtain ⟨answer, hanswer, hstore⟩ := bind_eq_ok_iff.1 h
  exact (answers_of_decide hread (integralValues_eq_ok hanswer)).holds_valueOf hstore

/-- A system that is found unsatisfiable has no integer solution. -/
theorem not_holds_of_decodeSystem_eq_unsatisfiable
    {reasons : List Reason}
    (h : Eliminator.builtin.eliminate (systemOfEquations component width equations).text >>=
      decodeSystem (systemOfEquations component width equations) unknowns =
        .error (.unsatisfiable reasons)) (x : ℕ → ℤ) :
    ¬∀ e ∈ equations, e.Holds x := by
  rcases bind_eq_error_iff.1 h with h | ⟨text, htext, h⟩
  · exact absurd h eliminate_builtin_ne_unsatisfiable
  · obtain ⟨found, hread, rfl⟩ := eliminate_builtin_eq_ok htext
    unfold decodeSystem at h
    rcases bind_eq_error_iff.1 h with h | ⟨answer, -, h⟩
    · rw [← holdsAt_rows_iff_of_read hread x]
      exact not_holdsAt_of_decideRows_eq_unsat (length_rows found)
        (integralValues_eq_unsatisfiable h) x
    · exact absurd h foldlM_storeValue_ne_unsatisfiable

end Exact

end Linear
end Metrology
