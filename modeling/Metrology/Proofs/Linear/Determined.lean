import Metrology.Proofs.Linear.Completeness
import Metrology.Proofs.Linear.Order

/-!
# Models whose equations determine the units

A solve can fail without being unsatisfiable: a number of a system may be too large to be read,
and an integer of the answer may leave the range of exponents.  Neither happens where the systems
are small and each has one solution, the exponents of units that satisfy the model.
-/

namespace Metrology

theorem Exponent.natAbs_val_le (e : Exponent) : e.val.natAbs ≤ 2 ^ 31 := by
  have hrange := e.inRange
  unfold InExponentRange at hrange
  omega

namespace Linear

/-! ## Small numbers -/

/-- At most three terms, each a slot or its opposite. -/
def Relation.Light (r : Relation) : Prop :=
  r.terms.length ≤ 3 ∧ ∀ t ∈ r.terms, t.2.natAbs = 1

/-- The shapes of relations: two operands are equal, or one is the product or quotient of two. -/
inductive Relation.Basic : Relation → Prop
  | equal (origin : Constraint SlotId) (a b : Operand) : Basic (equal origin a b)
  | product (origin : Constraint SlotId) (lhs rhs result : Operand) :
      Basic ⟨origin, [(result, 1), (lhs, -1), (rhs, -1)]⟩
  | quotient (origin : Constraint SlotId) (lhs rhs result : Operand) :
      Basic ⟨origin, [(result, 1), (lhs, -1), (rhs, 1)]⟩

theorem Relation.Basic.light {r : Relation} (h : r.Basic) : r.Light := by
  cases h with
  | equal | product | quotient => simp [Light, Relation.equal]

/-- At most two relations, all of them light. -/
def Few (relations : List Relation) : Prop := relations.length ≤ 2 ∧ ∀ r ∈ relations, r.Light

/-- At most two relations, all of basic shape. -/
def FewBasic (relations : List Relation) : Prop :=
  relations.length ≤ 2 ∧ ∀ r ∈ relations, r.Basic

theorem fewBasic_nil : FewBasic [] := ⟨by simp, by simp⟩

theorem fewBasic_singleton {r : Relation} (hr : r.Basic) : FewBasic [r] :=
  ⟨by simp, List.forall_mem_singleton.2 hr⟩

namespace Categories

variable {k : Categories} {origin : Constraint SlotId} {a b lhs rhs result : Operand}
variable {relations : List Relation}

theorem fewBasic_of_same_eq_ok (h : k.same origin a b = .ok relations) : FewBasic relations := by
  unfold same at h
  split at h
  · cases h
    exact fewBasic_singleton (.equal origin a b)
  · split at h <;> cases h
    exact fewBasic_nil

theorem fewBasic_of_require_eq_ok {category : Category}
    (h : k.require a category = .ok relations) : FewBasic relations := by
  unfold require at h
  split at h <;> cases h
  exact fewBasic_nil

theorem fewBasic_of_arithmetic_eq_ok {sign : Int}
    (hsign : Relation.Basic ⟨origin, [(result, 1), (lhs, -1), (rhs, sign)]⟩)
    (h : k.arithmetic origin lhs rhs result sign = .ok relations) : FewBasic relations := by
  unfold arithmetic at h
  split at h
  · exact fewBasic_of_require_eq_ok h
  · split at h
    · exact fewBasic_of_require_eq_ok h
    · split at h <;> cases h
      exact fewBasic_singleton hsign

theorem fewBasic_of_joinConcrete_eq_ok
    (h : k.joinConcrete origin lhs rhs result = .ok relations) : FewBasic relations := by
  unfold joinConcrete at h
  split at h
  · cases h
    exact ⟨by simp, List.forall_mem_cons.2
      ⟨.equal origin lhs rhs, List.forall_mem_singleton.2 (.equal origin rhs result)⟩⟩
  · cases h
  · split at h
    · split at h <;> cases h
      exact fewBasic_nil
    · cases h
      exact fewBasic_nil

/-- A constraint asks for at most two relations, each of basic shape. -/
theorem fewBasic_of_relations_eq_ok {c : Constraint Operand} (h : k.relations c = .ok relations) :
    FewBasic relations := by
  cases c with
  | equal lhs rhs => exact fewBasic_of_same_eq_ok h
  | subtype sub sup =>
    simp only [Categories.relations] at h
    split at h
    · cases h
      exact fewBasic_nil
    · exact fewBasic_of_same_eq_ok h
  | join lhs rhs result =>
    simp only [Categories.relations] at h
    split at h
    · exact fewBasic_of_require_eq_ok h
    · split at h
      · exact fewBasic_of_same_eq_ok h
      · split at h
        · exact fewBasic_of_same_eq_ok h
        · exact fewBasic_of_joinConcrete_eq_ok h
  | product lhs rhs result => exact fewBasic_of_arithmetic_eq_ok (.product _ lhs rhs result) h
  | quotient lhs rhs result => exact fewBasic_of_arithmetic_eq_ok (.quotient _ lhs rhs result) h

/-- A constraint asks for few relations. -/
theorem few_of_relations_eq_ok {c : Constraint Operand} (h : k.relations c = .ok relations) :
    Few relations := by
  obtain ⟨hlength, hbasic⟩ := fewBasic_of_relations_eq_ok h
  exact ⟨hlength, fun r hr => (hbasic r hr).light⟩

end Categories

namespace Equation

/-- The numbers of an equation are bounded by a number of terms. -/
def Within (n : ℕ) (e : Equation) : Prop :=
  (∀ i, (e.coefficient i).natAbs ≤ n) ∧ e.rhs.natAbs ≤ n * 2 ^ 31

theorem coefficient_of_mem_entries {e : Equation} {t : ℕ × ℤ} (ht : t ∈ e.terms.entries) :
    e.coefficient t.1 = t.2 := by
  rw [coefficient, SortedMap.get?_eq_some_iff.2 ht, Option.getD_some]

theorem within_trivial : trivial.Within 0 := ⟨fun _ => Nat.le_refl 0, Nat.zero_le _⟩

theorem Within.mono {n n' : ℕ} {e : Equation} (h : e.Within n) (hn : n ≤ n') : e.Within n' :=
  ⟨fun i => Nat.le_trans (h.1 i) hn, Nat.le_trans h.2 (Nat.mul_le_mul_right _ hn)⟩

theorem Within.addTerm {n : ℕ} {e : Equation} (h : e.Within n) (i : ℕ) {k : ℤ}
    (hk : k.natAbs = 1) : (e.addTerm i k).Within (n + 1) := by
  refine ⟨fun j => ?_, ?_⟩
  · have hj := h.1 j
    rw [coefficient_addTerm]
    split <;> omega
  · rw [rhs_addTerm]
    exact (h.mono (Nat.le_succ n)).2

theorem Within.addRhs {n : ℕ} {e : Equation} (h : e.Within n) {k : ℤ} (hk : k.natAbs ≤ 2 ^ 31) :
    (e.addRhs k).Within (n + 1) := by
  refine ⟨(h.mono (Nat.le_succ n)).1, ?_⟩
  have hrhs := h.2
  have hadd : (e.addRhs k).rhs = e.rhs + k := rfl
  rw [hadd]
  omega

theorem Within.short {n : ℕ} {e : Equation} (h : e.Within n) (hn : n ≤ 3) : e.Short := by
  refine ⟨fun t ht => ?_, ?_⟩
  · have hle := h.1 t.1
    rw [coefficient_of_mem_entries ht] at hle
    unfold Numeral.FitsBits
    omega
  · have hle := h.2
    unfold Numeral.FitsBits
    omega

end Equation

namespace Relation

variable {unknowns : List SlotId} {c : Component}

/-- What a constant moves to the right-hand side is as large as its exponent. -/
theorem natAbs_moved_le {k : ℤ} (hk : k.natAbs = 1) (unit : Monomial) :
    (-k * (c.valueOf unit).val).natAbs ≤ 2 ^ 31 := by
  rw [Int.natAbs_mul, Int.natAbs_neg, hk, Nat.one_mul]
  exact Exponent.natAbs_val_le _

theorem within_addTo {n : ℕ} {e : Equation} (h : e.Within n) {t : Operand × ℤ}
    (ht : t.2.natAbs = 1) : (addTo unknowns c e t).Within (n + 1) := by
  unfold addTo
  split
  · exact h.addRhs (natAbs_moved_le ht _)
  · exact h.mono (Nat.le_succ n)
  · split
    · exact h.addTerm _ ht
    · exact h.mono (Nat.le_succ n)

/-- Moving so many terms into an equation adds as much to the bound of its numbers. -/
theorem within_foldl_addTo {terms : List (Operand × ℤ)} (hterms : ∀ t ∈ terms, t.2.natAbs = 1)
    {n : ℕ} {e : Equation} (h : e.Within n) :
    (terms.foldl (addTo unknowns c) e).Within (n + terms.length) := by
  induction terms generalizing n e with
  | nil => exact h
  | cons t rest ih =>
    obtain ⟨ht, hrest⟩ := List.forall_mem_cons.1 hterms
    have hstep : (addTo unknowns c e t).Within (n + 1) := within_addTo h ht
    have hwithin := ih hrest hstep
    rw [Nat.add_right_comm] at hwithin
    exact hwithin

/-- The equation of a light relation is short. -/
theorem short_equation {r : Relation} (hr : r.Light) : (r.equation unknowns c).Short := by
  have hlength : 0 + r.terms.length ≤ 3 := by
    have hle := hr.1
    omega
  exact (within_foldl_addTo hr.2 Equation.within_trivial).short hlength

end Relation

/-! ## Systems with one solution -/

section Systems

variable {relations : List Relation} {c : Component}

/-- The text of a system of light relations is read. -/
theorem exists_read_relationSystem (hlight : ∀ r ∈ relations, r.Light)
    (hwidth : (unknownsOf relations).length < 2 ^ 64)
    (hsize : (relationSystem relations c).equations.size < 2 ^ 64) :
    ∃ found, ReadSystem.read (relationSystem relations c).text = .ok found ∧
      found.width = (unknownsOf relations).length := by
  refine exists_read_systemOfEquations hwidth hsize fun e he => ?_
  obtain ⟨r, hr, rfl⟩ := List.mem_map.1 (List.mem_filter.1 he).1
  exact ⟨Relation.below_equation r, Relation.short_equation (hlight r hr)⟩

theorem integralValues_eq_ok_of_decide {s : ComponentSystem} {found : ReadSystem}
    {values : List (ℕ × ℚ)} (hdecide : found.decide = .sat values)
    (hvalues : ∀ v ∈ values, v.1 < 2 ^ 64) :
    integralValues s found.decide.render = .ok values := by
  have hsolves := decideRows_eq_sat (length_rows found) hdecide
  refine integralValues_of_integral ?_ hsolves.integral
  rw [hdecide, Results.read_render_sat_eq_ok hvalues]

/-- A system with one solution, which is in the range of exponents, has an answer. -/
theorem exists_decodedBy_eq_ok (hlight : ∀ r ∈ relations, r.Light)
    (hwidth : (unknownsOf relations).length < 2 ^ 64)
    (hsize : (relationSystem relations c).equations.size < 2 ^ 64) {x : ℕ → ℤ}
    (hx : ∀ e ∈ openEquations relations c, e.Holds x)
    (hunique : ∀ y, (∀ e ∈ openEquations relations c, e.Holds y) →
      ∀ i < (unknownsOf relations).length, y i = x i)
    (hrange : ∀ i < (unknownsOf relations).length, InExponentRange (x i)) :
    ∃ values, decodedBy .builtin (unknownsOf relations) (relationSystem relations c) =
      .ok values := by
  obtain ⟨found, hread, hfound⟩ := exists_read_relationSystem hlight hwidth hsize
  have heliminate : Eliminator.builtin.eliminate (relationSystem relations c).text =
      .ok found.decide.render := by
    rw [eliminate_builtin, readSystem, hread]
    rfl
  cases hdecide : found.decide with
  | unsat =>
    exact absurd ((holdsAt_rows_iff_of_read hread x).2 hx)
      (not_holdsAt_of_decideRows_eq_unsat (length_rows found) hdecide x)
  | sat values =>
    have hsolves := decideRows_eq_sat (length_rows found) hdecide
    rw [hfound] at hsolves
    obtain ⟨y, hy, hholds⟩ := hsolves.holds
    have hyx := hunique y ((holdsAt_rows_iff_of_read hread y).1 hholds)
    have hstored : ∀ v ∈ values, v.1 < (unknownsOf relations).length ∧ v.2.den = 1 ∧
        InExponentRange v.2.num := by
      intro v hv
      have hlt := hsolves.below v hv
      have hvalue : v.2 = (x v.1 : ℚ) := by
        rw [← hyx v.1 hlt, ← hy v.1, valueAt_of_mem hsolves.distinct hv]
      refine ⟨hlt, hsolves.integral v hv, ?_⟩
      rw [hvalue, Rat.num_intCast]
      exact hrange v.1 hlt
    obtain ⟨stored, hstored⟩ := exists_foldlM_storeValue_eq_ok hstored SortedMap.empty
    refine ⟨stored, bind_eq_ok_iff.2 ⟨_, heliminate, bind_eq_ok_iff.2 ⟨values, ?_, hstored⟩⟩⟩
    exact integralValues_eq_ok_of_decide hdecide fun v hv =>
      Nat.lt_trans (hsolves.below v hv) hwidth

end Systems

/-! ## Determined models -/

section Determined

variable {m : Model} {relations : List Relation} {s : Assignment}

theorem Related.light (h : Related m relations) : ∀ r ∈ relations, r.Light := by
  intro r hr
  obtain ⟨c, -, found, hfound, hmem⟩ := h.mem_relations r hr
  exact (Categories.few_of_relations_eq_ok hfound).2 r hmem

/-- There are no more unknowns than slots. -/
theorem Related.length_unknownsOf_le (h : Related m relations) :
    (unknownsOf relations).length ≤ m.slots.size := by
  have hsub : unknownsOf relations ⊆ List.range m.slots.size := by
    intro id hid
    obtain ⟨r, hr, t, ht, rfl, -⟩ := exists_of_mem_unknownsOf hid
    obtain ⟨id', hlt, hoperand, -⟩ := h.operand_of_mem hr ht
    rw [hoperand]
    exact List.mem_range.2 hlt
  simpa using (List.subperm_of_subset (unknownsOf_nodup relations) hsub).length_le

/-- There are no more than two equations for a constraint. -/
theorem Related.size_relationSystem_le (h : Related m relations) (c : Component) :
    (relationSystem relations c).equations.size ≤ 2 * m.constraints.size := by
  let asked := fun c => ((categoriesOf m).relations c).toOption.getD []
  have hasked : ∀ c, (asked c).length ≤ 2 := by
    intro c
    cases hc : (categoriesOf m).relations c with
    | ok found =>
      simp only [asked, hc]
      exact (Categories.few_of_relations_eq_ok hc).1
    | error why => simp [asked, hc, Except.toOption]
  have hsub : (relationSystem relations c).equations.keys ⊆
      (m.operandConstraints.flatMap asked).map fun r =>
        (r.equation (unknownsOf relations) c).render := by
    intro k hk
    obtain ⟨e, he, rfl⟩ := mem_keys_systemOfEquations.1 hk
    obtain ⟨r, hr, rfl⟩ := List.mem_map.1 (List.mem_filter.1 he).1
    obtain ⟨c', hc', found, hfound, hmem⟩ := h.mem_relations r hr
    refine List.mem_map.2 ⟨r, List.mem_flatMap.2 ⟨c', hc', ?_⟩, rfl⟩
    simpa [asked, hfound, Except.toOption] using hmem
  have hle := (List.subperm_of_subset (SortedMap.keys_nodup _) hsub).length_le
  have hbound : ∀ l : List (Constraint Operand), (l.flatMap asked).length ≤ 2 * l.length := by
    intro l
    induction l with
    | nil => simp
    | cons c' rest ih =>
      have hc' := hasked c'
      rw [List.flatMap_cons, List.length_append, List.length_cons]
      omega
  rw [List.length_map, ← SortedMap.size_eq_length_keys] at hle
  refine Nat.le_trans hle (Nat.le_trans (hbound _) ?_)
  simp [Model.operandConstraints]

/-- Gathering answers that are all there. -/
theorem exists_gather_eq_ok {outcomes : List (Component × Except SolveError SystemValues)}
    (h : ∀ o ∈ outcomes, ∃ values, o.2 = .ok values) :
    ∃ values, gather outcomes = .ok ([], values) := by
  induction outcomes with
  | nil => exact ⟨[], rfl⟩
  | cons o rest ih =>
    obtain ⟨⟨values, hvalues⟩, hrest⟩ := List.forall_mem_cons.1 h
    obtain ⟨found, hfound⟩ := ih hrest
    obtain ⟨c, outcome⟩ := o
    obtain rfl : outcome = .ok values := hvalues
    exact ⟨(c, values) :: found, by rw [gather, hfound]; rfl⟩

theorem inExponentRange_pointOf (unknowns : List SlotId) (c : Component) (s : Assignment) (i : ℕ) :
    InExponentRange (pointOf unknowns c s i) := by
  have hvalue : ∀ q : Qualifier, InExponentRange (c.valueIn q) := by
    intro q
    cases q with
    | concrete unit => exact (c.valueOf unit).inRange
    | top | bottom | poly => exact (0 : Exponent).inRange
  unfold pointOf
  split
  · exact hvalue _
  · exact (0 : Exponent).inRange

/-- Units that satisfy a constraint and agree with the categories let it be encoded. -/
theorem exists_encodeConstraint_eq_ok {k : Categories} {unit : Operand → Qualifier}
    {c : Constraint Operand} (hunit : ∀ o ∈ c.slots, Respects k unit o)
    (hdiv : k.divisionError? c = none) (hdis : k.needsDisequality c = false)
    (hholds : (c.map unit).Holds) (hrange : (c.map unit).InRange) :
    ∃ found, k.encodeConstraint c = .ok (.ok found) := by
  cases hrelations : k.relations c with
  | error why => exact absurd hholds (Categories.relations_eq_error hunit hdiv hrange hrelations)
  | ok found =>
    refine ⟨found, ?_⟩
    rw [Categories.encodeConstraint, hdiv, hdis, hrelations]
    rfl

/-- A model whose relations determine the exponents of units that satisfy it is solved. -/
theorem exists_solve_eq_ok (hrelated : Related m relations)
    (hencoded : ∀ components, ConstantsAgree relations components →
      Encoding.ofModel m components = .ok (encodingOf (categoriesOf m) relations components))
    (hholds : ∀ r ∈ relations, r.Holds (Operand.plainUnitIn s))
    (hslots : m.slots.size < 2 ^ 64) (hconstraints : 2 * m.constraints.size < 2 ^ 64)
    (hunique : ∀ c ∈ m.components, ∀ y,
      (∀ r ∈ relations, (r.equation (unknownsOf relations) c).Holds y) →
        ∀ i < (unknownsOf relations).length, y i = pointOf (unknownsOf relations) c s i) :
    ∃ solved, solve .builtin m = .ok solved := by
  have hagree := constantsAgree_of_holds hholds m.components
  have hanswers : ∀ o ∈ (encodingOf (categoriesOf m) relations m.components).decoded .builtin,
      ∃ values, o.2 = .ok values := by
    intro o ho
    obtain ⟨system, hsystem, rfl⟩ := List.mem_map.1 ho
    obtain ⟨c, hc, rfl⟩ := List.mem_map.1 (List.mem_filter.1 hsystem).1
    refine exists_decodedBy_eq_ok hrelated.light
      (Nat.lt_of_le_of_lt hrelated.length_unknownsOf_le hslots)
      (Nat.lt_of_le_of_lt (hrelated.size_relationSystem_le c) hconstraints)
      (openEquations_hold hholds c) (fun y hy => hunique c hc y fun r hr => ?_)
      fun i _ => inExponentRange_pointOf _ c s i
    -- an equation without unknowns holds at every point
    by_cases hconstant : (r.equation (unknownsOf relations) c).isConstant = true
    · exact (Equation.holds_iff_of_isConstant hconstant y).2 (hagree c hc r hr hconstant)
    · exact hy _ (List.mem_filter.2 ⟨List.mem_map.2 ⟨r, hr, rfl⟩, by simpa using hconstant⟩)
  obtain ⟨values, hgather⟩ := exists_gather_eq_ok hanswers
  have hsolve : (encodingOf (categoriesOf m) relations m.components).solve .builtin m =
      .ok ⟨assembled m relations values,
        (encodingOf (categoriesOf m) relations m.components).statistics⟩ := by
    rw [Encoding.solve, Encoding.finish, zip_answers, hgather]
    rfl
  exact ⟨_, bind_eq_ok_iff.2 ⟨_, hencoded m.components hagree, hsolve⟩⟩

end Determined
end Linear
end Metrology
