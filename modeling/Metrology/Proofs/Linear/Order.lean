import Metrology.Proofs.Linear.Contention
import Metrology.Proofs.Linear.Soundness
import Mathlib.Data.List.Forall2

/-!
# When the order of constraints matters

The systems of a model are sorted, so once two orders of the constraints lead to the same
categories they lead to the same assignment.  The categories are the same for all orders exactly
if no order is solved with a contested constraint.
-/

namespace Metrology
namespace Linear

/-! ## Systems of the same equations -/

/-- Two systems with the same lines. -/
structure SameLines (s s' : ComponentSystem) : Prop where
  component : s.component = s'.component
  width : s.width = s'.width
  keys : s.equations.keys = s'.equations.keys

namespace SameLines

variable {s s' : ComponentSystem} (h : SameLines s s')

include h

theorem size : s.equations.size = s'.equations.size := by
  rw [SortedMap.size_eq_length_keys, SortedMap.size_eq_length_keys, h.keys]

theorem isEmpty : s.equations.isEmpty = s'.equations.isEmpty := by
  have hsize := h.size
  rw [SortedMap.size, SortedMap.size] at hsize
  rw [SortedMap.isEmpty, SortedMap.isEmpty, Bool.eq_iff_iff, List.isEmpty_iff_length_eq_zero,
    List.isEmpty_iff_length_eq_zero, hsize]

theorem text : s.text = s'.text := by
  rw [ComponentSystem.text, ComponentSystem.text, h.width, h.size, h.keys]

theorem decodedBy (eliminator : Eliminator) (unknowns : List SlotId) :
    decodedBy eliminator unknowns s = decodedBy eliminator unknowns s' := by
  rw [Linear.decodedBy, Linear.decodedBy, h.text]
  congr 1
  funext text
  rw [decodeSystem, decodeSystem, integralValues, integralValues, h.text, h.component]

end SameLines

/-- Encodings that differ at most in how their systems store the equations. -/
structure SameSystems (e e' : Encoding) : Prop where
  unknowns : e.unknowns = e'.unknowns
  categories : e.categories = e'.categories
  systems : List.Forall₂ SameLines e.systems e'.systems

namespace SameSystems

variable {e e' : Encoding} (h : SameSystems e e')

include h

theorem map_systems {α : Type} {f : ComponentSystem → α}
    (hf : ∀ s s', SameLines s s' → f s = f s') : e.systems.map f = e'.systems.map f := by
  rw [← List.forall₂_eq_eq_eq, List.forall₂_map_left_iff, List.forall₂_map_right_iff]
  exact h.systems.imp hf

theorem decoded (eliminator : Eliminator) : e.decoded eliminator = e'.decoded eliminator := by
  rw [Encoding.decoded, Encoding.decoded, h.unknowns]
  refine h.map_systems fun s s' hs => ?_
  rw [hs.component, hs.decodedBy]

theorem statistics : e.statistics = e'.statistics := by
  have hsizes := congrArg (List.foldr (· + ·) 0) (h.map_systems fun s s' hs => hs.size)
  rw [List.foldr_map, List.foldr_map] at hsizes
  rw [Encoding.statistics, Encoding.statistics, h.unknowns, hsizes, h.systems.length_eq]

theorem assemble {m m' : Model} (hm : m.unknowns = m'.unknowns)
    (values : List (Component × SystemValues)) : e.assemble m values = e'.assemble m' values := by
  rw [Encoding.assemble, Encoding.assemble, hm]
  congr 1
  refine List.map_congr_left fun v _ => ?_
  rw [Encoding.unitOf, Encoding.unitOf, h.unknowns, h.categories]

theorem solve {m m' : Model} (hm : m.unknowns = m'.unknowns) (eliminator : Eliminator) :
    e.solve eliminator m = e'.solve eliminator m' := by
  rw [Encoding.solve, Encoding.solve, Encoding.finish, Encoding.finish, zip_answers, zip_answers]
  rw [h.decoded, h.statistics]
  congr 1
  funext found
  simp only [h.assemble hm]

end SameSystems

/-- Relations with the same unknowns and the same equations over a component have the same
lines there. -/
theorem sameLines_of_openEquations
    {relations relations' : List Relation} (hunknowns : unknownsOf relations = unknownsOf relations')
    {c : Component} (h : ∀ e, e ∈ openEquations relations c ↔ e ∈ openEquations relations' c) :
    SameLines (relationSystem relations c) (relationSystem relations' c) where
  component := by
    rw [relationSystem, relationSystem, component_systemOfEquations, component_systemOfEquations]
  width := by
    rw [relationSystem, relationSystem, width_systemOfEquations, width_systemOfEquations,
      hunknowns]
  keys := by
    refine SortedMap.eq_of_sorted_of_mem_iff (r := (· < ·))
      (fun _ _ h h' => Std.lt_irrefl (Std.lt_trans h h')) (SortedMap.keys_sorted _)
      (SortedMap.keys_sorted _) fun line => ?_
    rw [relationSystem, relationSystem, mem_keys_systemOfEquations, mem_keys_systemOfEquations]
    simp only [h]

/-! ## Relations in another order -/

section Relations

variable {relations relations' : List Relation} (h : ∀ r, r ∈ relations ↔ r ∈ relations')

include h

theorem unknownsOf_congr : unknownsOf relations = unknownsOf relations' := by
  refine sortedDistinct_congr fun id => ?_
  simp only [List.mem_flatMap, h]

theorem constantsAgree_congr (components : List Component) :
    ConstantsAgree relations components ↔ ConstantsAgree relations' components := by
  simp only [ConstantsAgree, unknownsOf_congr h, h]

theorem sameLines_relationSystem (c : Component) :
    SameLines (relationSystem relations c) (relationSystem relations' c) := by
  refine sameLines_of_openEquations (unknownsOf_congr h) fun e => ?_
  simp only [openEquations, List.mem_filter, List.mem_map, unknownsOf_congr h, h]

/-- The order of relations does not matter to the systems. -/
theorem sameSystems_encodingOf (k : Categories) (components : List Component) :
    SameSystems (encodingOf k relations components) (encodingOf k relations' components) where
  unknowns := unknownsOf_congr h
  categories := rfl
  systems := by
    simp only [encodingOf]
    induction components with
    | nil => exact .nil
    | cons c rest ih =>
      have hsame := sameLines_relationSystem h c
      rw [List.map_cons, List.map_cons, List.filter_cons, List.filter_cons, hsame.isEmpty]
      split
      · exact .cons hsame ih
      · exact ih

end Relations

end Linear

/-! ## Constraints in another order -/

/-- Two models with the same slots and, up to their order, the same constraints. -/
structure Model.Reordered (m m' : Model) : Prop where
  slots : m'.slots = m.slots
  constraints : m'.constraints.toList.Perm m.constraints.toList

namespace Model.Reordered

variable {m m' m'' : Model}

theorem symm (h : m.Reordered m') : m'.Reordered m := ⟨h.slots.symm, h.constraints.symm⟩

theorem trans (h : m.Reordered m') (h' : m'.Reordered m'') : m.Reordered m'' :=
  ⟨h'.slots.trans h.slots, h'.constraints.trans h.constraints⟩

variable (h : m.Reordered m')

include h

theorem unknowns : m'.unknowns = m.unknowns := by
  rw [Model.unknowns, Model.unknowns, numbered, numbered, h.slots]

theorem components : m'.components = m.components := by
  rw [Model.components, Model.components, usedDimensions, usedDimensions, constants, constants,
    numbered, numbered, h.slots]

theorem operandConstraints : m'.operandConstraints.Perm m.operandConstraints := by
  have hoperandAt : m'.operandAt = m.operandAt := by
    funext id
    rw [operandAt, operandAt, h.slots]
  rw [Model.operandConstraints, Model.operandConstraints, hoperandAt]
  exact h.constraints.map _

theorem closed (hm : m.Closed) : m'.Closed := by
  intro c hc id hid
  rw [h.slots]
  exact hm c (h.constraints.mem_iff.1 hc) id hid

end Model.Reordered

namespace Linear

section Reordered

variable {m m' : Model} {relations relations' : List Relation} {components : List Component}

theorem Related.settles (h : Related m relations) {c : Constraint Operand}
    (hc : c ∈ m.operandConstraints) : (categoriesOf m).Settles c := by
  obtain ⟨found, hfound, -⟩ := h.exists_relations c hc
  exact Categories.settles_of_relations_eq_ok hfound

theorem Related.mem_iff (h : Related m relations) (r : Relation) :
    r ∈ relations ↔ ∃ c ∈ m.operandConstraints, ∃ found,
      (categoriesOf m).relations c = .ok found ∧ r ∈ found := by
  constructor
  · intro hr
    exact h.mem_relations r hr
  · rintro ⟨c, hc, found, hfound, hr⟩
    obtain ⟨found', hfound', hsub⟩ := h.exists_relations c hc
    rw [hfound] at hfound'
    cases hfound'
    exact hsub r hr

theorem Related.encodeConstraint (h : Related m relations) {c : Constraint Operand}
    (hc : c ∈ m.operandConstraints) :
    ∃ found, (categoriesOf m).encodeConstraint c = .ok (.ok found) := by
  obtain ⟨found, hfound, -⟩ := h.exists_relations c hc
  refine ⟨found, ?_⟩
  rw [Categories.encodeConstraint, h.divisions c hc, h.disequalities c hc, hfound]
  rfl

/-- A model can be encoded if its constraints have relations and the constants agree. -/
theorem exists_related (hclosed : m.Closed)
    (hencode : ∀ c ∈ m.operandConstraints, ∃ found,
      (categoriesOf m).encodeConstraint c = .ok (.ok found)) :
    ∃ relations, Related m relations ∧ ∀ components, ConstantsAgree relations components →
      Encoding.ofModel m components = .ok (encodingOf (categoriesOf m) relations components) := by
  have hmapM : ∃ outcomes,
      m.operandConstraints.mapM (categoriesOf m).encodeConstraint = .ok outcomes := by
    refine exists_mapM_eq_ok_iff.2 fun c hc => ?_
    obtain ⟨found, hfound⟩ := hencode c hc
    exact ⟨_, hfound⟩
  obtain ⟨outcomes, houtcomes⟩ := hmapM
  have hall : ∀ o ∈ outcomes, ∃ found, o = .ok found := by
    intro o ho
    obtain ⟨c, hc, hcode⟩ := (mem_of_mapM_eq_ok houtcomes).1 ho
    obtain ⟨found, hfound⟩ := hencode c hc
    exact ⟨found, Except.ok.inj (hcode.symm.trans hfound)⟩
  refine ⟨_, Encoding.related_of_outcomes hclosed houtcomes hall, fun components hagree => ?_⟩
  rw [Encoding.ofModel_eq_of_closed hclosed, bind_eq_ok_iff]
  refine ⟨outcomes, houtcomes, ?_⟩
  rw [Encoding.ofOutcomes, if_pos (Encoding.isEmpty_reasons_iff.2 hall)]
  exact Encoding.ofRelations_eq_ok_iff.2 ⟨hagree, rfl⟩

/-- A model whose constraints lead to the same categories in another order is solved to the
same. -/
theorem solve_eq_ok_of_reordered {eliminator : Eliminator} {solved : Solved}
    (h : m.Reordered m') (hk : categoriesOf m' = categoriesOf m)
    (hsolve : solve eliminator m = .ok solved) : solve eliminator m' = .ok solved := by
  obtain ⟨e, he, hsolve⟩ := bind_eq_ok_iff.1 hsolve
  obtain ⟨relations, hrelated, hagree, rfl⟩ := Encoding.ofModel_eq_ok he
  have hmem : ∀ c, c ∈ m'.operandConstraints ↔ c ∈ m.operandConstraints :=
    fun c => h.operandConstraints.mem_iff
  have hencode : ∀ c ∈ m'.operandConstraints, ∃ found,
      (categoriesOf m').encodeConstraint c = .ok (.ok found) := by
    intro c hc
    rw [hk]
    exact hrelated.encodeConstraint ((hmem c).1 hc)
  obtain ⟨relations', hrelated', hofModel⟩ := exists_related (h.closed hrelated.closed) hencode
  have hsame : ∀ r, r ∈ relations' ↔ r ∈ relations := by
    intro r
    rw [hrelated'.mem_iff, hrelated.mem_iff, hk]
    simp only [hmem]
  refine bind_eq_ok_iff.2 ⟨_, hofModel m'.components ?_, ?_⟩
  · rw [h.components]
    exact (constantsAgree_congr hsame _).2 hagree
  · rw [hk, h.components, (sameSystems_encodingOf hsame _ _).solve h.unknowns]
    exact hsolve

theorem id_lt_size (hclosed : m.Closed) :
    ∀ c ∈ m.operandConstraints, ∀ o ∈ c.slots, o.id < m.slots.size := by
  intro c hc o ho
  obtain ⟨id, hid, rfl⟩ := Model.exists_operandAt_of_mem_slots hclosed hc ho
  exact hid

/-- Unless a constraint is contested, all orders lead to the same categories. -/
theorem categoriesOf_eq_of_not_contested (h : m.Reordered m') (hrelated : Related m relations)
    (hc : ∀ c ∈ m.operandConstraints, ¬c.Contested (categoriesOf m).of) :
    categoriesOf m' = categoriesOf m := by
  rw [categoriesOf, categoriesOf, h.slots]
  exact Categories.ofConstraints_eq_of_not_contested (fun c => h.operandConstraints.mem_iff)
    (id_lt_size hrelated.closed) (fun c => hrelated.settles) hc

/-- If a constraint is contested, some order leads to other categories. -/
theorem exists_reordered_of_contested (hrelated : Related m relations) {c : Constraint Operand}
    (hc : c ∈ m.operandConstraints) (hcontested : c.Contested (categoriesOf m).of) :
    ∃ m', m.Reordered m' ∧ categoriesOf m' ≠ categoriesOf m := by
  obtain ⟨constraints, hperm, hne⟩ :=
    Categories.exists_perm_of_contested (fun c => hrelated.settles) hc hcontested
  have hcomp := congrFun₂ (List.eq_map_comp_perm (Constraint.map m.operandAt)) constraints
    m.constraints.toList
  obtain ⟨ids, rfl, hids⟩ := hcomp.mpr hperm
  exact ⟨⟨m.slots, ids.toArray⟩, ⟨rfl, hids⟩, hne⟩

end Reordered

end Linear

/-! ## Contested constraints of a solved model -/

/-- The category of a unit. -/
def Qualifier.category? : Qualifier → Option Category
  | top | poly => some .top
  | bottom => some .bottom
  | concrete _ => none

/-- Some constraint is contested under the units of an assignment. -/
def Model.Contested (m : Model) (s : Assignment) : Prop :=
  ∃ c ∈ m.operandConstraints, c.Contested fun o => (o.plainUnitIn s).category?

instance (m : Model) (s : Assignment) : Decidable (m.Contested s) :=
  inferInstanceAs (Decidable (∃ c ∈ _, _))

theorem Constraint.contested_congr {f g : Operand → Option Category} {c : Constraint Operand}
    (h : ∀ o ∈ c.slots, f o = g o) : c.Contested f ↔ c.Contested g := by
  cases c with
  | subtype sub sup | equal lhs rhs | join lhs rhs result => rfl
  | product lhs rhs result | quotient lhs rhs result =>
    rw [Contested, Contested, h lhs (by simp [slots]), h rhs (by simp [slots])]

namespace Linear

theorem Fits.category?_eq {category : Option Category} {unit : Qualifier}
    (h : Fits category unit) : unit.category? = category := by
  rcases category with _ | _ | _
  · obtain ⟨u, rfl⟩ := h
    rfl
  · cases h
    rfl
  · cases h
    rfl

section Solved

variable {m m' : Model} {eliminator : Eliminator} {solved solved' : Solved}

/-- A solved model has relations, and its assignment fits the categories. -/
theorem solve_eq_ok (h : solve eliminator m = .ok solved) :
    (∃ relations, Related m relations) ∧ ∀ id ∈ m.unknownIds,
      Fits ((categoriesOf m).get? id) ((solved.solution.get? id).getD .top) := by
  obtain ⟨e, he, hsolve⟩ := bind_eq_ok_iff.1 h
  obtain ⟨relations, hrelated, -, rfl⟩ := Encoding.ofModel_eq_ok he
  obtain ⟨values, -, rfl⟩ := Encoding.solve_eq_ok hsolve
  exact ⟨⟨relations, hrelated⟩, fits_assembled m relations values⟩

theorem mem_unknownIds_of_mem_keys (hclosed : m.Closed) {id : SlotId}
    (h : id ∈ (categoriesOf m).keys) : id ∈ m.unknownIds := by
  obtain ⟨c, hc, o, ho, rfl, location, hslot⟩ := Categories.exists_operand_of_mem_keys h
  obtain ⟨id, -, rfl⟩ := Model.exists_operandAt_of_mem_slots hclosed hc ho
  exact Model.mem_unknownIds_iff.2 ⟨location, Model.operandAt_slot_eq_unknown_iff.1 hslot⟩

/-- The categories can be read off the assignment. -/
theorem get?_categoriesOf (h : solve eliminator m = .ok solved) (id : SlotId) :
    (categoriesOf m).get? id =
      if id ∈ m.unknownIds then ((solved.solution.get? id).getD .top).category? else none := by
  obtain ⟨⟨relations, hrelated⟩, hfits⟩ := solve_eq_ok h
  split
  case isTrue hid => exact (hfits id hid).category?_eq.symm
  case isFalse hid =>
    exact SortedMap.get?_eq_none_iff.2 (mt (mem_unknownIds_of_mem_keys hrelated.closed) hid)

theorem contested_iff (h : solve eliminator m = .ok solved) :
    m.Contested solved.solution ↔
      ∃ c ∈ m.operandConstraints, c.Contested (categoriesOf m).of := by
  obtain ⟨⟨relations, hrelated⟩, hfits⟩ := solve_eq_ok h
  refine exists_congr fun c => and_congr_right fun hc => Constraint.contested_congr fun o ho => ?_
  obtain ⟨id, -, rfl⟩ := Model.exists_operandAt_of_mem_slots hrelated.closed hc ho
  exact (respects_operandAt hfits id).fits.category?_eq

theorem categoriesOf_eq_of_solution_eq (h : m.Reordered m')
    (hsolve : solve eliminator m = .ok solved) (hsolve' : solve eliminator m' = .ok solved')
    (hsolution : solved.solution = solved'.solution) : categoriesOf m' = categoriesOf m := by
  apply SortedMap.ext_get?
  intro id
  rw [get?_categoriesOf hsolve, get?_categoriesOf hsolve', hsolution, Model.unknownIds,
    Model.unknownIds, h.unknowns]

/-- A model without contested constraints is solved to the same in every order. -/
theorem solve_eq_ok_of_not_contested (h : m.Reordered m')
    (hsolve : solve eliminator m = .ok solved) (hc : ¬m.Contested solved.solution) :
    solve eliminator m' = .ok solved := by
  obtain ⟨⟨relations, hrelated⟩, -⟩ := solve_eq_ok hsolve
  rw [contested_iff hsolve] at hc
  push Not at hc
  exact solve_eq_ok_of_reordered h (categoriesOf_eq_of_not_contested h hrelated hc) hsolve

/-- A model with a contested constraint is solved to something else in some order, or not at
all. -/
theorem exists_reordered_of_solution_contested (hsolve : solve eliminator m = .ok solved)
    (hc : m.Contested solved.solution) :
    ∃ m', m.Reordered m' ∧ ∀ solved', solve eliminator m' = .ok solved' →
      solved.solution ≠ solved'.solution := by
  obtain ⟨⟨relations, hrelated⟩, -⟩ := solve_eq_ok hsolve
  obtain ⟨c, hmem, hc⟩ := (contested_iff hsolve).1 hc
  obtain ⟨m', h, hne⟩ := exists_reordered_of_contested hrelated hmem hc
  exact ⟨m', h, fun solved' hsolve' hsolution =>
    hne (categoriesOf_eq_of_solution_eq h hsolve hsolve' hsolution)⟩

end Solved

/-! ## Order independence -/

/-- Two models are both solved or both not solved, and to the same assignment. -/
def SolvedAlike (m m' : Model) : Prop :=
  ((∃ solved, solve .builtin m = .ok solved) ↔ ∃ solved, solve .builtin m' = .ok solved) ∧
    ∀ solved solved', solve .builtin m = .ok solved → solve .builtin m' = .ok solved' →
      solved.solution = solved'.solution

/-- The order of the constraints of a model does not matter exactly if no order is solved with a
contested constraint. -/
theorem solvedAlike_reordered_iff (m : Model) :
    (∀ m', m.Reordered m' → SolvedAlike m m') ↔
      ∀ m', m.Reordered m' → ∀ solved, solve .builtin m' = .ok solved →
        ¬m'.Contested solved.solution := by
  constructor
  · intro halike m' h solved hsolve hcontested
    obtain ⟨m'', h', hne⟩ := exists_reordered_of_solution_contested hsolve hcontested
    -- `m` is solved like `m'`, and so is `m''`
    obtain ⟨first, hfirst⟩ := (halike m' h).1.2 ⟨solved, hsolve⟩
    obtain ⟨other, hother⟩ := (halike m'' (h.trans h')).1.1 ⟨first, hfirst⟩
    apply hne other hother
    rw [← (halike m' h).2 first solved hfirst hsolve]
    exact (halike m'' (h.trans h')).2 first other hfirst hother
  · intro hnone m' h
    have hself : m.Reordered m := ⟨rfl, .refl _⟩
    refine ⟨⟨?_, ?_⟩, ?_⟩
    · rintro ⟨solved, hsolve⟩
      exact ⟨solved, solve_eq_ok_of_not_contested h hsolve (hnone m hself solved hsolve)⟩
    · rintro ⟨solved, hsolve⟩
      exact ⟨solved, solve_eq_ok_of_not_contested h.symm hsolve (hnone m' h solved hsolve)⟩
    · intro solved solved' hsolve hsolve'
      have hsame := solve_eq_ok_of_not_contested h hsolve (hnone m hself solved hsolve)
      rw [hsolve'] at hsame
      cases hsame
      rfl

/-- A product of the bottom and an unknown that is equal to the top. -/
def contestedModel : Model where
  slots := #[.constant .bottom, .constant .top, .unknown "x", .unknown "r"]
  constraints := #[.product 0 2 3, .equal 2 1]

/-- The unknown gets to the top before the product is visited. -/
def settledModel : Model :=
  { contestedModel with constraints := #[.equal 2 1, .product 0 2 3] }

/-- What is found if the product comes last. -/
def settledSolved : Solved where
  solution := SortedMap.ofList [(2, .top), (3, .top)]
  statistics :=
    { backend := .linear, unknowns := 0, equations := 0, soft := 0, groups := 0 }

theorem not_solvedAlike_contestedModel :
    contestedModel.Reordered settledModel ∧
      solve .builtin contestedModel = .error (.unsatisfiable
        [.conflict (.product 0 2 3) (.resultMustBe .top (some .bottom))]) ∧
      solve .builtin settledModel = .ok settledSolved ∧
      settledModel.Contested settledSolved.solution ∧
      ¬SolvedAlike contestedModel settledModel := by
  have hfails : solve .builtin contestedModel = .error (.unsatisfiable
      [.conflict (.product 0 2 3) (.resultMustBe .top (some .bottom))]) := by
    decide +kernel
  have hsolves : solve .builtin settledModel = .ok settledSolved := by decide +kernel
  refine ⟨⟨rfl, .swap _ _ _⟩, hfails, hsolves, by decide +kernel, fun halike => ?_⟩
  obtain ⟨solved, hsolved⟩ := halike.1.2 ⟨settledSolved, hsolves⟩
  rw [hfails] at hsolved
  cases hsolved

end Linear
end Metrology
