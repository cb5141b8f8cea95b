import Metrology.Proofs.Linear.Order

/-!
# Components do not interact

Take two models with the same constraints whose constants are of the same kinds and agree in one
component.  Exchanging the constants changes neither the categories nor, in that component, the
lines of the system, so both models are solved to units that agree in the component.
-/

namespace Metrology

/-! ## Agreement in a component -/

/-- Two qualifiers of one kind with the same component where they are concrete. -/
def Qualifier.AgreeIn (c : Component) : Qualifier → Qualifier → Prop
  | .concrete a, .concrete b => c.valueOf a = c.valueOf b
  | a, b => a = b

/-- Two unknowns, or two constants that agree. -/
def Slot.AgreeIn (c : Component) : Slot → Slot → Prop
  | .constant a, .constant b => a.AgreeIn c b
  | .unknown _, .unknown _ => True
  | _, _ => False

/-- Two operands with one number whose slots agree. -/
structure Operand.AgreeIn (c : Component) (o o' : Operand) : Prop where
  id : o'.id = o.id
  slot : o.slot.AgreeIn c o'.slot

/-- Two models with the same constraints whose slots agree one by one. -/
structure Model.AgreeIn (c : Component) (m m' : Model) : Prop where
  slots : List.Forall₂ (Slot.AgreeIn c) m.slots.toList m'.slots.toList
  constraints : m'.constraints = m.constraints

variable {c : Component}

theorem Qualifier.AgreeIn.refl (q : Qualifier) : q.AgreeIn c q := by
  cases q <;> rfl

theorem Slot.AgreeIn.refl (s : Slot) : s.AgreeIn c s := by
  cases s with
  | constant q => exact Qualifier.AgreeIn.refl q
  | unknown location => trivial

theorem Operand.AgreeIn.refl (o : Operand) : o.AgreeIn c o := ⟨rfl, .refl _⟩

/-- What two slots that agree look like. -/
theorem Slot.AgreeIn.cases {s s' : Slot} (h : s.AgreeIn c s') :
    (∃ unit unit', s = .constant (.concrete unit) ∧ s' = .constant (.concrete unit') ∧
      c.valueOf unit = c.valueOf unit') ∨
    (∃ q, s = .constant q ∧ s' = .constant q ∧ ∀ unit, q ≠ .concrete unit) ∨
    ∃ location location', s = .unknown location ∧ s' = .unknown location' := by
  cases s with
  | unknown location =>
    cases s' with
    | constant q => cases h
    | unknown location' => exact .inr (.inr ⟨location, location', rfl, rfl⟩)
  | constant q =>
    cases s' with
    | unknown location => cases h
    | constant q' =>
      cases q with
      | concrete unit =>
        cases q' with
        | concrete unit' => exact .inl ⟨unit, unit', rfl, rfl, h⟩
        | top | bottom | poly => cases h
      | top | bottom | poly =>
        cases h
        exact .inr (.inl ⟨_, rfl, rfl, by simp⟩)

namespace Model.AgreeIn

variable {m m' : Model} (h : m.AgreeIn c m')

include h

theorem size : m'.slots.size = m.slots.size := by
  simpa using h.slots.length_eq.symm

theorem symm : m'.AgreeIn c m where
  slots := by
    refine h.slots.flip.imp fun s s' hs => ?_
    obtain ⟨unit, unit', rfl, rfl, heq⟩ | ⟨q, rfl, rfl, -⟩ | ⟨l, l', rfl, rfl⟩ :=
      Slot.AgreeIn.cases hs
    · exact heq.symm
    · exact Slot.AgreeIn.refl _
    · trivial
  constraints := h.constraints.symm

theorem operandAt (id : SlotId) : (m.operandAt id).AgreeIn c (m'.operandAt id) := by
  refine ⟨rfl, ?_⟩
  rw [Model.operandAt, Model.operandAt]
  by_cases hid : id < m.slots.size
  · have hid' : id < m'.slots.size := h.size ▸ hid
    rw [Array.getElem?_eq_getElem hid, Array.getElem?_eq_getElem hid']
    exact (List.forall₂_iff_get.1 h.slots).2 id hid hid'
  · have hid' : ¬id < m'.slots.size := h.size ▸ hid
    rw [Array.getElem?_eq_none (Nat.not_lt.1 hid), Array.getElem?_eq_none (Nat.not_lt.1 hid')]
    exact .refl _

theorem mem_unknownIds {id : SlotId} (hid : id ∈ m.unknownIds) : id ∈ m'.unknownIds := by
  obtain ⟨location, hslot⟩ := mem_unknownIds_iff.1 hid
  have hagree := (h.operandAt id).slot
  rw [operandAt_slot_eq_unknown_iff.2 hslot] at hagree
  obtain ⟨_, _, heq, -⟩ | ⟨_, heq, -⟩ | ⟨_, location', -, heq⟩ := hagree.cases
  · cases heq
  · cases heq
  · exact mem_unknownIds_iff.2 ⟨location', operandAt_slot_eq_unknown_iff.1 heq⟩

/-- The component occurs in both models or in neither. -/
theorem mem_components (hc : c ∈ m.components) : c ∈ m'.components := by
  cases c with
  | power => exact List.mem_cons_self
  | dimension d =>
    by_contra hnot
    have hd : d ∈ m.usedDimensions := by simpa [Model.components] using hc
    obtain ⟨⟨id, q⟩, hmem, hdim⟩ := List.mem_flatMap.1 (mem_sortedDistinct.1 hd)
    have hget := mem_constants_iff.1 hmem
    have hid : id < m.slots.size := (Array.getElem?_eq_some_iff.1 hget).1
    have hslot : (m.operandAt id).slot = .constant q := by rw [Model.operandAt, hget]; rfl
    have hagree := (h.operandAt id).slot
    rw [hslot] at hagree
    obtain ⟨unit, unit', heq, heq', hvalue⟩ | ⟨_, heq, -, hq⟩ | ⟨_, _, heq, -⟩ := hagree.cases
    · cases heq
      have hzero := Model.valueIn_constant_eq_zero hnot
        (getElem?_of_operandAt_slot_eq_constant (h.size ▸ hid) heq')
      rw [Component.valueIn, ← hvalue] at hzero
      exact Monomial.mem_dimensions_iff.1 hdim (Exponent.ext hzero)
    · cases heq
      cases q with
      | concrete unit => exact hq unit rfl
      | top | bottom | poly => cases hdim
    · cases heq

end Model.AgreeIn

/-- The operand of `m'` in the place of an operand of `m`. -/
def Model.exchange (m m' : Model) (o : Operand) : Operand :=
  if o = m.operandAt o.id then m'.operandAt o.id else o

theorem Model.AgreeIn.exchange {m m' : Model} (h : m.AgreeIn c m') (o : Operand) :
    o.AgreeIn c (m.exchange m' o) := by
  rw [Model.exchange]
  split
  case isTrue heq =>
    have hagree := h.operandAt o.id
    rwa [← heq] at hagree
  case isFalse => exact .refl o

theorem Model.AgreeIn.operandConstraints_exchange {m m' : Model} (h : m.AgreeIn c m') :
    m'.operandConstraints = m.operandConstraints.map (Constraint.map (m.exchange m')) := by
  have hexchange : m.exchange m' ∘ m.operandAt = m'.operandAt := by
    funext id
    exact if_pos rfl
  rw [operandConstraints, operandConstraints, List.map_map, h.constraints]
  refine List.map_congr_left fun d _ => ?_
  rw [Function.comp_apply, Constraint.map_map, hexchange]

namespace Linear

/-! ## Categories after an exchange -/

/-- The relation with its operands exchanged. -/
def Relation.exchange (f : Operand → Operand) (r : Relation) : Relation :=
  ⟨r.origin, r.terms.map (Prod.map f id)⟩

section Exchange

variable {f : Operand → Operand} (hf : ∀ o : Operand, o.AgreeIn c (f o))

include hf

namespace Categories

variable {k : Categories} {d : Constraint Operand}

theorem of_exchange (o : Operand) : k.of (f o) = k.of o := by
  obtain ⟨hid, hslot⟩ := hf o
  rw [of, of, hid]
  obtain ⟨_, _, heq, heq', -⟩ | ⟨q, heq, heq', -⟩ | ⟨_, _, heq, heq'⟩ := hslot.cases
  · rw [heq, heq']
  · rw [heq, heq']
  · rw [heq, heq']

theorem isTop_exchange (o : Operand) : k.isTop (f o) = k.isTop o := by
  rw [isTop, isTop, of_exchange hf]

theorem isBottom_exchange (o : Operand) : k.isBottom (f o) = k.isBottom o := by
  rw [isBottom, isBottom, of_exchange hf]

theorem record_exchange (e : Operand × Category) : k.record (Prod.map f id e) = k.record e := by
  obtain ⟨o, category⟩ := e
  obtain ⟨hid, hslot⟩ := hf o
  rw [record, record, Prod.map_apply, hid]
  obtain ⟨_, _, heq, heq', -⟩ | ⟨q, heq, heq', -⟩ | ⟨_, _, heq, heq'⟩ := hslot.cases
  · rw [heq, heq']
  · rw [heq, heq']
  · rw [heq, heq']
    rfl

theorem shared_exchange (a b : Operand) :
    k.shared (f a) (f b) = (k.shared a b).map (Prod.map f id) := by
  rw [shared, shared, of_exchange hf, of_exchange hf, List.map_append]
  cases k.of a <;> cases k.of b <;> rfl

theorem forced_exchange : k.forced (d.map f) = (k.forced d).map (Prod.map f id) := by
  cases d with
  | equal lhs rhs => exact shared_exchange hf lhs rhs
  | subtype sub sup =>
    simp only [Constraint.map, forced, isTop_exchange hf, isBottom_exchange hf, List.map_append]
    congr 1 <;> split <;> rfl
  | join lhs rhs result =>
    simp only [Constraint.map, forced, isTop_exchange hf, isBottom_exchange hf]
    split
    · rfl
    · split
      · exact shared_exchange hf result rhs
      · split
        · exact shared_exchange hf result lhs
        · rfl
  | product lhs rhs result | quotient lhs rhs result =>
    simp only [Constraint.map, forced, isTop_exchange hf, isBottom_exchange hf]
    split
    · rfl
    · split <;> rfl

theorem visit_exchange : k.visit (d.map f) = k.visit d := by
  rw [visit, visit, forced_exchange hf, List.foldl_map]
  simp only [record_exchange hf]

theorem pass_exchange (l : List (Constraint Operand)) :
    pass (l.map (Constraint.map f)) k = pass l k := by
  rw [pass, pass, List.foldl_map]
  simp only [visit_exchange hf]

theorem iterate_exchange (l : List (Constraint Operand)) (rounds : ℕ) :
    iterate (l.map (Constraint.map f)) rounds k = iterate l rounds k := by
  induction rounds generalizing k with
  | zero => rfl
  | succ rounds ih => simp only [iterate, pass_exchange hf, ih]

/-! ## Relations after an exchange -/

theorem same_exchange (origin : Constraint SlotId) (a b : Operand) :
    k.same origin (f a) (f b) = (k.same origin a b).map (List.map (Relation.exchange f)) := by
  rw [same, same, of_exchange hf, of_exchange hf]
  rcases k.of a with _ | x <;> rcases k.of b with _ | y
  · rfl
  · rfl
  · rfl
  · dsimp only
    split <;> rfl

theorem require_exchange (result : Operand) (category : Category) :
    k.require (f result) category =
      (k.require result category).map (List.map (Relation.exchange f)) := by
  rw [require, require, of_exchange hf]
  split <;> rfl

theorem arithmetic_exchange (origin : Constraint SlotId) (lhs rhs result : Operand) (sign : Int) :
    k.arithmetic origin (f lhs) (f rhs) (f result) sign =
      (k.arithmetic origin lhs rhs result sign).map (List.map (Relation.exchange f)) := by
  simp only [arithmetic, isTop_exchange hf, isBottom_exchange hf, of_exchange hf]
  split
  · exact require_exchange hf result .top
  · split
    · exact require_exchange hf result .bottom
    · cases k.of result <;> rfl

omit hf in
/-- A join at the top that is encoded asks for no relations. -/
theorem eq_nil_of_joinConcrete_eq_ok {origin : Constraint SlotId} {lhs rhs result : Operand}
    {found : List Relation} (hresult : k.of result = some .top)
    (h : k.joinConcrete origin lhs rhs result = .ok found) : found = [] := by
  rw [joinConcrete, hresult] at h
  dsimp only at h
  split at h
  · split at h
    · cases h
    · exact (Except.ok.inj h).symm
  · exact (Except.ok.inj h).symm

/-- Whether two constants that are joined to the top differ depends on all components, so here
both encodings have to succeed. -/
theorem joinConcrete_exchange {origin : Constraint SlotId} {lhs rhs result : Operand}
    {found found' : List Relation} (h : k.joinConcrete origin lhs rhs result = .ok found)
    (h' : k.joinConcrete origin (f lhs) (f rhs) (f result) = .ok found') :
    found' = found.map (Relation.exchange f) := by
  have hof := of_exchange (k := k) hf result
  rcases hresult : k.of result with _ | _ | _ <;> rw [hresult] at hof
  · rw [joinConcrete, hresult] at h
    rw [joinConcrete, hof] at h'
    cases h
    cases h'
    rfl
  · rw [eq_nil_of_joinConcrete_eq_ok hresult h, eq_nil_of_joinConcrete_eq_ok hof h']
    rfl
  · rw [joinConcrete, hresult] at h
    cases h

omit hf in
theorem eq_map_of_eq_ok {x y : Except Conflict (List Relation)} {found found' : List Relation}
    (hxy : y = x.map (List.map (Relation.exchange f))) (h : x = .ok found) (h' : y = .ok found') :
    found' = found.map (Relation.exchange f) := by
  rw [h, h'] at hxy
  exact Except.ok.inj hxy

/-- Where a constraint has relations before and after an exchange, these are the same up to the
exchange. -/
theorem relations_exchange {found found' : List Relation} (h : k.relations d = .ok found)
    (h' : k.relations (d.map f) = .ok found') : found' = found.map (Relation.exchange f) := by
  have hid : ∀ o : Operand, (f o).id = o.id := fun o => (hf o).id
  cases d with
  | equal lhs rhs =>
    simp only [Constraint.map, relations, hid] at h h'
    exact eq_map_of_eq_ok (same_exchange hf _ lhs rhs) h h'
  | subtype sub sup =>
    simp only [Constraint.map, relations, hid, isTop_exchange hf, isBottom_exchange hf] at h h'
    by_cases hplain : (k.isTop sup || k.isBottom sub) = true
    · rw [if_pos hplain] at h h'
      cases h
      cases h'
      rfl
    · rw [if_neg hplain] at h h'
      exact eq_map_of_eq_ok (same_exchange hf _ sub sup) h h'
  | join lhs rhs result =>
    simp only [Constraint.map, relations, hid, isTop_exchange hf, isBottom_exchange hf] at h h'
    by_cases htop : (k.isTop lhs || k.isTop rhs) = true
    · rw [if_pos htop] at h h'
      exact eq_map_of_eq_ok (require_exchange hf result .top) h h'
    · rw [if_neg htop] at h h'
      by_cases hlhs : k.isBottom lhs = true
      · rw [if_pos hlhs] at h h'
        exact eq_map_of_eq_ok (same_exchange hf _ result rhs) h h'
      · rw [if_neg hlhs] at h h'
        by_cases hrhs : k.isBottom rhs = true
        · rw [if_pos hrhs] at h h'
          exact eq_map_of_eq_ok (same_exchange hf _ result lhs) h h'
        · rw [if_neg hrhs] at h h'
          exact joinConcrete_exchange hf h h'
  | product lhs rhs result | quotient lhs rhs result =>
    simp only [Constraint.map, relations, hid] at h h'
    exact eq_map_of_eq_ok (arithmetic_exchange hf _ lhs rhs result _) h h'

end Categories

namespace Relation

theorem unknowns_exchange (r : Relation) : (r.exchange f).unknowns = r.unknowns := by
  rw [unknowns, unknowns, exchange, List.filterMap_map]
  refine List.filterMap_congr fun t _ => ?_
  obtain ⟨hid, hslot⟩ := hf t.1
  rw [Function.comp_apply, Prod.map_fst, hid]
  obtain ⟨_, _, heq, heq', -⟩ | ⟨_, heq, heq', -⟩ | ⟨_, _, heq, heq'⟩ := hslot.cases
  · rw [heq, heq']
  · rw [heq, heq']
  · rw [heq, heq']

theorem addTo_exchange (unknowns : List SlotId) (e : Equation) (t : Operand × Int) :
    addTo unknowns c e (Prod.map f id t) = addTo unknowns c e t := by
  obtain ⟨hid, hslot⟩ := hf t.1
  rw [addTo, addTo, Prod.map_fst, Prod.map_snd, hid, id]
  obtain ⟨_, _, heq, heq', hvalue⟩ | ⟨_, heq, heq', -⟩ | ⟨_, _, heq, heq'⟩ := hslot.cases
  · rw [heq, heq']
    dsimp only
    rw [hvalue]
  · rw [heq, heq']
  · rw [heq, heq']

/-- The exchange is not seen in the equation over the component. -/
theorem equation_exchange (unknowns : List SlotId) (r : Relation) :
    (r.exchange f).equation unknowns c = r.equation unknowns c := by
  rw [equation, equation, exchange, List.foldl_map]
  simp only [addTo_exchange hf]

end Relation

end Exchange

/-! ## Systems of models that agree -/

section Agree

variable {m m' : Model} (h : m.AgreeIn c m') {relations relations' : List Relation}
  (hrelated : Related m relations) (hrelated' : Related m' relations')

include h

theorem categoriesOf_eq_of_agreeIn : categoriesOf m' = categoriesOf m := by
  rw [categoriesOf, categoriesOf, Categories.ofConstraints, Categories.ofConstraints, h.size,
    h.operandConstraints_exchange, Categories.iterate_exchange h.exchange]

include hrelated hrelated'

/-- The relations of the two models are the same up to the exchange. -/
theorem mem_relations_iff_of_agreeIn {r' : Relation} :
    r' ∈ relations' ↔ ∃ r ∈ relations, r.exchange (m.exchange m') = r' := by
  have hmem : ∀ d, d ∈ m'.operandConstraints ↔
      ∃ d' ∈ m.operandConstraints, d'.map (m.exchange m') = d := by
    intro d
    rw [h.operandConstraints_exchange, List.mem_map]
  have hk := categoriesOf_eq_of_agreeIn h
  rw [hrelated'.mem_iff, hk]
  constructor
  · rintro ⟨_, hd', found', hfound', hr'⟩
    obtain ⟨d, hd, rfl⟩ := (hmem _).1 hd'
    obtain ⟨found, hfound, hsub⟩ := hrelated.exists_relations d hd
    rw [Categories.relations_exchange h.exchange hfound hfound'] at hr'
    obtain ⟨r, hr, rfl⟩ := List.mem_map.1 hr'
    exact ⟨r, hsub r hr, rfl⟩
  · rintro ⟨r, hr, rfl⟩
    obtain ⟨d, hd, found, hfound, hr⟩ := hrelated.mem_relations r hr
    have hd' := (hmem _).2 ⟨d, hd, rfl⟩
    obtain ⟨found', hfound', -⟩ := hrelated'.exists_relations _ hd'
    rw [hk] at hfound'
    refine ⟨_, hd', found', hfound', ?_⟩
    rw [Categories.relations_exchange h.exchange hfound hfound']
    exact List.mem_map_of_mem hr

theorem unknownsOf_eq_of_agreeIn : unknownsOf relations = unknownsOf relations' := by
  refine sortedDistinct_congr fun id => ?_
  simp only [List.mem_flatMap, mem_relations_iff_of_agreeIn h hrelated hrelated']
  constructor
  · rintro ⟨r, hr, hid⟩
    exact ⟨_, ⟨r, hr, rfl⟩, by rwa [Relation.unknowns_exchange h.exchange]⟩
  · rintro ⟨_, ⟨r, hr, rfl⟩, hid⟩
    exact ⟨r, hr, by rwa [Relation.unknowns_exchange h.exchange] at hid⟩

/-- In the component in which two models agree they have the same lines. -/
theorem sameLines_of_agreeIn :
    SameLines (relationSystem relations c) (relationSystem relations' c) := by
  have hunknowns := unknownsOf_eq_of_agreeIn h hrelated hrelated'
  refine sameLines_of_openEquations hunknowns fun e => ?_
  simp only [openEquations, List.mem_filter, List.mem_map, ← hunknowns,
    mem_relations_iff_of_agreeIn h hrelated hrelated']
  refine and_congr_left fun _ => ⟨?_, ?_⟩
  · rintro ⟨r, hr, rfl⟩
    exact ⟨_, ⟨r, hr, rfl⟩, Relation.equation_exchange h.exchange _ r⟩
  · rintro ⟨_, ⟨r, hr, rfl⟩, rfl⟩
    exact ⟨r, hr, (Relation.equation_exchange h.exchange _ r).symm⟩

/-- The integers found for an unknown agree in the component. -/
theorem valueOf_eq_of_agreeIn {values values' : List (Component × SystemValues)}
    (hdecoded : (encodingOf (categoriesOf m) relations m.components).decoded .builtin =
      values.map fun v => (v.1, .ok v.2))
    (hdecoded' : (encodingOf (categoriesOf m') relations' m'.components).decoded .builtin =
      values'.map fun v => (v.1, .ok v.2)) (i : ℕ) :
    c.valueOf (values.foldl (assignStored i) .one) =
      c.valueOf (values'.foldl (assignStored i) .one) := by
  have hsame := sameLines_of_agreeIn h hrelated hrelated'
  have hanswered : c ∈ values.map Prod.fst ↔ c ∈ values'.map Prod.fst := by
    rw [mem_components_of_decoded_iff hdecoded, mem_components_of_decoded_iff hdecoded',
      hsame.isEmpty]
    exact and_congr_left fun _ => ⟨h.mem_components, h.symm.mem_components⟩
  by_cases hc : c ∈ values.map Prod.fst
  · obtain ⟨v, hv, hvc⟩ := List.mem_map.1 hc
    obtain ⟨v', hv', hvc'⟩ := List.mem_map.1 (hanswered.1 hc)
    -- one answer to one system
    have hanswer : v.2 = v'.2 := by
      have hfirst := decodedBy_of_mem_values hdecoded hv
      have hsecond := decodedBy_of_mem_values hdecoded' hv'
      rw [hvc, hsame.decodedBy, unknownsOf_eq_of_agreeIn h hrelated hrelated'] at hfirst
      rw [hvc', hfirst] at hsecond
      exact Except.ok.inj hsecond
    have hnodup := (components_of_decoded hdecoded).nodup m.components_nodup
    have hnodup' := (components_of_decoded hdecoded').nodup m'.components_nodup
    have hvalue := valueOf_foldl_assignStored_of_mem (i := i) hnodup hv
      fun c => .inl (Component.valueOf_one c)
    have hvalue' := valueOf_foldl_assignStored_of_mem (i := i) hnodup' hv'
      fun c => .inl (Component.valueOf_one c)
    rw [hvc] at hvalue
    rw [hvc'] at hvalue'
    apply Exponent.ext
    rw [hvalue, hvalue', hanswer]
  · rw [valueOf_foldl_assignStored_of_not_mem hc,
      valueOf_foldl_assignStored_of_not_mem (mt hanswered.2 hc)]

end Agree

/-- Two models that agree in a component are solved to units that agree there. -/
theorem solution_agreeIn (c : Component) (m m' : Model) (solved solved' : Solved)
    (h : m.AgreeIn c m') (hsolve : solve .builtin m = .ok solved)
    (hsolve' : solve .builtin m' = .ok solved') :
    ∀ id ∈ m.unknownIds, ∃ unit unit', solved.solution.get? id = some unit ∧
      solved'.solution.get? id = some unit' ∧ unit.AgreeIn c unit' := by
  obtain ⟨relations, values, hrelated, -, hdecoded, heq⟩ := exists_assembled_of_solve_eq_ok hsolve
  obtain ⟨relations', values', hrelated', -, hdecoded', heq'⟩ :=
    exists_assembled_of_solve_eq_ok hsolve'
  intro id hid
  obtain ⟨location, hslot⟩ := Model.mem_unknownIds_iff.1 hid
  obtain ⟨location', hslot'⟩ := Model.mem_unknownIds_iff.1 (h.mem_unknownIds hid)
  refine ⟨_, _, heq ▸ get?_assembled relations values hslot,
    heq' ▸ get?_assembled relations' values' hslot', ?_⟩
  have hunknowns := unknownsOf_eq_of_agreeIn h hrelated hrelated'
  have hk := categoriesOf_eq_of_agreeIn h
  cases hcategory : (categoriesOf m).get? id with
  | some category =>
    rw [Encoding.unitOf_of_category hcategory, Encoding.unitOf_of_category (hk ▸ hcategory)]
    exact .refl _
  | none =>
    have hcategory' : (categoriesOf m').get? id = none := hk ▸ hcategory
    cases hindex : (unknownsOf relations).idxOf? id with
    | none =>
      have hindex' : (unknownsOf relations').idxOf? id = none := hunknowns ▸ hindex
      rw [Encoding.unitOf_of_idxOf?_eq_none hcategory hindex,
        Encoding.unitOf_of_idxOf?_eq_none hcategory' hindex']
      exact .refl _
    | some i =>
      have hindex' : (unknownsOf relations').idxOf? id = some i := hunknowns ▸ hindex
      rw [Encoding.unitOf_of_idxOf? hcategory hindex,
        Encoding.unitOf_of_idxOf? hcategory' hindex']
      exact valueOf_eq_of_agreeIn h hrelated hrelated' hdecoded hdecoded' i

/-- An unknown that is a length times a given unit, and one at the top. -/
def scaledModel (unit : Monomial) : Model where
  slots := #[.constant (.concrete (.base "m")), .constant (.concrete unit), .unknown "x",
    .constant .top, .unknown "y"]
  constraints := #[.product 0 1 2, .equal 4 3]

/-- What a model of this kind is solved to. -/
def scaledSolved (unit : Monomial) (groups : ℕ) : Solved where
  solution := SortedMap.ofList [(2, .concrete unit), (4, .top)]
  statistics := { backend := .linear, unknowns := 1, equations := groups, soft := 0, groups }

theorem solution_agreeIn_scaled :
    solve .builtin (scaledModel (.base "s")) =
        .ok (scaledSolved ((Monomial.base "m").set "s" 1) 3) ∧
      solve .builtin (scaledModel (.ofPower 1)) =
        .ok (scaledSolved ((Monomial.base "m").setPower 1) 2) ∧
      ∀ id ∈ (scaledModel (.base "s")).unknownIds, ∃ unit unit',
        (scaledSolved ((Monomial.base "m").set "s" 1) 3).solution.get? id = some unit ∧
        (scaledSolved ((Monomial.base "m").setPower 1) 2).solution.get? id = some unit' ∧
        unit.AgreeIn (.dimension "m") unit' := by
  have hfirst : solve .builtin (scaledModel (.base "s")) =
      .ok (scaledSolved ((Monomial.base "m").set "s" 1) 3) := by
    decide +kernel
  have hsecond : solve .builtin (scaledModel (.ofPower 1)) =
      .ok (scaledSolved ((Monomial.base "m").setPower 1) 2) := by
    decide +kernel
  have hagree : (scaledModel (.base "s")).AgreeIn (.dimension "m") (scaledModel (.ofPower 1)) := by
    refine ⟨?_, rfl⟩
    refine .cons rfl (.cons ?_ (.cons trivial (.cons rfl (.cons trivial .nil))))
    change Component.valueOf (.dimension "m") (.base "s") = _
    decide
  exact ⟨hfirst, hsecond, solution_agreeIn _ _ _ _ _ hagree hfirst hsecond⟩

end Linear
end Metrology
