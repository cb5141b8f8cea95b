import Metrology.Proofs.Document
import Metrology.Proofs.History
import Metrology.Proofs.Lattice
import Mathlib.Data.List.Forall2

/-!
# Loading documents

What a document declares is said without its builder: the unit that is written, the slot that is
declared and the constraint that is stated.  A document is built exactly if all of its declarations
say something and its names are different.  The model then has them in their order, under the
numbers that creating the slots one after another returns, and no step of creating it is refused.
Slots may as well be found by an index of names that is kept slot by slot.
-/

namespace Metrology

/-- A traversal relates every element to its result. -/
theorem mapM_eq_ok_iff_forall₂ {ε α β : Type} {f : α → Except ε β} {l : List α} {r : List β} :
    l.mapM f = .ok r ↔ List.Forall₂ (fun a b => f a = .ok b) l r := by
  rw [mapM_eq_ok_iff, ← List.forall₂_eq_eq_eq, List.forall₂_map_left_iff,
    List.forall₂_map_right_iff]

/-! ## Slots -/

namespace Vocabulary

variable {v : Vocabulary}

/-- A declaration stands for a slot exactly if it has no location beside a constant and its
constant has a meaning. -/
theorem exists_declares_iff {d : SlotDecl} :
    (∃ s, v.Declares d s) ↔
      (d.location = none ∨ d.constant = none) ∧
        ∀ w, d.constant = some w → ∃ q, v.Means w q := by
  constructor
  · rintro ⟨s, h⟩
    cases h with
    | @constant w q hconstant hlocation hmeans =>
      refine ⟨.inl hlocation, fun w' hw' => ⟨q, ?_⟩⟩
      rw [hconstant] at hw'
      exact Option.some.inj hw' ▸ hmeans
    | unknown hconstant =>
      refine ⟨.inr hconstant, fun w hw => ?_⟩
      rw [hconstant] at hw
      cases hw
  · rintro ⟨hexclusive, hmeans⟩
    cases hconstant : d.constant with
    | none => exact ⟨_, .unknown hconstant⟩
    | some w =>
      obtain ⟨q, hq⟩ := hmeans w hconstant
      refine ⟨_, .constant hconstant (hexclusive.resolve_right fun hnone => ?_) hq⟩
      rw [hconstant] at hnone
      cases hnone

end Vocabulary

/-! ## Constraints -/

namespace Constraint

variable {ε α β : Type} {f : α → Except ε β} {g : α → Option β}

/-- Replacing the slots of a constraint succeeds with the replaced slots. -/
theorem mapExcept_eq_ok_iff (h : ∀ a b, f a = .ok b ↔ g a = some b) {k : Constraint α}
    {c : Constraint β} : k.mapExcept f = .ok c ↔ k.map g = c.map some := by
  cases k <;> cases c <;>
    simp [mapExcept, map, bind_eq_ok_iff, h, pure, Except.pure]

theorem exists_map_eq_iff {k : Constraint α} :
    (∃ c : Constraint β, k.map g = c.map some) ↔ ∀ a ∈ k.slots, ∃ b, g a = some b := by
  constructor
  · rintro ⟨c, hc⟩ a ha
    have hmem : g a ∈ (c.map some).slots := by
      rw [← hc, slots_map]
      exact List.mem_map_of_mem ha
    rw [slots_map] at hmem
    obtain ⟨b, -, hb⟩ := List.mem_map.1 hmem
    exact ⟨b, hb.symm⟩
  · intro h
    cases k with
    | subtype a b =>
      obtain ⟨⟨a', ha⟩, b', hb⟩ := and_of_forall_mem_pair h
      exact ⟨.subtype a' b', by rw [map, map, ha, hb]⟩
    | equal a b =>
      obtain ⟨⟨a', ha⟩, b', hb⟩ := and_of_forall_mem_pair h
      exact ⟨.equal a' b', by rw [map, map, ha, hb]⟩
    | join a b r =>
      obtain ⟨⟨a', ha⟩, ⟨b', hb⟩, r', hr⟩ := and_of_forall_mem_triple h
      exact ⟨.join a' b' r', by rw [map, map, ha, hb, hr]⟩
    | product a b r =>
      obtain ⟨⟨a', ha⟩, ⟨b', hb⟩, r', hr⟩ := and_of_forall_mem_triple h
      exact ⟨.product a' b' r', by rw [map, map, ha, hb, hr]⟩
    | quotient a b r =>
      obtain ⟨⟨a', ha⟩, ⟨b', hb⟩, r', hr⟩ := and_of_forall_mem_triple h
      exact ⟨.quotient a' b' r', by rw [map, map, ha, hb, hr]⟩

end Constraint

theorem slotNumber_eq_ok_iff {number? : String → Option SlotId} (name : String) (id : SlotId) :
    slotNumber number? name = .ok id ↔ number? name = some id := by
  rw [slotNumber]
  cases number? name with
  | none => simp
  | some id' => simp

namespace ConstraintDecl

variable {d : ConstraintDecl} {names : List String}

/-- The constraint between names that a declaration states, if it has a result exactly where its
relation takes one. -/
def stated? (d : ConstraintDecl) : Option (Constraint String) :=
  match d.kind, d.result with
  | .subtype, none => some (.subtype d.lhs d.rhs)
  | .equal, none => some (.equal d.lhs d.rhs)
  | .join, some r => some (.join d.lhs d.rhs r)
  | .product, some r => some (.product d.lhs d.rhs r)
  | .quotient, some r => some (.quotient d.lhs d.rhs r)
  | _, _ => none

/-- The names of slots in a declaration. -/
def slotNames (d : ConstraintDecl) : List String := d.lhs :: d.rhs :: d.result.toList

/-- The constraint between numbers that a declaration states where slots have names. -/
def States (number? : String → Option SlotId) (d : ConstraintDecl) (c : Constraint SlotId) : Prop :=
  ∃ k, d.stated? = some k ∧ k.map number? = c.map some

theorem resolve_eq_ok_iff {number? : String → Option SlotId} {index : Nat}
    {c : Constraint SlotId} : d.resolve number? index = .ok c ↔ d.States number? c := by
  have hresolve : d.resolve number? index = .ok c ↔
      ∃ k, d.stated? = some k ∧ k.mapExcept (slotNumber number?) = .ok c := by
    -- The place of the declaration occurs in errors only.
    obtain ⟨kind, lhs, rhs, result⟩ := d
    cases kind <;> cases result <;>
      simp [resolve, stated?, Constraint.mapExcept, bind_eq_ok_iff, throw, throwThe,
        MonadExceptOf.throw]
  rw [hresolve]
  simp only [Constraint.mapExcept_eq_ok_iff slotNumber_eq_ok_iff, States]

theorem exists_stated?_iff :
    (∃ k, d.stated? = some k) ↔
      (d.result.isSome ↔ d.kind ∈ [.join, .product, .quotient]) := by
  obtain ⟨kind, lhs, rhs, result⟩ := d
  cases kind <;> cases result <;> simp [stated?]

theorem slots_of_stated? {k : Constraint String} (h : d.stated? = some k) :
    k.slots = d.slotNames := by
  obtain ⟨kind, lhs, rhs, result⟩ := d
  cases kind <;> cases result <;> cases h <;> rfl

/-- A declaration states a constraint exactly if all its names are declared and it has a result
where one is needed. -/
theorem exists_states_iff :
    (∃ c, d.States names.idxOf? c) ↔
      (∀ name ∈ d.slotNames, name ∈ names) ∧
        (d.result.isSome ↔ d.kind ∈ [.join, .product, .quotient]) := by
  have hfound : ∀ name, (∃ id, names.idxOf? name = some id) ↔ name ∈ names := fun name => by
    rw [← Option.isSome_iff_exists, List.isSome_idxOf?]
  rw [← exists_stated?_iff]
  constructor
  · rintro ⟨c, k, hk, hc⟩
    refine ⟨fun name hname => (hfound name).1 ?_, k, hk⟩
    exact Constraint.exists_map_eq_iff.1 ⟨c, hc⟩ name (slots_of_stated? hk ▸ hname)
  · rintro ⟨hnames, k, hk⟩
    obtain ⟨c, hc⟩ := Constraint.exists_map_eq_iff.2 fun name hname =>
      (hfound name).2 (hnames name (slots_of_stated? hk ▸ hname))
    exact ⟨c, k, hk, hc⟩

theorem States.lt_length {c : Constraint SlotId} (h : d.States names.idxOf? c) :
    ∀ id ∈ c.slots, id < names.length := by
  obtain ⟨k, -, hc⟩ := h
  intro id hid
  have hmem : some id ∈ (k.map names.idxOf?).slots := by
    rw [hc, Constraint.slots_map]
    exact List.mem_map_of_mem hid
  rw [Constraint.slots_map] at hmem
  obtain ⟨name, -, hname⟩ := List.mem_map.1 hmem
  exact (List.idxOf?_eq_some_iff.1 hname).1

end ConstraintDecl

/-! ## Replaying a model -/

/-- The operation that creates a slot. -/
def Slot.creation : Slot → Operation
  | constant unit => .constant unit
  | unknown location => .unknown location

namespace Model

/-- Performs operations up to the first that is refused, and collects what they return. -/
def run (m : Model) : List Operation → Except ForeignSlot (List (Option SlotId) × Model)
  | [] => .ok ([], m)
  | o :: rest => do
    let answer ← (m.perform o).1
    let later ← (m.perform o).2.run rest
    return (answer :: later.1, later.2)

/-- The operations that create a model: its slots, then its constraints. -/
def operations (m : Model) : List Operation :=
  m.slots.toList.map Slot.creation ++ m.constraints.toList.map .constrain

theorem run_cons {m m₁ m₂ : Model} {o : Operation} {rest : List Operation}
    {answer : Option SlotId} {answers : List (Option SlotId)}
    (ho : m.perform o = (.ok answer, m₁)) (hrest : m₁.run rest = .ok (answers, m₂)) :
    m.run (o :: rest) = .ok (answer :: answers, m₂) := by
  rw [run, ho]
  exact bind_eq_ok_iff.2 ⟨_, rfl, bind_eq_ok_iff.2 ⟨_, hrest, rfl⟩⟩

theorem run_append {m m₁ m₂ : Model} {first later : List Operation}
    {answers answers' : List (Option SlotId)} (hfirst : m.run first = .ok (answers, m₁))
    (hlater : m₁.run later = .ok (answers', m₂)) :
    m.run (first ++ later) = .ok (answers ++ answers', m₂) := by
  induction first generalizing m answers with
  | nil =>
    cases hfirst
    exact hlater
  | cons o rest ih =>
    obtain ⟨answer, ho, h⟩ := bind_eq_ok_iff.1 hfirst
    obtain ⟨⟨more, m'⟩, hmore, h⟩ := bind_eq_ok_iff.1 h
    cases h
    exact run_cons (Prod.ext ho rfl) (ih hmore)

theorem perform_creation (m : Model) (s : Slot) :
    m.perform s.creation = (.ok (some m.slots.size), ⟨m.slots.push s, m.constraints⟩) := by
  cases s <;> rfl

theorem perform_constrain {m : Model} {c : Constraint SlotId}
    (h : ∀ id ∈ c.slots, id < m.slots.size) :
    m.perform (.constrain c) = (.ok none, ⟨m.slots, m.constraints.push c⟩) :=
  build_map_of_eq (build_constrain h) _

/-- Creating slots returns the numbers that follow those of the slots before. -/
theorem run_creations (before slots : List Slot) (constraints : Array (Constraint SlotId)) :
    run ⟨before.toArray, constraints⟩ (slots.map Slot.creation) =
      .ok ((List.range' before.length slots.length).map some,
        ⟨(before ++ slots).toArray, constraints⟩) := by
  induction slots generalizing before with
  | nil => simp [run]
  | cons s rest ih =>
    have hs := perform_creation ⟨before.toArray, constraints⟩ s
    have hrest := ih (before ++ [s])
    rw [List.push_toArray, List.size_toArray] at hs
    rw [List.length_append, List.length_singleton, List.append_assoc, List.singleton_append]
      at hrest
    exact run_cons hs hrest

theorem run_constraints {slots : Array Slot} (before : List (Constraint SlotId))
    {constraints : List (Constraint SlotId)}
    (h : ∀ c ∈ constraints, ∀ id ∈ c.slots, id < slots.size) :
    run ⟨slots, before.toArray⟩ (constraints.map .constrain) =
      .ok (constraints.map fun _ => none, ⟨slots, (before ++ constraints).toArray⟩) := by
  induction constraints generalizing before with
  | nil => simp [run]
  | cons c rest ih =>
    obtain ⟨hc, hrest⟩ := List.forall_mem_cons.1 h
    have hperform := perform_constrain (m := ⟨slots, before.toArray⟩) hc
    have hrun := ih (before ++ [c]) hrest
    rw [List.push_toArray] at hperform
    rw [List.append_assoc, List.singleton_append] at hrun
    exact run_cons hperform hrun

/-- A closed model is created without a refusal, and its slots are numbered by their places. -/
theorem run_operations {m : Model} (h : m.Closed) :
    empty.run m.operations =
      .ok ((List.range m.slots.size).map some ++ m.constraints.toList.map fun _ => none, m) := by
  have hslots := run_creations [] m.slots.toList #[]
  have hconstraints := run_constraints [] h
  rw [List.length_nil, ← List.range_eq_range', Array.length_toList] at hslots
  exact run_append hslots hconstraints

end Model

/-! ## Documents -/

namespace NamedModel

variable {named : NamedModel} {dims : Dimensions}

/-- Names and numbers of slots lead to each other. -/
theorem slotNamed?_eq_some_iff (h : named.WellNamed dims) {name : String} {id : SlotId} :
    named.slotNamed? name = some id ↔
      id < named.model.slots.size ∧ named.nameOf id = name := by
  constructor
  · intro hid
    obtain ⟨hlt, hname, -⟩ := List.idxOf?_eq_some_iff.1 hid
    exact ⟨h.length_names ▸ hlt, (nameOf_eq_getElem hlt).trans hname⟩
  · rintro ⟨hlt, rfl⟩
    exact slotNamed?_nameOf h hlt

end NamedModel

namespace Document

variable {doc : Document} {v : Vocabulary} {named : NamedModel}

/-- A document whose names are different and all of whose declarations say something. -/
structure WellFormed (doc : Document) (v : Vocabulary) : Prop where
  nodup : (doc.slots.map SlotDecl.name).Nodup
  exclusive : ∀ d ∈ doc.slots, d.location = none ∨ d.constant = none
  meaningful : ∀ d ∈ doc.slots, ∀ w, d.constant = some w → ∃ q, v.Means w q
  named : ∀ d ∈ doc.constraints, ∀ name ∈ d.slotNames, name ∈ doc.slots.map SlotDecl.name
  result : ∀ d ∈ doc.constraints, d.result.isSome ↔ d.kind ∈ [.join, .product, .quotient]

/-- The model has the declarations of the document in their order. -/
structure Loaded (doc : Document) (v : Vocabulary) (named : NamedModel) : Prop where
  slots : List.Forall₂ v.Declares doc.slots named.model.slots.toList
  constraints : List.Forall₂ (ConstraintDecl.States named.slotNamed?) doc.constraints
    named.model.constraints.toList
  nameOf : ∀ (id : SlotId) (d : SlotDecl), doc.slots[id]? = some d → named.nameOf id = d.name
  slotNamed? : ∀ (name : String) (id : SlotId), named.slotNamed? name = some id ↔
    id < named.model.slots.size ∧ named.nameOf id = name
  declared : ∀ name, (∃ id, named.slotNamed? name = some id) ↔ name ∈ doc.slots.map SlotDecl.name
  /-- Creating the model is never refused, and slots get their places as numbers. -/
  created : Model.empty.run named.model.operations =
    .ok ((List.range named.model.slots.size).map some ++
      named.model.constraints.toList.map fun _ => none, named.model)
  readable : named.model.Readable

theorem mapM_resolve_eq_ok_iff {names : List String} {decls : List ConstraintDecl}
    {constraints : List (Constraint SlotId)} :
    (decls.zipIdx.mapM fun d => d.1.resolve names.idxOf? d.2) = .ok constraints ↔
      List.Forall₂ (ConstraintDecl.States names.idxOf?) decls constraints := by
  rw [mapM_eq_ok_iff_forall₂]
  simp only [ConstraintDecl.resolve_eq_ok_iff]
  rw [← List.forall₂_map_left_iff (f := Prod.fst), List.zipIdx_map_fst]

theorem exists_mapM_resolve_eq_ok_iff {names : List String} {decls : List ConstraintDecl} :
    (∃ constraints, (decls.zipIdx.mapM fun d => d.1.resolve names.idxOf? d.2) =
        .ok constraints) ↔
      ∀ d ∈ decls, ∃ c, d.States names.idxOf? c := by
  rw [exists_mapM_eq_ok_iff]
  simp only [ConstraintDecl.resolve_eq_ok_iff]
  conv_rhs => rw [← List.zipIdx_map_fst 0 decls, List.forall_mem_map]

theorem exists_build_eq_ok_iff : (∃ named, doc.build v = .ok named) ↔ doc.WellFormed v := by
  have hbuild : (∃ named, doc.build v = .ok named) ↔
      (∃ slots, v.slotsOf [] doc.slots = .ok slots) ∧
        ∃ constraints, (doc.constraints.zipIdx.mapM fun d =>
          d.1.resolve (doc.slots.map SlotDecl.name).idxOf? d.2) = .ok constraints := by
    constructor
    · rintro ⟨named, h⟩
      obtain ⟨slots, hslots, h⟩ := bind_eq_ok_iff.1 h
      obtain ⟨constraints, hconstraints, -⟩ := bind_eq_ok_iff.1 h
      exact ⟨⟨slots, hslots⟩, constraints, hconstraints⟩
    · rintro ⟨⟨slots, hslots⟩, constraints, hconstraints⟩
      exact ⟨_, bind_eq_ok_iff.2 ⟨slots, hslots, bind_eq_ok_iff.2 ⟨constraints, hconstraints, rfl⟩⟩⟩
  have hslots : (∃ slots, v.slotsOf [] doc.slots = .ok slots) ↔
      (doc.slots.map SlotDecl.name).Nodup ∧ ∀ d ∈ doc.slots, ∃ s, v.Declares d s := by
    simp [Vocabulary.slotsOf_eq_ok_iff, exists_mapM_eq_ok_iff, Vocabulary.slotOf_eq_ok_iff]
  rw [hbuild, hslots, exists_mapM_resolve_eq_ok_iff]
  simp only [Vocabulary.exists_declares_iff, ConstraintDecl.exists_states_iff]
  constructor
  · rintro ⟨⟨hnodup, hdecls⟩, hconstraints⟩
    exact ⟨hnodup, fun d hd => (hdecls d hd).1, fun d hd => (hdecls d hd).2,
      fun d hd => (hconstraints d hd).1, fun d hd => (hconstraints d hd).2⟩
  · intro h
    exact ⟨⟨h.nodup, fun d hd => ⟨h.exclusive d hd, h.meaningful d hd⟩⟩,
      fun d hd => ⟨h.named d hd, h.result d hd⟩⟩

theorem loaded_of_build (h : doc.build v = .ok named) : doc.Loaded v named := by
  have hwell := wellNamed_of_build h
  obtain ⟨slots, hslots, h⟩ := bind_eq_ok_iff.1 h
  obtain ⟨constraints, hconstraints, h⟩ := bind_eq_ok_iff.1 h
  cases h
  obtain ⟨-, -, hdecls⟩ := Vocabulary.slotsOf_eq_ok_iff.1 hslots
  have hdeclares : List.Forall₂ v.Declares doc.slots slots := by
    simpa only [mapM_eq_ok_iff_forall₂, Vocabulary.slotOf_eq_ok_iff] using hdecls
  have hclosed : Model.Closed ⟨slots.toArray, constraints.toArray⟩ := by
    intro c hc id hid
    obtain ⟨d, -, hd⟩ := (mem_of_mapM_eq_ok hconstraints).1 hc
    have hlt := (ConstraintDecl.resolve_eq_ok_iff.1 hd).lt_length id hid
    exact Nat.lt_of_lt_of_eq hlt hwell.length_names
  exact {
    slots := hdeclares
    constraints := mapM_resolve_eq_ok_iff.1 hconstraints
    nameOf := fun id d hd => by simp [NamedModel.nameOf, List.getD_eq_getElem?_getD, hd]
    slotNamed? := fun name id => NamedModel.slotNamed?_eq_some_iff hwell
    declared := fun name => by
      rw [← Option.isSome_iff_exists, NamedModel.slotNamed?, List.isSome_idxOf?]
    created := Model.run_operations hclosed
    readable := hclosed.readable }

/-- A document is built exactly if it is well-formed.  The model then has slot for slot and
constraint for constraint what the document declares, names and numbers of slots lead to each
other, and neither creating nor reading the model meets a foreign slot. -/
theorem build_faithful (doc : Document) (v : Vocabulary) :
    ((∃ named, doc.build v = .ok named) ↔ doc.WellFormed v) ∧
      ∀ named, doc.build v = .ok named → doc.Loaded v named :=
  ⟨exists_build_eq_ok_iff, fun _ => loaded_of_build⟩

/-- A distance, an unresolved count, and two unknowns of which only one has a location. -/
def tripDocument : Document where
  slots := [⟨"distance", none, some (.named "km")⟩, ⟨"count", none, some (.named "raw")⟩,
    ⟨"step", some "trip:4", none⟩, ⟨"longest", none, none⟩]
  constraints := [⟨.quotient, "distance", "count", some "step"⟩, ⟨.subtype, "step", "longest", none⟩]

/-- The names of a session that measures lengths. -/
def tripVocabulary : Vocabulary := ⟨Lattice.metres, .standard Lattice.metres⟩

/-- The model of the document. -/
def tripModel : Model :=
  ⟨#[.constant (.concrete ((Monomial.base "m").setPower ((Exponent.ofInt? 3).getD 0))),
    .constant .dimensionless, .unknown "trip:4", .unknown "longest"],
    #[.quotient 0 1 2, .subtype 2 3]⟩

theorem build_faithful_trip :
    ∃ named, tripDocument.build tripVocabulary = .ok named ∧ named.model = tripModel ∧
      tripDocument.WellFormed tripVocabulary ∧ tripDocument.Loaded tripVocabulary named := by
  have hmodel : (tripDocument.build tripVocabulary).toOption.map NamedModel.model =
      some tripModel := by
    decide +kernel
  obtain ⟨named, hnamed, hmodel⟩ := Option.map_eq_some_iff.1 hmodel
  have hbuild := toOption_eq_some_iff.1 hnamed
  obtain ⟨hbuilt, hloaded⟩ := build_faithful tripDocument tripVocabulary
  exact ⟨named, hbuild, hmodel, hbuilt.1 ⟨named, hbuild⟩, hloaded named hbuild⟩

end Document

/-! ## An index of names -/

theorem idxOf?_concat {names : List String} {new : String} (h : new ∉ names) (name : String) :
    (names ++ [new]).idxOf? name = if name = new then some names.length else names.idxOf? name := by
  simp only [List.idxOf?, List.findIdx?_append, List.findIdx?_singleton]
  by_cases heq : name = new
  · have hnone : names.findIdx? (· == new) = none := List.idxOf?_eq_none_iff.2 h
    rw [heq, hnone]
    simp
  · simp [heq, Ne.symm heq]

/-- A model with the names of its slots and an index of these names. -/
structure NamedModel.Indexed extends NamedModel where
  byName : SortedMap String SlotId

namespace NamedModel.Indexed

/-- No slots. -/
def empty : Indexed := ⟨⟨.empty, []⟩, .empty⟩

/-- The slot with a name, as the index has it. -/
def find? (s : Indexed) (name : String) : Option SlotId := s.byName.get? name

/-- Adds a slot and puts its name into the index. -/
def push (s : Indexed) (name : String) (slot : Slot) : Indexed where
  model := { s.model with slots := s.model.slots.push slot }
  names := s.names ++ [name]
  byName := s.byName.insert name s.model.slots.size

/-- Adds the slot of a declaration, unless the index has its name. -/
def declare (v : Vocabulary) (s : Indexed) (d : SlotDecl) : Except DocumentError Indexed :=
  if s.byName.contains d.name then .error (.repeatedSlot d.name)
  else (v.slotOf d).map (s.push d.name)

/-- Adds the constraint of a declaration, given with its place in the document. -/
def constrain (s : Indexed) (d : ConstraintDecl × Nat) : Except DocumentError Indexed :=
  (d.1.resolve s.find? d.2).map fun c =>
    { s with model := ⟨s.model.slots, s.model.constraints.push c⟩ }

/-- Adds what a document declares, one declaration after another. -/
def load (doc : Document) (v : Vocabulary) : Except DocumentError Indexed := do
  let s ← doc.slots.foldlM (declare v) empty
  doc.constraints.zipIdx.foldlM constrain s

/-- The index has the numbers of the names. -/
structure Consistent (s : Indexed) : Prop where
  length_names : s.names.length = s.model.slots.size
  find?_eq : ∀ name, s.find? name = s.names.idxOf? name

variable {s : Indexed} {v : Vocabulary}

theorem Consistent.contains_iff (h : s.Consistent) {name : String} :
    s.byName.contains name ↔ name ∈ s.names := by
  rw [← List.isSome_idxOf?, ← h.find?_eq]
  rfl

theorem Consistent.push (h : s.Consistent) {name : String} (hnew : name ∉ s.names)
    (slot : Slot) : (s.push name slot).Consistent where
  length_names := by simp [Indexed.push, h.length_names]
  find?_eq n := by
    rw [Indexed.push, find?, SortedMap.get?_insert, idxOf?_concat hnew, ← h.find?_eq, h.length_names]
    rfl

/-- Slots are declared alike with the index and with the names alone, and the index stays right. -/
theorem Consistent.foldlM_declare (h : s.Consistent) (decls : List SlotDecl) :
    (decls.foldlM (declare v) s).map toNamedModel =
        (v.slotsOf s.names decls).map (fun slots =>
          ⟨⟨(s.model.slots.toList ++ slots).toArray, s.model.constraints⟩,
            s.names ++ decls.map SlotDecl.name⟩) ∧
      ∀ s', decls.foldlM (declare v) s = .ok s' → s'.Consistent := by
  induction decls generalizing s with
  | nil =>
    refine ⟨?_, fun s' hs' => Except.ok.inj hs' ▸ h⟩
    simp [Vocabulary.slotsOf, pure, Except.pure, Except.map]
  | cons d rest ih =>
    rw [List.foldlM_cons, declare, Vocabulary.slotsOf]
    by_cases hmem : d.name ∈ s.names
    · rw [if_pos (h.contains_iff.2 hmem), if_pos hmem]
      exact ⟨rfl, fun s' hs' => by cases hs'⟩
    · rw [if_neg (mt h.contains_iff.1 hmem), if_neg hmem]
      cases v.slotOf d with
      | error e => exact ⟨rfl, fun s' hs' => by cases hs'⟩
      | ok slot =>
        obtain ⟨hrest, hconsistent⟩ := ih (h.push hmem slot)
        refine ⟨Eq.trans hrest ?_, hconsistent⟩
        change (v.slotsOf (s.names ++ [d.name]) rest).map _ = _
        cases v.slotsOf (s.names ++ [d.name]) rest with
        | error e => rfl
        | ok slots => simp [Indexed.push, Except.map, bind, Except.bind, pure, Except.pure]

/-- Constraints are added alike with the index and with the names alone. -/
theorem Consistent.foldlM_constrain (h : s.Consistent) (decls : List (ConstraintDecl × Nat)) :
    (decls.foldlM constrain s).map toNamedModel =
        (decls.mapM fun d : ConstraintDecl × Nat => d.1.resolve s.names.idxOf? d.2).map
          (fun constraints =>
            ⟨⟨s.model.slots, (s.model.constraints.toList ++ constraints).toArray⟩, s.names⟩) ∧
      ∀ s', decls.foldlM constrain s = .ok s' → s'.Consistent := by
  have hfind : s.find? = s.names.idxOf? := funext h.find?_eq
  induction decls generalizing s with
  | nil =>
    refine ⟨?_, fun s' hs' => Except.ok.inj hs' ▸ h⟩
    simp [pure, Except.pure, Except.map]
  | cons d rest ih =>
    rw [List.foldlM_cons, List.mapM_cons, constrain, hfind]
    cases d.1.resolve s.names.idxOf? d.2 with
    | error e => exact ⟨rfl, fun s' hs' => by cases hs'⟩
    | ok c =>
      obtain ⟨hrest, hconsistent⟩ :=
        ih (s := { s with model := ⟨s.model.slots, s.model.constraints.push c⟩ })
          ⟨h.length_names, h.find?_eq⟩ hfind
      refine ⟨Eq.trans hrest ?_, hconsistent⟩
      cases rest.mapM fun d : ConstraintDecl × Nat => d.1.resolve s.names.idxOf? d.2 with
      | error e => rfl
      | ok constraints => simp [Except.map, bind, Except.bind, pure, Except.pure]

/-- With an index that is kept slot by slot the same documents are built, the same errors are
reported, and names lead to the same slots. -/
theorem load_eq_build (doc : Document) (v : Vocabulary) :
    (load doc v).map toNamedModel = doc.build v ∧
      ∀ s, load doc v = .ok s → ∀ name, s.find? name = s.slotNamed? name := by
  have hempty : empty.Consistent := ⟨rfl, fun _ => rfl⟩
  obtain ⟨hslots, hconsistent⟩ := hempty.foldlM_declare (v := v) doc.slots
  change _ = (v.slotsOf [] doc.slots).map fun slots =>
    (⟨⟨slots.toArray, #[]⟩, doc.slots.map SlotDecl.name⟩ : NamedModel) at hslots
  rw [load, Document.build]
  cases hdeclared : doc.slots.foldlM (declare v) empty with
  | error e =>
    rw [hdeclared] at hslots
    rw [map_eq_error_iff.1 hslots.symm]
    exact ⟨rfl, fun s hs => by cases hs⟩
  | ok s =>
    rw [hdeclared] at hslots
    obtain ⟨slots, hok, hs⟩ := map_eq_ok_iff.1 hslots.symm
    obtain ⟨hconstraints, hconsistent⟩ :=
      (hconsistent s hdeclared).foldlM_constrain doc.constraints.zipIdx
    rw [← hs] at hconstraints
    rw [hok]
    exact ⟨hconstraints.trans (bind_pure_comp (m := Except DocumentError) _ _).symm,
      fun s' hs' => (hconsistent s' hs').find?_eq⟩

end NamedModel.Indexed
end Metrology
