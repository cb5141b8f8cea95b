import Metrology.Proofs.Alias
import Metrology.Proofs.Model

/-!
# Documents and their assignments

The names of a built document are different from each other and its constants are over the
dimensions of the session.  An assignment that is written slot by slot, each unit by its spelling,
is therefore read back as it is, unless a spelling is a word that the reader takes for something
else.
-/

namespace Metrology

/-! ## Units as data -/

/-- A record whose values can be read is read as the map of its fields. -/
theorem Data.map?_record {α : Type} {read : Data → Option α} {write : α → Data}
    (h : ∀ a, read (write a) = some a) (entries : List (String × α)) :
    map? read (.record (entries.map fun e => (e.1, write e.2))) =
      some (SortedMap.ofList entries) := by
  have hentries : (entries.map fun e => (e.1, write e.2)).mapM
      (fun f => do return (f.1, ← read f.2)) = some entries := by
    induction entries with
    | nil => rfl
    | cons e rest ih =>
      rw [List.map_cons, List.mapM_cons, ih]
      simp [h]
  rw [map?, hentries]
  rfl

namespace WrittenUnit

/-- A unit of a document as data: a name, or a record of its power of ten and its exponents. -/
def data : WrittenUnit → Data
  | named name => .text name
  | monomial unit =>
    .record [("prefix", .int unit.power.val),
      ("exponents", .record (unit.exponents.entries.map fun e => (e.1, .int e.2.val)))]

theorem exponent?_int (e : Exponent) : Data.exponent? (.int e.val) = some e :=
  Exponent.ofInt?_eq_some_iff.2 rfl

theorem ofData?_data (w : WrittenUnit) : ofData? w.data = some w := by
  cases w with
  | named name => rfl
  | monomial unit =>
    have hfields : Data.fields? ["prefix", "exponents"] .ignored .refused (monomial unit).data =
        some [some (.int unit.power.val),
          some (.record (unit.exponents.entries.map fun e => (e.1, .int e.2.val)))] := rfl
    have hmonomial : (monomial unit).data.monomial? .refused = some unit := by
      rw [Data.monomial?, hfields]
      simp [Data.withDefault?, exponent?_int, Data.map?_record exponent?_int,
        SortedMap.ofList_entries, Monomial.ofExponents_entries]
    change ((monomial unit).data.monomial? .refused).map monomial = _
    rw [hmonomial]
    rfl

theorem data_injective : Function.Injective data := by
  intro w w' h
  have hread := ofData?_data w
  rw [h, ofData?_data] at hread
  exact (Option.some.inj hread).symm

/-- A line of an assignment as data: a name and a written unit. -/
def field (l : String × WrittenUnit) : String × Data := (l.1, l.2.data)

theorem field_injective : Function.Injective field := by
  rintro ⟨name, w⟩ ⟨name', w'⟩ h
  obtain ⟨hname, hdata⟩ := Prod.mk.inj h
  exact Prod.ext hname (data_injective hdata)

end WrittenUnit

/-! ## Building -/

/-- Different names for all slots, and constants over some dimensions. -/
structure NamedModel.WellNamed (named : NamedModel) (dims : Dimensions) : Prop where
  length_names : named.names.length = named.model.slots.size
  nodup : named.names.Nodup
  declared : ∀ (id : SlotId) (unit : Qualifier),
    named.model.slots[id]? = some (.constant unit) → unit.Declared dims

namespace Vocabulary

variable {v : Vocabulary}

/-- The slot that a declaration stands for: its constant, dimensionless for an unresolved
annotation, or an unknown at its location or else at its name. -/
inductive Declares (v : Vocabulary) (d : SlotDecl) : Slot → Prop
  | constant {w : WrittenUnit} {q : Option Qualifier} (written : d.constant = some w)
    (unlocated : d.location = none) (means : v.Means w q) :
    Declares v d (.constant (q.getD .dimensionless))
  | unknown (unwritten : d.constant = none) : Declares v d (.unknown (d.location.getD d.name))

theorem slotOf_eq_ok_iff {d : SlotDecl} {s : Slot} : v.slotOf d = .ok s ↔ v.Declares d s := by
  constructor
  · intro h
    unfold slotOf at h
    split at h
    · cases h
    · rename_i w hlocation hconstant
      obtain ⟨q, hq, rfl⟩ := map_eq_ok_iff.1 h
      exact .constant hconstant hlocation (resolve_eq_ok_iff.1 hq)
    · rename_i location hlocation hconstant
      cases h
      have hunknown := Declares.unknown (v := v) hconstant
      rwa [hlocation] at hunknown
    · rename_i hlocation hconstant
      cases h
      have hunknown := Declares.unknown (v := v) hconstant
      rwa [hlocation] at hunknown
  · intro h
    unfold slotOf
    cases h with
    | constant hconstant hlocation hmeans =>
      rw [hconstant, hlocation]
      exact map_eq_ok_iff.2 ⟨_, resolve_eq_ok_iff.2 hmeans, rfl⟩
    | unknown hconstant =>
      rw [hconstant]
      cases d.location <;> rfl

theorem declared_of_slotOf {d : SlotDecl} {unit : Qualifier}
    (h : v.slotOf d = .ok (.constant unit)) : unit.Declared v.dimensions := by
  cases slotOf_eq_ok_iff.1 h with
  | @constant w q written unlocated means =>
    cases q with
    | none => rfl
    | some u => exact declared_of_resolve (resolve_eq_ok_iff.2 means)

/-- Declarations have slots exactly if their names are new and different and each of them has a
slot. -/
theorem slotsOf_eq_ok_iff {before : List String} {decls : List SlotDecl} {slots : List Slot} :
    v.slotsOf before decls = .ok slots ↔
      (decls.map SlotDecl.name).Nodup ∧ (∀ name ∈ decls.map SlotDecl.name, name ∉ before) ∧
        decls.mapM v.slotOf = .ok slots := by
  induction decls generalizing before slots with
  | nil => simp [slotsOf, pure, Except.pure]
  | cons d rest ih =>
    rw [slotsOf, List.mapM_cons, List.map_cons, List.nodup_cons]
    constructor
    · intro h
      split at h
      · cases h
      · rename_i hfresh
        obtain ⟨slot, hslot, h⟩ := bind_eq_ok_iff.1 h
        obtain ⟨more, hmore, h⟩ := bind_eq_ok_iff.1 h
        obtain ⟨hnodup, hnames, hslots⟩ := ih.1 hmore
        refine ⟨⟨fun hmem => hnames _ hmem (by simp), hnodup⟩, ?_,
          bind_eq_ok_iff.2 ⟨slot, hslot, bind_eq_ok_iff.2 ⟨more, hslots, h⟩⟩⟩
        intro name hname hbefore
        rcases List.mem_cons.1 hname with rfl | hname
        · exact hfresh hbefore
        · exact hnames name hname (List.mem_append_left _ hbefore)
    · rintro ⟨⟨hnew, hnodup⟩, hnames, h⟩
      obtain ⟨slot, hslot, h⟩ := bind_eq_ok_iff.1 h
      obtain ⟨more, hslots, h⟩ := bind_eq_ok_iff.1 h
      obtain ⟨hfresh, hnames⟩ := List.forall_mem_cons.1 hnames
      have hmore : v.slotsOf (before ++ [d.name]) rest = .ok more := by
        refine ih.2 ⟨hnodup, fun name hname hmem => ?_, hslots⟩
        rcases List.mem_append.1 hmem with hmem | hmem
        · exact hnames name hname hmem
        · exact hnew (List.mem_singleton.1 hmem ▸ hname)
      rw [if_neg hfresh]
      exact bind_eq_ok_iff.2 ⟨slot, hslot, bind_eq_ok_iff.2 ⟨more, hmore, h⟩⟩

end Vocabulary

theorem Document.wellNamed_of_build {doc : Document} {v : Vocabulary} {named : NamedModel}
    (h : doc.build v = .ok named) : named.WellNamed v.dimensions := by
  obtain ⟨slots, hslots, h⟩ := bind_eq_ok_iff.1 h
  obtain ⟨constraints, -, h⟩ := bind_eq_ok_iff.1 h
  cases h
  obtain ⟨hnodup, -, hdecls⟩ := Vocabulary.slotsOf_eq_ok_iff.1 hslots
  have hlength : doc.slots.length = slots.length := by
    simpa using congrArg List.length (mapM_eq_ok_iff.1 hdecls)
  refine ⟨by simp [hlength], hnodup, ?_⟩
  intro id unit hslot
  obtain ⟨d, -, hd⟩ := (mem_of_mapM_eq_ok hdecls).1
    (List.mem_of_getElem? (by simpa using hslot))
  exact Vocabulary.declared_of_slotOf hd

/-! ## Assignments -/

namespace NamedModel

variable {named : NamedModel} {dims : Dimensions} {v : Vocabulary}

theorem nameOf_eq_getElem {id : SlotId} (h : id < named.names.length) :
    named.nameOf id = named.names[id] := by
  rw [nameOf, List.getD_eq_getElem?_getD, List.getElem?_eq_getElem h]
  rfl

theorem slotNamed?_nameOf (h : named.WellNamed dims) {id : SlotId}
    (hid : id < named.model.slots.size) : named.slotNamed? (named.nameOf id) = some id := by
  have hlt : id < named.names.length := h.length_names ▸ hid
  rw [slotNamed?, nameOf_eq_getElem hlt]
  exact idxOf?_getElem h.nodup hlt

/-- A line for an unknown slot assigns what its unit is read as. -/
theorem assigned_eq_ok_iff (h : named.WellNamed dims) {id : SlotId}
    (hid : id ∈ named.model.unknownIds) {w : WrittenUnit} {e : SlotId × Qualifier} :
    named.assigned v (named.nameOf id, w) = .ok e ↔
      e.1 = id ∧ v.resolve w = .ok (some e.2) := by
  obtain ⟨location, hslot⟩ := Model.mem_unknownIds_iff.1 hid
  have hlt : id < named.model.slots.size := (Array.getElem?_eq_some_iff.1 hslot).1
  obtain ⟨id', u⟩ := e
  rw [assigned, slotNamed?_nameOf h hlt]
  simp only [hslot]
  rw [bind_eq_ok_iff]
  constructor
  · rintro ⟨q, hq, heq⟩
    cases q with
    | none => cases heq
    | some u =>
      cases heq
      exact ⟨rfl, hq⟩
  · rintro ⟨rfl, hq⟩
    exact ⟨some u, hq, rfl⟩

/-- The text of an assignment is read line by line. -/
theorem readAssignment_eq {lines : List (String × WrittenUnit)} {text : String}
    (h : Json.read? text = some (.record (lines.map WrittenUnit.field))) :
    named.readAssignment v text =
      ((SortedMap.ofList lines).entries.mapM (named.assigned v)).map SortedMap.ofList := by
  have hmap : Data.map? WrittenUnit.ofData? (.record (lines.map WrittenUnit.field)) =
      some (SortedMap.ofList lines) :=
    Data.map?_record WrittenUnit.ofData?_data lines
  rw [readAssignment, h, Option.bind_eq_bind, Option.bind_some, hmap]
  exact bind_pure_comp _ _

/-- The line of a slot and its unit in an assignment. -/
def line (named : NamedModel) (aliases : AliasTable) (e : SlotId × Qualifier) :
    String × WrittenUnit :=
  (named.nameOf e.1, (Spelling.ofQualifier aliases e.2).written)

variable {solution : Assignment} {lines : List (String × WrittenUnit)}

section Lines

variable (hwell : named.WellNamed v.dimensions)
variable (hkeys : ∀ e ∈ solution.entries, e.1 ∈ named.model.unknownIds)
variable (hlines : ∀ l, l ∈ lines ↔ ∃ e ∈ solution.entries, named.line v.aliases e = l)

include hwell hkeys hlines

/-- The lines of an assignment give each of its slots what its spelling is read as. -/
theorem mem_of_mapM_assigned_eq_ok {results : List (SlotId × Qualifier)}
    (hresults : lines.mapM (named.assigned v) = .ok results) {id : SlotId} {u : Qualifier} :
    (id, u) ∈ results ↔ ∃ unit, (id, unit) ∈ solution.entries ∧
      v.resolve (Spelling.ofQualifier v.aliases unit).written = .ok (some u) := by
  rw [mem_of_mapM_eq_ok hresults]
  constructor
  · rintro ⟨l, hl, hassigned⟩
    obtain ⟨⟨id', unit⟩, he, rfl⟩ := (hlines l).1 hl
    obtain ⟨rfl, hresolve⟩ := (assigned_eq_ok_iff hwell (hkeys _ he)).1 hassigned
    exact ⟨unit, he, hresolve⟩
  · rintro ⟨unit, he, hresolve⟩
    refine ⟨named.line v.aliases (id, unit), (hlines _).2 ⟨_, he, rfl⟩, ?_⟩
    exact (assigned_eq_ok_iff hwell (hkeys _ he)).2 ⟨rfl, hresolve⟩

/-- The lines of an assignment are read as that assignment exactly if all of its units are read
back. -/
theorem ofList_mapM_assigned_eq_iff :
    (lines.mapM (named.assigned v)).map SortedMap.ofList = .ok solution ↔
      ∀ e ∈ solution.entries,
        v.resolve (Spelling.ofQualifier v.aliases e.2).written = .ok (some e.2) := by
  constructor
  · intro h
    obtain ⟨results, hresults, hsolution⟩ := map_eq_ok_iff.1 h
    have hmem := @mem_of_mapM_assigned_eq_ok _ _ _ _ hwell hkeys hlines _ hresults
    have hget : ∀ id u, (id, u) ∈ results → solution.get? id = some u := by
      intro id u hu
      rw [← hsolution, SortedMap.get?_ofList_eq_some_iff]
      · exact hu
      · intro id u u' hu hu'
        obtain ⟨unit, he, hresolve⟩ := hmem.1 hu
        obtain ⟨unit', he', hresolve'⟩ := hmem.1 hu'
        rw [SortedMap.eq_of_mem_entries he' he, hresolve] at hresolve'
        exact Option.some.inj (Except.ok.inj hresolve')
    rintro ⟨id, unit⟩ he
    obtain ⟨⟨id', u⟩, hassigned⟩ := exists_mapM_eq_ok_iff.1 ⟨results, hresults⟩
      (named.line v.aliases (id, unit)) ((hlines _).2 ⟨_, he, rfl⟩)
    obtain ⟨rfl, hresolve⟩ := (assigned_eq_ok_iff hwell (hkeys _ he)).1 hassigned
    have hu := hget _ u (hmem.2 ⟨unit, he, hresolve⟩)
    rw [SortedMap.get?_eq_some_iff.2 he] at hu
    rw [hresolve, Option.some.inj hu]
  · intro h
    have hok : ∀ l ∈ lines, ∃ e, named.assigned v l = .ok e := by
      intro l hl
      obtain ⟨e, he, rfl⟩ := (hlines l).1 hl
      exact ⟨e, (assigned_eq_ok_iff hwell (hkeys e he)).2 ⟨rfl, h e he⟩⟩
    obtain ⟨results, hresults⟩ := exists_mapM_eq_ok_iff.2 hok
    have hmem : ∀ id u, (id, u) ∈ results ↔ (id, u) ∈ solution.entries := by
      intro id u
      rw [mem_of_mapM_assigned_eq_ok hwell hkeys hlines hresults]
      constructor
      · rintro ⟨unit, he, hresolve⟩
        rw [h _ he] at hresolve
        exact Option.some.inj (Except.ok.inj hresolve) ▸ he
      · intro he
        exact ⟨u, he, h _ he⟩
    refine map_eq_ok_iff.2 ⟨results, hresults, SortedMap.ext_get? fun id => ?_⟩
    rw [Option.ext_iff]
    intro u
    rw [SortedMap.get?_ofList_eq_some_iff, hmem, SortedMap.get?_eq_some_iff]
    intro id u u' hu hu'
    exact SortedMap.eq_of_mem_entries ((hmem _ _).1 hu) ((hmem _ _).1 hu')

end Lines

end NamedModel
end Metrology
