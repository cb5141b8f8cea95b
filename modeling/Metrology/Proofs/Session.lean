import Metrology.Host.Memory
import Metrology.Proofs.Document
import Metrology.Proofs.Smt.Agreement

/-!
# Reading back what a session infers

A session shows an inferred unit under a name, if the unit has one.  Written into a solution file
as they are shown, the units of a run are read back as the solution of that run, exactly if no
name that is shown is a word with a meaning of its own.  Only a base dimension or a name of the
manifest can be such a word.
-/

namespace Metrology

/-! ## Units that a solve can find -/

/-- A unit over the components of a model has only dimensions of its constants. -/
theorem Qualifier.declared_of_over {m : Model} {dims : Dimensions} {unit : Qualifier}
    (hconstants : ∀ (id : SlotId) (u : Qualifier), m.slots[id]? = some (.constant u) →
      u.Declared dims) (h : unit.Over m.components) : unit.Declared dims := by
  cases unit with
  | top | bottom | poly => trivial
  | concrete unit =>
    refine Dimensions.undeclared?_eq_none_iff.2 fun d hd => ?_
    have hmem : Component.dimension d ∈ m.components := by
      by_contra hnot
      exact Monomial.mem_dimensions_iff.1 hd (Exponent.ext (h _ hnot))
    have hused : d ∈ m.usedDimensions := by simpa [Model.components] using hmem
    rw [Model.usedDimensions, mem_sortedDistinct, List.mem_flatMap] at hused
    obtain ⟨⟨id, u⟩, hu, hd⟩ := hused
    have hdeclared := hconstants id u (Model.mem_constants_iff.1 hu)
    cases u with
    | top | bottom | poly => cases hd
    | concrete u => exact Dimensions.undeclared?_eq_none_iff.1 hdeclared d hd

namespace Linear

theorem mem_fst_of_gather {outcomes : List (Component × Except SolveError SystemValues)}
    {reasons : List Reason} {values : List (Component × SystemValues)}
    (h : gather outcomes = .ok (reasons, values)) :
    ∀ c ∈ values.map Prod.fst, c ∈ outcomes.map Prod.fst := by
  induction outcomes generalizing reasons values with
  | nil =>
    cases h
    simp
  | cons o rest ih =>
    obtain ⟨c, outcome⟩ := o
    cases outcome with
    | ok found =>
      obtain ⟨⟨reasons', values'⟩, hgather, heq⟩ := map_eq_ok_iff.1 h
      cases heq
      intro c' hc'
      rcases List.mem_cons.1 hc' with rfl | hc'
      · exact List.mem_cons_self
      · exact List.mem_cons_of_mem _ (ih hgather c' hc')
    | error failure =>
      cases failure with
      | unsatisfiable found =>
        obtain ⟨⟨reasons', values'⟩, hgather, heq⟩ := map_eq_ok_iff.1 h
        cases heq
        intro c' hc'
        exact List.mem_cons_of_mem _ (ih hgather c' hc')
      | _ => cases h

/-- Whatever the answers to the systems of a model are, a solve gives a unit over the components
of the model to every unknown slot. -/
theorem over_of_finish {m : Model} {e : Encoding} {answers : List (Except SolveError String)}
    {solved : Solved} (hencoding : Encoding.ofModel m m.components = .ok e)
    (h : e.finish m answers = .ok solved) :
    ∀ entry ∈ solved.solution.entries,
      entry.1 ∈ m.unknownIds ∧ entry.2.Over m.components := by
  obtain ⟨relations, -, -, rfl⟩ := Encoding.ofModel_eq_ok hencoding
  obtain ⟨⟨reasons, values⟩, hgather, h⟩ := bind_eq_ok_iff.1 h
  have hvalues : ∀ c ∈ values.map Prod.fst, c ∈ m.components := by
    intro c hc
    have hsystem := mem_fst_of_gather hgather c hc
    rw [List.map_map] at hsystem
    obtain ⟨⟨system, answer⟩, hzip, rfl⟩ := List.mem_map.1 hsystem
    have hmem : system ∈ (encodingOf (categoriesOf m) relations m.components).systems :=
      (List.of_mem_zip hzip).1
    exact (mem_map_component_systems_iff.1 (List.mem_map_of_mem hmem)).1
  simp only at h
  split at h
  · cases h
  · cases h
    intro entry hentry
    have hget := SortedMap.get?_eq_some_iff.2 hentry
    rw [Encoding.get?_assemble] at hget
    split at hget
    · rename_i hid
      exact ⟨hid, Option.some.inj hget ▸ over_unitOf hvalues entry.1⟩
    · cases hget

end Linear

namespace Session

variable {s : Session} {σ : Type} {host : Host (StateM σ)} {w : σ} {model : Model}

theorem smt_solve_none_ne_ok {timeout : Option Nat} {solved : Solved} :
    Smt.solve .none timeout model ≠ .ok solved := by
  intro h
  obtain ⟨problem, -, h⟩ := bind_eq_ok_iff.1 h
  cases h

/-- A session finds units over the components of the model, also by a program of its own. -/
theorem over_of_solve {solved : Solved} (h : ((s.solve host model).run w).1 = .ok solved) :
    ∀ entry ∈ solved.solution.entries,
      entry.1 ∈ model.unknownIds ∧ entry.2.Over model.components := by
  unfold solve at h
  split at h
  · exact absurd h smt_solve_none_ne_ok
  · unfold solveLinear at h
    split at h
    · cases h
    · rename_i encoding hencoding
      exact Linear.over_of_finish hencoding h

end Session

/-! ## Solution files -/

/-- The line of a slot in a solution file, with its unit as it is shown. -/
def SlotReport.field (r : SlotReport) : String × Data :=
  WrittenUnit.field (r.name, r.spelling.written)

namespace Session

variable {s : Session} {named : NamedModel} {solution : Assignment}

theorem mem_slotReports_iff {r : SlotReport} :
    r ∈ s.slotReports named solution ↔
      ∃ e ∈ solution.entries, ∃ location,
        named.model.slots[e.1]? = some (.unknown location) ∧
          r = ⟨named.nameOf e.1, location, e.2, .ofQualifier s.aliases e.2⟩ := by
  simp only [slotReports, List.mem_filterMap, Option.map_eq_some_iff]
  constructor
  · rintro ⟨⟨id, location⟩, hunknown, unit, hunit, rfl⟩
    exact ⟨(id, unit), SortedMap.get?_eq_some_iff.1 hunit, location,
      Model.mem_unknowns_iff.1 hunknown, rfl⟩
  · rintro ⟨⟨id, unit⟩, he, location, hslot, rfl⟩
    exact ⟨(id, location), Model.mem_unknowns_iff.2 hslot, unit,
      SortedMap.get?_eq_some_iff.2 he, rfl⟩

section File

variable (hwell : named.WellNamed s.dimensions)
variable (hkeys : ∀ e ∈ solution.entries, e.1 ∈ named.model.unknownIds)

include hkeys in
/-- The reports on an assignment to unknown slots show all of its units. -/
theorem exists_slotReport_iff {P : String → Spelling → Prop} :
    (∃ r ∈ s.slotReports named solution, P r.name r.spelling) ↔
      ∃ e ∈ solution.entries, P (named.nameOf e.1) (.ofQualifier s.aliases e.2) := by
  constructor
  · rintro ⟨r, hr, hP⟩
    obtain ⟨e, he, location, -, rfl⟩ := mem_slotReports_iff.1 hr
    exact ⟨e, he, hP⟩
  · rintro ⟨e, he, hP⟩
    obtain ⟨location, hslot⟩ := Model.mem_unknownIds_iff.1 (hkeys e he)
    exact ⟨_, mem_slotReports_iff.2 ⟨e, he, location, hslot, rfl⟩, hP⟩

include hkeys in
theorem exists_field_eq_iff {l : String × WrittenUnit} :
    (∃ r ∈ s.slotReports named solution, r.field = WrittenUnit.field l) ↔
      ∃ e ∈ solution.entries, named.line s.aliases e = l := by
  have hreports := exists_slotReport_iff (s := s) hkeys
    (P := fun name spelling => (name, spelling.written) = l)
  simp only [SlotReport.field, WrittenUnit.field_injective.eq_iff]
  exact hreports

include hwell hkeys in
theorem line_functional {name : String} {unit unit' : WrittenUnit}
    (h : ∃ e ∈ solution.entries, named.line s.aliases e = (name, unit))
    (h' : ∃ e ∈ solution.entries, named.line s.aliases e = (name, unit')) : unit = unit' := by
  obtain ⟨⟨id, u⟩, he, hline⟩ := h
  obtain ⟨⟨id', u'⟩, he', hline'⟩ := h'
  obtain ⟨hname, rfl⟩ := Prod.mk.inj hline
  obtain ⟨hname', rfl⟩ := Prod.mk.inj hline'
  have hnumber : ∀ e ∈ solution.entries, named.slotNamed? (named.nameOf e.1) = some e.1 := by
    intro e he
    obtain ⟨location, hslot⟩ := Model.mem_unknownIds_iff.1 (hkeys e he)
    exact NamedModel.slotNamed?_nameOf hwell (Array.getElem?_eq_some_iff.1 hslot).1
  have hid := hnumber _ he
  rw [hname, ← hname', hnumber _ he'] at hid
  obtain rfl : id' = id := Option.some.inj hid
  rw [SortedMap.eq_of_mem_entries he he']

/-- A list of lines of a solution file is the data of written units. -/
theorem exists_eq_map_of_forall_field {fields : List (String × Data)}
    (h : ∀ f ∈ fields, ∃ r ∈ s.slotReports named solution, r.field = f) :
    ∃ lines : List (String × WrittenUnit), fields = lines.map WrittenUnit.field := by
  induction fields with
  | nil => exact ⟨[], rfl⟩
  | cons f rest ih =>
    obtain ⟨⟨r, -, rfl⟩, hrest⟩ := List.forall_mem_cons.1 h
    obtain ⟨lines, rfl⟩ := ih hrest
    exact ⟨(r.name, r.spelling.written) :: lines, rfl⟩

/-- A solution file that spells units as they are reported is read as their assignment exactly if
no spelling is captured. -/
theorem readAssignment_eq_ok_iff (hnodup : s.aliases.names.Nodup)
    (hwell : named.WellNamed s.dimensions)
    (hsolution : ∀ e ∈ solution.entries,
      e.1 ∈ named.model.unknownIds ∧ e.2.Declared s.dimensions)
    {text : String} {fields : List (String × Data)} (htext : Json.read? text = some (.record fields))
    (hfields : ∀ f, f ∈ fields ↔ ∃ r ∈ s.slotReports named solution, r.field = f) :
    named.readAssignment s.toVocabulary text = .ok solution ↔
      ∀ r ∈ s.slotReports named solution, ¬r.spelling.Captured := by
  have hkeys := fun e he => (hsolution e he).1
  obtain ⟨lines, rfl⟩ := exists_eq_map_of_forall_field fun f hf => (hfields f).1 hf
  have hlines : ∀ l, l ∈ lines ↔ ∃ e ∈ solution.entries, named.line s.aliases e = l := by
    intro l
    rw [← exists_field_eq_iff hkeys, ← hfields,
      List.mem_map_of_injective WrittenUnit.field_injective]
  have hstored : ∀ l, l ∈ (SortedMap.ofList lines).entries ↔
      ∃ e ∈ solution.entries, named.line s.aliases e = l := by
    rintro ⟨name, unit⟩
    rw [← SortedMap.get?_eq_some_iff, SortedMap.get?_ofList_eq_some_iff, hlines]
    intro name unit unit' h h'
    exact line_functional hwell hkeys ((hlines _).1 h) ((hlines _).1 h')
  have hcaptured := exists_slotReport_iff (s := s) hkeys (P := fun _ spelling => spelling.Captured)
  rw [NamedModel.readAssignment_eq htext, NamedModel.ofList_mapM_assigned_eq_iff hwell hkeys hstored]
  constructor
  · intro h r hr hr'
    obtain ⟨e, he, he'⟩ := hcaptured.1 ⟨r, hr, hr'⟩
    exact (Vocabulary.resolve_written_eq_iff hnodup (hsolution e he).2).1 (h e he) he'
  · intro h e he
    refine (Vocabulary.resolve_written_eq_iff hnodup (hsolution e he).2).2 fun he' => ?_
    obtain ⟨r, hr, hr'⟩ := hcaptured.2 ⟨e, he, he'⟩
    exact h r hr hr'

end File

/-- In every session the spelling of a unit is read back as that unit exactly if it is not
captured, and what a run infers, written as it is shown, is read back as the solution of the run
exactly if no spelling in it is captured.  A spelling can be captured only if a base dimension or
a name of the manifest is one of the words of the reader. -/
theorem spelling_read_back_iff {manifest : Manifest} {overrides : Overrides} {s : Session}
    (h : configure manifest overrides = .ok s) :
    (∀ u : Qualifier, u.Declared s.dimensions →
      (s.resolve (Spelling.ofQualifier s.aliases u).written = .ok (some u) ↔
        ¬(Spelling.ofQualifier s.aliases u).Captured)) ∧
    (∀ (doc : Document) (named : NamedModel), doc.build s.toVocabulary = .ok named →
      ∀ (σ : Type) (host : Host (StateM σ)) (w : σ) (input : String) (found : Inferred),
        ((s.infer host input named).run w).1.outcome = .ok found →
          ∃ solved, ((s.solve host named.model).run w).1 = .ok solved ∧
            ∀ text fields, Json.read? text = some (.record fields) →
              (∀ f, f ∈ fields ↔ ∃ r ∈ found.slots, r.field = f) →
                (named.readAssignment s.toVocabulary text = .ok solved.solution ↔
                  ∀ r ∈ found.slots, ¬r.spelling.Captured)) ∧
    ((∀ word ∈ Vocabulary.words,
      word ∉ s.dimensions.names ∧ word ∉ manifest.aliases.map Prod.fst) →
        ∀ u, ¬(Spelling.ofQualifier s.aliases u).Captured) := by
  have hnodup : s.aliases.names.Nodup := by
    rw [aliases_of_configure h]
    exact AliasTable.nodup_names_ofEntries _
  refine ⟨?_, ?_, ?_⟩
  · intro u hu
    exact Vocabulary.resolve_written_eq_iff hnodup hu
  · intro doc named hbuild σ host w input found hfound
    have hwell := Document.wellNamed_of_build hbuild
    obtain ⟨solved, hsolved, rfl⟩ := map_eq_ok_iff.1 hfound
    refine ⟨solved, hsolved, fun text fields htext hfields => ?_⟩
    refine readAssignment_eq_ok_iff hnodup hwell (fun e he => ?_) htext hfields
    obtain ⟨hid, hover⟩ := over_of_solve hsolved e he
    exact ⟨hid, Qualifier.declared_of_over hwell.declared hover⟩
  · intro hwords u hcaptured
    obtain ⟨word, hword, hmem⟩ := exists_of_captured h hcaptured
    exact hmem.elim (hwords word hword).1 (hwords word hword).2

/-- A project that measures lengths. -/
def lengthManifest : Manifest := { root := ".", dimensions := ["m"], backend := .linear }

/-- A slot in metres and a slot of which nothing is known. -/
def lengthDocument : Document where
  slots := [{ name := "c", constant := some (.named "m") },
    { name := "d", constant := some (.named "top") }, { name := "x" }, { name := "y" }]
  constraints := [{ kind := .equal, lhs := "x", rhs := "c" },
    { kind := .equal, lhs := "y", rhs := "d" }]

/-- The fields of a record of texts. -/
def textFields? : Data → Option (List (String × String))
  | .record fields => fields.mapM fun f => f.2.text?.map fun text => (f.1, text)
  | _ => none

theorem eq_record_of_textFields? {d : Data} {texts : List (String × String)}
    (h : textFields? d = some texts) : d = .record (texts.map fun t => (t.1, .text t.2)) := by
  cases d with
  | record fields =>
    have hfields : fields = texts.map fun t => (t.1, .text t.2) := by
      rw [textFields?] at h
      induction fields generalizing texts with
      | nil =>
        cases h
        rfl
      | cons f rest ih =>
        rw [List.mapM_cons] at h
        obtain ⟨t, ht, h⟩ := Option.bind_eq_some_iff.1 h
        obtain ⟨later, hlater, h⟩ := Option.bind_eq_some_iff.1 h
        cases h
        rw [List.map_cons, ← ih hlater]
        obtain ⟨text, htext, rfl⟩ := Option.map_eq_some_iff.1 ht
        obtain ⟨name, value⟩ := f
        cases value with
        | text s =>
          cases htext
          rfl
        | null | bool | int | float | date | list | record => cases htext
    rw [hfields]
  | null | bool | int | float | date | text | list => cases h

/-- What is shown for the slots of the document. -/
def lengthReports : List SlotReport :=
  [⟨"x", "x", .base "m", .named "m"⟩, ⟨"y", "y", .top, .top⟩]

theorem spelling_read_back_length :
    ∃ s named solved, configure lengthManifest {} = .ok s ∧
      lengthDocument.build s.toVocabulary = .ok named ∧
      ((s.solve FileTree.host named.model).run ⟨[], []⟩).1 = .ok solved ∧
      named.readAssignment s.toVocabulary "\x7b\"x\": \"m\", \"y\": \"top\"\x7d" =
        .ok solved.solution := by
  have hrun : (do
      let s ← (configure lengthManifest {}).toOption
      let named ← (lengthDocument.build s.toVocabulary).toOption
      let found ← ((s.infer FileTree.host "doc" named).run ⟨[], []⟩).1.outcome.toOption
      return found.slots) = some lengthReports := by
    decide +kernel
  have htext : Json.read? "\x7b\"x\": \"m\", \"y\": \"top\"\x7d" =
      some (.record (lengthReports.map SlotReport.field)) := by
    have hread : (Json.read? "\x7b\"x\": \"m\", \"y\": \"top\"\x7d").bind textFields? =
        some [("x", "m"), ("y", "top")] := by
      decide +kernel
    obtain ⟨d, hd, htexts⟩ := Option.bind_eq_some_iff.1 hread
    rw [hd, eq_record_of_textFields? htexts]
    rfl
  obtain ⟨s, hs, hrun⟩ := Option.bind_eq_some_iff.1 hrun
  obtain ⟨named, hnamed, hrun⟩ := Option.bind_eq_some_iff.1 hrun
  obtain ⟨found, hfound, hslots⟩ := Option.bind_eq_some_iff.1 hrun
  rw [toOption_eq_some_iff] at hs hnamed hfound
  obtain ⟨solved, hsolved, hread⟩ :=
    (spelling_read_back_iff hs).2.1 _ _ hnamed _ _ _ _ _ hfound
  rw [Option.some.inj hslots] at hread
  refine ⟨s, named, solved, hs, hnamed, hsolved, (hread _ _ htext fun f => List.mem_map).2 ?_⟩
  decide

/-- A project with a base dimension that is called like the qualifier above all others. -/
def topManifest : Manifest := { root := ".", dimensions := ["top"], backend := .linear }

/-- The base unit of that dimension is shown as `top`, which is read as another qualifier. -/
theorem spelling_top_not_read_back :
    ∃ s, configure topManifest {} = .ok s ∧ (Qualifier.base "top").Declared s.dimensions ∧
      Spelling.ofQualifier s.aliases (.base "top") = .named "top" ∧
      s.resolve (Spelling.ofQualifier s.aliases (.base "top")).written = .ok (some .top) := by
  have hconfigure : (configure topManifest {}).map (fun s =>
      decide ((Qualifier.base "top").Declared s.dimensions ∧
        Spelling.ofQualifier s.aliases (.base "top") = .named "top")) = .ok true := by
    decide +kernel
  obtain ⟨s, hs, hspelling⟩ := map_eq_ok_iff.1 hconfigure
  obtain ⟨hdeclared, hspelling⟩ := of_decide_eq_true hspelling
  refine ⟨s, hs, hdeclared, hspelling, ?_⟩
  rw [hspelling]
  rfl

end Session
end Metrology
