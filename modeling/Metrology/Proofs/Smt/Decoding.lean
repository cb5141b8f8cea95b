import Metrology.Smt.Solver
import Metrology.Proofs.Smt.Exactness
import Mathlib.Data.List.Nodup

/-!
# Decoding the text of a model

An engine answers with lines of a variable and its value, in any order and with any blanks around
them.  If every declared variable has one line and the values satisfy the assertions, a solve
gives every unknown slot the unit that its flags and integers describe, and a check of these units
is clean.  The one way to fail is an integer of a concrete slot beyond the range of exponents.
-/

namespace Metrology

/-! ## Texts that list entries -/

namespace Text

/-- Blanks that stand on one line. -/
def IsGap (l : List Char) : Prop := ∀ c ∈ l, isBlank c = true ∧ c ≠ '\n'

instance (l : List Char) : Decidable (IsGap l) := List.decidableBAll _ l

/-- A nonempty run without blanks. -/
def IsWord (l : List Char) : Prop := l ≠ [] ∧ ∀ c ∈ l, isBlank c = false

instance (l : List Char) : Decidable (IsWord l) :=
  @instDecidableAnd _ _ inferInstance (List.decidableBAll _ l)

/-- A line shows a name and a value, or only blanks. -/
inductive ShowsEntry : List Char → Option (String × String) → Prop where
  | blank {gap : List Char} (hgap : IsGap gap) : ShowsEntry gap none
  | entry {before between after : List Char} {name value : String}
      (hbefore : IsGap before) (hname : IsWord name.toList) (hbetween : IsGap between)
      (hne : between ≠ []) (hvalue : IsWord value.toList) (hafter : IsGap after) :
      ShowsEntry (before ++ (name.toList ++ between ++ value.toList) ++ after) (some (name, value))

/-- A text lists entries if each of its lines shows one or is blank.  The last line may lack its
end. -/
inductive Lists : List Char → List (String × String) → Prop where
  | last {line : List Char} {entry : Option (String × String)} (hline : ShowsEntry line entry) :
      Lists line entry.toList
  | cons {line rest : List Char} {entry : Option (String × String)}
      {entries : List (String × String)} (hline : ShowsEntry line entry)
      (hrest : Lists rest entries) : Lists (line ++ '\n' :: rest) (entry.toList ++ entries)

section Lists

variable {line : List Char}

theorem IsGap.isBlank {gap : List Char} (h : IsGap gap) : ∀ c ∈ gap, isBlank c = true :=
  fun c hc => (h c hc).1

theorem IsGap.unbroken {gap : List Char} (h : IsGap gap) : '\n' ∉ gap :=
  fun hmem => (h _ hmem).2 rfl

theorem words_pair {name between value : List Char} (hname : IsWord name) (hgap : IsGap between)
    (hne : between ≠ []) (hvalue : IsWord value) :
    words (name ++ between ++ value) = [name, value] := by
  obtain ⟨c, gap, rfl⟩ := List.exists_cons_of_ne_nil hne
  obtain ⟨hc, hgap⟩ := List.forall_mem_cons.1 hgap.isBlank
  rw [List.append_assoc, List.cons_append, words_append_cons hname.1 hname.2 hc,
    words_append hgap, words_eq_singleton hvalue.1 hvalue.2]

/-- The line of an entry is cut into its name and its value. -/
theorem ShowsEntry.words_trim {entry : Option (String × String)} (h : ShowsEntry line entry) :
    '\n' ∉ line ∧ ([trim line].filter fun l => !l.isEmpty).map words =
      entry.toList.map fun e => [e.1.toList, e.2.toList] := by
  cases h with
  | blank hgap =>
    have htrim : trim line = [] := trim_append (l := []) hgap.isBlank
    exact ⟨hgap.unbroken, by simp [htrim]⟩
  | entry hbefore hname hbetween hne hvalue hafter =>
    have hcore := (isLine_of_not_blank hname.1 hname.2).append
      (isLine_of_not_blank hvalue.1 hvalue.2) hbetween.unbroken
    refine ⟨?_, ?_⟩
    · rw [List.mem_append, List.mem_append]
      rintro ((hmem | hmem) | hmem)
      · exact hbefore.unbroken hmem
      · exact hcore.unbroken hmem
      · exact hafter.unbroken hmem
    · have hfilled := hcore.ne_nil
      rw [← List.isEmpty_eq_false_iff] at hfilled
      rw [hcore.trim_eq_of_gaps hbefore.isBlank hafter.isBlank,
        List.filter_cons_of_pos (by rw [hfilled]; rfl), List.filter_nil, List.map_singleton,
        words_pair hname hbetween hne hvalue]
      rfl

/-- The filled lines of a text that lists entries are cut into names and values. -/
theorem Lists.words_filledLines {text : List Char} {entries : List (String × String)}
    (h : Lists text entries) :
    (filledLines text).map words = entries.map fun e => [e.1.toList, e.2.toList] := by
  induction h with
  | last hline =>
    obtain ⟨hunbroken, hwords⟩ := hline.words_trim
    rw [filledLines_of_unbroken hunbroken, hwords]
  | cons hline hrest ih =>
    obtain ⟨hunbroken, hwords⟩ := hline.words_trim
    rw [filledLines_append_cons hunbroken, List.map_append, hwords, ih, List.map_append]

end Lists
end Text

namespace Smt

/-! ## Variables of a problem -/

/-- The declarations of an unknown slot. -/
def slotDeclarations (components : List Component) (id : SlotId) : List (String × VarSort) :=
  (varName id topMarker, .bool) :: (varName id bottomMarker, .bool) ::
    components.map fun c => (varName id c.name, .int)

namespace Problem

variable {components : List Component} {p p' : Problem}

theorem declarations_assert {label origin : String} {f : Formula} :
    (p.assert label origin f).declarations = p.declarations := by
  unfold assert
  split <;> rfl

theorem declarations_prefer {f : Formula} {weight : Nat} :
    (p.prefer f weight).declarations = p.declarations := by
  unfold prefer
  split <;> rfl

theorem declarations_foldl_declare {id : SlotId} :
    (components.foldl (fun p c => p.declare (varName id c.name) .int) p).declarations =
      p.declarations ++ components.map fun c => (varName id c.name, .int) := by
  induction components generalizing p with
  | nil => simp
  | cons c rest ih =>
    rw [List.foldl_cons, ih, declare, List.append_assoc]
    rfl

theorem declarations_addUnknown {slot : SlotId × String} :
    (addUnknown components p slot).declarations =
      p.declarations ++ slotDeclarations components slot.1 := by
  rw [addUnknown, declarations_prefer, declarations_assert, declarations_foldl_declare]
  simp [declare, slotDeclarations]

theorem declarations_foldl_addUnknown {slots : List (SlotId × String)} :
    (slots.foldl (addUnknown components) p).declarations =
      p.declarations ++ slots.flatMap fun slot => slotDeclarations components slot.1 := by
  induction slots generalizing p with
  | nil => simp
  | cons slot rest ih =>
    rw [List.foldl_cons, ih, declarations_addUnknown, List.append_assoc, List.flatMap_cons]

theorem declarations_foldlM_addConstraint {constraints : List (Constraint Operand × Nat)}
    (h : constraints.foldlM (addConstraint components) p = .ok p') :
    p'.declarations = p.declarations := by
  induction constraints generalizing p with
  | nil =>
    cases h
    rfl
  | cons c rest ih =>
    rw [List.foldlM_cons, bind_eq_ok_iff] at h
    obtain ⟨p₁, hc, hrest⟩ := h
    obtain ⟨f, -, hp₁⟩ := bind_eq_ok_iff.1 hc
    cases hp₁
    rw [ih hrest, declarations_assert]

/-- The problem of a model declares the variables of its unknown slots. -/
theorem declarations_ofModel {m : Model} (h : ofModel m components = .ok p) :
    p.declarations = m.unknownIds.flatMap (slotDeclarations components) := by
  obtain ⟨constraints, -, h⟩ := bind_eq_ok_iff.1 h
  rw [declarations_foldlM_addConstraint h, declarations_foldl_addUnknown, Model.unknownIds,
    List.flatMap_map]
  rfl

end Problem

section Names

variable {m : Model}

/-- The markers of a slot's variables are all different. -/
theorem markers_nodup (hnames : ∀ d ∈ m.usedDimensions, Dimensions.ValidName d) :
    (topMarker :: bottomMarker :: m.components.map Component.name).Nodup := by
  have hcomponents : (m.components.map Component.name).Nodup := by
    refine List.Nodup.map_on (fun c hc c' hc' hname => ?_) m.components_nodup
    exact components_name_inj hnames c' hc' c hc hname
  have hmarker :
      ∀ marker ∈ [topMarker, bottomMarker], marker ∉ m.components.map Component.name := by
    intro marker hmarker hmem
    obtain ⟨c, hc, hname⟩ := List.mem_map.1 hmem
    cases c with
    | power =>
      subst hname
      exact absurd hmarker (by decide)
    | dimension d =>
      have hd : d ∈ m.usedDimensions := by simpa [Model.components] using hc
      have hreserved : d ∈ Dimensions.reserved := by
        rw [show d = marker from hname]
        exact List.mem_cons_of_mem _ hmarker
      exact (hnames d hd).2 hreserved
  rw [List.nodup_cons, List.nodup_cons, List.mem_cons, not_or]
  exact ⟨⟨by decide, hmarker _ (by simp)⟩, hmarker _ (by simp), hcomponents⟩

/-- No two variables of a problem have the same name. -/
theorem declaredNames_nodup (hnames : ∀ d ∈ m.usedDimensions, Dimensions.ValidName d)
    {p : Problem} (hp : Problem.ofModel m m.components = .ok p) :
    (p.declarations.map Prod.fst).Nodup := by
  have hslot : ∀ id, (slotDeclarations m.components id).map Prod.fst =
      (topMarker :: bottomMarker :: m.components.map Component.name).map (varName id) := by
    intro id
    simp [slotDeclarations, Function.comp_def]
  rw [Problem.declarations_ofModel hp, List.map_flatMap, funext hslot, List.nodup_flatMap]
  refine ⟨fun id _ => ?_, m.unknownIds_sorted.imp fun {a b} hlt => ?_⟩
  · exact (markers_nodup hnames).map fun _ _ heq => (varName_inj heq).2
  · intro name ha hb
    obtain ⟨_, -, rfl⟩ := List.mem_map.1 ha
    obtain ⟨_, -, heq⟩ := List.mem_map.1 hb
    exact Nat.ne_of_lt hlt (varName_inj heq).1.symm

end Names

/-! ## Model texts -/

/-- A text spells the value of a variable. -/
def VarSort.Spells (v : Valuation) (name raw : String) : VarSort → Prop
  | .bool => raw = if v.flag name then "true" else "false"
  | .int => Numeral.int? raw.toList = some (v.int name)

instance (v : Valuation) (name raw : String) : (sort : VarSort) → Decidable (sort.Spells v name raw)
  | .bool => inferInstanceAs (Decidable (raw = if v.flag name then "true" else "false"))
  | .int => inferInstanceAs (Decidable (Numeral.int? raw.toList = some (v.int name)))

/-- A text lists every variable of a problem once, with its value under a valuation. -/
def Presents (text : String) (p : Problem) (v : Valuation) : Prop :=
  ∃ entries, Text.Lists text.toList entries ∧
    (entries.map Prod.fst).Perm (p.declarations.map Prod.fst) ∧
    ∀ d ∈ p.declarations, ∀ e ∈ entries, e.1 = d.1 → d.2.Spells v d.1 e.2

namespace ModelText

variable {values : ModelText} {v : Valuation}

/-- Lines that are blank or a pair of words are read as the entries of these pairs. -/
theorem foldlM_readLine_eq_ok {lines : List (List Char)} {entries : List (String × String)}
    (h : ((lines.map Text.trim).filter fun l => !l.isEmpty).map Text.words =
      entries.map fun e => [e.1.toList, e.2.toList]) (n : Nat) (values : ModelText) :
    (lines.zipIdx n).foldlM readLine values =
      .ok (entries.foldl (fun values e => values.insert e.1 e.2) values) := by
  induction lines generalizing entries n values with
  | nil =>
    obtain rfl : entries = [] := by simpa using h
    rfl
  | cons line rest ih =>
    rw [List.zipIdx_cons, List.foldlM_cons, readLine]
    by_cases hempty : (Text.trim line).isEmpty = true
    · rw [List.map_cons, List.filter_cons_of_neg (by simp [hempty])] at h
      rw [if_pos hempty]
      exact ih h (n + 1) values
    · rw [List.map_cons, List.filter_cons_of_pos (by simpa using hempty), List.map_cons] at h
      cases entries with
      | nil => simp at h
      | cons e entries =>
        obtain ⟨hwords, hrest⟩ := List.cons.inj h
        rw [if_neg hempty, hwords]
        simp only [String.ofList_toList]
        exact ih hrest (n + 1) (values.insert e.1 e.2)

theorem get?_foldl_insert_of_mem {entries : List (String × String)} {e : String × String}
    (hnodup : (entries.map Prod.fst).Nodup) (he : e ∈ entries) (values : ModelText) :
    (entries.foldl (fun values e => values.insert e.1 e.2) values).get? e.1 = some e.2 := by
  rw [SortedMap.get?_foldl_insert Prod.fst Prod.snd]
  cases hfind : entries.reverse.find? fun a => decide (a.1 = e.1) with
  | none => simpa using List.find?_eq_none.1 hfind e (List.mem_reverse.2 he)
  | some a =>
    have hname : a.1 = e.1 := by simpa using List.find?_some hfind
    have ha := List.mem_reverse.1 (List.mem_of_find?_eq_some hfind)
    rw [List.inj_on_of_nodup_map hnodup ha he hname]
    rfl

/-- The values that are read for a problem are those of a valuation. -/
def Reads (values : ModelText) (p : Problem) (v : Valuation) : Prop :=
  ∀ d ∈ p.declarations, ∃ raw, values.get? d.1 = some raw ∧ d.2.Spells v d.1 raw

/-- A text that presents a valuation is read. -/
theorem exists_read_eq_ok {text : String} {p : Problem} (h : Presents text p v)
    (hnodup : (p.declarations.map Prod.fst).Nodup) :
    ∃ values, read text = .ok values ∧ values.Reads p v := by
  obtain ⟨entries, hlists, hperm, hspells⟩ := h
  refine ⟨_, foldlM_readLine_eq_ok hlists.words_filledLines 0 SortedMap.empty, ?_⟩
  intro d hd
  have hmem : d.1 ∈ entries.map Prod.fst := hperm.mem_iff.2 (List.mem_map_of_mem hd)
  obtain ⟨e, he, hname⟩ := List.mem_map.1 hmem
  refine ⟨e.2, ?_, hspells d hd e he hname⟩
  rw [← hname]
  exact get?_foldl_insert_of_mem (hperm.nodup_iff.2 hnodup) he _

theorem flag_eq_ok {name raw : String} (hget : values.get? name = some raw)
    (hspells : VarSort.bool.Spells v name raw) : values.flag name = .ok (v.flag name) := by
  obtain rfl : raw = if v.flag name then "true" else "false" := hspells
  cases hflag : v.flag name <;> rw [flag, hget] <;> simp [hflag]

theorem component_eq_ok {name raw : String} (hget : values.get? name = some raw)
    (hspells : VarSort.int.Spells v name raw) {e : Exponent} (he : e.val = v.int name) :
    values.component name = .ok e := by
  have hvalue : (Numeral.int? raw.toList).bind Exponent.ofInt? = some e := by
    rw [show Numeral.int? raw.toList = _ from hspells, Option.bind_some]
    exact Exponent.ofInt?_eq_some_iff.2 he
  simp only [component, hget, hvalue]

theorem component_eq_error {name raw : String} (hget : values.get? name = some raw)
    (hspells : VarSort.int.Spells v name raw) (hrange : ¬InExponentRange (v.int name)) :
    values.component name = .error (.malformed (.notInteger name raw)) := by
  have hvalue : (Numeral.int? raw.toList).bind Exponent.ofInt? = none := by
    rw [show Numeral.int? raw.toList = _ from hspells, Option.bind_some]
    exact Exponent.ofInt?_eq_none_iff.2 hrange
  simp only [component, hget, hvalue]

end ModelText

/-! ## Units of slots -/

namespace Valuation

variable {v : Valuation} {components : List Component} {id : SlotId}

/-- The unit that the flags and integers of a slot describe; an integer out of range counts as
zero. -/
def unitOf (v : Valuation) (components : List Component) (id : SlotId) : Qualifier :=
  if v.flag (varName id topMarker) then .top
  else if v.flag (varName id bottomMarker) then .bottom
  else .concrete (components.foldl
    (fun unit c => c.assign unit ((Exponent.ofInt? (v.int (varName id c.name))).getD 0)) .one)

/-- A slot with no flag has all its integers in the range of exponents. -/
def SlotInRange (v : Valuation) (components : List Component) (id : SlotId) : Prop :=
  v.flag (varName id topMarker) = false → v.flag (varName id bottomMarker) = false →
    ∀ c ∈ components, InExponentRange (v.int (varName id c.name))

theorem valueOf_foldl_assign {value : Component → Exponent} (unit : Monomial) (c : Component) :
    c.valueOf (components.foldl (fun unit c => c.assign unit (value c)) unit) =
      if c ∈ components then value c else c.valueOf unit := by
  induction components generalizing unit with
  | nil => simp
  | cons d rest ih =>
    rw [List.foldl_cons, ih, Component.valueOf_assign]
    by_cases hcd : c = d
    · subst hcd
      by_cases hrest : c ∈ rest <;> simp [hrest]
    · simp [hcd]

/-- The view of a well-formed slot in range shows the unit that is described. -/
theorem shows_unitOf (hwf : (View.ofUnknown components id).wellFormed.holds v = true)
    (hrange : v.SlotInRange components id) :
    Shows v components (.ofUnknown components id) (v.unitOf components id) := by
  obtain ⟨hexclusive, hzero⟩ := View.holds_wellFormed_iff.1 hwf
  simp only [View.ofUnknown, Formula.holds, List.forall_mem_map, Term.value] at hexclusive hzero
  have hints : ∀ {q : Qualifier}, (∀ c ∈ components, v.int (varName id c.name) = c.valueIn q) →
      (View.ofUnknown components id).components.map (Term.value v) =
        components.map fun c => c.valueIn q := by
    intro q h
    rw [View.ofUnknown, List.map_map]
    exact List.map_congr_left h
  unfold unitOf
  by_cases htop : v.flag (varName id topMarker) = true
  · rw [if_pos htop]
    have hbottom : ¬v.flag (varName id bottomMarker) = true := fun h => hexclusive ⟨htop, h⟩
    exact ⟨trivial, by simp [View.ofUnknown, Formula.holds, htop],
      by simp [View.ofUnknown, Formula.holds, hbottom], hints (hzero (.inl htop))⟩
  · rw [if_neg htop]
    by_cases hbottom : v.flag (varName id bottomMarker) = true
    · rw [if_pos hbottom]
      exact ⟨trivial, by simp [View.ofUnknown, Formula.holds, htop],
        by simp [View.ofUnknown, Formula.holds, hbottom], hints (hzero (.inr hbottom))⟩
    · rw [if_neg hbottom]
      refine ⟨fun c hc => ?_, by simp [View.ofUnknown, Formula.holds, htop],
        by simp [View.ofUnknown, Formula.holds, hbottom], hints fun c hc => ?_⟩
      · rw [valueOf_foldl_assign, if_neg hc, Component.valueOf_one, Exponent.val_zero]
      · have hin := hrange (by simpa using htop) (by simpa using hbottom) c hc
        rw [Component.valueIn, valueOf_foldl_assign, if_pos hc, Exponent.ofInt?, dif_pos hin]
        rfl

end Valuation

namespace ModelText

variable {values : ModelText} {v : Valuation} {components : List Component} {id : SlotId}

/-- The integers of a slot are read into a unit if all are in range. -/
theorem foldlM_component_eq_ok
    (hints : ∀ c ∈ components, ∃ raw, values.get? (varName id c.name) = some raw ∧
      VarSort.int.Spells v (varName id c.name) raw)
    (hrange : ∀ c ∈ components, InExponentRange (v.int (varName id c.name))) (unit : Monomial) :
    components.foldlM
        (fun unit c => do return c.assign unit (← values.component (varName id c.name))) unit =
      .ok (components.foldl
        (fun unit c => c.assign unit ((Exponent.ofInt? (v.int (varName id c.name))).getD 0))
        unit) := by
  induction components generalizing unit with
  | nil => rfl
  | cons c rest ih =>
    obtain ⟨⟨raw, hget, hspells⟩, hints⟩ := List.forall_mem_cons.1 hints
    obtain ⟨hin, hrange⟩ := List.forall_mem_cons.1 hrange
    have hcomponent := component_eq_ok hget hspells
      (e := (Exponent.ofInt? (v.int (varName id c.name))).getD 0) (by simp [Exponent.ofInt?, hin])
    rw [List.foldlM_cons, hcomponent]
    exact ih hints hrange _

/-- The first integer out of range is reported. -/
theorem foldlM_component_eq_error
    (hints : ∀ c ∈ components, ∃ raw, values.get? (varName id c.name) = some raw ∧
      VarSort.int.Spells v (varName id c.name) raw)
    (hrange : ¬∀ c ∈ components, InExponentRange (v.int (varName id c.name))) (unit : Monomial) :
    ∃ name raw, components.foldlM
        (fun unit c => do return c.assign unit (← values.component (varName id c.name))) unit =
      .error (.malformed (.notInteger name raw)) := by
  induction components generalizing unit with
  | nil => exact absurd (by simp) hrange
  | cons c rest ih =>
    obtain ⟨⟨raw, hget, hspells⟩, hints⟩ := List.forall_mem_cons.1 hints
    by_cases hin : InExponentRange (v.int (varName id c.name))
    · have hcomponent := component_eq_ok hget hspells (e := ⟨_, hin⟩) rfl
      rw [List.foldlM_cons, hcomponent]
      exact ih hints (fun h => hrange (List.forall_mem_cons.2 ⟨hin, h⟩)) _
    · rw [List.foldlM_cons, component_eq_error hget hspells hin]
      exact ⟨varName id c.name, raw, rfl⟩

section Units

variable {m : Model} {p : Problem} (hp : Problem.ofModel m components = .ok p)
  (hreads : values.Reads p v) (hid : id ∈ m.unknownIds)

include hp hreads hid

theorem reads_slot :
    values.flag (varName id topMarker) = .ok (v.flag (varName id topMarker)) ∧
      values.flag (varName id bottomMarker) = .ok (v.flag (varName id bottomMarker)) ∧
      ∀ c ∈ components, ∃ raw, values.get? (varName id c.name) = some raw ∧
        VarSort.int.Spells v (varName id c.name) raw := by
  have hslot : ∀ d ∈ slotDeclarations components id,
      ∃ raw, values.get? d.1 = some raw ∧ d.2.Spells v d.1 raw := by
    intro d hd
    refine hreads d ?_
    rw [Problem.declarations_ofModel hp]
    exact List.mem_flatMap.2 ⟨id, hid, hd⟩
  simp only [slotDeclarations, List.forall_mem_cons, List.forall_mem_map] at hslot
  obtain ⟨⟨top, htop, htop'⟩, ⟨bottom, hbottom, hbottom'⟩, hints⟩ := hslot
  exact ⟨flag_eq_ok htop htop', flag_eq_ok hbottom hbottom', hints⟩

/-- A slot in range is read as the unit that is described. -/
theorem unitOf_eq_ok (hrange : v.SlotInRange components id) :
    values.unitOf components id = .ok (v.unitOf components id) := by
  obtain ⟨htop, hbottom, hints⟩ := reads_slot hp hreads hid
  rw [unitOf, Valuation.unitOf, htop, hbottom]
  cases htop' : v.flag (varName id topMarker) with
  | true => rfl
  | false =>
    cases hbottom' : v.flag (varName id bottomMarker) with
    | true => rfl
    | false =>
      change (components.foldlM _ _ >>= fun unit => Except.ok (Qualifier.concrete unit)) = _
      rw [foldlM_component_eq_ok hints (hrange htop' hbottom')]
      rfl

/-- A slot that is not in range is reported. -/
theorem unitOf_eq_error (hrange : ¬v.SlotInRange components id) :
    ∃ name raw, values.unitOf components id = .error (.malformed (.notInteger name raw)) := by
  obtain ⟨htop, hbottom, hints⟩ := reads_slot hp hreads hid
  simp only [Valuation.SlotInRange, Classical.not_imp] at hrange
  obtain ⟨htop', hbottom', hrange⟩ := hrange
  obtain ⟨name, raw, hfold⟩ := foldlM_component_eq_error hints hrange Monomial.one
  refine ⟨name, raw, ?_⟩
  rw [unitOf, htop, hbottom, htop', hbottom']
  change (components.foldlM _ _ >>= fun unit => Except.ok (Qualifier.concrete unit)) = _
  rw [hfold]
  rfl

end Units

section Assignment

variable {m : Model} {p : Problem} (hp : Problem.ofModel m components = .ok p)
  (hreads : values.Reads p v)

include hp hreads

theorem assignment_eq_ok (hrange : ∀ id ∈ m.unknownIds, v.SlotInRange components id) :
    values.assignment m components =
      .ok (SortedMap.ofList (m.unknowns.map fun u => (u.1, v.unitOf components u.1))) := by
  have hstep : ∀ u ∈ m.unknowns,
      (do return (u.1, ← values.unitOf components u.1) : Except SolveError (SlotId × Qualifier)) =
        .ok (u.1, v.unitOf components u.1) := by
    intro u hu
    have hid : u.1 ∈ m.unknownIds := List.mem_map_of_mem hu
    rw [unitOf_eq_ok hp hreads hid (hrange u.1 hid)]
    rfl
  rw [assignment, mapM_eq_ok_map hstep]
  rfl

theorem assignment_eq_error (hrange : ¬∀ id ∈ m.unknownIds, v.SlotInRange components id) :
    ∃ name raw, values.assignment m components = .error (.malformed (.notInteger name raw)) := by
  cases hunits : m.unknowns.mapM fun u =>
      (do return (u.1, ← values.unitOf components u.1) : Except SolveError (SlotId × Qualifier)) with
  | ok units =>
    -- all slots are read, so none of them is out of range
    refine absurd (fun id hid => ?_) hrange
    obtain ⟨u, hu, rfl⟩ := List.mem_map.1 hid
    by_contra hout
    obtain ⟨name, raw, herror⟩ := unitOf_eq_error hp hreads hid hout
    obtain ⟨unit, hunit⟩ := exists_mapM_eq_ok_iff.1 ⟨units, hunits⟩ u hu
    obtain ⟨q, hq, -⟩ := bind_eq_ok_iff.1 hunit
    cases herror.symm.trans hq
  | error e =>
    obtain ⟨u, hu, herror⟩ := exists_of_mapM_eq_error hunits
    have hid : u.1 ∈ m.unknownIds := List.mem_map_of_mem hu
    have he : values.unitOf components u.1 = .error e := by
      rcases bind_eq_error_iff.1 herror with he | ⟨q, -, hq⟩
      · exact he
      · cases hq
    by_cases hslot : v.SlotInRange components u.1
    · cases he.symm.trans (unitOf_eq_ok hp hreads hid hslot)
    · obtain ⟨name, raw, hmalformed⟩ := unitOf_eq_error hp hreads hid hslot
      cases he.symm.trans hmalformed
      refine ⟨name, raw, ?_⟩
      rw [assignment, hunits]
      rfl

end Assignment
end ModelText

/-! ## Solving -/

/-- If an engine answers with a text that lists every variable once, with values that satisfy all
assertions, a solve gives every unknown the unit that its flags and integers describe and a check
of these units is clean, unless an unflagged slot has an integer out of range: then the text is
malformed. -/
theorem solve_decodes (engine : Engine) (timeout : Option Nat) (m : Model) (p : Problem)
    (text : String) (v : Valuation) (hnames : ∀ d ∈ m.usedDimensions, Dimensions.ValidName d)
    (hp : Problem.ofModel m m.components = .ok p) (hcheck : engine.check p = .ok (.sat text))
    (htext : Presents text p v) (hv : p.Satisfied v) :
    ((∀ id ∈ m.unknownIds, v.SlotInRange m.components id) →
      ∃ solved, solve engine timeout m = .ok solved ∧ solved.solution.keys = m.unknownIds ∧
        (∀ id ∈ m.unknownIds, ∃ unit, solved.solution.get? id = some unit ∧
          Shows v m.components (.ofUnknown m.components id) unit) ∧
        m.polyAsTop.check solved.solution = .ok []) ∧
    ((¬∀ id ∈ m.unknownIds, v.SlotInRange m.components id) →
      ∃ name raw, solve engine timeout m = .error (.malformed (.notInteger name raw))) := by
  obtain ⟨values, hread, hreads⟩ :=
    ModelText.exists_read_eq_ok htext (declaredNames_nodup hnames hp)
  have hsolve : solve engine timeout m =
      values.assignment m m.components >>= fun s => .ok ⟨s, p.statistics⟩ := by
    simp only [solve, hp, hcheck, hread, bind, Except.bind]
    rfl
  obtain ⟨-, -, hsatisfied⟩ := Problem.ofModel_eq_ok (v := v) hp
  constructor
  · intro hrange
    refine ⟨⟨_, p.statistics⟩, ?_, m.keys_ofList_unknowns (v.unitOf m.components), ?_⟩
    · rw [hsolve, ModelText.assignment_eq_ok hp hreads hrange]
      rfl
    have hshows : ∀ id ∈ m.unknownIds, ∃ unit,
        (SortedMap.ofList (m.unknowns.map fun u => (u.1, v.unitOf m.components u.1))).get? id =
          some unit ∧ Shows v m.components (.ofUnknown m.components id) unit := by
      intro id hid
      refine ⟨_, ?_, Valuation.shows_unitOf ((hsatisfied.1 hv).1 id hid) (hrange id hid)⟩
      rw [m.get?_ofList_unknowns, if_pos hid]
    exact ⟨hshows, ((Problem.satisfied_iff_of_shows hp hshows).1 hv).1⟩
  · intro hrange
    obtain ⟨name, raw, herror⟩ := ModelText.assignment_eq_error hp hreads hrange
    refine ⟨name, raw, ?_⟩
    rw [hsolve, herror]
    rfl

/-- The square of `m` as an unknown. -/
def squareModel : Model where
  slots := #[.constant (.concrete (Monomial.one.set "m" 1)), .unknown "x"]
  constraints := #[.product 0 0 1]

/-- The problem of the square. -/
def squareProblem : Problem :=
  match Problem.ofModel squareModel squareModel.components with
  | .ok p => p
  | .error _ => .empty

/-- The values that satisfy it. -/
def squareValuation : Valuation where
  flag _ := false
  int name := if name = "1-m" then 2 else 0

/-- A model text with blank lines, a line end of two characters and a last line without one. -/
def squareText : String :=
  "\n \n  1-m\t+2 \r\n1-UnitsBottom  false\n\n1-Prefix -0\n1-UnknownUnits false"

theorem presents_squareText : Presents squareText squareProblem squareValuation := by
  refine ⟨[("1-m", "+2"), ("1-UnitsBottom", "false"), ("1-Prefix", "-0"),
    ("1-UnknownUnits", "false")], ?_, by decide +kernel, by decide +kernel⟩
  exact .cons (@Text.ShowsEntry.blank [] (by decide)) <|
    .cons (@Text.ShowsEntry.blank [' '] (by decide)) <|
    .cons (@Text.ShowsEntry.entry [' ', ' '] ['\t'] [' ', '\r'] "1-m" "+2" (by decide) (by decide)
      (by decide) (by decide) (by decide) (by decide)) <|
    .cons (@Text.ShowsEntry.entry [] [' ', ' '] [] "1-UnitsBottom" "false" (by decide) (by decide)
      (by decide) (by decide) (by decide) (by decide)) <|
    .cons (@Text.ShowsEntry.blank [] (by decide)) <|
    .cons (@Text.ShowsEntry.entry [] [' '] [] "1-Prefix" "-0" (by decide) (by decide)
      (by decide) (by decide) (by decide) (by decide)) <|
    .last (@Text.ShowsEntry.entry [] [' '] [] "1-UnknownUnits" "false" (by decide) (by decide)
      (by decide) (by decide) (by decide) (by decide))

theorem solve_decodes_square :
    ∃ solved, solve ⟨"square", fun _ => .ok (.sat squareText)⟩ none squareModel = .ok solved ∧
      solved.solution.keys = squareModel.unknownIds ∧
      (∀ id ∈ squareModel.unknownIds, ∃ unit, solved.solution.get? id = some unit ∧
        Shows squareValuation squareModel.components (.ofUnknown squareModel.components id) unit) ∧
      squareModel.polyAsTop.check solved.solution = .ok [] :=
  (solve_decodes _ none squareModel squareProblem squareText squareValuation (by decide +kernel)
    (by decide +kernel) rfl presents_squareText (by unfold Problem.Satisfied; decide +kernel)).1
    (by unfold Valuation.SlotInRange; decide +kernel)

end Smt
end Metrology
