import Metrology.Proofs.Smt.Decoding
import Mathlib.Data.List.Perm.Basic

/-!
# Locations in scripts

The location of an unknown slot is text from outside.  A script quotes it in the comment above the
assertion that the slot is well-formed, and a line feed in the location ends that comment.  Two
models that differ in locations only have scripts that agree outside comments as long as every
line feed of a location is followed by a semicolon, which makes the next line a comment too.  Any
other line feed adds lines to the script.
-/

namespace Metrology

/-! ## Lines -/

namespace Text

section Pieces

variable {p : Char → Bool}

/-- A separator divides the pieces of a text. -/
theorem pieces_append_separator {s : Char} (hs : p s = true) (before after : List Char) :
    pieces p (before ++ s :: after) = pieces p before ++ pieces p after := by
  induction before with
  | nil => simp [pieces, hs]
  | cons c before ih =>
    cases hc : p c with
    | true => simp [pieces, hc, ih]
    | false =>
      obtain ⟨piece, more, heq⟩ := List.exists_cons_of_ne_nil (pieces_ne_nil p before)
      simp [pieces, hc, ih, heq]

theorem tail_pieces_cons_of_not {c : Char} (hc : p c = false) (rest : List Char) :
    (pieces p (c :: rest)).tail = (pieces p rest).tail := by
  obtain ⟨piece, more, heq, hcons⟩ := pieces_cons_of_not hc rest
  rw [hcons, heq]
  rfl

end Pieces
end Text

namespace Smt

open Text

/-- The lines of a text that do not start with a semicolon. -/
def uncommented (text : List Char) : List (List Char) :=
  (pieces (· == '\n') text).filter fun line => line.head? != some ';'

/-- The lines after the first that do not start with a semicolon. -/
def escaped (text : List Char) : List (List Char) :=
  (pieces (· == '\n') text).tail.filter fun line => line.head? != some ';'

/-- Every line feed is followed by a semicolon. -/
def Inert (text : List Char) : Prop := ∀ rest, '\n' :: rest <:+ text → rest.head? = some ';'

theorem uncommented_append_newline (before after : List Char) :
    uncommented (before ++ '\n' :: after) = uncommented before ++ uncommented after := by
  rw [uncommented, pieces_append_separator (by decide), List.filter_append]
  rfl

theorem escaped_newline_cons (rest : List Char) : escaped ('\n' :: rest) = uncommented rest := rfl

theorem escaped_cons {c : Char} (hc : c ≠ '\n') (rest : List Char) :
    escaped (c :: rest) = escaped rest := by
  rw [escaped, tail_pieces_cons_of_not (by simpa using hc)]
  rfl

theorem escaped_append {before : List Char} (h : '\n' ∉ before) (after : List Char) :
    escaped (before ++ after) = escaped after := by
  induction before with
  | nil => rfl
  | cons c before ih =>
    obtain ⟨hc, hbefore⟩ := not_or.1 (mt List.mem_cons.2 h)
    rw [List.cons_append, escaped_cons (Ne.symm hc), ih hbefore]

/-- Of a comment only the lines after its first can show. -/
theorem uncommented_semicolon_cons (comment : List Char) :
    uncommented (';' :: comment) = escaped comment := by
  obtain ⟨piece, more, heq, hcons⟩ := pieces_cons_of_not (p := (· == '\n')) (c := ';')
    (by decide) comment
  rw [uncommented, escaped, hcons, heq]
  rfl

theorem uncommented_eq_nil_iff {text : List Char} :
    uncommented text = [] ↔ text.head? = some ';' ∧ escaped text = [] := by
  cases text with
  | nil => decide
  | cons c rest =>
    by_cases hc : c = '\n'
    · subst hc
      simp [uncommented, pieces]
    · obtain ⟨piece, more, heq, hcons⟩ := pieces_cons_of_not (p := (· == '\n')) (c := c)
        (by simpa using hc) rest
      rw [uncommented, escaped, hcons]
      by_cases hsemicolon : c = ';' <;> simp [hsemicolon]

theorem inert_cons_iff {c : Char} {rest : List Char} :
    Inert (c :: rest) ↔ (c = '\n' → rest.head? = some ';') ∧ Inert rest := by
  constructor
  · intro h
    constructor
    · rintro rfl
      exact h rest List.suffix_rfl
    · intro after hafter
      exact h after (hafter.trans (List.suffix_cons c rest))
  · rintro ⟨hc, hrest⟩ after hafter
    rcases List.suffix_cons_iff.1 hafter with heq | hsuffix
    · obtain ⟨rfl, rfl⟩ := List.cons.inj heq
      exact hc rfl
    · exact hrest after hsuffix

instance decidableInert : (text : List Char) → Decidable (Inert text)
  | [] => isTrue fun _ h => absurd (List.suffix_nil.1 h) (List.cons_ne_nil _ _)
  | _ :: rest =>
    have := decidableInert rest
    decidable_of_iff' _ inert_cons_iff

/-- Nothing of an inert text escapes from a comment, and something of any other text does. -/
theorem escaped_append_eq_nil_iff {text after : List Char} {c : Char} (hc : c ≠ ';')
    (hafter : '\n' ∉ c :: after) : escaped (text ++ c :: after) = [] ↔ Inert text := by
  induction text with
  | nil =>
    have hnil : escaped (c :: after) = [] := by
      rw [← List.append_nil (c :: after), escaped_append hafter]
      rfl
    simp [hnil, Inert]
  | cons d text ih =>
    rw [List.cons_append, inert_cons_iff]
    by_cases hd : d = '\n'
    · have hhead : (text ++ c :: after).head? = some ';' ↔ text.head? = some ';' := by
        cases text <;> simp [hc]
      rw [hd, escaped_newline_cons, uncommented_eq_nil_iff, hhead, ih]
      simp
    · rw [escaped_cons hd, ih]
      simp [hd]

end Smt

/-! ## Models without locations -/

/-- The slot with its location left out. -/
def Slot.unlocated : Slot → Slot
  | constant unit => constant unit
  | unknown _ => unknown ""

/-- The operand with its location left out. -/
def Operand.unlocated (o : Operand) : Operand := ⟨o.id, o.slot.unlocated⟩

namespace Model

variable {m : Model}

/-- The model with all locations left out. -/
def unlocated (m : Model) : Model := { m with slots := m.slots.map Slot.unlocated }

theorem numbered_unlocated : m.unlocated.numbered = m.numbered.map fun e => (e.1, e.2.unlocated) := by
  simp [numbered, unlocated, List.zipIdx_map, Function.comp_def]

theorem unknownIds_unlocated : m.unlocated.unknownIds = m.unknownIds := by
  rw [unknownIds, unknownIds, unknowns, unknowns, numbered_unlocated, List.filterMap_map,
    List.map_filterMap, List.map_filterMap]
  apply List.filterMap_congr
  rintro ⟨id, slot⟩ -
  cases slot <;> rfl

theorem constants_unlocated : m.unlocated.constants = m.constants := by
  rw [constants, constants, numbered_unlocated, List.filterMap_map]
  apply List.filterMap_congr
  rintro ⟨id, slot⟩ -
  cases slot <;> rfl

theorem components_unlocated : m.unlocated.components = m.components := by
  rw [components, components, usedDimensions, usedDimensions, constants_unlocated]

theorem operandAt_unlocated (id : SlotId) :
    m.unlocated.operandAt id = (m.operandAt id).unlocated := by
  rw [operandAt, unlocated, Array.getElem?_map]
  cases hslot : m.slots[id]? <;> simp [operandAt, Operand.unlocated, Slot.unlocated, hslot]

theorem operandConstraints_unlocated :
    m.unlocated.operandConstraints = m.operandConstraints.map (Constraint.map Operand.unlocated) := by
  rw [operandConstraints, operandConstraints, List.map_map]
  apply List.map_congr_left
  intro c _
  rw [Function.comp_apply, Constraint.map_map]
  exact Constraint.map_congr fun id _ => operandAt_unlocated id

end Model

namespace Smt

open Text

/-! ## The parts of a problem -/

/-- The assertion that an unknown slot is well-formed. -/
def slotAssertion (components : List Component) (slot : SlotId × String) : Assertion :=
  ⟨s!"wf{slot.1}", s!"slot #{slot.1} ({slot.2}) is well-formed",
    (View.ofUnknown components slot.1).wellFormed⟩

/-- The assertion of a numbered constraint, unless its formula is true. -/
def constraintAssertions (components : List Component) (c : Constraint Operand × Nat) :
    List Assertion :=
  (Problem.empty.assert s!"c{c.2}" (c.1.map Operand.id).render
    (View.formula (c.1.map (View.ofOperand components)))).hard

theorem wellFormed_ofUnknown_ne_true (components : List Component) (id : SlotId) :
    (View.ofUnknown components id).wellFormed ≠ .lit true := by
  -- A valuation with both flags set falsifies the formula.
  intro h
  have hholds := View.holds_wellFormed_iff.1
    (show (View.ofUnknown components id).wellFormed.holds ⟨fun _ => true, fun _ => 0⟩ = true from
      h ▸ rfl)
  exact hholds.1 ⟨rfl, rfl⟩

namespace Problem

variable {components : List Component} {p p' : Problem}

theorem hard_assert {label origin : String} {f : Formula} :
    (p.assert label origin f).hard = p.hard ++ (empty.assert label origin f).hard := by
  unfold assert
  split <;> simp [empty]

theorem hard_addUnknown {slot : SlotId × String} :
    (addUnknown components p slot).hard = p.hard ++ [slotAssertion components slot] := by
  rw [addUnknown, hard_prefer, assert, if_neg (wellFormed_ofUnknown_ne_true _ _),
    hard_foldl_declare]
  rfl

theorem hard_foldl_addUnknown {slots : List (SlotId × String)} :
    (slots.foldl (addUnknown components) p).hard =
      p.hard ++ slots.map (slotAssertion components) := by
  induction slots generalizing p with
  | nil => simp
  | cons slot rest ih =>
    rw [List.foldl_cons, ih, hard_addUnknown, List.append_assoc, List.map_cons]
    rfl

theorem soft_assert {label origin : String} {f : Formula} :
    (p.assert label origin f).soft = p.soft := by
  unfold assert
  split <;> rfl

theorem soft_prefer {f : Formula} {weight : Nat} :
    (p.prefer f weight).soft = p.soft ++ (empty.prefer f weight).soft := by
  unfold prefer
  split <;> simp [empty]

theorem soft_foldl_declare {id : SlotId} :
    (components.foldl (fun p c => p.declare (varName id c.name) .int) p).soft = p.soft := by
  induction components generalizing p with
  | nil => rfl
  | cons c rest ih =>
    rw [List.foldl_cons, ih]
    rfl

theorem soft_foldl_addUnknown {slots : List (SlotId × String)} :
    (slots.foldl (addUnknown components) p).soft =
      p.soft ++ (slots.map Prod.fst).flatMap fun id =>
        (empty.prefer (View.ofUnknown components id).concrete 1).soft := by
  induction slots generalizing p with
  | nil => simp
  | cons slot rest ih =>
    rw [List.foldl_cons, ih, addUnknown, soft_prefer, soft_assert, soft_foldl_declare,
      List.append_assoc, List.map_cons, List.flatMap_cons]
    rfl

theorem foldlM_addConstraint_parts {constraints : List (Constraint Operand × Nat)}
    (h : constraints.foldlM (addConstraint components) p = .ok p') :
    p'.hard = p.hard ++ constraints.flatMap (constraintAssertions components) ∧
      p'.soft = p.soft := by
  induction constraints generalizing p with
  | nil =>
    cases h
    simp
  | cons c rest ih =>
    rw [List.foldlM_cons, bind_eq_ok_iff] at h
    obtain ⟨p₁, hc, hrest⟩ := h
    obtain ⟨f, hf, hp₁⟩ := bind_eq_ok_iff.1 hc
    cases hp₁
    obtain ⟨-, rfl⟩ := encodeConstraint_eq_ok_iff.1 hf
    obtain ⟨hhard, hsoft⟩ := ih hrest
    rw [hhard, hsoft, soft_assert, hard_assert, List.append_assoc, List.flatMap_cons]
    exact ⟨rfl, rfl⟩

/-- A problem asserts the form of the unknowns and then the constraints, and prefers the unknowns
concrete. -/
theorem parts_ofModel {m : Model} (h : ofModel m components = .ok p) :
    p.hard = m.unknowns.map (slotAssertion components) ++
        m.operandConstraints.zipIdx.flatMap (constraintAssertions components) ∧
      p.soft = m.unknownIds.flatMap fun id =>
        (empty.prefer (View.ofUnknown components id).concrete 1).soft := by
  obtain ⟨-, h⟩ := foldlM_of_ofModel_eq_ok h
  obtain ⟨hhard, hsoft⟩ := foldlM_addConstraint_parts h
  rw [hhard, hsoft, hard_foldl_addUnknown, soft_foldl_addUnknown]
  exact ⟨rfl, rfl⟩

end Problem

theorem constraintAssertions_unlocated (components : List Component)
    (c : Constraint Operand × Nat) :
    constraintAssertions components (c.1.map Operand.unlocated, c.2) =
      constraintAssertions components c := by
  have hview : View.ofOperand components ∘ Operand.unlocated = View.ofOperand components := by
    funext o
    obtain ⟨id, slot⟩ := o
    cases slot <;> rfl
  have hid : Operand.id ∘ Operand.unlocated = Operand.id := rfl
  rw [constraintAssertions, constraintAssertions, Constraint.map_map, Constraint.map_map, hview,
    hid]

/-- The assertions of constraints do not show locations. -/
theorem flatMap_constraintAssertions_unlocated (components : List Component) (m : Model) :
    m.unlocated.operandConstraints.zipIdx.flatMap (constraintAssertions components) =
      m.operandConstraints.zipIdx.flatMap (constraintAssertions components) := by
  rw [Model.operandConstraints_unlocated, List.zipIdx_map, List.flatMap_map]
  apply List.flatMap_congr
  intro c _
  exact constraintAssertions_unlocated components c

/-! ## Scripts outside comments -/

/-- What an assertion adds to a script outside comments. -/
def assertionText (a : Assertion) : List (List Char) :=
  (Problem.assertionLines a).flatMap fun line => uncommented line.toList

/-- The line that asserts the form of an unknown slot. -/
def formText (components : List Component) (id : SlotId) : List (List Char) :=
  let formula := (View.ofUnknown components id).wellFormed
  let label := s!"wf{id}"
  uncommented s!"(assert (! {formula} :named {label}))".toList

/-- What an unknown slot adds to a script outside comments: what escapes from the comment with
its location, and the assertion itself. -/
def slotText (components : List Component) (slot : SlotId × String) : List (List Char) :=
  escaped (slot.2.toList ++ ") is well-formed".toList) ++ formText components slot.1

theorem newline_not_mem_toString (n : Nat) : '\n' ∉ (toString n).toList := by
  rw [Numeral.toList_toString_nat]
  intro h
  exact absurd (Numeral.isDigit_of_mem_toDigits n h) (by decide)

theorem assertionText_slotAssertion (components : List Component) (slot : SlotId × String) :
    assertionText (slotAssertion components slot) = slotText components slot := by
  -- Only the location can break the comment's line: the words and the number around it are unbroken.
  have hlead : '\n' ∉ " slot #".toList ++ (toString slot.1).toList ++ " (".toList := by
    rw [List.mem_append, List.mem_append]
    rintro ((h | h) | h)
    · exact absurd h (by decide)
    · exact newline_not_mem_toString _ h
    · exact absurd h (by decide)
  have hcomment : (s!"; {(slotAssertion components slot).origin}").toList =
      ';' :: (" slot #".toList ++ (toString slot.1).toList ++ " (".toList ++
        (slot.2.toList ++ ") is well-formed".toList)) := by
    change ("; " ++ ("slot #" ++ toString slot.1 ++ " (" ++ slot.2 ++ ") is well-formed")).toList = _
    simp only [String.toList_append, List.append_assoc]
    rfl
  rw [assertionText, Problem.assertionLines, List.flatMap_cons, List.flatMap_singleton, hcomment,
    uncommented_semicolon_cons, escaped_append hlead]
  rfl

namespace Problem

variable {p p' : Problem}

theorem uncommented_script (p : Problem) :
    uncommented p.script.toList = p.lines.flatMap (fun line => uncommented line.toList) ++ [[]] := by
  rw [script, String.toList_join, List.flatMap_map]
  induction p.lines with
  | nil => rfl
  | cons line rest ih =>
    have hline : (line ++ "\n").toList = line.toList ++ ['\n'] := String.toList_append
    rw [List.flatMap_cons, List.flatMap_cons, hline, List.append_assoc, List.singleton_append,
      uncommented_append_newline, ih, List.append_assoc]

/-- Problems that differ in assertions only have scripts that differ in them only. -/
theorem uncommented_script_eq_iff_hard (hdeclarations : p.declarations = p'.declarations)
    (hsoft : p.soft = p'.soft) :
    uncommented p.script.toList = uncommented p'.script.toList ↔
      p.hard.flatMap assertionText = p'.hard.flatMap assertionText := by
  rw [uncommented_script, uncommented_script, lines, lines, hdeclarations, hsoft]
  simp only [List.flatMap_append, List.flatMap_assoc, List.append_cancel_right_eq,
    List.append_cancel_left_eq]
  rfl

/-- Of two models that differ in locations only, the scripts agree outside comments exactly if
the texts of their unknown slots do. -/
theorem uncommented_script_eq_iff_slotText {m m' : Model} (h : m.unlocated = m'.unlocated)
    (hp : ofModel m m.components = .ok p) (hp' : ofModel m' m'.components = .ok p') :
    uncommented p.script.toList = uncommented p'.script.toList ↔
      m.unknowns.flatMap (slotText m.components) =
        m'.unknowns.flatMap (slotText m.components) := by
  have hcomponents : m'.components = m.components := by
    rw [← Model.components_unlocated, ← h, Model.components_unlocated]
  have hids : m'.unknownIds = m.unknownIds := by
    rw [← Model.unknownIds_unlocated, ← h, Model.unknownIds_unlocated]
  have hconstraints : m'.operandConstraints.zipIdx.flatMap (constraintAssertions m.components) =
      m.operandConstraints.zipIdx.flatMap (constraintAssertions m.components) := by
    rw [← flatMap_constraintAssertions_unlocated, ← h, flatMap_constraintAssertions_unlocated]
  rw [hcomponents] at hp'
  obtain ⟨hhard, hsoft⟩ := parts_ofModel hp
  obtain ⟨hhard', hsoft'⟩ := parts_ofModel hp'
  rw [hids] at hsoft'
  have hdeclarations : p.declarations = p'.declarations := by
    rw [declarations_ofModel hp, declarations_ofModel hp', hids]
  rw [uncommented_script_eq_iff_hard hdeclarations (hsoft.trans hsoft'.symm), hhard, hhard',
    hconstraints, List.flatMap_append, List.flatMap_append, List.append_left_inj,
    List.flatMap_map, List.flatMap_map]
  simp only [assertionText_slotAssertion]

end Problem

theorem escaped_location_eq_nil_iff {location : String} :
    escaped (location.toList ++ ") is well-formed".toList) = [] ↔ Inert location.toList :=
  escaped_append_eq_nil_iff (c := ')') (by decide) (by decide)

theorem flatMap_append_eq_flatMap_iff {α β : Type} {f g : α → List β} {l : List α} :
    (l.flatMap fun a => f a ++ g a) = l.flatMap g ↔ ∀ a ∈ l, f a = [] := by
  constructor
  · intro h
    have hlength := (List.flatMap_append_perm l f g).length_eq
    rw [h, List.length_append] at hlength
    have hnil : l.flatMap f = [] := List.length_eq_zero_iff.1 (by omega)
    exact List.flatMap_eq_nil_iff.1 hnil
  · intro h
    apply List.flatMap_congr
    intro a ha
    rw [h a ha, List.nil_append]

/-- The slots of a model add their assertions only exactly if all locations are inert. -/
theorem flatMap_slotText_eq_iff {m : Model} {components : List Component} :
    m.unknowns.flatMap (slotText components) = m.unknownIds.flatMap (formText components) ↔
      ∀ slot ∈ m.unknowns, Inert slot.2.toList := by
  rw [Model.unknownIds, List.flatMap_map]
  refine flatMap_append_eq_flatMap_iff.trans (forall₂_congr fun slot _ => ?_)
  exact escaped_location_eq_nil_iff

section Locations

variable {m m' : Model} {p p' : Problem}

/-- Inert locations can be exchanged for inert ones only. -/
theorem uncommented_script_eq_iff_of_inert (h : m.unlocated = m'.unlocated)
    (hp : Problem.ofModel m m.components = .ok p) (hp' : Problem.ofModel m' m'.components = .ok p')
    (hinert : ∀ slot ∈ m.unknowns, Inert slot.2.toList) :
    uncommented p.script.toList = uncommented p'.script.toList ↔
      ∀ slot ∈ m'.unknowns, Inert slot.2.toList := by
  have hids : m.unknownIds = m'.unknownIds := by
    rw [← Model.unknownIds_unlocated, h, Model.unknownIds_unlocated]
  rw [Problem.uncommented_script_eq_iff_slotText h hp hp', flatMap_slotText_eq_iff.2 hinert, hids,
    eq_comm]
  exact flatMap_slotText_eq_iff

/-- Locations reach a script outside comments only by the lines that escape from their comments:
the scripts of two models that differ in locations only agree there exactly if the unknown slots
add the same lines.  If the locations of one model are inert, they agree exactly if those of the
other are. -/
theorem uncommented_script_eq_iff (h : m.unlocated = m'.unlocated)
    (hp : Problem.ofModel m m.components = .ok p)
    (hp' : Problem.ofModel m' m'.components = .ok p') :
    (uncommented p.script.toList = uncommented p'.script.toList ↔
      m.unknowns.flatMap (slotText m.components) =
        m'.unknowns.flatMap (slotText m.components)) ∧
    ((∀ slot ∈ m.unknowns, Inert slot.2.toList) →
      (uncommented p.script.toList = uncommented p'.script.toList ↔
        ∀ slot ∈ m'.unknowns, Inert slot.2.toList)) := by
  constructor
  · exact Problem.uncommented_script_eq_iff_slotText h hp hp'
  · intro hinert
    exact uncommented_script_eq_iff_of_inert h hp hp' hinert

end Locations

/-- Two unknown slots of the same unit, the first at a given location. -/
def locatedModel (location : String) : Model :=
  { slots := #[.unknown location, .unknown "y"], constraints := #[.equal 0 1] }

theorem unlocated_locatedModel (location location' : String) :
    (locatedModel location).unlocated = (locatedModel location').unlocated := by
  simp [Model.unlocated, locatedModel, Slot.unlocated]

/-- A location of two lines, the second a comment of its own. -/
theorem uncommented_script_eq_iff_commented :
    ∃ p p', Problem.ofModel (locatedModel "x") (locatedModel "x").components = .ok p ∧
      Problem.ofModel (locatedModel "x\n; y") (locatedModel "x\n; y").components = .ok p' ∧
      uncommented p.script.toList = uncommented p'.script.toList := by
  refine ⟨_, _, rfl, rfl, ?_⟩
  have hscripts := uncommented_script_eq_iff (unlocated_locatedModel "x" "x\n; y") rfl rfl
  exact (hscripts.2 (by decide)).2 (by decide)

/-- A location that ends its comment and asserts what never holds. -/
theorem uncommented_script_ne_of_assertion :
    ∃ p p', (locatedModel "x").unlocated = (locatedModel "x\n(assert false)\n;").unlocated ∧
      Problem.ofModel (locatedModel "x") (locatedModel "x").components = .ok p ∧
      Problem.ofModel (locatedModel "x\n(assert false)\n;")
        (locatedModel "x\n(assert false)\n;").components = .ok p' ∧
      uncommented p.script.toList ≠ uncommented p'.script.toList := by
  have hunlocated := unlocated_locatedModel "x" "x\n(assert false)\n;"
  refine ⟨_, _, hunlocated, rfl, rfl, ?_⟩
  intro heq
  have hinert := (uncommented_script_eq_iff_of_inert hunlocated rfl rfl (by decide)).1 heq
  exact absurd hinert (by decide)

end Smt
end Metrology
