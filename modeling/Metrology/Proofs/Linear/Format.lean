import Metrology.Linear.Eliminator
import Metrology.Proofs.Linear.Equation
import Metrology.Proofs.Outcome
import Metrology.Proofs.Text

/-!
# The texts of systems and results

A system is handed to an eliminator as text and its results come back as text.  What is read
from such a text means what was written, or the text is refused because a number is too large.
-/

namespace Metrology
namespace Linear

open Text Numeral

/-! ## Equations -/

namespace Equation

/-- The word of a term. -/
def word (t : ℕ × ℤ) : List Char := (toString t.1).toList ++ ':' :: (toString t.2).toList

/-- The line of an equation: the words of its terms, then the right-hand side. -/
theorem toList_render (e : Equation) :
    e.render.toList =
      (e.terms.entries.flatMap fun t => word t ++ [' ']) ++
        '=' :: ' ' :: (toString e.rhs).toList := by
  have hterm : ∀ t : ℕ × ℤ, (s!"{t.1}:{t.2} ").toList = word t ++ [' '] := by
    intro t
    simp only [String.toList_append, word, List.append_assoc]
    rfl
  rw [render, String.toList_append, String.toList_join, List.flatMap_map]
  simp only [hterm, String.toList_append]
  rfl

theorem isSigned_or_eq_of_mem_word {t : ℕ × ℤ} {c : Char} (hc : c ∈ word t) :
    IsSigned c ∨ c = ':' := by
  rcases List.mem_append.1 hc with hc | hc
  · rw [toList_toString_nat] at hc
    exact .inl (.inl (isDigit_of_mem_toDigits t.1 hc))
  · rcases List.mem_cons.1 hc with rfl | hc
    · exact .inr rfl
    · exact .inl (isSigned_of_mem_toString hc)

theorem isBlank_of_mem_word {t : ℕ × ℤ} {c : Char} (hc : c ∈ word t) : isBlank c = false := by
  rcases isSigned_or_eq_of_mem_word hc with hc | rfl
  · exact hc.isBlank_eq_false
  · decide

theorem word_ne_nil (t : ℕ × ℤ) : word t ≠ [] := by
  simp [word]

/-- The words of all terms hold neither an equality sign nor a line end. -/
theorem not_mem_words {e : Equation} {c : Char} (hdigit : c.isDigit = false)
    (hc : c ∉ ['-', ':', ' ']) : c ∉ e.terms.entries.flatMap fun t => word t ++ [' '] := by
  intro hmem
  obtain ⟨t, -, ht⟩ := List.mem_flatMap.1 hmem
  simp only [List.mem_cons, List.not_mem_nil, or_false, not_or] at hc
  rcases List.mem_append.1 ht with ht | ht
  · rcases isSigned_or_eq_of_mem_word ht with ht | ht
    · exact ht.ne hdigit hc.1 rfl
    · exact hc.2.1 ht
  · exact hc.2.2 (List.mem_singleton.1 ht)

theorem isLine_toString (i : ℤ) : IsLine (toString i).toList :=
  isLine_of_not_blank (toString_int_ne_nil i) fun _ hc =>
    (isSigned_of_mem_toString hc).isBlank_eq_false

theorem isLine_render (e : Equation) : IsLine e.render.toList where
  unbroken := by
    rw [toList_render]
    have hwords := not_mem_words (e := e) (c := '\n') (by decide) (by decide)
    rw [List.mem_append, not_or, List.mem_cons, not_or, List.mem_cons, not_or]
    exact ⟨hwords, by decide, by decide, (isLine_toString e.rhs).unbroken⟩
  head := by
    rw [toList_render]
    cases hentries : e.terms.entries with
    | nil => exact ⟨'=', rfl, by decide⟩
    | cons t rest =>
      obtain ⟨c, w, hw⟩ := List.exists_cons_of_ne_nil (word_ne_nil t)
      refine ⟨c, by simp [hw], isBlank_of_mem_word (t := t) (by simp [hw])⟩
  last := by
    obtain ⟨c, hc, hblank⟩ := (isLine_toString e.rhs).last
    refine ⟨c, ?_, hblank⟩
    rw [toList_render, List.getLast?_append, List.getLast?_cons, List.getLast?_cons, hc]
    rfl

theorem splitFirst_word (t : ℕ × ℤ) :
    splitFirst (· == ':') (word t) = some ((toString t.1).toList, (toString t.2).toList) := by
  refine splitFirst_append_cons ?_ (by decide)
  intro c hc
  rw [toList_toString_nat] at hc
  have hsigned : IsSigned c := .inl (isDigit_of_mem_toDigits t.1 hc)
  simpa using hsigned.ne (d := ':') (by decide) (by decide)

/-- A word adds the term that it was written for. -/
theorem eq_addTerm_of_readTerm_word
    {width : ℕ} {line : List Char} {e e' : Equation} {t : ℕ × ℤ}
    (h : readTerm width line e (word t) = .ok e') : t.1 < width ∧ e' = e.addTerm t.1 t.2 := by
  rw [readTerm, splitFirst_word] at h
  simp only at h
  split at h
  · rename_i index coefficient hindex hcoefficient
    split at h
    · cases h
    · rename_i hlt
      cases h
      rw [eq_of_natOfBits?_toString hindex] at hlt ⊢
      rw [eq_of_intOfBits?_toString hcoefficient]
      exact ⟨Nat.not_le.1 hlt, rfl⟩
  · cases h

/-- The words of terms add the terms. -/
theorem eq_foldl_of_foldlM_readTerm
    {width : ℕ} {line : List Char} {terms : List (ℕ × ℤ)} {e e' : Equation}
    (h : (terms.map word).foldlM (readTerm width line) e = .ok e') :
    (∀ t ∈ terms, t.1 < width) ∧ e' = terms.foldl (fun e t => e.addTerm t.1 t.2) e := by
  induction terms generalizing e with
  | nil =>
    cases h
    exact ⟨by simp, rfl⟩
  | cons t rest ih =>
    rw [List.map_cons, List.foldlM_cons, bind_eq_ok_iff] at h
    obtain ⟨e₁, hword, hrest⟩ := h
    obtain ⟨hlt, rfl⟩ := eq_addTerm_of_readTerm_word hword
    obtain ⟨hbelow, heq⟩ := ih hrest
    exact ⟨List.forall_mem_cons.2 ⟨hlt, hbelow⟩, heq⟩

theorem foldl_addTerm_spec
    {width : ℕ} {terms : List (ℕ × ℤ)} (hterms : ∀ t ∈ terms, t.1 < width) {e : Equation}
    (he : e.Below width) (x : ℕ → ℤ) :
    (terms.foldl (fun e t => e.addTerm t.1 t.2) e).Below width ∧
    (terms.foldl (fun e t => e.addTerm t.1 t.2) e).rhs = e.rhs ∧
    (terms.foldl (fun e t => e.addTerm t.1 t.2) e).value x =
      e.value x + terms.foldr (fun t value => t.2 * x t.1 + value) 0 := by
  induction terms generalizing e with
  | nil => exact ⟨he, rfl, (add_zero _).symm⟩
  | cons t rest ih =>
    obtain ⟨ht, hrest⟩ := List.forall_mem_cons.1 hterms
    obtain ⟨hbelow, hrhs, hvalue⟩ := ih hrest (below_addTerm (k := t.2) he ht)
    refine ⟨hbelow, hrhs.trans (rhs_addTerm e t.1 t.2), ?_⟩
    rw [List.foldl_cons, hvalue, value_addTerm, List.foldr_cons, add_assoc]

/-- The line of an equation is cut at the equality sign. -/
theorem read_render (width : ℕ) (e : Equation) :
    read width e.render.toList =
      match intOfBits? 64 (toString e.rhs).toList with
      | none => .error (.badEquation (String.ofList e.render.toList))
      | some value => (e.terms.entries.map word).foldlM (readTerm width e.render.toList)
          (trivial.addRhs value) := by
  have hsplit : splitFirst (· == '=') e.render.toList =
      some (e.terms.entries.flatMap fun t => word t ++ [' '], ' ' :: (toString e.rhs).toList) := by
    rw [toList_render]
    refine splitFirst_append_cons ?_ (by decide)
    intro c hc
    have hne : c ≠ '=' := by
      rintro rfl
      exact not_mem_words (by decide) (by decide) hc
    simpa using hne
  have hwords : words (e.terms.entries.flatMap fun t => word t ++ [' ']) =
      e.terms.entries.map word :=
    words_flatMap (fun t _ => word_ne_nil t) fun t _ c hc => isBlank_of_mem_word hc
  rw [read, hsplit]
  cases hvalue : intOfBits? 64 (toString e.rhs).toList with
  | none => simp only [(isLine_toString e.rhs).trim_cons_space, hvalue]
  | some value => simp only [(isLine_toString e.rhs).trim_cons_space, hvalue, hwords]

/-- An equation that is read from the line of another adds up its terms. -/
theorem eq_foldl_of_read_render
    {width : ℕ} {e e' : Equation} (h : read width e.render.toList = .ok e') :
    e.Below width ∧
      e' = e.terms.entries.foldl (fun e t => e.addTerm t.1 t.2) (trivial.addRhs e.rhs) := by
  rw [read_render] at h
  split at h
  · cases h
  · rename_i value hvalue
    rw [eq_of_intOfBits?_toString hvalue] at h
    exact eq_foldl_of_foldlM_readTerm h

/-- An equation that is read from the line of another has its solutions. -/
theorem holds_iff_of_read_render
    {width : ℕ} {e e' : Equation} (h : read width e.render.toList = .ok e') :
    e'.Below width ∧ ∀ x, e'.Holds x ↔ e.Holds x := by
  obtain ⟨hterms, rfl⟩ := eq_foldl_of_read_render h
  have hstart : (trivial.addRhs e.rhs).Below width := by
    intro t ht
    cases ht
  refine ⟨(foldl_addTerm_spec hterms hstart 0).1, fun x => ?_⟩
  obtain ⟨-, hrhs, hvalue⟩ := foldl_addTerm_spec hterms hstart x
  have hrhs' : (trivial.addRhs e.rhs).rhs = e.rhs := zero_add _
  have hvalue' : (trivial.addRhs e.rhs).value x = 0 := rfl
  rw [Holds, hrhs, hvalue, hrhs', hvalue', zero_add]
  rfl

/-- The numbers of an equation fit into signed words of 64 bits. -/
def Short (e : Equation) : Prop :=
  (∀ t ∈ e.terms.entries, FitsBits 64 t.2) ∧ FitsBits 64 e.rhs

instance (e : Equation) : Decidable e.Short := inferInstanceAs (Decidable (_ ∧ _))

theorem readTerm_word_eq_ok {width : ℕ} (hwidth : width < 2 ^ 64) {t : ℕ × ℤ} (ht : t.1 < width)
    (hshort : FitsBits 64 t.2) (line : List Char) (e : Equation) :
    readTerm width line e (word t) = .ok (e.addTerm t.1 t.2) := by
  have hcoefficient : intOfBits? 64 (toString t.2).toList = some t.2 := intOfBits?_toString hshort
  rw [readTerm, splitFirst_word]
  simp only [natOfBits?_toString (Nat.lt_trans ht hwidth), hcoefficient, if_neg (Nat.not_le.2 ht)]

/-- The line of a short equation is read. -/
theorem exists_read_render_eq_ok {width : ℕ} (hwidth : width < 2 ^ 64) {e : Equation}
    (hbelow : e.Below width) (hshort : e.Short) : ∃ e', read width e.render.toList = .ok e' := by
  have hwords : ∀ (terms : List (ℕ × ℤ)) (start : Equation), (∀ t ∈ terms, t.1 < width) →
      (∀ t ∈ terms, FitsBits 64 t.2) →
      ∃ e', (terms.map word).foldlM (readTerm width e.render.toList) start = .ok e' := by
    intro terms
    induction terms with
    | nil => exact fun start _ _ => ⟨start, rfl⟩
    | cons t rest ih =>
      intro start hterms hsmall
      obtain ⟨ht, hterms⟩ := List.forall_mem_cons.1 hterms
      obtain ⟨hsmall, hrest⟩ := List.forall_mem_cons.1 hsmall
      rw [List.map_cons, List.foldlM_cons, readTerm_word_eq_ok hwidth ht hsmall]
      exact ih (start.addTerm t.1 t.2) hterms hrest
  have hrhs : intOfBits? 64 (toString e.rhs).toList = some e.rhs := intOfBits?_toString hshort.2
  rw [read_render, hrhs]
  exact hwords _ _ hbelow hshort.1

end Equation

/-! ## Systems -/

namespace ComponentSystem

theorem toList_text (s : ComponentSystem) :
    s.text.toList = (toString s.width).toList ++ '\n' :: ((toString s.equations.size).toList ++
      '\n' :: s.equations.keys.flatMap fun k => k.toList ++ ['\n']) := by
  rw [text, String.toList_append, String.toList_join, List.flatMap_map]
  simp only [String.toList_append, List.append_assoc]
  rfl

theorem isLine_toString_nat (n : ℕ) : IsLine (toString n).toList :=
  Equation.isLine_toString n

/-- The lines of a system are the two counts and its equations. -/
theorem filledLines_text {s : ComponentSystem} (h : ∀ k ∈ s.equations.keys, IsLine k.toList) :
    filledLines s.text.toList = (toString s.width).toList :: (toString s.equations.size).toList ::
      s.equations.keys.map String.toList := by
  rw [toList_text, (isLine_toString_nat _).filledLines_append_cons,
    (isLine_toString_nat _).filledLines_append_cons, filledLines_flatMap h]

theorem eq_of_readCount_toString {what : CountLine} {n k : ℕ}
    (h : ReadSystem.readCount what (some (toString n).toList) = .ok k) : k = n := by
  rw [ReadSystem.readCount] at h
  split at h
  · rename_i found hfound
    cases h
    exact eq_of_natOfBits?_toString hfound
  · cases h

/-- A text of a system is read as equations over the same unknowns, one for each line. -/
theorem read_text_eq_ok
    {s : ComponentSystem} (h : ∀ k ∈ s.equations.keys, IsLine k.toList) {found : ReadSystem}
    (hread : ReadSystem.read s.text = .ok found) :
    found.width = s.width ∧
      s.equations.keys.mapM (fun k => Equation.read s.width k.toList) = .ok found.equations := by
  rw [ReadSystem.read, filledLines_text h] at hread
  obtain ⟨width, hwidth, hread⟩ := bind_eq_ok_iff.1 hread
  obtain ⟨declared, -, hread⟩ := bind_eq_ok_iff.1 hread
  obtain ⟨equations, hequations, hread⟩ := bind_eq_ok_iff.1 hread
  have hwidth' : width = s.width := eq_of_readCount_toString hwidth
  subst hwidth'
  rw [List.drop_succ_cons, List.drop_succ_cons, List.drop_zero, List.mapM_map] at hequations
  split at hread
  · cases hread
  · cases hread
    exact ⟨rfl, hequations⟩

/-- A text of a system is read if its counts fit into words of 64 bits and its equations are
short. -/
theorem exists_read_text_eq_ok {s : ComponentSystem} (hwidth : s.width < 2 ^ 64)
    (hsize : s.equations.size < 2 ^ 64)
    (h : ∀ k ∈ s.equations.keys, ∃ e : Equation, e.render = k ∧ e.Below s.width ∧ e.Short) :
    ∃ found, ReadSystem.read s.text = .ok found := by
  have hline : ∀ k ∈ s.equations.keys, IsLine k.toList := by
    intro k hk
    obtain ⟨e, rfl, -⟩ := h k hk
    exact e.isLine_render
  have hread : ∀ k ∈ s.equations.keys, ∃ e, Equation.read s.width k.toList = .ok e := by
    intro k hk
    obtain ⟨e, rfl, hbelow, hshort⟩ := h k hk
    exact Equation.exists_read_render_eq_ok hwidth hbelow hshort
  obtain ⟨equations, hequations⟩ := exists_mapM_eq_ok_iff.2 hread
  have hlength : equations.length = s.equations.size := by
    have hmap := congrArg List.length (mapM_eq_ok_iff.1 hequations)
    rw [List.length_map, List.length_map] at hmap
    rw [← hmap, SortedMap.size_eq_length_keys]
  have hcount : ∀ what n, n < 2 ^ 64 →
      ReadSystem.readCount what (some (toString n).toList) = .ok n := by
    intro what n hn
    simp only [ReadSystem.readCount, natOfBits?_toString hn]
  refine ⟨⟨s.width, equations⟩, ?_⟩
  rw [ReadSystem.read, filledLines_text hline]
  refine bind_eq_ok_iff.2 ⟨s.width, hcount _ _ hwidth, bind_eq_ok_iff.2 ⟨s.equations.size,
    hcount _ _ hsize, bind_eq_ok_iff.2 ⟨equations, ?_, ?_⟩⟩⟩
  · rw [List.drop_succ_cons, List.drop_succ_cons, List.drop_zero, List.mapM_map]
    exact hequations
  · rw [if_neg (not_not.2 hlength)]
    rfl

end ComponentSystem

/-! ## Results -/

namespace Results

/-- The line of a value. -/
def line (v : ℕ × ℚ) : List Char := (toString v.1).toList ++ ' ' :: (renderRational v.2).toList

theorem toList_render_sat (values : List (ℕ × ℚ)) :
    (sat values).render.toList =
      "sat".toList ++ '\n' :: values.flatMap fun v => line v ++ ['\n'] := by
  have hline : ∀ v : ℕ × ℚ, (s!"{v.1} {renderRational v.2}\n").toList = line v ++ ['\n'] := by
    intro v
    simp only [String.toList_append, line, List.append_assoc]
    rfl
  rw [render, String.toList_append, String.toList_join, List.flatMap_map]
  simp only [hline]
  rfl

theorem isLine_renderRational (q : ℚ) : IsLine (renderRational q).toList := by
  by_cases hden : q.den = 1
  · rw [renderRational, if_pos hden]
    exact Equation.isLine_toString q.num
  · have htext : (renderRational q).toList =
        (toString q.num).toList ++ ['/'] ++ (toString (q.den : ℤ)).toList := by
      rw [renderRational, if_neg hden]
      simp only [String.toList_append]
      rfl
    rw [htext]
    exact (Equation.isLine_toString _).append (Equation.isLine_toString _) (by decide)

theorem isLine_line (v : ℕ × ℚ) : IsLine (line v) := by
  have hline : line v = (toString v.1).toList ++ [' '] ++ (renderRational v.2).toList := by
    simp [line]
  rw [hline]
  exact (ComponentSystem.isLine_toString_nat _).append (isLine_renderRational _) (by decide)

theorem splitFirst_line (v : ℕ × ℚ) :
    splitFirst isBlank (line v) = some ((toString v.1).toList, (renderRational v.2).toList) := by
  refine splitFirst_append_cons ?_ (by decide)
  intro c hc
  rw [toList_toString_nat] at hc
  exact IsSigned.isBlank_eq_false (.inl (isDigit_of_mem_toDigits v.1 hc))

/-- A written value is read as itself or not at all. -/
theorem eq_of_readValue_line {v v' : ℕ × ℚ} (h : readValue (line v) = .ok v') : v' = v := by
  rw [readValue, splitFirst_line] at h
  simp only [(isLine_renderRational v.2).trim_eq_self, rational?_renderRational] at h
  split at h
  · rename_i index value hindex hvalue
    cases h
    cases hvalue
    rw [eq_of_natOfBits?_toString hindex]
  · cases h

theorem readValue_line_eq_ok {v : ℕ × ℚ} (h : v.1 < 2 ^ 64) : readValue (line v) = .ok v := by
  rw [readValue, splitFirst_line]
  simp only [(isLine_renderRational v.2).trim_eq_self, rational?_renderRational,
    natOfBits?_toString h]

/-- The values of an answer are read line by line. -/
theorem read_render_sat (values : List (ℕ × ℚ)) :
    read (sat values).render = (values.mapM fun v => readValue (line v)).map sat := by
  have hverdict : IsLine "sat".toList := isLine_of_not_blank (by decide) (by simp [isBlank])
  rw [read, toList_render_sat, hverdict.filledLines_append_cons,
    filledLines_flatMap fun v _ => isLine_line v]
  simp only
  rw [if_neg (by decide), if_pos trivial, List.mapM_map]
  rfl

/-- Written results are read as themselves or not at all. -/
theorem eq_of_read_render {r r' : Results} (h : read r.render = .ok r') : r' = r := by
  cases r with
  | unsat =>
    have hread : read unsat.render = .ok unsat := by decide
    rw [hread] at h
    exact (Except.ok.inj h).symm
  | sat values =>
    rw [read_render_sat, map_eq_ok_iff] at h
    obtain ⟨found, hfound, rfl⟩ := h
    rw [eq_map_of_mapM_eq_ok hfound fun v _ v' hv => eq_of_readValue_line hv, List.map_id']

/-- Written values of unknowns whose numbers fit into words of 64 bits are read back. -/
theorem read_render_sat_eq_ok {values : List (ℕ × ℚ)} (h : ∀ v ∈ values, v.1 < 2 ^ 64) :
    read (sat values).render = .ok (sat values) := by
  rw [read_render_sat, mapM_eq_ok_map fun v hv => readValue_line_eq_ok (h v hv), List.map_id']
  rfl

end Results

end Linear
end Metrology
