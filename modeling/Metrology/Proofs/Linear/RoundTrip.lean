import Metrology.Proofs.Linear.Eliminator
import Metrology.Text.Utf8
import Mathlib.Data.List.Dedup

/-!
# Systems and results that are read back

A system keeps its equations by their lines, each line once.  An equation that is built term by
term stores no zero, so its line determines it, and the text of a system is read as its equations
in the order of their lines.  Results of an elimination are read back as they were written.
-/

namespace Metrology

/-! ## The order of bytes -/

namespace Utf8

theorem toList_loop_eq (bytes : ByteArray) (i : ℕ) (before : List UInt8) :
    ByteArray.toList.loop bytes i before = before.reverse ++ bytes.data.toList.drop i := by
  fun_induction ByteArray.toList.loop bytes i before with
  | case1 i before hlt ih =>
    have hi : i < bytes.data.toList.length := by simpa using hlt
    rw [ih, List.drop_eq_getElem_cons hi]
    simp [ByteArray.get!, hlt]
  | case2 i before hge =>
    rw [List.drop_eq_nil_of_le (by simpa using hge), List.append_nil]

/-- A text of ASCII characters has one byte for each of them. -/
theorem encode_eq_map {s : String} (h : ∀ c ∈ s.toList, c.val ≤ 127) :
    encode s = s.toList.map fun c => c.val.toUInt8 := by
  have hchars : s.toList.flatMap String.utf8EncodeChar = s.toList.map fun c => c.val.toUInt8 := by
    rw [List.map_eq_flatMap]
    refine List.flatMap_congr fun c hc => ?_
    exact String.utf8EncodeChar_eq_singleton (Char.utf8Size_eq_one_iff.2 (h c hc))
  have hbytes : s.toUTF8 = (s.toList.flatMap String.utf8EncodeChar).toByteArray := by
    rw [String.toUTF8_eq_toByteArray, ← String.ofList_toList (s := s), String.toByteArray_ofList,
      String.toList_ofList]
    rfl
  rw [encode, ByteArray.toList, toList_loop_eq, hbytes, hchars, List.data_toByteArray]
  rfl

theorem toUInt8_lt_toUInt8 {c d : Char} (h : c < d) (hd : d.val ≤ 127) :
    c.val.toUInt8 < d.val.toUInt8 := by
  have hlt : c.val.toNat < d.val.toNat := UInt32.lt_iff_toNat_lt.1 h
  have hle : d.val.toNat ≤ 127 := UInt32.le_iff_toNat_le.1 hd
  rw [UInt8.lt_iff_toNat_lt, UInt32.toNat_toUInt8, UInt32.toNat_toUInt8]
  omega

theorem map_toUInt8_lt_map {a b : List Char} (hb : ∀ c ∈ b, c.val ≤ 127) (h : a < b) :
    (a.map fun c => c.val.toUInt8) < b.map fun c => c.val.toUInt8 := by
  induction a generalizing b with
  | nil =>
    cases b with
    | nil => exact absurd h (List.not_lt_nil _)
    | cons d b => exact List.nil_lt_cons _ _
  | cons c a ih =>
    cases b with
    | nil => exact absurd h (List.not_lt_nil _)
    | cons d b =>
      obtain ⟨hd, hrest⟩ := List.forall_mem_cons.1 hb
      rw [List.map_cons, List.map_cons, List.cons_lt_cons_iff]
      rcases List.cons_lt_cons_iff.1 h with hcd | ⟨rfl, hab⟩
      · exact .inl (toUInt8_lt_toUInt8 hcd hd)
      · exact .inr ⟨rfl, ih hrest hab⟩

/-- ASCII texts are in the order of their bytes. -/
theorem encode_lt_encode {s t : String} (hs : ∀ c ∈ s.toList, c.val ≤ 127)
    (ht : ∀ c ∈ t.toList, c.val ≤ 127) (h : s < t) : encode s < encode t := by
  rw [encode_eq_map hs, encode_eq_map ht]
  exact map_toUInt8_lt_map ht (String.lt_iff.1 h)

end Utf8

namespace Linear

open Numeral

/-! ## Equations -/

namespace Equation

/-- The equations over `width` unknowns that are built term by term while no coefficient and no
right-hand side leaves the signed words of 64 bits. -/
inductive Built (width : ℕ) : Equation → Prop
  | trivial : Built width trivial
  | addTerm {e : Equation} {i : ℕ} {k : ℤ} (he : Built width e) (hi : i < width)
      (hk : FitsBits 64 (e.coefficient i + k)) : Built width (e.addTerm i k)
  | addRhs {e : Equation} {k : ℤ} (he : Built width e) (hk : FitsBits 64 (e.rhs + k)) :
      Built width (e.addRhs k)

/-- No coefficient is stored as zero. -/
def Reduced (e : Equation) : Prop := ∀ t ∈ e.terms.entries, t.2 ≠ 0

variable {width : ℕ} {e : Equation}

theorem Built.below_width (h : e.Built width) : e.Below width := by
  induction h with
  | trivial =>
    intro t ht
    cases ht
  | addTerm _ hi _ ih => exact below_addTerm ih hi
  | addRhs _ _ ih => exact ih

theorem reduced_trivial : trivial.Reduced := by
  intro t ht
  cases ht

theorem Reduced.addTerm (h : e.Reduced) (i : ℕ) (k : ℤ) : (e.addTerm i k).Reduced := by
  intro t ht
  rcases mem_entries_addTerm ht with ⟨-, hne⟩ | ht
  · exact hne
  · exact h t ht

theorem Built.reduced (h : e.Built width) : e.Reduced := by
  induction h with
  | trivial => exact reduced_trivial
  | addTerm _ _ _ ih => exact ih.addTerm _ _
  | addRhs _ _ ih => exact ih

theorem Built.short (h : e.Built width) : e.Short := by
  induction h with
  | trivial =>
    refine ⟨fun t ht => ?_, by decide⟩
    cases ht
  | addTerm _ _ hk ih =>
    refine ⟨fun t ht => ?_, ?_⟩
    · rcases mem_entries_addTerm ht with ⟨rfl, -⟩ | ht
      · exact hk
      · exact ih.1 t ht
    · rw [rhs_addTerm]
      exact ih.2
  | addRhs _ hk ih => exact ⟨ih.1, hk⟩

/-- A term of an unknown that has none yet is stored as it is. -/
theorem addTerm_of_fresh {i : ℕ} {k : ℤ} (hi : e.terms.get? i = none) (hk : k ≠ 0) :
    e.addTerm i k = { e with terms := e.terms.insert i k } := by
  have hsum : e.coefficient i + k = k := by
    rw [coefficient, hi, Option.getD_none, zero_add]
  rw [addTerm_of_ne_zero (hsum.symm ▸ hk), hsum]

/-- Terms of different unknowns that have none yet are stored as they are. -/
theorem foldl_addTerm_of_fresh {terms : List (ℕ × ℤ)}
    (hsorted : terms.Pairwise fun a b => a.1 < b.1) (hne : ∀ t ∈ terms, t.2 ≠ 0)
    (hfresh : ∀ t ∈ terms, e.terms.get? t.1 = none) :
    terms.foldl (fun e t => e.addTerm t.1 t.2) e =
      { e with terms := terms.foldl (fun m t => m.insert t.1 t.2) e.terms } := by
  induction terms generalizing e with
  | nil => rfl
  | cons t rest ih =>
    obtain ⟨hlt, hsorted⟩ := List.pairwise_cons.1 hsorted
    obtain ⟨ht, hne⟩ := List.forall_mem_cons.1 hne
    obtain ⟨hfresh, hrest⟩ := List.forall_mem_cons.1 hfresh
    rw [List.foldl_cons, List.foldl_cons, addTerm_of_fresh hfresh ht]
    refine ih hsorted hne fun t' ht' => ?_
    rw [SortedMap.get?_insert, if_neg (Nat.ne_of_gt (hlt t' ht'))]
    exact hrest t' ht'

/-- A reduced equation is the sum of its terms. -/
theorem Reduced.foldl_addTerm_eq (h : e.Reduced) :
    e.terms.entries.foldl (fun e t => e.addTerm t.1 t.2) (trivial.addRhs e.rhs) = e := by
  rw [foldl_addTerm_of_fresh e.terms.sorted h fun t _ => SortedMap.get?_empty t.1]
  have hterms : e.terms.entries.foldl (fun m t => m.insert t.1 t.2) SortedMap.empty = e.terms :=
    SortedMap.ofList_entries e.terms
  have hrhs : (trivial.addRhs e.rhs).rhs = e.rhs := zero_add _
  rw [Equation.mk.injEq]
  exact ⟨hterms, hrhs⟩

/-- The line of a built equation is read as that equation. -/
theorem Built.read_render (h : e.Built width) (hwidth : width < 2 ^ 64) :
    read width e.render.toList = .ok e := by
  obtain ⟨e', he'⟩ := exists_read_render_eq_ok hwidth h.below_width h.short
  rw [he', (eq_foldl_of_read_render he').2, h.reduced.foldl_addTerm_eq]

theorem isAscii_of_mem_render {c : Char} (hc : c ∈ e.render.toList) : c.val ≤ 127 := by
  have hsigned : ∀ c, IsSigned c → c.val ≤ 127 := by
    rintro c (hdigit | rfl)
    · simp only [Char.isDigit, Bool.and_eq_true, decide_eq_true_eq] at hdigit
      exact UInt32.le_trans hdigit.2 (by decide)
    · decide
  rw [toList_render] at hc
  rcases List.mem_append.1 hc with hc | hc
  · obtain ⟨t, -, hc⟩ := List.mem_flatMap.1 hc
    rcases List.mem_append.1 hc with hc | hc
    · rcases isSigned_or_eq_of_mem_word hc with hc | rfl
      · exact hsigned c hc
      · decide
    · rw [List.mem_singleton.1 hc]
      decide
  · rcases List.mem_cons.1 hc with rfl | hc
    · decide
    · rcases List.mem_cons.1 hc with rfl | hc
      · decide
      · exact hsigned c (isSigned_of_mem_toString hc)

end Equation

/-! ## Systems -/

section System

variable {component : Component} {width : ℕ} {equations : List Equation}

/-- The text of a system of built equations is read line by line as these equations. -/
theorem map_render_of_read_systemOfEquations (hwidth : width < 2 ^ 64)
    (hbuilt : ∀ e ∈ equations, e.Built width) {found : ReadSystem}
    (h : ReadSystem.read (systemOfEquations component width equations).text = .ok found) :
    found.equations.map Equation.render =
        (systemOfEquations component width equations).equations.keys ∧
      ∀ e, e ∈ found.equations ↔ e ∈ equations := by
  have hline : ∀ k ∈ (systemOfEquations component width equations).equations.keys,
      Text.IsLine k.toList := by
    intro k hk
    obtain ⟨e, -, rfl⟩ := mem_keys_systemOfEquations.1 hk
    exact e.isLine_render
  obtain ⟨-, hread⟩ := ComponentSystem.read_text_eq_ok hline h
  rw [width_systemOfEquations] at hread
  have hkey : ∀ k ∈ (systemOfEquations component width equations).equations.keys, ∀ e,
      Equation.read width k.toList = .ok e → e ∈ equations ∧ e.render = k := by
    intro k hk e he
    obtain ⟨e', he', rfl⟩ := mem_keys_systemOfEquations.1 hk
    rw [(hbuilt e' he').read_render hwidth] at he
    cases he
    exact ⟨he', rfl⟩
  refine ⟨map_eq_of_mapM_eq_ok hread fun k hk e he => (hkey k hk e he).2, fun e => ?_⟩
  rw [mem_of_mapM_eq_ok hread]
  constructor
  · rintro ⟨k, hk, he⟩
    exact (hkey k hk e he).1
  · intro he
    exact ⟨e.render, mem_keys_systemOfEquations.2 ⟨e, he, rfl⟩, (hbuilt e he).read_render hwidth⟩

theorem size_systemOfEquations_le :
    (systemOfEquations component width equations).equations.size ≤ equations.dedup.length := by
  rw [SortedMap.size_eq_length_keys, ← List.length_map (f := Equation.render)]
  refine (List.subperm_of_subset (SortedMap.keys_nodup _) fun k hk => ?_).length_le
  obtain ⟨e, he, rfl⟩ := mem_keys_systemOfEquations.1 hk
  exact List.mem_map_of_mem (List.mem_dedup.2 he)

end System

/-- The text of a system of built equations is read as a system over the same unknowns that has
exactly these equations, each once and in the order of the bytes of their lines. -/
theorem read_text_systemOfEquations (component : Component) (width : ℕ)
    (equations : List Equation) (hwidth : width < 2 ^ 64)
    (hcount : equations.dedup.length < 2 ^ 64) (hbuilt : ∀ e ∈ equations, e.Built width) :
    ∃ found, ReadSystem.read (systemOfEquations component width equations).text = .ok found ∧
      found.width = width ∧ found.equations.Nodup ∧
      (∀ e, e ∈ found.equations ↔ e ∈ equations) ∧
      found.equations.Pairwise fun a b => Utf8.encode a.render < Utf8.encode b.render := by
  have hshort : ∀ e ∈ equations, e.Below width ∧ e.Short := fun e he =>
    ⟨(hbuilt e he).below_width, (hbuilt e he).short⟩
  have hsize : (systemOfEquations component width equations).equations.size < 2 ^ 64 :=
    Nat.lt_of_le_of_lt size_systemOfEquations_le hcount
  obtain ⟨found, hread, hfound⟩ := exists_read_systemOfEquations hwidth hsize hshort
  obtain ⟨hlines, hmem⟩ := map_render_of_read_systemOfEquations hwidth hbuilt hread
  have hsorted : (found.equations.map Equation.render).Pairwise (· < ·) :=
    hlines ▸ SortedMap.keys_sorted _
  have hnodup : (found.equations.map Equation.render).Nodup := hlines ▸ SortedMap.keys_nodup _
  refine ⟨found, hread, hfound, hnodup.of_map, hmem, (List.pairwise_map.1 hsorted).imp ?_⟩
  intro a b hlt
  exact Utf8.encode_lt_encode (fun _ => Equation.isAscii_of_mem_render)
    (fun _ => Equation.isAscii_of_mem_render) hlt

/-- Equations with the extreme coefficients, one of them twice, and a constant one in which the
only unknown cancels. -/
def extremeEquations : List Equation :=
  let extreme := ((Equation.trivial.addTerm 1 9223372036854775807).addTerm 0
    (-9223372036854775808)).addRhs (-9223372036854775808)
  [Equation.trivial.addRhs 5, extreme, (Equation.trivial.addTerm 0 1).addTerm 0 (-1), extreme]

theorem read_text_systemOfEquations_extreme :
    extremeEquations.dedup.length < 2 ^ 64 ∧ (∀ e ∈ extremeEquations, e.Built 2) ∧
    ∃ found, ReadSystem.read (systemOfEquations .power 2 extremeEquations).text = .ok found ∧
      found.width = 2 ∧ found.equations.Nodup ∧
      (∀ e, e ∈ found.equations ↔ e ∈ extremeEquations) ∧
      found.equations.Pairwise fun a b => Utf8.encode a.render < Utf8.encode b.render := by
  have hcount : extremeEquations.dedup.length < 2 ^ 64 := by decide +kernel
  have hbuilt : ∀ e ∈ extremeEquations, e.Built 2 := by
    have hextreme := (((.trivial : Equation.trivial.Built 2).addTerm (i := 1)
      (k := 9223372036854775807) (by decide) (by decide +kernel)).addTerm (i := 0)
      (k := -9223372036854775808) (by decide) (by decide +kernel)).addRhs
      (k := -9223372036854775808) (by decide +kernel)
    simp only [extremeEquations, List.forall_mem_cons]
    exact ⟨.addRhs .trivial (by decide +kernel), hextreme,
      (Equation.Built.trivial.addTerm (by decide) (by decide +kernel)).addTerm (by decide)
        (by decide +kernel), hextreme, by simp⟩
  exact ⟨hcount, hbuilt, read_text_systemOfEquations .power 2 _ (by decide) hcount hbuilt⟩

/-! ## Results -/

/-- Written results are read back if the numbers of their unknowns fit into words of 64 bits. -/
theorem Results.read_render_eq_ok (r : Results)
    (h : ∀ values, r = sat values → ∀ v ∈ values, v.1 < 2 ^ 64) : read r.render = .ok r := by
  cases r with
  | unsat => decide
  | sat values => exact read_render_sat_eq_ok (h values rfl)

/-- The largest number of an unknown, twice with different values, around the smallest. -/
def repeatedResults : Results :=
  .sat [(18446744073709551615, -7 / 3), (0, 5), (18446744073709551615, 0)]

theorem Results.read_render_eq_ok_repeated :
    (∀ values, repeatedResults = sat values → ∀ v ∈ values, v.1 < 2 ^ 64) ∧
      read repeatedResults.render = .ok repeatedResults := by
  have hwords : ∀ values, repeatedResults = sat values → ∀ v ∈ values, v.1 < 2 ^ 64 := by
    rintro values ⟨⟩
    simp
  exact ⟨hwords, read_render_eq_ok repeatedResults hwords⟩

end Linear
end Metrology
