import Metrology.Text.Blank
import Metrology.Text.Numeral
import Mathlib.Data.List.TakeWhile
import Mathlib.Data.Rat.Lemmas

/-!
# Reading written text back

Text that is put together from words, lines and numerals is cut into the same words, lines and
numbers again.
-/

namespace Metrology
namespace Text

/-! ## Pieces and words -/

section Pieces

variable {p : Char → Bool} {piece rest : List Char} {s : Char}

theorem pieces_ne_nil (p : Char → Bool) (cs : List Char) : pieces p cs ≠ [] := by
  cases cs with
  | nil => simp [pieces]
  | cons c rest =>
    rw [pieces]
    split
    · simp
    · split <;> simp

theorem pieces_cons_of_not {c : Char} (hc : p c = false) (rest : List Char) :
    ∃ piece more, pieces p rest = piece :: more ∧ pieces p (c :: rest) = (c :: piece) :: more := by
  obtain ⟨piece, more, heq⟩ := List.exists_cons_of_ne_nil (pieces_ne_nil p rest)
  exact ⟨piece, more, heq, by simp [pieces, hc, heq]⟩

/-- A text is cut at the first separator. -/
theorem pieces_append_cons
    (hpiece : ∀ c ∈ piece, p c = false) (hs : p s = true) (rest : List Char) :
    pieces p (piece ++ s :: rest) = piece :: pieces p rest := by
  induction piece with
  | nil => simp [pieces, hs]
  | cons c piece ih =>
    obtain ⟨hc, hpiece⟩ := List.forall_mem_cons.1 hpiece
    obtain ⟨first, more, heq, hcons⟩ := pieces_cons_of_not hc (piece ++ s :: rest)
    rw [ih hpiece] at heq
    obtain ⟨rfl, rfl⟩ := List.cons.inj heq
    exact hcons

/-- A nonblank run before a blank is the first word. -/
theorem words_append_cons
    (hne : piece ≠ []) (hpiece : ∀ c ∈ piece, isBlank c = false) (hs : isBlank s = true)
    (rest : List Char) : words (piece ++ s :: rest) = piece :: words rest := by
  rw [words, pieces_append_cons hpiece hs, List.filter_cons_of_pos (by simp [hne])]
  rfl

theorem pieces_eq_singleton (h : ∀ c ∈ piece, p c = false) : pieces p piece = [piece] := by
  induction piece with
  | nil => rfl
  | cons c piece ih =>
    obtain ⟨hc, hpiece⟩ := List.forall_mem_cons.1 h
    simp [pieces, hc, ih hpiece]

theorem words_eq_singleton (hne : piece ≠ []) (h : ∀ c ∈ piece, isBlank c = false) :
    words piece = [piece] := by
  rw [words, pieces_eq_singleton h, List.filter_cons_of_pos (by simp [hne])]
  rfl

/-- Blanks before a text add no word. -/
theorem words_append (hgap : ∀ c ∈ piece, isBlank c = true) (rest : List Char) :
    words (piece ++ rest) = words rest := by
  induction piece with
  | nil => rfl
  | cons c piece ih =>
    obtain ⟨hc, hpiece⟩ := List.forall_mem_cons.1 hgap
    rw [← ih hpiece, List.cons_append, words, pieces, if_pos hc]
    rfl

/-- Words that are each followed by a space are read back. -/
theorem words_flatMap
    {α : Type} {f : α → List Char} {l : List α} (hne : ∀ a ∈ l, f a ≠ [])
    (hblank : ∀ a ∈ l, ∀ c ∈ f a, isBlank c = false) :
    words (l.flatMap fun a => f a ++ [' ']) = l.map f := by
  induction l with
  | nil => rfl
  | cons a l ih =>
    rw [List.flatMap_cons, List.append_assoc, List.singleton_append,
      words_append_cons (hne a (by simp)) (hblank a (by simp)) (by decide),
      ih (fun b hb => hne b (by simp [hb])) (fun b hb => hblank b (by simp [hb]))]
    rfl

theorem splitFirst_append_cons
    (hpiece : ∀ c ∈ piece, p c = false) (hs : p s = true) :
    splitFirst p (piece ++ s :: rest) = some (piece, rest) := by
  have hpos : ∀ c ∈ piece, (!p c) = true := fun c hc => by simp [hpiece c hc]
  have hdrop : (piece ++ s :: rest).dropWhile (fun c => !p c) = s :: rest := by
    rw [List.dropWhile_append_of_pos hpos, List.dropWhile_cons_of_neg (by simp [hs])]
  have htake : (piece ++ s :: rest).takeWhile (fun c => !p c) = piece := by
    rw [List.takeWhile_append_of_pos hpos, List.takeWhile_cons_of_neg (by simp [hs]),
      List.append_nil]
  rw [splitFirst, hdrop, htake]

end Pieces

/-! ## Lines -/

/-- A text that stands on one line and neither begins nor ends with a blank. -/
structure IsLine (l : List Char) : Prop where
  unbroken : '\n' ∉ l
  head : ∃ c, l.head? = some c ∧ isBlank c = false
  last : ∃ c, l.getLast? = some c ∧ isBlank c = false

/-- A nonempty text without blanks is a line. -/
theorem isLine_of_not_blank {l : List Char} (hne : l ≠ []) (h : ∀ c ∈ l, isBlank c = false) :
    IsLine l where
  unbroken hmem := absurd (h '\n' hmem) (by decide)
  head := ⟨l.head hne, List.head?_eq_some_head hne, h _ (List.head_mem hne)⟩
  last := ⟨l.getLast hne, List.getLast?_eq_some_getLast hne, h _ (List.getLast_mem hne)⟩

/-- Lines that are joined by an inner text without a line end are one line. -/
theorem IsLine.append {a b : List Char} (ha : IsLine a) (hb : IsLine b) {inner : List Char}
    (hinner : '\n' ∉ inner) : IsLine (a ++ inner ++ b) where
  unbroken := by simp [ha.unbroken, hb.unbroken, hinner]
  head := by
    obtain ⟨c, hc, hblank⟩ := ha.head
    exact ⟨c, by simp [List.head?_append, hc], hblank⟩
  last := by
    obtain ⟨c, hc, hblank⟩ := hb.last
    exact ⟨c, by simp [List.getLast?_append, hc], hblank⟩

theorem IsLine.ne_nil {l : List Char} (h : IsLine l) : l ≠ [] := by
  rintro rfl
  obtain ⟨c, hc, -⟩ := h.head
  cases hc

theorem dropWhile_isBlank_eq_self
    {l : List Char} (h : ∃ c, l.head? = some c ∧ isBlank c = false) :
    l.dropWhile isBlank = l := by
  obtain ⟨c, hc, hblank⟩ := h
  cases l with
  | nil => rfl
  | cons d rest =>
    cases hc
    exact List.dropWhile_cons_of_neg (by simp [hblank])

theorem IsLine.trimEnd_eq_self {l : List Char} (h : IsLine l) : trimEnd l = l := by
  obtain ⟨c, hc, hblank⟩ := h.last
  rw [trimEnd, dropWhile_isBlank_eq_self ⟨c, by rw [List.head?_reverse, hc], hblank⟩,
    List.reverse_reverse]

theorem IsLine.trim_eq_self {l : List Char} (h : IsLine l) : trim l = l := by
  rw [trim, dropWhile_isBlank_eq_self h.head, h.trimEnd_eq_self]

theorem IsLine.trim_cons_space {l : List Char} (h : IsLine l) : trim (' ' :: l) = l := by
  have hdrop : (' ' :: l).dropWhile isBlank = l.dropWhile isBlank :=
    List.dropWhile_cons_of_pos (by decide)
  rw [trim, hdrop]
  exact h.trim_eq_self

theorem trimEnd_append {gap : List Char} (hgap : ∀ c ∈ gap, isBlank c = true) (l : List Char) :
    trimEnd (l ++ gap) = trimEnd l := by
  rw [trimEnd, List.reverse_append, List.dropWhile_append_of_pos]
  · rfl
  · intro c hc
    exact hgap c (List.mem_reverse.1 hc)

/-- Blanks after a text are trimmed. -/
theorem trim_append {gap : List Char} (hgap : ∀ c ∈ gap, isBlank c = true) (l : List Char) :
    trim (l ++ gap) = trim l := by
  rw [trim, trim, List.dropWhile_append]
  split
  · rename_i hempty
    rw [List.dropWhile_eq_nil_iff.2 hgap, List.isEmpty_iff.1 hempty]
  · exact trimEnd_append hgap _

theorem IsLine.trim_eq_of_gaps {l before after : List Char} (h : IsLine l)
    (hbefore : ∀ c ∈ before, isBlank c = true) (hafter : ∀ c ∈ after, isBlank c = true) :
    trim (before ++ l ++ after) = l := by
  rw [trim_append hafter, trim, List.dropWhile_append_of_pos hbefore]
  exact h.trim_eq_self

/-- The carriage return before a line end is a blank. -/
theorem trim_dropReturn (l : List Char) : trim (dropReturn l) = trim l := by
  unfold dropReturn
  split
  · rename_i before hreverse
    have hl : l = before.reverse ++ ['\r'] := by
      rw [← List.reverse_reverse l, hreverse, List.reverse_cons]
    rw [hl, trim_append (List.forall_mem_singleton.2 rfl)]
  · rfl

theorem lines_append_cons {l : List Char} (h : '\n' ∉ l) (rest : List Char) :
    lines (l ++ '\n' :: rest) = dropReturn l :: lines rest := by
  have hpieces : pieces (· == '\n') (l ++ '\n' :: rest) = l :: pieces (· == '\n') rest := by
    refine pieces_append_cons ?_ (by decide) rest
    intro c hc
    simpa using fun heq : c = '\n' => h (heq ▸ hc)
  obtain ⟨first, more, heq⟩ := List.exists_cons_of_ne_nil (pieces_ne_nil (· == '\n') rest)
  rw [lines, hpieces, lines, heq, linesOfPieces]
  simp

/-- A line that ends is read first, unless it holds blanks only. -/
theorem filledLines_append_cons {l : List Char} (h : '\n' ∉ l) (rest : List Char) :
    filledLines (l ++ '\n' :: rest) =
      [trim l].filter (fun l => !l.isEmpty) ++ filledLines rest := by
  rw [filledLines, lines_append_cons h, List.map_cons, trim_dropReturn, filledLines,
    ← List.filter_append]
  rfl

/-- A text without a line end is one line. -/
theorem filledLines_of_unbroken {l : List Char} (h : '\n' ∉ l) :
    filledLines l = [trim l].filter fun l => !l.isEmpty := by
  have hpieces : pieces (· == '\n') l = [l] := by
    refine pieces_eq_singleton fun c hc => ?_
    simpa using fun heq : c = '\n' => h (heq ▸ hc)
  rw [filledLines, lines, hpieces, linesOfPieces]
  by_cases hl : l = []
  · subst hl
    rfl
  · simp [hl]

/-- A written line is the first line that is read. -/
theorem IsLine.filledLines_append_cons {l : List Char} (h : IsLine l) (rest : List Char) :
    filledLines (l ++ '\n' :: rest) = l :: filledLines rest := by
  rw [Text.filledLines_append_cons h.unbroken, h.trim_eq_self,
    List.filter_cons_of_pos (by simp [h.ne_nil])]
  rfl

/-- Written lines are read back. -/
theorem filledLines_flatMap {α : Type} {f : α → List Char} {l : List α}
    (h : ∀ a ∈ l, IsLine (f a)) : filledLines (l.flatMap fun a => f a ++ ['\n']) = l.map f := by
  induction l with
  | nil => rfl
  | cons a l ih =>
    rw [List.flatMap_cons, List.append_assoc, List.singleton_append,
      (h a (by simp)).filledLines_append_cons, ih fun b hb => h b (by simp [hb])]
    rfl

end Text

/-! ## Numerals -/

namespace Numeral

/-- The characters of written integers: digits and the minus sign. -/
def IsSigned (c : Char) : Prop := c.isDigit = true ∨ c = '-'

theorem IsSigned.ne {c d : Char} (h : IsSigned c) (hdigit : d.isDigit = false) (hminus : d ≠ '-') :
    c ≠ d := by
  rintro rfl
  rcases h with h | h
  · exact absurd h (by simp [hdigit])
  · exact hminus h

theorem IsSigned.isBlank_eq_false {c : Char} (h : IsSigned c) : Text.isBlank c = false := by
  rcases h with h | rfl
  · simp only [Char.isDigit, Bool.and_eq_true, decide_eq_true_eq, UInt32.le_iff_toNat_le] at h
    simp only [Text.isBlank, Bool.or_eq_false_iff, Bool.and_eq_false_iff, decide_eq_false_iff_not,
      beq_eq_false_iff_ne, Char.toNat]
    have hlow : 48 ≤ c.val.toNat := h.1
    have hhigh : c.val.toNat ≤ 57 := h.2
    omega
  · decide

section Nat

variable (n : ℕ)

theorem toList_toString_nat : (toString n).toList = Nat.toDigits 10 n :=
  Nat.toList_repr

theorem isDigit_of_mem_toDigits {c : Char} (hc : c ∈ Nat.toDigits 10 n) : c.isDigit = true :=
  Nat.isDigit_of_mem_toDigits (by decide) (by decide) hc

@[simp]
theorem digits?_toDigits : digits? (Nat.toDigits 10 n) = some n := by
  have hall : (Nat.toDigits 10 n).all Char.isDigit = true :=
    List.all_eq_true.2 fun c hc => isDigit_of_mem_toDigits n hc
  simp [digits?, hall, Nat.toDigits_ne_nil]

variable {n} in
theorem toString_nat_inj {m : ℕ} (h : toString m = toString n) : m = n := by
  have hread := congrArg (fun s : String => digits? s.toList) h
  simpa only [toList_toString_nat, digits?_toDigits, Option.some.injEq] using hread

theorem exists_toDigits_eq_cons :
    ∃ c rest, Nat.toDigits 10 n = c :: rest ∧ c ≠ '+' ∧ c ≠ '-' ∧ c ≠ '_' := by
  obtain ⟨c, rest, heq⟩ := List.exists_cons_of_ne_nil (Nat.toDigits_ne_nil (n := n) (b := 10))
  have hc : c.isDigit = true := isDigit_of_mem_toDigits n (by simp [heq])
  refine ⟨c, rest, heq, ?_, ?_, ?_⟩ <;> rintro rfl <;> exact absurd hc (by decide)

@[simp]
theorem nat?_toDigits : nat? (Nat.toDigits 10 n) = some n := by
  obtain ⟨c, rest, heq, hplus, -, -⟩ := exists_toDigits_eq_cons n
  have hdigits := digits?_toDigits n
  rw [heq] at hdigits ⊢
  simpa [nat?, hplus] using hdigits

@[simp]
theorem groupedDigits?_toDigits : groupedDigits? (Nat.toDigits 10 n) = some n := by
  obtain ⟨c, rest, heq, -, -, hunder⟩ := exists_toDigits_eq_cons n
  have hfilter : (Nat.toDigits 10 n).filter (· != '_') = Nat.toDigits 10 n := by
    refine List.filter_eq_self.2 fun d hd => ?_
    simpa using fun h : d = '_' => Nat.underscore_not_in_toDigits (h ▸ hd)
  have hdigits := digits?_toDigits n
  rw [← hfilter] at hdigits
  rw [heq] at hdigits ⊢
  simpa [groupedDigits?, hunder] using hdigits

@[simp]
theorem groupedNat?_toDigits : groupedNat? (Nat.toDigits 10 n) = some n := by
  obtain ⟨c, rest, heq, hplus, -, -⟩ := exists_toDigits_eq_cons n
  have hdigits := groupedDigits?_toDigits n
  rw [heq] at hdigits ⊢
  simpa [groupedNat?, hplus] using hdigits

end Nat

/-- A written integer is its digits, after a minus sign if it is negative. -/
theorem toList_toString_int (i : ℤ) :
    (∃ n : ℕ, i = n ∧ (toString i).toList = Nat.toDigits 10 n) ∨
      ∃ n : ℕ, i = -n ∧ (toString i).toList = '-' :: Nat.toDigits 10 n := by
  cases i with
  | ofNat n => exact .inl ⟨n, rfl, Nat.toList_repr⟩
  | negSucc n =>
    refine .inr ⟨n + 1, rfl, ?_⟩
    change ("-" ++ (n + 1).repr).toList = _
    rw [String.toList_append, Nat.toList_repr]
    rfl

theorem isSigned_of_mem_toString {i : ℤ} {c : Char} (hc : c ∈ (toString i).toList) :
    IsSigned c := by
  rcases toList_toString_int i with ⟨n, -, heq⟩ | ⟨n, -, heq⟩ <;> rw [heq] at hc
  · exact .inl (isDigit_of_mem_toDigits n hc)
  · rcases List.mem_cons.1 hc with rfl | hc
    · exact .inr rfl
    · exact .inl (isDigit_of_mem_toDigits n hc)

theorem toString_int_ne_nil (i : ℤ) : (toString i).toList ≠ [] := by
  rcases toList_toString_int i with ⟨n, -, heq⟩ | ⟨n, -, heq⟩ <;> rw [heq]
  · exact Nat.toDigits_ne_nil
  · simp

theorem int?_toString (i : ℤ) : int? (toString i).toList = some i := by
  rcases toList_toString_int i with ⟨n, rfl, heq⟩ | ⟨n, rfl, heq⟩ <;> rw [heq]
  · obtain ⟨c, rest, hcons, -, hminus, -⟩ := exists_toDigits_eq_cons n
    have hnat := nat?_toDigits n
    rw [hcons] at hnat ⊢
    simp [int?, hminus, hnat]
  · simp [int?]

theorem grouped?_toString (i : ℤ) : grouped? (toString i).toList = some i := by
  rcases toList_toString_int i with ⟨n, rfl, heq⟩ | ⟨n, rfl, heq⟩ <;> rw [heq]
  · obtain ⟨c, rest, hcons, -, hminus, -⟩ := exists_toDigits_eq_cons n
    have hnat := groupedNat?_toDigits n
    rw [hcons] at hnat ⊢
    simp [grouped?, hminus, hnat]
  · simp [grouped?]

/-- A written natural number is read as itself or not at all. -/
theorem eq_of_natOfBits?_toString
    {bits n k : ℕ} (h : natOfBits? bits (toString n).toList = some k) : k = n := by
  rw [toList_toString_nat, natOfBits?, nat?_toDigits, Option.filter_eq_some_iff] at h
  exact (Option.some.inj h.1).symm

/-- A written natural number that is small enough is read back. -/
theorem natOfBits?_toString {bits n : ℕ} (h : n < 2 ^ bits) :
    natOfBits? bits (toString n).toList = some n := by
  rw [toList_toString_nat, natOfBits?, nat?_toDigits, Option.filter_some, if_pos]
  simpa using h

/-- A written integer is read as itself or not at all. -/
theorem eq_of_intOfBits?_toString
    {bits : ℕ} {i k : ℤ} (h : intOfBits? bits (toString i).toList = some k) : k = i := by
  rw [intOfBits?, int?_toString, Option.filter_eq_some_iff] at h
  exact (Option.some.inj h.1).symm

/-- The integers of a number of bits in two's complement. -/
def FitsBits (bits : ℕ) (i : ℤ) : Prop := -2 ^ (bits - 1) ≤ i ∧ i < 2 ^ (bits - 1)

instance (bits : ℕ) (i : ℤ) : Decidable (FitsBits bits i) := inferInstanceAs (Decidable (_ ∧ _))

/-- A written integer of so many bits is read back. -/
theorem intOfBits?_toString {bits : ℕ} {i : ℤ} (h : FitsBits bits i) :
    intOfBits? bits (toString i).toList = some i := by
  rw [intOfBits?, int?_toString, Option.filter_some, if_pos]
  simpa [FitsBits] using h

theorem splitSlash_of_not_mem {cs : List Char} (h : '/' ∉ cs) : splitSlash cs = (cs, none) := by
  have hdrop : cs.dropWhile (· != '/') = [] := by
    rw [List.dropWhile_eq_nil_iff]
    intro c hc
    simpa using fun heq : c = '/' => h (heq ▸ hc)
  rw [splitSlash, hdrop]

theorem splitSlash_append {a b : List Char} (h : '/' ∉ a) :
    splitSlash (a ++ '/' :: b) = (a, some b) := by
  have hpos : ∀ c ∈ a, (c != '/') = true := fun c hc => by
    simpa using fun heq : c = '/' => h (heq ▸ hc)
  rw [splitSlash, List.dropWhile_append_of_pos hpos, List.dropWhile_cons_of_neg (by decide),
    List.takeWhile_append_of_pos hpos, List.takeWhile_cons_of_neg (by decide), List.append_nil]

theorem slash_not_mem_toString (i : ℤ) : '/' ∉ (toString i).toList := by
  intro hmem
  exact (isSigned_of_mem_toString hmem).ne (d := '/') (by decide) (by decide) rfl

/-- A written rational is read back. -/
theorem rational?_renderRational (q : ℚ) : rational? (renderRational q).toList = some q := by
  by_cases hden : q.den = 1
  · rw [renderRational, if_pos hden, rational?, splitSlash_of_not_mem (slash_not_mem_toString _)]
    simp only [grouped?_toString]
    exact congrArg some (Rat.coe_int_num_of_den_eq_one hden)
  · have htext : (renderRational q).toList =
        (toString q.num).toList ++ '/' :: (toString (q.den : ℤ)).toList := by
      rw [renderRational, if_neg hden]
      simp only [String.toList_append, List.append_assoc]
      rfl
    rw [htext, rational?, splitSlash_append (slash_not_mem_toString _)]
    simp only [grouped?_toString, Option.bind_eq_bind, Option.bind_some]
    rw [if_neg (by exact_mod_cast q.den_nz), Rat.num_divInt_den]

end Numeral
end Metrology
