import Metrology.Smt.Encoding
import Metrology.Proofs.Linear.Overflow

/-!
# The size of the numbers in both encodings

A view shows a constant by literals of the magnitude of exponents and an unknown by variables.
Only products and quotients put terms together, component by component, so a folded literal is the
sum or difference of two exponents.  The problem of a model is then repeated with a range that every
folded literal must fit, and a range that holds these sums refuses none of them.

Together with the linear systems this says that neither encoding overflows signed words of 64 bits.
-/

namespace Metrology

/-- A fold whose every step goes through comes to what its steps come to. -/
theorem run_foldlM_eq_some {ε α β : Type} {f : β → α → ExceptT ε Option β}
    {g : β → α → Except ε β} {l : List α} (h : ∀ b, ∀ a ∈ l, (f b a).run = some (g b a)) (b : β) :
    (l.foldlM f b).run = some (l.foldlM g b) := by
  induction l generalizing b with
  | nil => rfl
  | cons a rest ih =>
    obtain ⟨ha, hrest⟩ := List.forall_mem_cons.1 fun a ha b => h b a ha
    rw [List.foldlM_cons, List.foldlM_cons, ExceptT.run_bind, ha b]
    cases g b a with
    | error e => rfl
    | ok b' => exact ih (fun b a ha => hrest a ha b) b'

namespace Smt

/-! ## Problems within a range -/

section Within

variable (fits : ℤ → Bool)

/-- Two terms put together by a folding function, if what two literals fold to fits. -/
def Term.combineWithin (op : ℤ → ℤ → ℤ) (folded : Term → Term → Term) : Term → Term → Option Term
  | lit a, lit b => (Option.guard fits (op a b)).map lit
  | a, b => some (folded a b)

namespace View

/-- The formula of a product or quotient whose components have been put together. -/
def arithmeticOf (l r result : View) (values : List Term) : Formula :=
  let anyTop := Formula.disj [l.top, r.top]
  let anyBottom := Formula.disj [l.bottom, r.bottom]
  .conj [
    .imply anyTop result.top,
    .imply (.conj [anyTop.negate, anyBottom]) result.bottom,
    .imply (.conj [l.concrete, r.concrete])
      (.conj (result.concrete :: List.zipWith Formula.equate result.components values))]

theorem arithmetic_eq_arithmeticOf (op : Term → Term → Term) (l r result : View) :
    arithmetic op l r result =
      arithmeticOf l r result (List.zipWith op l.components r.components) :=
  rfl

/-- The formula of a product or quotient, if every two components can be put together. -/
def arithmeticWithin (op : Term → Term → Option Term) (l r result : View) : Option Formula := do
  let values ← (l.components.zip r.components).mapM fun p => op p.1 p.2
  return arithmeticOf l r result values

/-- The formula of a constraint between views, if the literals that are folded fit. -/
def formulaWithin : Constraint View → Option Formula
  | .subtype a b => some (below a b)
  | .equal a b => some (same a b)
  | .join l r result => some (join l r result)
  | .product l r result => arithmeticWithin (Term.combineWithin fits (· + ·) Term.plus) l r result
  | .quotient l r result => do
    let quotient ← arithmeticWithin (Term.combineWithin fits (· - ·) Term.minus) l r result
    return .conj [r.bottom.negate, quotient]

end View

/-- The formula of a constraint over some components, if the literals that are folded fit. -/
def encodeConstraintWithin (components : List Component) (c : Constraint Operand) :
    Option (Except SolveError Formula) :=
  match divisionError? c with
  | some e => some (.error (.arithmetic e))
  | none => (View.formulaWithin fits (c.map (View.ofOperand components))).map .ok

namespace Problem

/-- Asserts the formula of a numbered constraint, if the literals that are folded fit. -/
def addConstraintWithin (components : List Component) (p : Problem)
    (c : Constraint Operand × Nat) : ExceptT SolveError Option Problem := do
  let formula ← ExceptT.mk (encodeConstraintWithin fits components c.1)
  return p.assert s!"c{c.2}" (c.1.map Operand.id).render formula

/-- The problem of a model over some components, if the literals that are folded fit. -/
def ofModelWithin (m : Model) (components : List Component) :
    Option (Except SolveError Problem) :=
  match m.linked with
  | .error slot => some (.error (.foreign slot))
  | .ok constraints =>
    (constraints.zipIdx.foldlM (addConstraintWithin fits components)
      (m.unknowns.foldl (addUnknown components) empty)).run

end Problem

/-! ## Folded literals -/

/-- A variable, or a literal of the magnitude of an exponent. -/
def Term.Small : Term → Prop
  | var _ => True
  | lit n => n.natAbs ≤ 2 ^ 31
  | add _ _ | sub _ _ => False

/-- The components of an operand are shown by small terms. -/
theorem View.small_of_mem_ofOperand {components : List Component} {o : Operand} {t : Term}
    (ht : t ∈ (ofOperand components o).components) : t.Small := by
  have hzero : ∀ t ∈ components.map fun _ => Term.lit 0, t.Small :=
    List.forall_mem_map.2 fun _ _ => Nat.zero_le _
  unfold ofOperand at ht
  split at ht
  · rename_i q _
    cases q with
    | top | bottom | poly => exact hzero t ht
    | concrete unit =>
      obtain ⟨c, -, rfl⟩ := List.mem_map.1 ht
      exact Exponent.natAbs_val_le _
  · obtain ⟨c, -, rfl⟩ := List.mem_map.1 ht
    trivial

variable {fits} (hfits : ∀ i : ℤ, i.natAbs ≤ 2 ^ 32 → fits i = true)
include hfits

/-- Small terms are put together, since an operation on two exponents at most adds their
magnitudes. -/
theorem Term.combineWithin_eq_some {op : ℤ → ℤ → ℤ} {folded : Term → Term → Term}
    (hop : ∀ m n, (op m n).natAbs ≤ m.natAbs + n.natAbs)
    (hfolded : ∀ m n, folded (lit m) (lit n) = lit (op m n)) {a b : Term} (ha : a.Small)
    (hb : b.Small) : combineWithin fits op folded a b = some (folded a b) := by
  unfold combineWithin
  split
  · rename_i m n
    unfold Small at ha hb
    have hsum := hop m n
    have hresult : fits (op m n) = true := hfits _ (by omega)
    rw [Option.guard_pos hresult, hfolded]
    rfl
  · rfl

namespace View

omit hfits in
theorem arithmeticWithin_eq_some {op : Term → Term → Term} {opWithin : Term → Term → Option Term}
    {l r result : View}
    (h : ∀ x ∈ l.components, ∀ y ∈ r.components, opWithin x y = some (op x y)) :
    arithmeticWithin opWithin l r result = some (arithmetic op l r result) := by
  have hvalues : (l.components.zip r.components).mapM (fun p => opWithin p.1 p.2) =
      some (List.zipWith op l.components r.components) := by
    rw [← List.map_uncurry_zip_eq_zipWith]
    refine mapM_eq_some_map fun p hp => ?_
    obtain ⟨hx, hy⟩ := List.of_mem_zip hp
    exact h p.1 hx p.2 hy
  rw [arithmeticWithin, hvalues, arithmetic_eq_arithmeticOf]
  rfl

theorem formulaWithin_eq_some {c : Constraint View}
    (h : ∀ view ∈ c.slots, ∀ t ∈ view.components, t.Small) :
    formulaWithin fits c = some (formula c) := by
  cases c with
  | subtype a b | equal a b | join l r result => rfl
  | product l r result =>
    obtain ⟨hl, hr, -⟩ := Constraint.and_of_forall_mem_triple h
    refine arithmeticWithin_eq_some fun x hx y hy => ?_
    exact Term.combineWithin_eq_some hfits Int.natAbs_add_le (fun _ _ => rfl) (hl x hx) (hr y hy)
  | quotient l r result =>
    obtain ⟨hl, hr, -⟩ := Constraint.and_of_forall_mem_triple h
    have hquotient : arithmeticWithin (Term.combineWithin fits (· - ·) Term.minus) l r result =
        some (arithmetic Term.minus l r result) := by
      refine arithmeticWithin_eq_some fun x hx y hy => ?_
      exact Term.combineWithin_eq_some hfits Int.natAbs_sub_le (fun _ _ => rfl) (hl x hx) (hr y hy)
    rw [formulaWithin, hquotient]
    rfl

end View

theorem encodeConstraintWithin_eq_some (components : List Component) (c : Constraint Operand) :
    encodeConstraintWithin fits components c = some (encodeConstraint components c) := by
  have hviews : ∀ view ∈ (c.map (View.ofOperand components)).slots,
      ∀ t ∈ view.components, t.Small := by
    rw [Constraint.slots_map, List.forall_mem_map]
    exact fun o _ t ht => View.small_of_mem_ofOperand ht
  unfold encodeConstraintWithin encodeConstraint
  cases divisionError? c with
  | some e => rfl
  | none =>
    rw [View.formulaWithin_eq_some hfits hviews]
    rfl

/-- The problem of a model is the same in every range that holds the integers up to twice the
largest magnitude of an exponent. -/
theorem Problem.ofModelWithin_eq_some (m : Model) (components : List Component) :
    ofModelWithin fits m components = some (ofModel m components) := by
  unfold ofModelWithin ofModel
  split
  · rename_i slot hslot
    rw [hslot]
    rfl
  · rename_i constraints hconstraints
    rw [hconstraints]
    refine run_foldlM_eq_some (fun p c _ => ?_) _
    rw [addConstraintWithin, addConstraint, ExceptT.run_bind, ExceptT.run_mk,
      encodeConstraintWithin_eq_some hfits]
    cases encodeConstraint components c.1 with
    | error e => rfl
    | ok f => rfl

end Within

end Smt

/-! ## Words of 64 bits -/

/-- Neither encoding of a model overflows.  Every equation on the way to a linear system has
coefficients of magnitude one or two and a right-hand side within three times the largest magnitude
of an exponent, and no integer computed for it is larger.  Every literal that is folded is within
twice that magnitude.  On signed words of 64 bits both encodings are what they are on integers. -/
theorem encodings_never_overflow (m : Model) (components : List Component) :
    (∀ k relations, Linear.relationsOf m = .ok (k, relations) → ∀ r ∈ relations, ∀ c ∈ components,
      ∀ terms, terms <+: r.terms →
        (Linear.Relation.stage (Linear.unknownsOf relations) c terms).Narrow) ∧
    Linear.Encoding.ofModelWithin (fun i => i.natAbs ≤ 3 * 2 ^ 31) m components =
      some (Linear.Encoding.ofModel m components) ∧
    Linear.Encoding.ofModelWithin (fun i => Numeral.FitsBits 64 i) m components =
      some (Linear.Encoding.ofModel m components) ∧
    Smt.Problem.ofModelWithin (fun i => i.natAbs ≤ 2 ^ 32) m components =
      some (Smt.Problem.ofModel m components) ∧
    Smt.Problem.ofModelWithin (fun i => Numeral.FitsBits 64 i) m components =
      some (Smt.Problem.ofModel m components) := by
  have hword : ∀ i : ℤ, i.natAbs ≤ 3 * 2 ^ 31 → decide (Numeral.FitsBits 64 i) = true := by
    intro i hi
    apply decide_eq_true
    unfold Numeral.FitsBits
    omega
  refine ⟨?_, ?_, ?_, ?_, ?_⟩
  · intro k relations hrelations r hr c _ terms hterms
    exact Linear.Relation.narrow_stage (Linear.basic_of_mem_relationsOf hrelations r hr) hterms
  · exact Linear.Encoding.ofModelWithin_eq_some (fun i hi => decide_eq_true hi) m components
  · exact Linear.Encoding.ofModelWithin_eq_some hword m components
  · exact Smt.Problem.ofModelWithin_eq_some (fun i hi => decide_eq_true hi) m components
  · exact Smt.Problem.ofModelWithin_eq_some (fun i hi => hword i (by omega)) m components

/-- The lowest power of ten. -/
def lowestOperand : Operand :=
  ⟨0, .constant (.concrete (.ofPower ((Exponent.ofInt? (-2147483648)).getD 0)))⟩

/-- The highest power of ten. -/
def highestOperand : Operand :=
  ⟨1, .constant (.concrete (.ofPower ((Exponent.ofInt? 2147483647).getD 0)))⟩

/-- A slot without a unit of its own. -/
def openOperand : Operand := ⟨2, .unknown "x"⟩

/-- Products and quotients that repeat the extreme powers and the unknown. -/
def extremeModel : Model where
  slots := #[lowestOperand.slot, highestOperand.slot, openOperand.slot]
  constraints := #[.product 2 2 0, .quotient 0 2 2, .quotient 1 0 0, .product 0 0 2]

/-- A quotient of the highest power by the lowest, which is to be the lowest. -/
def extremeQuotient : Linear.Relation :=
  ⟨.quotient 1 0 0, [(lowestOperand, 1), (highestOperand, -1), (lowestOperand, 1)]⟩

/-- What the extreme model asks for. -/
def extremeRelations : List Linear.Relation :=
  [⟨.product 2 2 0, [(lowestOperand, 1), (openOperand, -1), (openOperand, -1)]⟩,
    ⟨.quotient 0 2 2, [(openOperand, 1), (lowestOperand, -1), (openOperand, 1)]⟩, extremeQuotient,
    ⟨.product 0 0 2, [(openOperand, 1), (lowestOperand, -1), (lowestOperand, -1)]⟩]

theorem relationsOf_extremeModel :
    Linear.relationsOf extremeModel = .ok (SortedMap.empty, extremeRelations) :=
  toOption_eq_some_iff.1 (by decide +kernel)

/-- The extreme model has the coefficients two and minus two and the largest numbers there are; a
range that lacks these refuses its encodings, and the words of 64 bits do not. -/
theorem encodings_never_overflow_extreme :
    (extremeRelations.map fun r =>
      let e := Linear.Relation.stage (Linear.unknownsOf extremeRelations) .power r.terms
      (e.terms.entries, e.rhs)) =
        [([(0, -2)], 2 ^ 31), ([(0, 2)], -2 ^ 31), ([], 3 * 2 ^ 31 - 1), ([(0, 1)], -2 ^ 32)] ∧
    (Linear.Relation.stage (Linear.unknownsOf extremeRelations) .power
      extremeQuotient.terms).Narrow ∧
    Linear.Encoding.ofModelWithin (fun i => i.natAbs < 3 * 2 ^ 31 - 1) extremeModel [.power] =
      none ∧
    Linear.Encoding.ofModelWithin (fun i => Numeral.FitsBits 64 i) extremeModel [.power] =
      some (Linear.Encoding.ofModel extremeModel [.power]) ∧
    Smt.Problem.ofModelWithin (fun i => i.natAbs < 2 ^ 32) extremeModel [.power] = none ∧
    Smt.Problem.ofModelWithin (fun i => Numeral.FitsBits 64 i) extremeModel [.power] =
      some (Smt.Problem.ofModel extremeModel [.power]) := by
  obtain ⟨hnarrow, -, hlinear, -, hsmt⟩ := encodings_never_overflow extremeModel [.power]
  have hquotient : extremeQuotient ∈ extremeRelations := by decide
  refine ⟨by decide +kernel, ?_, ?_, hlinear, ?_, hsmt⟩
  · exact hnarrow _ _ relationsOf_extremeModel _ hquotient .power (List.mem_singleton_self _) _
      List.prefix_rfl
  · exact Option.isNone_iff_eq_none.1 (by decide +kernel)
  · exact Option.isNone_iff_eq_none.1 (by decide +kernel)

end Metrology
