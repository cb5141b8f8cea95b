import Metrology.Data
import Metrology.Proofs.Monomial
import Mathlib.Logic.Function.Basic

/-!
# Constructions of concrete units

A unit can be put together in many ways: set exponent by exponent, read from a document, multiplied
and divided.  Each way denotes a vector of integers.  It gives a unit exactly if no integer of the
vector or of a product on the way leaves the range of exponents, and the unit stores the integers
of the vector except for zero exponents.  Which way was taken can therefore not be told from the
unit, and units are equal exactly if they have the same power of ten and the same exponents.
-/

namespace Metrology

/-! ## Vectors -/

namespace Monomial

variable {a b m m' : Monomial}

/-- The integers of a unit, one for each component. -/
def values (m : Monomial) (k : Component) : Int := (k.valueOf m).val

theorem values_inj : m.values = m'.values ↔ m = m' :=
  ⟨fun h => Component.ext_valueOf (congrFun h), congrArg values⟩

theorem values_eq_iff :
    m.values = m'.values ↔ m.power = m'.power ∧ ∀ d, m.exponent d = m'.exponent d := by
  rw [values_inj]
  constructor
  · rintro rfl
    exact ⟨rfl, fun _ => rfl⟩
  · rintro ⟨hpower, hexponent⟩
    exact ext_exponent hpower hexponent

theorem values_one : one.values = fun _ => 0 := by
  funext k
  rw [values, Component.valueOf_one, Exponent.val_zero]

/-- Assigning a component changes one integer. -/
theorem values_assign (k : Component) (m : Monomial) (e : Exponent) :
    (k.assign m e).values = Function.update m.values k e.val := by
  funext k'
  rw [values, Component.valueOf_assign, Function.update_apply]
  split <;> rfl

theorem values_set (m : Monomial) (dim : String) (e : Exponent) :
    (m.set dim e).values = Function.update m.values (.dimension dim) e.val :=
  values_assign (.dimension dim) m e

theorem values_setPower (m : Monomial) (p : Exponent) :
    (m.setPower p).values = Function.update m.values .power p.val :=
  values_assign .power m p

theorem values_ofPower (p : Exponent) :
    (ofPower p).values = Function.update (fun _ => 0) .power p.val := by
  rw [← values_one]
  exact values_setPower one p

theorem values_base (dim : String) :
    (base dim).values = Function.update (fun _ => 0) (.dimension dim) 1 := by
  rw [← values_one]
  exact values_set one dim 1

/-- Combining two units combines their integers, if the results are in range. -/
theorem exists_combine?_values_iff {op : Int → Int → Int} (hop : ∀ x, op x 0 = x)
    {f : Component → Int} :
    (∃ r, combine? op a b = some r ∧ r.values = f) ↔
      (∀ k, f k = op (a.values k) (b.values k)) ∧ ∀ k, InExponentRange (f k) := by
  constructor
  · rintro ⟨r, hr, rfl⟩
    exact ⟨(combine?_eq_some_iff hop).1 hr, fun k => (k.valueOf r).inRange⟩
  · rintro ⟨hf, hrange⟩
    have hexists : ∀ k : Component, InExponentRange (op (a.values k) (b.values k)) := fun k =>
      hf k ▸ hrange k
    obtain ⟨r, hr⟩ := (exists_combine?_eq_some_iff hop).2 hexists
    refine ⟨r, hr, funext fun k => ?_⟩
    rw [hf k]
    exact (combine?_eq_some_iff hop).1 hr k

/-- A unit stores a vector: its power of ten and, in name order, its nonzero exponents. -/
structure Stores (m : Monomial) (f : Component → Int) : Prop where
  power : m.power.val = f .power
  mem_entries_iff : ∀ dim e,
    (dim, e) ∈ m.exponents.entries ↔ e.val = f (.dimension dim) ∧ e.val ≠ 0
  sorted : m.dimensions.Pairwise (· < ·)

theorem stores_values (m : Monomial) : m.Stores m.values where
  power := rfl
  mem_entries_iff dim e := by
    rw [← SortedMap.get?_eq_some_iff, get?_exponents]
    change _ ↔ e.val = (m.exponent dim).val ∧ e.val ≠ (0 : Exponent).val
    rw [← Exponent.ext_iff, Ne, ← Exponent.ext_iff]
    by_cases hdim : m.exponent dim = 0
    · rw [if_pos hdim, hdim]
      simp
    · rw [if_neg hdim, Option.some_inj, eq_comm, iff_self_and]
      rintro rfl
      exact hdim
  sorted := SortedMap.keys_sorted m.exponents

end Monomial

/-! ## Written units -/

/-- The power of ten and the exponents that are written down, zeros among them. -/
def Data.written? (surplus : Excess) (d : Data) : Option (Exponent × SortedMap String Exponent) := do
  match ← d.fields? ["prefix", "exponents"] .ignored surplus with
  | [power, exponents] =>
    return (← withDefault? 0 exponent? power,
      ← withDefault? SortedMap.empty (map? exponent?) exponents)
  | _ => none

theorem Data.monomial?_eq_map_written? (surplus : Excess) (d : Data) :
    d.monomial? surplus =
      (d.written? surplus).map fun w => Monomial.ofExponents w.1 w.2.entries := by
  rw [monomial?, written?]
  cases d.fields? ["prefix", "exponents"] .ignored surplus with
  | none => rfl
  | some fields =>
    rcases fields with _ | ⟨power, _ | ⟨exponents, _ | ⟨_, _⟩⟩⟩
    · rfl
    · rfl
    · simp only [Option.bind_eq_bind, Option.bind_some]
      cases withDefault? 0 exponent? power with
      | none => rfl
      | some _ => cases withDefault? SortedMap.empty (map? exponent?) exponents <;> rfl
    · rfl

/-- The vector of a written unit; what is not written is zero. -/
def writtenValues (w : Exponent × SortedMap String Exponent) : Component → Int
  | .power => w.1.val
  | .dimension dim => ((w.2.get? dim).getD 0).val

theorem Monomial.values_ofExponents (w : Exponent × SortedMap String Exponent) :
    (ofExponents w.1 w.2.entries).values = writtenValues w := by
  funext k
  cases k with
  | power => exact congrArg Exponent.val (power_foldl_set _ _)
  | dimension dim =>
    refine congrArg Exponent.val ?_
    change exponent _ dim = _
    rw [ofExponents, exponent_foldl_set, SortedMap.ofList_entries]
    rfl

/-! ## Constructions -/

namespace Monomial

/-- A way to obtain a unit. -/
inductive Construction where
  | one
  | ofPower (p : Exponent)
  | base (dim : String)
  | read (surplus : Data.Excess) (d : Data)
  | set (c : Construction) (dim : String) (e : Exponent)
  | setPower (c : Construction) (p : Exponent)
  | assign (c : Construction) (k : Component) (e : Exponent)
  | mul (c d : Construction)
  | div (c d : Construction)

namespace Construction

/-- The unit that is obtained, unless data cannot be read or a product leaves the range. -/
def eval : Construction → Option Monomial
  | one => some Monomial.one
  | ofPower p => some (Monomial.ofPower p)
  | base dim => some (Monomial.base dim)
  | read surplus d => d.monomial? surplus
  | set c dim e => c.eval.map fun m => m.set dim e
  | setPower c p => c.eval.map fun m => m.setPower p
  | assign c k e => c.eval.map fun m => k.assign m e
  | mul c d => do (← c.eval).mul? (← d.eval)
  | div c d => do (← c.eval).div? (← d.eval)

/-- The vector that a construction stands for, if all integers on the way are in range. -/
def Denotes : Construction → (Component → Int) → Prop
  | one, f => f = fun _ => 0
  | ofPower p, f => f = Function.update (fun _ => 0) .power p.val
  | base dim, f => f = Function.update (fun _ => 0) (.dimension dim) 1
  | read surplus d, f => ∃ w, d.written? surplus = some w ∧ writtenValues w = f
  | set c dim e, f => ∃ g, c.Denotes g ∧ Function.update g (.dimension dim) e.val = f
  | setPower c p, f => ∃ g, c.Denotes g ∧ Function.update g .power p.val = f
  | assign c k e, f => ∃ g, c.Denotes g ∧ Function.update g k e.val = f
  | mul c d, f => ∃ g h, c.Denotes g ∧ d.Denotes h ∧ (∀ k, f k = g k + h k) ∧
    ∀ k, InExponentRange (f k)
  | div c d, f => ∃ g h, c.Denotes g ∧ d.Denotes h ∧ (∀ k, f k = g k - h k) ∧
    ∀ k, InExponentRange (f k)

theorem exists_map_iff {α β : Type} {x : Option α} {g : α → β} {P : β → Prop} :
    (∃ b, x.map g = some b ∧ P b) ↔ ∃ a, x = some a ∧ P (g a) := by
  cases x <;> simp

theorem exists_values_iff {x : Option Monomial} {P : (Component → Int) → Prop} :
    (∃ g, (∃ m, x = some m ∧ m.values = g) ∧ P g) ↔ ∃ m, x = some m ∧ P m.values := by
  cases x <;> simp

theorem exists_values_combine?_iff {op : Int → Int → Int} (hop : ∀ x, op x 0 = x)
    {x y : Option Monomial} {f : Component → Int} :
    (∃ g h, (∃ m, x = some m ∧ m.values = g) ∧ (∃ m, y = some m ∧ m.values = h) ∧
        (∀ k, f k = op (g k) (h k)) ∧ ∀ k, InExponentRange (f k)) ↔
      ∃ r, (do combine? op (← x) (← y)) = some r ∧ r.values = f := by
  cases x with
  | none => simp
  | some a =>
    cases y with
    | none => simp
    | some b =>
      simp only [Option.bind_eq_bind, Option.bind_some, exists_combine?_values_iff hop]
      simp

/-- A construction gives a unit exactly if it stands for a vector, whose integers the unit then
has. -/
theorem denotes_iff {c : Construction} {f : Component → Int} :
    c.Denotes f ↔ ∃ m, c.eval = some m ∧ m.values = f := by
  induction c generalizing f with
  | one => simp [Denotes, eval, values_one, eq_comm]
  | ofPower p => simp [Denotes, eval, values_ofPower, eq_comm]
  | base dim => simp [Denotes, eval, values_base, eq_comm]
  | read surplus d =>
    simp only [Denotes, eval, Data.monomial?_eq_map_written?, exists_map_iff, values_ofExponents]
  | set c dim e ih =>
    simp only [Denotes, ih, eval, exists_map_iff, values_set]
    exact exists_values_iff
  | setPower c p ih =>
    simp only [Denotes, ih, eval, exists_map_iff, values_setPower]
    exact exists_values_iff
  | assign c k e ih =>
    simp only [Denotes, ih, eval, exists_map_iff, values_assign]
    exact exists_values_iff
  | mul c d ihc ihd =>
    simp only [Denotes, ihc, ihd]
    exact exists_values_combine?_iff Int.add_zero
  | div c d ihc ihd =>
    simp only [Denotes, ihc, ihd]
    exact exists_values_combine?_iff Int.sub_zero

/-- Whatever the constructions, a unit stores the vector of its construction without zero exponents,
and two units are equal exactly if they have the same power of ten and the same exponent in every
dimension, which is to say if their constructions stand for the same vector. -/
theorem eval_canonical {c c' : Construction} {m m' : Monomial} (h : c.eval = some m)
    (h' : c'.eval = some m') :
    (∀ e ∈ m.exponents.entries, e.2 ≠ 0) ∧
    (∃ f, c.Denotes f ∧ m.Stores f) ∧
    (m = m' ↔ m.power = m'.power ∧ ∀ dim, m.exponent dim = m'.exponent dim) ∧
    ∀ f f', c.Denotes f → c'.Denotes f' → (m = m' ↔ f = f') := by
  have hdenotes : c.Denotes m.values := denotes_iff.2 ⟨m, h, rfl⟩
  have hstores := m.stores_values
  refine ⟨?_, ⟨m.values, hdenotes, hstores⟩, ?_, ?_⟩
  · rintro ⟨dim, e⟩ he hzero
    exact ((hstores.mem_entries_iff dim e).1 he).2 (congrArg Exponent.val hzero)
  · rw [← values_inj, values_eq_iff]
  · intro f f' hf hf'
    obtain ⟨n, hn, rfl⟩ := denotes_iff.1 hf
    obtain ⟨n', hn', rfl⟩ := denotes_iff.1 hf'
    rw [values_inj, Option.some.inj (h.symm.trans hn), Option.some.inj (h'.symm.trans hn')]

/-- A length times a time, divided by the time again. -/
def cancelled : Construction := div (mul (base "m") (base "s")) (base "s")

/-- A length that is written with a zero exponent for the time. -/
def padded : Construction :=
  read .refused (.record [("exponents", .record [("s", .int 0), ("m", .int 1)])])

theorem eval_canonical_length :
    cancelled.eval = some (.base "m") ∧ padded.eval = some (.base "m") ∧
      ∃ f, cancelled.Denotes f ∧ padded.Denotes f ∧ (Monomial.base "m").Stores f := by
  have hcancelled : cancelled.eval = some (.base "m") := by decide +kernel
  have hpadded : padded.eval = some (.base "m") := by decide +kernel
  obtain ⟨-, ⟨f, hf, hstores⟩, -, heq⟩ := eval_canonical hcancelled hpadded
  obtain ⟨-, ⟨f', hf', -⟩, -⟩ := eval_canonical hpadded hcancelled
  exact ⟨hcancelled, hpadded, f, hf, (heq f f' hf hf').1 rfl ▸ hf', hstores⟩

end Construction
end Monomial
end Metrology
