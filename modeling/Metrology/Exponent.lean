/-!
# Exponents

Powers of ten and powers of base dimensions are integers of 32 bits.  The bound
is part of the type: an operation whose exact result leaves the range has no
result.
-/

namespace Metrology

/-- The integers that an exponent can take. -/
def InExponentRange (n : Int) : Prop := -2147483648 ≤ n ∧ n ≤ 2147483647

instance (n : Int) : Decidable (InExponentRange n) := by
  unfold InExponentRange
  infer_instance

/-- An integer of 32 bits. -/
@[ext]
structure Exponent where
  val : Int
  inRange : InExponentRange val
deriving DecidableEq

namespace Exponent

/-- The exponent with the given value, where the value fits. -/
def lit (n : Int) (h : InExponentRange n := by decide) : Exponent := ⟨n, h⟩

instance : OfNat Exponent 0 := ⟨lit 0⟩

instance : OfNat Exponent 1 := ⟨lit 1⟩

instance : Inhabited Exponent := ⟨0⟩

/-- The exponent with value `n`, if `n` is in range. -/
def ofInt? (n : Int) : Option Exponent :=
  if h : InExponentRange n then some ⟨n, h⟩ else none

instance : ToString Exponent := ⟨fun e => toString e.val⟩

instance : Ord Exponent := ⟨fun a b => compare a.val b.val⟩

@[simp]
theorem val_zero : (0 : Exponent).val = 0 := rfl

@[simp]
theorem val_one : (1 : Exponent).val = 1 := rfl

theorem ofInt?_eq_some_iff {n : Int} {e : Exponent} : ofInt? n = some e ↔ e.val = n := by
  unfold ofInt?
  split
  · constructor
    · rintro h
      cases h
      rfl
    · intro h
      subst h
      rfl
  · rename_i hn
    constructor
    · simp
    · rintro rfl
      exact absurd e.inRange hn

theorem ofInt?_eq_none_iff {n : Int} : ofInt? n = none ↔ ¬ InExponentRange n := by
  unfold ofInt?
  split <;> simp_all

end Exponent
end Metrology
