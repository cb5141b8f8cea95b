import Metrology.Proofs.Lattice
import Mathlib.Order.Lattice

/-!
# Joins of qualifiers

The order of the qualifiers is flat between the bottom and the top.  A join is therefore one of its
operands, or it is the top and nothing else is above both operands.  So it is the least upper bound,
and whatever else merging relies on follows from that.
-/

namespace Metrology
namespace Qualifier

variable {a b c : Qualifier}

theorem le_antisymm (hab : a ≤ b) (hba : b ≤ a) : a = b := by
  rcases le_iff.1 hab with rfl | rfl | rfl
  · rcases le_iff.1 hba with h | h | h
    · exact h
    · cases h
    · exact h.symm
  · rcases le_iff.1 hba with h | h | h
    · cases h
    · exact h.symm
    · exact h.symm
  · rfl

theorem le_top (a : Qualifier) : a ≤ top := .inl rfl

theorem bottom_le (a : Qualifier) : bottom ≤ a := .inr (.inl rfl)

/-- Only the top is above two different qualifiers that are above the bottom. -/
theorem eq_top_of_le (ha : a ≠ bottom) (hb : b ≠ bottom) (hne : a ≠ b) (hac : a ≤ c)
    (hbc : b ≤ c) : c = top := by
  rcases le_iff.1 hac with h | h | rfl
  · exact h
  · exact absurd h ha
  · rcases le_iff.1 hbc with h | h | h
    · exact h
    · exact absurd h hb
    · exact absurd h.symm hne

/-! ## What a join can be -/

@[simp]
theorem bottom_join (b : Qualifier) : bottom.join b = b := by cases b <;> rfl

@[simp]
theorem join_bottom (a : Qualifier) : a.join bottom = a := by cases a <;> rfl

theorem join_of_ne_bottom (ha : a ≠ bottom) (hb : b ≠ bottom) :
    a.join b = if a = b then a else top := by
  cases a with
  | top => cases b <;> rfl
  | bottom => exact absurd rfl ha
  | poly | concrete m =>
    cases b with
    | top | poly | concrete n => rfl
    | bottom => exact absurd rfl hb

/-- A join is the greater of two comparable qualifiers, or the top and their only upper bound. -/
theorem join_cases (a b : Qualifier) :
    a ≤ b ∧ a.join b = b ∨ b ≤ a ∧ a.join b = a ∨
      a.join b = top ∧ ∀ c, a ≤ c → b ≤ c → c = top := by
  by_cases ha : a = bottom
  · subst ha
    exact .inl ⟨bottom_le b, bottom_join b⟩
  by_cases hb : b = bottom
  · subst hb
    exact .inr (.inl ⟨bottom_le a, join_bottom a⟩)
  rw [join_of_ne_bottom ha hb]
  split
  · rename_i heq
    subst heq
    exact .inl ⟨le_refl a, rfl⟩
  · rename_i hne
    exact .inr (.inr ⟨rfl, fun _ => eq_top_of_le ha hb hne⟩)

/-! ## The least upper bound -/

theorem le_join_left (a b : Qualifier) : a ≤ a.join b := by
  rcases join_cases a b with ⟨hle, h⟩ | ⟨-, h⟩ | ⟨h, -⟩
  · rwa [h]
  · rw [h]
    exact le_refl a
  · rw [h]
    exact le_top a

theorem le_join_right (a b : Qualifier) : b ≤ a.join b := by
  rcases join_cases a b with ⟨-, h⟩ | ⟨hle, h⟩ | ⟨h, -⟩
  · rw [h]
    exact le_refl b
  · rwa [h]
  · rw [h]
    exact le_top b

theorem join_le (hac : a ≤ c) (hbc : b ≤ c) : a.join b ≤ c := by
  rcases join_cases a b with ⟨-, h⟩ | ⟨-, h⟩ | ⟨-, honly⟩
  · rwa [h]
  · rwa [h]
  · rw [honly c hac hbc]
    exact le_top _

/-- The qualifiers as a semilattice. -/
abbrev semilattice : SemilatticeSup Qualifier where
  sup := join
  le_refl := le_refl
  le_trans _ _ _ := le_trans
  le_antisymm _ _ := le_antisymm
  le_sup_left := le_join_left
  le_sup_right := le_join_right
  sup_le _ _ _ := join_le

/-- The qualifiers are partially ordered, and the join of two is the least one above both.  Hence
joins commute, associate and are idempotent, and a qualifier is below another exactly if their join
is the other. -/
theorem join_least_above (a b c : Qualifier) :
    (a ≤ a ∧ (a ≤ b → b ≤ c → a ≤ c) ∧ (a ≤ b → b ≤ a → a = b)) ∧
    (a ≤ a.join b ∧ b ≤ a.join b ∧ (a ≤ c → b ≤ c → a.join b ≤ c)) ∧
    a.join b = b.join a ∧ (a.join b).join c = a.join (b.join c) ∧ a.join a = a ∧
    (a ≤ b ↔ a.join b = b) := by
  let _ := semilattice
  exact ⟨⟨le_refl a, le_trans, le_antisymm⟩, ⟨le_join_left a b, le_join_right a b, join_le⟩,
    sup_comm a b, sup_assoc a b c, sup_idem a, sup_eq_right.symm⟩

/-- The bottom vanishes beside a length, and the only join of a length with a time is the top. -/
theorem join_least_above_length :
    (bottom ≤ base "m" ∧ base "m" ≤ base "m" ∧ bottom.join (base "m") ≤ base "m") ∧
      (base "m").join bottom = base "m" ∧ (base "m").join (base "s") = top ∧ bottom ≤ top := by
  have hle : bottom ≤ base "m" := by decide
  have hself : base "m" ≤ base "m" := by decide
  obtain ⟨-, ⟨-, -, hleast⟩, -⟩ := join_least_above bottom (base "m") (base "m")
  obtain ⟨⟨-, -, hantisymm⟩, -⟩ := join_least_above ((base "m").join bottom) (base "m") top
  obtain ⟨⟨-, htrans, -⟩, -⟩ := join_least_above bottom (base "m") top
  exact ⟨⟨hle, hself, hleast hle hself⟩, hantisymm (by decide) (by decide), by decide,
    htrans hle (by decide)⟩

end Qualifier
end Metrology
