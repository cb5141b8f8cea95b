import Metrology.Proofs.Linear.Propagation
import Metrology.Proofs.Qualifier
import Mathlib.Algebra.BigOperators.Ring.Finset

/-!
# What the relations of a constraint mean

Once categories are settled, every operand is at the top, at the bottom or
concrete.  For units that agree with the categories, the relations of a
constraint hold exactly if the constraint does, and a conflict excludes the
constraint.
-/

namespace Metrology

namespace Linear

/-- A unit is the one of its category, and concrete if it has none. -/
def Fits : Option Category → Qualifier → Prop
  | some c, unit => unit = c.unit
  | none, unit => ∃ u, unit = .concrete u

/-- The units of an operand agree with the categories and with the operand's own constant. -/
structure Respects (k : Categories) (unit : Operand → Qualifier) (o : Operand) : Prop where
  fits : Fits (k.of o) (unit o)
  constant : ∀ q, o.slot = .constant q → unit o = q.polyAsTop

namespace Relation

/-- The combination of the components of the operands' units. -/
def total (r : Relation) (c : Component) (unit : Operand → Qualifier) : Int :=
  (r.terms.map fun t => t.2 * c.valueIn (unit t.1)).sum

/-- The combination vanishes in every component. -/
def Holds (r : Relation) (unit : Operand → Qualifier) : Prop := ∀ c, r.total c unit = 0

theorem holds_equal_iff
    {origin : Constraint SlotId} {a b : Operand} {unit : Operand → Qualifier} {u v : Monomial}
    (ha : unit a = .concrete u) (hb : unit b = .concrete v) :
    (equal origin a b).Holds unit ↔ unit a = unit b := by
  rw [ha, hb, Component.concrete_eq_iff]
  refine forall_congr' fun c => ?_
  simp only [total, equal, List.map_cons, List.map_nil, List.sum_cons, List.sum_nil, ha, hb]
  omega

end Relation

/-! ## Constraints by kind -/

namespace Categories

variable {k : Categories} {unit : Operand → Qualifier} {origin : Constraint SlotId}
variable {a b lhs rhs result : Operand} {relations : List Relation} {why : Conflict}

theorem of_eq_some_iff (h : Fits (k.of a) (unit a)) {c : Category} :
    k.of a = some c ↔ unit a = c.unit := by
  rcases hk : k.of a with _ | c' <;> rw [hk] at h
  · obtain ⟨u, hu⟩ := h
    cases c <;> simp [hu, Category.unit]
  · have hunit : unit a = c'.unit := h
    cases c <;> cases c' <;> simp [hunit, Category.unit]

theorem isTop_iff (h : Fits (k.of a) (unit a)) : k.isTop a = true ↔ unit a = .top :=
  isTop_iff_of_eq.trans (of_eq_some_iff h)

theorem isBottom_iff (h : Fits (k.of a) (unit a)) : k.isBottom a = true ↔ unit a = .bottom :=
  isBottom_iff_of_eq.trans (of_eq_some_iff h)

theorem of_eq_none_iff (h : Fits (k.of a) (unit a)) :
    k.of a = none ↔ ∃ u, unit a = .concrete u := by
  rcases hk : k.of a with _ | c <;> rw [hk] at h
  · exact ⟨fun _ => h, fun _ => rfl⟩
  · cases c <;> simp [show unit a = _ from h, Category.unit]

theorem of_eq_none_of_not
    (htop : ¬k.isTop a = true) (hbottom : ¬k.isBottom a = true) : k.of a = none := by
  rcases hk : k.of a with _ | _ | _
  · rfl
  · simp [isTop, hk] at htop
  · simp [isBottom, hk] at hbottom

/-- Operands without a category are concrete. -/
theorem exists_concrete
    (h : Fits (k.of a) (unit a)) (htop : ¬k.isTop a = true) (hbottom : ¬k.isBottom a = true) :
    ∃ u, unit a = .concrete u :=
  (of_eq_none_iff h).1 (of_eq_none_of_not htop hbottom)

/-- Relations of equality hold exactly of equal units. -/
theorem same_eq_ok
    (ha : Fits (k.of a) (unit a)) (hb : Fits (k.of b) (unit b))
    (h : k.same origin a b = .ok relations) :
    unit a = unit b ↔ ∀ r ∈ relations, r.Holds unit := by
  unfold same at h
  split at h
  · rename_i hka hkb
    obtain ⟨u, hu⟩ := (of_eq_none_iff ha).1 hka
    obtain ⟨v, hv⟩ := (of_eq_none_iff hb).1 hkb
    cases h
    simp [Relation.holds_equal_iff hu hv]
  · rename_i hnone
    split at h
    · rename_i hkk
      cases h
      rcases hka : k.of a with _ | c
      · exact absurd (hkk ▸ hka) (hnone hka)
      · have hua := (of_eq_some_iff ha).1 hka
        have hub := (of_eq_some_iff hb).1 (hkk ▸ hka)
        simp [hua, hub]
    · cases h

/-- Operands whose categories conflict are not equal. -/
theorem same_eq_error
    (ha : Fits (k.of a) (unit a)) (hb : Fits (k.of b) (unit b))
    (h : k.same origin a b = .error why) : unit a ≠ unit b := by
  unfold same at h
  split at h
  · cases h
  · split at h
    · cases h
    · rename_i hne
      intro heq
      apply hne
      rcases hka : k.of a with _ | c
      · obtain ⟨u, hu⟩ := (of_eq_none_iff ha).1 hka
        exact ((of_eq_none_iff hb).2 ⟨u, heq ▸ hu⟩).symm
      · have hua := (of_eq_some_iff ha).1 hka
        exact ((of_eq_some_iff hb).2 (heq ▸ hua)).symm

theorem require_eq_ok
    (ha : Fits (k.of a) (unit a)) {c : Category} (h : k.require a c = .ok relations) :
    relations = [] ∧ unit a = c.unit := by
  unfold require at h
  split at h
  · rename_i hk
    cases h
    exact ⟨rfl, (of_eq_some_iff ha).1 hk⟩
  · cases h

theorem require_eq_error
    (ha : Fits (k.of a) (unit a)) {c : Category} (h : k.require a c = .error why) :
    unit a ≠ c.unit := by
  unfold require at h
  split at h
  · cases h
  · rename_i hk
    exact fun hu => hk ((of_eq_some_iff ha).2 hu)

variable (origin result) in
/-- The two ways in which an operation is encoded: its operands give it a category, which the
result must have, or they are concrete. -/
theorem arithmetic_cases
    {op : Qualifier → Qualifier → Qualifier} {sign : Int} (hop : Qualifier.Arithmetic op sign)
    (hl : Fits (k.of lhs) (unit lhs)) (hr : Fits (k.of rhs) (unit rhs)) :
    (∃ c : Category, op (unit lhs) (unit rhs) = c.unit ∧
      k.arithmetic origin lhs rhs result sign = k.require result c) ∨
    (∃ u v, unit lhs = .concrete u ∧ unit rhs = .concrete v ∧
      k.arithmetic origin lhs rhs result sign =
        match k.of result with
        | none => .ok [⟨origin, [(result, 1), (lhs, -1), (rhs, sign)]⟩]
        | found => .error (.arithmeticResult found)) := by
  unfold arithmetic
  split
  · rename_i htop
    refine .inl ⟨.top, ?_, rfl⟩
    rcases Bool.or_eq_true_iff.1 htop with htop | htop
    · rw [(isTop_iff hl).1 htop, hop.top_left, Category.unit]
    · rw [(isTop_iff hr).1 htop, hop.top_right, Category.unit]
  · rename_i htop
    obtain ⟨hltop, hrtop⟩ := not_or.1 (mt Bool.or_eq_true_iff.2 htop)
    split
    · rename_i hbottom
      refine .inl ⟨.bottom, ?_, rfl⟩
      by_cases hlbottom : k.isBottom lhs = true
      · by_cases hrbottom : k.isBottom rhs = true
        · rw [(isBottom_iff hl).1 hlbottom, (isBottom_iff hr).1 hrbottom, hop.bottom_bottom,
            Category.unit]
        · obtain ⟨v, hv⟩ := exists_concrete hr hrtop hrbottom
          rw [(isBottom_iff hl).1 hlbottom, hv, hop.bottom_left, Category.unit]
      · obtain ⟨u, hu⟩ := exists_concrete hl hltop hlbottom
        have hrbottom := (Bool.or_eq_true_iff.1 hbottom).resolve_left hlbottom
        rw [hu, (isBottom_iff hr).1 hrbottom, hop.bottom_right, Category.unit]
    · rename_i hbottom
      obtain ⟨hlbottom, hrbottom⟩ := not_or.1 (mt Bool.or_eq_true_iff.2 hbottom)
      obtain ⟨u, hu⟩ := exists_concrete hl hltop hlbottom
      obtain ⟨v, hv⟩ := exists_concrete hr hrtop hrbottom
      exact .inr ⟨u, v, hu, hv, rfl⟩

/-- The relations of an operation hold exactly if its result is right. -/
theorem arithmetic_eq_ok
    {op : Qualifier → Qualifier → Qualifier} {sign : Int} (hop : Qualifier.Arithmetic op sign)
    (hl : Fits (k.of lhs) (unit lhs)) (hr : Fits (k.of rhs) (unit rhs))
    (hresult : Fits (k.of result) (unit result))
    (h : k.arithmetic origin lhs rhs result sign = .ok relations) :
    op (unit lhs) (unit rhs) = unit result ↔ ∀ r ∈ relations, r.Holds unit := by
  rcases arithmetic_cases origin result hop hl hr with
    ⟨c, hc, heq⟩ | ⟨u, v, hu, hv, heq⟩
  · obtain ⟨rfl, hunit⟩ := require_eq_ok hresult (heq ▸ h)
    simp [hc, hunit]
  · rw [heq] at h
    split at h
    · rename_i hk
      obtain ⟨w, hw⟩ := (of_eq_none_iff hresult).1 hk
      cases h
      rw [hu, hv, hw, hop.concrete_iff]
      simp only [List.mem_singleton, forall_eq, Relation.Holds]
      refine forall_congr' fun c => ?_
      simp only [Relation.total, List.map_cons, List.map_nil, List.sum_cons, List.sum_nil,
        hu, hv, hw, Component.valueIn]
      omega
    · cases h

/-- A conflict around an operation excludes its result, unless the result is the top because
an exponent leaves its range. -/
theorem arithmetic_eq_error
    {op : Qualifier → Qualifier → Qualifier} {sign : Int} (hop : Qualifier.Arithmetic op sign)
    (hl : Fits (k.of lhs) (unit lhs)) (hr : Fits (k.of rhs) (unit rhs))
    (hresult : Fits (k.of result) (unit result))
    (hrange : ∀ u v, unit lhs = .concrete u → unit rhs = .concrete v →
      op (.concrete u) (.concrete v) ≠ .top)
    (h : k.arithmetic origin lhs rhs result sign = .error why) :
    op (unit lhs) (unit rhs) ≠ unit result := by
  rcases arithmetic_cases origin result hop hl hr with
    ⟨c, hc, heq⟩ | ⟨u, v, hu, hv, heq⟩
  · rw [hc]
    exact Ne.symm (require_eq_error hresult (heq ▸ h))
  · rw [heq] at h
    split at h
    · cases h
    · rename_i hk
      rcases hkr : k.of result with _ | c
      · exact absurd hkr hk
      · rw [hu, hv, (of_eq_some_iff hresult).1 hkr]
        cases c with
        | top => exact hrange u v hu hv
        | bottom => exact hop.concrete_ne_bottom u v

variable (result) in
/-- The ways in which a join is encoded, by the units of its operands. -/
theorem join_cases
    (hl : Fits (k.of lhs) (unit lhs)) (hr : Fits (k.of rhs) (unit rhs)) :
    ((unit lhs).join (unit rhs) = .top ∧
      k.relations (.join lhs rhs result) = k.require result .top) ∨
    (∃ other, (unit lhs).join (unit rhs) = unit other ∧ Fits (k.of other) (unit other) ∧
      k.relations (.join lhs rhs result) =
        k.same (.join lhs.id rhs.id result.id) result other) ∨
    (∃ u v, unit lhs = .concrete u ∧ unit rhs = .concrete v ∧
      k.relations (.join lhs rhs result) =
        k.joinConcrete (.join lhs.id rhs.id result.id) lhs rhs result) := by
  simp only [relations, Constraint.map]
  split
  · rename_i htop
    refine .inl ⟨?_, rfl⟩
    rcases Bool.or_eq_true_iff.1 htop with htop | htop
    · rw [(isTop_iff hl).1 htop]
      cases unit rhs <;> rfl
    · rw [(isTop_iff hr).1 htop]
      cases unit lhs <;> rfl
  · rename_i htop
    obtain ⟨hltop, hrtop⟩ := not_or.1 (mt Bool.or_eq_true_iff.2 htop)
    split
    · rename_i hlbottom
      refine .inr (.inl ⟨rhs, ?_, hr, rfl⟩)
      rw [(isBottom_iff hl).1 hlbottom]
      cases unit rhs <;> rfl
    · rename_i hlbottom
      split
      · rename_i hrbottom
        refine .inr (.inl ⟨lhs, ?_, hl, rfl⟩)
        rw [(isBottom_iff hr).1 hrbottom]
        cases unit lhs <;> rfl
      · rename_i hrbottom
        obtain ⟨u, hu⟩ := exists_concrete hl hltop hlbottom
        obtain ⟨v, hv⟩ := exists_concrete hr hrtop hrbottom
        exact .inr (.inr ⟨u, v, hu, hv, rfl⟩)

theorem join_concrete (u v : Monomial) :
    (Qualifier.concrete u).join (.concrete v) = if u = v then .concrete u else .top := by
  simp [Qualifier.join]

/-- A constant operand that is concrete has its own unit. -/
theorem constant_eq_of_concrete
    {o : Operand} {q : Qualifier} {u : Monomial} (h : Respects k unit o)
    (hslot : o.slot = .constant q) (hu : unit o = .concrete u) : q = .concrete u := by
  have hq := h.constant q hslot
  rw [hu] at hq
  cases q with
  | concrete v => exact hq.symm
  | top | bottom | poly => cases hq

/-- Where the result of a join of operands without categories is the top, the join has two
constants. -/
theorem constants_of_not_needsDisequality
    (hl : k.of lhs = none) (hr : k.of rhs = none) (htop : k.of result = some .top)
    (h : k.needsDisequality (.join lhs rhs result) = false) :
    ∃ p q, lhs.slot = .constant p ∧ rhs.slot = .constant q := by
  simp only [needsDisequality, isTop, htop, hl, hr, beq_self_eq_true, Option.isNone_none,
    Bool.and_self, Bool.true_and, Bool.not_eq_false', Bool.and_eq_true] at h
  cases hls : lhs.slot with
  | unknown location => simp [hls, Slot.constant?] at h
  | constant p =>
    cases hrs : rhs.slot with
    | unknown location => simp [hrs, Slot.constant?] at h
    | constant q => exact ⟨p, q, rfl, rfl⟩

theorem joinConcrete_eq_ok
    {u v : Monomial} (hl : Respects k unit lhs) (hr : Respects k unit rhs)
    (hresult : Fits (k.of result) (unit result))
    (hu : unit lhs = .concrete u) (hv : unit rhs = .concrete v)
    (hdis : k.needsDisequality (.join lhs rhs result) = false)
    (h : k.joinConcrete origin lhs rhs result = .ok relations) :
    (unit lhs).join (unit rhs) = unit result ↔ ∀ r ∈ relations, r.Holds unit := by
  unfold joinConcrete at h
  split at h
  · rename_i hk
    obtain ⟨w, hw⟩ := (of_eq_none_iff hresult).1 hk
    cases h
    simp only [List.mem_cons, List.not_mem_nil, or_false, forall_eq_or_imp, forall_eq,
      Relation.holds_equal_iff hu hv, Relation.holds_equal_iff hv hw]
    rw [hu, hv, hw, join_concrete]
    by_cases huv : u = v <;> simp [huv]
  · cases h
  · rename_i hk
    obtain ⟨p, q, hp, hq⟩ := constants_of_not_needsDisequality
      ((of_eq_none_iff hl.fits).2 ⟨u, hu⟩) ((of_eq_none_iff hr.fits).2 ⟨v, hv⟩) hk hdis
    rw [hp, hq] at h
    simp only at h
    split at h
    · cases h
    · rename_i hne
      cases h
      rw [constant_eq_of_concrete hl hp hu, constant_eq_of_concrete hr hq hv] at hne
      have huv : u ≠ v := fun heq => hne (congrArg _ heq)
      have hunit := (of_eq_some_iff hresult).1 hk
      simp [hu, hv, join_concrete, huv, hunit, Category.unit]

theorem joinConcrete_eq_error
    {u v : Monomial} (hl : Respects k unit lhs) (hr : Respects k unit rhs)
    (hresult : Fits (k.of result) (unit result))
    (hu : unit lhs = .concrete u) (hv : unit rhs = .concrete v)
    (h : k.joinConcrete origin lhs rhs result = .error why) :
    (unit lhs).join (unit rhs) ≠ unit result := by
  unfold joinConcrete at h
  split at h
  · cases h
  · rename_i hk
    rw [hu, hv, join_concrete, (of_eq_some_iff hresult).1 hk, Category.unit]
    by_cases huv : u = v <;> simp [huv]
  · rename_i hk
    split at h
    · rename_i p q hp hq
      split at h
      · rename_i heq
        rw [constant_eq_of_concrete hl hp hu, constant_eq_of_concrete hr hq hv] at heq
        rw [hu, hv, join_concrete, (of_eq_some_iff hresult).1 hk, Category.unit,
          if_pos (Qualifier.concrete.inj heq)]
        simp
      · cases h
    · cases h

/-! ## Operands of relations -/

/-- A relation is between operands without categories out of a given list. -/
def Plain (k : Categories) (slots : List Operand) (r : Relation) : Prop :=
  ∀ t ∈ r.terms, t.1 ∈ slots ∧ k.of t.1 = none

theorem plain_of_same_eq_ok
    {slots : List Operand} (ha : a ∈ slots) (hb : b ∈ slots)
    (h : k.same origin a b = .ok relations) : ∀ r ∈ relations, Plain k slots r := by
  unfold same at h
  split at h
  · rename_i hka hkb
    cases h
    simp only [Plain, Relation.equal, List.forall_mem_cons]
    simp [ha, hb, hka, hkb]
  · split at h
    · cases h
      simp
    · cases h

theorem plain_of_require_eq_ok
    {slots : List Operand} {c : Category} (h : k.require a c = .ok relations) :
    ∀ r ∈ relations, Plain k slots r := by
  unfold require at h
  split at h
  · cases h
    simp
  · cases h

theorem plain_of_arithmetic_eq_ok
    {slots : List Operand} {sign : Int}
    (hl : lhs ∈ slots) (hr : rhs ∈ slots) (hresult : result ∈ slots)
    (h : k.arithmetic origin lhs rhs result sign = .ok relations) :
    ∀ r ∈ relations, Plain k slots r := by
  unfold arithmetic at h
  split at h
  · exact plain_of_require_eq_ok h
  · rename_i htop
    obtain ⟨hltop, hrtop⟩ := not_or.1 (mt Bool.or_eq_true_iff.2 htop)
    split at h
    · exact plain_of_require_eq_ok h
    · rename_i hbottom
      obtain ⟨hlbottom, hrbottom⟩ := not_or.1 (mt Bool.or_eq_true_iff.2 hbottom)
      split at h
      · rename_i hk
        cases h
        simp only [Plain, List.forall_mem_cons]
        simp [hl, hr, hresult, hk, of_eq_none_of_not hltop hlbottom,
          of_eq_none_of_not hrtop hrbottom]
      · cases h

theorem plain_of_join_eq_ok
    {slots : List Operand}
    (hl : lhs ∈ slots) (hr : rhs ∈ slots) (hresult : result ∈ slots)
    (h : k.relations (.join lhs rhs result) = .ok relations) :
    ∀ r ∈ relations, Plain k slots r := by
  simp only [Categories.relations] at h
  split at h
  · exact plain_of_require_eq_ok h
  · rename_i htop
    obtain ⟨hltop, hrtop⟩ := not_or.1 (mt Bool.or_eq_true_iff.2 htop)
    split at h
    · exact plain_of_same_eq_ok hresult hr h
    · rename_i hlbottom
      split at h
      · exact plain_of_same_eq_ok hresult hl h
      · rename_i hrbottom
        unfold joinConcrete at h
        split at h
        · rename_i hk
          cases h
          simp only [Plain, Relation.equal, List.forall_mem_cons]
          simp [hl, hr, hresult, hk, of_eq_none_of_not hltop hlbottom,
            of_eq_none_of_not hrtop hrbottom]
        · cases h
        · split at h
          · split at h
            · cases h
            · cases h
              simp
          · cases h
            simp

/-- Categorical operands never enter a relation. -/
theorem plain_of_relations_eq_ok
    {c : Constraint Operand} (h : k.relations c = .ok relations) :
    ∀ r ∈ relations, Plain k c.slots r := by
  cases c with
  | equal lhs rhs =>
    exact plain_of_same_eq_ok (by simp [Constraint.slots]) (by simp [Constraint.slots]) h
  | subtype sub sup =>
    simp only [Categories.relations] at h
    split at h
    · cases h
      simp
    · exact plain_of_same_eq_ok (by simp [Constraint.slots]) (by simp [Constraint.slots]) h
  | join lhs rhs result =>
    exact plain_of_join_eq_ok (by simp [Constraint.slots]) (by simp [Constraint.slots])
      (by simp [Constraint.slots]) h
  | product lhs rhs result | quotient lhs rhs result =>
    exact plain_of_arithmetic_eq_ok (by simp [Constraint.slots]) (by simp [Constraint.slots])
      (by simp [Constraint.slots]) h

/-! ## All constraints -/

theorem divisor_ne_bottom
    (hr : Fits (k.of rhs) (unit rhs)) (h : k.divisionError? (.quotient lhs rhs result) = none) :
    unit rhs ≠ .bottom := by
  intro hbottom
  simp [divisionError?, (isBottom_iff hr).2 hbottom] at h

/-- For units that agree with the categories, the relations of a constraint hold exactly if the
constraint does. -/
theorem relations_eq_ok
    {c : Constraint Operand} (hunit : ∀ o ∈ c.slots, Respects k unit o)
    (hdiv : k.divisionError? c = none) (hdis : k.needsDisequality c = false)
    (h : k.relations c = .ok relations) :
    (c.map unit).Holds ↔ ∀ r ∈ relations, r.Holds unit := by
  cases c with
  | equal lhs rhs =>
    obtain ⟨hl, hr⟩ := Constraint.and_of_forall_mem_pair hunit
    exact same_eq_ok hl.fits hr.fits h
  | subtype sub sup =>
    obtain ⟨hsub, hsup⟩ := Constraint.and_of_forall_mem_pair hunit
    simp only [Categories.relations] at h
    change unit sup = .top ∨ unit sub = .bottom ∨ unit sub = unit sup ↔ _
    split at h
    · rename_i htrivial
      cases h
      rcases Bool.or_eq_true_iff.1 htrivial with htop | hbottom
      · simp [(isTop_iff hsup.fits).1 htop]
      · simp [(isBottom_iff hsub.fits).1 hbottom]
    · rename_i htrivial
      obtain ⟨htop, hbottom⟩ := not_or.1 (mt Bool.or_eq_true_iff.2 htrivial)
      rw [isTop_iff hsup.fits] at htop
      rw [isBottom_iff hsub.fits] at hbottom
      simp only [htop, hbottom, false_or]
      exact same_eq_ok hsub.fits hsup.fits h
  | join lhs rhs result =>
    obtain ⟨hl, hr, hresult⟩ := Constraint.and_of_forall_mem_triple hunit
    change (unit lhs).join (unit rhs) = unit result ↔ _
    rcases join_cases result hl.fits hr.fits with
      ⟨hjoin, heq⟩ | ⟨other, hjoin, hother, heq⟩ | ⟨u, v, hu, hv, heq⟩
    · obtain ⟨rfl, hunit⟩ := require_eq_ok hresult.fits (heq ▸ h)
      simp [hjoin, hunit, Category.unit]
    · rw [hjoin, eq_comm]
      exact same_eq_ok hresult.fits hother (heq ▸ h)
    · exact joinConcrete_eq_ok hl hr hresult.fits hu hv hdis (heq ▸ h)
  | product lhs rhs result =>
    obtain ⟨hl, hr, hresult⟩ := Constraint.and_of_forall_mem_triple hunit
    exact arithmetic_eq_ok Qualifier.mul_arithmetic hl.fits hr.fits hresult.fits h
  | quotient lhs rhs result =>
    obtain ⟨hl, hr, hresult⟩ := Constraint.and_of_forall_mem_triple hunit
    refine (Constraint.quotient_holds_iff (divisor_ne_bottom hr.fits hdiv)).trans ?_
    exact arithmetic_eq_ok Qualifier.quotient_arithmetic hl.fits hr.fits hresult.fits h

/-- For units that agree with the categories and stay in range, a conflict excludes the
constraint. -/
theorem relations_eq_error
    {c : Constraint Operand} (hunit : ∀ o ∈ c.slots, Respects k unit o)
    (hdiv : k.divisionError? c = none) (hrange : (c.map unit).InRange)
    (h : k.relations c = .error why) : ¬(c.map unit).Holds := by
  cases c with
  | equal lhs rhs =>
    obtain ⟨hl, hr⟩ := Constraint.and_of_forall_mem_pair hunit
    exact same_eq_error hl.fits hr.fits h
  | subtype sub sup =>
    obtain ⟨hsub, hsup⟩ := Constraint.and_of_forall_mem_pair hunit
    simp only [Categories.relations] at h
    split at h
    · cases h
    · rename_i htrivial
      obtain ⟨htop, hbottom⟩ := not_or.1 (mt Bool.or_eq_true_iff.2 htrivial)
      rintro (hunit | hunit | hunit)
      · exact htop ((isTop_iff hsup.fits).2 hunit)
      · exact hbottom ((isBottom_iff hsub.fits).2 hunit)
      · exact same_eq_error hsub.fits hsup.fits h hunit
  | join lhs rhs result =>
    obtain ⟨hl, hr, hresult⟩ := Constraint.and_of_forall_mem_triple hunit
    change (unit lhs).join (unit rhs) ≠ unit result
    rcases join_cases result hl.fits hr.fits with
      ⟨hjoin, heq⟩ | ⟨other, hjoin, hother, heq⟩ | ⟨u, v, hu, hv, heq⟩
    · rw [hjoin]
      exact Ne.symm (require_eq_error (c := .top) hresult.fits (heq ▸ h))
    · rw [hjoin]
      exact Ne.symm (same_eq_error hresult.fits hother (heq ▸ h))
    · exact joinConcrete_eq_error hl hr hresult.fits hu hv (heq ▸ h)
  | product lhs rhs result =>
    obtain ⟨hl, hr, hresult⟩ := Constraint.and_of_forall_mem_triple hunit
    refine arithmetic_eq_error Qualifier.mul_arithmetic hl.fits hr.fits hresult.fits ?_ h
    intro u v hu hv
    rw [Constraint.map, hu, hv] at hrange
    exact Qualifier.mul_arithmetic.ne_top_of_inRange
      (Constraint.inRange_product_iff.1 hrange)
  | quotient lhs rhs result =>
    obtain ⟨hl, hr, hresult⟩ := Constraint.and_of_forall_mem_triple hunit
    refine mt (Constraint.quotient_holds_iff (divisor_ne_bottom hr.fits hdiv)).1 ?_
    refine arithmetic_eq_error Qualifier.quotient_arithmetic hl.fits hr.fits hresult.fits ?_ h
    intro u v hu hv
    rw [Constraint.map, hu, hv] at hrange
    exact Qualifier.quotient_arithmetic.ne_top_of_inRange
      (Constraint.inRange_quotient_iff.1 hrange)

end Categories
end Linear
end Metrology
