import Metrology.Proofs.Linear.Propagation
import Mathlib.Data.List.Nodup

/-!
# Contested constraints

Which categories a run over constraints ends with depends on their order in one situation: a
product or a quotient of an operand at the bottom and an unknown that ends at the top.  Visited
before the unknown has its category, such a constraint puts its result at the bottom.  Without
such a constraint all orders reach the same categories, and with one some order reaches others.
-/

namespace Metrology

/-- An operand is an unknown. -/
def Operand.IsUnknown (o : Operand) : Prop := o.slot.location?.isSome = true

instance (o : Operand) : Decidable o.IsUnknown := inferInstanceAs (Decidable (_ = true))

theorem Operand.isUnknown_iff {o : Operand} :
    o.IsUnknown ↔ ∃ location, o.slot = .unknown location := by
  rw [IsUnknown]
  cases o.slot <;> simp [Slot.location?]

/-- A product or a quotient with an unknown result, of an operand at the bottom and an unknown at
the top. -/
def Constraint.Contested (category : Operand → Option Category) : Constraint Operand → Prop
  | .product lhs rhs result | .quotient lhs rhs result =>
    result.IsUnknown ∧
      ((category lhs = some .bottom ∧ category rhs = some .top ∧ rhs.IsUnknown) ∨
        (category rhs = some .bottom ∧ category lhs = some .top ∧ lhs.IsUnknown))
  | .subtype .. | .equal .. | .join .. => False

instance (category : Operand → Option Category) (c : Constraint Operand) :
    Decidable (c.Contested category) :=
  match c with
  | .product .. | .quotient .. => inferInstanceAs (Decidable (_ ∧ _))
  | .subtype .. | .equal .. | .join .. => inferInstanceAs (Decidable False)

namespace Linear
namespace Categories

variable {k l : Categories} {o : Operand} {category : Category}
variable {c : Constraint Operand} {constraints : List (Constraint Operand)} {slots : ℕ}

/-! ## Constraints that agree with categories -/

/-- Categories agree with a constraint. -/
def Settles (k : Categories) : Constraint Operand → Prop
  | .equal lhs rhs => k.of lhs = k.of rhs
  | .subtype sub sup =>
    k.of sup = some .top ∨ k.of sub = some .bottom ∨ k.of sub = k.of sup
  | .join lhs rhs result =>
    (k.of lhs = some .top ∨ k.of rhs = some .top → k.of result = some .top) ∧
      (k.of lhs = some .bottom → k.of result = k.of rhs) ∧
      (k.of rhs = some .bottom → k.of result = k.of lhs)
  | .product lhs rhs result | .quotient lhs rhs result =>
    (k.of lhs = some .top ∨ k.of rhs = some .top → k.of result = some .top) ∧
      (k.of lhs ≠ some .top → k.of rhs ≠ some .top →
        k.of lhs = some .bottom ∨ k.of rhs = some .bottom → k.of result = some .bottom)

theorem of_eq_of_same_eq_ok {origin : Constraint SlotId} {a b : Operand}
    {relations : List Relation} (h : k.same origin a b = .ok relations) : k.of a = k.of b := by
  unfold same at h
  split at h
  case h_1 ha hb => rw [ha, hb]
  case h_2 =>
    split at h
    case isTrue heq => exact heq
    case isFalse => cases h

theorem of_eq_of_require_eq_ok {relations : List Relation}
    (h : k.require o category = .ok relations) : k.of o = some category := by
  unfold require at h
  split at h
  case isTrue heq => exact heq
  case isFalse => cases h

/-- Categories that leave relations of a constraint agree with it. -/
theorem settles_of_relations_eq_ok {relations : List Relation}
    (h : k.relations c = .ok relations) : k.Settles c := by
  cases c with
  | equal lhs rhs => exact of_eq_of_same_eq_ok h
  | subtype sub sup =>
    simp only [Categories.relations, Bool.or_eq_true, isTop_iff_of_eq, isBottom_iff_of_eq] at h
    split at h
    case isTrue hor => exact or_assoc.1 (.inl hor)
    case isFalse => exact .inr (.inr (of_eq_of_same_eq_ok h))
  | join lhs rhs result =>
    simp only [Categories.relations, Bool.or_eq_true, isTop_iff_of_eq, isBottom_iff_of_eq] at h
    unfold Settles
    split at h
    case isTrue htop =>
      have hresult := of_eq_of_require_eq_ok h
      grind
    case isFalse htop =>
      split at h
      case isTrue hlhs =>
        have hresult := of_eq_of_same_eq_ok h
        grind
      case isFalse hlhs =>
        split at h
        case isTrue hrhs =>
          have hresult := of_eq_of_same_eq_ok h
          grind
        case isFalse hrhs => grind
  | product lhs rhs result | quotient lhs rhs result =>
    simp only [Categories.relations, arithmetic, Bool.or_eq_true, isTop_iff_of_eq,
      isBottom_iff_of_eq] at h
    unfold Settles
    split at h
    case isTrue htop =>
      have hresult := of_eq_of_require_eq_ok h
      grind
    case isFalse htop =>
      split at h
      case isTrue hbottom =>
        have hresult := of_eq_of_require_eq_ok h
        grind
      case isFalse hbottom => grind

/-! ## Orders that reach the same categories -/

section Same

variable {constraints' : List (Constraint Operand)} {slots : ℕ}

theorem isUnknown_of_of_ne (h : k.of o ≠ l.of o) : o.IsUnknown := by
  cases hslot : o.slot with
  | constant q => exact absurd (of_eq_of_constant hslot k l) h
  | unknown location => exact Operand.isUnknown_iff.2 ⟨location, hslot⟩

/-- An operand that gets to the top later than the other one got to the bottom is unknown. -/
theorem overtaken (hk : k.Within l) {a b : Operand}
    (h : k.of a = some .bottom ∨ k.of b = some .bottom) (hne : k.of a ≠ some .top)
    (htop : l.of a = some .top) :
    l.of b = some .bottom ∧ l.of a = some .top ∧ a.IsUnknown := by
  rcases h with h | h
  · have hbottom := hk.of_eq_some h
    rw [htop] at hbottom
    cases hbottom
  · exact ⟨hk.of_eq_some h, htop, isUnknown_of_of_ne (htop ▸ hne)⟩

/-- Below categories that agree with an uncontested constraint, the constraint forces nothing
but these categories. -/
theorem Forces.sound (hk : k.Within l) (hl : l.Settles c) (hc : ¬c.Contested l.of)
    (h : k.Forces c o category) (ho : o.IsUnknown) : l.of o = some category := by
  cases c with
  | equal lhs rhs =>
    rcases h with ⟨rfl, h⟩ | ⟨rfl, h⟩
    · exact hl.symm.trans (hk.of_eq_some h)
    · exact hl.trans (hk.of_eq_some h)
  | subtype sub sup =>
    rcases h with ⟨rfl, rfl, h⟩ | ⟨rfl, rfl, h⟩
    · have hsub := hk.of_eq_some h
      rcases hl with htop | hbottom | heq
      · exact htop
      · rw [hsub] at hbottom
        cases hbottom
      · rw [← heq, hsub]
    · have hsup := hk.of_eq_some h
      rcases hl with htop | hbottom | heq
      · rw [hsup] at htop
        cases htop
      · exact hbottom
      · rw [heq, hsup]
  | join lhs rhs result =>
    obtain ⟨htop, hlhs, hrhs⟩ := hl
    rcases h with ⟨rfl, rfl, h⟩ | ⟨rfl, rfl, hl, hr⟩ | ⟨rfl, hl, -, hresult⟩ |
      ⟨rfl, -, hr, hresult⟩
    · exact htop (h.imp hk.of_eq_some hk.of_eq_some)
    · rw [hlhs (hk.of_eq_some hl), hk.of_eq_some hr]
    · rw [← hlhs (hk.of_eq_some hl), hk.of_eq_some hresult]
    · rw [← hrhs (hk.of_eq_some hr), hk.of_eq_some hresult]
  | product lhs rhs result | quotient lhs rhs result =>
    obtain ⟨htop, hbottom⟩ := hl
    rcases h with ⟨rfl, rfl, h | h⟩ | ⟨rfl, rfl, hlhs, hrhs, h⟩
    · exact htop (.inl (hk.of_eq_some h))
    · exact htop (.inr (hk.of_eq_some h))
    · -- an operand that has got to the top since would make the constraint contested
      have hlhs' : l.of lhs ≠ some .top := fun h' =>
        hc ⟨ho, .inr (overtaken hk h hlhs h')⟩
      have hrhs' : l.of rhs ≠ some .top := fun h' =>
        hc ⟨ho, .inl (overtaken hk h.symm hrhs h')⟩
      exact hbottom hlhs' hrhs' (h.imp hk.of_eq_some hk.of_eq_some)

/-- What a constraint forces on an operand it still forces later, as long as the operand has no
category. -/
theorem Forces.later (hk : k.Within l) (h : k.Forces c o category) (ho : l.of o = none) :
    ∃ found, l.Forces c o found := by
  have hkl := @hk.of_eq_some
  -- for each kind a finite check over the categories of at most three operands
  cases c with
  | equal lhs rhs | subtype lhs rhs | join lhs rhs result | product lhs rhs result
  | quotient lhs rhs result =>
    simp only [Forces] at h ⊢
    grind

/-- Unless a constraint is contested, all orders of the constraints reach the same categories. -/
theorem ofConstraints_eq_of_not_contested
    (hsame : ∀ c, c ∈ constraints' ↔ c ∈ constraints)
    (hslots : ∀ c ∈ constraints, ∀ o ∈ c.slots, o.id < slots)
    (hsettles : ∀ c ∈ constraints, (ofConstraints slots constraints).Settles c)
    (hc : ∀ c ∈ constraints, ¬c.Contested (ofConstraints slots constraints).of) :
    ofConstraints slots constraints' = ofConstraints slots constraints := by
  have hwithin : (ofConstraints slots constraints').Within (ofConstraints slots constraints) := by
    refine ofConstraints_induction
      (P := fun k => k.Within (ofConstraints slots constraints)) slots (empty_within _) ?_
    intro k c hmem _ hk
    have hmem := (hsame c).1 hmem
    refine hk.visit fun o category location hslot hforces => ?_
    exact hforces.sound hk (hsettles c hmem) (hc c hmem) (Operand.isUnknown_iff.2 ⟨_, hslot⟩)
  refine hwithin.antisymm ?_
  -- the run over `constraints` cannot leave the end of the run over `constraints'`
  refine ofConstraints_induction
    (P := fun k => k.Within (ofConstraints slots constraints')) slots (empty_within _) ?_
  intro k c hmem hvisit hk
  refine hk.visit fun o category location hslot hforces => ?_
  have hslots' : ∀ c ∈ constraints', ∀ o ∈ c.slots, o.id < slots :=
    fun c hmem => hslots c ((hsame c).1 hmem)
  have hfound : ∃ found, (ofConstraints slots constraints').of o = some found := by
    cases ho : (ofConstraints slots constraints').of o with
    | some found => exact ⟨found, rfl⟩
    | none =>
      obtain ⟨found, hlater⟩ := hforces.later hk ho
      rw [← ho]
      exact exists_of_forces hslots' ((hsame c).2 hmem) hlater hslot
  obtain ⟨found, hfound⟩ := hfound
  have hcategory := hforces.sound (hk.trans hwithin) (hsettles c hmem) (hc c hmem)
    (Operand.isUnknown_iff.2 ⟨_, hslot⟩)
  rw [hfound, ← hwithin.of_eq_some hfound, hcategory]

end Same

/-! ## Runs towards the bottom -/

theorem of_cases (k : Categories) (o : Operand) :
    k.of o = none ∨ k.of o = some .top ∨ k.of o = some .bottom := by
  rcases k.of o with _ | _ | _ <;> simp

/-- Every operand at the bottom in `k` is at the bottom in `l`. -/
def BottomsWithin (k l : Categories) : Prop :=
  ∀ o, k.of o = some .bottom → l.of o = some .bottom

theorem Within.bottomsWithin (h : k.Within l) : k.BottomsWithin l := fun _ ho => h.of_eq_some ho

/-- A constraint has put operands at the bottom. -/
def Sunk (k : Categories) : Constraint Operand → Prop
  | .equal lhs rhs | .subtype lhs rhs => k.of lhs = some .bottom ∧ k.of rhs = some .bottom
  | .join lhs rhs result =>
    k.of lhs = some .bottom ∧ k.of rhs = some .bottom ∧ k.of result = some .bottom
  | .product lhs rhs result | .quotient lhs rhs result =>
    (k.of lhs = some .bottom ∨ k.of rhs = some .bottom) ∧ k.of result = some .bottom

theorem Sunk.mono (h : k.BottomsWithin l) (hk : k.Sunk c) : l.Sunk c := by
  cases c with
  | equal lhs rhs | subtype lhs rhs => exact ⟨h _ hk.1, h _ hk.2⟩
  | join lhs rhs result => exact ⟨h _ hk.1, h _ hk.2.1, h _ hk.2.2⟩
  | product lhs rhs result | quotient lhs rhs result => exact ⟨hk.1.imp (h _) (h _), h _ hk.2⟩

theorem Forces.sunk (hk : k.BottomsWithin l) (h : k.Forces c o .bottom)
    (ho : l.of o = some .bottom) : l.Sunk c := by
  cases c with
  | equal lhs rhs | subtype lhs rhs | join lhs rhs result | product lhs rhs result
  | quotient lhs rhs result =>
    simp only [Forces, Sunk, BottomsWithin] at *
    grind

section Sunk

variable {j : Categories} (hk : k.Within l) (hl : l.Settles c)

include hk hl

/-- Below categories that agree with a constraint and in which it has put operands at the bottom,
the constraint forces nothing but the bottom. -/
theorem Forces.eq_bottom_of_sunk (hsunk : l.Sunk c) (h : k.Forces c o category) :
    category = .bottom := by
  have hkl := @hk.of_eq_some
  cases c with
  | equal lhs rhs | subtype lhs rhs | join lhs rhs result | product lhs rhs result
  | quotient lhs rhs result =>
    simp only [Forces, Sunk, Settles] at *
    grind

/-- A constraint that has put operands at the bottom forces nothing new. -/
theorem Forces.of_eq_of_sunk (hsunk : k.Sunk c) (h : k.Forces c o category) :
    k.of o = some .bottom := by
  have hkl := @hk.of_eq_some
  cases c with
  | equal lhs rhs | subtype lhs rhs | join lhs rhs result | product lhs rhs result
  | quotient lhs rhs result =>
    simp only [Forces, Sunk, Settles] at *
    grind

/-- A constraint that puts an operand at the bottom does so wherever at least as much is at the
bottom. -/
theorem Forces.replay (hsunk : l.Sunk c) (hjk : j.BottomsWithin k) (h : j.Forces c o .bottom) :
    k.of o = some .bottom ∨ k.Forces c o .bottom := by
  have hkl := @hk.of_eq_some
  cases c with
  | equal lhs rhs | subtype lhs rhs | join lhs rhs result | product lhs rhs result
  | quotient lhs rhs result =>
    have hcases := k.of_cases lhs
    simp only [Forces, Sunk, Settles, BottomsWithin] at *
    grind

end Sunk

/-! ## Orders that reach other categories -/

theorem pass_within_ofConstraints (slots : ℕ) (constraints : List (Constraint Operand)) :
    (pass constraints SortedMap.empty).Within (ofConstraints slots constraints) := by
  have hwithin := within_pass constraints SortedMap.empty
  rw [ofConstraints, iterate]
  split
  case isTrue hsize =>
    rw [← hwithin.eq_of_size_le (Nat.le_of_eq hsize)]
    exact Within.refl _
  case isFalse => exact within_iterate constraints slots _

/-- Distinct constraints that, visited in turn, put as much at the bottom as `k` does and nothing
at the top. -/
structure Chain (constraints : List (Constraint Operand)) (k : Categories)
    (chain : List (Constraint Operand)) : Prop where
  nodup : chain.Nodup
  subset : chain ⊆ constraints
  sunk : ∀ c ∈ chain, k.Sunk c
  reaches : k.BottomsWithin (pass chain SortedMap.empty)
  bottom : ∀ id category, (pass chain SortedMap.empty).get? id = some category →
    category = .bottom

namespace Chain

variable {chain : List (Constraint Operand)} (h : Chain constraints k chain)

include h

theorem nodup_concat (hfresh : c ∉ chain) : (chain ++ [c]).Nodup := by
  refine List.nodup_append.2 ⟨h.nodup, List.nodup_singleton c, fun a ha b hb hab => hfresh ?_⟩
  rwa [← List.mem_singleton.1 hb, ← hab]

theorem subset_concat (hc : c ∈ constraints) : chain ++ [c] ⊆ constraints := by
  intro c' hc'
  rcases List.mem_append.1 hc' with hc' | hc'
  · exact h.subset hc'
  · rwa [List.mem_singleton.1 hc']

end Chain

section Confluent

variable
  (hsettles : ∀ c ∈ constraints, (ofConstraints slots constraints).Settles c)
  (hconfluent : ∀ constraints', constraints'.Perm constraints →
    ofConstraints slots constraints' = ofConstraints slots constraints)

include hconfluent in
/-- If all orders reach the same categories, a run that starts with any distinct constraints
stays within these. -/
theorem pass_within_of_confluent {chain : List (Constraint Operand)} (hnodup : chain.Nodup)
    (hsubset : chain ⊆ constraints) :
    (pass chain SortedMap.empty).Within (ofConstraints slots constraints) := by
  obtain ⟨chain', hperm, hsublist⟩ := List.subperm_of_subset hnodup hsubset
  obtain ⟨rest, hrest⟩ := hsublist.exists_perm_append
  have horder : (chain ++ rest).Perm constraints :=
    (hperm.symm.append_right rest).trans hrest.symm
  have hpass : pass (chain ++ rest) SortedMap.empty = pass rest (pass chain SortedMap.empty) :=
    List.foldl_append
  rw [← hconfluent _ horder]
  refine (within_pass rest _).trans ?_
  rw [← hpass]
  exact pass_within_ofConstraints slots _

theorem pass_concat (chain : List (Constraint Operand)) (c : Constraint Operand) (k : Categories) :
    pass (chain ++ [c]) k = (pass chain k).visit c := by
  rw [pass, List.foldl_append]
  rfl

theorem bottomsWithin_visit {j : Categories} (hkj : k.BottomsWithin j)
    (hnew : ∀ o, k.Forces c o .bottom → (k.visit c).of o = some .bottom → j.of o = some .bottom) :
    (k.visit c).BottomsWithin j := by
  intro o ho
  cases hslot : o.slot with
  | constant q => exact hkj o ((of_eq_of_constant hslot _ _).trans ho)
  | unknown location =>
    have hget := ho
    rw [of_eq_get? hslot] at hget
    rcases forces_of_get?_visit hget with hget | ⟨o', location', hslot', hid, hforces⟩
    · exact hkj o ((of_eq_get? hslot).trans hget)
    · have ho' : (k.visit c).of o' = some .bottom := by rw [of_eq_get? hslot', hid, hget]
      have hj := hnew o' hforces ho'
      rw [of_eq_get? hslot', hid] at hj
      rw [of_eq_get? hslot, hj]

include hsettles hconfluent in
/-- A visit that puts an operand at the bottom prolongs a chain, and any other keeps it. -/
theorem Chain.visit {chain : List (Constraint Operand)} (h : Chain constraints k chain)
    (hc : c ∈ constraints) (hwithin : (k.visit c).Within (ofConstraints slots constraints)) :
    ∃ chain', Chain constraints (k.visit c) chain' := by
  have hk := (within_visit k c).trans hwithin
  have hsunk : ∀ c' ∈ chain, (k.visit c).Sunk c' :=
    fun c' hc' => (h.sunk c' hc').mono (within_visit k c).bottomsWithin
  by_cases hold : (k.visit c).BottomsWithin k
  · exact ⟨chain, h.nodup, h.subset, hsunk, fun o ho => h.reaches o (hold o ho), h.bottom⟩
  · have hnew : ∃ o, k.Forces c o .bottom ∧ (k.visit c).of o = some .bottom ∧
        k.of o ≠ some .bottom := by
      by_contra hnone
      push Not at hnone
      exact hold (bottomsWithin_visit (fun o ho => ho) hnone)
    obtain ⟨o, hforces, ho, hne⟩ := hnew
    have hsunkVisit : (k.visit c).Sunk c := hforces.sunk (within_visit k c).bottomsWithin ho
    have hsunkEnd := hsunkVisit.mono hwithin.bottomsWithin
    -- a constraint of the chain has nothing left to put at the bottom
    have hfresh : c ∉ chain := fun hmem =>
      hne (hforces.of_eq_of_sunk hk (hsettles c hc) (h.sunk c hmem))
    have hnodup := h.nodup_concat hfresh
    have hsubset := h.subset_concat hc
    have hchain := pass_within_of_confluent hconfluent h.nodup h.subset
    have hchain' := pass_within_of_confluent hconfluent hnodup hsubset
    rw [pass_concat] at hchain'
    refine ⟨chain ++ [c], hnodup, hsubset, ?_, ?_, ?_⟩
    · intro c' hc'
      rcases List.mem_append.1 hc' with hc' | hc'
      · exact hsunk c' hc'
      · rw [List.mem_singleton.1 hc']
        exact hsunkVisit
    · rw [pass_concat]
      refine bottomsWithin_visit (fun o ho => ?_) fun o hforces ho => ?_
      · exact (within_visit _ c).of_eq_some (h.reaches o ho)
      · rcases hforces.replay hchain (hsettles c hc) hsunkEnd h.reaches with hreplay | hreplay
        · exact (within_visit _ c).of_eq_some hreplay
        · exact hreplay.of_visit hchain' (hwithin.of_eq_some ho)
    · intro id category hget
      rw [pass_concat] at hget
      rcases forces_of_get?_visit hget with hget | ⟨o, -, -, -, hforces⟩
      · exact h.bottom id category hget
      · exact hforces.eq_bottom_of_sunk hchain (hsettles c hc) hsunkEnd

include hsettles hconfluent in
theorem exists_chain : ∃ chain, Chain constraints (ofConstraints slots constraints) chain := by
  refine ofConstraints_induction (P := fun k => ∃ chain, Chain constraints k chain) slots ?_ ?_
  · refine ⟨[], List.nodup_nil, List.nil_subset _, ?_, fun o ho => ho, ?_⟩
    · intro c hc
      cases hc
    · intro id category hget
      cases hget
  · rintro k c hc hwithin ⟨chain, hchain⟩
    exact hchain.visit hsettles hconfluent hc hwithin

end Confluent

theorem not_sunk_of_contested (hk : k.Settles c) (hc : c.Contested k.of) : ¬k.Sunk c := by
  cases c with
  | equal lhs rhs | subtype lhs rhs | join lhs rhs result => exact hc.elim
  | product lhs rhs result | quotient lhs rhs result =>
    intro hsunk
    have htop := hk.1 (hc.2.symm.imp (fun h => h.2.1) fun h => h.2.1)
    rw [hsunk.2] at htop
    cases htop

/-- Where nothing unknown is at the top yet, a contested constraint puts its result at the
bottom. -/
theorem exists_forces_of_contested {j : Categories} (hk : k.Settles c) (hc : c.Contested k.of)
    (hkj : k.BottomsWithin j) (hj : ∀ o, o.IsUnknown → j.of o ≠ some .top) :
    (∃ result, result.IsUnknown ∧ k.of result = some .top ∧ j.Forces c result .bottom) ∧
      ∀ o, ¬j.Forces c o .top := by
  cases c with
  | equal lhs rhs | subtype lhs rhs | join lhs rhs result => exact hc.elim
  | product lhs rhs result | quotient lhs rhs result =>
    obtain ⟨hresult, hoperands⟩ := hc
    have htop := hk.1 (hoperands.symm.imp (fun h => h.2.1) fun h => h.2.1)
    have hj : j.of lhs ≠ some .top ∧ j.of rhs ≠ some .top ∧
        (j.of lhs = some .bottom ∨ j.of rhs = some .bottom) := by
      rcases hoperands with ⟨hbottom, -, hunknown⟩ | ⟨hbottom, -, hunknown⟩
      · have hlhs := hkj lhs hbottom
        exact ⟨by simp [hlhs], hj rhs hunknown, .inl hlhs⟩
      · have hrhs := hkj rhs hbottom
        exact ⟨hj lhs hunknown, by simp [hrhs], .inr hrhs⟩
    refine ⟨⟨result, hresult, htop, .inr ⟨rfl, rfl, hj⟩⟩, fun o hforces => ?_⟩
    rcases hforces with ⟨-, -, h | h⟩ | ⟨-, h, -⟩
    · exact hj.1 h
    · exact hj.2.1 h
    · cases h

/-- If a constraint is contested, some order of the constraints reaches other categories. -/
theorem exists_perm_of_contested
    (hsettles : ∀ c ∈ constraints, (ofConstraints slots constraints).Settles c)
    (hc : c ∈ constraints) (hcontested : c.Contested (ofConstraints slots constraints).of) :
    ∃ constraints', constraints'.Perm constraints ∧
      ofConstraints slots constraints' ≠ ofConstraints slots constraints := by
  by_contra hnone
  push Not at hnone
  obtain ⟨chain, hchain⟩ := exists_chain hsettles hnone
  -- after the chain the contested constraint does not see the unknown at the top
  have hunknown : ∀ o, o.IsUnknown → (pass chain SortedMap.empty).of o ≠ some .top := by
    intro o ho htop
    obtain ⟨location, hslot⟩ := Operand.isUnknown_iff.1 ho
    rw [of_eq_get? hslot] at htop
    cases hchain.bottom o.id _ htop
  obtain ⟨⟨result, hresult, htop, hforces⟩, hnotop⟩ :=
    exists_forces_of_contested (hsettles c hc) hcontested hchain.reaches hunknown
  obtain ⟨location, hslot⟩ := Operand.isUnknown_iff.1 hresult
  have hfresh : c ∉ chain := fun hmem =>
    not_sunk_of_contested (hsettles c hc) hcontested (hchain.sunk c hmem)
  have hwithin := pass_within_of_confluent hnone (hchain.nodup_concat hfresh)
    (hchain.subset_concat hc)
  rw [pass_concat] at hwithin
  obtain ⟨found, hfound⟩ := exists_of_foldl_record (mem_forced_iff.2 hforces) hslot
    (pass chain SortedMap.empty)
  have hfoundTop : found = .top :=
    Option.some.inj ((hwithin.of_eq_some hfound).symm.trans htop)
  subst hfoundTop
  rw [of_eq_get? hslot] at hfound
  rcases forces_of_get?_visit hfound with hget | ⟨o, -, -, -, hforcesTop⟩
  · exact hunknown result hresult ((of_eq_get? hslot).trans hget)
  · exact hnotop o hforcesTop

end Categories
end Linear
end Metrology
