import Metrology.Linear.Encoding
import Metrology.Proofs.SortedMap
import Mathlib.Data.List.Perm.Subperm
import Mathlib.Logic.Function.Iterate

/-!
# How categories spread

A visit only ever adds categories, so the visits of a run form a chain.  It ends where no
constraint adds anything.
-/

namespace Metrology

namespace Linear
namespace Categories

variable {k l : Categories} {o : Operand} {category : Category}

/-! ## Growing categories -/

/-- Everything recorded in `k` is recorded in `l`. -/
def Within (k l : Categories) : Prop :=
  ∀ id category, k.get? id = some category → l.get? id = some category

theorem Within.refl (k : Categories) : k.Within k := fun _ _ h => h

theorem Within.trans {k l j : Categories} (h : k.Within l) (h' : l.Within j) : k.Within j :=
  fun id category hget => h' id category (h id category hget)

theorem empty_within (k : Categories) : Within SortedMap.empty k := by
  intro id category h
  cases h

theorem Within.antisymm (h : k.Within l) (h' : l.Within k) : k = l := by
  apply SortedMap.ext_get?
  intro id
  apply Option.ext
  intro category
  exact ⟨h id category, h' id category⟩

theorem of_eq_of_constant {q : Qualifier} (hslot : o.slot = .constant q) (k l : Categories) :
    k.of o = l.of o := by
  rw [of, of, hslot]
  cases q <;> rfl

theorem of_eq_get? {location : String} (hslot : o.slot = .unknown location) :
    k.of o = k.get? o.id := by
  rw [of, hslot]

theorem Within.of_eq_some (h : k.Within l) (ho : k.of o = some category) :
    l.of o = some category := by
  cases hslot : o.slot with
  | constant q => rwa [of_eq_of_constant hslot l k]
  | unknown location =>
    rw [of_eq_get? hslot] at *
    exact h o.id category ho

theorem Within.keys_subset (h : k.Within l) : k.keys ⊆ l.keys := by
  intro id hid
  obtain ⟨category, hget⟩ := SortedMap.mem_keys_iff.1 hid
  exact SortedMap.mem_keys_iff.2 ⟨category, h id category hget⟩

theorem size_le_length {ids : List SlotId} (h : ∀ id ∈ k.keys, id ∈ ids) :
    k.size ≤ ids.length := by
  rw [SortedMap.size_eq_length_keys]
  exact (List.subperm_of_subset k.keys_nodup h).length_le

theorem Within.size_le (h : k.Within l) : k.size ≤ l.size := by
  rw [SortedMap.size_eq_length_keys l]
  exact size_le_length h.keys_subset

/-- Categories that grow without a new entry stay the same. -/
theorem Within.eq_of_size_le (h : k.Within l) (hsize : l.size ≤ k.size) : k = l := by
  refine h.antisymm fun id category hget => ?_
  rw [SortedMap.size_eq_length_keys, SortedMap.size_eq_length_keys] at hsize
  have hperm := (List.subperm_of_subset k.keys_nodup h.keys_subset).perm_of_length_le hsize
  have hid : id ∈ k.keys := hperm.mem_iff.2 (SortedMap.mem_keys_iff.2 ⟨category, hget⟩)
  obtain ⟨category', hget'⟩ := SortedMap.mem_keys_iff.1 hid
  rw [hget', ← h id category' hget', hget]

/-! ## Recording -/

theorem record_of_constant {q : Qualifier} (hslot : o.slot = .constant q) :
    k.record (o, category) = k := by
  rw [record, hslot]

theorem get?_record {location : String} (hslot : o.slot = .unknown location) (id : SlotId) :
    (k.record (o, category)).get? id =
      if id = o.id then some ((k.get? id).getD category) else k.get? id := by
  rw [record, hslot]
  dsimp only
  cases hget : k.get? o.id with
  | none =>
    have hcontains : k.contains o.id = false := by rw [SortedMap.contains, hget]; rfl
    rw [hcontains, if_neg Bool.false_ne_true, SortedMap.get?_insert]
    by_cases hid : id = o.id
    · rw [if_pos hid, if_pos hid, hid, hget]
      rfl
    · rw [if_neg hid, if_neg hid]
  | some found =>
    have hcontains : k.contains o.id = true := by rw [SortedMap.contains, hget]; rfl
    rw [hcontains, if_pos rfl]
    by_cases hid : id = o.id
    · rw [if_pos hid, hid, hget]
      rfl
    · rw [if_neg hid]

theorem within_record (k : Categories) (e : Operand × Category) : k.Within (k.record e) := by
  intro id category hget
  obtain ⟨o, found⟩ := e
  cases hslot : o.slot with
  | constant q => rwa [record_of_constant hslot]
  | unknown location =>
    rw [get?_record hslot, hget]
    split <;> rfl

/-- Recording what `l` holds stays within `l`. -/
theorem Within.record {e : Operand × Category} (h : k.Within l) (he : l.of e.1 = some e.2) :
    (k.record e).Within l := by
  intro id found hget
  obtain ⟨o, category⟩ := e
  cases hslot : o.slot with
  | constant q =>
    rw [record_of_constant hslot] at hget
    exact h id found hget
  | unknown location =>
    rw [get?_record hslot] at hget
    by_cases hid : id = o.id
    · rw [if_pos hid] at hget
      cases hk : k.get? id with
      | none =>
        rw [hk] at hget
        cases hget
        rw [hid, ← of_eq_get? hslot]
        exact he
      | some found' =>
        rw [hk] at hget
        cases hget
        exact h id _ hk
    · rw [if_neg hid] at hget
      exact h id found hget

/-! ## Visits -/

section Fold

variable {es : List (Operand × Category)}

theorem within_foldl_record (es : List (Operand × Category)) (k : Categories) :
    k.Within (es.foldl Categories.record k) := by
  induction es generalizing k with
  | nil => exact Within.refl k
  | cons e rest ih => exact (within_record k e).trans (ih _)

theorem Within.foldl_record (h : k.Within l)
    (hes : ∀ e ∈ es, ∀ location, e.1.slot = .unknown location → l.of e.1 = some e.2) :
    (es.foldl Categories.record k).Within l := by
  induction es generalizing k with
  | nil => exact h
  | cons e rest ih =>
    refine ih ?_ fun e' he' => hes e' (List.mem_cons_of_mem e he')
    cases hslot : e.1.slot with
    | constant q => rwa [record_of_constant hslot]
    | unknown location => exact h.record (hes e List.mem_cons_self location hslot)

/-- An unknown that something is recorded for has a category afterwards. -/
theorem exists_of_foldl_record {e : Operand × Category} (he : e ∈ es) {location : String}
    (hslot : e.1.slot = .unknown location) (k : Categories) :
    ∃ category, (es.foldl Categories.record k).of e.1 = some category := by
  induction es generalizing k with
  | nil => cases he
  | cons e' rest ih =>
    rcases List.mem_cons.1 he with rfl | he
    · have hget : (k.record e).of e.1 = some ((k.get? e.1.id).getD e.2) := by
        rw [of_eq_get? hslot, get?_record hslot, if_pos rfl]
      exact ⟨_, (within_foldl_record rest _).of_eq_some hget⟩
    · exact ih he _

/-- Whatever is new was to be recorded. -/
theorem mem_of_get?_foldl_record {id : SlotId}
    (hget : (es.foldl Categories.record k).get? id = some category) :
    k.get? id = some category ∨
      ∃ o location, o.slot = .unknown location ∧ o.id = id ∧ (o, category) ∈ es := by
  induction es generalizing k with
  | nil => exact .inl hget
  | cons e rest ih =>
    rcases ih hget with hrecord | ⟨o, location, hslot, hid, hmem⟩
    · obtain ⟨o, found⟩ := e
      cases hslot : o.slot with
      | constant q =>
        rw [record_of_constant hslot] at hrecord
        exact .inl hrecord
      | unknown location =>
        rw [get?_record hslot] at hrecord
        split at hrecord
        case isTrue hid =>
          cases hk : k.get? id with
          | some category' =>
            rw [hk] at hrecord
            exact .inl hrecord
          | none =>
            rw [hk] at hrecord
            cases hrecord
            exact .inr ⟨o, location, hslot, hid.symm, List.mem_cons_self⟩
        case isFalse => exact .inl hrecord
    · exact .inr ⟨o, location, hslot, hid, List.mem_cons_of_mem e hmem⟩

end Fold

variable {c : Constraint Operand} {constraints : List (Constraint Operand)}

theorem within_visit (k : Categories) (c : Constraint Operand) : k.Within (k.visit c) :=
  within_foldl_record _ k

theorem within_pass (constraints : List (Constraint Operand)) (k : Categories) :
    k.Within (pass constraints k) := by
  induction constraints generalizing k with
  | nil => exact Within.refl k
  | cons c rest ih => exact (within_visit k c).trans (ih _)

theorem within_iterate (constraints : List (Constraint Operand)) (rounds : ℕ) (k : Categories) :
    k.Within (iterate constraints rounds k) := by
  induction rounds generalizing k with
  | zero => exact Within.refl k
  | succ rounds ih =>
    rw [iterate]
    split
    · exact Within.refl k
    · exact (within_pass constraints k).trans (ih _)

/-- A pass that changes nothing consists of visits that change nothing. -/
theorem visit_eq_self_of_pass (h : pass constraints k = k) (hc : c ∈ constraints) :
    k.visit c = k := by
  induction constraints with
  | nil => cases hc
  | cons c' rest ih =>
    rw [pass, List.foldl_cons] at h
    have hvisit : k.visit c' = k := by
      refine Within.antisymm ?_ (within_visit k c')
      have hwithin := within_pass rest (k.visit c')
      rwa [pass, h] at hwithin
    rcases List.mem_cons.1 hc with rfl | hc
    · exact hvisit
    · rw [hvisit] at h
      exact ih h hc

/-! ## Runs -/

section Run

variable {P : Categories → Prop}

/-- What holds at the start of a pass and is kept by its visits holds at its end.  The visits may
be taken to stay within what the pass leads to. -/
theorem pass_induction
    (hstep : ∀ k, ∀ c ∈ constraints, (k.visit c).Within l → P k → P (k.visit c))
    (h : P k) (hl : (pass constraints k).Within l) : P (pass constraints k) := by
  induction constraints generalizing k with
  | nil => exact h
  | cons c rest ih =>
    refine ih (fun k' c' hc' => hstep k' c' (List.mem_cons_of_mem c hc')) ?_ hl
    exact hstep k c List.mem_cons_self ((within_pass rest _).trans hl) h

theorem iterate_induction {rounds : ℕ}
    (hstep : ∀ k, ∀ c ∈ constraints, (k.visit c).Within l → P k → P (k.visit c))
    (h : P k) (hl : (iterate constraints rounds k).Within l) :
    P (iterate constraints rounds k) := by
  induction rounds generalizing k with
  | zero => exact h
  | succ rounds ih =>
    rw [iterate] at hl ⊢
    split
    case isTrue => exact h
    case isFalse hsize =>
      rw [if_neg hsize] at hl
      exact ih (pass_induction hstep h ((within_iterate constraints rounds _).trans hl)) hl

/-- What holds of no categories and is kept by all visits holds of the categories that are
found.  The visits may be taken to stay within these. -/
theorem ofConstraints_induction (slots : ℕ)
    (hempty : P SortedMap.empty)
    (hstep : ∀ k, ∀ c ∈ constraints, (k.visit c).Within (ofConstraints slots constraints) →
      P k → P (k.visit c)) :
    P (ofConstraints slots constraints) :=
  iterate_induction hstep hempty (Within.refl _)

end Run

/-! ## What constraints force -/

/-- The rules by which a constraint forces a category on an operand. -/
def Forces (k : Categories) : Constraint Operand → Operand → Category → Prop
  | .equal lhs rhs, o, category =>
    (o = rhs ∧ k.of lhs = some category) ∨ (o = lhs ∧ k.of rhs = some category)
  | .subtype sub sup, o, category =>
    (o = sup ∧ category = .top ∧ k.of sub = some .top) ∨
      (o = sub ∧ category = .bottom ∧ k.of sup = some .bottom)
  | .join lhs rhs result, o, category =>
    (o = result ∧ category = .top ∧ (k.of lhs = some .top ∨ k.of rhs = some .top)) ∨
      (o = result ∧ category = .bottom ∧ k.of lhs = some .bottom ∧ k.of rhs = some .bottom) ∨
      (o = rhs ∧ k.of lhs = some .bottom ∧ k.of rhs ≠ some .top ∧ k.of result = some category) ∨
      (o = lhs ∧ k.of lhs = none ∧ k.of rhs = some .bottom ∧ k.of result = some category)
  | .product lhs rhs result, o, category | .quotient lhs rhs result, o, category =>
    (o = result ∧ category = .top ∧ (k.of lhs = some .top ∨ k.of rhs = some .top)) ∨
      (o = result ∧ category = .bottom ∧ k.of lhs ≠ some .top ∧ k.of rhs ≠ some .top ∧
        (k.of lhs = some .bottom ∨ k.of rhs = some .bottom))

theorem isTop_iff_of_eq : k.isTop o = true ↔ k.of o = some .top := beq_iff_eq

theorem isBottom_iff_of_eq : k.isBottom o = true ↔ k.of o = some .bottom := beq_iff_eq

theorem mem_shared_iff {a b : Operand} :
    (o, category) ∈ k.shared a b ↔
      (o = b ∧ k.of a = some category) ∨ (o = a ∧ k.of b = some category) := by
  rw [shared]
  cases k.of a <;> cases k.of b <;> simp [eq_comm]

theorem mem_forced_iff : (o, category) ∈ k.forced c ↔ k.Forces c o category := by
  cases c with
  | equal lhs rhs => exact mem_shared_iff
  | subtype sub sup =>
    simp only [forced, Forces, List.mem_append, List.mem_ite_nil_right, List.mem_singleton,
      Prod.mk.injEq, isTop_iff_of_eq, isBottom_iff_of_eq]
    tauto
  | join lhs rhs result =>
    simp only [forced, Forces, Bool.or_eq_true, isTop_iff_of_eq, isBottom_iff_of_eq]
    rcases hlhs : k.of lhs with _ | _ | _ <;> rcases hrhs : k.of rhs with _ | _ | _ <;>
      simp [mem_shared_iff, hlhs, hrhs]
    tauto
  | product lhs rhs result | quotient lhs rhs result =>
    simp only [forced, Forces, Bool.or_eq_true, isTop_iff_of_eq, isBottom_iff_of_eq]
    rcases k.of lhs with _ | _ | _ <;> rcases k.of rhs with _ | _ | _ <;> simp

theorem Forces.mem_slots (h : k.Forces c o category) : o ∈ c.slots := by
  cases c with
  | equal lhs rhs | subtype lhs rhs | join lhs rhs result | product lhs rhs result
  | quotient lhs rhs result =>
    simp only [Forces] at h
    simp only [Constraint.slots, List.mem_cons, List.not_mem_nil]
    tauto

/-- Whatever a visit adds is forced. -/
theorem forces_of_get?_visit {id : SlotId} (hget : (k.visit c).get? id = some category) :
    k.get? id = some category ∨
      ∃ o location, o.slot = .unknown location ∧ o.id = id ∧ k.Forces c o category := by
  rcases mem_of_get?_foldl_record hget with h | ⟨o, location, hslot, hid, hmem⟩
  · exact .inl h
  · exact .inr ⟨o, location, hslot, hid, mem_forced_iff.1 hmem⟩

theorem Within.visit (h : k.Within l)
    (hc : ∀ o category location, o.slot = .unknown location → k.Forces c o category →
      l.of o = some category) : (k.visit c).Within l :=
  h.foldl_record fun e he location hslot => hc e.1 e.2 location hslot (mem_forced_iff.1 he)

/-- A visit leaves no operand without a category that something is forced on. -/
theorem Forces.of_visit (h : k.Forces c o category) (hl : (k.visit c).Within l)
    (ho : l.of o = some category) : (k.visit c).of o = some category := by
  cases hslot : o.slot with
  | constant q => rwa [of_eq_of_constant hslot _ l]
  | unknown location =>
    obtain ⟨found, hfound⟩ := exists_of_foldl_record (mem_forced_iff.2 h) hslot k
    have hsame : some found = some category := (hl.of_eq_some hfound).symm.trans ho
    exact hfound.trans hsame

/-! ## The end of a run -/

theorem keys_visit {Q : SlotId → Prop}
    (hQ : ∀ o ∈ c.slots, ∀ location, o.slot = .unknown location → Q o.id)
    (hk : ∀ id ∈ k.keys, Q id) : ∀ id ∈ (k.visit c).keys, Q id := by
  intro id hid
  obtain ⟨category, hget⟩ := SortedMap.mem_keys_iff.1 hid
  rcases forces_of_get?_visit hget with hget | ⟨o, location, hslot, rfl, hforces⟩
  · exact hk id (SortedMap.mem_keys_iff.2 ⟨category, hget⟩)
  · exact hQ o hforces.mem_slots location hslot

/-- The categories that are found belong to unknowns of the constraints. -/
theorem exists_operand_of_mem_keys {slots : ℕ} {id : SlotId}
    (hid : id ∈ (ofConstraints slots constraints).keys) :
    ∃ c ∈ constraints, ∃ o ∈ c.slots, o.id = id ∧ ∃ location, o.slot = .unknown location := by
  refine ofConstraints_induction (P := fun k => ∀ id ∈ k.keys, ∃ c ∈ constraints, ∃ o ∈ c.slots,
    o.id = id ∧ ∃ location, o.slot = .unknown location) slots ?_ ?_ id hid
  · intro id hid
    cases hid
  · intro k c hc _ hk
    exact keys_visit (fun o ho location hslot => ⟨c, hc, o, ho, rfl, location, hslot⟩) hk

/-- A run takes passes for as long as they find something, and ends where a pass finds nothing.
It takes no more passes than there are unknowns left. -/
theorem exists_iterate_eq {ids : List SlotId}
    (hids : ∀ c ∈ constraints, ∀ o ∈ c.slots, ∀ location, o.slot = .unknown location → o.id ∈ ids)
    {rounds : ℕ} (hk : ∀ id ∈ k.keys, id ∈ ids) (hrounds : ids.length < k.size + rounds) :
    ∃ n, k.size + n ≤ ids.length ∧
      iterate constraints rounds k = (pass constraints)^[n] k ∧
      (∀ i < n, ((pass constraints)^[i] k).size < ((pass constraints)^[i + 1] k).size) ∧
      pass constraints ((pass constraints)^[n] k) = (pass constraints)^[n] k := by
  induction rounds generalizing k with
  | zero =>
    have hsize := size_le_length hk
    omega
  | succ rounds ih =>
    have hwithin := within_pass constraints k
    rw [iterate]
    split
    case isTrue hsame =>
      refine ⟨0, size_le_length hk, rfl, fun i hi => absurd hi (Nat.not_lt_zero i), ?_⟩
      exact (hwithin.eq_of_size_le (Nat.le_of_eq hsame)).symm
    case isFalse hnew =>
      have hgrow : k.size < (pass constraints k).size :=
        Nat.lt_of_le_of_ne hwithin.size_le (Ne.symm hnew)
      have hkeys : ∀ id ∈ (pass constraints k).keys, id ∈ ids :=
        pass_induction (P := fun k => ∀ id ∈ k.keys, id ∈ ids)
          (fun k c hc _ hk => keys_visit (hids c hc) hk) hk (Within.refl _)
      obtain ⟨n, hn, heq, hlt, hfix⟩ := ih hkeys (by omega)
      refine ⟨n + 1, by omega, heq, ?_, hfix⟩
      intro i hi
      cases i with
      | zero => exact hgrow
      | succ i => exact hlt i (Nat.lt_of_succ_lt_succ hi)

/-- The categories of the constraints are reached by passes from no categories at all. -/
theorem exists_ofConstraints_eq {ids : List SlotId} {slots : ℕ}
    (hids : ∀ c ∈ constraints, ∀ o ∈ c.slots, ∀ location, o.slot = .unknown location → o.id ∈ ids)
    (hslots : ids.length ≤ slots) :
    ∃ n ≤ ids.length,
      ofConstraints slots constraints = (pass constraints)^[n] SortedMap.empty ∧
      (∀ i < n, ((pass constraints)^[i] SortedMap.empty).size <
        ((pass constraints)^[i + 1] SortedMap.empty).size) ∧
      pass constraints (ofConstraints slots constraints) = ofConstraints slots constraints := by
  obtain ⟨n, hn, heq, hlt, hfix⟩ := exists_iterate_eq (k := SortedMap.empty) hids
    (fun id hid => nomatch hid) (show ids.length < 0 + (slots + 1) by omega)
  rw [← heq] at hfix
  exact ⟨n, Nat.le_trans (Nat.le_add_left n _) hn, heq, hlt, hfix⟩

section Bounded

variable {slots : ℕ} (hslots : ∀ c ∈ constraints, ∀ o ∈ c.slots, o.id < slots)

include hslots

/-- A run ends where no constraint adds anything. -/
theorem visit_ofConstraints (hc : c ∈ constraints) :
    (ofConstraints slots constraints).visit c = ofConstraints slots constraints := by
  have hids : ∀ c ∈ constraints, ∀ o ∈ c.slots, ∀ location, o.slot = .unknown location →
      o.id ∈ List.range slots := fun c hc o ho _ _ => List.mem_range.2 (hslots c hc o ho)
  obtain ⟨-, -, -, -, hfix⟩ := exists_ofConstraints_eq hids (Nat.le_of_eq List.length_range)
  exact visit_eq_self_of_pass hfix hc

theorem exists_of_forces (hc : c ∈ constraints)
    (h : (ofConstraints slots constraints).Forces c o category) {location : String}
    (hslot : o.slot = .unknown location) :
    ∃ found, (ofConstraints slots constraints).of o = some found := by
  have hfound := exists_of_foldl_record (mem_forced_iff.2 h) hslot (ofConstraints slots constraints)
  rwa [← visit, visit_ofConstraints hslots hc] at hfound

end Bounded

end Categories
end Linear
end Metrology
