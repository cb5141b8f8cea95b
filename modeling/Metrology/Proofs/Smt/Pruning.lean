import Metrology.Proofs.Smt.Exactness
import Mathlib.Algebra.Order.Group.Abs
import Mathlib.Algebra.Order.Group.Unbundled.Int
import Mathlib.Data.Finset.Dedup
import Mathlib.Data.Finset.Order
import Mathlib.Tactic.Ring

/-!
# Pruning of dimensions

A problem over the components of a model has a solution exactly if the one over more components
has.  A solution over fewer components is extended by zeros.  The other way it does not do to drop
the components: a join may be at the top because its operands differ in a dropped component only.
So the dropped components are added to the power of ten, each with a power of a base that is larger
than every difference between two slots.  Slots that differ go on to differ, and as constants have
none of the dropped components, they stay as they are.
-/

namespace Metrology
namespace Smt

open Formula

/-! ## Formulas under two valuations -/

/-- Views under a valuation that follow other views under another one: they have the same flags, are
the same for the same operands and keep sums and differences. -/
structure Follows (v v' : Valuation) (view view' : Operand → View) (os : List Operand) : Prop where
  top : ∀ o ∈ os, (view' o).top.holds v' = (view o).top.holds v
  bottom : ∀ o ∈ os, (view' o).bottom.holds v' = (view o).bottom.holds v
  same : ∀ a ∈ os, ∀ b ∈ os,
    (View.same (view' a) (view' b)).holds v' = (View.same (view a) (view b)).holds v
  combined : ∀ op ∈ [Term.plus, Term.minus], ∀ l ∈ os, ∀ r ∈ os, ∀ t ∈ os,
    (∀ f ∈ View.combined op (view l) (view r) (view t), f.holds v = true) →
      ∀ f ∈ View.combined op (view' l) (view' r) (view' t), f.holds v' = true

namespace Follows

variable {v v' : Valuation} {view view' : Operand → View} {os : List Operand} {l r t : Operand}

theorem concrete (h : Follows v v' view view' os) (ht : t ∈ os) :
    (view' t).concrete.holds v' = (view t).concrete.holds v := by
  simp [View.concrete, h.top t ht, h.bottom t ht]

theorem join (h : Follows v v' view view' os) (hl : l ∈ os) (hr : r ∈ os) (ht : t ∈ os) :
    (View.join (view' l) (view' r) (view' t)).holds v' =
      (View.join (view l) (view r) (view t)).holds v := by
  simp [View.join, h.top l hl, h.top r hr, h.top t ht, h.bottom l hl, h.bottom r hr, h.concrete hl,
    h.concrete hr, h.same l hl r hr, h.same t ht l hl, h.same t ht r hr]

theorem arithmetic (h : Follows v v' view view' os) (hl : l ∈ os) (hr : r ∈ os) (ht : t ∈ os)
    {op : Term → Term → Term} (hop : op ∈ [Term.plus, Term.minus])
    (hholds : (View.arithmetic op (view l) (view r) (view t)).holds v = true) :
    (View.arithmetic op (view' l) (view' r) (view' t)).holds v' = true := by
  simp only [View.arithmetic, holds_conj_iff, holds_disj_iff, holds_imply_iff, holds_negate_iff,
    List.mem_cons, List.not_mem_nil, or_false, forall_eq_or_imp, forall_eq, exists_eq_or_imp,
    exists_eq_left, h.top l hl, h.top r hr, h.top t ht, h.bottom l hl, h.bottom r hr, h.bottom t ht,
    h.concrete hl, h.concrete hr, h.concrete ht] at hholds ⊢
  obtain ⟨htop, hbottom, hconcrete⟩ := hholds
  refine ⟨htop, hbottom, fun hboth => ?_⟩
  obtain ⟨hresult, hcombined⟩ := hconcrete hboth
  exact ⟨hresult, h.combined op hop l hl r hr t ht hcombined⟩

/-- The formula of a constraint goes on to hold for views that follow. -/
theorem formula {c : Constraint Operand} (h : Follows v v' view view' c.slots)
    (hholds : (View.formula (c.map view)).holds v = true) :
    (View.formula (c.map view')).holds v' = true := by
  cases c with
  | subtype a b =>
    have ha : a ∈ [a, b] := by simp
    have hb : b ∈ [a, b] := by simp
    simpa [Constraint.map, View.formula, View.below, h.top b hb, h.bottom a ha, h.same a ha b hb]
      using hholds
  | equal a b =>
    rw [Constraint.map, View.formula, h.same a (by simp [Constraint.slots]) b
      (by simp [Constraint.slots])]
    exact hholds
  | join l r t =>
    rw [Constraint.map, View.formula, h.join (by simp [Constraint.slots])
      (by simp [Constraint.slots]) (by simp [Constraint.slots])]
    exact hholds
  | product l r t =>
    exact h.arithmetic (by simp [Constraint.slots]) (by simp [Constraint.slots])
      (by simp [Constraint.slots]) (by simp) hholds
  | quotient l r t =>
    have hr : r ∈ [l, r, t] := by simp
    simp only [Constraint.map, View.formula, holds_conj_iff, holds_negate_iff, List.mem_cons,
      List.not_mem_nil, or_false, forall_eq_or_imp, forall_eq, h.bottom r hr] at hholds ⊢
    exact ⟨hholds.1, h.arithmetic (by simp [Constraint.slots]) hr (by simp [Constraint.slots])
      (by simp) hholds.2⟩

end Follows

/-! ## Integers of operands -/

/-- The integer of an operand in a component. -/
def Valuation.amount (v : Valuation) (o : Operand) (c : Component) : Int :=
  match o.slot with
  | .constant q => c.valueIn q
  | .unknown _ => v.int (varName o.id c.name)

theorem map_value_ofOperand (v : Valuation) (components : List Component) (o : Operand) :
    (View.ofOperand components o).components.map (Term.value v) = components.map (v.amount o) := by
  unfold View.ofOperand Valuation.amount
  cases o.slot with
  | constant q =>
    cases q <;> simp [View.ofQualifier, Term.value, Component.valueIn, Function.comp_def]
  | unknown location => simp [View.ofUnknown, Term.value, Function.comp_def]

/-- A linear map from the integers of some components to those of others. -/
structure Carries (source target : List Component)
    (f : (Component → Int) → Component → Int) : Prop where
  congr : ∀ {x y}, (∀ c ∈ source, x c = y c) → ∀ c ∈ target, f x c = f y c
  linear : ∀ x y (s : Int), ∀ c ∈ target, f (fun d => x d - s * y d) c = f x c - s * f y c

theorem Carries.eq_zero {source target : List Component} {f : (Component → Int) → Component → Int}
    (h : Carries source target f) {x : Component → Int} (hx : ∀ c ∈ source, x c = 0) :
    ∀ c ∈ target, f x c = 0 := by
  intro c hc
  have hself : f x c = f x c - 1 * f x c := by
    rw [← h.linear x x 1 c hc]
    refine h.congr (fun d hd => ?_) c hc
    rw [hx d hd]
    rfl
  omega

/-- Components with different names can be given any integers. -/
theorem exists_valuation_int {components : List Component}
    (hnames : ∀ c ∈ components, ∀ c' ∈ components, c'.name = c.name → c' = c)
    (flag : String → Bool) (ints : SlotId → Component → Int) :
    ∃ v : Valuation, v.flag = flag ∧
      ∀ id, ∀ c ∈ components, v.int (varName id c.name) = ints id c := by
  classical
  refine ⟨⟨flag, fun name =>
    if h : ∃ e : SlotId × Component, e.2 ∈ components ∧ varName e.1 e.2.name = name
    then ints h.choose.1 h.choose.2 else 0⟩, rfl, fun id c hc => ?_⟩
  have h : ∃ e : SlotId × Component, e.2 ∈ components ∧ varName e.1 e.2.name = varName id c.name :=
    ⟨(id, c), hc, rfl⟩
  obtain ⟨hmem, hname⟩ := h.choose_spec
  obtain ⟨hid, hcomponent⟩ := varName_inj hname
  change (if h : _ then _ else _) = _
  rw [dif_pos h, hid, hnames c hc _ hmem hcomponent]

/-! ## Satisfying valuations -/

section Transfer

variable {m : Model} {p p' : Problem} {source target : List Component}
variable {f : (Component → Int) → Component → Int} {v v' : Valuation}

/-- The integers of all slots are carried along. -/
theorem amount_eq_of_carries
    (hconstants : ∀ (id : SlotId) (q : Qualifier), m.slots[id]? = some (.constant q) →
      ∀ c ∈ target, f (fun d => d.valueIn q) c = c.valueIn q)
    (hv' : ∀ id, ∀ c ∈ target,
      v'.int (varName id c.name) = f (fun d => v.int (varName id d.name)) c)
    {id : SlotId} (hid : id < m.slots.size) {c : Component} (hc : c ∈ target) :
    v'.amount (m.operandAt id) c = f (v.amount (m.operandAt id)) c := by
  cases hslot : (m.operandAt id).slot with
  | constant q =>
    have hget := Model.getElem?_of_operandAt_slot_eq_constant hid hslot
    have hamount : ∀ v : Valuation, v.amount (m.operandAt id) = fun d => d.valueIn q := by
      intro v
      funext d
      simp only [Valuation.amount, hslot]
    rw [hamount v', hamount v]
    exact (hconstants id q hget c hc).symm
  | unknown location =>
    have hamount : ∀ v : Valuation,
        v.amount (m.operandAt id) = fun d => v.int (varName id d.name) := by
      intro v
      funext d
      simp only [Valuation.amount, hslot]
      rfl
    rw [hamount v', hamount v]
    exact hv' id c hc

theorem holds_top_ofOperand (hflag : v'.flag = v.flag) (o : Operand) :
    (View.ofOperand target o).top.holds v' = (View.ofOperand source o).top.holds v := by
  unfold View.ofOperand
  cases o.slot with
  | constant q => cases q <;> rfl
  | unknown location => exact congrFun hflag _

theorem holds_bottom_ofOperand (hflag : v'.flag = v.flag) (o : Operand) :
    (View.ofOperand target o).bottom.holds v' = (View.ofOperand source o).bottom.holds v := by
  unfold View.ofOperand
  cases o.slot with
  | constant q => cases q <;> rfl
  | unknown location => exact congrFun hflag _

theorem holds_wellFormed_of_carries (hf : Carries source target f) (hflag : v'.flag = v.flag)
    {id : SlotId} (hv' : ∀ c ∈ target,
      v'.int (varName id c.name) = f (fun d => v.int (varName id d.name)) c)
    (h : (View.ofUnknown source id).wellFormed.holds v = true) :
    (View.ofUnknown target id).wellFormed.holds v' = true := by
  simp only [View.holds_wellFormed_iff, View.ofUnknown, Formula.holds, List.forall_mem_map,
    Term.value, hflag] at h ⊢
  refine ⟨h.1, fun hset c hc => ?_⟩
  rw [hv' c hc]
  exact hf.eq_zero (h.2 hset) c hc

/-- A linear map that leaves constants alone and keeps slots apart carries solutions of one
problem to solutions of the other. -/
theorem exists_satisfied_of_carries (hp : Problem.ofModel m source = .ok p)
    (hp' : Problem.ofModel m target = .ok p')
    (hnames : ∀ c ∈ target, ∀ c' ∈ target, c'.name = c.name → c' = c)
    (hf : Carries source target f)
    (hconstants : ∀ (id : SlotId) (q : Qualifier), m.slots[id]? = some (.constant q) →
      ∀ c ∈ target, f (fun d => d.valueIn q) c = c.valueIn q)
    (hapart : ∀ a < m.slots.size, ∀ b < m.slots.size,
      (∀ c ∈ target, f (v.amount (m.operandAt a)) c = f (v.amount (m.operandAt b)) c) →
        ∀ c ∈ source, v.amount (m.operandAt a) c = v.amount (m.operandAt b) c)
    (hv : p.Satisfied v) : ∃ v', p'.Satisfied v' := by
  obtain ⟨v', hflag, hv'⟩ := exists_valuation_int hnames v.flag
    fun id => f fun d => v.int (varName id d.name)
  obtain ⟨hclosed, -, hsatisfied⟩ := Problem.ofModel_eq_ok (v := v) hp
  obtain ⟨-, -, hsatisfied'⟩ := Problem.ofModel_eq_ok (v := v') hp'
  obtain ⟨hwf, hformulas⟩ := hsatisfied.1 hv
  refine ⟨v', hsatisfied'.2 ⟨fun id hid => ?_, fun c hc g hg => ?_⟩⟩
  · exact holds_wellFormed_of_carries hf hflag (hv' id) (hwf id hid)
  obtain ⟨hdiv, rfl⟩ := encodeConstraint_eq_ok_iff.1 hg
  have hslot : ∀ o ∈ c.slots, ∃ id < m.slots.size, o = m.operandAt id := fun o ho =>
    Model.exists_operandAt_of_mem_slots hclosed hc ho
  have hamount : ∀ o ∈ c.slots, ∀ d ∈ target, v'.amount o d = f (v.amount o) d := by
    intro o ho d hd
    obtain ⟨id, hid, rfl⟩ := hslot o ho
    exact amount_eq_of_carries hconstants hv' hid hd
  have hfollows : Follows v v' (.ofOperand source) (.ofOperand target) c.slots := by
    refine ⟨fun o _ => holds_top_ofOperand hflag o, fun o _ => holds_bottom_ofOperand hflag o,
      fun a ha b hb => ?_, fun op hop l hl r hr t ht => ?_⟩
    · have hints : (∀ d ∈ target, v'.amount a d = v'.amount b d) ↔
          ∀ d ∈ source, v.amount a d = v.amount b d := by
        have himage : (∀ d ∈ target, v'.amount a d = v'.amount b d) ↔
            ∀ d ∈ target, f (v.amount a) d = f (v.amount b) d :=
          forall₂_congr fun d hd => by rw [hamount a ha d hd, hamount b hb d hd]
        obtain ⟨i, hi, rfl⟩ := hslot a ha
        obtain ⟨j, hj, rfl⟩ := hslot b hb
        rw [himage]
        exact ⟨hapart i hi j hj, hf.congr⟩
      rw [Bool.eq_iff_iff,
        View.holds_same_iff_of_map_value (map_value_ofOperand v' target a)
          (map_value_ofOperand v' target b),
        View.holds_same_iff_of_map_value (map_value_ofOperand v source a)
          (map_value_ofOperand v source b), hints]
      have htop : ∀ o, (View.ofOperand target o).top.holds v' =
          (View.ofOperand source o).top.holds v := holds_top_ofOperand hflag
      have hbottom : ∀ o, (View.ofOperand target o).bottom.holds v' =
          (View.ofOperand source o).bottom.holds v := holds_bottom_ofOperand hflag
      rw [htop, htop, hbottom, hbottom]
    · have hsign : ∃ sign : Int, ∀ (w : Valuation) (a b : Term),
          (op a b).value w = a.value w - sign * b.value w := by
        simp only [List.mem_cons, List.not_mem_nil, or_false] at hop
        rcases hop with rfl | rfl
        · exact ⟨-1, fun w a b => by rw [Term.value_plus]; omega⟩
        · exact ⟨1, fun w a b => by rw [Term.value_minus]; omega⟩
      obtain ⟨sign, hsign⟩ := hsign
      rw [View.holds_combined_iff_of_map_value (hsign v) (map_value_ofOperand v source l)
          (map_value_ofOperand v source r) (map_value_ofOperand v source t),
        View.holds_combined_iff_of_map_value (hsign v') (map_value_ofOperand v' target l)
          (map_value_ofOperand v' target r) (map_value_ofOperand v' target t)]
      intro hcombined d hd
      rw [hamount l hl d hd, hamount r hr d hd, hamount t ht d hd, ← hf.linear _ _ sign d hd]
      exact hf.congr hcombined d hd
  exact hfollows.formula (hformulas c hc _ (encodeConstraint_eq_ok_iff.2 ⟨hdiv, rfl⟩))

end Transfer

/-! ## Digits in a large base -/

/-- The number with the given digits in some base, the first digit last. -/
def ofDigits (base : Int) (digits : List Int) : Int :=
  digits.foldr (fun digit higher => digit + base * higher) 0

section Digits

variable {base : Int}

theorem ofDigits_eq_zero {digits : List Int} (h : ∀ d ∈ digits, d = 0) :
    ofDigits base digits = 0 := by
  induction digits with
  | nil => rfl
  | cons d rest ih =>
    obtain ⟨hd, hrest⟩ := List.forall_mem_cons.1 h
    have hcons : ofDigits base (d :: rest) = d + base * ofDigits base rest := rfl
    rw [hcons, ih hrest, hd, Int.mul_zero, Int.add_zero]

theorem ofDigits_map_sub {α : Type} (x y : α → Int) (s : Int) (l : List α) :
    ofDigits base (l.map fun a => x a - s * y a) =
      ofDigits base (l.map x) - s * ofDigits base (l.map y) := by
  induction l with
  | nil => simp [ofDigits]
  | cons a rest ih =>
    have hcons : ∀ z : α → Int,
        ofDigits base ((a :: rest).map z) = z a + base * ofDigits base (rest.map z) := fun _ => rfl
    rw [hcons, hcons, hcons, ih]
    ring

/-- A number is zero only if its digits are, where these are smaller than the base. -/
theorem eq_zero_of_ofDigits_eq_zero {digits : List Int} (hbound : ∀ d ∈ digits, |d| < base)
    (h : ofDigits base digits = 0) : ∀ d ∈ digits, d = 0 := by
  induction digits with
  | nil => simp
  | cons d rest ih =>
    obtain ⟨hd, hrest⟩ := List.forall_mem_cons.1 hbound
    have hcons : ofDigits base (d :: rest) = d + base * ofDigits base rest := rfl
    rw [hcons] at h
    have hzero : d = 0 :=
      Int.eq_zero_of_abs_lt_dvd ⟨-ofDigits base rest, by rw [Int.mul_neg]; omega⟩ hd
    have hbase : base ≠ 0 := by
      rintro rfl
      exact absurd hd (not_lt.2 (abs_nonneg d))
    rw [hzero, Int.zero_add] at h
    rw [List.forall_mem_cons]
    exact ⟨hzero, ih hrest ((Int.mul_eq_zero.1 h).resolve_left hbase)⟩

end Digits

/-! ## Pruning -/

section Prune

variable {m : Model} {components : List Component}

/-- Components that a model lacks are zero. -/
def extendByZero (m : Model) (x : Component → Int) (c : Component) : Int :=
  if c ∈ m.components then x c else 0

theorem carries_extendByZero (m : Model) (target : List Component) :
    Carries m.components target (extendByZero m) := by
  refine ⟨fun {x y} h c _ => ?_, fun x y s c _ => ?_⟩
  · unfold extendByZero
    split
    · rename_i hc
      exact h c hc
    · rfl
  · unfold extendByZero
    split
    · rfl
    · simp

/-- The power of ten and the components that a model lacks. -/
def foldedComponents (m : Model) (components : List Component) : List Component :=
  .power :: components.filter fun c => c ∉ m.components

/-- Components that a model lacks are added to the power of ten. -/
def foldIntoPower (m : Model) (components : List Component) (base : Int) (x : Component → Int)
    (c : Component) : Int :=
  if c = .power then ofDigits base ((foldedComponents m components).map x) else x c

theorem mem_foldedComponents_iff {c : Component} :
    c ∈ foldedComponents m components ↔ c = .power ∨ c ∈ components ∧ c ∉ m.components := by
  simp [foldedComponents]

theorem carries_foldIntoPower (base : Int) (hsub : ∀ c ∈ m.components, c ∈ components) :
    Carries components m.components (foldIntoPower m components base) := by
  refine ⟨fun {x y} h c hc => ?_, fun x y s c _ => ?_⟩
  · unfold foldIntoPower
    split
    · refine congrArg _ (List.map_congr_left fun d hd => ?_)
      rcases mem_foldedComponents_iff.1 hd with rfl | ⟨hd, -⟩
      · exact h _ (hsub _ List.mem_cons_self)
      · exact h d hd
    · exact h c (hsub c hc)
  · unfold foldIntoPower
    split
    · exact ofDigits_map_sub x y s _
    · rfl

/-- Constants have none of the components that are folded. -/
theorem foldIntoPower_constant (base : Int) {id : SlotId} {q : Qualifier}
    (hq : m.slots[id]? = some (.constant q)) (c : Component) :
    foldIntoPower m components base (fun d => d.valueIn q) c = c.valueIn q := by
  unfold foldIntoPower
  split
  · rename_i hc
    have hcons : ofDigits base ((foldedComponents m components).map fun d => d.valueIn q) =
        Component.power.valueIn q + base * ofDigits base
          ((components.filter fun c => c ∉ m.components).map fun d => d.valueIn q) := rfl
    rw [hcons, ofDigits_eq_zero, Int.mul_zero, Int.add_zero, hc]
    rw [List.forall_mem_map]
    intro d hd
    exact Model.valueIn_constant_eq_zero (by simpa using (List.mem_filter.1 hd).2) hq
  · rfl

/-- Integers that are small against the base stay apart. -/
theorem eq_of_foldIntoPower_eq {base : Int} {x y : Component → Int}
    (hsub : ∀ c ∈ m.components, c ∈ components)
    (hbound : ∀ c ∈ components, |x c - y c| < base)
    (h : ∀ c ∈ m.components,
      foldIntoPower m components base x c = foldIntoPower m components base y c) :
    ∀ c ∈ components, x c = y c := by
  have hpower : Component.power ∈ m.components := List.mem_cons_self
  have hdigits :
      ofDigits base ((foldedComponents m components).map fun c => x c - 1 * y c) = 0 := by
    have heq := h _ hpower
    rw [foldIntoPower, if_pos rfl, foldIntoPower, if_pos rfl] at heq
    rw [ofDigits_map_sub, heq]
    omega
  have hfolded : ∀ c ∈ foldedComponents m components, x c = y c := by
    intro c hc
    have hzero := eq_zero_of_ofDigits_eq_zero (fun d hd => ?_) hdigits _ (List.mem_map_of_mem hc)
    · omega
    · obtain ⟨e, he, rfl⟩ := List.mem_map.1 hd
      rw [Int.one_mul]
      rcases mem_foldedComponents_iff.1 he with rfl | ⟨he, -⟩
      · exact hbound _ (hsub _ hpower)
      · exact hbound e he
  intro c hc
  by_cases hmem : c ∈ m.components
  · by_cases hc' : c = .power
    · exact hfolded c (mem_foldedComponents_iff.2 (.inl hc'))
    · have heq := h c hmem
      rwa [foldIntoPower, if_neg hc', foldIntoPower, if_neg hc'] at heq
  · exact hfolded c (mem_foldedComponents_iff.2 (.inr ⟨hc, hmem⟩))

/-- Some base is larger than every difference between two slots. -/
theorem exists_base (m : Model) (components : List Component) (v : Valuation) :
    ∃ base : Int, ∀ a < m.slots.size, ∀ b < m.slots.size, ∀ c ∈ components,
      |v.amount (m.operandAt a) c - v.amount (m.operandAt b) c| < base := by
  obtain ⟨bound, hbound⟩ := Finset.exists_le
    (((List.range m.slots.size).flatMap fun id =>
      components.map fun c => |v.amount (m.operandAt id) c|).toFinset)
  have hle : ∀ id < m.slots.size, ∀ c ∈ components, |v.amount (m.operandAt id) c| ≤ bound := by
    intro id hid c hc
    refine hbound _ (List.mem_toFinset.2 (List.mem_flatMap.2 ⟨id, List.mem_range.2 hid, ?_⟩))
    exact List.mem_map_of_mem hc
  refine ⟨bound + bound + 1, fun a ha b hb c hc => ?_⟩
  obtain ⟨hla, hua⟩ := abs_le.1 (hle a ha c hc)
  obtain ⟨hlb, hub⟩ := abs_le.1 (hle b hb c hc)
  exact abs_lt.2 ⟨by omega, by omega⟩

/-- Components beyond those of a model keep their names apart if no name is reserved. -/
theorem name_inj_of_not_reserved (hnames : ∀ d ∈ m.usedDimensions, Dimensions.ValidName d)
    (hextra : ∀ d, .dimension d ∈ components → d ∉ m.usedDimensions → d ∉ Dimensions.reserved) :
    ∀ c ∈ components, ∀ c' ∈ components, c'.name = c.name → c' = c := by
  have hpower : ∀ d, Component.dimension d ∈ components → d ≠ Component.power.name := by
    rintro d hd rfl
    have hreserved : Component.power.name ∈ Dimensions.reserved := by decide
    by_cases hused : Component.power.name ∈ m.usedDimensions
    · exact (hnames _ hused).2 hreserved
    · exact hextra _ hd hused hreserved
  intro c hc c' hc' hname
  cases c with
  | power =>
    cases c' with
    | power => rfl
    | dimension d' => exact absurd hname (hpower d' hc')
  | dimension d =>
    cases c' with
    | power => exact absurd hname.symm (hpower d hc)
    | dimension d' => exact congrArg _ hname

end Prune

/-- The assertions over the components of a model can all hold exactly if those over more components
can; and a model has a problem over both or over none. -/
theorem satisfiable_pruned_iff (m : Model) (components : List Component)
    (hnames : ∀ d ∈ m.usedDimensions, Dimensions.ValidName d)
    (hsub : ∀ c ∈ m.components, c ∈ components)
    (hextra : ∀ d, .dimension d ∈ components → d ∉ m.usedDimensions → d ∉ Dimensions.reserved) :
    ((∃ p, Problem.ofModel m m.components = .ok p) ↔ ∃ p, Problem.ofModel m components = .ok p) ∧
      ∀ p p', Problem.ofModel m m.components = .ok p → Problem.ofModel m components = .ok p' →
        ((∃ v, p.Satisfied v) ↔ ∃ v, p'.Satisfied v) := by
  refine ⟨Problem.exists_ofModel_eq_ok_iff.trans Problem.exists_ofModel_eq_ok_iff.symm,
    fun p p' hp hp' => ⟨?_, ?_⟩⟩
  · rintro ⟨v, hv⟩
    refine exists_satisfied_of_carries hp hp' (name_inj_of_not_reserved hnames hextra)
      (carries_extendByZero m components) (fun id q hq c _ => ?_) (fun a _ b _ heq c hc => ?_) hv
    · unfold extendByZero
      split
      · rfl
      · rename_i hc
        exact (Model.valueIn_constant_eq_zero hc hq).symm
    · have hpruned := heq c (hsub c hc)
      rwa [extendByZero, if_pos hc, extendByZero, if_pos hc] at hpruned
  · rintro ⟨v, hv⟩
    obtain ⟨base, hbase⟩ := exists_base m components v
    exact exists_satisfied_of_carries hp' hp (components_name_inj hnames)
      (carries_foldIntoPower base hsub) (fun id q hq c _ => foldIntoPower_constant base hq c)
      (fun a ha b hb => eq_of_foldIntoPower_eq hsub (hbase a ha b hb)) hv

/-- Two unknowns whose join is the top. -/
def joinedModel : Model where
  slots := #[.unknown "x", .unknown "y", .constant .top]
  constraints := #[.join 0 1 2]

/-- Two dimensions that the model lacks. -/
def widerComponents : List Component := [.power, .dimension "m", .dimension "s"]

/-- The unknowns are `m` and `s`, which differ in dimensions that are pruned. -/
def apartValuation : Valuation where
  flag _ := false
  int name := if name = "0-m" ∨ name = "1-s" then 1 else 0

/-- The problem over some components, empty if there is none. -/
def joinedProblem (components : List Component) : Problem :=
  match Problem.ofModel joinedModel components with
  | .ok p => p
  | .error _ => .empty

theorem satisfiable_pruned_iff_joined :
    Problem.ofModel joinedModel widerComponents = .ok (joinedProblem widerComponents) ∧
      (joinedProblem widerComponents).Satisfied apartValuation ∧
      Problem.ofModel joinedModel joinedModel.components =
        .ok (joinedProblem joinedModel.components) ∧
      ∃ v, (joinedProblem joinedModel.components).Satisfied v := by
  have hwide :
      Problem.ofModel joinedModel widerComponents = .ok (joinedProblem widerComponents) := by
    decide +kernel
  have hpruned : Problem.ofModel joinedModel joinedModel.components =
      .ok (joinedProblem joinedModel.components) := by
    decide +kernel
  have hsatisfied : (joinedProblem widerComponents).Satisfied apartValuation := by
    unfold Problem.Satisfied
    decide +kernel
  refine ⟨hwide, hsatisfied, hpruned, ?_⟩
  refine ((satisfiable_pruned_iff joinedModel widerComponents (by decide +kernel)
    (by decide +kernel) ?_).2 _ _ hpruned hwide).2 ⟨_, hsatisfied⟩
  intro d hd _
  simp only [widerComponents, List.mem_cons, reduceCtorEq, Component.dimension.injEq,
    List.not_mem_nil, or_false, false_or] at hd
  rcases hd with rfl | rfl <;> decide

end Smt
end Metrology
