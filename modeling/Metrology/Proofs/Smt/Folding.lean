import Metrology.Smt.Script
import Metrology.Proofs.Smt.Formula

/-!
# Folding

A formula that the folding functions put together is the fold of a tree of plain connectives.  It
means what the tree means.  It is a literal, or it is reduced: no literal stands inside it, no
negation stands right under a negation, and conjunctions and disjunctions have at least two members
and none of their own kind.  So a folded formula without variables is a literal.
-/

namespace Metrology
namespace Smt

theorem append_subset_append {α : Type} {a b c d : List α} (hac : a ⊆ c) (hbd : b ⊆ d) :
    a ++ b ⊆ c ++ d :=
  List.append_subset.2 ⟨List.Subset.trans hac (List.subset_append_left c d),
    List.Subset.trans hbd (List.subset_append_right c d)⟩

/-! ## Terms -/

namespace Term

/-- The term that the folding functions build for a tree, from its leaves up. -/
def fold : Term → Term
  | var name => var name
  | lit n => lit n
  | add a b => a.fold.plus b.fold
  | sub a b => a.fold.minus b.fold

/-- The variables of a term with their sort. -/
def freeVars : Term → List (String × VarSort)
  | var name => [(name, .int)]
  | lit _ => []
  | add a b | sub a b => a.freeVars ++ b.freeVars

/-- No sum or difference is one of two literals. -/
def Folded : Term → Prop
  | var _ | lit _ => True
  | add a b | sub a b => a.Folded ∧ b.Folded ∧ ∀ m n, ¬(a = lit m ∧ b = lit n)

variable {a b t : Term}

theorem value_fold (v : Valuation) (t : Term) : t.fold.value v = t.value v := by
  induction t with
  | var name => rfl
  | lit n => rfl
  | add a b iha ihb => rw [fold, value_plus, iha, ihb, value]
  | sub a b iha ihb => rw [fold, value_minus, iha, ihb, value]

theorem folded_plus (ha : a.Folded) (hb : b.Folded) : (a.plus b).Folded := by
  unfold plus
  split
  · trivial
  · exact ha
  · exact hb
  · rename_i hlit
    exact ⟨ha, hb, fun m n h => hlit m n h.1 h.2⟩

theorem folded_minus (ha : a.Folded) (hb : b.Folded) : (a.minus b).Folded := by
  unfold minus
  split
  · trivial
  · exact ha
  · rename_i hlit
    exact ⟨ha, hb, fun m n h => hlit m n h.1 h.2⟩

theorem folded_fold (t : Term) : t.fold.Folded := by
  induction t with
  | var name => trivial
  | lit n => trivial
  | add a b iha ihb => exact folded_plus iha ihb
  | sub a b iha ihb => exact folded_minus iha ihb

theorem freeVars_plus_subset (a b : Term) : (a.plus b).freeVars ⊆ a.freeVars ++ b.freeVars := by
  unfold plus
  split <;> simp [freeVars]

theorem freeVars_minus_subset (a b : Term) :
    (a.minus b).freeVars ⊆ a.freeVars ++ b.freeVars := by
  unfold minus
  split <;> simp [freeVars]

/-- Folding adds no variable to a term. -/
theorem freeVars_fold_subset (t : Term) : t.fold.freeVars ⊆ t.freeVars := by
  induction t with
  | var name => exact List.Subset.refl _
  | lit n => exact List.Subset.refl _
  | add a b iha ihb =>
    exact List.Subset.trans (freeVars_plus_subset _ _) (append_subset_append iha ihb)
  | sub a b iha ihb =>
    exact List.Subset.trans (freeVars_minus_subset _ _) (append_subset_append iha ihb)

/-- A folded term without variables is a literal. -/
theorem Folded.eq_lit (h : t.Folded) (hv : t.freeVars = []) : ∃ n, t = lit n := by
  induction t with
  | var name => cases hv
  | lit n => exact ⟨n, rfl⟩
  | add a b iha ihb | sub a b iha ihb =>
    obtain ⟨ha, hb, hlit⟩ := h
    obtain ⟨hva, hvb⟩ := List.append_eq_nil_iff.1 hv
    obtain ⟨m, hm⟩ := iha ha hva
    obtain ⟨n, hn⟩ := ihb hb hvb
    exact absurd ⟨hm, hn⟩ (hlit m n)

end Term

/-! ## Formulas -/

namespace Formula

/-- Induction on a formula with a hypothesis for each member of a conjunction or disjunction. -/
@[elab_as_elim]
theorem tree_induction {motive : Formula → Prop} (lit : ∀ b, motive (.lit b))
    (var : ∀ name, motive (.var name)) (not : ∀ f, motive f → motive (.not f))
    (and : ∀ fs, (∀ f ∈ fs, motive f) → motive (.and fs))
    (or : ∀ fs, (∀ f ∈ fs, motive f) → motive (.or fs))
    (implies : ∀ a b, motive a → motive b → motive (.implies a b))
    (iff : ∀ a b, motive a → motive b → motive (.iff a b)) (eq : ∀ a b, motive (.eq a b))
    (f : Formula) : motive f := by
  refine @Formula.rec motive (fun fs => ∀ f ∈ fs, motive f) lit var not and or implies iff eq
    ?_ ?_ f
  · simp
  · intro f fs hf hfs
    exact List.forall_mem_cons.2 ⟨hf, hfs⟩

mutual

/-- The formula that the folding functions build for a tree, from its leaves up. -/
def fold : Formula → Formula
  | lit b => lit b
  | var name => var name
  | not f => f.fold.negate
  | and fs => conj (foldAll fs)
  | or fs => disj (foldAll fs)
  | implies a b => imply a.fold b.fold
  | iff a b => equiv a.fold b.fold
  | eq a b => equate a.fold b.fold

/-- The folds of trees. -/
def foldAll : List Formula → List Formula
  | [] => []
  | f :: fs => f.fold :: foldAll fs

end

theorem foldAll_eq_map (fs : List Formula) : foldAll fs = fs.map fold := by
  induction fs with
  | nil => rfl
  | cons f fs ih => rw [foldAll, ih, List.map_cons]

mutual

/-- The variables of a formula with their sorts. -/
def freeVars : Formula → List (String × VarSort)
  | lit _ => []
  | var name => [(name, .bool)]
  | not f => f.freeVars
  | and fs | or fs => freeVarsAll fs
  | implies a b | iff a b => a.freeVars ++ b.freeVars
  | eq a b => a.freeVars ++ b.freeVars

/-- The variables of formulas with their sorts. -/
def freeVarsAll : List Formula → List (String × VarSort)
  | [] => []
  | f :: fs => f.freeVars ++ freeVarsAll fs

end

theorem freeVarsAll_eq_flatMap (fs : List Formula) : freeVarsAll fs = fs.flatMap freeVars := by
  induction fs with
  | nil => rfl
  | cons f fs ih => rw [freeVarsAll, ih, List.flatMap_cons]

theorem holds_fold (v : Valuation) (f : Formula) : f.fold.holds v = f.holds v := by
  induction f using tree_induction with
  | lit b => rfl
  | var name => rfl
  | not f ih => rw [fold, holds_negate, ih, holds]
  | and fs ih =>
    rw [fold, holds_conj, foldAll_eq_map, List.all_map, holds, allHold_eq_all, Bool.eq_iff_iff,
      List.all_eq_true, List.all_eq_true]
    exact forall₂_congr fun f hf => by rw [Function.comp_apply, ih f hf]
  | or fs ih =>
    rw [fold, holds_disj, foldAll_eq_map, List.any_map, holds, anyHolds_eq_any, Bool.eq_iff_iff,
      List.any_eq_true, List.any_eq_true]
    exact exists_congr fun f => and_congr_right fun hf => by rw [Function.comp_apply, ih f hf]
  | implies a b iha ihb => rw [fold, holds_imply, iha, ihb, holds]
  | iff a b iha ihb => rw [fold, holds_equiv, iha, ihb, holds]
  | eq a b => rw [fold, holds_equate, Term.value_fold, Term.value_fold, holds]

end Formula

/-- The folding functions preserve meaning: the fold of a tree of terms has the integer of the tree
and the fold of a tree of formulas its truth value, under every valuation. -/
theorem fold_preserves_meaning (v : Valuation) :
    (∀ t : Term, t.fold.value v = t.value v) ∧ ∀ f : Formula, f.fold.holds v = f.holds v :=
  ⟨Term.value_fold v, Formula.holds_fold v⟩

/-! ## Normal forms -/

namespace Formula

/-- No literal stands inside, no negation right under a negation, no conjunction right under a
conjunction and no disjunction right under a disjunction; conjunctions and disjunctions have at
least two members, and terms are folded. -/
inductive Reduced : Formula → Prop
  | var (name : String) : Reduced (.var name)
  | not {f : Formula} (hf : Reduced f) (hnot : ∀ g, f ≠ .not g) : Reduced (.not f)
  | and {fs : List Formula} (hlength : 2 ≤ fs.length) (hfs : ∀ f ∈ fs, Reduced f)
      (hand : ∀ gs, .and gs ∉ fs) : Reduced (.and fs)
  | or {fs : List Formula} (hlength : 2 ≤ fs.length) (hfs : ∀ f ∈ fs, Reduced f)
      (hor : ∀ gs, .or gs ∉ fs) : Reduced (.or fs)
  | implies {a b : Formula} (ha : Reduced a) (hb : Reduced b) : Reduced (.implies a b)
  | iff {a b : Formula} (ha : Reduced a) (hb : Reduced b) : Reduced (.iff a b)
  | eq {a b : Term} (ha : a.Folded) (hb : b.Folded) (hlit : ∀ m n, ¬(a = .lit m ∧ b = .lit n)) :
      Reduced (.eq a b)

/-- A literal or a reduced formula. -/
def Normal (f : Formula) : Prop := (∃ b, f = lit b) ∨ f.Reduced

variable {f g a b : Formula} {fs : List Formula}

theorem Normal.reduced (h : f.Normal) (hlit : ∀ b, f ≠ lit b) : f.Reduced := by
  rcases h with ⟨b, hb⟩ | h
  · exact absurd hb (hlit b)
  · exact h

theorem normal_negate (h : f.Normal) : f.negate.Normal := by
  unfold negate
  split
  · exact .inl ⟨_, rfl⟩
  · cases h.reduced (by simp) with
    | not hf _ => exact .inr hf
  · rename_i hlit hnot
    exact .inr (.not (h.reduced hlit) hnot)

/-- What a normal formula adds to a conjunction is reduced and no conjunction. -/
theorem reduced_of_mem_conjuncts (h : f.Normal) (hfalse : f ≠ lit false) (hg : g ∈ f.conjuncts) :
    g.Reduced ∧ ∀ gs, g ≠ and gs := by
  unfold conjuncts at hg
  split at hg
  · cases hg
  · cases h.reduced (by simp) with
    | and _ hfs hand => exact ⟨hfs g hg, fun gs heq => hand gs (heq ▸ hg)⟩
  · rename_i htrue hand
    rw [List.mem_singleton.1 hg]
    exact ⟨h.reduced (Bool.forall_bool.2 ⟨hfalse, htrue⟩), hand⟩

theorem reduced_of_mem_disjuncts (h : f.Normal) (htrue : f ≠ lit true) (hg : g ∈ f.disjuncts) :
    g.Reduced ∧ ∀ gs, g ≠ or gs := by
  unfold disjuncts at hg
  split at hg
  · cases hg
  · cases h.reduced (by simp) with
    | or _ hfs hor => exact ⟨hfs g hg, fun gs heq => hor gs (heq ▸ hg)⟩
  · rename_i hfalse hor
    rw [List.mem_singleton.1 hg]
    exact ⟨h.reduced (Bool.forall_bool.2 ⟨hfalse, htrue⟩), hor⟩

theorem ne_lit_of_any_isLit {b : Bool} (h : ¬fs.any (isLit b) = true) (hf : f ∈ fs) :
    f ≠ lit b := by
  rintro rfl
  exact h (List.any_eq_true.2 ⟨_, hf, isLit_iff.2 rfl⟩)

theorem two_le_length (hnil : fs ≠ []) (hsingle : ∀ f, fs ≠ [f]) : 2 ≤ fs.length := by
  match fs with
  | [] => exact absurd rfl hnil
  | [f] => exact absurd rfl (hsingle f)
  | _ :: _ :: rest => exact Nat.le_add_left 2 rest.length

/-- What conjunctions and disjunctions have in common when they are folded: a member that is the
absorbing literal decides, and else the parts of all members stand under one node unless there are
fewer than two of them. -/
def junction (absorbing : Bool) (parts : Formula → List Formula) (node : List Formula → Formula)
    (fs : List Formula) : Formula :=
  if fs.any (isLit absorbing) then lit absorbing
  else
    match fs.flatMap parts with
    | [] => lit !absorbing
    | [f] => f
    | fs => node fs

theorem conj_eq_junction (fs : List Formula) : conj fs = junction false conjuncts and fs := rfl

theorem disj_eq_junction (fs : List Formula) : disj fs = junction true disjuncts or fs := rfl

/-- A junction is a literal, or no member is the absorbing one and it is the only part or the node
of at least two. -/
theorem junction_cases (absorbing : Bool) (parts : Formula → List Formula)
    (node : List Formula → Formula) (fs : List Formula) :
    (∃ b, junction absorbing parts node fs = lit b) ∨ (∀ f ∈ fs, f ≠ lit absorbing) ∧
      (junction absorbing parts node fs ∈ fs.flatMap parts ∨
        2 ≤ (fs.flatMap parts).length ∧
          junction absorbing parts node fs = node (fs.flatMap parts)) := by
  unfold junction
  split
  · exact .inl ⟨_, rfl⟩
  · rename_i hany
    split
    · exact .inl ⟨_, rfl⟩
    · rename_i g heq
      exact .inr ⟨fun f hf => ne_lit_of_any_isLit hany hf, .inl (heq ▸ List.mem_singleton_self g)⟩
    · rename_i hnil hsingle
      exact .inr ⟨fun f hf => ne_lit_of_any_isLit hany hf, .inr ⟨two_le_length hnil hsingle, rfl⟩⟩

theorem normal_junction {absorbing : Bool} {parts : Formula → List Formula}
    {node : List Formula → Formula}
    (hparts : ∀ f : Formula, f.Normal → f ≠ lit absorbing → ∀ g ∈ parts f,
      g.Reduced ∧ ∀ gs, g ≠ node gs)
    (hnode : ∀ gs : List Formula, 2 ≤ gs.length → (∀ g ∈ gs, g.Reduced) → (∀ hs, node hs ∉ gs) →
      (node gs).Reduced)
    (h : ∀ f ∈ fs, f.Normal) : (junction absorbing parts node fs).Normal := by
  rcases junction_cases absorbing parts node fs with hlit | ⟨habsorbing, hcases⟩
  · exact .inl hlit
  · have hmem : ∀ g ∈ fs.flatMap parts, g.Reduced ∧ ∀ gs, g ≠ node gs := by
      intro g hg
      obtain ⟨f, hf, hg⟩ := List.mem_flatMap.1 hg
      exact hparts f (h f hf) (habsorbing f hf) g hg
    rcases hcases with hsingle | ⟨hlength, heq⟩
    · exact .inr (hmem _ hsingle).1
    · rw [heq]
      exact .inr (hnode _ hlength (fun g hg => (hmem g hg).1) fun gs hgs => (hmem _ hgs).2 gs rfl)

theorem normal_conj (h : ∀ f ∈ fs, f.Normal) : (conj fs).Normal := by
  rw [conj_eq_junction]
  refine normal_junction ?_ (fun _ => .and) h
  intro f hf hfalse g hg
  exact reduced_of_mem_conjuncts hf hfalse hg

theorem normal_disj (h : ∀ f ∈ fs, f.Normal) : (disj fs).Normal := by
  rw [disj_eq_junction]
  refine normal_junction ?_ (fun _ => .or) h
  intro f hf htrue g hg
  exact reduced_of_mem_disjuncts hf htrue hg

theorem normal_imply (ha : a.Normal) (hb : b.Normal) : (imply a b).Normal := by
  unfold imply
  split
  · exact .inl ⟨_, rfl⟩
  · exact .inl ⟨_, rfl⟩
  · exact hb
  · exact normal_negate ha
  · rename_i hafalse hatrue hbtrue hbfalse
    exact .inr (.implies (ha.reduced (Bool.forall_bool.2 ⟨hafalse, hatrue⟩))
      (hb.reduced (Bool.forall_bool.2 ⟨hbfalse, hbtrue⟩)))

theorem normal_equiv (ha : a.Normal) (hb : b.Normal) : (equiv a b).Normal := by
  unfold equiv
  split
  · exact hb
  · exact ha
  · exact normal_negate hb
  · exact normal_negate ha
  · split
    · exact .inl ⟨_, rfl⟩
    · rename_i hatrue hafalse hbtrue hbfalse hne
      exact .inr (.iff (ha.reduced (Bool.forall_bool.2 ⟨hafalse, hatrue⟩))
        (hb.reduced (Bool.forall_bool.2 ⟨hbfalse, hbtrue⟩)))

theorem normal_equate {a b : Term} (ha : a.Folded) (hb : b.Folded) : (equate a b).Normal := by
  unfold equate
  split
  · exact .inl ⟨_, rfl⟩
  · rename_i hlit
    split
    · exact .inl ⟨_, rfl⟩
    · exact .inr (.eq ha hb fun m n h => hlit m n h.1 h.2)

/-- A fold is a literal or reduced. -/
theorem normal_fold (f : Formula) : f.fold.Normal := by
  induction f using tree_induction with
  | lit b => exact .inl ⟨b, rfl⟩
  | var name => exact .inr (.var name)
  | not f ih => exact normal_negate ih
  | and fs ih =>
    rw [fold, foldAll_eq_map]
    exact normal_conj (List.forall_mem_map.2 ih)
  | or fs ih =>
    rw [fold, foldAll_eq_map]
    exact normal_disj (List.forall_mem_map.2 ih)
  | implies a b iha ihb => exact normal_imply iha ihb
  | iff a b iha ihb => exact normal_equiv iha ihb
  | eq a b => exact normal_equate a.folded_fold b.folded_fold

/-! ## Variables -/

@[simp]
theorem freeVars_negate (f : Formula) : f.negate.freeVars = f.freeVars := by
  unfold negate
  split <;> rfl

theorem freeVars_subset_of_mem_conjuncts (hg : g ∈ f.conjuncts) : g.freeVars ⊆ f.freeVars := by
  unfold conjuncts at hg
  split at hg
  · cases hg
  · rw [freeVars, freeVarsAll_eq_flatMap]
    exact fun x hx => List.mem_flatMap_of_mem hg hx
  · rw [List.mem_singleton.1 hg]
    exact List.Subset.refl _

theorem freeVars_subset_of_mem_disjuncts (hg : g ∈ f.disjuncts) : g.freeVars ⊆ f.freeVars := by
  unfold disjuncts at hg
  split at hg
  · cases hg
  · rw [freeVars, freeVarsAll_eq_flatMap]
    exact fun x hx => List.mem_flatMap_of_mem hg hx
  · rw [List.mem_singleton.1 hg]
    exact List.Subset.refl _

theorem freeVars_junction_subset {absorbing : Bool} {parts : Formula → List Formula}
    {node : List Formula → Formula} (hparts : ∀ f, ∀ g ∈ parts f, g.freeVars ⊆ f.freeVars)
    (hnode : ∀ gs, (node gs).freeVars = freeVarsAll gs) (fs : List Formula) :
    (junction absorbing parts node fs).freeVars ⊆ fs.flatMap freeVars := by
  have hmem : ∀ g ∈ fs.flatMap parts, g.freeVars ⊆ fs.flatMap freeVars := by
    intro g hg x hx
    obtain ⟨f, hf, hg⟩ := List.mem_flatMap.1 hg
    exact List.mem_flatMap_of_mem hf (hparts f g hg hx)
  rcases junction_cases absorbing parts node fs with ⟨b, heq⟩ | ⟨-, hsingle | ⟨-, heq⟩⟩
  · rw [heq]
    exact List.nil_subset _
  · exact hmem _ hsingle
  · rw [heq, hnode, freeVarsAll_eq_flatMap]
    intro x hx
    obtain ⟨g, hg, hx⟩ := List.mem_flatMap.1 hx
    exact hmem g hg hx

theorem freeVars_imply_subset (a b : Formula) :
    (imply a b).freeVars ⊆ a.freeVars ++ b.freeVars := by
  unfold imply
  split <;> simp [freeVars]

theorem freeVars_equiv_subset (a b : Formula) :
    (equiv a b).freeVars ⊆ a.freeVars ++ b.freeVars := by
  unfold equiv
  split
  · simp
  · simp
  · simp
  · simp
  · split <;> simp [freeVars]

theorem freeVars_equate_subset (a b : Term) :
    (equate a b).freeVars ⊆ a.freeVars ++ b.freeVars := by
  unfold equate
  split
  · simp [freeVars]
  · split <;> simp [freeVars]

/-- Folding adds no variable to a formula. -/
theorem freeVars_fold_subset (f : Formula) : f.fold.freeVars ⊆ f.freeVars := by
  have hmembers : ∀ fs : List Formula, (∀ f ∈ fs, f.fold.freeVars ⊆ f.freeVars) →
      (fs.map fold).flatMap freeVars ⊆ freeVarsAll fs := by
    intro fs hfs x hx
    rw [freeVarsAll_eq_flatMap]
    rw [List.flatMap_map] at hx
    obtain ⟨f, hf, hx⟩ := List.mem_flatMap.1 hx
    exact List.mem_flatMap_of_mem hf (hfs f hf hx)
  induction f using tree_induction with
  | lit b => exact List.Subset.refl _
  | var name => exact List.Subset.refl _
  | not f ih =>
    rw [fold, freeVars_negate]
    exact ih
  | and fs ih =>
    rw [fold, foldAll_eq_map, conj_eq_junction]
    exact List.Subset.trans
      (freeVars_junction_subset (fun _ _ => freeVars_subset_of_mem_conjuncts) (fun _ => rfl) _)
      (hmembers fs ih)
  | or fs ih =>
    rw [fold, foldAll_eq_map, disj_eq_junction]
    exact List.Subset.trans
      (freeVars_junction_subset (fun _ _ => freeVars_subset_of_mem_disjuncts) (fun _ => rfl) _)
      (hmembers fs ih)
  | implies a b iha ihb =>
    exact List.Subset.trans (freeVars_imply_subset _ _) (append_subset_append iha ihb)
  | iff a b iha ihb =>
    exact List.Subset.trans (freeVars_equiv_subset _ _) (append_subset_append iha ihb)
  | eq a b =>
    exact List.Subset.trans (freeVars_equate_subset _ _)
      (append_subset_append a.freeVars_fold_subset b.freeVars_fold_subset)

/-- A reduced formula has a variable. -/
theorem Reduced.freeVars_ne_nil (h : f.Reduced) : f.freeVars ≠ [] := by
  have hmember : ∀ fs : List Formula, 2 ≤ fs.length → (∀ f ∈ fs, f.freeVars ≠ []) →
      freeVarsAll fs ≠ [] := by
    intro fs hlength hfs
    match fs with
    | f :: rest =>
      rw [freeVarsAll]
      exact List.append_ne_nil_of_left_ne_nil (hfs f List.mem_cons_self) _
  induction h with
  | var name => simp [freeVars]
  | not _ _ ih => exact ih
  | and hlength _ _ ih => exact hmember _ hlength ih
  | or hlength _ _ ih => exact hmember _ hlength ih
  | implies _ _ iha _ => exact List.append_ne_nil_of_left_ne_nil iha _
  | iff _ _ iha _ => exact List.append_ne_nil_of_left_ne_nil iha _
  | eq ha hb hlit =>
    intro hnil
    obtain ⟨hva, hvb⟩ := List.append_eq_nil_iff.1 hnil
    obtain ⟨m, hm⟩ := ha.eq_lit hva
    obtain ⟨n, hn⟩ := hb.eq_lit hvb
    exact hlit m n ⟨hm, hn⟩

/-- A normal formula without variables is a literal. -/
theorem Normal.eq_lit (h : f.Normal) (hv : f.freeVars = []) : ∃ b, f = lit b := by
  rcases h with hlit | h
  · exact hlit
  · exact absurd hv h.freeVars_ne_nil

end Formula

/-! ## Folds over given variables -/

section BuiltFrom

variable {vars : List (String × VarSort)}

/-- The term is the fold of a tree over some variables. -/
def Term.BuiltFrom (vars : List (String × VarSort)) (t : Term) : Prop :=
  ∃ tree : Term, tree.fold = t ∧ tree.freeVars ⊆ vars

/-- The formula is the fold of a tree over some variables. -/
def Formula.BuiltFrom (vars : List (String × VarSort)) (f : Formula) : Prop :=
  ∃ tree : Formula, tree.fold = f ∧ tree.freeVars ⊆ vars

namespace Term.BuiltFrom

variable {a b : Term}

theorem lit (n : Int) : (Term.lit n).BuiltFrom vars := ⟨.lit n, rfl, List.nil_subset _⟩

theorem plus (ha : a.BuiltFrom vars) (hb : b.BuiltFrom vars) : (a.plus b).BuiltFrom vars := by
  obtain ⟨s, rfl, hs⟩ := ha
  obtain ⟨t, rfl, ht⟩ := hb
  exact ⟨.add s t, rfl, List.append_subset.2 ⟨hs, ht⟩⟩

theorem minus (ha : a.BuiltFrom vars) (hb : b.BuiltFrom vars) : (a.minus b).BuiltFrom vars := by
  obtain ⟨s, rfl, hs⟩ := ha
  obtain ⟨t, rfl, ht⟩ := hb
  exact ⟨.sub s t, rfl, List.append_subset.2 ⟨hs, ht⟩⟩

end Term.BuiltFrom

namespace Formula.BuiltFrom

variable {f a b : Formula} {fs : List Formula}

theorem lit (b : Bool) : (Formula.lit b).BuiltFrom vars := ⟨.lit b, rfl, List.nil_subset _⟩

theorem negate (h : f.BuiltFrom vars) : f.negate.BuiltFrom vars := by
  obtain ⟨s, rfl, hs⟩ := h
  exact ⟨.not s, rfl, hs⟩

theorem exists_trees (h : ∀ f ∈ fs, f.BuiltFrom vars) :
    ∃ trees, foldAll trees = fs ∧ freeVarsAll trees ⊆ vars := by
  induction fs with
  | nil => exact ⟨[], rfl, List.nil_subset _⟩
  | cons f fs ih =>
    obtain ⟨⟨tree, rfl, htree⟩, hfs⟩ := List.forall_mem_cons.1 h
    obtain ⟨trees, rfl, htrees⟩ := ih hfs
    exact ⟨tree :: trees, rfl, List.append_subset.2 ⟨htree, htrees⟩⟩

theorem conj (h : ∀ f ∈ fs, f.BuiltFrom vars) : (Formula.conj fs).BuiltFrom vars := by
  obtain ⟨trees, rfl, htrees⟩ := exists_trees h
  exact ⟨.and trees, rfl, htrees⟩

theorem disj (h : ∀ f ∈ fs, f.BuiltFrom vars) : (Formula.disj fs).BuiltFrom vars := by
  obtain ⟨trees, rfl, htrees⟩ := exists_trees h
  exact ⟨.or trees, rfl, htrees⟩

theorem conj_pair (ha : a.BuiltFrom vars) (hb : b.BuiltFrom vars) :
    (Formula.conj [a, b]).BuiltFrom vars :=
  conj (List.forall_mem_cons.2 ⟨ha, List.forall_mem_singleton.2 hb⟩)

theorem disj_pair (ha : a.BuiltFrom vars) (hb : b.BuiltFrom vars) :
    (Formula.disj [a, b]).BuiltFrom vars :=
  disj (List.forall_mem_cons.2 ⟨ha, List.forall_mem_singleton.2 hb⟩)

theorem imply (ha : a.BuiltFrom vars) (hb : b.BuiltFrom vars) :
    (Formula.imply a b).BuiltFrom vars := by
  obtain ⟨s, rfl, hs⟩ := ha
  obtain ⟨t, rfl, ht⟩ := hb
  exact ⟨.implies s t, rfl, List.append_subset.2 ⟨hs, ht⟩⟩

theorem equiv (ha : a.BuiltFrom vars) (hb : b.BuiltFrom vars) :
    (Formula.equiv a b).BuiltFrom vars := by
  obtain ⟨s, rfl, hs⟩ := ha
  obtain ⟨t, rfl, ht⟩ := hb
  exact ⟨.iff s t, rfl, List.append_subset.2 ⟨hs, ht⟩⟩

theorem equate {a b : Term} (ha : a.BuiltFrom vars) (hb : b.BuiltFrom vars) :
    (Formula.equate a b).BuiltFrom vars := by
  obtain ⟨s, rfl, hs⟩ := ha
  obtain ⟨t, rfl, ht⟩ := hb
  exact ⟨.eq s t, rfl, List.append_subset.2 ⟨hs, ht⟩⟩

/-- A fold over no variables is a literal. -/
theorem eq_lit (h : f.BuiltFrom []) : ∃ b, f = .lit b := by
  obtain ⟨tree, rfl, htree⟩ := h
  exact (normal_fold tree).eq_lit
    (List.eq_nil_of_subset_nil (List.Subset.trans (freeVars_fold_subset tree) htree))

end Formula.BuiltFrom
end BuiltFrom

end Smt
end Metrology
