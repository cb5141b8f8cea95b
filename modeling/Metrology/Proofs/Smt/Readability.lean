import Metrology.Proofs.Text
import Metrology.Proofs.Smt.Folding

/-!
# Reading rendered formulas

The text of a formula is that of a symbolic expression: a bare word, a quoted name, or an operator
and its arguments in parentheses.  At most one expression stands at the beginning of a text, so the
text of a formula determines its expression.  The expression shows every connective but one: the
same operator compares formulas and terms.  The first operands tell the two apart unless both are
variables of one name, so formulas that use no name in both sorts are determined by their text.
-/

namespace Metrology
namespace Smt

/-! ## Symbolic expressions -/

/-- A symbolic expression. -/
inductive Sexp where
  | word (text : String)
  | quoted (name : String)
  | node (operator : String) (args : List Sexp)

/-- The characters of bare words. -/
def isBare (c : Char) : Bool := c != ' ' && c != '(' && c != ')' && c != '|'

/-- A nonempty run of bare characters. -/
def IsBareWord (l : List Char) : Prop := l ≠ [] ∧ ∀ c ∈ l, isBare c = true

instance (l : List Char) : Decidable (IsBareWord l) :=
  @instDecidableAnd _ _ inferInstance (List.decidableBAll _ l)

/-- A text in front of which a bare word ends. -/
def Delimits (rest : List Char) : Prop := ∀ c, rest.head? = some c → isBare c = false

namespace Sexp

mutual

/-- The characters of an expression. -/
def text : Sexp → List Char
  | word w => w.toList
  | quoted name => '|' :: (name.toList ++ ['|'])
  | node operator args =>
    '(' :: (operator.toList ++ ' ' :: ([' '].intercalate (texts args) ++ [')']))

/-- The characters of each expression. -/
def texts : List Sexp → List (List Char)
  | [] => []
  | s :: rest => s.text :: texts rest

end

/-- The words and operators of an expression are bare, and its names hold no bar. -/
inductive Plain : Sexp → Prop
  | word {w : String} (hw : IsBareWord w.toList) : Plain (.word w)
  | quoted {name : String} (hname : '|' ∉ name.toList) : Plain (.quoted name)
  | node {operator : String} {args : List Sexp} (hoperator : IsBareWord operator.toList)
      (hargs : ∀ s ∈ args, Plain s) : Plain (.node operator args)

/-- At most one pair of an expression and a delimited rest makes up a text. -/
def Readable (s : Sexp) : Prop :=
  ∀ t r r', t.Plain → Delimits r → Delimits r' → s.text ++ r = t.text ++ r' → s = t ∧ r = r'

end Sexp

section Reading

variable {r r' : List Char}

theorem delimits_space (rest : List Char) : Delimits (' ' :: rest) := by
  rintro c ⟨⟩
  rfl

theorem delimits_close (rest : List Char) : Delimits (')' :: rest) := by
  rintro c ⟨⟩
  rfl

theorem takeWhile_isBare_append {w : List Char} (hw : IsBareWord w) (hr : Delimits r) :
    (w ++ r).takeWhile isBare = w := by
  have hrest : r.takeWhile isBare = [] := by
    cases r with
    | nil => rfl
    | cons c rest => exact List.takeWhile_cons_of_neg (by simp [hr c rfl])
  rw [List.takeWhile_append_of_pos hw.2, hrest, List.append_nil]

/-- A bare word ends at its delimiter. -/
theorem bareWord_append_inj {w w' : List Char} (hw : IsBareWord w) (hw' : IsBareWord w')
    (hr : Delimits r) (hr' : Delimits r') (h : w ++ r = w' ++ r') : w = w' ∧ r = r' := by
  have hword : w = w' := by
    rw [← takeWhile_isBare_append hw hr, h, takeWhile_isBare_append hw' hr']
  subst hword
  exact ⟨rfl, List.append_cancel_left h⟩

/-- A quoted name ends at its bar. -/
theorem quoted_append_inj {name name' : List Char} (hname : '|' ∉ name) (hname' : '|' ∉ name')
    (h : name ++ '|' :: r = name' ++ '|' :: r') : name = name' ∧ r = r' := by
  have hsplit : ∀ {l rest : List Char}, '|' ∉ l →
      Text.splitFirst (· == '|') (l ++ '|' :: rest) = some (l, rest) := by
    intro l rest hl
    refine Text.splitFirst_append_cons (fun c hc => ?_) (by decide)
    simpa using fun heq : c = '|' => hl (heq ▸ hc)
  have heq := (hsplit hname).symm.trans ((congrArg _ h).trans (hsplit hname'))
  exact Prod.mk.inj (Option.some.inj heq)

theorem bareWord_ne_cons {w rest : List Char} {c : Char} (hw : IsBareWord w)
    (hc : isBare c = false) : w ++ r ≠ c :: rest := by
  obtain ⟨d, w, rfl⟩ := List.exists_cons_of_ne_nil hw.1
  intro h
  have hd := hw.2 d List.mem_cons_self
  rw [(List.cons.inj h).1, hc] at hd
  cases hd

namespace Sexp

/-- No expression begins with a closing parenthesis. -/
theorem Plain.text_ne_close {s : Sexp} (hs : s.Plain) (rest : List Char) :
    s.text ++ r ≠ ')' :: rest := by
  cases hs with
  | word hw => exact bareWord_ne_cons hw (by decide)
  | quoted | node => simp [text]

/-- What stands after an argument: the closing parenthesis, or a space and the other arguments. -/
def following (r : List Char) : List Sexp → List Char
  | [] => ')' :: r
  | s :: rest => ' ' :: ([' '].intercalate (texts (s :: rest)) ++ ')' :: r)

theorem delimits_following (args : List Sexp) : Delimits (following r args) := by
  cases args with
  | nil => exact delimits_close r
  | cons s rest => exact delimits_space _

theorem intercalate_texts_cons (s : Sexp) (rest : List Sexp) :
    [' '].intercalate (texts (s :: rest)) ++ ')' :: r = s.text ++ following r rest := by
  cases rest with
  | nil => simp [texts, following]
  | cons t rest => simp [texts, following, List.intercalate_cons_cons]

/-- Readable arguments end at the closing parenthesis. -/
theorem texts_append_inj {args args' : List Sexp} (hargs : ∀ s ∈ args, s.Plain ∧ s.Readable)
    (hargs' : ∀ s ∈ args', s.Plain)
    (h : [' '].intercalate (texts args) ++ ')' :: r =
      [' '].intercalate (texts args') ++ ')' :: r') : args = args' ∧ r = r' := by
  induction args generalizing args' with
  | nil =>
    cases args' with
    | nil => exact ⟨rfl, (List.cons.inj h).2⟩
    | cons t rest' =>
      rw [intercalate_texts_cons] at h
      exact absurd h.symm ((hargs' t List.mem_cons_self).text_ne_close r)
  | cons s rest ih =>
    obtain ⟨⟨hs, hread⟩, hrest⟩ := List.forall_mem_cons.1 hargs
    rw [intercalate_texts_cons] at h
    cases args' with
    | nil => exact absurd h (hs.text_ne_close r')
    | cons t rest' =>
      obtain ⟨ht, hrest'⟩ := List.forall_mem_cons.1 hargs'
      rw [intercalate_texts_cons] at h
      obtain ⟨rfl, hfollowing⟩ :=
        hread t _ _ ht (delimits_following rest) (delimits_following rest') h
      -- a space and a parenthesis differ, so both lists end here or both go on
      cases rest with
      | nil =>
        cases rest' with
        | nil => exact ⟨rfl, (List.cons.inj hfollowing).2⟩
        | cons t' rest' => exact absurd (List.cons.inj hfollowing).1 (by decide)
      | cons s' rest =>
        cases rest' with
        | nil => exact absurd (List.cons.inj hfollowing).1 (by decide)
        | cons t' rest' =>
          obtain ⟨hargs, hr⟩ := ih hrest hrest' (List.cons.inj hfollowing).2
          exact ⟨congrArg _ hargs, hr⟩

theorem text_node_append (operator : String) (args : List Sexp) :
    (node operator args).text ++ r =
      '(' :: (operator.toList ++ ' ' :: ([' '].intercalate (texts args) ++ ')' :: r)) := by
  simp [text]

theorem text_quoted_append (name : String) :
    (quoted name).text ++ r = '|' :: (name.toList ++ '|' :: r) := by
  simp [text]

/-- A plain expression at the beginning of a text is the only one there. -/
theorem Plain.readable {s : Sexp} (hs : s.Plain) : s.Readable := by
  induction hs with
  | @word w hw =>
    intro t r r' ht hr hr' h
    cases ht with
    | @word w' hw' =>
      obtain ⟨heq, hrest⟩ := bareWord_append_inj hw hw' hr hr' h
      exact ⟨congrArg _ (String.toList_inj.1 heq), hrest⟩
    | quoted => exact absurd h (bareWord_ne_cons hw (by decide))
    | node => exact absurd h (bareWord_ne_cons hw (by decide))
  | @quoted name hname =>
    intro t r r' ht _ _ h
    rw [text_quoted_append] at h
    cases ht with
    | word hw' => exact absurd h.symm (bareWord_ne_cons hw' (by decide))
    | @quoted name' hname' =>
      rw [text_quoted_append] at h
      obtain ⟨heq, hrest⟩ := quoted_append_inj hname hname' (List.cons.inj h).2
      exact ⟨congrArg _ (String.toList_inj.1 heq), hrest⟩
    | node => exact absurd (List.cons.inj h).1 (by decide)
  | @node operator args hoperator hargs ih =>
    intro t r r' ht _ _ h
    rw [text_node_append] at h
    cases ht with
    | word hw' => exact absurd h.symm (bareWord_ne_cons hw' (by decide))
    | quoted => exact absurd (List.cons.inj h).1 (by decide)
    | @node operator' args' hoperator' hargs' =>
      rw [text_node_append] at h
      obtain ⟨heq, htail⟩ := bareWord_append_inj hoperator hoperator' (delimits_space _)
        (delimits_space _) (List.cons.inj h).2
      obtain ⟨rfl, hrest⟩ := texts_append_inj (fun s hs => ⟨hargs s hs, ih s hs⟩) hargs'
        (List.cons.inj htail).2
      rw [String.toList_inj.1 heq]
      exact ⟨rfl, hrest⟩

/-- Plain expressions are determined by their text. -/
theorem Plain.text_inj {s t : Sexp} (hs : s.Plain) (ht : t.Plain) (h : s.text = t.text) : s = t := by
  have hend : Delimits [] := by rintro c ⟨⟩
  exact (hs.readable t [] [] ht hend hend (congrArg (· ++ []) h)).1

end Sexp
end Reading

/-! ## Expressions of terms -/

/-- Names that stand in quotes and do not end them. -/
def Quotable (vars : List (String × VarSort)) : Prop :=
  ∀ v ∈ vars, isSimpleSymbol v.1 = false ∧ '|' ∉ v.1.toList

/-- No name is used in both sorts. -/
def UniquelySorted (vars : List (String × VarSort)) : Prop :=
  ∀ name, (name, VarSort.bool) ∈ vars → (name, VarSort.int) ∉ vars

theorem quotable_append {vars vars' : List (String × VarSort)} :
    Quotable (vars ++ vars') ↔ Quotable vars ∧ Quotable vars' :=
  List.forall_mem_append

theorem toString_eq_self (s : String) : toString s = s := rfl

theorem toList_quote {name : String} (h : isSimpleSymbol name = false) :
    (quote name).toList = (Sexp.quoted name).text := by
  simp [quote, h, Sexp.text, toString_eq_self]

theorem toString_nat_ne {n : Nat} {c : Char} {rest : List Char} (hc : c.isDigit = false) :
    (toString n).toList ≠ c :: rest := by
  rw [Numeral.toList_toString_nat]
  intro h
  have hdigit := Numeral.isDigit_of_mem_toDigits n (h ▸ List.mem_cons_self)
  rw [hc] at hdigit
  cases hdigit

theorem isBareWord_toString (n : Nat) : IsBareWord (toString n).toList := by
  rw [Numeral.toList_toString_nat]
  refine ⟨Nat.toDigits_ne_nil, fun c hc => ?_⟩
  have hdigit := Numeral.isDigit_of_mem_toDigits n hc
  have hne : ∀ d : Char, d.isDigit = false → c ≠ d := by
    rintro d hd rfl
    exact absurd hdigit (by simp [hd])
  simp [isBare, hne]

namespace Term

/-- The expression of a term. -/
def sexp : Term → Sexp
  | var name => .quoted name
  | lit (.ofNat n) => .word (toString n)
  | lit (.negSucc n) => .node "-" [.word (toString (n + 1))]
  | add a b => .node "+" [a.sexp, b.sexp]
  | sub a b => .node "-" [a.sexp, b.sexp]

/-- The text of a term is that of its expression. -/
theorem toList_render {t : Term} (h : Quotable t.freeVars) : t.render.toList = t.sexp.text := by
  induction t with
  | var name => exact toList_quote (h _ (List.mem_singleton_self _)).1
  | lit n =>
    cases n with
    | ofNat n =>
      have hn : ¬Int.ofNat n < 0 := Int.not_lt.2 (Int.natCast_nonneg n)
      rw [render, if_neg hn, sexp, Sexp.text]
      rfl
    | negSucc n =>
      simp [render, sexp, Int.negSucc_lt_zero, Sexp.text, Sexp.texts, toString_eq_self]
  | add a b iha ihb | sub a b iha ihb =>
    obtain ⟨ha, hb⟩ := quotable_append.1 h
    simp [render, sexp, Sexp.text, Sexp.texts, toString_eq_self, iha ha, ihb hb]

theorem plain_sexp {t : Term} (h : Quotable t.freeVars) : t.sexp.Plain := by
  induction t with
  | var name => exact .quoted (h _ (List.mem_singleton_self _)).2
  | lit n =>
    cases n with
    | ofNat n => exact .word (isBareWord_toString n)
    | negSucc n =>
      exact .node (by decide) (List.forall_mem_singleton.2 (.word (isBareWord_toString (n + 1))))
  | add a b iha ihb | sub a b iha ihb =>
    obtain ⟨ha, hb⟩ := quotable_append.1 h
    exact .node (by decide) (List.forall_mem_cons.2 ⟨iha ha, List.forall_mem_singleton.2 (ihb hb)⟩)

/-- The expression of a term shows all of it. -/
theorem sexp_inj {a b : Term} (h : a.sexp = b.sexp) : a = b := by
  induction a generalizing b with
  | var name =>
    cases b with
    | var name' => simpa [sexp] using h
    | lit n => cases n <;> simp [sexp] at h
    | add | sub => simp [sexp] at h
  | lit m =>
    cases b with
    | lit n =>
      cases m with
      | ofNat m =>
        cases n with
        | ofNat n => rw [Numeral.toString_nat_inj (Sexp.word.inj h)]
        | negSucc n => cases h
      | negSucc m =>
        cases n with
        | ofNat n => cases h
        | negSucc n =>
          have hword := (List.cons.inj (Sexp.node.inj h).2).1
          rw [Nat.succ.inj (Numeral.toString_nat_inj (Sexp.word.inj hword))]
    | var | add | sub => cases m <;> simp [sexp] at h
  | add a₁ a₂ ih₁ ih₂ =>
    cases b with
    | add b₁ b₂ =>
      obtain ⟨h₁, h₂⟩ : a₁.sexp = b₁.sexp ∧ a₂.sexp = b₂.sexp := by simpa [sexp] using h
      rw [ih₁ h₁, ih₂ h₂]
    | lit n => cases n <;> simp [sexp] at h
    | var | sub => simp [sexp] at h
  | sub a₁ a₂ ih₁ ih₂ =>
    cases b with
    | sub b₁ b₂ =>
      obtain ⟨h₁, h₂⟩ : a₁.sexp = b₁.sexp ∧ a₂.sexp = b₂.sexp := by simpa [sexp] using h
      rw [ih₁ h₁, ih₂ h₂]
    | lit n => cases n <;> simp [sexp] at h
    | var | add => simp [sexp] at h

end Term

/-! ## Expressions of formulas -/

namespace Formula

mutual

/-- The expression of a formula. -/
def sexp : Formula → Sexp
  | lit b => .word (if b then "true" else "false")
  | var name => .quoted name
  | not f => .node "not" [f.sexp]
  | and fs => .node "and" (sexps fs)
  | or fs => .node "or" (sexps fs)
  | implies a b => .node "=>" [a.sexp, b.sexp]
  | iff a b => .node "=" [a.sexp, b.sexp]
  | eq a b => .node "=" [a.sexp, b.sexp]

/-- The expressions of formulas. -/
def sexps : List Formula → List Sexp
  | [] => []
  | f :: fs => f.sexp :: sexps fs

end

theorem sexps_eq_map (fs : List Formula) : sexps fs = fs.map sexp := by
  induction fs with
  | nil => rfl
  | cons f fs ih => rw [sexps, ih, List.map_cons]

theorem quotable_of_mem {fs : List Formula} (h : Quotable (freeVarsAll fs)) {f : Formula}
    (hf : f ∈ fs) : Quotable f.freeVars := by
  rw [freeVarsAll_eq_flatMap] at h
  exact fun v hv => h v (List.mem_flatMap.2 ⟨f, hf, hv⟩)

theorem map_toList_renderAll {fs : List Formula}
    (h : ∀ f ∈ fs, f.render.toList = f.sexp.text) :
    (renderAll fs).map String.toList = Sexp.texts (sexps fs) := by
  induction fs with
  | nil => rfl
  | cons f fs ih =>
    obtain ⟨hf, hfs⟩ := List.forall_mem_cons.1 h
    rw [renderAll, List.map_cons, hf, ih hfs, sexps, Sexp.texts]

/-- The text of a formula is that of its expression. -/
theorem toList_render {f : Formula} (h : Quotable f.freeVars) : f.render.toList = f.sexp.text := by
  induction f using tree_induction with
  | lit b => cases b <;> rfl
  | var name => exact toList_quote (h _ (List.mem_singleton_self _)).1
  | not f ih => simp [render, sexp, Sexp.text, Sexp.texts, toString_eq_self, ih h]
  | and fs ih | or fs ih =>
    have htexts := map_toList_renderAll fun f hf => ih f hf (quotable_of_mem h hf)
    simp [render, sexp, Sexp.text, toString_eq_self, String.toList_intercalate, htexts]
  | implies a b iha ihb | iff a b iha ihb =>
    obtain ⟨ha, hb⟩ := quotable_append.1 h
    simp [render, sexp, Sexp.text, Sexp.texts, toString_eq_self, iha ha, ihb hb]
  | eq a b =>
    obtain ⟨ha, hb⟩ := quotable_append.1 h
    simp [render, sexp, Sexp.text, Sexp.texts, toString_eq_self, Term.toList_render ha,
      Term.toList_render hb]

theorem plain_sexp {f : Formula} (h : Quotable f.freeVars) : f.sexp.Plain := by
  have hpair : ∀ {op : String} {s t : Sexp}, IsBareWord op.toList → s.Plain → t.Plain →
      (Sexp.node op [s, t]).Plain := fun hop hs ht =>
    .node hop (List.forall_mem_cons.2 ⟨hs, List.forall_mem_singleton.2 ht⟩)
  induction f using tree_induction with
  | lit b => cases b <;> exact .word (by decide)
  | var name => exact .quoted (h _ (List.mem_singleton_self _)).2
  | not f ih => exact .node (by decide) (List.forall_mem_singleton.2 (ih h))
  | and fs ih | or fs ih =>
    refine .node (by decide) ?_
    rw [sexps_eq_map, List.forall_mem_map]
    exact fun f hf => ih f hf (quotable_of_mem h hf)
  | implies a b iha ihb | iff a b iha ihb =>
    obtain ⟨ha, hb⟩ := quotable_append.1 h
    exact hpair (by decide) (iha ha) (ihb hb)
  | eq a b =>
    obtain ⟨ha, hb⟩ := quotable_append.1 h
    exact hpair (by decide) (Term.plain_sexp ha) (Term.plain_sexp hb)

/-- A formula and a term with the same expression are one variable. -/
theorem eq_var_of_sexp_eq {f : Formula} {t : Term} (h : f.sexp = t.sexp) :
    ∃ name, f = var name ∧ t = .var name := by
  cases f with
  | var name =>
    cases t with
    | var name' =>
      obtain rfl := Sexp.quoted.inj h
      exact ⟨name, rfl, rfl⟩
    | lit n => cases n <;> cases h
    | add | sub => cases h
  | lit b =>
    cases t with
    | lit n =>
      cases n with
      | ofNat n =>
        have hword := congrArg String.toList (Sexp.word.inj h)
        cases b <;> exact absurd hword.symm (toString_nat_ne (by decide))
      | negSucc n => cases h
    | var | add | sub => cases h
  | not | and | or | implies | iff | eq =>
    cases t with
    | lit n => cases n <;> simp [sexp, Term.sexp] at h
    | var | add | sub => simp [sexp, Term.sexp] at h

theorem sexps_inj {fs gs : List Formula}
    (ih : ∀ f ∈ fs, ∀ g ∈ gs, f.sexp = g.sexp → f = g) (h : sexps fs = sexps gs) : fs = gs := by
  induction fs generalizing gs with
  | nil =>
    cases gs with
    | nil => rfl
    | cons => cases h
  | cons f fs ihs =>
    cases gs with
    | nil => cases h
    | cons g gs =>
      obtain ⟨hfirst, hrest⟩ := List.cons.inj h
      rw [ih f List.mem_cons_self g List.mem_cons_self hfirst,
        ihs (fun f hf g hg => ih f (List.mem_cons_of_mem _ hf) g (List.mem_cons_of_mem _ hg)) hrest]

section Inj

variable {vars : List (String × VarSort)}

theorem freeVars_subset_of_mem {fs : List Formula} (h : freeVarsAll fs ⊆ vars) {f : Formula}
    (hf : f ∈ fs) : f.freeVars ⊆ vars := by
  rw [freeVarsAll_eq_flatMap] at h
  exact fun v hv => h (List.mem_flatMap.2 ⟨f, hf, hv⟩)

/-- An equivalence and an equation of the same expression share a name in both sorts. -/
theorem sexp_iff_ne_sexp_eq (hvars : UniquelySorted vars) {a b : Formula} {s t : Term}
    (hiff : (iff a b).freeVars ⊆ vars) (heq : (eq s t).freeVars ⊆ vars) :
    (iff a b).sexp ≠ (eq s t).sexp := by
  intro h
  obtain ⟨name, rfl, rfl⟩ := eq_var_of_sexp_eq (List.cons.inj (Sexp.node.inj h).2).1
  exact hvars name (hiff (List.mem_append_left _ (List.mem_singleton_self _)))
    (heq (List.mem_append_left _ (List.mem_singleton_self _)))

/-- The expression of a formula over uniquely sorted names shows all of it. -/
theorem sexp_inj (hvars : UniquelySorted vars) {f g : Formula} (hf : f.freeVars ⊆ vars)
    (hg : g.freeVars ⊆ vars) (h : f.sexp = g.sexp) : f = g := by
  induction f using tree_induction generalizing g with
  | lit b =>
    cases g with
    | lit c =>
      have hwords : ∀ b c : Bool,
          (if b then "true" else "false") = (if c then "true" else "false") → b = c := by decide
      rw [hwords b c (Sexp.word.inj h)]
    | var | not | and | or | implies | iff | eq => cases h
  | var name =>
    cases g with
    | var name' => rw [Sexp.quoted.inj h]
    | lit | not | and | or | implies | iff | eq => cases h
  | not f ih =>
    cases g with
    | not g =>
      have hg : g.freeVars ⊆ vars := hg
      rw [ih hf hg (List.cons.inj (Sexp.node.inj h).2).1]
    | lit | var => cases h
    | and | or | implies | iff | eq => simp [sexp] at h
  | and fs ih =>
    cases g with
    | and gs =>
      refine congrArg _ (sexps_inj (fun f hmem g hmem' => ?_) (Sexp.node.inj h).2)
      exact ih f hmem (freeVars_subset_of_mem hf hmem) (freeVars_subset_of_mem hg hmem')
    | lit | var => cases h
    | not | or | implies | iff | eq => simp [sexp] at h
  | or fs ih =>
    cases g with
    | or gs =>
      refine congrArg _ (sexps_inj (fun f hmem g hmem' => ?_) (Sexp.node.inj h).2)
      exact ih f hmem (freeVars_subset_of_mem hf hmem) (freeVars_subset_of_mem hg hmem')
    | lit | var => cases h
    | not | and | implies | iff | eq => simp [sexp] at h
  | implies a b iha ihb =>
    cases g with
    | implies a' b' =>
      obtain ⟨ha, hb⟩ : a.sexp = a'.sexp ∧ b.sexp = b'.sexp := by simpa [sexp] using h
      obtain ⟨hfa, hfb⟩ := List.append_subset.1 hf
      obtain ⟨hga, hgb⟩ := List.append_subset.1 hg
      rw [iha hfa hga ha, ihb hfb hgb hb]
    | lit | var => cases h
    | not | and | or | iff | eq => simp [sexp] at h
  | iff a b iha ihb =>
    cases g with
    | iff a' b' =>
      obtain ⟨ha, hb⟩ : a.sexp = a'.sexp ∧ b.sexp = b'.sexp := by simpa [sexp] using h
      obtain ⟨hfa, hfb⟩ := List.append_subset.1 hf
      obtain ⟨hga, hgb⟩ := List.append_subset.1 hg
      rw [iha hfa hga ha, ihb hfb hgb hb]
    | eq s t => exact absurd h (sexp_iff_ne_sexp_eq hvars hf hg)
    | lit | var => cases h
    | not | and | or | implies => simp [sexp] at h
  | eq s t =>
    cases g with
    | eq s' t' =>
      obtain ⟨hs, ht⟩ : s.sexp = s'.sexp ∧ t.sexp = t'.sexp := by simpa [sexp] using h
      rw [Term.sexp_inj hs, Term.sexp_inj ht]
    | iff a b => exact absurd h.symm (sexp_iff_ne_sexp_eq hvars hg hf)
    | lit | var => cases h
    | not | and | or | implies => simp [sexp] at h

end Inj

/-! ## Unique reading -/

/-- Formulas over quoted names of one sort each are determined by their text. -/
theorem eq_of_render_eq {f g : Formula} (hnames : Quotable (f.freeVars ++ g.freeVars))
    (hsorts : UniquelySorted (f.freeVars ++ g.freeVars)) (h : f.render = g.render) : f = g := by
  obtain ⟨hf, hg⟩ := quotable_append.1 hnames
  have htext : f.sexp.text = g.sexp.text := by
    rw [← toList_render hf, ← toList_render hg, h]
  exact sexp_inj hsorts (List.subset_append_left _ _) (List.subset_append_right _ _)
    ((plain_sexp hf).text_inj (plain_sexp hg) htext)

theorem isAlpha_eq_false_of_isDigit {d : Char} (h : d.isDigit = true) : d.isAlpha = false := by
  have hhigh : d.val.toNat ≤ 57 := (Char.isDigit_iff_toNat.1 h).2
  have hbelow : ∀ n : UInt32, 57 < n.toNat → ¬d.val ≥ n := fun n hn hle =>
    absurd (Nat.le_trans (UInt32.le_iff_toNat_le.1 hle) hhigh) (Nat.not_le.2 hn)
  refine Bool.or_eq_false_iff.2 ⟨decide_eq_false fun hupper => ?_, ?_⟩
  · exact hbelow 'A'.val (by decide) hupper.1
  · exact Bool.and_eq_false_iff.2 (.inl (decide_eq_false (hbelow 'a'.val (by decide))))

theorem isSimpleSymbol_eq_false_of_isDigit {name : String}
    (h : name.toList.head?.any Char.isDigit = true) : isSimpleSymbol name = false := by
  unfold isSimpleSymbol
  cases hname : name.toList with
  | nil => rfl
  | cons d rest =>
    have hdigit : d.isDigit = true := by simpa [hname] using h
    simp [isAlpha_eq_false_of_isDigit hdigit]

/-- Formulas whose variables begin with a digit, hold no bar and are all of one sort under each name
have the same text only if they are the same. -/
theorem render_eq_iff (f g : Formula)
    (hdigit : ∀ v ∈ f.freeVars ++ g.freeVars, v.1.toList.head?.any Char.isDigit = true)
    (hbar : ∀ v ∈ f.freeVars ++ g.freeVars, '|' ∉ v.1.toList)
    (hsort : ∀ name, ¬((name, VarSort.bool) ∈ f.freeVars ++ g.freeVars ∧
      (name, VarSort.int) ∈ f.freeVars ++ g.freeVars)) :
    f.render = g.render ↔ f = g := by
  constructor
  · refine eq_of_render_eq (fun v hv => ?_) (fun name hbool hint => hsort name ⟨hbool, hint⟩)
    exact ⟨isSimpleSymbol_eq_false_of_isDigit (hdigit v hv), hbar v hv⟩
  · rintro rfl
    rfl

/-- A conjunction of an equivalence and an equation with one name that holds a parenthesis. -/
def parenthesisedName : Formula :=
  .and [.iff (.var "0-a) (0-b") (.lit true), .eq (.sub (.var "0-m") (.lit (-3))) (.lit 3)]

/-- The conjunction with two names in the place of that one. -/
def separateNames : Formula :=
  .and [.iff (.var "0-a") (.var "0-b"), .eq (.sub (.var "0-m") (.lit (-3))) (.lit 3)]

theorem render_eq_iff_parenthesised : parenthesisedName.render ≠ separateNames.render := by
  intro h
  have heq := (render_eq_iff parenthesisedName separateNames (by decide) (by decide)
    (by simp [parenthesisedName, separateNames, freeVars, freeVarsAll, Term.freeVars])).1 h
  exact absurd heq (by decide)

/-- Without unique sorts the text of an equivalence is that of an equation. -/
example : (iff (.var "0") (.var "1")).render = (eq (.var "0") (.var "1")).render := rfl

end Formula
end Smt
end Metrology
