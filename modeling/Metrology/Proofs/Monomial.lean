import Metrology.Component
import Metrology.Proofs.SortedMap

/-!
# Concrete units by their components

A concrete unit is determined by its power of ten and the exponents of all
dimensions.  Products and quotients are exact in every component: they exist
exactly if all the integers that they would have are in range.
-/

namespace Metrology

namespace Monomial

@[simp]
theorem power_set (m : Monomial) (d : String) (e : Exponent) : (m.set d e).power = m.power := by
  unfold set
  split <;> rfl

theorem exponent_set (m : Monomial) (d d' : String) (e : Exponent) :
    (m.set d e).exponent d' = if d' = d then e else m.exponent d' := by
  unfold set exponent
  split
  · rename_i he
    by_cases hd : d' = d <;> simp [SortedMap.get?_erase, hd, he]
  · by_cases hd : d' = d <;> simp [SortedMap.get?_insert, hd]

theorem get?_exponents (m : Monomial) (d : String) :
    m.exponents.get? d = if m.exponent d = 0 then none else some (m.exponent d) := by
  unfold exponent
  cases hd : m.exponents.get? d with
  | none => simp
  | some e =>
    have hne : e ≠ 0 := m.nonzero _ (SortedMap.get?_eq_some_iff.1 hd)
    simp [hne]

/-- The dimensions of a unit are those with a nonzero exponent. -/
theorem mem_dimensions_iff {m : Monomial} {d : String} :
    d ∈ m.dimensions ↔ m.exponent d ≠ 0 := by
  rw [dimensions, SortedMap.mem_keys_iff, get?_exponents]
  by_cases hd : m.exponent d = 0 <;> simp [hd]

theorem ext_exponent
    {a b : Monomial} (hpower : a.power = b.power)
    (hexponent : ∀ d, a.exponent d = b.exponent d) : a = b := by
  have hexponents : a.exponents = b.exponents := by
    apply SortedMap.ext_get?
    intro d
    rw [get?_exponents, get?_exponents, hexponent]
  cases a
  cases b
  simp_all

theorem power_foldl_set (m : Monomial) (l : List (String × Exponent)) :
    (l.foldl (fun m e => m.set e.1 e.2) m).power = m.power := by
  induction l generalizing m with
  | nil => rfl
  | cons e rest ih => rw [List.foldl_cons, ih, power_set]

/-- The last of several exponents of a dimension counts. -/
theorem exponent_foldl_set (m : Monomial) (l : List (String × Exponent)) (d : String) :
    (l.foldl (fun m e => m.set e.1 e.2) m).exponent d =
      ((SortedMap.ofList l).get? d).getD (m.exponent d) := by
  rw [SortedMap.ofList, SortedMap.get?_foldl_insert, SortedMap.get?_empty, Option.or_none]
  induction l generalizing m with
  | nil => rfl
  | cons e rest ih =>
    rw [List.foldl_cons, ih, exponent_set, List.reverse_cons, List.find?_append]
    cases rest.reverse.find? fun e => decide (e.1 = d) with
    | some found => rfl
    | none => by_cases hd : d = e.1 <;> simp [hd, eq_comm]

/-- A unit is put together again from its power of ten and its exponents. -/
theorem ofExponents_entries (m : Monomial) : ofExponents m.power m.exponents.entries = m := by
  apply ext_exponent
  · exact power_foldl_set _ _
  · intro d
    rw [ofExponents, exponent_foldl_set, SortedMap.ofList_entries]
    rfl

@[simp]
theorem power_one : one.power = 0 := rfl

@[simp]
theorem exponent_one (d : String) : one.exponent d = 0 := rfl

end Monomial

namespace Component

/-- Two units with the same components are equal. -/
theorem ext_valueOf
    {a b : Monomial} (h : ∀ c : Component, (c.valueOf a).val = (c.valueOf b).val) : a = b :=
  Monomial.ext_exponent (Exponent.ext (h .power)) fun d => Exponent.ext (h (.dimension d))

theorem valueOf_assign (c c' : Component) (m : Monomial) (e : Exponent) :
    c'.valueOf (c.assign m e) = if c' = c then e else c'.valueOf m := by
  cases c with
  | power =>
    cases c' with
    | power => rfl
    | dimension d' => simp [assign, valueOf, Monomial.setPower, Monomial.exponent]
  | dimension d =>
    cases c' with
    | power => simp [assign, valueOf]
    | dimension d' => simp [assign, valueOf, Monomial.exponent_set]

@[simp]
theorem valueOf_one (c : Component) : c.valueOf Monomial.one = 0 := by
  cases c <;> rfl

/-- A unit is zero in the dimensions that it does not have. -/
theorem valueOf_eq_zero_of_not_mem
    {m : Monomial} {d : String} (hd : d ∉ m.dimensions) : (dimension d).valueOf m = 0 :=
  Decidable.byContradiction fun hne => hd (Monomial.mem_dimensions_iff.2 hne)

end Component

namespace Monomial

variable {op : Int → Int → Int}

/-- What combining with a list of exponents does to each exponent of the left operand. -/
theorem foldlM_combine_eq_some_iff
    {a acc r : Monomial} {l : List (String × Exponent)}
    (hl : l.Pairwise fun e e' => e.1 < e'.1) :
    l.foldlM (fun acc e => do
        let x ← Exponent.ofInt? (op (a.exponent e.1).val e.2.val)
        pure (acc.set e.1 x)) acc = some r ↔
      r.power = acc.power ∧
        ∀ d, (r.exponent d).val =
          ((l.lookup d).map fun e => op (a.exponent d).val e.val).getD (acc.exponent d).val := by
  induction l generalizing acc with
  | nil =>
    simp only [List.foldlM_nil, List.lookup_nil, Option.map_none, Option.getD_none]
    constructor
    · rintro ⟨⟩
      simp
    · rintro ⟨hpower, hexponent⟩
      exact congrArg some
        (ext_exponent hpower.symm fun d => Exponent.ext (hexponent d).symm)
  | cons e rest ih =>
    obtain ⟨hlt, hrest⟩ := List.pairwise_cons.1 hl
    have hfresh : rest.lookup e.1 = none := by
      rw [List.lookup_eq_none_iff]
      intro e' he'
      have hne : e.1 ≠ e'.1 := fun heq => Std.lt_irrefl (heq ▸ hlt e' he')
      simpa using hne
    rw [List.foldlM_cons]
    cases hx : Exponent.ofInt? (op (a.exponent e.1).val e.2.val) with
    | none =>
      have hrange := Exponent.ofInt?_eq_none_iff.1 hx
      simp only [Option.bind_eq_bind, Option.bind_none, reduceCtorEq, false_iff]
      rintro ⟨-, hexponent⟩
      apply hrange
      have he := hexponent e.1
      rw [SortedMap.lookup_cons_eq_ite, if_pos rfl] at he
      simp only [Option.map_some, Option.getD_some] at he
      rw [← he]
      exact (r.exponent e.1).inRange
    | some x =>
      have hval : x.val = op (a.exponent e.1).val e.2.val := Exponent.ofInt?_eq_some_iff.1 hx
      refine (ih hrest).trans ?_
      rw [power_set]
      refine and_congr_right fun _ => forall_congr' fun d => ?_
      rw [SortedMap.lookup_cons_eq_ite, exponent_set]
      by_cases hd : d = e.1
      · subst hd
        simp [hfresh, hval]
      · simp [hd]

/-- A combination exists exactly if every component of it is in range, and then it has
exactly these components. -/
theorem combine?_eq_some_iff
    (hop : ∀ x, op x 0 = x) {a b r : Monomial} :
    combine? op a b = some r ↔
      ∀ c : Component, (c.valueOf r).val = op (c.valueOf a).val (c.valueOf b).val := by
  have hdims : ∀ d, ((b.exponents.entries.lookup d).map fun e =>
      op (a.exponent d).val e.val).getD (a.exponent d).val =
        op (a.exponent d).val (b.exponent d).val := by
    intro d
    change ((b.exponents.get? d).map _).getD _ = _
    rw [get?_exponents]
    by_cases hd : b.exponent d = 0 <;> simp [hd, hop]
  have hsplit : (∀ c : Component, (c.valueOf r).val = op (c.valueOf a).val (c.valueOf b).val) ↔
      r.power.val = op a.power.val b.power.val ∧
        ∀ d, (r.exponent d).val = op (a.exponent d).val (b.exponent d).val :=
    ⟨fun h => ⟨h .power, fun d => h (.dimension d)⟩, fun h c => by
      cases c with
      | power => exact h.1
      | dimension d => exact h.2 d⟩
  rw [hsplit, combine?]
  cases hp : Exponent.ofInt? (op a.power.val b.power.val) with
  | none =>
    have hrange := Exponent.ofInt?_eq_none_iff.1 hp
    simp only [Option.bind_eq_bind, Option.bind_none, reduceCtorEq, false_iff]
    rintro ⟨hpower, -⟩
    exact hrange (hpower ▸ r.power.inRange)
  | some p =>
    have hval : p.val = op a.power.val b.power.val := Exponent.ofInt?_eq_some_iff.1 hp
    simp only [Option.bind_eq_bind, Option.bind_some]
    refine (foldlM_combine_eq_some_iff b.exponents.sorted).trans ?_
    refine and_congr ?_ (forall_congr' fun d => ?_)
    · rw [Exponent.ext_iff, ← hval]
      rfl
    · rw [← hdims d]
      rfl

/-- A list of exponents combines with a unit if every result is in range. -/
theorem exists_foldlM_combine_eq_some
    {a : Monomial} (acc : Monomial) {l : List (String × Exponent)}
    (hl : ∀ e ∈ l, InExponentRange (op (a.exponent e.1).val e.2.val)) :
    ∃ r, l.foldlM (fun acc e => do
        let x ← Exponent.ofInt? (op (a.exponent e.1).val e.2.val)
        pure (acc.set e.1 x)) acc = some r := by
  induction l generalizing acc with
  | nil => exact ⟨acc, rfl⟩
  | cons e rest ih =>
    have hrange := hl e (by simp)
    obtain ⟨r, hr⟩ := ih (acc.set e.1 ⟨_, hrange⟩) fun e' he' => hl e' (by simp [he'])
    have hstep : Exponent.ofInt? (op (a.exponent e.1).val e.2.val) = some ⟨_, hrange⟩ :=
      Exponent.ofInt?_eq_some_iff.2 rfl
    refine ⟨r, ?_⟩
    rw [List.foldlM_cons, hstep]
    exact hr

/-- A combination exists exactly if every component of it is in range. -/
theorem exists_combine?_eq_some_iff
    (hop : ∀ x, op x 0 = x) {a b : Monomial} :
    (∃ r, combine? op a b = some r) ↔
      ∀ c : Component, InExponentRange (op (c.valueOf a).val (c.valueOf b).val) := by
  constructor
  · rintro ⟨r, hr⟩ c
    rw [← (combine?_eq_some_iff hop).1 hr c]
    exact (c.valueOf r).inRange
  · intro h
    have hentries : ∀ e ∈ b.exponents.entries,
        InExponentRange (op (a.exponent e.1).val e.2.val) := by
      intro e he
      have hd : b.exponent e.1 = e.2 := by
        rw [exponent, SortedMap.get?_eq_some_iff.2 he, Option.getD_some]
      exact hd ▸ h (.dimension e.1)
    obtain ⟨r, hr⟩ := exists_foldlM_combine_eq_some (a.setPower ⟨_, h .power⟩) hentries
    refine ⟨r, ?_⟩
    have hpower : Exponent.ofInt? (op a.power.val b.power.val) = some ⟨_, h .power⟩ :=
      Exponent.ofInt?_eq_some_iff.2 rfl
    rw [combine?, hpower]
    exact hr

theorem mul?_eq_some_iff {a b r : Monomial} :
    a.mul? b = some r ↔
      ∀ c : Component, (c.valueOf r).val = (c.valueOf a).val + (c.valueOf b).val :=
  combine?_eq_some_iff fun x => Int.add_zero x

theorem div?_eq_some_iff {a b r : Monomial} :
    a.div? b = some r ↔
      ∀ c : Component, (c.valueOf r).val = (c.valueOf a).val - (c.valueOf b).val :=
  combine?_eq_some_iff fun x => Int.sub_zero x

theorem exists_mul?_eq_some_iff {a b : Monomial} :
    (∃ r, a.mul? b = some r) ↔
      ∀ c : Component, InExponentRange ((c.valueOf a).val + (c.valueOf b).val) :=
  exists_combine?_eq_some_iff fun x => Int.add_zero x

theorem exists_div?_eq_some_iff {a b : Monomial} :
    (∃ r, a.div? b = some r) ↔
      ∀ c : Component, InExponentRange ((c.valueOf a).val - (c.valueOf b).val) :=
  exists_combine?_eq_some_iff fun x => Int.sub_zero x

end Monomial
end Metrology
