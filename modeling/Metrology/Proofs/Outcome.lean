/-!
# Steps that may fail

How a sequence of steps in `Except` comes to succeed or to fail, so that proofs
about them take a run apart step by step.
-/

namespace Metrology

variable {ε α β : Type}

theorem bind_eq_ok_iff {x : Except ε α} {f : α → Except ε β} {b : β} :
    x >>= f = .ok b ↔ ∃ a, x = .ok a ∧ f a = .ok b := by
  cases x with
  | error e => simp [bind, Except.bind]
  | ok a => simp [bind, Except.bind]

theorem bind_eq_error_iff {x : Except ε α} {f : α → Except ε β} {e : ε} :
    x >>= f = .error e ↔ x = .error e ∨ ∃ a, x = .ok a ∧ f a = .error e := by
  cases x with
  | error e' => simp [bind, Except.bind]
  | ok a => simp [bind, Except.bind]

theorem map_eq_ok_iff {x : Except ε α} {f : α → β} {b : β} :
    x.map f = .ok b ↔ ∃ a, x = .ok a ∧ f a = b := by
  cases x with
  | error e => simp [Except.map]
  | ok a => simp [Except.map]

theorem map_eq_error_iff {x : Except ε α} {f : α → β} {e : ε} :
    x.map f = .error e ↔ x = .error e := by
  cases x with
  | error e' => simp [Except.map]
  | ok a => simp [Except.map]

theorem toOption_eq_some_iff {x : Except ε α} {a : α} : x.toOption = some a ↔ x = .ok a := by
  cases x with
  | error e => simp [Except.toOption]
  | ok b => simp [Except.toOption]

/-- A traversal succeeds with exactly the results of its steps. -/
theorem mapM_eq_ok_iff {f : α → Except ε β} {l : List α} {r : List β} :
    l.mapM f = .ok r ↔ l.map f = r.map .ok := by
  induction l generalizing r with
  | nil => cases r <;> simp [pure, Except.pure]
  | cons a rest ih =>
    rw [List.mapM_cons, bind_eq_ok_iff]
    constructor
    · rintro ⟨b, hb, h⟩
      obtain ⟨bs, hbs, h⟩ := bind_eq_ok_iff.1 h
      cases h
      rw [List.map_cons, List.map_cons, hb, ih.1 hbs]
    · intro h
      cases r with
      | nil => simp at h
      | cons b bs =>
        obtain ⟨hb, hbs⟩ := List.cons.inj h
        exact ⟨b, hb, bind_eq_ok_iff.2 ⟨bs, ih.2 hbs, rfl⟩⟩

theorem mem_of_mapM_eq_ok
    {f : α → Except ε β} {l : List α} {r : List β} (h : l.mapM f = .ok r) {b : β} :
    b ∈ r ↔ ∃ a ∈ l, f a = .ok b := by
  have hmap := mapM_eq_ok_iff.1 h
  have hb : Except.ok (ε := ε) b ∈ r.map .ok ↔ b ∈ r := by simp
  rw [← hb, ← hmap, List.mem_map]

/-- A traversal succeeds exactly if each of its steps does. -/
theorem exists_mapM_eq_ok_iff {f : α → Except ε β} {l : List α} :
    (∃ r, l.mapM f = .ok r) ↔ ∀ a ∈ l, ∃ b, f a = .ok b := by
  constructor
  · rintro ⟨r, h⟩ a ha
    have hmem : f a ∈ r.map .ok := mapM_eq_ok_iff.1 h ▸ List.mem_map_of_mem ha
    obtain ⟨b, -, hb⟩ := List.mem_map.1 hmem
    exact ⟨b, hb.symm⟩
  · intro h
    induction l with
    | nil => exact ⟨[], rfl⟩
    | cons a rest ih =>
      obtain ⟨b, hb⟩ := h a (by simp)
      obtain ⟨bs, hbs⟩ := ih fun a' ha' => h a' (by simp [ha'])
      refine ⟨b :: bs, mapM_eq_ok_iff.2 ?_⟩
      rw [List.map_cons, List.map_cons, hb, mapM_eq_ok_iff.1 hbs]

theorem mapM_eq_ok_map
    {f : α → Except ε β} {g : α → β} {l : List α} (h : ∀ a ∈ l, f a = .ok (g a)) :
    l.mapM f = .ok (l.map g) := by
  rw [mapM_eq_ok_iff, List.map_map]
  exact List.map_congr_left h

theorem eq_map_of_mapM_eq_ok
    {f : α → Except ε β} {g : α → β} {l : List α} {r : List β} (h : l.mapM f = .ok r)
    (hg : ∀ a ∈ l, ∀ b, f a = .ok b → b = g a) : r = l.map g := by
  have hstep : ∀ a ∈ l, f a = .ok (g a) := by
    intro a ha
    obtain ⟨b, hb⟩ := exists_mapM_eq_ok_iff.1 ⟨r, h⟩ a ha
    exact hg a ha b hb ▸ hb
  exact Except.ok.inj (h.symm.trans (mapM_eq_ok_map hstep))

/-- A traversal whose results determine their inputs gives the inputs back. -/
theorem map_eq_of_mapM_eq_ok
    {f : α → Except ε β} {g : β → α} {l : List α} {r : List β} (h : l.mapM f = .ok r)
    (hg : ∀ a ∈ l, ∀ b, f a = .ok b → g b = a) : r.map g = l := by
  have hmap := mapM_eq_ok_iff.1 h
  clear h
  induction l generalizing r with
  | nil => rw [List.map_eq_nil_iff.1 hmap.symm, List.map_nil]
  | cons a rest ih =>
    cases r with
    | nil => cases hmap
    | cons b bs =>
      obtain ⟨hb, hbs⟩ := List.cons.inj hmap
      obtain ⟨ha, hrest⟩ := List.forall_mem_cons.1 hg
      rw [List.map_cons, ha b hb, ih hrest hbs]

/-- A traversal fails with the failure of one of its steps. -/
theorem exists_of_mapM_eq_error
    {f : α → Except ε β} {l : List α} {e : ε} (h : l.mapM f = .error e) :
    ∃ a ∈ l, f a = .error e := by
  induction l with
  | nil => simp [pure, Except.pure] at h
  | cons a rest ih =>
    rw [List.mapM_cons] at h
    rcases bind_eq_error_iff.1 h with ha | ⟨b, -, h⟩
    · exact ⟨a, by simp, ha⟩
    · rcases bind_eq_error_iff.1 h with hrest | ⟨bs, -, h⟩
      · obtain ⟨a', ha', h'⟩ := ih hrest
        exact ⟨a', by simp [ha'], h'⟩
      · cases h

/-- A fold fails with the failure of one of its steps. -/
theorem exists_of_foldlM_eq_error
    {f : β → α → Except ε β} {l : List α} {b : β} {e : ε} (h : l.foldlM f b = .error e) :
    ∃ b', ∃ a ∈ l, f b' a = .error e := by
  induction l generalizing b with
  | nil => simp [pure, Except.pure] at h
  | cons a rest ih =>
    rw [List.foldlM_cons] at h
    rcases bind_eq_error_iff.1 h with ha | ⟨b₁, -, h⟩
    · exact ⟨b, a, by simp, ha⟩
    · obtain ⟨b', a', ha', h'⟩ := ih h
      exact ⟨b', a', by simp [ha'], h'⟩

end Metrology
