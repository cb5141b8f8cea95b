import Metrology.SortedMap

/-!
# Looking up entries of sorted maps

A sorted map is determined by what it stores under each key.  The lemmas below
reduce every operation to lookups, so later proofs never open the list of
entries.
-/

namespace Metrology
namespace SortedMap

variable {κ ν : Type} [LT κ] [LE κ] [DecidableLT κ] [DecidableEq κ]
variable [Std.IsLinearOrder κ] [Std.LawfulOrderLT κ]

/-! ## Lookup -/

omit [LT κ] [LE κ] [DecidableLT κ] [Std.IsLinearOrder κ] [Std.LawfulOrderLT κ] in
theorem lookup_cons_eq_ite (e : κ × ν) (l : List (κ × ν)) (k : κ) :
    (e :: l).lookup k = if k = e.1 then some e.2 else l.lookup k := by
  by_cases hk : k = e.1
  · have hbeq : (k == e.1) = true := by simp [hk]
    rw [List.lookup_cons, hbeq, if_pos hk]
  · have hbeq : (k == e.1) = false := by simp [hk]
    rw [List.lookup_cons, hbeq, if_neg hk]

section Lookup

omit [DecidableLT κ]

omit [Std.IsLinearOrder κ] in
theorem get?_eq_some_iff
    {m : SortedMap κ ν} {k : κ} {v : ν} :
    m.get? k = some v ↔ (k, v) ∈ m.entries := by
  obtain ⟨entries, sorted⟩ := m
  simp only [get?]
  induction entries with
  | nil => simp
  | cons e rest ih =>
    obtain ⟨hlt, hrest⟩ := List.pairwise_cons.1 sorted
    obtain ⟨a, b⟩ := e
    by_cases hk : k = a
    · subst hk
      have hnot : (k, v) ∉ rest := fun hmem =>
        Std.lt_irrefl (hlt (k, v) hmem)
      simp [hnot, eq_comm]
    · simp [lookup_cons_eq_ite, hk, ih hrest]

omit [Std.IsLinearOrder κ] in
theorem mem_keys_iff {m : SortedMap κ ν} {k : κ} :
    k ∈ m.keys ↔ ∃ v, m.get? k = some v := by
  simp [keys, get?_eq_some_iff]

omit [Std.IsLinearOrder κ] in
theorem get?_eq_none_iff {m : SortedMap κ ν} {k : κ} :
    m.get? k = none ↔ k ∉ m.keys := by
  rw [mem_keys_iff]
  cases m.get? k <;> simp

omit [LE κ] [DecidableEq κ] [Std.IsLinearOrder κ] [Std.LawfulOrderLT κ] in
theorem keys_sorted (m : SortedMap κ ν) :
    m.keys.Pairwise (· < ·) :=
  List.pairwise_map.2 m.sorted

omit [DecidableEq κ] [Std.IsLinearOrder κ] in
theorem keys_nodup (m : SortedMap κ ν) : m.keys.Nodup :=
  m.keys_sorted.imp fun {a b} (hlt : a < b) (heq : a = b) => Std.lt_irrefl (heq ▸ hlt)

/-- Two strictly increasing lists with the same members are equal. -/
theorem eq_of_sorted_of_mem_iff
    {α : Type} {r : α → α → Prop} (hr : ∀ a b, r a b → ¬r b a)
    {l l' : List α} (hl : l.Pairwise r) (hl' : l'.Pairwise r)
    (hmem : ∀ a, a ∈ l ↔ a ∈ l') : l = l' := by
  induction l generalizing l' with
  | nil =>
    cases l' with
    | nil => rfl
    | cons b _ => simpa using hmem b
  | cons a rest ih =>
    cases l' with
    | nil => simpa using hmem a
    | cons b rest' =>
      obtain ⟨ha, hrest⟩ := List.pairwise_cons.1 hl
      obtain ⟨hb, hrest'⟩ := List.pairwise_cons.1 hl'
      have hab : a = b := by
        rcases List.mem_cons.1 ((hmem a).1 (by simp)) with h | h
        · exact h
        · rcases List.mem_cons.1 ((hmem b).2 (by simp)) with h' | h'
          · exact h'.symm
          · exact absurd (hb a h) (hr _ _ (ha b h'))
      subst hab
      have hirrefl : ¬r a a := fun h => hr a a h h
      congr 1
      refine ih hrest hrest' fun c => ?_
      constructor
      · intro hc
        rcases List.mem_cons.1 ((hmem c).1 (by simp [hc])) with rfl | h
        · exact absurd (ha c hc) hirrefl
        · exact h
      · intro hc
        rcases List.mem_cons.1 ((hmem c).2 (by simp [hc])) with rfl | h
        · exact absurd (hb c hc) hirrefl
        · exact h

/-- Maps that store the same under every key are equal. -/
theorem ext_get?
    {a b : SortedMap κ ν} (h : ∀ k, a.get? k = b.get? k) : a = b := by
  apply ext
  refine eq_of_sorted_of_mem_iff (r := fun e e' => e.1 < e'.1)
    (fun _ _ h h' => Std.lt_irrefl (Std.lt_trans h h')) a.sorted b.sorted ?_
  rintro ⟨k, v⟩
  rw [← get?_eq_some_iff, ← get?_eq_some_iff, h]

end Lookup

/-! ## Operations -/

omit [LE κ] [DecidableLT κ] [Std.IsLinearOrder κ] [Std.LawfulOrderLT κ] in
@[simp]
theorem get?_empty (k : κ) : (empty : SortedMap κ ν).get? k = none := rfl

omit [LE κ] [Std.IsLinearOrder κ] [Std.LawfulOrderLT κ] in
theorem lookup_insertEntry (k k' : κ) (v : ν) (l : List (κ × ν)) :
    (insertEntry k v l).lookup k' = if k' = k then some v else l.lookup k' := by
  induction l with
  | nil => simp [insertEntry, lookup_cons_eq_ite]
  | cons e rest ih =>
    rw [insertEntry]
    split
    · simp [lookup_cons_eq_ite]
    · split
      · rename_i heq
        subst heq
        by_cases hk : k' = e.1 <;> simp [lookup_cons_eq_ite, hk]
      · rename_i hne
        by_cases hk : k' = e.1
        · subst hk
          simp [lookup_cons_eq_ite, Ne.symm hne]
        · simp [lookup_cons_eq_ite, hk, ih]

theorem get?_insert (m : SortedMap κ ν) (k k' : κ) (v : ν) :
    (m.insert k v).get? k' = if k' = k then some v else m.get? k' :=
  lookup_insertEntry k k' v m.entries

@[simp]
theorem get?_insert_self (m : SortedMap κ ν) (k : κ) (v : ν) :
    (m.insert k v).get? k = some v := by
  simp [get?_insert]

omit [DecidableLT κ] [Std.IsLinearOrder κ] in
theorem get?_erase (m : SortedMap κ ν) (k k' : κ) :
    (m.erase k).get? k' = if k' = k then none else m.get? k' := by
  rw [Option.ext_iff]
  intro v
  by_cases hk : k' = k
  · simp [get?_eq_some_iff, erase, hk]
  · simp [get?_eq_some_iff, erase, hk]

omit [LE κ] [DecidableLT κ] [DecidableEq κ] [Std.IsLinearOrder κ] [Std.LawfulOrderLT κ] in
theorem size_eq_length_keys (m : SortedMap κ ν) : m.size = m.keys.length := by
  simp [size, keys]

/-! ## Maps of lists -/

theorem get?_foldl_insert
    {α : Type} (key : α → κ) (value : α → ν) (l : List α) (m : SortedMap κ ν) (k : κ) :
    (l.foldl (fun m a => m.insert (key a) (value a)) m).get? k =
      ((l.reverse.find? fun a => key a = k).map value).or (m.get? k) := by
  induction l generalizing m with
  | nil => simp
  | cons a rest ih =>
    rw [List.foldl_cons, ih, get?_insert, List.reverse_cons, List.find?_append]
    by_cases hk : k = key a
    · subst hk
      cases rest.reverse.find? fun a' => key a' = key a <;> simp
    · have hk' : ¬key a = k := fun h => hk h.symm
      cases rest.reverse.find? fun a' => key a' = k <;> simp [hk, hk']

/-- The keys after inserting the members of a list. -/
theorem mem_keys_foldl_insert
    {α : Type} {key : α → κ} {value : α → ν} {l : List α} {m : SortedMap κ ν} {k : κ} :
    k ∈ (l.foldl (fun m a => m.insert (key a) (value a)) m).keys ↔
      (∃ a ∈ l, key a = k) ∨ k ∈ m.keys := by
  induction l generalizing m with
  | nil => simp
  | cons a rest ih =>
    have hinsert : k ∈ (m.insert (key a) (value a)).keys ↔ key a = k ∨ k ∈ m.keys := by
      rw [mem_keys_iff, mem_keys_iff, get?_insert]
      by_cases hk : k = key a
      · simp [hk]
      · simp [hk, Ne.symm hk]
    rw [List.foldl_cons, ih, hinsert]
    simp only [List.mem_cons, exists_eq_or_imp]
    constructor
    · rintro (h | h | h)
      · exact .inl (.inr h)
      · exact .inl (.inl h)
      · exact .inr h
    · rintro ((h | h) | h)
      · exact .inr (.inl h)
      · exact .inl h
      · exact .inr (.inr h)

theorem mem_keys_ofList {l : List (κ × ν)} {k : κ} :
    k ∈ (ofList l).keys ↔ ∃ e ∈ l, e.1 = k := by
  rw [ofList, mem_keys_foldl_insert]
  simp [empty, keys]

/-- The map that tabulates a function on a list of keys. -/
theorem get?_ofList_map (f : κ → ν) (l : List κ) (k : κ) :
    (ofList (l.map fun k => (k, f k))).get? k = if k ∈ l then some (f k) else none := by
  rw [ofList, List.foldl_map, get?_foldl_insert]
  by_cases hk : k ∈ l
  · have hfind : l.reverse.find? (fun a => decide (a = k)) = some k := by
      cases hc : l.reverse.find? (fun a => decide (a = k)) with
      | none =>
        have hne := List.find?_eq_none.1 hc k (List.mem_reverse.2 hk)
        simp at hne
      | some a => simpa using List.find?_some hc
    simp [hfind, hk]
  · have hfind : l.reverse.find? (fun a => decide (a = k)) = none := by
      simp only [List.find?_eq_none, List.mem_reverse, decide_eq_true_eq]
      rintro a ha rfl
      exact hk ha
    simp [hfind, hk]

/-- A list in which every key has one value is looked up by membership. -/
theorem get?_ofList_eq_some_iff {l : List (κ × ν)}
    (h : ∀ k v v', (k, v) ∈ l → (k, v') ∈ l → v = v') {k : κ} {v : ν} :
    (ofList l).get? k = some v ↔ (k, v) ∈ l := by
  rw [ofList, get?_foldl_insert, get?_empty, Option.or_none, Option.map_eq_some_iff]
  constructor
  · rintro ⟨⟨k', v'⟩, hfind, rfl⟩
    have hk : k' = k := by simpa using List.find?_some hfind
    exact hk ▸ List.mem_reverse.1 (List.mem_of_find?_eq_some hfind)
  · intro hmem
    cases hfind : l.reverse.find? fun e => decide (e.1 = k) with
    | none =>
      have hne := List.find?_eq_none.1 hfind (k, v) (List.mem_reverse.2 hmem)
      simp at hne
    | some e =>
      have hk : e.1 = k := by simpa using List.find?_some hfind
      have he : (k, e.2) ∈ l := hk ▸ List.mem_reverse.1 (List.mem_of_find?_eq_some hfind)
      exact ⟨e, rfl, h k e.2 v he hmem⟩

omit [DecidableLT κ] [Std.IsLinearOrder κ] in
theorem eq_of_mem_entries {m : SortedMap κ ν} {k : κ} {v v' : ν} (h : (k, v) ∈ m.entries)
    (h' : (k, v') ∈ m.entries) : v = v' :=
  Option.some.inj ((get?_eq_some_iff.2 h).symm.trans (get?_eq_some_iff.2 h'))

theorem ofList_entries (m : SortedMap κ ν) : ofList m.entries = m := by
  apply ext_get?
  intro k
  rw [Option.ext_iff]
  intro v
  rw [get?_ofList_eq_some_iff fun k v v' => eq_of_mem_entries, get?_eq_some_iff]

end SortedMap

/-! ## Sorted lists without repetition -/

section SortedDistinct

variable {κ : Type} [LE κ] [LT κ] [DecidableLT κ] [DecidableEq κ]
variable [Std.IsLinearOrder κ] [Std.LawfulOrderLT κ]

@[simp]
theorem mem_sortedDistinct {l : List κ} {k : κ} : k ∈ sortedDistinct l ↔ k ∈ l := by
  simp [sortedDistinct, SortedMap.mem_keys_ofList]

theorem sortedDistinct_sorted (l : List κ) : (sortedDistinct l).Pairwise (· < ·) :=
  SortedMap.keys_sorted _

theorem sortedDistinct_nodup (l : List κ) : (sortedDistinct l).Nodup :=
  SortedMap.keys_nodup _

/-- Sorting forgets the order and the repetitions of a list. -/
theorem sortedDistinct_congr
    {l l' : List κ} (h : ∀ k, k ∈ l ↔ k ∈ l') : sortedDistinct l = sortedDistinct l' := by
  refine SortedMap.eq_of_sorted_of_mem_iff (r := (· < ·))
    (fun _ _ h h' => Std.lt_irrefl (Std.lt_trans h h'))
    (sortedDistinct_sorted l) (sortedDistinct_sorted l') fun k => ?_
  rw [mem_sortedDistinct, mem_sortedDistinct, h]

end SortedDistinct
end Metrology
