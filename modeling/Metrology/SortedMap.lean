/-!
# Maps kept in key order

A `SortedMap` is a list of entries whose keys strictly increase.  The order is
part of the type, so two maps with the same entries are equal and every listing
of a map comes out sorted.
-/

namespace Metrology

/-- A finite map from `κ` to `ν` whose entries are listed by increasing key. -/
structure SortedMap (κ ν : Type) [LT κ] where
  entries : List (κ × ν)
  sorted : entries.Pairwise (fun a b => a.1 < b.1)

namespace SortedMap

variable {κ ν : Type} [LT κ]

/-- Two maps with the same entries are equal. -/
@[ext]
theorem ext {a b : SortedMap κ ν} (h : a.entries = b.entries) : a = b := by
  cases a
  cases b
  simp_all

instance [DecidableEq κ] [DecidableEq ν] : DecidableEq (SortedMap κ ν) :=
  fun a b => decidable_of_iff (a.entries = b.entries) ⟨ext, congrArg entries⟩

/-- The map without entries. -/
def empty : SortedMap κ ν := ⟨[], List.Pairwise.nil⟩

instance : Inhabited (SortedMap κ ν) := ⟨empty⟩

/-- The keys in increasing order. -/
def keys (m : SortedMap κ ν) : List κ := m.entries.map Prod.fst

/-- The number of entries. -/
def size (m : SortedMap κ ν) : Nat := m.entries.length

/-- Whether the map has no entries. -/
def isEmpty (m : SortedMap κ ν) : Bool := m.entries.isEmpty

/-- The value stored under `k`. -/
def get? [DecidableEq κ] (m : SortedMap κ ν) (k : κ) : Option ν := m.entries.lookup k

/-- Whether some value is stored under `k`. -/
def contains [DecidableEq κ] (m : SortedMap κ ν) (k : κ) : Bool := (m.get? k).isSome

/-- The map without the entry of `k`. -/
def erase [DecidableEq κ] (m : SortedMap κ ν) (k : κ) : SortedMap κ ν :=
  ⟨m.entries.filter (fun e => e.1 ≠ k), m.sorted.filter _⟩

/-- The map with every value changed by `f`. -/
def mapValues {μ : Type} (f : ν → μ) (m : SortedMap κ ν) : SortedMap κ μ :=
  ⟨m.entries.map (fun e => (e.1, f e.2)), List.pairwise_map.2 m.sorted⟩

variable [LE κ] [DecidableLT κ] [Std.IsLinearOrder κ] [Std.LawfulOrderLT κ]

/-- Puts an entry in its place, over an older entry of the same key. -/
def insertEntry [DecidableEq κ] (k : κ) (v : ν) : List (κ × ν) → List (κ × ν)
  | [] => [(k, v)]
  | e :: rest =>
    if k < e.1 then (k, v) :: e :: rest
    else if k = e.1 then (k, v) :: rest
    else e :: insertEntry k v rest

omit [LE κ] [Std.IsLinearOrder κ] [Std.LawfulOrderLT κ] in
theorem mem_insertEntry [DecidableEq κ] {k : κ} {v : ν} {l : List (κ × ν)} {e : κ × ν}
    (h : e ∈ insertEntry k v l) : e = (k, v) ∨ e ∈ l := by
  induction l with
  | nil => simpa [insertEntry] using h
  | cons d rest ih =>
    rw [insertEntry] at h
    split at h
    · simpa using h
    · split at h <;> grind

theorem insertEntry_sorted [DecidableEq κ] (k : κ) (v : ν) {l : List (κ × ν)}
    (h : l.Pairwise (fun a b => a.1 < b.1)) :
    (insertEntry k v l).Pairwise (fun a b => a.1 < b.1) := by
  induction l with
  | nil => simp [insertEntry]
  | cons d rest ih =>
    obtain ⟨hd, hrest⟩ := List.pairwise_cons.1 h
    rw [insertEntry]
    split
    · rename_i hlt
      refine List.pairwise_cons.2 ⟨fun e he => ?_, h⟩
      rcases List.mem_cons.1 he with rfl | he
      · exact hlt
      · exact Std.lt_trans hlt (hd e he)
    · rename_i hge
      split
      · rename_i heq
        subst heq
        exact List.pairwise_cons.2 ⟨hd, hrest⟩
      · rename_i hne
        refine List.pairwise_cons.2 ⟨fun e he => ?_, ih hrest⟩
        rcases mem_insertEntry he with rfl | he
        · exact Std.lt_of_le_of_ne (Std.not_lt.1 hge) (Ne.symm hne)
        · exact hd e he

/-- The map that sends `k` to `v` and agrees with `m` elsewhere. -/
def insert [DecidableEq κ] (m : SortedMap κ ν) (k : κ) (v : ν) : SortedMap κ ν :=
  ⟨insertEntry k v m.entries, insertEntry_sorted k v m.sorted⟩

/-- The map of a list of entries; of two entries with one key the later counts. -/
def ofList [DecidableEq κ] (l : List (κ × ν)) : SortedMap κ ν :=
  l.foldl (fun m e => m.insert e.1 e.2) empty

end SortedMap

/-- The members of a list in increasing order, each once. -/
def sortedDistinct {κ : Type} [LE κ] [LT κ] [DecidableLT κ] [DecidableEq κ]
    [Std.IsLinearOrder κ] [Std.LawfulOrderLT κ] (l : List κ) : List κ :=
  (SortedMap.ofList (l.map fun k => (k, ()))).keys

end Metrology
