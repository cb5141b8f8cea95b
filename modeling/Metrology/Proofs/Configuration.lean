import Metrology.Proofs.Registration

/-!
# The lattice of a configured session

Whatever enters the alias table of a session is a unit over its dimensions: registration checks
the entries of a manifest, and the standard names are built from the dimensions themselves.  So
the lattice of a session that was accepted is never refused, and it holds each unit with a name
once, however many names the unit has.
-/

namespace Metrology

/-! ## Units over some dimensions -/

namespace Dimensions

variable {dims : Dimensions} {unit : Monomial} {d : String}

theorem undeclared?_ofPower (dims : Dimensions) (p : Exponent) :
    dims.undeclared? (.ofPower p) = none :=
  undeclared?_eq_none_iff.2 fun _ hd => nomatch hd

theorem undeclared?_set (h : dims.undeclared? unit = none) (hd : d ∈ dims.names) (e : Exponent) :
    dims.undeclared? (unit.set d e) = none := by
  rw [undeclared?_eq_none_iff] at h ⊢
  intro d' hd'
  rw [Monomial.mem_dimensions_iff, Monomial.exponent_set] at hd'
  split at hd'
  case isTrue heq => exact heq ▸ hd
  case isFalse => exact h d' (Monomial.mem_dimensions_iff.2 hd')

theorem undeclared?_foldl_set {es : List (String × Exponent)} (h : dims.undeclared? unit = none)
    (hes : ∀ e ∈ es, e.1 ∈ dims.names) :
    dims.undeclared? (es.foldl (fun m e => m.set e.1 e.2) unit) = none := by
  induction es generalizing unit with
  | nil => exact h
  | cons e rest ih =>
    obtain ⟨he, hrest⟩ := List.forall_mem_cons.1 hes
    exact ih (undeclared?_set h he e.2) hrest

end Dimensions

namespace AliasTable

/-- The standard names are names of units over the dimensions. -/
theorem undeclared?_of_mem_standardEntries {dims : Dimensions} {e : String × Monomial}
    (he : e ∈ standardEntries dims) : dims.undeclared? e.2 = none := by
  have hpower := Dimensions.undeclared?_ofPower dims
  simp only [standardEntries, List.mem_append, List.mem_cons, List.mem_map, List.mem_flatMap,
    List.mem_filter] at he
  rcases he with ((rfl | ⟨d, hd, rfl⟩) | ⟨x, ⟨-, hx⟩, rfl⟩) | ⟨d, hd, s, -, rfl⟩
  · exact hpower 0
  · exact Dimensions.undeclared?_set (hpower 0) hd 1
  · -- a derived name is left out if it needs another dimension
    refine Dimensions.undeclared?_foldl_set (hpower x.2.1) fun y hy => ?_
    simpa [Dimensions.contains] using List.all_eq_true.1 hx y hy
  · exact Dimensions.undeclared?_set (hpower s.2) hd 1

theorem mem_of_lookup_eq_some {l : List (String × Monomial)} {name : String} {unit : Monomial}
    (h : l.lookup name = some unit) : (name, unit) ∈ l := by
  obtain ⟨earlier, later, rfl, -⟩ := List.lookup_eq_some_iff.1 h
  exact List.mem_append_right earlier List.mem_cons_self

/-- The units of a table without repeated names are those that a lookup can give. -/
theorem mem_units_iff {t : AliasTable} (hnodup : t.names.Nodup) {unit : Monomial} :
    unit ∈ t.entries.map Prod.snd ↔ ∃ name, t.unit? name = some unit := by
  rw [List.mem_map]
  constructor
  · rintro ⟨⟨name, u⟩, he, rfl⟩
    exact ⟨name, lookup_of_mem hnodup he⟩
  · rintro ⟨name, h⟩
    exact ⟨(name, unit), mem_of_lookup_eq_some h, rfl⟩

end AliasTable

/-! ## Sessions -/

namespace Session

variable {manifest : Manifest} {overrides : Overrides} {s : Session}

/-- A name of a session is looked up in its manifest first and then among the standard names. -/
theorem unit?_of_configure (h : configure manifest overrides = .ok s) (name : String) :
    s.aliases.unit? name =
      (manifest.aliases ++ AliasTable.standardEntries s.dimensions).lookup name := by
  rw [aliases_of_configure h, AliasTable.ofEntries, AliasTable.unit?_foldl_insert]
  rfl

/-- All names of a session are names of units over its dimensions. -/
theorem undeclared?_of_unit? (h : configure manifest overrides = .ok s) {name : String}
    {unit : Monomial} (hunit : s.aliases.unit? name = some unit) :
    s.dimensions.undeclared? unit = none := by
  rw [unit?_of_configure h] at hunit
  rcases List.mem_append.1 (AliasTable.mem_of_lookup_eq_some hunit) with hmem | hmem
  · exact (aliasTable_eq_ok (aliasTable_of_configure h)).1 _ hmem
  · exact AliasTable.undeclared?_of_mem_standardEntries hmem

/-- A session has the dimensions of its overrides if these have any, and else those of its
manifest. -/
theorem dimensions_of_configure (h : configure manifest overrides = .ok s) :
    s.dimensions.names =
      if overrides.dimensions.isEmpty then manifest.dimensions else overrides.dimensions := by
  obtain ⟨dims, hdims, h⟩ := bind_eq_ok_iff.1 h
  obtain ⟨aliases, -, hs⟩ := bind_eq_ok_iff.1 h
  cases hs
  unfold Dimensions.ofNames at hdims
  split at hdims <;> cases hdims
  rfl

/-- A session that is accepted knows the names of its manifest and the standard ones, the first
unit of each, and it has a lattice.  The qualifiers of the lattice are the special ones, plain
numbers, the base dimensions and the units with names, each of them once. -/
theorem lattice_covers_aliases (manifest : Manifest) (overrides : Overrides) (s : Session)
    (h : configure manifest overrides = .ok s) :
    s.dimensions.names =
      (if overrides.dimensions.isEmpty then manifest.dimensions else overrides.dimensions) ∧
    (∀ name, s.aliases.unit? name =
      (manifest.aliases ++ AliasTable.standardEntries s.dimensions).lookup name) ∧
    ∃ l, s.lattice = .ok l ∧ l.dimensions = s.dimensions ∧ l.qualifiers.Nodup ∧
      ∀ q, q ∈ l.qualifiers ↔ q ∈ [.top, .bottom, .poly, .dimensionless] ∨
        (∃ d ∈ s.dimensions.names, q = .base d) ∨
        ∃ unit, (∃ name, s.aliases.unit? name = some unit) ∧ q = .concrete unit := by
  have hnodup : s.aliases.names.Nodup :=
    aliases_of_configure h ▸ AliasTable.nodup_names_ofEntries _
  have hunits : ∀ unit ∈ s.aliases.entries.map Prod.snd, s.dimensions.undeclared? unit = none := by
    intro unit hunit
    obtain ⟨name, hname⟩ := (AliasTable.mem_units_iff hnodup).1 hunit
    exact undeclared?_of_unit? h hname
  obtain ⟨l, hl⟩ := Lattice.exists_build_eq_ok_iff.2 hunits
  refine ⟨dimensions_of_configure h, unit?_of_configure h, l, hl, (Lattice.build_eq_ok hl).1,
    (Lattice.rows_of_build hl).nodup, fun q => ?_⟩
  rw [Lattice.mem_qualifiers_iff hl]
  simp only [AliasTable.mem_units_iff hnodup]

/-- A project with a second name for a base unit. -/
def aliasedManifest : Manifest :=
  { root := ".", dimensions := ["m", "s"], aliases := [("length", .base "m")] }

theorem lattice_covers_aliases_length :
    ∃ s l, configure aliasedManifest {} = .ok s ∧ s.lattice = .ok l ∧
      s.aliases.unit? "length" = some (.base "m") ∧ s.aliases.unit? "m" = some (.base "m") ∧
      l.qualifiers.count (.base "m") = 1 := by
  have hconfigure : (configure aliasedManifest {}).map (fun s =>
      decide (s.aliases.unit? "length" = some (.base "m") ∧
        s.aliases.unit? "m" = some (.base "m"))) = .ok true := by
    decide +kernel
  obtain ⟨s, hs, hnames⟩ := map_eq_ok_iff.1 hconfigure
  obtain ⟨hown, hstandard⟩ := of_decide_eq_true hnames
  obtain ⟨-, -, l, hl, -, hnodup, hmem⟩ := lattice_covers_aliases aliasedManifest {} s hs
  refine ⟨s, l, hs, hl, hown, hstandard, List.count_eq_one_of_mem hnodup ?_⟩
  exact (hmem _).2 (.inr (.inr ⟨_, ⟨"length", hown⟩, rfl⟩))

end Session
end Metrology
