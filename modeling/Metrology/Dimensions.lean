import Metrology.Diagnostic
import Metrology.Monomial
import Metrology.Text.Blank

/-!
# Base dimensions

A session fixes its base dimensions once.  Names have no blanks and no hyphens
and differ from each other and from the markers that solver variables use, so a
variable name built from a slot number, a hyphen and a component is unambiguous.
-/

namespace Metrology

/-- What can be wrong with the dimensions, aliases and units of a session. -/
inductive ConfigError where
  | invalidName (name : String)
  | reservedName (name : String)
  | repeatedName (name : String)
  | noDimensions
  | aliasDimension (name dim : String)
  | unitDimension (unit : Monomial) (dim : String)
deriving DecidableEq

namespace ConfigError

/-- The text of the error. -/
def message : ConfigError → String
  | invalidName name => s!"configuration error: invalid base dimension name `{name}`"
  | reservedName name =>
    s!"configuration error: `{name}` is reserved and cannot name a base dimension"
  | repeatedName name => s!"configuration error: base dimension `{name}` is declared twice"
  | noDimensions => "configuration error: at least one base dimension must be supplied"
  | aliasDimension name dim =>
    s!"configuration error: alias `{name}` uses `{dim}`, which is not a configured base dimension"
  | unitDimension unit dim =>
    s!"configuration error: unit {unit} uses `{dim}`, which is not a configured base dimension"

/-- The error as shown to the user. -/
def diagnostic (e : ConfigError) : Diagnostic where
  message := e.message
  code := some "units::config"

end ConfigError

namespace Dimensions

/-- The component markers of solver variables. -/
def reserved : List String := ["Prefix", "UnknownUnits", "UnitsBottom"]

/-- Whether a name is nonempty and free of blanks and hyphens. -/
def isWord (name : String) : Bool :=
  !name.toList.isEmpty && name.toList.all fun c => !Text.isBlank c && c != '-'

/-- The names that a base dimension can have. -/
def ValidName (name : String) : Prop := isWord name = true ∧ name ∉ reserved

instance (name : String) : Decidable (ValidName name) := by
  unfold ValidName
  infer_instance

/-- The first fault of a list of names, given the names before it. -/
def fault? (before : List String) : List String → Option ConfigError
  | [] => if before.isEmpty then some .noDimensions else none
  | name :: rest =>
    if !isWord name then some (.invalidName name)
    else if name ∈ reserved then some (.reservedName name)
    else if name ∈ before then some (.repeatedName name)
    else fault? (name :: before) rest

theorem valid_of_fault?_eq_none {before names : List String}
    (h : fault? before names = none) : ∀ n ∈ names, ValidName n := by
  induction names generalizing before with
  | nil => simp
  | cons name rest ih =>
    rw [fault?] at h
    split at h
    · contradiction
    · rename_i hword
      split at h
      · contradiction
      · rename_i hreserved
        split at h
        · contradiction
        · intro n hn
          rcases List.mem_cons.1 hn with rfl | hn
          · exact ⟨by simpa using hword, hreserved⟩
          · exact ih h n hn

theorem nodup_of_fault?_eq_none {before names : List String}
    (h : fault? before names = none) : names.Nodup ∧ ∀ n ∈ names, n ∉ before := by
  induction names generalizing before with
  | nil => simp
  | cons name rest ih =>
    rw [fault?] at h
    split at h
    · contradiction
    · split at h
      · contradiction
      · split at h
        · contradiction
        · rename_i hbefore
          obtain ⟨hnodup, hfresh⟩ := ih h
          refine ⟨List.nodup_cons.2 ⟨fun hmem => ?_, hnodup⟩, fun n hn => ?_⟩
          · exact hfresh name hmem (List.mem_cons_self ..)
          · rcases List.mem_cons.1 hn with rfl | hn
            · exact hbefore
            · exact fun hmem => hfresh n hn (List.mem_cons_of_mem _ hmem)

theorem ne_nil_of_fault?_eq_none {names : List String}
    (h : fault? [] names = none) : names ≠ [] := by
  rintro rfl
  simp [fault?] at h

end Dimensions

/-- The base dimensions of a session, in the order of their declaration. -/
structure Dimensions where
  names : List String
  valid : ∀ n ∈ names, Dimensions.ValidName n
  nodup : names.Nodup
  nonempty : names ≠ []

namespace Dimensions

/-- The dimensions with the given names. -/
def ofNames (names : List String) : Except ConfigError Dimensions :=
  match h : fault? [] names with
  | some e => .error e
  | none =>
    .ok ⟨names, valid_of_fault?_eq_none h, (nodup_of_fault?_eq_none h).1,
      ne_nil_of_fault?_eq_none h⟩

/-- Whether a name is one of the dimensions. -/
def contains (d : Dimensions) (name : String) : Bool := d.names.contains name

/-- The names in brackets. -/
def render (d : Dimensions) : String :=
  let names := ", ".intercalate d.names
  s!"[{names}]"

instance : ToString Dimensions := ⟨render⟩

/-- The first dimension of a unit that is not declared. -/
def undeclared? (d : Dimensions) (m : Monomial) : Option String := m.undeclared? d.names

end Dimensions
end Metrology
