import Metrology.Alias
import Metrology.Application
import Metrology.CommandLine
import Metrology.Component
import Metrology.Constraint
import Metrology.Data
import Metrology.Data.Json
import Metrology.Data.Toml
import Metrology.Data.Toml.Table
import Metrology.Data.Toml.Token
import Metrology.Diagnostic
import Metrology.Dimensions
import Metrology.Document
import Metrology.Exponent
import Metrology.Host
import Metrology.Host.Memory
import Metrology.Host.Program
import Metrology.Host.Shell.Arithmetic
import Metrology.Host.Shell.Builtin
import Metrology.Host.Shell.Condition
import Metrology.Host.Shell.Fields
import Metrology.Host.Shell.Format
import Metrology.Host.Shell.Invocation
import Metrology.Host.Shell.Pattern
import Metrology.Host.Shell.Reader
import Metrology.Host.Shell.Run
import Metrology.Host.Shell.Script
import Metrology.Host.Shell.Signal
import Metrology.Host.Shell.State
import Metrology.Host.Shell.Stream
import Metrology.Host.Tree
import Metrology.Host.Utility
import Metrology.Lattice
import Metrology.Linear.Eliminator
import Metrology.Linear.Encoding
import Metrology.Linear.Equation
import Metrology.Linear.Gcd
import Metrology.Linear.Integral
import Metrology.Linear.Propagation
import Metrology.Linear.Rational
import Metrology.Linear.Results
import Metrology.Linear.Row
import Metrology.Linear.Solver
import Metrology.Linear.System
import Metrology.Main
import Metrology.Manifest
import Metrology.Model
import Metrology.Model.Check
import Metrology.Monomial
import Metrology.Path
import Metrology.Qualifier
import Metrology.Report
import Metrology.Session
import Metrology.Smt.Encoding
import Metrology.Smt.Formula
import Metrology.Smt.Script
import Metrology.Smt.Solver
import Metrology.Solve.Backend
import Metrology.Solve.Error
import Metrology.SortedMap
import Metrology.Text.Blank
import Metrology.Text.Decimal
import Metrology.Text.Numeral
import Metrology.Text.Scan
import Metrology.Text.Utf8
import Metrology.Proofs.Monomial
import Metrology.Proofs.Model
import Metrology.Proofs.Build
import Metrology.Proofs.Program
import Metrology.Proofs.Linear.Relations
import Metrology.Proofs.Linear.Equation
import Metrology.Proofs.Linear.Row
import Metrology.Proofs.Linear.Rational
import Metrology.Proofs.Linear.Format
import Metrology.Proofs.Linear.Integral
import Metrology.Proofs.Linear.Eliminator
import Metrology.Proofs.Linear.Encoding
import Metrology.Proofs.Linear.Soundness
import Metrology.Proofs.Linear.Completeness
import Metrology.Proofs.Linear.Propagation
import Metrology.Proofs.Linear.Contention
import Metrology.Proofs.Linear.Order
import Metrology.Proofs.Linear.Determined
import Metrology.Proofs.Linear.StraightLine
import Metrology.Proofs.Smt.Formula
import Metrology.Proofs.Smt.View
import Metrology.Proofs.Smt.Exactness
import Metrology.Proofs.Smt.Agreement
import Metrology.Proofs.Smt.Decoding
import Metrology.Proofs.Smt.Pruning
import Metrology.Proofs.Lattice
import Metrology.Proofs.Linear.Independence
import Metrology.Proofs.Smt.Locations
import Metrology.Proofs.Alias
import Metrology.Proofs.Document
import Metrology.Proofs.Session
import Metrology.Proofs.History
import Metrology.Proofs.Linear.Decision
import Metrology.Proofs.Linear.RoundTrip
import Metrology.Proofs.Smt.Folding
import Metrology.Proofs.Smt.Constants
import Metrology.Proofs.Arithmetic
import Metrology.Proofs.Smt.Readability
import Metrology.Proofs.Smt.WellSorted
import Metrology.Proofs.Join
import Metrology.Proofs.Construction
import Metrology.Proofs.Registration
import Metrology.Proofs.Loading
import Metrology.Proofs.Linear.Gcd
import Metrology.Proofs.Linear.Unimodular
import Metrology.Proofs.Linear.Fixpoint
import Metrology.Proofs.Linear.Overflow
import Metrology.Proofs.Smt.Overflow
import Metrology.Proofs.Configuration
