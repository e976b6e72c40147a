import Subtyping.Command.Args
import Subtyping.Command.Basic
import Subtyping.Command.Program
import Subtyping.Decimal.Double
import Subtyping.Decimal.Shortest
import Subtyping.Declaration
import Subtyping.Event
import Subtyping.Failure
import Subtyping.Handle
import Subtyping.Json.Decode
import Subtyping.Json.Fault
import Subtyping.Json.Node
import Subtyping.Json.Number
import Subtyping.Json.Reader
import Subtyping.Json.Value
import Subtyping.Limits
import Subtyping.Limits.DepthGauge
import Subtyping.Limits.Guard
import Subtyping.Log.Directives
import Subtyping.Log.Format
import Subtyping.Log.Record
import Subtyping.Main
import Subtyping.Manifest.Basic
import Subtyping.Manifest.Build
import Subtyping.Manifest.Decode
import Subtyping.Manifest.Encode
import Subtyping.Manifest.Load
import Subtyping.Proofs.Assignability
import Subtyping.Proofs.Attaching
import Subtyping.Proofs.Attachments
import Subtyping.Proofs.Building
import Subtyping.Proofs.Canonical
import Subtyping.Proofs.ClosedAnswers
import Subtyping.Proofs.Closures
import Subtyping.Proofs.Conclusive
import Subtyping.Proofs.Consistent
import Subtyping.Proofs.Constraints
import Subtyping.Proofs.Covariance
import Subtyping.Proofs.DeclarationOrder
import Subtyping.Proofs.Declaring
import Subtyping.Proofs.Depth
import Subtyping.Proofs.Derivations
import Subtyping.Proofs.Enrolling
import Subtyping.Proofs.Exactness
import Subtyping.Proofs.Expressions
import Subtyping.Proofs.FailSafe
import Subtyping.Proofs.FailedWork
import Subtyping.Proofs.FixedPoints
import Subtyping.Proofs.Grammar
import Subtyping.Proofs.Grounded
import Subtyping.Proofs.Growth
import Subtyping.Proofs.GuardedStack
import Subtyping.Proofs.Hierarchy
import Subtyping.Proofs.Inheritance
import Subtyping.Proofs.Instantiation
import Subtyping.Proofs.InterfaceOrder
import Subtyping.Proofs.Interleaving
import Subtyping.Proofs.Interning
import Subtyping.Proofs.Journal
import Subtyping.Proofs.JsonText
import Subtyping.Proofs.Ledger
import Subtyping.Proofs.Loading
import Subtyping.Proofs.ManifestText
import Subtyping.Proofs.Matching
import Subtyping.Proofs.Mirroring
import Subtyping.Proofs.NativeAnswers
import Subtyping.Proofs.Occurrences
import Subtyping.Proofs.OpenDefinitions
import Subtyping.Proofs.Outcomes
import Subtyping.Proofs.Queries
import Subtyping.Proofs.Reachability
import Subtyping.Proofs.Relation
import Subtyping.Proofs.Renaming
import Subtyping.Proofs.RoundTrip
import Subtyping.Proofs.Scopes
import Subtyping.Proofs.SearchAnswers
import Subtyping.Proofs.SearchCarries
import Subtyping.Proofs.SearchFrame
import Subtyping.Proofs.SearchGrounded
import Subtyping.Proofs.SearchInvariant
import Subtyping.Proofs.SearchMirroring
import Subtyping.Proofs.SearchRules
import Subtyping.Proofs.Signature
import Subtyping.Proofs.Spelling
import Subtyping.Proofs.Steps
import Subtyping.Proofs.Supertypes
import Subtyping.Proofs.Termination
import Subtyping.Proofs.Threads
import Subtyping.Proofs.Towers
import Subtyping.Proofs.Ty
import Subtyping.Proofs.WellDeclared
import Subtyping.Proofs.WellFormedFiles
import Subtyping.Proofs.Work
import Subtyping.Report.Basic
import Subtyping.Report.Style
import Subtyping.Run
import Subtyping.Substitution.Evaluate
import Subtyping.Substitution.Query
import Subtyping.Substitution.Resolve
import Subtyping.Substitution.Search
import Subtyping.Text.Blank
import Subtyping.Text.Combining
import Subtyping.Text.Hidden
import Subtyping.Text.Pieces
import Subtyping.Text.Quoted
import Subtyping.Thread
import Subtyping.TypeExpr.Basic
import Subtyping.TypeExpr.Parser
import Subtyping.TypeExpr.Resolve
import Subtyping.TypeExpr.Token
import Subtyping.TypeTable
import Subtyping.Universe.Basic
import Subtyping.Universe.Declare
import Subtyping.Universe.Display
import Subtyping.Universe.Error
import Subtyping.Universe.Hierarchy
import Subtyping.Universe.Instantiate
import Subtyping.Verdicts
