import Refuter.Order
import Refuter.SortedSet
import Refuter.Program.Field
import Refuter.Program.Operator
import Refuter.Program.Instruction
import Refuter.Location
import Refuter.Fresh
import Refuter.Pointer
import Refuter.Smt.Formula
import Refuter.Term.Arith
import Refuter.Term.Basic
import Refuter.Term.Substitution
import Refuter.Constraint
import Refuter.Heap.Edge
import Refuter.Heap.Graph
import Refuter.Heap.Rule
import Refuter.Smt.Solver
import Refuter.Smt.Script
import Refuter.Session.Options
import Refuter.Session.Journal
import Refuter.Session.Basic
import Refuter.Refutation
import Refuter.StoreM
import Refuter.PathStore.Basic
import Refuter.PathStore.Substitution
import Refuter.PathStore.Visit
import Refuter.PathStore.Calls
import Refuter.HeapStore.Basic
import Refuter.HeapStore.Narrow
import Refuter.HeapStore.Binding
import Refuter.HeapStore.Visit
import Refuter.HeapStore.Calls
import Refuter.Query.Basic
import Refuter.Query.Visit
import Refuter.Numeral
import Refuter.Json.Basic
import Refuter.Json.Number
import Refuter.Json.Token
import Refuter.Json.Reader
import Refuter.Json.Form
import Refuter.Scenario.Basic
import Refuter.Scenario.Replay
import Refuter.Format.Program
import Refuter.Format.Scenario
import Refuter.Toml.Token
import Refuter.Toml.Value
import Refuter.Toml.Number
import Refuter.Toml.Reader
import Refuter.Files.Path
import Refuter.Files.Tree
import Refuter.Failure
import Refuter.Session.Start
import Refuter.Config
import Refuter.Scenario.Load
import Refuter.Command.Arguments
import Refuter.Regex.Basic
import Refuter.Regex.Pattern
import Refuter.Regex.Reader
import Refuter.Command.Filter
import Refuter.Command.Run
import Refuter.Main
import Refuter.Proofs.Reading
import Refuter.Proofs.Run
import Refuter.Proofs.State
import Refuter.Proofs.Heap.Tracking
import Refuter.Proofs.Heap.Application
import Refuter.Proofs.Heap.Transfer
import Refuter.Proofs.Path.Tracking
import Refuter.Proofs.Path.Transfer
import Refuter.Proofs.Path.FieldWrite
import Refuter.Proofs.Heap.StaticWrite
import Refuter.Proofs.Heap.WellFormed
import Refuter.Proofs.Heap.Merge
import Refuter.Proofs.Heap.ObjectWrite
import Refuter.Proofs.Smt.Meaning
import Refuter.Proofs.Smt.Text
import Refuter.Proofs.Smt.Context
import Refuter.Proofs.Path.Branches
import Refuter.Proofs.Path.Allocation
import Refuter.Proofs.Evolution
import Refuter.Proofs.Path.Operations
import Refuter.Proofs.Path.Representation
import Refuter.Proofs.Heap.Operations
import Refuter.Proofs.Query.Operations
import Refuter.Proofs.Query.UniqueRoots
import Refuter.Proofs.Scenario.Moments
import Refuter.Proofs.Scenario.Choices
import Refuter.Proofs.Heap.Renames
import Refuter.Proofs.Query.Refuted
import Refuter.Proofs.Scenario.Decided
import Refuter.Proofs.Composition
import Refuter.Proofs.Smt.Protocol
import Refuter.Proofs.Scenario.Lockstep
import Refuter.Proofs.Path.Discipline
import Refuter.Proofs.Json.Spelling
import Refuter.Proofs.Format.RoundTrip
import Refuter.Proofs.Heap.Narrowing
import Refuter.Proofs.Path.FormalBinding
import Refuter.Proofs.Path.SkippedCall
import Refuter.Proofs.Path.ElementWrite
import Refuter.Proofs.Heap.Substitution
import Refuter.Proofs.Path.Bases
import Refuter.Proofs.Query.Settling
import Refuter.Proofs.Query.LeavingCallee
import Refuter.Proofs.Heap.Definition
import Refuter.Proofs.Query.Definition
import Refuter.Proofs.Query.Promotion
import Refuter.Proofs.Heap.RootNarrowing
import Refuter.Proofs.Term.Substitution
