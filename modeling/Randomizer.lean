import Randomizer.Amount
import Randomizer.Binary32.Arithmetic
import Randomizer.Binary32.Basic
import Randomizer.Counting
import Randomizer.Error
import Randomizer.Json.Basic
import Randomizer.Json.Lexeme
import Randomizer.Json.Reader
import Randomizer.Json.Single
import Randomizer.Json.Writer
import Randomizer.Logic.Builder
import Randomizer.Logic.Clause
import Randomizer.Logic.Compile
import Randomizer.Logic.Definition
import Randomizer.Logic.Document
import Randomizer.Logic.Formula
import Randomizer.Logic.Item
import Randomizer.Logic.Lexeme
import Randomizer.Logic.MacroTable
import Randomizer.Logic.Manager
import Randomizer.Logic.ParseFault
import Randomizer.Logic.Template
import Randomizer.Logic.Template.Json
import Randomizer.Logic.Token
import Randomizer.Logic.Variable
import Randomizer.NameMap
import Randomizer.Placement.Constraint
import Randomizer.Placement.Coupled
import Randomizer.Placement.Participant
import Randomizer.Placement.Rule
import Randomizer.Placement.Sphere
import Randomizer.Placement.Strategy
import Randomizer.Placement.Transform
import Randomizer.PriorityQueue
import Randomizer.Program.Machine
import Randomizer.Program.Word
import Randomizer.Progression
import Randomizer.Proofs.Binary32
import Randomizer.Proofs.Binary32.Multiple
import Randomizer.Proofs.Logic.Addition
import Randomizer.Proofs.Logic.Anchoring
import Randomizer.Proofs.Logic.Arrangement
import Randomizer.Proofs.Logic.Association
import Randomizer.Proofs.Logic.Balance
import Randomizer.Proofs.Logic.Batch
import Randomizer.Proofs.Logic.Build
import Randomizer.Proofs.Logic.Buildable
import Randomizer.Proofs.Logic.Cap
import Randomizer.Proofs.Logic.Closure
import Randomizer.Proofs.Logic.Compilation
import Randomizer.Proofs.Logic.Coverage
import Randomizer.Proofs.Logic.Cumulative
import Randomizer.Proofs.Logic.Delinearization
import Randomizer.Proofs.Logic.Dependency
import Randomizer.Proofs.Logic.Diagnosis
import Randomizer.Proofs.Logic.Elementary
import Randomizer.Proofs.Logic.Encoding
import Randomizer.Proofs.Logic.Evaluation
import Randomizer.Proofs.Logic.Expansion
import Randomizer.Proofs.Logic.Expression
import Randomizer.Proofs.Logic.Footprint
import Randomizer.Proofs.Logic.Grammar
import Randomizer.Proofs.Logic.Grant
import Randomizer.Proofs.Logic.Ingestion
import Randomizer.Proofs.Logic.Intake
import Randomizer.Proofs.Logic.Item
import Randomizer.Proofs.Logic.Lineage
import Randomizer.Proofs.Logic.Lockstep
import Randomizer.Proofs.Logic.Meaning
import Randomizer.Proofs.Logic.Persistence
import Randomizer.Proofs.Logic.Primitive
import Randomizer.Proofs.Logic.Printing
import Randomizer.Proofs.Logic.Readable
import Randomizer.Proofs.Logic.Reading
import Randomizer.Proofs.Logic.Recompilation
import Randomizer.Proofs.Logic.Recovery
import Randomizer.Proofs.Logic.Registration
import Randomizer.Proofs.Logic.Reopening
import Randomizer.Proofs.Logic.Restatement
import Randomizer.Proofs.Logic.Retention
import Randomizer.Proofs.Logic.Revocation
import Randomizer.Proofs.Logic.Scanning
import Randomizer.Proofs.Logic.Steadiness
import Randomizer.Proofs.Logic.Steps
import Randomizer.Proofs.Logic.Tree
import Randomizer.Proofs.Logic.Viability
import Randomizer.Proofs.NameMap
import Randomizer.Proofs.Outcome
import Randomizer.Proofs.Placement.History
import Randomizer.Proofs.Placement.Ledger
import Randomizer.Proofs.Placement.Leftover
import Randomizer.Proofs.Placement.Memory
import Randomizer.Proofs.Placement.Merge
import Randomizer.Proofs.Placement.Optimum
import Randomizer.Proofs.Placement.Order
import Randomizer.Proofs.Placement.Penalty
import Randomizer.Proofs.Placement.Preference
import Randomizer.Proofs.Placement.Reconciliation
import Randomizer.Proofs.Placement.Selection
import Randomizer.Proofs.Placement.Supply
import Randomizer.Proofs.Placement.Uses
import Randomizer.Proofs.PriorityQueue
import Randomizer.Proofs.PriorityQueue.Heap
import Randomizer.Proofs.PriorityQueue.Line
import Randomizer.Proofs.Progression
import Randomizer.Proofs.Session
import Randomizer.Proofs.Session.Anchors
import Randomizer.Proofs.Session.Terms
import Randomizer.Proofs.SortedList
import Randomizer.Proofs.SortedList.Construction
import Randomizer.Proofs.SortedList.History
import Randomizer.Proofs.Term
import Randomizer.Proofs.Text
import Randomizer.Proofs.World.Accumulation
import Randomizer.Proofs.World.Allotment
import Randomizer.Proofs.World.Attempts
import Randomizer.Proofs.World.Chain
import Randomizer.Proofs.World.Checkpoints
import Randomizer.Proofs.World.Chronicle
import Randomizer.Proofs.World.Completion
import Randomizer.Proofs.World.Fixpoint
import Randomizer.Proofs.World.KeyChain
import Randomizer.Proofs.World.Opening
import Randomizer.Proofs.World.Replay
import Randomizer.Proofs.World.Retry
import Randomizer.Proofs.World.Settling
import Randomizer.Proofs.World.Spheres
import Randomizer.Rounding
import Randomizer.Session
import Randomizer.SortedList
import Randomizer.Term
import Randomizer.Text.Character
import Randomizer.Text.Number
import Randomizer.World.Basic
import Randomizer.World.Generator
import Randomizer.World.Growth
import Randomizer.World.Run
import Randomizer.World.Scenario
