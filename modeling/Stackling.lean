import Stackling.Code.Buffer
import Stackling.Code.Declaration
import Stackling.Code.Error
import Stackling.Code.Expression
import Stackling.Code.Instr
import Stackling.Code.Label
import Stackling.Code.Sequence
import Stackling.Compiler
import Stackling.Failure
import Stackling.Hierarchy
import Stackling.Hierarchy.Join
import Stackling.Hierarchy.Subtype
import Stackling.Machine.Image
import Stackling.Machine.Memory
import Stackling.Machine.Run
import Stackling.Machine.State
import Stackling.NameKind
import Stackling.ObjectLayout
import Stackling.Report
import Stackling.Resolution.Basic
import Stackling.Resolution.Draft
import Stackling.Resolution.Env
import Stackling.Resolution.Error
import Stackling.Resolution.Resolve
import Stackling.Scope.Entry
import Stackling.Scope.Frame
import Stackling.Scope.Stack
import Stackling.SourcePos
import Stackling.Text.Blank
import Stackling.Text.Integer
import Stackling.Tree.Basic
import Stackling.Tree.Builder
import Stackling.Tree.Operator
import Stackling.Ty
import Stackling.Ty.Text
import Stackling.Typing.Check
import Stackling.Typing.Error
import Stackling.Typing.Infer
import Stackling.Proofs.Linking
import Stackling.Proofs.Printing
import Stackling.Proofs.Assembling
import Stackling.Proofs.Spelling
import Stackling.Proofs.Grammar
import Stackling.Proofs.Code.Emission
import Stackling.Proofs.Code.Labels
import Stackling.Proofs.Cells
import Stackling.Proofs.Hierarchy
import Stackling.Proofs.Ascent
import Stackling.Proofs.Subtyping
import Stackling.Proofs.Joins
import Stackling.Proofs.Nodes
import Stackling.Proofs.Resolution.Findings
import Stackling.Proofs.Resolution.Decoration
import Stackling.Proofs.Resolution.Tables
import Stackling.Proofs.Resolution.Records
import Stackling.Proofs.Forest
import Stackling.Proofs.Resolution.Frames
import Stackling.Proofs.Resolution.Occurrences
import Stackling.Proofs.Code.Success
import Stackling.Proofs.Pipeline
import Stackling.Proofs.Machine.Config
import Stackling.Proofs.Machine.Effects
import Stackling.Proofs.Bounds
import Stackling.Proofs.Budgets
import Stackling.Proofs.Machine.Sequences
import Stackling.Proofs.Machine.Segments
import Stackling.Proofs.Semantics.Eval
import Stackling.Proofs.Resolution.Holds
import Stackling.Proofs.Accounting
import Stackling.Proofs.Typing.Acceptance
import Stackling.Proofs.Resolution.Sites
import Stackling.Proofs.Classes.Arrangement
import Stackling.Proofs.Classes.Layout
import Stackling.Proofs.Semantics.Values
import Stackling.Proofs.Simulation.Scopes
import Stackling.Proofs.Simulation.Heap
import Stackling.Proofs.Simulation.Setting
import Stackling.Proofs.Simulation.Basic
import Stackling.Proofs.Simulation.Expressions
import Stackling.Proofs.Simulation.Calls
import Stackling.Proofs.Simulation.Classes
import Stackling.Proofs.Simulation.Declarations
import Stackling.Proofs.Semantics.Depth
import Stackling.Proofs.Simulation.Program
import Stackling.Proofs.Correctness
import Stackling.Proofs.Simulation.Passage
import Stackling.Proofs.Safety
import Stackling.Proofs.Collision
import Stackling.Proofs.Closed
import Stackling.Proofs.Code.Heights
import Stackling.Proofs.Code.Balance
import Stackling.Proofs.Code.Pieces
import Stackling.Proofs.Code.SourceMap
import Stackling.Proofs.Code.Rows
import Stackling.Proofs.Typing.Checked
import Stackling.Proofs.Balance
import Stackling.Proofs.Frames
import Stackling.Proofs.Classes.Methods
import Stackling.Proofs.Inheritance
import Stackling.Proofs.Resolution.Agreement
import Stackling.Proofs.Scoping
import Stackling.Proofs.Code.Tables
import Stackling.Proofs.Dispatch
import Stackling.Proofs.Semantics.Lexical
import Stackling.Proofs.Typing.Functions
import Stackling.Proofs.Closures.Frames
import Stackling.Proofs.Closures.Expressions
import Stackling.Proofs.Closures.Calls
import Stackling.Proofs.Closures.Programs
import Stackling.Proofs.Escaping
import Stackling.Proofs.Agreement
import Stackling.Proofs.Code.Regions
import Stackling.Proofs.Regions
import Stackling.Proofs.Renaming.Basic
import Stackling.Proofs.Renaming.Tables
import Stackling.Proofs.Renaming.Resolution
import Stackling.Proofs.Renaming.Typing
import Stackling.Proofs.Code.Coupling
import Stackling.Proofs.Renaming.Code
import Stackling.Proofs.Renaming
import Stackling.Proofs.Relocation
import Stackling.Proofs.UpperBounds
import Stackling.Proofs.Returns
import Stackling.Proofs.Construction
import Stackling.Proofs.Typing.Annotations
import Stackling.Proofs.Thoroughness
import Stackling.Proofs.Nesting
