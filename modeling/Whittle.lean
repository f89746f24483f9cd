import Whittle.Command.Actions
import Whittle.Command.Arguments
import Whittle.Command.Session
import Whittle.Disk
import Whittle.Emit.Block
import Whittle.Emit.Instr
import Whittle.Emit.Module
import Whittle.Emit.Names
import Whittle.Emit.Pending
import Whittle.Error
import Whittle.Ir.Dump
import Whittle.Ir.Environment
import Whittle.Ir.Flow
import Whittle.Ir.Id
import Whittle.Ir.Instr
import Whittle.Ir.Module
import Whittle.Lowering.Build
import Whittle.Lowering.Scope
import Whittle.Lowering.State
import Whittle.Main
import Whittle.Number
import Whittle.Number.Decimal
import Whittle.Optimize.Constants
import Whittle.Optimize.DeadCode
import Whittle.Optimize.Fold
import Whittle.Optimize.Forward
import Whittle.Optimize.Inline
import Whittle.Optimize.Merge
import Whittle.Optimize.Overwritten
import Whittle.Optimize.Pipeline
import Whittle.Optimize.Site
import Whittle.Project.Compile
import Whittle.Project.Load
import Whittle.Project.Path
import Whittle.Project.Resolver
import Whittle.Proofs.Command.Outputs
import Whittle.Proofs.DepthFirst
import Whittle.Proofs.Emit.Blocks
import Whittle.Proofs.Emit.Functions
import Whittle.Proofs.Emit.Naming
import Whittle.Proofs.Emit.OrderedBlocks
import Whittle.Proofs.Emit.Receivers
import Whittle.Proofs.Emit.Waiting
import Whittle.Proofs.Flow.Dominators
import Whittle.Proofs.Flow.Frontier
import Whittle.Proofs.Flow.PostOrder
import Whittle.Proofs.Flow.Predecessors
import Whittle.Proofs.Flow.Reducible
import Whittle.Proofs.Flow.Tree
import Whittle.Proofs.Inline.Calls
import Whittle.Proofs.Inline.Copies
import Whittle.Proofs.Inline.Expansion
import Whittle.Proofs.Inline.Machine
import Whittle.Proofs.Inline.Module
import Whittle.Proofs.Inline.Recursion
import Whittle.Proofs.Inline.Renaming
import Whittle.Proofs.Inline.Targets
import Whittle.Proofs.Ir.Cells
import Whittle.Proofs.Ir.Functions
import Whittle.Proofs.Ir.Order
import Whittle.Proofs.Ir.Patterns
import Whittle.Proofs.Ir.Visible
import Whittle.Proofs.Lowering.Blame
import Whittle.Proofs.Lowering.Calm
import Whittle.Proofs.Lowering.Coherent
import Whittle.Proofs.Lowering.DeadZone
import Whittle.Proofs.Lowering.Graph
import Whittle.Proofs.Lowering.Patterns
import Whittle.Proofs.Lowering.Places
import Whittle.Proofs.Lowering.Records
import Whittle.Proofs.Lowering.Runs
import Whittle.Proofs.Lowering.Shape
import Whittle.Proofs.Lowering.Single
import Whittle.Proofs.Lowering.Sound
import Whittle.Proofs.Lowering.Tree
import Whittle.Proofs.Optimize.Captured
import Whittle.Proofs.Optimize.Coherent
import Whittle.Proofs.Optimize.Course
import Whittle.Proofs.Optimize.Definitions
import Whittle.Proofs.Optimize.Execution
import Whittle.Proofs.Optimize.Flow
import Whittle.Proofs.Optimize.Forwarding
import Whittle.Proofs.Optimize.Initialization
import Whittle.Proofs.Optimize.Homes
import Whittle.Proofs.Optimize.Inlining
import Whittle.Proofs.Optimize.Mentions
import Whittle.Proofs.Optimize.Merging
import Whittle.Proofs.Optimize.Nesting
import Whittle.Proofs.Optimize.Origins
import Whittle.Proofs.Optimize.Overwritten
import Whittle.Proofs.Optimize.Patterns
import Whittle.Proofs.Optimize.Positions
import Whittle.Proofs.Optimize.Propagation
import Whittle.Proofs.Optimize.Results
import Whittle.Proofs.Optimize.Rounds
import Whittle.Proofs.Optimize.Sweeping
import Whittle.Proofs.Optimize.Temporaries
import Whittle.Proofs.Optimize.Thinning
import Whittle.Proofs.Optimize.Unseen
import Whittle.Proofs.Optimize.Visible
import Whittle.Proofs.Project.Loading
import Whittle.Proofs.Project.Order
import Whittle.Proofs.Project.Path
import Whittle.Proofs.Project.Publishing
import Whittle.Proofs.Project.Resolving
import Whittle.Proofs.Ssa.Coherent
import Whittle.Proofs.Ssa.Copies
import Whittle.Proofs.Ssa.Joins
import Whittle.Proofs.Ssa.Layout
import Whittle.Proofs.Ssa.Memory
import Whittle.Proofs.Ssa.Module
import Whittle.Proofs.Ssa.Operands
import Whittle.Proofs.Ssa.Phis
import Whittle.Proofs.Ssa.Placement
import Whittle.Proofs.Ssa.Values
import Whittle.Proofs.Syntax.Attempts
import Whittle.Proofs.Syntax.DeadZone
import Whittle.Proofs.Syntax.Grouping
import Whittle.Proofs.Syntax.Pieces
import Whittle.Proofs.Syntax.Printing
import Whittle.Proofs.Syntax.Progress
import Whittle.Proofs.Syntax.Reading
import Whittle.Proofs.Syntax.Visits
import Whittle.Proofs.Token.Literals
import Whittle.Proofs.Token.Partition
import Whittle.Proofs.Token.Scanning
import Whittle.Ssa.Copies
import Whittle.Ssa.Phis
import Whittle.Syntax.Binding
import Whittle.Syntax.Names
import Whittle.Syntax.Operator
import Whittle.Syntax.Parse
import Whittle.Syntax.Parse.Cursor
import Whittle.Syntax.Parse.Expression
import Whittle.Syntax.Parse.Grammar
import Whittle.Syntax.Parse.Pattern
import Whittle.Syntax.Parse.Statement
import Whittle.Syntax.Parse.Types
import Whittle.Syntax.Print
import Whittle.Syntax.Tree
import Whittle.Table
import Whittle.Text.CharClass
import Whittle.Text.Quoted
import Whittle.Text.Ranges.Alphabetic
import Whittle.Text.Ranges.Numeric
import Whittle.Text.Ranges.Unprinted
import Whittle.Text.Source
import Whittle.Token
import Whittle.Token.Literal
import Whittle.Token.Scan
