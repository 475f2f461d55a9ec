import TableLR.Diagnostic
import TableLR.Grammar.Draft
import TableLR.Frontend
import TableLR.Main
import TableLR.SExpr
import TableLR.Tree.Change
import TableLR.Tree.Chain
import TableLR.Tree.Query
import TableLR.Tree.Traversal
import TableLR.Tree.Visitor
import TableLR.Proofs.Parse.Conservation
import TableLR.Proofs.Parse.Derivation
import TableLR.Proofs.Parse.Forest
import TableLR.Proofs.Machine.History
import TableLR.Proofs.Parse.EventLog
import TableLR.Proofs.Machine.Lockstep
import TableLR.Proofs.Machine.Stacks
import TableLR.Proofs.Parse.Safety
import TableLR.Proofs.Parse.Progress
import TableLR.Proofs.Table.Exact
import TableLR.Proofs.Parse.Stretches
import TableLR.Proofs.Tree.Below
import TableLR.Proofs.Tree.Walks
import TableLR.Proofs.Tree.Fresh
import TableLR.Proofs.Tree.Lists
import TableLR.Proofs.Tree.Fields
import TableLR.Proofs.Tree.Answers
import TableLR.Proofs.Tree.References
import TableLR.Proofs.Tree.Composition
import TableLR.Proofs.Frontend
import TableLR.Proofs.Parse.InputEnd
import TableLR.Proofs.Parse.Options
import TableLR.Proofs.Parse.Ownership
import TableLR.Proofs.Tree.Repeated
import TableLR.Proofs.Tree.Refusals
import TableLR.Proofs.Tree.Hoisting
import TableLR.Proofs.Tree.SameShape
import TableLR.Proofs.Table.Expected
import TableLR.Proofs.Parse.Sync
import TableLR.Proofs.Parse.Loops
import TableLR.Proofs.Parse.Rendering
import TableLR.Proofs.Tree.Extent
import TableLR.Proofs.Tree.Undo
import TableLR.Proofs.Grammar.Names
import TableLR.Proofs.Grammar.WellFormed
import TableLR.Proofs.Tree.Visitor
import TableLR.Proofs.Table.Arithmetic
import TableLR.Proofs.Machine.Pulled
import TableLR.Proofs.Tree.Leaves
import TableLR.Proofs.Parse.Positions
import TableLR.Proofs.Parse.Unrecoverable
import TableLR.Proofs.Table.Minimal
