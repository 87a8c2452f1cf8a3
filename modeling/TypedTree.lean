import TypedTree.Ident.Reading
import TypedTree.Program.Captures
import TypedTree.Program.Cursor
import TypedTree.Program.View
import TypedTree.Session
import TypedTree.Proofs.Acceptance
import TypedTree.Proofs.Arena.Identity
import TypedTree.Proofs.Scope.Chain
import TypedTree.Proofs.Scope.Rooting
import TypedTree.Proofs.Scope.Fit
import TypedTree.Proofs.Preorder
import TypedTree.Proofs.Arena.Tree
import TypedTree.Proofs.Arena.Walk
import TypedTree.Proofs.Index.Writes
import TypedTree.Proofs.Scope.Log
import TypedTree.Proofs.Scope.Lexical
import TypedTree.Proofs.Program.Describes
import TypedTree.Proofs.Draft.Run
import TypedTree.Proofs.Draft.Totality
import TypedTree.Proofs.Scope.Ancestors
import TypedTree.Proofs.Scope.Resolvable
import TypedTree.Proofs.Index.Agree
import TypedTree.Proofs.Draft.Recorded
import TypedTree.Proofs.Draft.Swap
import TypedTree.Proofs.Draft.Captures
import TypedTree.Proofs.Scope.Ownership
import TypedTree.Proofs.Ty.Alias
import TypedTree.Proofs.Ty.Fact
import TypedTree.Proofs.Scope.Roots
import TypedTree.Proofs.Scope.Stacks
import TypedTree.Proofs.Program.Outcome
import TypedTree.Proofs.Scope.Insertion
import TypedTree.Proofs.Draft.Reports
import TypedTree.Proofs.Draft.Synthesis
import TypedTree.Proofs.Draft.Bundles
import TypedTree.Proofs.Calls
import TypedTree.Proofs.Interning
import TypedTree.Proofs.Arena.Insertion
import TypedTree.Proofs.Arena.Prune
import TypedTree.Proofs.Scope.Rejection
import TypedTree.Proofs.Arena.Pattern
import TypedTree.Proofs.Arena.Collector
import TypedTree.Proofs.Scope.Descent
import TypedTree.Proofs.Scope.Binding
import TypedTree.Proofs.Scope.FullChains
import TypedTree.Proofs.Ty.Canonical
import TypedTree.Proofs.Program.Conformance
import TypedTree.Proofs.Ty.Outline
import TypedTree.Proofs.Ty.Display
import TypedTree.Proofs.Index.Members
import TypedTree.Proofs.Ty.Environment
import TypedTree.Proofs.Explanation
import TypedTree.Proofs.Draft.Imports
import TypedTree.Proofs.Folded.Place
import TypedTree.Proofs.Folded.Rotation
import TypedTree.Proofs.Folded.Evaluation
