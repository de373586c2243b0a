import Ascribe.Assignability.Aliases
import Ascribe.Assignability.Cast
import Ascribe.Assignability.Compare
import Ascribe.Assignability.Mismatch
import Ascribe.Checker
import Ascribe.Checker.Diagnostic
import Ascribe.Checker.State
import Ascribe.Instantiation.Key
import Ascribe.Instantiation.Registry
import Ascribe.Instantiation.Symbol
import Ascribe.Literal.Decimal
import Ascribe.Literal.Integer
import Ascribe.Memo
import Ascribe.MethodNames
import Ascribe.NodeMap
import Ascribe.Primitive
import Ascribe.Problem
import Ascribe.Proofs.Assignability.Aliases
import Ascribe.Proofs.Assignability.Arguments
import Ascribe.Proofs.Assignability.Assumptions
import Ascribe.Proofs.Assignability.Casts
import Ascribe.Proofs.Assignability.Coinduction
import Ascribe.Proofs.Assignability.Correct
import Ascribe.Proofs.Assignability.Fixed
import Ascribe.Proofs.Assignability.Inheritance
import Ascribe.Proofs.Assignability.Lockstep
import Ascribe.Proofs.Assignability.Merging
import Ascribe.Proofs.Assignability.Named
import Ascribe.Proofs.Assignability.Numbers
import Ascribe.Proofs.Assignability.Origins
import Ascribe.Proofs.Assignability.Rules
import Ascribe.Proofs.Assignability.SameTypes
import Ascribe.Proofs.Assignability.StepSpec
import Ascribe.Proofs.Assignability.Termination
import Ascribe.Proofs.Assignability.Totality
import Ascribe.Proofs.Assignability.Transitivity
import Ascribe.Proofs.Assignability.Unions
import Ascribe.Proofs.Assignability.Unresolved
import Ascribe.Proofs.Assignability.Widening
import Ascribe.Proofs.Checker.Aliases
import Ascribe.Proofs.Checker.Anchors
import Ascribe.Proofs.Checker.Branches
import Ascribe.Proofs.Checker.Casts
import Ascribe.Proofs.Checker.Coherence
import Ascribe.Proofs.Checker.Comparison
import Ascribe.Proofs.Checker.Consistency
import Ascribe.Proofs.Checker.Entries
import Ascribe.Proofs.Checker.Growth
import Ascribe.Proofs.Checker.Independence
import Ascribe.Proofs.Checker.Instances
import Ascribe.Proofs.Checker.Invalidation
import Ascribe.Proofs.Checker.Literals
import Ascribe.Proofs.Checker.Lookup
import Ascribe.Proofs.Checker.Normal
import Ascribe.Proofs.Checker.Numbers
import Ascribe.Proofs.Checker.Placeholders
import Ascribe.Proofs.Checker.Session
import Ascribe.Proofs.Checker.Stability
import Ascribe.Proofs.Checker.Termination
import Ascribe.Proofs.Checker.Totality
import Ascribe.Proofs.Checker.Unfolding
import Ascribe.Proofs.Instantiation.Histories
import Ascribe.Proofs.Instantiation.Keys
import Ascribe.Proofs.Instantiation.Registrations
import Ascribe.Proofs.Instantiation.Segments
import Ascribe.Proofs.Instantiation.SymbolForm
import Ascribe.Proofs.Instantiation.Symbols
import Ascribe.Proofs.Literal.Reading
import Ascribe.Proofs.Literal.Written
import Ascribe.Proofs.Memo.Consistency
import Ascribe.Proofs.Memo.Dependence
import Ascribe.Proofs.Memo.Growth
import Ascribe.Proofs.Memo.Trace
import Ascribe.Proofs.Primitive
import Ascribe.Proofs.Search.Alike
import Ascribe.Proofs.Search.Lockstep
import Ascribe.Proofs.Search.Returns
import Ascribe.Proofs.Table
import Ascribe.Proofs.Tree.Bodies
import Ascribe.Proofs.Tree.Building
import Ascribe.Proofs.Tree.Forest
import Ascribe.Proofs.Tree.Walks
import Ascribe.Proofs.Tree.WellFormed
import Ascribe.Proofs.Ty.Canonical
import Ascribe.Proofs.Ty.Closed
import Ascribe.Proofs.Ty.ClosedCalls
import Ascribe.Proofs.Ty.Congruence
import Ascribe.Proofs.Ty.Erasure
import Ascribe.Proofs.Ty.FreeNames
import Ascribe.Proofs.Ty.Matching
import Ascribe.Proofs.Ty.Parts
import Ascribe.Proofs.Ty.Readable
import Ascribe.Proofs.Ty.Representation
import Ascribe.Proofs.Ty.Scope
import Ascribe.Proofs.Ty.Simplification
import Ascribe.Proofs.Ty.Solving
import Ascribe.Proofs.Ty.Structural
import Ascribe.Proofs.Ty.Substitution
import Ascribe.Proofs.Typing.Branches
import Ascribe.Proofs.Typing.Conformance
import Ascribe.Proofs.Typing.Direct
import Ascribe.Proofs.Typing.Ensures.Expressions
import Ascribe.Proofs.Typing.Ensures.Questions
import Ascribe.Proofs.Typing.Ensures.Rules
import Ascribe.Proofs.Typing.Expansion
import Ascribe.Proofs.Typing.Lockstep
import Ascribe.Proofs.Typing.Members
import Ascribe.Proofs.Typing.Memoised
import Ascribe.Proofs.Typing.Settling
import Ascribe.Search
import Ascribe.Source
import Ascribe.Table
import Ascribe.Text.Blank
import Ascribe.Text.Line
import Ascribe.Tree.Basic
import Ascribe.Tree.Builder
import Ascribe.Tree.Form
import Ascribe.Tree.Operator
import Ascribe.Tree.Parts
import Ascribe.Ty.Basic
import Ascribe.Ty.Canonical
import Ascribe.Ty.Enum
import Ascribe.Ty.Generics
import Ascribe.Ty.Prototype
import Ascribe.Ty.Same
import Ascribe.Ty.Shape
import Ascribe.Ty.Size
import Ascribe.Ty.Solve
import Ascribe.Ty.Text
import Ascribe.Typing.Access
import Ascribe.Typing.Answers
import Ascribe.Typing.Application
import Ascribe.Typing.Branches
import Ascribe.Typing.Expectation
import Ascribe.Typing.Literal
import Ascribe.Typing.Name
import Ascribe.Typing.Operator
import Ascribe.Typing.Queries
import Ascribe.Typing.Resolution
import Ascribe.Typing.Rules
import Ascribe.Typing.Signature
import Ascribe.Typing.TypeExpr
