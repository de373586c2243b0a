import Ascribe.Checker.Diagnostic
import Ascribe.Typing.Answers

/-!
# Queries on a checker

What a host asks of a checker. Each query is given the tree it is about, so that the tree can be edited
between queries; after an edit the host invalidates what changed.
-/

namespace Ascribe

namespace Queries

variable (q : Queries)

/-- The nodes that name the members of a type. -/
def memberNodes (t : Ty) : Infer (List NodeId) := do
  match (← q.resolveDeep t.stripNullable).shape with
  | .struct body => return body.fields.filterMap (·.origin)
  | .cls body => return body.attributes.filterMap (·.origin) ++ body.methods.filterMap (·.origin)
  | .interface body => return (← q.interfaceMethods body).filterMap (·.origin)
  | .variant cases => return cases.filterMap (·.origin)
  | .constructed c => return c.params.filterMap (·.origin)
  | .enum body => return body.cases.filterMap (·.origin)
  | _ => return []

/-- The diagnostic of a node, if its type is an error that arose at that node. -/
def diagnosticAt (p : Tree) (node : NodeId) : Infer (Option Diagnostic) := do
  let t ← q.typeOf node
  match t.shape with
  | .error e =>
    if e.problem.isPlaceholder || t.origin ≠ some node then return none
    let n ← Search.ofWalk (p.node node)
    return some { problem := e.problem, span := n.span, node, expected := e.expected.map Ty.text }
  | _ => return none

/-- The diagnostics of a node and the nodes below it, each at the node whose rule failed. -/
def diagnostics (p : Tree) (root : NodeId) : Infer (List Diagnostic) := do
  (← Search.ofWalk (p.descendants root)).filterMapM (q.diagnosticAt p)

end Queries

namespace Checker

/-- How deep the questions behind one question of a host may nest. A node that is being typed is not typed
again inside, and the settings say how many named types may be resolved inside each other, so the bound grows
with the tree and with the settings. -/
def questionDepth (p : Tree) (settings : Settings) : Nat :=
  depthLimit + 4 * p.size + settings.maxReferenceDepth

/-- The answers to the questions of a host. -/
def queries (p : Tree) : Infer Queries :=
  return answers p (questionDepth p (← Infer.settings)) 0

/-- The type of a node. What cannot be typed has an error type. -/
def typeOf (p : Tree) (node : NodeId) : Infer Ty := do
  (← queries p).typeOf node

/-- What a type stands for if it is named; other types are returned unchanged. -/
def resolve (p : Tree) (t : Ty) : Infer Ty := do
  (← queries p).resolveDeep t

/-- Whether a value of one type can be used where another is expected, and why not. -/
def compare (p : Tree) (actual expected : Ty) : Infer Verdict := do
  (← queries p).compare [] actual expected

/-- How a cast behaves. -/
def castSafety (p : Tree) (source target : Ty) : Infer CastSafety := do
  (← queries p).comparer.castSafety source target

/-- The nodes that name the members of a type. -/
def memberNodes (p : Tree) (t : Ty) : Infer (List NodeId) := do
  (← queries p).memberNodes t

/-- The diagnostics of a node and the nodes below it. -/
def diagnostics (p : Tree) (root : NodeId) : Infer (List Diagnostic) := do
  (← queries p).diagnostics p root

/-- Forget the types of a node and of the nodes below it, and every resolved named type. The log of
instantiations is kept. -/
def invalidate (p : Tree) (node : NodeId) : Infer Unit := do
  let nodes ← Search.ofWalk (p.descendants node)
  modify fun c => { c with memo := nodes.foldl Memo.remove c.memo, resolved := ∅ }

/-- Forget everything but the settings. -/
def clear (c : Checker) : Checker :=
  { settings := c.settings }

/-- How many nodes have a finished type. -/
def cachedTypes (c : Checker) : Nat :=
  c.memo.finished

end Checker

end Ascribe
