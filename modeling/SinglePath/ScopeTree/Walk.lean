import SinglePath.ScopeTree.Basic

/-!
The depth-first walk of a scope tree: it enters a scope, meets its blocks and inner loops in order, and leaves
the scope. A chain of nested scopes that is longer than the tree has scopes repeats one of them, and then the
walk has no end.
-/

namespace SinglePath

inductive WalkEvent where
  | enter (scope : ScopeId)
  | block (id : BlockId)
  | exit (scope : ScopeId)
deriving DecidableEq, Repr

def WalkEvent.entered : WalkEvent → Option ScopeId
  | .enter scope => some scope
  | .block _ => none
  | .exit _ => none

namespace ScopeTree

/-- The events of a list of nodes, given the walk of an inner scope. -/
def walkNodes (inner : ScopeId → Except Fault (List WalkEvent)) :
    List ScopeNode → Except Fault (List WalkEvent)
  | [] => .ok []
  | .block id :: rest => do return .block id :: (← walkNodes inner rest)
  | .subscope id :: rest => do
      let events ← inner id
      return events ++ (← walkNodes inner rest)

/-- The walk of one scope, with room for the given number of scopes inside each other. -/
def walkScope (tree : ScopeTree) : Nat → ScopeId → Except Fault (List WalkEvent)
  | 0, scope => do
      let _ ← tree.get scope
      throw .endless
  | room + 1, scope => do
      let content ← tree.get scope
      let events ← walkNodes (tree.walkScope room) content.nodes
      return .enter scope :: events ++ [.exit scope]

/-- A tree without scopes has nothing to walk. -/
def walk (tree : ScopeTree) : Except Fault (List WalkEvent) :=
  if tree.scopes.isEmpty then .ok [] else tree.walkScope tree.scopes.length root

def scopesInOrder (tree : ScopeTree) : Except Fault (List ScopeId) := do
  return (← tree.walk).filterMap WalkEvent.entered

end ScopeTree

end SinglePath
