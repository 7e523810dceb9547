import SinglePath.Fault
import SinglePath.Index
import SinglePath.Register
import SinglePath.Table

/-!
The scope tree: a nesting of the loops of a function. Each scope lists its blocks and inner loops in
topological order, and the definitions of predicates on the edges that leave them.
-/

namespace SinglePath

inductive ScopeNode where
  | block (id : BlockId)
  | subscope (id : ScopeId)
deriving DecidableEq, Repr

/-- On the edge from the source to the target, the predicate becomes the guard and the condition together. -/
structure PredDef where
  pred : PredId
  guard : PredId
  source : BlockId
  target : BlockId
  /-- Nothing stands for an edge that is always taken. -/
  cond : Option Cond
deriving DecidableEq, Repr

structure Scope where
  parent : Option ScopeId
  depth : Nat
  header : BlockId
  /-- The members in topological order, the header first. -/
  nodes : List ScopeNode
  defs : List PredDef
  /-- The largest number of executions of the header per entry, if known. -/
  bound : Option UInt32
deriving DecidableEq, Repr

namespace Scope

def isTopLevel (scope : Scope) : Bool := scope.parent.isNone

def subscopes (scope : Scope) : List ScopeId :=
  scope.nodes.filterMap fun node =>
    match node with
    | .block _ => none
    | .subscope id => some id

def blocks (scope : Scope) : List BlockId :=
  scope.nodes.filterMap fun node =>
    match node with
    | .block id => some id
    | .subscope _ => none

/-- A bound of zero counts as unknown. -/
def usableBound (scope : Scope) : Option UInt32 := scope.bound.filter (· ≠ 0)

end Scope

structure ScopeTree where
  scopes : List Scope
  /-- Each block is guarded by one predicate. -/
  blockPreds : Table BlockId PredId
  predCount : Nat
  /-- Only single-path functions are reduced. -/
  singlePath : Bool := true
  /-- The root is a whole function, and not a region whose guard arrives in the temporary register. -/
  wholeFunction : Bool := true
deriving DecidableEq, Repr

namespace ScopeTree

def root : ScopeId := ⟨0⟩

/-- A tree of one scope, whose only block is guarded by a fresh predicate. -/
def single (header : BlockId) : ScopeTree where
  scopes := [⟨none, 0, header, [.block header], [], none⟩]
  blockPreds := Table.empty.insert header ⟨0⟩
  predCount := 1

def scope? (tree : ScopeTree) (scope : ScopeId) : Option Scope := tree.scopes[scope.index]?

/-- The scope of that name, which the caller expects to exist. -/
def get (tree : ScopeTree) (scope : ScopeId) : Except Fault Scope := present (tree.scope? scope)

/-- The named scope is changed and every other scope stays. -/
def modify (tree : ScopeTree) (scope : ScopeId) (change : Scope → Scope) : ScopeTree :=
  { tree with scopes := tree.scopes.modify scope.index change }

def newPred (tree : ScopeTree) : PredId × ScopeTree :=
  (⟨tree.predCount⟩, { tree with predCount := tree.predCount + 1 })

def addNode (tree : ScopeTree) (scope : ScopeId) (node : ScopeNode) : ScopeTree :=
  tree.modify scope fun content => { content with nodes := content.nodes ++ [node] }

/-- A loop with the given header becomes the next node of its parent, which stands at the given depth. -/
def openLoop (tree : ScopeTree) (parent : ScopeId) (depth : Nat) (header : BlockId) (bound : Option UInt32) :
    ScopeId × ScopeTree :=
  let id : ScopeId := ⟨tree.scopes.length⟩
  let extended : ScopeTree := { tree with
    scopes := tree.scopes ++ [⟨some parent, depth + 1, header, [.block header], [], bound⟩] }
  (id, extended.addNode parent (.subscope id))

def addSubscope (tree : ScopeTree) (parent : ScopeId) (header : BlockId) (bound : Option UInt32) :
    Except Fault (ScopeId × ScopeTree) := do
  let content ← tree.get parent
  let _ ← inWord (content.depth + 1)
  return tree.openLoop parent content.depth header bound

def addBlock (tree : ScopeTree) (scope : ScopeId) (block : BlockId) : Except Fault ScopeTree := do
  let _ ← tree.get scope
  return tree.addNode scope (.block block)

def setBlockPred (tree : ScopeTree) (block : BlockId) (pred : PredId) : ScopeTree :=
  { tree with blockPreds := tree.blockPreds.insert block pred }

def pushDef (tree : ScopeTree) (scope : ScopeId) (definition : PredDef) : ScopeTree :=
  tree.modify scope fun content => { content with defs := content.defs ++ [definition] }

def addDef (tree : ScopeTree) (scope : ScopeId) (definition : PredDef) : Except Fault ScopeTree := do
  let _ ← tree.get scope
  return tree.pushDef scope definition

/-- The tree of a region takes its guard from the temporary register. -/
def asRegion (tree : ScopeTree) : ScopeTree := { tree with wholeFunction := false }

def blockPred (tree : ScopeTree) (block : BlockId) : Option PredId := tree.blockPreds.get? block

def headerPred (tree : ScopeTree) (scope : ScopeId) : Except Fault (Option PredId) := do
  return tree.blockPred (← tree.get scope).header

/-- The top of a region, whose guard arrives in a register. -/
def isRegionTop (tree : ScopeTree) (scope : ScopeId) : Except Fault Bool := do
  return (← tree.get scope).isTopLevel && !tree.wholeFunction

/-- The top of a whole function, whose header predicate is always true. -/
def isFunctionTop (tree : ScopeTree) (scope : ScopeId) : Except Fault Bool := do
  return (← tree.get scope).isTopLevel && tree.wholeFunction

def loopBound (tree : ScopeTree) (scope : ScopeId) : Except Fault (Option UInt32) := do
  return (← tree.get scope).usableBound

/-- The first scope of the list that has the header. -/
def findHeader (tree : ScopeTree) (header : BlockId) : List ScopeId → Except Fault (Option ScopeId)
  | [] => .ok none
  | scope :: rest => do
      if (← tree.get scope).header = header then return some scope
      tree.findHeader header rest

/-- The direct child of the scope that has the header. -/
def childWithHeader (tree : ScopeTree) (scope : ScopeId) (header : BlockId) : Except Fault (Option ScopeId) := do
  tree.findHeader header (← tree.get scope).subscopes

/-- A node stands for its block, and a loop for its header. -/
def nodeBlock (tree : ScopeTree) : ScopeNode → Except Fault BlockId
  | .block id => .ok id
  | .subscope id => do return (← tree.get id).header

def positionFrom (tree : ScopeTree) (block : BlockId) : Nat → List ScopeNode → Except Fault (Option Nat)
  | _, [] => .ok none
  | position, node :: rest => do
      if (← tree.nodeBlock node) = block then return some position
      tree.positionFrom block (position + 1) rest

/-- The position among the nodes of the scope of a block or of the loop that it heads. -/
def nodePosition (tree : ScopeTree) (scope : ScopeId) (block : BlockId) : Except Fault (Option Nat) := do
  tree.positionFrom block 0 (← tree.get scope).nodes

end ScopeTree

end SinglePath
