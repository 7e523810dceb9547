import SinglePath.Func.Basic
import SinglePath.Refusal
import SinglePath.ScopeTree.Walk

/-!
A scope tree fits a function if its scopes form a tree rooted at the entry, its blocks are those of the layout
and each has one scope and a predicate, and each definition is guarded by the block or the loop it leaves.
-/

namespace SinglePath

/-- What a valid tree says about the blocks and the loops of its function. -/
structure ScopeFacts where
  /-- The innermost scope of each block. -/
  blockScope : Table BlockId ScopeId
  /-- The blocks outside each loop to which blocks inside it have an edge. -/
  exits : Table ScopeId (List BlockId)
deriving DecidableEq, Repr

namespace ScopeTree

def checkMembers (tree : ScopeTree) (func : Func) (scope : ScopeId) :
    List BlockId → Table BlockId ScopeId → Outcome (Table BlockId ScopeId)
  | [], members => .ok members
  | block :: rest, members => do
      demandTree ((func.block? block).any (!·.erased)) (.unknownBlock scope block)
      demandTree (!members.contains block) (.memberTwice block)
      demandTree (tree.blockPred block).isSome (.noPredicate block)
      tree.checkMembers func scope rest (members.insert block scope)

def checkChildren (tree : ScopeTree) (scope : ScopeId) (depth : Nat) : List ScopeId → Outcome Unit
  | [] => .ok ()
  | child :: rest => do
      let content ← tree.get child
      demandTree (content.parent = some scope) (.parentLink child)
      let inner ← inWord (depth + 1)
      demandTree (content.depth = inner) (.parentLink child)
      tree.checkChildren scope depth rest

/-- Scopes are checked in the order of the walk; the blocks of each one are added to the members. -/
def checkScopes (tree : ScopeTree) (func : Func) :
    List ScopeId → List ScopeId → Table BlockId ScopeId → Outcome (Table BlockId ScopeId)
  | [], _, members => .ok members
  | scope :: rest, seen, members => do
      demandTree (scope ∉ seen) (.reachableTwice scope)
      let content ← tree.get scope
      demandTree (content.nodes.head? = some (.block content.header)) (.headerNotFirst scope)
      let members ← tree.checkMembers func scope content.blocks members
      tree.checkChildren scope content.depth content.subscopes
      tree.checkScopes func rest (scope :: seen) members

def checkCovered (tree : ScopeTree) (entered : List ScopeId) : Outcome Unit :=
  match (List.range tree.scopes.length).find? fun index => (⟨index⟩ : ScopeId) ∉ entered with
  | some index => refuseTree (.notInTree index)
  | none => .ok ()

def checkLayout (members : Table BlockId ScopeId) (layout : List BlockId) : Outcome Unit :=
  match layout.find? fun block => !members.contains block with
  | some block => refuseTree (.noScope block)
  | none => .ok ()

/-- The scope is the given one or lies inside it; parent links are followed at most the given number of times. -/
def isWithin (tree : ScopeTree) (outer : ScopeId) : Nat → Option ScopeId → Bool
  | _, none => false
  | 0, some _ => false
  | steps + 1, some scope =>
    scope = outer || tree.isWithin outer steps ((tree.scope? scope).bind (·.parent))

def holdsBlock (tree : ScopeTree) (members : Table BlockId ScopeId) (scope : ScopeId) (block : BlockId) : Bool :=
  tree.isWithin scope tree.scopes.length (members.get? block)

/-- A definition leaves a block of its scope or the header of a loop in it, and is guarded by that block. -/
def checkSource (tree : ScopeTree) (members : Table BlockId ScopeId) (scope : ScopeId) (definition : PredDef) :
    Outcome Unit := do
  let guarded := tree.blockPred definition.source = some definition.guard
  match members.get? definition.source with
  | none => refuseTree (.outsideEdge definition.pred definition.source scope)
  | some home =>
    if home = scope then
      demandTree guarded (.unguardedDef definition.pred definition.source)
    else if (← tree.childWithHeader scope definition.source).isSome then
      demandTree guarded (.unguardedExit definition.pred)
    else if tree.holdsBlock members scope definition.source then
      refuse (.nestedExitEdge definition.pred definition.source)
    else
      refuseTree (.outsideEdge definition.pred definition.source scope)

/-- The predicate of a whole function's entry is always true and has no definition. -/
def checkPred (tree : ScopeTree) (pred : PredId) : Outcome Unit := do
  let isTop ← tree.isFunctionTop root
  let entryPred ← tree.headerPred root
  demandTree (!(isTop && entryPred = some pred)) .entryPredDefined

def checkDefs (tree : ScopeTree) (members : Table BlockId ScopeId) (scope : ScopeId) :
    List PredDef → Outcome Unit
  | [] => .ok ()
  | definition :: rest => do
      tree.checkSource members scope definition
      tree.checkPred definition.pred
      tree.checkDefs members scope rest

def checkAllDefs (tree : ScopeTree) (members : Table BlockId ScopeId) : Nat → List Scope → Outcome Unit
  | _, [] => .ok ()
  | index, scope :: rest => do
      tree.checkDefs members ⟨index⟩ scope.defs
      tree.checkAllDefs members (index + 1) rest

/-- The successors outside the scope of the given blocks inside it, each once, in the order of their edges. -/
def exitsFrom (tree : ScopeTree) (members : Table BlockId ScopeId) (func : Func) (scope : ScopeId) :
    List BlockId → List BlockId → Outcome (List BlockId)
  | [], exits => .ok exits
  | block :: rest, exits =>
    if tree.holdsBlock members scope block then do
      let succs := (← func.get block).succs.filter fun succ => !tree.holdsBlock members scope succ
      tree.exitsFrom members func scope rest
        (succs.foldl (fun exits succ => if succ ∈ exits then exits else exits ++ [succ]) exits)
    else
      tree.exitsFrom members func scope rest exits

def allExits (tree : ScopeTree) (members : Table BlockId ScopeId) (func : Func) :
    Nat → List Scope → Outcome (List (ScopeId × List BlockId))
  | _, [] => .ok []
  | index, scope :: rest => do
      if scope.isTopLevel then
        tree.allExits members func (index + 1) rest
      else
        let exits ← tree.exitsFrom members func ⟨index⟩ func.layout []
        return (⟨index⟩, exits) :: (← tree.allExits members func (index + 1) rest)

def checkRoot (tree : ScopeTree) (func : Func) : Outcome Unit :=
  match tree.scopes with
  | [] => refuseTree .noRoot
  | top :: _ => do
      demandTree top.parent.isNone .rootHasParent
      demandTree (top.header = func.entry) .rootHeaderNotEntry

/-- Check the tree against the function and collect what the reduction needs to know. -/
def validate (tree : ScopeTree) (func : Func) : Outcome ScopeFacts := do
  tree.checkRoot func
  let entered ← tree.scopesInOrder
  let members ← tree.checkScopes func entered [] Table.empty
  tree.checkCovered entered
  checkLayout members func.layout
  tree.checkAllDefs members 0 tree.scopes
  let exits ← tree.allExits members func 0 tree.scopes
  return ⟨members, Table.ofList exits⟩

end ScopeTree

end SinglePath
