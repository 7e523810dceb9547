import SinglePath.Refusal
import SinglePath.ScopeTree.Basic

/-!
The events of the predicates of one scope. The node at position `i` has two points: at `2 * i` its guard is
read, and at `2 * i + 1` the definitions on its outgoing edges happen, their guards first. The header of a loop
is read once more after the last node, on the edge back.
-/

namespace SinglePath

/-- Where a predicate is read. -/
inductive UseSite where
  | block (id : BlockId)
  /-- On entry to the inner loop with this header. -/
  | loop (header : BlockId)
  | backEdge
deriving DecidableEq, Repr

inductive EventKind where
  | use (site : UseSite)
  /-- A full definition does not depend on the value before it. -/
  | define (full : Bool)
deriving DecidableEq, Repr

structure Event where
  point : Nat
  kind : EventKind
deriving DecidableEq, Repr

/-- A node with the block that stands for it and that block's predicate. -/
structure NodeSite where
  node : ScopeNode
  block : BlockId
  pred : Option PredId
deriving DecidableEq, Repr

/-- A definition with its place among the definitions and the position of the node it leaves. -/
structure PlacedDef where
  position : Nat
  index : Nat
  definition : PredDef
deriving DecidableEq, Repr

structure ScopeEvents where
  scope : ScopeId
  header : BlockId
  isTopLevel : Bool
  sites : List NodeSite
  headerPred : PredId
  /-- The header predicate of a whole function is always true and has no events. -/
  alwaysTrue : Option PredId
  /-- The events of each predicate in the order of their points, uses before definitions. -/
  events : Table PredId (List Event)
  firstDefs : Table PredId Nat
  defCounts : Table PredId Nat

namespace ScopeEvents

def siteOf (tree : ScopeTree) (node : ScopeNode) : Except Fault NodeSite := do
  let block ← tree.nodeBlock node
  return ⟨node, block, tree.blockPred block⟩

/-- Each definition leaves a node of the scope. -/
def placeDefs (scope : ScopeId) (sites : List NodeSite) : Nat → List PredDef → Outcome (List PlacedDef)
  | _, [] => .ok []
  | index, definition :: rest =>
    match sites.findIdx? (·.block = definition.source) with
    | none => refuseTree (.sourceNotNode definition.source scope)
    | some position => do return ⟨position, index, definition⟩ :: (← placeDefs scope sites (index + 1) rest)

def defsAt (placed : List PlacedDef) (position : Nat) : List PlacedDef :=
  placed.filter (·.position = position)

/-- The definitions in the order of the nodes that they leave. -/
def inNodeOrder (nodeCount : Nat) (placed : List PlacedDef) : List PlacedDef :=
  (List.range nodeCount).flatMap (defsAt placed)

def firstDefsOf (ordered : List PlacedDef) : Table PredId Nat :=
  ordered.foldl (fun table placed => table.insertNew placed.definition.pred placed.index) Table.empty

def defCountsOf (ordered : List PlacedDef) : Table PredId Nat :=
  ordered.foldl (fun table placed => table.alter placed.definition.pred fun count => count.getD 0 + 1) Table.empty

/-- The definitions at a block are full if they are the first; those on the exits of a loop never are. -/
def nodeEvents (firstDefs : Table PredId Nat) (placed : List PlacedDef) (site : NodeSite) (position : Nat) :
    List (PredId × Event) :=
  let point := 2 * position
  let defs := defsAt placed position
  match site.node with
  | .block id =>
    (site.pred.toList.map fun pred => (pred, ⟨point, .use (.block id)⟩)) ++
      (defs.map fun placed => (placed.definition.guard, ⟨point + 1, .use (.block id)⟩)) ++
      defs.map fun placed =>
        (placed.definition.pred,
          ⟨point + 1, .define (firstDefs.get? placed.definition.pred = some placed.index)⟩)
  | .subscope _ =>
    (site.pred.toList.map fun pred => (pred, ⟨point, .use (.loop site.block)⟩)) ++
      defs.map fun placed => (placed.definition.pred, ⟨point + 1, .define false⟩)

def collect (alwaysTrue : Option PredId) (all : List (PredId × Event)) : Table PredId (List Event) :=
  (all.filter fun entry => some entry.1 ≠ alwaysTrue).foldl
    (fun table entry => table.alter entry.1 fun found => found.getD [] ++ [entry.2]) Table.empty

def startsWithUse (events : List Event) : Bool :=
  match events.head? with
  | some ⟨_, .use _⟩ => true
  | _ => false

/-- Every predicate but the header's is defined before it is read. -/
def checkDefined (headerPred : PredId) (events : Table PredId (List Event)) : Outcome Unit :=
  match events.entries.find? fun entry => entry.1 ≠ headerPred && startsWithUse entry.2 with
  | some entry => refuse (.useWithoutDef entry.1)
  | none => .ok ()

def ofScope (tree : ScopeTree) (scope : ScopeId) : Outcome ScopeEvents := do
  let content ← tree.get scope
  let headerPred ← match tree.blockPred content.header with
    | some pred => pure pred
    | none => refuseTree (.noHeaderPred scope)
  let alwaysTrue := if content.isTopLevel && tree.wholeFunction then some headerPred else none
  let sites ← (content.nodes.mapM (siteOf tree) : Except Fault (List NodeSite))
  let placed ← placeDefs scope sites 0 content.defs
  let ordered := inNodeOrder sites.length placed
  let firstDefs := firstDefsOf ordered
  let inside := sites.zipIdx.flatMap fun entry => nodeEvents firstDefs placed entry.1 entry.2
  let events := collect alwaysTrue (inside ++ [(headerPred, ⟨2 * sites.length, .use .backEdge⟩)])
  checkDefined headerPred events
  return {
    scope := scope
    header := content.header
    isTopLevel := content.isTopLevel
    sites := sites
    headerPred := headerPred
    alwaysTrue := alwaysTrue
    events := events
    firstDefs := firstDefs
    defCounts := defCountsOf ordered }

def eventsOf (scope : ScopeEvents) (pred : PredId) : List Event := (scope.events.get? pred).getD []

/-- The header predicate is live from the start; any other from its first event. -/
def start (scope : ScopeEvents) (pred : PredId) : Nat :=
  if pred = scope.headerPred then 0 else ((scope.eventsOf pred).head?.map (·.point)).getD 0

/-- A predicate is live up to and with its last event. -/
def finish (scope : ScopeEvents) (pred : PredId) : Nat :=
  ((scope.eventsOf pred).getLast?.map (·.point)).getD (scope.start pred) + 1

def hasEventAt (scope : ScopeEvents) (pred : PredId) (position : Nat) : Bool :=
  (scope.eventsOf pred).any fun event => event.point = 2 * position || event.point = 2 * position + 1

def nextEventAfter (scope : ScopeEvents) (pred : PredId) (point : Nat) : Option Event :=
  (scope.eventsOf pred).find? (point < ·.point)

/-- Before the node the value of the predicate is dead: what happens next is its full definition there. -/
def isDeadAt (scope : ScopeEvents) (pred : PredId) (position : Nat) : Bool :=
  match (scope.eventsOf pred).find? (2 * position ≤ ·.point) with
  | some event => event.point = 2 * position + 1 && event.kind = .define true
  | none => false

def isLastEvent (scope : ScopeEvents) (pred : PredId) (event : Event) : Bool :=
  (scope.eventsOf pred).getLast?.any (·.point = event.point)

end ScopeEvents

end SinglePath
