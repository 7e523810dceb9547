import SinglePath.Allocation.Placement
import SinglePath.ScopeTree.Walk

/-!
The allocation of a whole scope tree. Scopes are allocated in the order of the walk, so a scope comes after the
scope around it and inherits the registers that must survive it.
-/

namespace SinglePath

/-- The allocation of a scope with the holders that decide what its inner loops must preserve. -/
structure ScopeResult where
  alloc : ScopeAllocation
  holders : List Holder

namespace ScopeResult

/-- Allocate one scope, with or without a register set aside for stack predicates. -/
def compute (scope : ScopeEvents) (context : ScopeContext) (reserve : Bool) :
    Except AllocFailure ScopeResult := do
  let regs ← LinearScan.run scope context (LinearScan.poolFor context reserve)
  let holders := LinearScan.holders scope regs
  let locs : Table PredId Location := ⟨LinearScan.numberStack context.firstStackLoc regs.entries⟩
  let placed ← Placement.run scope context locs holders (context.firstStackLoc + LinearScan.stackCount regs)
  let usedRegs := NumberSet.ofList (holders.map (·.reg) ++ placed.borrowed)
  return ⟨{
    scope := scope.scope
    defLocs := match scope.alwaysTrue with
      | some pred => locs.insert pred .always
      | none => locs
    useLocs := placed.useLocs
    loadLocs := placed.loadLocs
    spillLocs := placed.spillLocs
    firstDefs := scope.firstDefs
    defCounts := scope.defCounts
    firstStackLoc := context.firstStackLoc
    stackLocs := placed.nextStack - context.firstStackLoc
    savesBank := !scope.isTopLevel && usedRegs.members.any context.preserve.contains
    preserve := context.preserve
    usedRegs := usedRegs }, holders⟩

/-- A register is set aside only if another one is left for the header. -/
def allocate (scope : ScopeEvents) (context : ScopeContext) : Outcome ScopeResult :=
  match compute scope context false with
  | .ok result => .ok result
  | .error .pressure => refuse (.registerPressure scope.scope)
  | .error .noCandidate =>
    if 1 < context.pool.length then
      match compute scope context true with
      | .ok result => .ok result
      | .error _ => refuse (.registerPressure scope.scope)
    else
      refuse (.registerPressure scope.scope)

/-- What an inner loop inherits. Registers live across it must be preserved, and so must those of the enclosing
scopes unless this scope has saved the bank. -/
def childContext (result : ScopeResult) (scope : ScopeEvents) (context : ScopeContext) (registers : Nat)
    (child : ScopeId) : ScopeContext :=
  let position := (scope.sites.findIdx? (·.node = .subscope child)).getD 0
  let point := 2 * position + 1
  let live := (result.holders.filter fun holder => holder.start ≤ point && point < holder.finish).map (·.reg)
  let inherited := if result.alloc.savesBank then [] else context.preserve.members
  let preserve := NumberSet.ofList (live ++ inherited)
  let headerPred := ((scope.sites.find? (·.node = .subscope child)).bind (·.pred))
  let preferred := headerPred.bind fun pred =>
    match result.alloc.defLoc pred with
    | .register reg => if preserve.contains reg then none else some reg
    | _ => none
  let all := List.range registers
  { pool := all.filter (!preserve.contains ·) ++ all.filter (preserve.contains ·)
    preserve := preserve
    preferred := preferred
    firstStackLoc := result.alloc.stackEnd }

end ScopeResult

namespace ScopeTree

/-- The scopes allocated so far and what the others inherit. -/
structure Assignment where
  allocs : Table ScopeId ScopeAllocation
  contexts : Table ScopeId ScopeContext

def allocateScope (tree : ScopeTree) (registers : Nat) (state : Assignment) (scope : ScopeId) :
    Outcome Assignment := do
  let context ← match state.contexts.get? scope with
    | some context => pure context
    | none => refuseTree (.noParentContext scope)
  let events ← ScopeEvents.ofScope tree scope
  let result ← ScopeResult.allocate events context
  let content ← tree.get scope
  let contexts := content.subscopes.foldl
    (fun contexts child => contexts.insert child (result.childContext events context registers child))
    (state.contexts.erase scope)
  return ⟨state.allocs.insert scope result.alloc, contexts⟩

def gather (allocs : Table ScopeId ScopeAllocation) : List Nat → Outcome (List ScopeAllocation)
  | [] => .ok []
  | index :: rest =>
    match allocs.get? ⟨index⟩ with
    | none => refuseTree (.neverAllocated index)
    | some alloc => do return alloc :: (← gather allocs rest)

/-- Hand out the given number of registers to every scope of the tree. -/
def allocate (tree : ScopeTree) (registers : Nat) : Outcome (List ScopeAllocation) := do
  let rootContext : ScopeContext :=
    { pool := List.range registers, preserve := .empty, preferred := none, firstStackLoc := 0 }
  let scopes ← tree.scopesInOrder
  let final ← scopes.foldlM (tree.allocateScope registers) ⟨Table.empty, Table.empty.insert root rootContext⟩
  gather final.allocs (List.range tree.scopes.length)

end ScopeTree

end SinglePath
