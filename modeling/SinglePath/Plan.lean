import SinglePath.Allocation.Assignment
import SinglePath.FrameLayout
import SinglePath.Inst.Emitted
import SinglePath.ScopeTree.Validation

/-!
What is decided before a function is changed: the facts of its scope tree, the registers that the function leaves
free, the allocation of its predicates, and the frame cells.
-/

namespace SinglePath

structure Plan where
  tree : ScopeTree
  regs : TargetRegs
  /-- The allocatable registers; the location of a predicate is a position in this list. -/
  available : List PReg
  /-- The registers that the function itself uses. -/
  unavailable : List PReg
  /-- The register that carries guards to callees and combined guards to single instructions. -/
  temporary : PReg
  allocs : List ScopeAllocation
  frame : FrameLayout
  facts : ScopeFacts
  scopes : List ScopeId

namespace Plan

/-- The predicate registers other than the constant. -/
def candidates (regs : TargetRegs) : List PReg := (List.range' 1 (regs.predCount - 1)).map PReg.mk

/-- The plan for a function, and the function with the cells of the plan in use. -/
def make (tree : ScopeTree) (regs : TargetRegs) (func : Func) : Outcome (Plan × Func) := do
  let facts ← tree.validate func
  let free := (candidates regs).filter fun reg => !func.mentionsPred reg
  let used := (candidates regs).filter fun reg => func.mentionsPred reg
  let temporary ← match free.getLast? with
    | some reg => pure reg
    | none => refuse .noTemporary
  let available := free.dropLast
  let allocs ← tree.allocate available.length
  let (frame, func) ← FrameLayout.create func tree allocs
  let scopes ← tree.scopesInOrder
  return (⟨tree, regs, available, used, temporary, allocs, frame, facts, scopes⟩, func)

def preg (plan : Plan) (index : Nat) : Except Fault PReg := present plan.available[index]?

def alloc (plan : Plan) (scope : ScopeId) : Except Fault ScopeAllocation := present plan.allocs[scope.index]?

def guards (plan : Plan) : GReg := plan.regs.guards

/-- The register from which a block reads a predicate; the always true predicate is read from the constant. -/
def useReg (plan : Plan) (scope : ScopeId) (block : BlockId) (pred : PredId) : Outcome PReg := do
  let alloc ← plan.alloc scope
  match alloc.useReg block pred with
  | some index => plan.preg index
  | none => if alloc.defLoc pred = .always then return PReg.zero else refuse (.missingUse block pred)

def headerPred (plan : Plan) (scope : ScopeId) : Outcome PredId := do
  match ← plan.tree.headerPred scope with
  | some pred => return pred
  | none => refuseTree (.noHeaderPred scope)

/-- The register of a loop's header predicate inside the loop. -/
def headerReg (plan : Plan) (scope : ScopeId) : Outcome PReg := do
  let header := (← plan.tree.get scope).header
  plan.useReg scope header (← plan.headerPred scope)

def loadReg (plan : Plan) (alloc : ScopeAllocation) (block : BlockId) (pred : PredId) : Outcome PReg :=
  match alloc.useReg block pred with
  | some index => plan.preg index
  | none => refuse (.missingUse block pred)

def loadCode (plan : Plan) (reg : PReg) (location : Nat) : Except Fault (List Inst) := do
  let (cell, bit) ← plan.frame.stackBit location
  return [.loadCell plan.guards cell, .testBit reg plan.guards bit]

def spillCode (plan : Plan) (reg : PReg) (location : Nat) : Except Fault (List Inst) := do
  let (cell, bit) ← plan.frame.stackBit location
  return [.loadCell plan.guards cell, .copyBit .always plan.guards plan.guards bit (.holds reg),
    .storeCell cell plan.guards]

/-- If the guard holds, a bit of the cell takes the value of the condition. -/
def bitDefCode (plan : Plan) (cell : CellId) (bit : Nat) (guard : PReg) (cond : Cond) : List Inst :=
  [.loadCell plan.guards cell, .copyBit (.holds guard) plan.guards plan.guards bit cond,
    .storeCell cell plan.guards]

def clearBitsCode (plan : Plan) (cell : CellId) (mask : UInt32) : List Inst :=
  [.loadCell plan.guards cell, .andImm plan.guards plan.guards (~~~ mask), .storeCell cell plan.guards]

end Plan

end SinglePath
