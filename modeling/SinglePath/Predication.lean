import SinglePath.Plan
import SinglePath.Work

/-!
Predication: each instruction of a block takes effect only if the block's predicate holds. Code that sets up the
frame and carries return information runs always. A call runs always too; it finds its guard in the temporary
register, and return information is saved around it.
-/

namespace SinglePath

/-- The first instruction after the position that reads the register. -/
def firstReaderAfter (insts : List Inst) (position : Nat) (reg : GReg) : Option Nat :=
  ((insts.drop (position + 1)).findIdx? (·.readsReg reg)).map (· + (position + 1))

/-- The last instruction before the position that writes the register. -/
def lastWriterBefore (insts : List Inst) (position : Nat) (reg : GReg) : Option Nat :=
  (List.range position).reverse.find? fun index => (insts[index]?).any (·.writesReg reg)

/-- A frame setup move of return information, together with the instruction at the other end of its register. -/
def returnInfoAt (insts : List Inst) (inst : Inst) (position : Nat) : List Nat :=
  if !inst.frameSetup then
    []
  else
    match inst.op with
    | .fromSpecial dst special =>
      if special.isReturnInfo then position :: (firstReaderAfter insts position dst).toList else []
    | .toSpecial special src =>
      if special.isReturnInfo then position :: (lastWriterBefore insts position src).toList else []
    | _ => []

/-- The positions of the instructions that carry return information through the frame setup. -/
def returnInfoPositions (insts : List Inst) : NumberSet :=
  NumberSet.ofList (insts.zipIdx.flatMap fun entry => returnInfoAt insts entry.1 entry.2)

/-- The registers and the cell with which the instructions of one block are predicated. -/
structure Predication where
  guard : PReg
  temporary : PReg
  returnInfo : GReg
  callCell : Option CellId

namespace Predication

/-- A call gets its guard in the temporary register and keeps the return information in a cell. -/
def callCode (predication : Predication) (cell : CellId) (inst : Inst) : List Inst :=
  [.movePred .always predication.temporary (.holds predication.guard),
    .storeCell cell predication.returnInfo, inst, .loadCell predication.returnInfo cell]

/-- An instruction with a guard of its own gets the conjunction of both guards in the temporary register. -/
def guardCode (predication : Predication) (inst : Inst) : List Inst :=
  if predication.guard = PReg.zero || !inst.isPredicable then
    [inst]
  else if inst.guard.isAlways then
    [inst.withGuard (.holds predication.guard)]
  else if inst.guard.sameValue (.holds predication.guard) then
    [inst]
  else
    [.andPreds predication.temporary (.holds predication.guard) inst.guard,
      inst.withGuard (.holds predication.temporary)]

def instCode (predication : Predication) (block : BlockId) (inst : Inst) : Outcome (List Inst) :=
  if inst.isCall then
    if !inst.guard.isAlways then
      refuse (.predicatedCall block)
    else
      match predication.callCell with
      | none => refuseTree .noCallCell
      | some cell => .ok (predication.callCode cell inst)
  else
    .ok (predication.guardCode inst)

/-- Terminators, returns, stack control, frame setup and return information stay as they are. -/
def isExempt (content : Block) (returnInfo : NumberSet) (inst : Inst) (position : Nat) : Bool :=
  content.terminatorStart ≤ position || inst.isReturn || inst.isStackControl || inst.frameSetup ||
    returnInfo.contains position

def codeAt (predication : Predication) (block : BlockId) (content : Block) (returnInfo : NumberSet) (position : Nat)
    (inst : Inst) : Outcome (List Inst) :=
  if isExempt content returnInfo inst position then .ok [inst] else predication.instCode block inst

def codeFrom (predication : Predication) (block : BlockId) (content : Block) (returnInfo : NumberSet) :
    Nat → List Inst → Outcome (List Inst)
  | _, [] => .ok []
  | position, inst :: rest => do
      let code ← predication.codeAt block content returnInfo position inst
      return code ++ (← predication.codeFrom block content returnInfo (position + 1) rest)

def blockCode (predication : Predication) (block : BlockId) (content : Block) : Outcome (List Inst) :=
  predication.codeFrom block content (returnInfoPositions content.insts) 0 content.insts

end Predication

namespace Plan

/-- Save what a register holds, if the block spills it before a predicate is loaded. -/
def saveCode (plan : Plan) (alloc : ScopeAllocation) (block : BlockId) (pred : PredId) (reg : PReg) :
    Except Fault (List Inst) :=
  match alloc.spillLoc block pred with
  | some slot => plan.spillCode reg slot
  | none => .ok []

/-- Bring one stack predicate into its register, saving what that register held. -/
def bringCode (plan : Plan) (alloc : ScopeAllocation) (block : BlockId) (entry : PredId × Nat) :
    Outcome (List Inst) := do
  let reg ← plan.loadReg alloc block entry.1
  let spill ← plan.saveCode alloc block entry.1 reg
  let load ← plan.loadCode reg entry.2
  return spill ++ load

/-- At the start of a block, bring its stack predicates into registers. -/
def useCode (plan : Plan) (alloc : ScopeAllocation) (block : BlockId) : Outcome (List Inst) := do
  alloc.checkSpillsAt block
  return (← (alloc.loadsAt block).mapM (plan.bringCode alloc block)).flatten

def blockGuard (plan : Plan) (scope : ScopeId) (block : BlockId) : Outcome PReg :=
  match plan.tree.blockPred block with
  | some pred => plan.useReg scope block pred
  | none => refuseTree (.noPredicate block)

def predication (plan : Plan) (guard : PReg) : Predication :=
  ⟨guard, plan.temporary, plan.regs.returnInfo, plan.frame.callCell⟩

/-- Predicate the instructions of a block. They leave the block while they are changed, and do not come back if one of
them is refused. -/
def predicateInsts (plan : Plan) (guard : PReg) (work : Work) (block : BlockId) : Step Work := do
  let content ← work.expect (work.func.get block)
  let insts ← (work.setInsts block []).await ((plan.predication guard).blockCode block content)
  return (work.setInsts block insts).countInserted (insts.length - content.insts.length)

/-- Load the stack predicates of a block, other than the header, at its start. -/
def addUseCode (plan : Plan) (scope : ScopeId) (header : BlockId) (work : Work) (block : BlockId) : Step Work := do
  let alloc ← work.expect (plan.alloc scope)
  if block ≠ header && alloc.hasSpillOrLoad block then
    work.insertCode block (fun _ => 0) (← work.await (plan.useCode alloc block))
  else
    return work

/-- The header of a region takes its guard from the temporary register. -/
def addEntryCode (plan : Plan) (scope : ScopeId) (header : BlockId) (guard : PReg) (work : Work) (block : BlockId) :
    Step Work := do
  if block = header && (← work.expect (plan.tree.isRegionTop scope)) then
    work.insertCode block Block.setupLength [.movePred .always guard (.holds plan.temporary)]
  else
    return work

def predicateBlock (plan : Plan) (scope : ScopeId) (header : BlockId) (work : Work) (block : BlockId) :
    Step Work := do
  let guard ← work.await (plan.blockGuard scope block)
  let work ← plan.predicateInsts guard work block
  let work ← plan.addUseCode scope header work block
  plan.addEntryCode scope header guard work block

def predicateScope (plan : Plan) (work : Work) (scope : ScopeId) : Step Work := do
  let content ← work.expect (plan.tree.get scope)
  content.blocks.foldlM (plan.predicateBlock scope content.header) work

def predicate (plan : Plan) (work : Work) : Step Work := plan.scopes.foldlM plan.predicateScope work

end Plan

end SinglePath
