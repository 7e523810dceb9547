import SinglePath.Plan
import SinglePath.Work

/-!
All blocks in one chain, in the order of the walk. Each loop gets a preheader that brings in its header predicate
and sets its counter, and a branch block with the only branch that is left: the one back to the loop's header. A
loop that saves the bank also gets a postlude that puts the bank back.
-/

namespace SinglePath

namespace Plan

def saveBankCode (plan : Plan) (alloc : ScopeAllocation) (depth : Nat) : Except Fault (List Inst) := do
  if alloc.savesBank then
    return [.readBank plan.guards, .storeCell (← plan.frame.bankCell depth) plan.guards]
  else
    return []

/-- Bring in the header predicate of a loop from where its parent keeps it. -/
def enterPredCode (plan : Plan) (parent scope : ScopeId) (header : BlockId) (pred : PredId) :
    Outcome (List Inst) := do
  let inner ← plan.headerReg scope
  match (← plan.alloc parent).loadLoc header pred with
  | some location => plan.loadCode inner location
  | none =>
    let outer ← plan.useReg parent header pred
    return if outer = inner then [] else [.movePred .always inner (.holds outer)]

/-- The registers of the parent's predicates that are first written on the exits of the loop, each once. -/
def exitRegs (plan : Plan) (parent : ScopeId) (header : BlockId) : Except Fault (List PReg) := do
  let alloc ← plan.alloc parent
  let content ← plan.tree.get parent
  content.defs.zipIdx.foldlM (fun regs entry => do
    let (definition, index) := entry
    if definition.source ≠ header || alloc.firstDefs.get? definition.pred ≠ some index then
      return regs
    match alloc.defLoc definition.pred with
    | .register position =>
      let reg ← plan.preg position
      return if reg ∈ regs then regs else regs ++ [reg]
    | _ => return regs) []

/-- These registers are false until an exit sets them; in a saved bank their bits are. -/
def clearExitsCode (plan : Plan) (alloc : ScopeAllocation) (depth : Nat) (regs : List PReg) :
    Except Fault (List Inst) := do
  if regs.isEmpty then
    return []
  else if alloc.savesBank then
    let mask ← regs.foldlM (fun mask reg => do return mask ||| (← wordBit reg.bankBit)) 0
    return plan.clearBitsCode (← plan.frame.bankCell depth) mask
  else
    return regs.map .clearPred

/-- The counter starts at the loop's bound. -/
def setCounterCode (plan : Plan) (content : Scope) : Except Fault (List Inst) :=
  match content.usableBound with
  | some bound => do
      return [.loadImm plan.guards bound, .storeCell (← plan.frame.counter content.depth) plan.guards]
  | none => .ok []

/-- Load one predicate that was evicted over the edge back. -/
def returnCode (plan : Plan) (alloc : ScopeAllocation) (header : BlockId) (entry : PredId × Nat) :
    Outcome (List Inst) := do
  let reg ← plan.loadReg alloc header entry.1
  plan.loadCode reg entry.2

/-- Predicates that were evicted over the edge back come into their registers again. -/
def reloadCode (plan : Plan) (alloc : ScopeAllocation) (header : BlockId) : Outcome (List Inst) := do
  return (← (alloc.loadsAt header).mapM (plan.returnCode alloc header)).flatten

/-- A loop with a bound goes back while its counter stays positive; any other, while its header predicate holds. -/
def branchCode (plan : Plan) (scope : ScopeId) (content : Scope) : Outcome (List Inst) := do
  match content.usableBound with
  | some _ =>
    let cell ← plan.frame.counter content.depth
    return [.loadCell plan.guards cell, .subImm plan.guards plan.guards 1,
      .less plan.temporary plan.regs.zero plan.guards, .storeCell cell plan.guards,
      .branchIf (.holds plan.temporary) content.header]
  | none => return [.branchIf (.holds (← plan.headerReg scope)) content.header]

/-- The registers of the function itself that are live where the loop exits to, in the order of their numbers. -/
def liveOut (plan : Plan) (func : Func) (scope : ScopeId) : Except Fault (List PReg) := do
  let exits := (plan.facts.exits.get? scope).getD []
  let live ← exits.mapM fun block => do return (← func.get block).liveIns
  let own := live.flatten.filter (· ∈ plan.unavailable)
  return (NumberSet.ofList (own.map (·.index))).members.map PReg.mk

/-- The bank is put back, with the current values of the function's own registers. -/
def postludeCode (plan : Plan) (func : Func) (scope : ScopeId) (content : Scope) : Except Fault (List Inst) := do
  let cell ← plan.frame.bankCell content.depth
  let live ← plan.liveOut func scope
  return [.loadCell plan.guards cell] ++
    (live.map fun reg => .copyBit .always plan.guards plan.guards reg.bankBit (.holds reg)) ++
    [.writeBank plan.guards]

end Plan

/-- The work done so far and the last block of the chain. -/
structure Chain where
  work : Work
  last : Option BlockId := none

namespace Chain

/-- The block follows the last one in the layout, and falling through is its only way out. -/
def next (chain : Chain) (block : BlockId) : Step Chain := do
  let work := chain.work
  let func ← work.expect (work.func.removeSuccs block)
  let (removed, func) ← work.expect (func.removeBranches block)
  let func ← match chain.last with
    | some last => do pure ((← work.expect (func.addEdge last block)).moveAfter block last)
    | none => pure func
  return ⟨{ work with func := func }.countRemoved removed, some block⟩

/-- The name of a block that is made for the loop with the given header. -/
def nameFor (chain : Chain) (header : BlockId) (suffix : String) : Step String := do
  return (← chain.work.expect (chain.work.func.get header)).name ++ suffix

/-- The preheader saves the bank, brings in the header predicate, clears the predicates of the loop's exits and sets
the counter. -/
def enterLoop (plan : Plan) (chain : Chain) (scope : ScopeId) (content : Scope) : Step Chain := do
  let parent := content.parent.getD ScopeTree.root
  let pred ← chain.work.await (plan.headerPred scope)
  let name ← chain.nameFor content.header ".preheader"
  let alloc ← chain.work.expect (plan.alloc scope)
  let save ← chain.work.expect (plan.saveBankCode alloc content.depth)
  let (block, work) := chain.work.addBlock name save
  let enter ← work.await (plan.enterPredCode parent scope content.header pred)
  let regs ← work.expect (plan.exitRegs parent content.header)
  let clear ← work.expect (plan.clearExitsCode alloc content.depth regs)
  let count ← work.expect (plan.setCounterCode content)
  let work ← work.appendCode block (enter ++ clear ++ count)
  let work := if content.usableBound.isSome then work.countCounter else work
  ({ chain with work := work } : Chain).next block

/-- The branch block loads what was evicted over the edge back, and goes back to the header. -/
def addBranch (plan : Plan) (chain : Chain) (scope : ScopeId) (content : Scope) (alloc : ScopeAllocation) :
    Step Chain := do
  let name ← chain.nameFor content.header ".branch"
  let (block, work) := chain.work.addBlock name []
  let chain ← ({ chain with work := work } : Chain).next block
  let work := chain.work
  let work ← work.appendCode block (← work.await (plan.reloadCode alloc content.header))
  let work ← work.appendCode block (← work.await (plan.branchCode scope content))
  let work ← work.mapFunc (·.addEdge block content.header)
  return { chain with work := work }

/-- The postlude puts the bank back. -/
def addPostlude (plan : Plan) (chain : Chain) (scope : ScopeId) (content : Scope) : Step Chain := do
  let name ← chain.nameFor content.header ".postlude"
  let code ← chain.work.expect (plan.postludeCode chain.work.func scope content)
  let (block, work) := chain.work.addBlock name code
  ({ chain with work := work } : Chain).next block

def exitLoop (plan : Plan) (chain : Chain) (scope : ScopeId) (content : Scope) : Step Chain := do
  let alloc ← chain.work.expect (plan.alloc scope)
  let chain ← chain.addBranch plan scope content alloc
  if alloc.savesBank then chain.addPostlude plan scope content else return chain

def extend (plan : Plan) (chain : Chain) : WalkEvent → Step Chain
  | .block id => chain.next id
  | .enter scope => do
      let content ← chain.work.expect (plan.tree.get scope)
      if content.isTopLevel then return chain else chain.enterLoop plan scope content
  | .exit scope => do
      let content ← chain.work.expect (plan.tree.get scope)
      if content.isTopLevel then return chain else chain.exitLoop plan scope content

end Chain

def Plan.linearize (plan : Plan) (work : Work) : Step Work := do
  let events ← work.expect plan.tree.walk
  return (← events.foldlM (Chain.extend plan) ⟨work, none⟩).work

end SinglePath
