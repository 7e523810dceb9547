import SinglePath.Plan
import SinglePath.Work

/-!
Code for the definitions of predicates. A first definition computes guard and condition; a further one, and one
on the exit of a loop, writes the condition only if its guard holds. On the exit of a loop that saves the bank the
value goes into the saved bank. The definitions that leave one block stand before its terminators; one that
overwrites its own guard comes last.
-/

namespace SinglePath

/-- The code of a definition, and whether it overwrites the register that guards it. -/
structure PendingDef where
  code : List Inst
  selfGuarded : Bool
deriving DecidableEq, Repr

/-- The definitions of each block in the order in which they were made, and the conditions that lost their kill
flag to one of them. -/
structure PendingDefs where
  defs : Table BlockId (List PendingDef) := Table.empty
  killed : List (BlockId × PReg) := []

namespace PendingDefs

def add (pending : PendingDefs) (block : BlockId) (definition : PendingDef) : PendingDefs :=
  { pending with defs := pending.defs.alter block fun found => found.getD [] ++ [definition] }

def addKilled (pending : PendingDefs) (block : BlockId) (cond : Cond) : PendingDefs :=
  if cond.kill then { pending with killed := pending.killed ++ [(block, cond.reg)] } else pending

/-- The code of a block's definitions; those that overwrite their own guard come last. -/
def code (definitions : List PendingDef) : List Inst :=
  ((definitions.filter (!·.selfGuarded)) ++ definitions.filter (·.selfGuarded)).flatMap (·.code)

end PendingDefs

namespace Plan

def registerDef (plan : Plan) (alloc : ScopeAllocation) (exited : Option ScopeId) (index : Nat)
    (definition : PredDef) (guard dst : PReg) (cond : Cond) : Outcome PendingDef := do
  let saved ← match exited with
    | some loop => do
        if (← plan.alloc loop).savesBank then
          let cell ← plan.frame.bankCell (← plan.tree.get loop).depth
          pure (some cell)
        else
          pure none
    | none => pure none
  match saved with
  | some cell => return ⟨plan.bitDefCode cell dst.bankBit guard cond, false⟩
  | none =>
    let isFirst := alloc.firstDefs.get? definition.pred = some index
    let inst : Inst := if exited.isSome || !isFirst then .movePred (.holds guard) dst cond
      else .andPreds dst (.holds guard) cond
    return ⟨[inst], dst = guard⟩

def addDef (plan : Plan) (scope : ScopeId) (pending : PendingDefs) (entry : PredDef × Nat) :
    Outcome PendingDefs := do
  let (definition, index) := entry
  let exited ← plan.tree.childWithHeader scope definition.source
  let guard ← plan.useReg (exited.getD scope) definition.source definition.guard
  let cond := definition.cond.getD .always
  let alloc ← plan.alloc scope
  let code ← match alloc.defLoc definition.pred with
    | .register reg => do
        plan.registerDef alloc exited index definition guard (← plan.preg reg) cond.withoutKill
    | .stack location => do
        let (cell, bit) ← (plan.frame.stackBit location : Outcome (CellId × Nat))
        pure ⟨plan.bitDefCode cell bit guard cond.withoutKill, false⟩
    | .always => refuseTree (.alwaysTrueDefined definition.pred)
  return (pending.addKilled definition.source cond).add definition.source code

def addScopeDefs (plan : Plan) (pending : PendingDefs) (scope : ScopeId) : Outcome PendingDefs := do
  let content ← plan.tree.get scope
  content.defs.zipIdx.foldlM (plan.addDef scope) pending

/-- For each predicate word, the bits of the scope's stack predicates. -/
def stackMasks (plan : Plan) (alloc : ScopeAllocation) (headerPred : Option PredId) :
    Except Fault (Table CellId UInt32) :=
  alloc.defLocs.entries.foldlM (fun masks entry => do
    match entry.2 with
    | .stack location =>
      if some entry.1 = headerPred then
        return masks
      else
        let (cell, bit) ← plan.frame.stackBit location
        let mask ← wordBit bit
        return masks.alter cell fun found => found.getD 0 ||| mask
    | _ => return masks) Table.empty

/-- The stack predicates of a scope are false whenever its header is entered. -/
def clearStackBits (plan : Plan) (work : Work) (scope : ScopeId) : Step Work := do
  let content ← work.expect (plan.tree.get scope)
  let alloc ← work.expect (plan.alloc scope)
  let masks ← work.expect (plan.stackMasks alloc (plan.tree.blockPred content.header))
  let code := masks.entries.flatMap fun entry => plan.clearBitsCode entry.1 entry.2
  work.insertCode content.header (fun block => if content.isTopLevel then block.setupLength else 0) code

/-- Make the definitions of a scope, which are placed later, and clear its stack predicates. -/
def defineScope (plan : Plan) (state : PendingDefs × Work) (scope : ScopeId) : Step (PendingDefs × Work) := do
  let (pending, work) := state
  let pending ← work.await (plan.addScopeDefs pending scope)
  return (pending, ← plan.clearStackBits work scope)

/-- Each block gets the code of its definitions before its terminators. -/
def placeDefs (pending : PendingDefs) (work : Work) : Step Work :=
  pending.defs.entries.foldlM (fun work entry =>
    work.insertCode entry.1 Block.terminatorStart (PendingDefs.code entry.2)) work

/-- The last instruction before the position that reads the register marks the end of its life. -/
def killLastReader (insts : List Inst) (position : Nat) (reg : PReg) : List Inst :=
  match (List.range position).reverse.find? fun index => (insts[index]?).any (·.readsPred reg) with
  | some index => insts.modify index (·.withKill reg true)
  | none => insts

/-- A condition that was last read by a terminator is now last read by a definition or an instruction before it. -/
def restoreKills (pending : PendingDefs) (func : Func) : Except Fault Func :=
  pending.killed.foldlM (fun func entry =>
    func.update entry.1 fun content =>
      { content with insts := killLastReader content.insts content.terminatorStart entry.2 }) func

def define (plan : Plan) (work : Work) : Step Work := do
  let (pending, work) ← plan.scopes.foldlM plan.defineScope ({}, work)
  let work ← placeDefs pending work
  work.mapFunc (restoreKills pending)

end Plan

end SinglePath
