import SinglePath.CellSet
import SinglePath.Func.Traversal
import SinglePath.Table

/-!
Redundant loads. A forward analysis keeps the cells whose content the guards register holds on every path. A
block without predecessors starts with none, and a predecessor that was not yet reached counts as none. The sets
only grow from round to round, so there are at most as many rounds as blocks times tracked cells.
-/

namespace SinglePath

namespace CellFlow

/-- A set of cells for each block that was reached. -/
abbrev Facts := Table BlockId CellSet

/-- A load into the register, or a store from it, makes it hold that cell alone. A call or any other definition
of the register leaves no cell, and a write to a cell takes that cell away. -/
def transferAvailable (guards : GReg) (tracked : CellSet) (available : CellSet) (inst : Inst) : CellSet :=
  let loaded := inst.cellLoad.filter (·.1 = guards)
  let stored := inst.cellStore.filter fun store => store.2 = guards && tracked.contains store.1
  match loaded, stored with
  | some (_, cell), _ => if tracked.contains cell then .unit cell else .empty
  | none, some (cell, _) => .unit cell
  | none, none =>
    if inst.isCall || inst.writesReg guards then
      .empty
    else
      match inst.writesCell with
      | some cell => available.erase cell
      | none => available

/-- What holds at the start of a block: what holds at the end of all its predecessors. -/
def availableIn (outs : Facts) (block : Block) : CellSet :=
  match block.preds with
  | [] => .empty
  | first :: rest =>
    rest.foldl (fun available pred =>
      match outs.get? pred with
      | some out => available.inter out
      | none => .empty) ((outs.get? first).getD .empty)

def availableOut (guards : GReg) (tracked : CellSet) (outs : Facts) (block : Block) : CellSet :=
  block.insts.foldl (transferAvailable guards tracked) (availableIn outs block)

/-- A block's set is replaced if it changed; the flag says whether any did. -/
def record (facts : Facts) (block : BlockId) (set : CellSet) (changed : Bool) : Facts × Bool :=
  if (facts.get? block).any (·.equals set) then (facts, changed) else (facts.insert block set, true)

/-- One round over the blocks in order, each seeing the results of those before it. -/
def availableRound (guards : GReg) (tracked : CellSet) (blocks : List (BlockId × Block)) (outs : Facts) :
    Facts × Bool :=
  blocks.foldl (fun state entry =>
    record state.1 entry.1 (availableOut guards tracked state.1 entry.2) state.2) (outs, false)

/-- Rounds are repeated until one of them changes nothing. -/
def iterate (round : Facts → Facts × Bool) : Nat → Facts → Facts
  | 0, facts => facts
  | rounds + 1, facts =>
    let (next, changed) := round facts
    if changed then iterate round rounds next else next

/-- Enough rounds for any analysis of the blocks over the tracked cells. -/
def roundBound (blocks : List (BlockId × Block)) (tracked : CellSet) : Nat :=
  blocks.length * (tracked.size + 1) + 1

def isRedundantLoad (guards : GReg) (tracked available : CellSet) (inst : Inst) : Bool :=
  match inst.cellLoad with
  | some (dst, cell) => dst = guards && tracked.contains cell && available.contains cell
  | none => false

/-- The instructions that are left when loads of held cells are dropped. -/
def keepLoads (guards : GReg) (tracked : CellSet) : CellSet → List Inst → List Inst
  | _, [] => []
  | available, inst :: rest =>
    let kept := keepLoads guards tracked (transferAvailable guards tracked available inst) rest
    if isRedundantLoad guards tracked available inst then kept else inst :: kept

end CellFlow

namespace Func

def blocksOf (func : Func) (order : List BlockId) : Except Fault (List (BlockId × Block)) :=
  order.mapM fun block => do return (block, ← func.get block)

/-- Replace the instructions of the named blocks, and count how many are gone. -/
def shrink (func : Func) (blocks : List (BlockId × Block)) (keep : Block → List Inst) : Nat × Func :=
  blocks.foldl (fun state entry =>
    let kept := keep entry.2
    (state.1 + (entry.2.insts.length - kept.length),
      state.2.modify entry.1 fun content => { content with insts := kept })) (0, func)

/-- The cells that the guards register holds at the end of each block. -/
def availableCells (guards : GReg) (tracked : CellSet) (blocks : List (BlockId × Block)) : CellFlow.Facts :=
  CellFlow.iterate (CellFlow.availableRound guards tracked blocks) (CellFlow.roundBound blocks tracked) Table.empty

/-- Drop unguarded loads into the guards register of a cell that it already holds. -/
def dropRedundantLoads (func : Func) (guards : GReg) (cells : List CellId) : Except Fault (Nat × Func) := do
  let tracked := CellSet.ofList cells
  let blocks ← func.blocksOf (← func.reversePostorder)
  let outs := availableCells guards tracked blocks
  return func.shrink blocks fun block =>
    CellFlow.keepLoads guards tracked (CellFlow.availableIn outs block) block.insts

end Func

end SinglePath
