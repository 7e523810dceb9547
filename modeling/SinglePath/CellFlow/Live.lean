import SinglePath.CellFlow.Available

/-!
Dead stores. A backward analysis keeps the cells that may still be read. A successor that was not yet reached
counts as reading nothing.
-/

namespace SinglePath

namespace CellFlow

/-- An unguarded store ends the life of its cell; a load, guarded or not, begins it. -/
def transferLive (tracked : CellSet) (inst : Inst) (live : CellSet) : CellSet :=
  let live := match inst.cellStore with
    | some (cell, _) => live.erase cell
    | none => live
  match inst.readsCell with
  | some cell => if tracked.contains cell then live.insert cell else live
  | none => live

/-- What may be read after a block: what may be read from the start of one of its successors. -/
def liveOut (ins : Facts) (block : Block) : CellSet :=
  block.succs.foldl (fun live succ =>
    match ins.get? succ with
    | some set => live.union set
    | none => live) .empty

def liveIn (tracked : CellSet) (ins : Facts) (block : Block) : CellSet :=
  block.insts.foldr (transferLive tracked) (liveOut ins block)

def liveRound (tracked : CellSet) (blocks : List (BlockId × Block)) (ins : Facts) : Facts × Bool :=
  blocks.foldl (fun state entry => record state.1 entry.1 (liveIn tracked state.1 entry.2) state.2) (ins, false)

def isDeadStore (tracked live : CellSet) (inst : Inst) : Bool :=
  match inst.cellStore with
  | some (cell, _) => tracked.contains cell && !live.contains cell
  | none => false

/-- The instructions that are left when stores to dead cells are dropped, and the cells live before them. -/
def keepStores (tracked : CellSet) (live : CellSet) : List Inst → List Inst × CellSet
  | [] => ([], live)
  | inst :: rest =>
    let (kept, after) := keepStores tracked live rest
    (if isDeadStore tracked after inst then kept else inst :: kept, transferLive tracked inst after)

end CellFlow

namespace Func

/-- The cells that may be read from the start of each block. -/
def liveCells (tracked : CellSet) (blocks : List (BlockId × Block)) : CellFlow.Facts :=
  CellFlow.iterate (CellFlow.liveRound tracked blocks) (CellFlow.roundBound blocks tracked) Table.empty

/-- Drop unguarded stores to tracked cells that are not read afterwards. -/
def dropDeadStores (func : Func) (cells : List CellId) : Except Fault (Nat × Func) := do
  let tracked := CellSet.ofList cells
  let blocks ← func.blocksOf (← func.reversePostorder).reverse
  let ins := liveCells tracked blocks
  return func.shrink blocks fun block =>
    (CellFlow.keepStores tracked (CellFlow.liveOut ins block) block.insts).1

end Func

end SinglePath
