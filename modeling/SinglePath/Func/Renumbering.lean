import SinglePath.Func.Basic
import SinglePath.Table

/-!
Compaction of the arena: the blocks of the layout are numbered in code order, all others are dropped, and every
reference to a block follows its new number.
-/

namespace SinglePath

abbrev BlockMap := Table BlockId BlockId

namespace Func

/-- Each laid out block gets its place in the layout as its number. -/
def placement (func : Func) : BlockMap :=
  Table.ofList (func.layout.zipIdx.map fun entry => (entry.1, ⟨entry.2⟩))

def renumberInst (placement : BlockMap) (inst : Inst) : Except Fault Inst :=
  match inst.branchTarget with
  | some target => do return inst.withTarget (← present (placement.get? target))
  | none => .ok inst

def renumberBlock (placement : BlockMap) (block : Block) : Except Fault Block := do
  let insts ← block.insts.mapM (renumberInst placement)
  let succs ← block.succs.mapM fun succ => present (placement.get? succ)
  let preds ← block.preds.mapM fun pred => present (placement.get? pred)
  return { block with insts := insts, succs := succs, preds := preds, erased := false }

def renumber (func : Func) : Except Fault (BlockMap × Func) := do
  let placement := func.placement
  let blocks ← func.layout.mapM fun block => do renumberBlock placement (← func.get block)
  let entry ← present (placement.get? func.entry)
  return (placement, { func with
    blocks := blocks
    layout := (List.range blocks.length).map BlockId.mk
    entry := entry })

/-- Frame cell operands of the laid out blocks become byte offsets. -/
def resolveCells (func : Func) : Except Fault Func :=
  func.layout.foldlM (fun func block => do
    let content ← func.get block
    let insts ← content.insts.mapM Inst.resolve
    return func.modify block fun content => { content with insts := insts }) func

end Func

end SinglePath
