import SinglePath.Func.Traversal

/-!
Merging of chains: a block whose only predecessor is the block before it becomes part of that block. A block that
ends in a loop's branch back takes nothing more.
-/

namespace SinglePath

namespace Func

/-- The edges of a block become edges of another block. -/
def moveSuccs (func : Func) (block base : BlockId) : List BlockId → Except Fault Func
  | [] => .ok func
  | succ :: rest => do
      let func ← func.removeEdge block succ
      let func ← func.addEdge base succ
      func.moveSuccs block base rest

/-- The block's code goes to the end of the base, its edges go to the base, and the block is erased. -/
def splice (func : Func) (base block : BlockId) : Except Fault Func := do
  let content ← func.get block
  let func ← func.update base (·.append content.insts)
  let func ← func.removeEdge base block
  let func ← func.moveSuccs block base (← func.get block).succs
  func.erase block

/-- The blocks are met in preorder. Each is spliced into the base if that is its only predecessor, and becomes the
base otherwise. After a base with two successors the next block starts afresh. -/
def mergeFrom (base : BlockId) : List BlockId → Func → Except Fault Func
  | [], func => .ok func
  | block :: rest, func => do
      if (← func.get block).preds = [base] then
        let func ← func.splice base block
        if 1 < (← func.get base).succs.length then
          match rest with
          | [] => return func
          | fresh :: later => mergeFrom fresh later func
        else
          mergeFrom base rest func
      else
        mergeFrom block rest func

def merge (func : Func) : Except Fault Func := do
  match ← func.preorder with
  | [] => return func
  | base :: rest => mergeFrom base rest func

end Func

end SinglePath
