import SinglePath.Inst.Operands

/-!
A function is an arena of blocks with explicit edges, and a layout that puts its blocks in code order. An edge
stands in the successors of its source and in the predecessors of its target.
-/

namespace SinglePath

structure Block where
  name : String
  insts : List Inst := []
  succs : List BlockId := []
  preds : List BlockId := []
  liveIns : List PReg := []
  /-- An erased block keeps its number but is no part of the code. -/
  erased : Bool := false
deriving DecidableEq, Repr

namespace Block

/-- The position of the first of the trailing branches and returns. -/
def terminatorStart (block : Block) : Nat :=
  block.insts.length - (block.insts.reverse.takeWhile Inst.isTerminator).length

/-- The number of frame setup instructions at the start of the block. -/
def setupLength (block : Block) : Nat := (block.insts.takeWhile (·.frameSetup)).length

def withoutBranches (block : Block) : Block :=
  { block with insts := (block.insts.reverse.dropWhile Inst.isBranch).reverse }

def trailingBranches (block : Block) : Nat := (block.insts.reverse.takeWhile Inst.isBranch).length

/-- The instructions are placed before the instruction at the position. -/
def insertAt (block : Block) (position : Nat) (insts : List Inst) : Block :=
  { block with insts := block.insts.take position ++ insts ++ block.insts.drop position }

def append (block : Block) (insts : List Inst) : Block := { block with insts := block.insts ++ insts }

def branchTargets (block : Block) : List BlockId := block.insts.filterMap Inst.branchTarget

/-- Control reaches the end of the block unless a branch is always taken or the block ends in a return. -/
def fallsThrough (block : Block) : Bool :=
  !(block.insts.any fun inst => inst.isBranch && inst.guard.isAlways) &&
    !((block.insts.getLast?).any Inst.isReturn)

end Block

structure Func where
  name : String
  blocks : List Block := []
  layout : List BlockId := []
  entry : BlockId := ⟨0⟩
  /-- The cells below this number are in use. -/
  cells : Nat := 0
deriving DecidableEq, Repr

namespace Func

def block? (func : Func) (block : BlockId) : Option Block := func.blocks[block.index]?

/-- The block of that name, which the caller expects to exist. -/
def get (func : Func) (block : BlockId) : Except Fault Block := present (func.block? block)

/-- The named block is changed and every other block stays. -/
def modify (func : Func) (block : BlockId) (change : Block → Block) : Func :=
  { func with blocks := func.blocks.modify block.index change }

def update (func : Func) (block : BlockId) (change : Block → Block) : Except Fault Func := do
  let _ ← func.get block
  return func.modify block change

/-- A new block takes the next number and the last place of the layout. -/
def addBlock (func : Func) (name : String) (insts : List Inst) : BlockId × Func :=
  let block : BlockId := ⟨func.blocks.length⟩
  (block, { func with
    blocks := func.blocks ++ [{ name := name, insts := insts }]
    layout := func.layout ++ [block] })

/-- An edge that is already there is not added again. -/
def addEdge (func : Func) (source target : BlockId) : Except Fault Func := do
  let block ← func.get source
  if target ∈ block.succs then
    return func
  let _ ← func.get target
  return (func.modify source fun block => { block with succs := block.succs ++ [target] }).modify target
    fun block => { block with preds := block.preds ++ [source] }

def removeEdge (func : Func) (source target : BlockId) : Except Fault Func := do
  let _ ← func.get source
  let _ ← func.get target
  return (func.modify source fun block => { block with succs := block.succs.filter (· ≠ target) }).modify target
    fun block => { block with preds := block.preds.filter (· ≠ source) }

def removeSuccs (func : Func) (block : BlockId) : Except Fault Func := do
  let succs := (← func.get block).succs
  succs.foldlM (fun func succ => func.removeEdge block succ) func

def removePreds (func : Func) (block : BlockId) : Except Fault Func := do
  let preds := (← func.get block).preds
  preds.foldlM (fun func pred => func.removeEdge pred block) func

def clearEdges (func : Func) : Func :=
  { func with blocks := func.blocks.map fun block => { block with succs := [], preds := [] } }

/-- The edges that leave one block: its branch targets, and the next block if control reaches the end. -/
def linkBlock (func : Func) (source : BlockId) (next : Option BlockId) : Except Fault Func := do
  let block ← func.get source
  let func ← block.branchTargets.foldlM (fun func target => func.addEdge source target) func
  match next with
  | some target => if block.fallsThrough then func.addEdge source target else return func
  | none => return func

def linkLayout (func : Func) : List BlockId → Except Fault Func
  | [] => .ok func
  | block :: rest => do
      let func ← func.linkBlock block rest.head?
      func.linkLayout rest

/-- All edges are derived afresh from the branch targets and the layout. -/
def deriveEdges (func : Func) : Except Fault Func := func.clearEdges.linkLayout func.layout

def insert (func : Func) (block : BlockId) (position : Nat) (insts : List Inst) : Except Fault Func := do
  let content ← func.get block
  if position ≤ content.insts.length then
    return func.modify block (·.insertAt position insts)
  else
    throw .dangling

/-- The trailing branches of a block are dropped and counted. -/
def removeBranches (func : Func) (block : BlockId) : Except Fault (Nat × Func) := do
  let content ← func.get block
  return (content.trailingBranches, func.modify block Block.withoutBranches)

/-- A block goes directly after another one, and to the end if that one is not laid out. -/
def insertAfter (block after : BlockId) : List BlockId → List BlockId
  | [] => [block]
  | first :: rest => if first = after then first :: block :: rest else first :: insertAfter block after rest

def moveAfter (func : Func) (block after : BlockId) : Func :=
  { func with layout := insertAfter block after (func.layout.filter (· ≠ block)) }

/-- A block leaves the layout and the graph, and its number stays in use. -/
def erase (func : Func) (block : BlockId) : Except Fault Func := do
  let func ← func.removeSuccs block
  let func ← func.removePreds block
  let func := func.modify block fun content => { content with insts := [], erased := true }
  return { func with layout := func.layout.filter (· ≠ block) }

def newCell (func : Func) : Except Fault (CellId × Func) := do
  let cells ← inWord (func.cells + 1)
  return (⟨func.cells⟩, { func with cells := cells })

/-- A live-in register or an instruction of some block that is not erased names the register. -/
def mentionsPred (func : Func) (reg : PReg) : Bool :=
  func.blocks.any fun block =>
    !block.erased && (block.liveIns.contains reg || block.insts.any (·.mentionsPred reg))

def hasCalls (func : Func) : Bool := func.blocks.any fun block => block.insts.any Inst.isCall

/-- The element after the last place of the block in a layout. -/
def nextAfterLast (block : BlockId) : List BlockId → Option BlockId
  | [] => none
  | first :: rest => if first = block ∧ block ∉ rest then rest.head? else nextAfterLast block rest

/-- The block to which control falls from the end of a block. -/
def layoutNext (func : Func) (block : BlockId) : Option BlockId := nextAfterLast block func.layout

end Func

end SinglePath
