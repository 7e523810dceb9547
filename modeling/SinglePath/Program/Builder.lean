import SinglePath.Program.Statement

/-!
From statements to a function and its scope tree. Statements are added at a cursor: a scope, a block and the
predicate of that block. A conditional leaves the cursor at the join of its branches, under the predicate it
started with; a loop leaves it at a new block under the predicate of the loop's exit.
-/

namespace SinglePath

structure Program where
  func : Func
  tree : ScopeTree
deriving DecidableEq, Repr

/-- The program built so far and the place where the next statement goes. -/
structure Builder where
  func : Func
  tree : ScopeTree
  scope : ScopeId
  depth : Nat
  block : BlockId
  pred : PredId

namespace Builder

/-- The frame of a built program has this many words. -/
def frameWords : Nat := 4

def start (name : String) : Builder :=
  let (entry, func) := ({ name := name } : Func).addBlock "entry" (prologue frameWords)
  { func := func, tree := .single entry, scope := ScopeTree.root, depth := 0, block := entry, pred := ⟨0⟩ }

/-- The program gets a frame cell for its own use. -/
def newCell (builder : Builder) : Except Fault (CellId × Builder) := do
  let (cell, func) ← builder.func.newCell
  return (cell, { builder with func := func })

/-- The program runs as a region whose guard arrives in a register. -/
def asRegion (builder : Builder) : Builder := { builder with tree := builder.tree.asRegion }

def push (builder : Builder) (block : BlockId) (insts : List Inst) : Builder :=
  { builder with func := builder.func.modify block (·.append insts) }

def newPred (builder : Builder) : PredId × Builder :=
  let (pred, tree) := builder.tree.newPred
  (pred, { builder with tree := tree })

/-- A new block under a predicate, which belongs to no scope yet. -/
def addBlock (builder : Builder) (pred : PredId) : BlockId × Builder :=
  let (block, func) := builder.func.addBlock ("b" ++ toString builder.func.blocks.length) []
  (block, { builder with func := func, tree := builder.tree.setBlockPred block pred })

def addMember (builder : Builder) (scope : ScopeId) (pred : PredId) : BlockId × Builder :=
  let (block, builder) := builder.addBlock pred
  (block, { builder with tree := builder.tree.addNode scope (.block block) })

def addDef (builder : Builder) (scope : ScopeId) (definition : PredDef) : Builder :=
  { builder with tree := builder.tree.pushDef scope definition }

def moveTo (builder : Builder) (block : BlockId) (pred : PredId) : Builder :=
  { builder with block := block, pred := pred }

/-- A new block under a new predicate, which a branch of the source on the condition defines. -/
def openBranch (builder : Builder) (source : BlockId) (guard : PredId) (cond : Cond) : BlockId × Builder :=
  let (pred, builder) := builder.newPred
  let (block, builder) := builder.addMember builder.scope pred
  let builder := builder.addDef builder.scope ⟨pred, guard, source, block, some cond⟩
  (block, builder.moveTo block pred)

/-- Jump from the current block into a new loop, and leave the cursor there. -/
def openLoop (builder : Builder) (bound : Option UInt32) : Builder :=
  let (pred, builder) := builder.newPred
  let (header, builder) := builder.addBlock pred
  let builder := builder.addDef builder.scope ⟨pred, builder.pred, builder.block, header, none⟩
  let builder := builder.push builder.block [.plain (.branch header)]
  let (loop, tree) := builder.tree.openLoop builder.scope builder.depth header bound
  { builder with tree := tree, scope := loop, depth := builder.depth + 1, block := header, pred := pred }

/-- Leave a loop from its header to a new block of the scope around it. -/
def leaveLoop (builder : Builder) (scope : ScopeId) (depth : Nat) (header : BlockId) (guard : PredId) (cond : Cond) :
    Builder :=
  let builder := { builder with scope := scope, depth := depth }
  (builder.openBranch header guard cond).2

def addRepeat (builder : Builder) (body : List Inst) (test : Test) (bound : Option UInt32) : Builder :=
  let outer := builder.scope
  let depth := builder.depth
  let builder := builder.openLoop bound
  let header := builder.block
  let guard := builder.pred
  let builder := builder.push header (body ++ [test.inst])
  let builder := builder.addDef builder.scope ⟨guard, guard, header, header, some (.fails condReg)⟩
  let builder := builder.leaveLoop outer depth header guard (.holds condReg)
  builder.push header [.branchIf (.fails condReg) header, .plain (.branch builder.block)]

mutual

def add (builder : Builder) : Stmt → Builder
  | .simple inst => builder.push builder.block [inst]
  | .ifThenElse test thenPart elsePart =>
    let source := builder.block
    let guard := builder.pred
    let builder := builder.push source [test.inst]
    let (thenBlock, builder) := builder.openBranch source guard (.holds condReg)
    let builder := builder.addAll thenPart
    let thenExit := builder.block
    let (elseBlock, builder) := builder.openBranch source guard (.fails condReg)
    let builder := builder.addAll elsePart
    let elseExit := builder.block
    let (join, builder) := builder.addMember builder.scope guard
    let builder := builder.push source [.branchIf (.fails condReg) elseBlock, .plain (.branch thenBlock)]
    let builder := builder.push thenExit [.plain (.branch join)]
    let builder := builder.push elseExit [.plain (.branch join)]
    builder.moveTo join guard
  | .whileDo test bound body =>
    let outer := builder.scope
    let depth := builder.depth
    let builder := builder.openLoop bound
    let header := builder.block
    let guard := builder.pred
    let builder := builder.push header [test.inst]
    let (bodyBlock, builder) := builder.openBranch header guard (.holds condReg)
    let builder := builder.addAll body
    let builder := builder.push builder.block [.plain (.branch header)]
    let builder := builder.addDef builder.scope ⟨guard, builder.pred, builder.block, header, none⟩
    let builder := builder.leaveLoop outer depth header guard (.fails condReg)
    builder.push header [.branchIf (.fails condReg) builder.block, .plain (.branch bodyBlock)]
  | .repeatUntil body test bound => builder.addRepeat body test bound

def addAll (builder : Builder) : List Stmt → Builder
  | [] => builder
  | stmt :: rest => (builder.add stmt).addAll rest

end

/-- Every block takes the condition register as live on entry. -/
def declareLive (func : Func) : Func :=
  func.layout.foldl (fun func block => func.modify block fun content => { content with liveIns := [condReg] }) func

/-- Add the statements, return the register, and derive the edges. -/
def finish (builder : Builder) (stmts : List Stmt) (result : GReg) : Except Fault Program := do
  let builder := builder.addAll stmts
  let builder := builder.push builder.block (epilogue frameWords result)
  let func ← builder.func.deriveEdges
  return ⟨declareLive func, builder.tree⟩

end Builder

end SinglePath
