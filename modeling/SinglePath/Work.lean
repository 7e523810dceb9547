import SinglePath.Func.Basic
import SinglePath.Refusal

/-!
A function under reduction, with the counts of what was done to it. A step that stops leaves the work as it stands at
that point, so a failed reduction shows how far it went.
-/

namespace SinglePath

structure Stats where
  removedBranches : Nat := 0
  insertedInsts : Nat := 0
  loopCounters : Nat := 0
  eliminated : Nat := 0
deriving DecidableEq, Repr

structure Work where
  func : Func
  stats : Stats := {}
deriving DecidableEq, Repr

namespace Work

def countInserted (work : Work) (count : Nat) : Work :=
  { work with stats := { work.stats with insertedInsts := work.stats.insertedInsts + count } }

def countCounter (work : Work) : Work :=
  { work with stats := { work.stats with loopCounters := work.stats.loopCounters + 1 } }

def countRemoved (work : Work) (count : Nat) : Work :=
  { work with stats := { work.stats with removedBranches := work.stats.removedBranches + count } }

def countEliminated (work : Work) (count : Nat) : Work :=
  { work with stats := { work.stats with eliminated := work.stats.eliminated + count } }

/-- Add a block with the given code at the end of the layout. -/
def addBlock (work : Work) (name : String) (code : List Inst) : BlockId × Work :=
  let (block, func) := work.func.addBlock name code
  (block, { work with func := func }.countInserted code.length)

def setInsts (work : Work) (block : BlockId) (insts : List Inst) : Work :=
  { work with func := work.func.modify block fun content => { content with insts := insts } }

end Work

/-- Why a step stopped, and the work that it leaves. -/
structure Stopped where
  failure : Failure Refusal
  work : Work

abbrev Step (α : Type) := Except Stopped α

/-- If there is no answer, the step stops and leaves the given work. -/
def Work.await {α : Type} (work : Work) : Outcome α → Step α
  | .ok value => .ok value
  | .error failure => .error ⟨failure, work⟩

/-- A computation that can only fault stops in the same way. -/
def Work.expect {α : Type} (work : Work) (answer : Except Fault α) : Step α := work.await (Failure.ofFault answer)

namespace Work

@[simp] theorem await_ok {α : Type} (work : Work) (value : α) : work.await (.ok value) = .ok value := rfl

@[simp] theorem expect_ok {α : Type} (work : Work) (value : α) : work.expect (.ok value) = .ok value := rfl

/-- Insert code at a position of a block that depends on the block. -/
def insertCode (work : Work) (block : BlockId) (position : Block → Nat) (code : List Inst) : Step Work := do
  let content ← work.expect (work.func.get block)
  let func ← work.expect (work.func.insert block (position content) code)
  return { work with func := func }.countInserted code.length

def appendCode (work : Work) (block : BlockId) (code : List Inst) : Step Work :=
  work.insertCode block (·.insts.length) code

def mapFunc (work : Work) (change : Func → Except Fault Func) : Step Work := do
  return { work with func := ← work.expect (change work.func) }

def eliminate (work : Work) (drop : Func → Except Fault (Nat × Func)) : Step Work := do
  let (count, func) ← work.expect (drop work.func)
  return { work with func := func }.countEliminated count

end Work

end SinglePath
