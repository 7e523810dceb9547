import SinglePath.Program.Builder

/-!
Programs drawn from a string of bytes. Every draw takes the next bytes, and bytes past the end read as zero. The
statements are structured and every loop counts up to a limit, in registers that no other instruction writes, so
the number of iterations is known.
-/

namespace SinglePath

namespace Generator

/-- The bytes still to be drawn and the number of statements that may still be made. -/
structure Source where
  bytes : List UInt8
  budget : Nat := 0

abbrev Draw := StateM Source

def dataRegs : Nat := 8
def maxLoopDepth : Nat := 3
def maxIfDepth : Nat := 4
def maxTrips : Nat := 5
def memoryWords : Nat := 64

def byte : Draw Nat := fun source =>
  match source.bytes with
  | [] => (0, source)
  | first :: rest => (first.toNat, { source with bytes := rest })

/-- Four bytes, the lowest first. -/
def word : Draw Nat := do
  let first ← byte
  let second ← byte
  let third ← byte
  let fourth ← byte
  return first + 256 * second + 65536 * third + 16777216 * fourth

/-- A word chooses among the items in proportion to its size. -/
def pick {α : Type} (items : List α) (other : α) : Draw α := do
  return (items[(← word) * items.length / 0x100000000]?).getD other

def binOp : Draw BinOp := pick [.add, .sub, .mul, .and, .or, .xor, .shl, .shr] .add

def cmpOp : Draw CmpOp := pick [.lt, .le, .eq, .ne] .lt

/-- How deep the cursor is inside loops and conditionals. -/
structure Nesting where
  loops : Nat := 0
  ifs : Nat := 0

def counterReg (nesting : Nesting) : GReg := ⟨10 + nesting.loops⟩

def limitReg (nesting : Nesting) : GReg := ⟨16 + nesting.loops⟩

def dataReg : Draw GReg := do return ⟨1 + (← byte) % dataRegs⟩

/-- A source is zero, the counter of the innermost loop, or a data register. -/
def sourceReg (nesting : Nesting) : Draw GReg := do
  let choice := (← byte) % 4
  if choice = 0 then
    return GReg.zero
  else if choice = 1 && 0 < nesting.loops then
    return ⟨10 + nesting.loops - 1⟩
  else
    dataReg

def memoryOffset : Draw UInt32 := do return UInt32.ofNat ((← word) % memoryWords)

def simpleInst (nesting : Nesting) : Draw Inst := do
  match (← byte) % 9 with
  | 0 => return .plain (.imm (← dataReg) (UInt32.ofNat (← word)))
  | 1 => return .plain (.copy (← dataReg) (← sourceReg nesting))
  | 2 => return .plain (.binary (← binOp) (← dataReg) (← sourceReg nesting) (← sourceReg nesting))
  | 3 => return .plain (.binaryImm (← binOp) (← dataReg) (← sourceReg nesting) (UInt32.ofNat ((← word) % 64)))
  | 4 => return .plain (.print (← sourceReg nesting))
  | 5 => return .plain (.store (.memory GReg.zero (← memoryOffset)) (← sourceReg nesting))
  | 6 => return .plain (.load (← dataReg) (.memory GReg.zero (← memoryOffset)))
  | 7 => return .plain (.call (UInt32.ofNat (← byte)))
  | _ => return .plain (.print ⟨9⟩)

def simpleInsts (nesting : Nesting) : Nat → Draw (List Inst)
  | 0 => pure []
  | count + 1 => do return (← simpleInst nesting) :: (← simpleInsts nesting count)

def test (nesting : Nesting) : Draw Test := do
  return ⟨← cmpOp, ← sourceReg nesting, ← sourceReg nesting⟩

/-- A bound is the exact number of header runs with some slack, or unknown. -/
def bound (runs : Nat) : Draw (Option UInt32) := do
  match (← byte) % 4 with
  | 0 => return none
  | slack + 1 => return some (UInt32.ofNat (runs + slack))

/-- The counter starts at zero and the limit is the number of iterations. -/
def countUpTo (nesting : Nesting) (trips : Nat) : List Stmt :=
  [.simple (.plain (.imm (counterReg nesting) 0)),
    .simple (.plain (.imm (limitReg nesting) (UInt32.ofNat trips)))]

def increment (nesting : Nesting) : Inst :=
  .plain (.binaryImm .add (counterReg nesting) (counterReg nesting) 1)

def conditional (inner : Nesting → Draw (List Stmt)) (nesting : Nesting) : Draw (List Stmt) := do
  let test ← test nesting
  let deeper := { nesting with ifs := nesting.ifs + 1 }
  let thenPart ← inner deeper
  let elsePart ← inner deeper
  return [.ifThenElse test thenPart elsePart]

/-- The header of a loop with its test before the body runs once more than the body. -/
def whileLoop (inner : Nesting → Draw (List Stmt)) (nesting : Nesting) : Draw (List Stmt) := do
  let trips := (← byte) % (maxTrips + 1)
  let bound ← bound (trips + 1)
  let body ← inner { nesting with loops := nesting.loops + 1 }
  return countUpTo nesting trips ++
    [.whileDo ⟨.lt, counterReg nesting, limitReg nesting⟩ bound (body ++ [.simple (increment nesting)])]

def repeatLoop (nesting : Nesting) : Draw (List Stmt) := do
  let trips := 1 + (← byte) % maxTrips
  let bound ← bound trips
  let body ← simpleInsts { nesting with loops := nesting.loops + 1 } ((← byte) % 4)
  return countUpTo nesting trips ++
    [.repeatUntil (body ++ [increment nesting]) ⟨.le, limitReg nesting, counterReg nesting⟩ bound]

/-- One statement and what must stand before it; at the limits of nesting it is an instruction. -/
def statement (inner : Nesting → Draw (List Stmt)) (nesting : Nesting) : Draw (List Stmt) := do
  let kind := (← byte) % 10
  if (kind = 6 || kind = 7) && nesting.ifs < maxIfDepth then
    conditional inner nesting
  else if kind = 8 && nesting.loops < maxLoopDepth then
    whileLoop inner nesting
  else if kind = 9 && nesting.loops < maxLoopDepth then
    repeatLoop nesting
  else
    return [.simple (← simpleInst nesting)]

/-- Statements up to a number and within the budget. -/
def repeated (one : Draw (List Stmt)) : Nat → Draw (List Stmt)
  | 0 => pure []
  | count + 1 => do
      let source ← get
      if source.budget = 0 then
        return []
      else
        set { source with budget := source.budget - 1 }
        let first ← one
        return first ++ (← repeated one count)

/-- A list of statements, with room for the given number of levels inside it. -/
def statements : Nat → Nat → Nesting → Draw (List Stmt)
  | 0, most, nesting => do repeated (statement (fun _ => pure []) nesting) ((← byte) % max most 1)
  | room + 1, most, nesting => do
      repeated (statement (statements room (most / 2 + 1)) nesting) ((← byte) % max most 1)

def draw : Draw (Bool × List Stmt × GReg) := do
  let budget := 1 + (← byte)
  modify fun source => { source with budget := budget }
  let isRegion := (← byte) % 2 = 1
  let stmts ← statements (maxIfDepth + maxLoopDepth) 16 {}
  return (isRegion, stmts, ← dataReg)

def program (bytes : List UInt8) : Except Fault Program :=
  let ((isRegion, stmts, result), _) := draw { bytes := bytes }
  let builder := Builder.start "funk"
  (if isRegion then builder.asRegion else builder).finish stmts result

/-- With this many predicate registers one is left to allocate beside the condition register, the temporary and the
constant. -/
def minPredCount : Nat := condReg.index + 3

end Generator

end SinglePath
