import SinglePath.Fault
import SinglePath.Index
import SinglePath.Register

/-!
The instruction set: a guard, an operation, and a mark for the code that sets up and tears down the stack
frame. Arithmetic wraps at 32 bits and comparisons are signed.
-/

namespace SinglePath

inductive BinOp where
  | add | sub | mul | and | or | xor | shl | shr
deriving DecidableEq, Repr

/-- A shift uses the low five bits of its amount. -/
def BinOp.eval : BinOp → UInt32 → UInt32 → UInt32
  | .add, left, right => left + right
  | .sub, left, right => left - right
  | .mul, left, right => left * right
  | .and, left, right => left &&& right
  | .or, left, right => left ||| right
  | .xor, left, right => left ^^^ right
  | .shl, left, right => left <<< (right &&& 31)
  | .shr, left, right => left >>> (right &&& 31)

inductive CmpOp where
  | lt | le | eq | ne
deriving DecidableEq, Repr

/-- Words are compared as signed numbers. -/
def CmpOp.eval : CmpOp → UInt32 → UInt32 → Bool
  | .lt, left, right => decide (left.toInt32 < right.toInt32)
  | .le, left, right => decide (left.toInt32 ≤ right.toInt32)
  | .eq, left, right => left == right
  | .ne, left, right => left != right

inductive Addr where
  /-- A frame cell, before the frame is laid out. -/
  | frame (cell : CellId)
  /-- A byte offset into the stack frame. -/
  | stack (offset : Int)
  /-- The word of data memory at the base register plus the offset. -/
  | memory (base : GReg) (offset : UInt32)
deriving DecidableEq, Repr

inductive Op where
  | imm (dst : GReg) (value : UInt32)
  | copy (dst src : GReg)
  | binary (op : BinOp) (dst lhs rhs : GReg)
  | binaryImm (op : BinOp) (dst lhs : GReg) (value : UInt32)
  | compare (op : CmpOp) (dst : PReg) (lhs rhs : GReg)
  | predAnd (dst : PReg) (a b : Cond)
  | predOr (dst : PReg) (a b : Cond)
  | predMove (dst : PReg) (src : Cond)
  | predClear (dst : PReg)
  | testBit (dst : PReg) (src : GReg) (bit : Nat)
  | copyBit (dst src : GReg) (bit : Nat) (cond : Cond)
  | load (dst : GReg) (addr : Addr)
  | store (addr : Addr) (src : GReg)
  | fromSpecial (dst : GReg) (special : SpecialReg)
  | toSpecial (special : SpecialReg) (src : GReg)
  | print (reg : GReg)
  | call (callee : UInt32)
  | reserve (words : Nat)
  | free (words : Nat)
  | branch (target : BlockId)
  | ret (reg : GReg)
deriving DecidableEq, Repr

/-- An instruction takes effect if its guard holds. -/
structure Inst where
  guard : Cond := .always
  frameSetup : Bool := false
  op : Op
deriving DecidableEq, Repr

namespace Inst

def plain (op : Op) : Inst := { op := op }

def setup (op : Op) : Inst := { op := op, frameSetup := true }

def withGuard (inst : Inst) (guard : Cond) : Inst := { inst with guard := guard }

def isCall (inst : Inst) : Bool :=
  match inst.op with
  | .call _ => true
  | _ => false

def isReturn (inst : Inst) : Bool :=
  match inst.op with
  | .ret _ => true
  | _ => false

def branchTarget (inst : Inst) : Option BlockId :=
  match inst.op with
  | .branch target => some target
  | _ => none

def isBranch (inst : Inst) : Bool := inst.branchTarget.isSome

def isStackControl (inst : Inst) : Bool :=
  match inst.op with
  | .reserve _ => true
  | .free _ => true
  | _ => false

/-- Calls, returns and stack control run whatever the guard. -/
def isPredicable (inst : Inst) : Bool := !(inst.isCall || inst.isReturn || inst.isStackControl)

def isTerminator (inst : Inst) : Bool := inst.isBranch || inst.isReturn

/-- Only a branch has a target to replace. -/
def withTarget (inst : Inst) (target : BlockId) : Inst :=
  match inst.op with
  | .branch _ => { inst with op := .branch target }
  | _ => inst

end Inst

/-- A frame cell has this many bytes. -/
def cellBytes : Int := 4

/-- The number of a cell is a 32-bit word, and its byte offset a signed one. -/
def CellId.offset (cell : CellId) : Except Fault Int :=
  let offset := Int.bmod cell.index 0x100000000 * cellBytes
  if cell.index < 0x100000000 ∧ -0x80000000 ≤ offset ∧ offset < 0x80000000 then .ok offset else .error .overflow

end SinglePath
