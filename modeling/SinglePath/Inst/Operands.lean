import SinglePath.Inst.Basic

/-!
What an operation reads and writes: conditions, predicate registers, general registers and frame cells. Every
question about the operands of an instruction is answered from these few views.
-/

namespace SinglePath

namespace Op

/-- The conditions that the operation itself reads, apart from its guard. -/
def condReads : Op → List Cond
  | .predAnd _ a b => [a, b]
  | .predOr _ a b => [a, b]
  | .predMove _ src => [src]
  | .copyBit _ _ _ cond => [cond]
  | _ => []

def predWrite : Op → Option PReg
  | .compare _ dst _ _ => some dst
  | .predAnd dst _ _ => some dst
  | .predOr dst _ _ => some dst
  | .predMove dst _ => some dst
  | .predClear dst => some dst
  | .testBit dst _ _ => some dst
  | _ => none

def regReads : Op → List GReg
  | .copy _ src => [src]
  | .binary _ _ lhs rhs => [lhs, rhs]
  | .binaryImm _ _ lhs _ => [lhs]
  | .compare _ _ lhs rhs => [lhs, rhs]
  | .testBit _ src _ => [src]
  | .copyBit _ src _ _ => [src]
  | .load _ (.memory base _) => [base]
  | .store (.memory base _) src => [src, base]
  | .store _ src => [src]
  | .toSpecial _ src => [src]
  | .print reg => [reg]
  | .ret reg => [reg]
  | _ => []

def regWrite : Op → Option GReg
  | .imm dst _ => some dst
  | .copy dst _ => some dst
  | .binary _ dst _ _ => some dst
  | .binaryImm _ dst _ _ => some dst
  | .copyBit dst _ _ _ => some dst
  | .load dst _ => some dst
  | .fromSpecial dst _ => some dst
  | _ => none

def mapConds (change : Cond → Cond) : Op → Op
  | .predAnd dst a b => .predAnd dst (change a) (change b)
  | .predOr dst a b => .predOr dst (change a) (change b)
  | .predMove dst src => .predMove dst (change src)
  | .copyBit dst src bit cond => .copyBit dst src bit (change cond)
  | op => op

/-- A frame cell operand becomes the byte offset of the cell. -/
def resolve : Op → Except Fault Op
  | .load dst (.frame cell) => do return .load dst (.stack (← cell.offset))
  | .store (.frame cell) src => do return .store (.stack (← cell.offset)) src
  | op => .ok op

end Op

namespace Inst

/-- An instruction reads the register of its guard, unless that is the constant, and of its conditions. -/
def readsPred (inst : Inst) (reg : PReg) : Bool :=
  (!inst.guard.isAlways && inst.guard.reg == reg) || inst.op.condReads.any (·.reg == reg)

def writesPred (inst : Inst) (reg : PReg) : Bool := inst.op.predWrite == some reg

def mentionsPred (inst : Inst) (reg : PReg) : Bool := inst.readsPred reg || inst.writesPred reg

def readsReg (inst : Inst) (reg : GReg) : Bool := inst.op.regReads.contains reg

def writesReg (inst : Inst) (reg : GReg) : Bool := inst.op.regWrite == some reg

/-- Every read of the register gets the kill flag. -/
def withKill (inst : Inst) (reg : PReg) (kill : Bool) : Inst :=
  { inst with
    guard := inst.guard.withKill reg kill
    op := inst.op.mapConds (·.withKill reg kill) }

def fromSpecial? (inst : Inst) : Option (GReg × SpecialReg) :=
  match inst.op with
  | .fromSpecial dst special => some (dst, special)
  | _ => none

def toSpecial? (inst : Inst) : Option (SpecialReg × GReg) :=
  match inst.op with
  | .toSpecial special src => some (special, src)
  | _ => none

/-- Any load of a frame cell, guarded or not. -/
def readsCell (inst : Inst) : Option CellId :=
  match inst.op with
  | .load _ (.frame cell) => some cell
  | _ => none

/-- Any store to a frame cell, guarded or not. -/
def writesCell (inst : Inst) : Option CellId :=
  match inst.op with
  | .store (.frame cell) _ => some cell
  | _ => none

/-- An unguarded load of a frame cell. -/
def cellLoad (inst : Inst) : Option (GReg × CellId) :=
  match inst.op with
  | .load dst (.frame cell) => if inst.guard.isAlways then some (dst, cell) else none
  | _ => none

/-- An unguarded store to a frame cell. -/
def cellStore (inst : Inst) : Option (CellId × GReg) :=
  match inst.op with
  | .store (.frame cell) src => if inst.guard.isAlways then some (cell, src) else none
  | _ => none

def resolve (inst : Inst) : Except Fault Inst := do
  return { inst with op := ← inst.op.resolve }

end Inst

end SinglePath
