import SinglePath.Func.Basic
import SinglePath.Inst.Emitted
import SinglePath.ScopeTree.Basic

/-!
Structured statements: instructions, conditionals, loops with a test before the body, and straight-line loops with
a test after it. A test compares two registers; its result goes to the condition register.
-/

namespace SinglePath

/-- Every test of a statement is computed into this register. -/
def condReg : PReg := ⟨1⟩

/-- The frame setup keeps the return base and the return offset in these registers. -/
def returnBaseSave : GReg := ⟨20⟩
def returnOffsetSave : GReg := ⟨21⟩

structure Test where
  op : CmpOp
  lhs : GReg
  rhs : GReg
deriving DecidableEq, Repr

def Test.inst (test : Test) : Inst := .plain (.compare test.op condReg test.lhs test.rhs)

inductive Stmt where
  | simple (inst : Inst)
  | ifThenElse (test : Test) (thenPart elsePart : List Stmt)
  /-- The header runs at most as often as the bound says. -/
  | whileDo (test : Test) (bound : Option UInt32) (body : List Stmt)
  /-- A loop of one block. -/
  | repeatUntil (body : List Inst) (test : Test) (bound : Option UInt32)

namespace Stmt

/-- The instructions of statements that are nothing more. -/
def straightLine : List Stmt → Except Fault (List Inst)
  | [] => .ok []
  | .simple inst :: rest => do return inst :: (← straightLine rest)
  | _ :: _ => .error .nestedBody

/-- A repeat statement takes a straight-line body only. -/
def repeating (body : List Stmt) (test : Test) (bound : Option UInt32) : Except Fault Stmt := do
  return .repeatUntil (← straightLine body) test bound

end Stmt

/-- Reserve a frame and save the return information. -/
def prologue (words : Nat) : List Inst :=
  [.setup (.reserve words), .setup (.fromSpecial returnBaseSave .returnBase),
    .setup (.fromSpecial returnOffsetSave .returnOffset)]

/-- Restore the return information, free the frame and return the register. -/
def epilogue (words : Nat) (reg : GReg) : List Inst :=
  [.setup (.toSpecial .returnBase returnBaseSave), .setup (.toSpecial .returnOffset returnOffsetSave),
    .setup (.free words), .plain (.ret reg)]

end SinglePath
