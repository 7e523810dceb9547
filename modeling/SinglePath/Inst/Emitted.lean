import SinglePath.Inst.Basic

/-!
The instructions that the reduction itself inserts. Those without a guard argument are unconditional.
-/

namespace SinglePath

namespace Inst

def andPreds (dst : PReg) (a b : Cond) : Inst := plain (.predAnd dst a b)

def movePred (guard : Cond) (dst : PReg) (src : Cond) : Inst := (plain (.predMove dst src)).withGuard guard

def clearPred (dst : PReg) : Inst := plain (.predClear dst)

def testBit (dst : PReg) (src : GReg) (bit : Nat) : Inst := plain (.testBit dst src bit)

/-- One bit of the source is replaced by the value of the condition. -/
def copyBit (guard : Cond) (dst src : GReg) (bit : Nat) (cond : Cond) : Inst :=
  (plain (.copyBit dst src bit cond)).withGuard guard

def andImm (dst src : GReg) (value : UInt32) : Inst := plain (.binaryImm .and dst src value)

def loadImm (dst : GReg) (value : UInt32) : Inst := plain (.imm dst value)

def subImm (dst src : GReg) (value : UInt32) : Inst := plain (.binaryImm .sub dst src value)

def less (dst : PReg) (lhs rhs : GReg) : Inst := plain (.compare .lt dst lhs rhs)

def loadCell (dst : GReg) (cell : CellId) : Inst := plain (.load dst (.frame cell))

def storeCell (cell : CellId) (src : GReg) : Inst := plain (.store (.frame cell) src)

def readBank (dst : GReg) : Inst := plain (.fromSpecial dst .bank)

def writeBank (src : GReg) : Inst := plain (.toSpecial .bank src)

def branchIf (cond : Cond) (target : BlockId) : Inst := (plain (.branch target)).withGuard cond

end Inst

end SinglePath
