/-!
The target has a small file of one-bit predicate registers, whose first is always true, and a file of 32-bit
general registers, whose first is always zero. A condition reads a predicate register, possibly negated.
-/

namespace SinglePath

structure PReg where
  index : Nat
deriving DecidableEq, Repr

structure GReg where
  index : Nat
deriving DecidableEq, Repr

def PReg.zero : PReg := ⟨0⟩

def GReg.zero : GReg := ⟨0⟩

/-- Each predicate register has the bit of its number in the saved bank. -/
def PReg.bankBit (reg : PReg) : Nat := reg.index

def PReg.text (reg : PReg) : String := "p" ++ toString reg.index
def GReg.text (reg : GReg) : String := "r" ++ toString reg.index

/-- The special registers are the predicate bank, the return base and the return offset. -/
inductive SpecialReg where
  | bank
  | returnBase
  | returnOffset
deriving DecidableEq, Repr

/-- The return base and the return offset hold return information. -/
def SpecialReg.isReturnInfo : SpecialReg → Bool
  | .bank => false
  | .returnBase => true
  | .returnOffset => true

def SpecialReg.text : SpecialReg → String
  | .bank => "S0"
  | .returnBase => "Srb"
  | .returnOffset => "Sro"

/-- A condition reads a predicate register. The kill flag marks the last use of that register. -/
structure Cond where
  reg : PReg
  negated : Bool := false
  kill : Bool := false
deriving DecidableEq, Repr

namespace Cond

def always : Cond := ⟨PReg.zero, false, false⟩

def holds (reg : PReg) : Cond := ⟨reg, false, false⟩

def fails (reg : PReg) : Cond := ⟨reg, true, false⟩

def isAlways (cond : Cond) : Bool := cond.reg == PReg.zero && !cond.negated

/-- Two conditions have the same value if they read the same register with the same polarity. -/
def sameValue (cond other : Cond) : Bool := cond.reg == other.reg && cond.negated == other.negated

def withoutKill (cond : Cond) : Cond := { cond with kill := false }

/-- A read of the given register gets the given kill flag. -/
def withKill (cond : Cond) (reg : PReg) (kill : Bool) : Cond :=
  if cond.reg = reg then { cond with kill := kill } else cond

def text (cond : Cond) : String :=
  (if cond.negated then "!" else "") ++ cond.reg.text ++ (if cond.kill then "<kill>" else "")

end Cond

/-- The registers that the target sets aside for its own conventions. -/
structure TargetRegs where
  /-- The predicate registers are those below this number. -/
  predCount : Nat := 8
  /-- All traffic of predicate words goes through this register. -/
  guards : GReg := ⟨26⟩
  /-- This register holds return information across calls. -/
  returnInfo : GReg := ⟨9⟩
  /-- This register is expected to be zero. -/
  zero : GReg := ⟨0⟩
deriving DecidableEq, Repr

end SinglePath
