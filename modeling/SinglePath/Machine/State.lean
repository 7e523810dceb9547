import SinglePath.FrameLayout
import SinglePath.Inst.Operands

/-!
The state of the machine that runs a function: its registers, its stack frame, its data memory and what it has
put out. The first general register is always zero and the first predicate register is always true.
-/

namespace SinglePath

inductive Output where
  | value (word : UInt32)
  | called (callee : UInt32)
deriving DecidableEq, Repr

def Output.text : Output → String
  | .value word => toString word.toNat ++ "\n"
  | .called callee => "call " ++ toString callee.toNat ++ "\n"

structure Machine where
  gregs : Vector UInt32 32
  pregs : Vector Bool 8
  returnBase : UInt32
  returnOffset : UInt32
  /-- The words of the stack frame that were written, by byte offset. -/
  stack : Table Int UInt32
  memory : Vector UInt32 64
  /-- The number of instructions that were fetched. -/
  steps : Nat
  /-- The number of them whose guard did not hold. -/
  disabled : Nat
  /-- The outputs, the latest first. -/
  outputs : List Output
deriving DecidableEq, Repr

namespace Machine

/-- The return base and offset with which a function is entered and must be left. -/
def entryBase : UInt32 := 0x400
def entryOffset : UInt32 := 0x40

def unwritten : UInt32 := 0xA5A5A5A5

/-- A disabled callee leaves this in the return information register. -/
def dirty : UInt32 := 0xDEADBEEF

/-- Calls change the return base to this plus the number of the callee. -/
def calleeBase : Nat := 0x1000

/-- A callee finds its guard in the last predicate register. -/
def callGuard (regs : TargetRegs) : Except Fault PReg :=
  match regs.predCount with
  | 0 => .error .overflow
  | count + 1 => .ok ⟨count⟩

def readReg (machine : Machine) (reg : GReg) : Except Fault UInt32 := present machine.gregs[reg.index]?

def readPred (machine : Machine) (reg : PReg) : Except Fault Bool := present machine.pregs[reg.index]?

def cond (machine : Machine) (cond : Cond) : Except Fault Bool := do
  return (← machine.readPred cond.reg) != cond.negated

/-- The zero register does not change. -/
def writeReg (machine : Machine) (reg : GReg) (value : UInt32) : Except Fault Machine :=
  if reg = GReg.zero then
    .ok machine
  else if inside : reg.index < 32 then
    .ok { machine with gregs := machine.gregs.set reg.index value }
  else
    .error .dangling

/-- The always true register does not change. -/
def writePred (machine : Machine) (reg : PReg) (value : Bool) : Except Fault Machine :=
  if reg = PReg.zero then
    .ok machine
  else if inside : reg.index < 8 then
    .ok { machine with pregs := machine.pregs.set reg.index value }
  else
    .error .dangling

def bank (machine : Machine) : UInt32 :=
  machine.pregs.toList.zipIdx.foldl
    (fun word entry => if entry.1 then word ||| (1 <<< UInt32.ofNat entry.2) else word) 0

/-- All predicate registers but the constant take their bits of the word. -/
def setBank (machine : Machine) (word : UInt32) : Machine :=
  { machine with
    pregs := Vector.ofFn fun index =>
      if index.val = 0 then machine.pregs[index] else (word >>> UInt32.ofNat index.val) &&& 1 != 0 }

def readSpecial (machine : Machine) : SpecialReg → UInt32
  | .bank => machine.bank
  | .returnBase => machine.returnBase
  | .returnOffset => machine.returnOffset

def writeSpecial (machine : Machine) (special : SpecialReg) (word : UInt32) : Machine :=
  match special with
  | .bank => machine.setBank word
  | .returnBase => { machine with returnBase := word }
  | .returnOffset => { machine with returnOffset := word }

def readStack (machine : Machine) (offset : Int) : UInt32 := (machine.stack.get? offset).getD unwritten

def writeStack (machine : Machine) (offset : Int) (word : UInt32) : Machine :=
  { machine with stack := machine.stack.insert offset word }

def writeMemory (machine : Machine) (place : Fin 64) (word : UInt32) : Machine :=
  { machine with memory := machine.memory.set place.val word place.isLt }

def put (machine : Machine) (output : Output) : Machine :=
  { machine with outputs := output :: machine.outputs }

def printed (machine : Machine) : String := String.join (machine.outputs.reverse.map Output.text)

/-- A function is entered with cleared registers and memory, and its caller has enabled it. -/
def initial (regs : TargetRegs) : Except Fault Machine := do
  let guard ← callGuard regs
  let machine : Machine := {
    gregs := Vector.replicate 32 0
    pregs := (Vector.replicate 8 false).set 0 true
    returnBase := entryBase
    returnOffset := entryOffset
    stack := Table.empty
    memory := Vector.replicate 64 0
    steps := 0
    disabled := 0
    outputs := [] }
  machine.writePred guard true

end Machine

end SinglePath
