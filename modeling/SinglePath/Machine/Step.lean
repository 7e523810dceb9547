import SinglePath.Func.Basic
import SinglePath.Machine.State

/-!
Execution of instructions and the flow of control. One step executes one instruction, or falls from the end of a
block to the next block of the layout.
-/

namespace SinglePath

inductive RunError where
  | outOfBounds (address : UInt32)
  | fellOff (block : String)
  | stepLimit
  | clobbered
deriving DecidableEq, Repr

def RunError.message : RunError → String
  | .outOfBounds address => "memory access out of bounds: " ++ toString address.toNat
  | .fellOff block => "fell off the end of " ++ block
  | .stepLimit => "step limit exceeded"
  | .clobbered => "return information clobbered"

abbrev RunOutcome (α : Type) := Except (Failure RunError) α

inductive Transfer where
  | next
  | jump (target : BlockId)
  | leave (value : UInt32)
deriving DecidableEq, Repr

namespace Machine

def address (machine : Machine) (base : GReg) (offset : UInt32) : RunOutcome (Fin 64) := do
  let place := (← machine.readReg base) + offset
  if inside : place.toNat < 64 then
    return ⟨place.toNat, inside⟩
  else
    refuse (.outOfBounds place)

def load (machine : Machine) : Addr → RunOutcome UInt32
  | .frame cell => do return machine.readStack (← cell.offset)
  | .stack offset => .ok (machine.readStack offset)
  | .memory base offset => do return machine.memory.get (← machine.address base offset)

def store (machine : Machine) (word : UInt32) : Addr → RunOutcome Machine
  | .frame cell => do return machine.writeStack (← cell.offset) word
  | .stack offset => .ok (machine.writeStack offset word)
  | .memory base offset => do return machine.writeMemory (← machine.address base offset) word

/-- A call puts out its callee if its guard holds; a disabled callee dirties the return information register.
Either way the callee takes over the return base and offset. -/
def call (machine : Machine) (regs : TargetRegs) (callee : UInt32) : Except Fault Machine := do
  let machine ← if ← machine.readPred (← callGuard regs) then pure (machine.put (.called callee))
    else machine.writeReg regs.returnInfo dirty
  if calleeBase + callee.toNat < 0x100000000 then
    return { machine with
      returnBase := UInt32.ofNat calleeBase + callee
      returnOffset := UInt32.ofNat machine.steps }
  else
    throw .overflow

/-- The effect of an operation whose guard holds. -/
def execute (regs : TargetRegs) (machine : Machine) : Op → RunOutcome (Machine × Transfer)
  | .imm dst value => do return (← machine.writeReg dst value, .next)
  | .copy dst src => do return (← machine.writeReg dst (← machine.readReg src), .next)
  | .binary op dst lhs rhs => do
      return (← machine.writeReg dst (op.eval (← machine.readReg lhs) (← machine.readReg rhs)), .next)
  | .binaryImm op dst lhs value => do
      return (← machine.writeReg dst (op.eval (← machine.readReg lhs) value), .next)
  | .compare op dst lhs rhs => do
      return (← machine.writePred dst (op.eval (← machine.readReg lhs) (← machine.readReg rhs)), .next)
  | .predAnd dst a b => do
      let left ← machine.cond a
      let right ← if left then machine.cond b else pure false
      return (← machine.writePred dst right, .next)
  | .predOr dst a b => do
      let left ← machine.cond a
      let right ← if left then pure true else machine.cond b
      return (← machine.writePred dst right, .next)
  | .predMove dst src => do return (← machine.writePred dst (← machine.cond src), .next)
  | .predClear dst => do return (← machine.writePred dst false, .next)
  | .testBit dst src bit => do
      let mask ← wordBit bit
      return (← machine.writePred dst ((← machine.readReg src) &&& mask != 0), .next)
  | .copyBit dst src bit cond => do
      let mask ← wordBit bit
      let rest := (← machine.readReg src) &&& ~~~ mask
      return (← machine.writeReg dst (if ← machine.cond cond then rest ||| mask else rest), .next)
  | .load dst addr => do return (← machine.writeReg dst (← machine.load addr), .next)
  | .store addr src => do return (← machine.store (← machine.readReg src) addr, .next)
  | .fromSpecial dst special => do return (← machine.writeReg dst (machine.readSpecial special), .next)
  | .toSpecial special src => do return (machine.writeSpecial special (← machine.readReg src), .next)
  | .print reg => do return (machine.put (.value (← machine.readReg reg)), .next)
  | .call callee => do return (← machine.call regs callee, .next)
  | .reserve _ => .ok (machine, .next)
  | .free _ => .ok (machine, .next)
  | .branch target => .ok (machine, .jump target)
  | .ret reg =>
    if machine.returnBase ≠ entryBase ∨ machine.returnOffset ≠ entryOffset then
      refuse .clobbered
    else do
      return (machine, .leave (← machine.readReg reg))

/-- Calls and returns run whatever their guard; any other instruction only if its guard holds. -/
def executeGuarded (regs : TargetRegs) (machine : Machine) (inst : Inst) : RunOutcome (Machine × Transfer) := do
  let enabled ← machine.cond inst.guard
  if enabled || inst.isCall || inst.isReturn then
    machine.execute regs inst.op
  else
    return ({ machine with disabled := machine.disabled + 1 }, .next)

end Machine

/-- A place in a function: a block and its instructions that are still to run. -/
structure Point where
  block : BlockId
  rest : List Inst
deriving DecidableEq, Repr

def Func.startOf (func : Func) (block : BlockId) : Except Fault Point := do
  return ⟨block, (← func.get block).insts⟩

/-- A function under its register conventions, and the number of instructions after which a run is given up. -/
structure Setting where
  func : Func
  regs : TargetRegs
  limit : Option Nat
deriving DecidableEq, Repr

/-- A run is at a point or has returned a value. -/
inductive Status where
  | running (point : Point) (machine : Machine)
  | returned (value : UInt32) (machine : Machine)
deriving DecidableEq, Repr

namespace Setting

/-- Control falls from the end of a block to the next block of the layout. -/
def fallThrough (setting : Setting) (block : BlockId) : RunOutcome Point :=
  match setting.func.layoutNext block with
  | some next => do return ← setting.func.startOf next
  | none => do refuse (.fellOff (← setting.func.get block).name)

def isExhausted (setting : Setting) (steps : Nat) : Bool := setting.limit.any (· ≤ steps)

def step (setting : Setting) (point : Point) (machine : Machine) : RunOutcome Status :=
  match point.rest with
  | [] => do return .running (← setting.fallThrough point.block) machine
  | inst :: rest =>
    if setting.isExhausted machine.steps then
      refuse .stepLimit
    else do
      let (machine, transfer) ← { machine with steps := machine.steps + 1 }.executeGuarded setting.regs inst
      match transfer with
      | .next => return .running ⟨point.block, rest⟩ machine
      | .jump target => return .running (← setting.func.startOf target) machine
      | .leave value => return .returned value machine

end Setting

end SinglePath
