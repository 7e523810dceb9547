import SinglePath.Inst.Text
import SinglePath.Machine.State
import SinglePath.Program.Builder

/-!
Which programs may be reduced and run. Each block ends in branches or a return and has none of them before; no
instruction touches the registers that the reduction takes for itself; and the last block returns.
-/

namespace SinglePath

inductive ProgramDefect where
  | unsupportedPreds (count : Nat)
  | noBlocks
  | invalidEntry
  | emptyBlock (block : String)
  | erasedBlock (block : String)
  | noTerminator (block : String)
  | earlyControl (inst : Inst) (block : String)
  | unknownTarget (target : BlockId) (block : String)
  | usesCallGuard (inst : Inst) (block : String) (guard : PReg)
  | missingPred (inst : Inst) (reg : PReg)
  | usesScratch (inst : Inst) (block : String) (reg : GReg)
  | writesConstant (inst : Inst)
  | noFinalReturn
deriving DecidableEq, Repr

def ProgramDefect.message : ProgramDefect → String
  | .unsupportedPreds count => "unsupported number of predicates " ++ toString count
  | .noBlocks => "no blocks"
  | .invalidEntry => "invalid entry block"
  | .emptyBlock block => "block " ++ block ++ " is empty"
  | .erasedBlock block => "block " ++ block ++ " is erased but laid out"
  | .noTerminator block => "block " ++ block ++ " has no terminator"
  | .earlyControl inst block => "control flow inst " ++ inst.text ++ " in the middle of block " ++ block
  | .unknownTarget target block => "branch to unknown block " ++ target.text ++ " in block " ++ block
  | .usesCallGuard inst block guard =>
    "inst " ++ inst.text ++ " in block " ++ block ++ " uses the call guard " ++ guard.text
  | .missingPred inst reg => "inst " ++ inst.text ++ " uses missing " ++ reg.text
  | .usesScratch inst block reg =>
    "inst " ++ inst.text ++ " in block " ++ block ++ " uses the reduction's scratch " ++ reg.text
  | .writesConstant inst => "inst " ++ inst.text ++ " writes p0"
  | .noFinalReturn => "the last block does not return"

abbrev Validity := Except (Failure ProgramDefect)

namespace Program

/-- The machine has this many predicate registers. -/
def machinePreds : Nat := 8

/-- The registers that the machine has and the target does not. -/
def missingPreds (regs : TargetRegs) : List PReg :=
  (List.range' regs.predCount (machinePreds - regs.predCount)).map PReg.mk

/-- A branch goes to a block of the arena that is laid out. -/
def isKnownTarget (func : Func) (target : BlockId) : Bool := (func.block? target).isSome && target ∈ func.layout

def checkInst (func : Func) (regs : TargetRegs) (guard : PReg) (content : Block) (inst : Inst) (position : Nat) :
    Validity Unit := do
  demand (content.terminatorStart ≤ position || !inst.isTerminator) (.earlyControl inst content.name)
  match inst.branchTarget with
  | some target => demand (isKnownTarget func target) (.unknownTarget target content.name)
  | none => pure ()
  demand (!inst.mentionsPred guard) (.usesCallGuard inst content.name guard)
  match (missingPreds regs).find? inst.mentionsPred with
  | some reg => refuse (.missingPred inst reg)
  | none => pure ()
  demand (!inst.readsReg regs.guards && !inst.writesReg regs.guards) (.usesScratch inst content.name regs.guards)
  demand (!inst.writesPred PReg.zero) (.writesConstant inst)

def checkInsts (func : Func) (regs : TargetRegs) (guard : PReg) (content : Block) :
    Nat → List Inst → Validity Unit
  | _, [] => .ok ()
  | position, inst :: rest => do
      checkInst func regs guard content inst position
      checkInsts func regs guard content (position + 1) rest

def checkBlock (func : Func) (regs : TargetRegs) (guard : PReg) (block : BlockId) : Validity Unit := do
  let content ← func.get block
  demand (!content.insts.isEmpty) (.emptyBlock content.name)
  demand (!content.erased) (.erasedBlock content.name)
  demand (content.terminatorStart ≠ content.insts.length) (.noTerminator content.name)
  checkInsts func regs guard content 0 content.insts

def checkBlocks (func : Func) (regs : TargetRegs) (guard : PReg) : List BlockId → Validity Unit
  | [] => .ok ()
  | block :: rest => do
      checkBlock func regs guard block
      checkBlocks func regs guard rest

/-- The program may be reduced and run with the given registers. -/
def validate (program : Program) (regs : TargetRegs) : Validity Unit := do
  let func := program.func
  demand (regs.predCount ≤ machinePreds && 2 ≤ regs.predCount) (.unsupportedPreds regs.predCount)
  match func.layout.getLast? with
  | none => refuse .noBlocks
  | some last =>
    demand (func.entry ∈ func.layout) .invalidEntry
    checkBlocks func regs (← Machine.callGuard regs) func.layout
    let content ← func.get last
    demand (content.insts.getLast?.any Inst.isReturn) .noFinalReturn

end Program

end SinglePath
