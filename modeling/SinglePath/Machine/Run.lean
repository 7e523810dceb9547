import SinglePath.Machine.Step

/-!
Runs of a function from its entry. Between two instructions control falls through at most as many blocks as the
layout has, so a limit on instructions bounds the number of steps.
-/

namespace SinglePath

namespace Setting

/-- The status after the given number of steps; a run that has returned stays as it is. -/
def advance (setting : Setting) : Nat → Status → RunOutcome Status
  | 0, status => .ok status
  | _ + 1, .returned value machine => .ok (.returned value machine)
  | steps + 1, .running point machine => do setting.advance steps (← setting.step point machine)

/-- Control is at the start of the entry block. -/
def enter (setting : Setting) (machine : Machine) : Except Fault Status := do
  return .running (← setting.func.startOf setting.func.entry) machine

end Setting

/-- The value that a run returned and the machine that it left. -/
structure RunResult where
  value : UInt32
  machine : Machine
deriving DecidableEq, Repr

def RunResult.output (result : RunResult) : String := result.machine.printed

/-- A run is given up after this many instructions. -/
def stepLimit : Nat := 1000000

/-- Run a function from the machine in which its caller enters it. -/
def Func.run (func : Func) (regs : TargetRegs) : RunOutcome RunResult := do
  let setting : Setting := ⟨func, regs, some stepLimit⟩
  let start ← setting.enter (← Machine.initial regs)
  match ← setting.advance ((stepLimit + 1) * (func.layout.length + 1)) start with
  | .returned value machine => return ⟨value, machine⟩
  | .running _ _ => throw (.fault .endless)

/-- What is reported about a run: its title, and its instruction counts if it returns. -/
def Func.runReport (func : Func) (title : String) (outcome : RunOutcome RunResult) : String :=
  "\nRunning stage '" ++ title ++ "': Func: name='" ++ func.name ++ "' entry='" ++ func.entry.text ++ "'\n" ++
    match outcome with
    | .ok result =>
      "Running stage '" ++ title ++ "': done.  " ++ toString result.machine.steps ++ " insns, " ++
        toString result.machine.disabled ++ " disabled\n"
    | .error _ => ""

/-- Two runs agree if both return the same value and output, or both stop for the same reason. -/
def RunOutcome.agrees : RunOutcome RunResult → RunOutcome RunResult → Bool
  | .ok first, .ok second => first.value == second.value && first.output == second.output
  | .error (.refused first), .error (.refused second) => first.message == second.message
  | _, _ => false

end SinglePath
