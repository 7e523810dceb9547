import SinglePath.Func.Text
import SinglePath.Machine.Run
import SinglePath.Program.Samples
import SinglePath.Program.Validity
import SinglePath.Reduction

/-!
A session with one sample: it is listed, reduced, listed again, and run before and after the reduction. Everything
that the session says is kept, also if it ends early.
-/

namespace SinglePath

inductive Crash where
  | fault (cause : Fault)
  /-- The runs before and after the reduction differ. -/
  | disagreement
deriving DecidableEq, Repr

/-- A session adds to the text that was said so far. -/
abbrev Session := EStateM Crash String

namespace Session

def say (text : String) : Session Unit := modify (· ++ text)

def sayLine (text : String) : Session Unit := say (text ++ "\n")

def lift {α : Type} : Except Fault α → Session α
  | .ok value => pure value
  | .error cause => throw (.fault cause)

/-- Go on with the answer or with the cause of a refusal. -/
def attempt {ε α : Type} : Except (Failure ε) α → Session (Except ε α)
  | .ok value => pure (.ok value)
  | .error (.refused cause) => pure (.error cause)
  | .error (.fault cause) => throw (.fault cause)

def list (func : Func) (title : String) : Session Unit := do sayLine (← lift (func.listing title))

def runStage (func : Func) (title : String) (regs : TargetRegs) : Session (RunOutcome RunResult) := do
  let outcome := func.run regs
  say (func.runReport title outcome)
  let _ ← attempt outcome
  return outcome

def compare (func reduced : Func) (regs : TargetRegs) : Session Unit := do
  let before ← runStage func "Before reduction" regs
  let after ← runStage reduced "After reduction" regs
  sayLine ""
  match before, after with
  | .ok before, .ok after =>
    sayLine (toString before.machine.steps ++ " steps before, " ++ toString after.machine.steps ++
      " steps after the reduction")
  | _, _ => pure ()
  if !before.agrees after then throw .disagreement

def reduce (program : Program) (regs : TargetRegs) (options : ReduceOptions) : Session Unit := do
  match ← attempt (program.validate regs) with
  | .error defect => sayLine ("invalid test program: " ++ defect.message)
  | .ok () =>
    list program.func "before reduction"
    let (outcome, reduced) := program.func.reduce program.tree regs options
    match ← attempt outcome with
    | .error refusal => sayLine ("reduction failed: " ++ refusal.message)
    | .ok reduction =>
      list reduced "after reduction"
      sayLine reduction.stats.text
      compare program.func reduced regs

def listNames : Session Unit := do
  sayLine "available test names are:"
  say (String.join (Samples.names.map fun name => "     " ++ name ++ "\n"))

end Session

end SinglePath
