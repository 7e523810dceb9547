import SinglePath.Program.Builder
import SinglePath.Proofs.Machine.Views

namespace SinglePath

open PReg Stmt Test

variable {regs : TargetRegs} {m next : Machine} {test : Test} {v : Bool} {body : List Inst}
  {outcome : RunOutcome Machine} {ss : List Stmt} {inst : Inst}

/-- Code without branches and returns. -/
abbrev StraightLine (code : List Inst) : Prop := ∀ inst ∈ code, inst.isTerminator = false

namespace Machine

/-- The machine after an instruction that goes on to the next one. -/
def after (regs : TargetRegs) (m : Machine) (inst : Inst) : RunOutcome Machine := do
  return (← m.perform regs inst).1

/-- The machine after straight-line code. -/
def afterAll (regs : TargetRegs) (m : Machine) : List Inst → RunOutcome Machine
  | [] => .ok m
  | inst :: rest => do (← m.after regs inst).afterAll regs rest

/-- The machine after the two branches behind a test: the first is taken if the test has failed, and otherwise the
second. -/
def fork (m : Machine) (v : Bool) : Machine := if v then m.skip.fetch else m.fetch

end Machine

/-- A test compares two registers and writes the result into the condition register. -/
def Test.eval (test : Test) (m : Machine) : RunOutcome (Bool × Machine) := do
  let v := test.op.eval (← m.readReg test.lhs) (← m.readReg test.rhs)
  return (v, ← m.fetch.writePred condReg v)

/-- One round of a straight-line loop: the body, and then the test. -/
def Test.round (test : Test) (regs : TargetRegs) (body : List Inst) (m : Machine) : RunOutcome (Bool × Machine) := do
  test.eval (← m.afterAll regs body)

/-- The rounds of a straight-line loop go on until the test holds. -/
inductive Rounds (regs : TargetRegs) (body : List Inst) (test : Test) : Machine → RunOutcome Machine → Prop where
  | leaves {m next : Machine} (round : test.round regs body m = .ok (true, next)) :
      Rounds regs body test m (.ok (next.fork true))
  | again {m next : Machine} {outcome : RunOutcome Machine} (round : test.round regs body m = .ok (false, next))
      (later : Rounds regs body test (next.fork false) outcome) : Rounds regs body test m outcome
  | stops {m : Machine} {cause : Failure RunError} (round : test.round regs body m = .error cause) :
      Rounds regs body test m (.error cause)

/-- The statements, executed from the machine, come to the outcome: another machine, or the reason why they stop. -/
inductive Executes (regs : TargetRegs) : List Stmt → Machine → RunOutcome Machine → Prop where
  | done {m : Machine} : Executes regs [] m (.ok m)
  | simple {inst : Inst} {ss : List Stmt} {m next : Machine} {outcome : RunOutcome Machine}
      (ran : m.after regs inst = .ok next) (later : Executes regs ss next outcome) :
      Executes regs (.simple inst :: ss) m outcome
  | simpleStops {inst : Inst} {ss : List Stmt} {m : Machine} {cause : Failure RunError}
      (stops : m.after regs inst = .error cause) : Executes regs (.simple inst :: ss) m (.error cause)
  | branch {test : Test} {thenPart elsePart ss : List Stmt} {m next final : Machine} {v : Bool}
      {outcome : RunOutcome Machine} (tested : test.eval m = .ok (v, next))
      (inside : Executes regs (if v then thenPart else elsePart) (next.fork v) (.ok final))
      (later : Executes regs ss final.fetch outcome) :
      Executes regs (.ifThenElse test thenPart elsePart :: ss) m outcome
  | branchStops {test : Test} {thenPart elsePart ss : List Stmt} {m next : Machine} {v : Bool}
      {cause : Failure RunError} (tested : test.eval m = .ok (v, next))
      (inside : Executes regs (if v then thenPart else elsePart) (next.fork v) (.error cause)) :
      Executes regs (.ifThenElse test thenPart elsePart :: ss) m (.error cause)
  | branchTestStops {test : Test} {thenPart elsePart ss : List Stmt} {m : Machine} {cause : Failure RunError}
      (stops : test.eval m = .error cause) :
      Executes regs (.ifThenElse test thenPart elsePart :: ss) m (.error cause)
  | whileLeaves {test : Test} {bound : Option UInt32} {body ss : List Stmt} {m next : Machine}
      {outcome : RunOutcome Machine} (tested : test.eval m.fetch = .ok (false, next))
      (later : Executes regs ss (next.fork false) outcome) :
      Executes regs (.whileDo test bound body :: ss) m outcome
  | whileAgain {test : Test} {bound : Option UInt32} {body ss : List Stmt} {m next final : Machine}
      {outcome : RunOutcome Machine} (tested : test.eval m.fetch = .ok (true, next))
      (inside : Executes regs body (next.fork true) (.ok final))
      (again : Executes regs (.whileDo test bound body :: ss) final outcome) :
      Executes regs (.whileDo test bound body :: ss) m outcome
  | whileStops {test : Test} {bound : Option UInt32} {body ss : List Stmt} {m next : Machine}
      {cause : Failure RunError} (tested : test.eval m.fetch = .ok (true, next))
      (inside : Executes regs body (next.fork true) (.error cause)) :
      Executes regs (.whileDo test bound body :: ss) m (.error cause)
  | whileTestStops {test : Test} {bound : Option UInt32} {body ss : List Stmt} {m : Machine}
      {cause : Failure RunError} (stops : test.eval m.fetch = .error cause) :
      Executes regs (.whileDo test bound body :: ss) m (.error cause)
  | repeated {test : Test} {bound : Option UInt32} {body : List Inst} {ss : List Stmt} {m next : Machine}
      {outcome : RunOutcome Machine} (rounds : Rounds regs body test m.fetch (.ok next))
      (later : Executes regs ss next outcome) : Executes regs (.repeatUntil body test bound :: ss) m outcome
  | repeatStops {test : Test} {bound : Option UInt32} {body : List Inst} {ss : List Stmt} {m : Machine}
      {cause : Failure RunError} (rounds : Rounds regs body test m.fetch (.error cause)) :
      Executes regs (.repeatUntil body test bound :: ss) m (.error cause)

/-- The end of a program: the return information is restored and the frame freed. -/
def restoring (words : Nat) : List Inst :=
  [.setup (.toSpecial .returnBase returnBaseSave), .setup (.toSpecial .returnOffset returnOffsetSave),
    .setup (.free words)]

/-- A return, which needs the return information with which the program was entered. -/
def Machine.leave (m : Machine) (r : GReg) : RunOutcome RunResult :=
  if m.returnBase ≠ Machine.entryBase ∨ m.returnOffset ≠ Machine.entryOffset then
    refuse .clobbered
  else do
    return ⟨← m.readReg r, m.fetch⟩

/-- What a program of these statements means: the frame is set up, the statements are executed, the frame is torn down
and the register returned. -/
inductive Evaluates (regs : TargetRegs) (ss : List Stmt) (res : GReg) (m : Machine) :
    RunOutcome RunResult → Prop where
  | setupStops {cause : Failure RunError}
      (stops : m.afterAll regs (prologue Builder.frameWords) = .error cause) :
      Evaluates regs ss res m (.error cause)
  | executed {started : Machine} {outcome : RunOutcome Machine}
      (setup : m.afterAll regs (prologue Builder.frameWords) = .ok started)
      (executes : Executes regs ss started outcome) :
      Evaluates regs ss res m (do
        (← (← outcome).afterAll regs (restoring Builder.frameWords)).leave res)

mutual

/-- The instructions of a statement, but for its tests. -/
def Stmt.insts : Stmt → List Inst
  | .simple inst => [inst]
  | .ifThenElse _ thenPart elsePart => Stmt.instsAll thenPart ++ Stmt.instsAll elsePart
  | .whileDo _ _ body => Stmt.instsAll body
  | .repeatUntil body _ _ => body

def Stmt.instsAll : List Stmt → List Inst
  | [] => []
  | stmt :: rest => stmt.insts ++ Stmt.instsAll rest

end

mutual

/-- The tests of a statement. -/
def Stmt.tests : Stmt → List Test
  | .simple _ => []
  | .ifThenElse test thenPart elsePart => test :: (Stmt.testsAll thenPart ++ Stmt.testsAll elsePart)
  | .whileDo test _ body => test :: Stmt.testsAll body
  | .repeatUntil _ test _ => [test]

def Stmt.testsAll : List Stmt → List Test
  | [] => []
  | stmt :: rest => stmt.tests ++ Stmt.testsAll rest

end

mutual

/-- The statement without the bounds of its loops. -/
def Stmt.unbounded : Stmt → Stmt
  | .simple inst => .simple inst
  | .ifThenElse test thenPart elsePart => .ifThenElse test (Stmt.allUnbounded thenPart) (Stmt.allUnbounded elsePart)
  | .whileDo test _ body => .whileDo test none (Stmt.allUnbounded body)
  | .repeatUntil body test _ => .repeatUntil body test none

def Stmt.allUnbounded : List Stmt → List Stmt
  | [] => []
  | stmt :: rest => stmt.unbounded :: Stmt.allUnbounded rest

end

theorem perform_test (const : m.pred zero = true) :
    m.perform regs test.inst = do
      let res ← test.eval m
      return (res.2, .next) := by
  rw [Machine.perform_of_always const rfl]
  have left : m.fetch.readReg test.lhs = m.readReg test.lhs := rfl
  have right : m.fetch.readReg test.rhs = m.readReg test.rhs := rfl
  simp only [inst, Inst.plain, Machine.execute, eval, left, right]
  cases m.readReg test.lhs <;> cases m.readReg test.rhs <;> rfl

theorem eval_pred (tested : test.eval m = .ok (v, next)) : next.pred condReg = v ∧ next.pred zero = m.pred zero := by
  obtain ⟨lhs, _, rhs, _, tested⟩ := bind_bind_inv tested
  obtain ⟨written, writes, tested⟩ := bind_inv tested
  obtain ⟨rfl, rfl⟩ := Prod.mk.inj (pure_inv tested)
  obtain ⟨_, rfl⟩ := Machine.writePred_eq_ok.mp (liftM_inv writes)
  rw [Machine.pred_withPred, Machine.pred_withPred, if_pos (by decide), if_neg (by decide)]
  exact ⟨rfl, rfl⟩

@[simp] theorem Machine.pred_fetch (m : Machine) (r : PReg) : m.fetch.pred r = m.pred r := rfl

@[simp] theorem Machine.pred_fork (m : Machine) (v : Bool) (r : PReg) : (m.fork v).pred r = m.pred r := by
  cases v <;> rfl

theorem fork_constant (tested : test.eval m = .ok (v, next)) (const : m.pred zero = true) :
    (next.fork v).pred zero = true := by
  rw [Machine.pred_fork, (eval_pred tested).2, const]

theorem Machine.after_constant (ran : m.after regs inst = .ok next) : next.pred zero = m.pred zero := by
  obtain ⟨res, isResult, rfl⟩ := bind_pure_inv ran
  exact perform_pred_zero isResult

theorem Machine.afterAll_constant {insts : List Inst} (ran : m.afterAll regs insts = .ok next) :
    next.pred zero = m.pred zero := by
  induction insts generalizing m with
  | nil => rw [Except.ok.inj ran]
  | cons inst rest ih =>
    obtain ⟨between, first, later⟩ := bind_inv ran
    rw [ih later, after_constant first]

theorem Test.round_pred (round : test.round regs body m = .ok (v, next)) :
    next.pred condReg = v ∧ next.pred zero = m.pred zero := by
  obtain ⟨between, ran, tested⟩ := bind_inv round
  obtain ⟨isValue, const⟩ := eval_pred tested
  exact ⟨isValue, const.trans (Machine.afterAll_constant ran)⟩

theorem Rounds.constant (rounds : Rounds regs body test m outcome) :
    ∀ final, outcome = .ok final → final.pred zero = m.pred zero := by
  induction rounds with
  | leaves round =>
    simpa using (round_pred round).2
  | again round _ ih =>
    intro final isFinal
    simpa using (ih final isFinal).trans (by simpa using (round_pred round).2)
  | stops => exact fun final isFinal => nomatch isFinal

/-- No statement changes the constant. -/
theorem Executes.constant (executes : Executes regs ss m outcome) :
    ∀ final, outcome = .ok final → final.pred zero = m.pred zero := by
  induction executes with
  | done =>
    rintro final ⟨⟩
    rfl
  | simple ran _ later => exact fun final isFinal => (later final isFinal).trans (Machine.after_constant ran)
  | branch tested _ _ inside later =>
    intro final isFinal
    rw [later final isFinal, Machine.pred_fetch, inside _ rfl, Machine.pred_fork, (eval_pred tested).2]
  | whileLeaves tested _ later =>
    intro final isFinal
    rw [later final isFinal, Machine.pred_fork, (eval_pred tested).2, Machine.pred_fetch]
  | whileAgain tested _ _ inside again =>
    intro final isFinal
    rw [again final isFinal, inside _ rfl, Machine.pred_fork, (eval_pred tested).2, Machine.pred_fetch]
  | repeated rounds _ later =>
    intro final isFinal
    rw [later final isFinal, rounds.constant _ rfl, Machine.pred_fetch]
  | simpleStops | branchStops | branchTestStops | whileStops | whileTestStops | repeatStops =>
    exact fun final isFinal => nomatch isFinal

mutual

theorem Stmt.insts_unbounded : ∀ stmt : Stmt, stmt.unbounded.insts = stmt.insts
  | .simple inst => rfl
  | .ifThenElse test thenPart elsePart => by
    simp only [unbounded, insts, instsAll_unbounded thenPart, instsAll_unbounded elsePart]
  | .whileDo test bound body => by simp only [unbounded, insts, instsAll_unbounded body]
  | .repeatUntil body test bound => rfl

theorem Stmt.instsAll_unbounded : ∀ ss : List Stmt, instsAll (allUnbounded ss) = instsAll ss
  | [] => rfl
  | stmt :: rest => by
    simp only [allUnbounded, instsAll, insts_unbounded stmt, instsAll_unbounded rest]

end

variable {others : List Stmt} {bound : Option UInt32}

theorem Stmt.cons_of_unbounded {stmt : Stmt} {rest : List Stmt}
    (same : allUnbounded others = allUnbounded (stmt :: rest)) :
    ∃ o more, others = o :: more ∧ o.unbounded = stmt.unbounded ∧ allUnbounded more = allUnbounded rest := by
  cases others with
  | nil => cases same
  | cons o more =>
    exact ⟨o, more, rfl, List.cons.inj same⟩

theorem Stmt.of_simple (same : allUnbounded others = allUnbounded (simple inst :: ss)) :
    ∃ more, others = .simple inst :: more ∧ allUnbounded more = allUnbounded ss := by
  obtain ⟨o, more, rfl, same, sameRest⟩ := cons_of_unbounded same
  cases o <;> simp_all [unbounded]

theorem Stmt.of_ifThenElse {thenPart elsePart : List Stmt}
    (same : allUnbounded others = allUnbounded (ifThenElse test thenPart elsePart :: ss)) : ∃ first second more,
      others = .ifThenElse test first second :: more ∧ (∀ v : Bool,
        allUnbounded (if v then first else second) = allUnbounded (if v then thenPart else elsePart)) ∧
      allUnbounded more = allUnbounded ss := by
  obtain ⟨o, more, rfl, same, sameRest⟩ := cons_of_unbounded same
  cases o with
  | ifThenElse otherTest first second =>
    simp only [unbounded, ifThenElse.injEq] at same
    obtain ⟨rfl, sameThen, sameElse⟩ := same
    refine ⟨first, second, more, rfl, fun v => ?_, sameRest⟩
    cases v
    · exact sameElse
    · exact sameThen
  | _ => simp [unbounded] at same

theorem Stmt.of_whileDo {body : List Stmt} (same : allUnbounded others = allUnbounded (whileDo test bound body :: ss)) :
    ∃ otherBound inner more, others = .whileDo test otherBound inner :: more ∧ allUnbounded inner = allUnbounded body ∧
      allUnbounded more = allUnbounded ss := by
  obtain ⟨o, more, rfl, same, sameRest⟩ := cons_of_unbounded same
  cases o with
  | whileDo otherTest otherBound inner =>
    simp only [unbounded, whileDo.injEq, true_and] at same
    obtain ⟨rfl, sameBody⟩ := same
    exact ⟨otherBound, inner, more, rfl, sameBody, sameRest⟩
  | _ => simp [unbounded] at same

theorem Stmt.of_repeatUntil (same : allUnbounded others = allUnbounded (repeatUntil body test bound :: ss)) :
    ∃ otherBound more, others = .repeatUntil body test otherBound :: more ∧ allUnbounded more = allUnbounded ss := by
  obtain ⟨o, more, rfl, same, sameRest⟩ := cons_of_unbounded same
  cases o with
  | repeatUntil inner otherTest otherBound =>
    obtain ⟨rfl, rfl⟩ := same
    exact ⟨otherBound, more, rfl, sameRest⟩
  | _ => simp [unbounded] at same

theorem Executes.of_unbounded (executes : Executes regs ss m outcome)
    (same : allUnbounded others = allUnbounded ss) : Executes regs others m outcome := by
  induction executes generalizing others with
  | done =>
    cases others with
    | nil => exact .done
    | cons => cases same
  | simple ran _ later =>
    obtain ⟨more, rfl, sameRest⟩ := of_simple same
    exact .simple ran (later sameRest)
  | simpleStops stops =>
    obtain ⟨more, rfl, _⟩ := of_simple same
    exact .simpleStops stops
  | branch tested _ _ inside later =>
    obtain ⟨_, _, more, rfl, sameParts, sameRest⟩ := of_ifThenElse same
    exact .branch tested (inside (sameParts _)) (later sameRest)
  | branchStops tested _ inside =>
    obtain ⟨_, _, more, rfl, sameParts, _⟩ := of_ifThenElse same
    exact .branchStops tested (inside (sameParts _))
  | branchTestStops stops =>
    obtain ⟨_, _, more, rfl, _⟩ := of_ifThenElse same
    exact .branchTestStops stops
  | whileLeaves tested _ later =>
    obtain ⟨_, inner, more, rfl, _, sameRest⟩ := of_whileDo same
    exact .whileLeaves tested (later sameRest)
  | whileAgain tested _ _ inside again =>
    obtain ⟨_, inner, more, rfl, sameBody, _⟩ := of_whileDo same
    exact .whileAgain tested (inside sameBody) (again same)
  | whileStops tested _ inside =>
    obtain ⟨_, inner, more, rfl, sameBody, _⟩ := of_whileDo same
    exact .whileStops tested (inside sameBody)
  | whileTestStops stops =>
    obtain ⟨_, inner, more, rfl, _⟩ := of_whileDo same
    exact .whileTestStops stops
  | repeated rounds _ later =>
    obtain ⟨_, more, rfl, sameRest⟩ := of_repeatUntil same
    exact .repeated rounds (later sameRest)
  | repeatStops rounds =>
    obtain ⟨_, more, rfl, _⟩ := of_repeatUntil same
    exact .repeatStops rounds

theorem Evaluates.of_unbounded {res : GReg} {outcome : RunOutcome RunResult}
    (evaluates : Evaluates regs ss res m outcome)
    (same : allUnbounded others = allUnbounded ss) : Evaluates regs others res m outcome := by
  cases evaluates with
  | setupStops stops => exact .setupStops stops
  | executed setup executes => exact .executed setup (executes.of_unbounded same)

end SinglePath
