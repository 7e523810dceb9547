import SinglePath.Proofs.Flow.Finishing
import SinglePath.Proofs.Func.Merged

namespace SinglePath

open Func List Machine Setting

/-- The outcome without the name of the block that a run falls off. -/
def RunOutcome.anonymous : RunOutcome RunResult → RunOutcome RunResult
  | .error (.refused (.fellOff _)) => .error (.refused (.fellOff ""))
  | outcome => outcome

namespace Flow

/-- Run over the code, and give up when the number of instructions is executed. -/
def runFor (flow : Flow) : Nat → List Inst → Machine → RunOutcome RunResult
  | _, [], _ => refuse (.fellOff "")
  | 0, _ :: _, _ => refuse .stepLimit
  | fuel + 1, inst :: rest, m => do
    let (after, transfer) ← m.perform flow.regs inst
    match transfer with
    | .next => flow.runFor fuel rest after
    | .jump t => flow.runFor fuel ((flow.labels t).getD []) after
    | .leave v => return ⟨v, after⟩

/-- Flows that have the same code at the labels of one of them run over code with such labels alike. -/
theorem runFor_congr {first second : Flow} (sameRegs : first.regs = second.regs) (Inside : BlockId → Prop)
    (same : ∀ label, Inside label → ∃ code, first.labels label = some code ∧ second.labels label = some code ∧
      ∀ inst ∈ code, ∀ t, inst.branchTarget = some t → Inside t) (fuel : Nat) {code : List Inst} (m : Machine)
    (inside : ∀ inst ∈ code, ∀ t, inst.branchTarget = some t → Inside t) :
    first.runFor fuel code m = second.runFor fuel code m := by
  induction fuel generalizing code m with
  | zero => cases code <;> rfl
  | succ fuel ih =>
    cases code with
    | nil => rfl
    | cons inst rest =>
      simp only [runFor, sameRegs]
      cases ran : m.perform second.regs inst with
      | error cause => rfl
      | ok res =>
        obtain ⟨after, transfer⟩ := res
        cases transfer with
        | leave v => rfl
        | next => exact ih after (forall_mem_cons.mp inside).2
        | jump t =>
          obtain ⟨code, isFirst, isSecond, insideCode⟩ := same t (inside inst (.head _) t (perform_jump ran))
          simp only [ok_bind, isFirst, isSecond, Option.getD_some]
          exact ih after insideCode

end Flow

section

variable {f : Func} {regs : TargetRegs} {limit : Nat}

/-- A run that is over comes to what the run over the code comes to. -/
theorem Setting.finish_anonymous (laid : f.Laid) {steps : Nat} {p : Point} {m : Machine}
    (within : p.Within f) (isOver : (⟨f, regs, some limit⟩ : Setting).IsOver steps (.running p m)) :
    ((⟨f, regs, some limit⟩ : Setting).finish steps (.running p m)).anonymous =
      ((f.flow regs).runFor (limit - m.steps) (f.codeFrom p) m).anonymous := by
  induction steps generalizing p m with
  | zero => exact absurd rfl (isOver p m)
  | succ steps ih =>
    -- One step leads to a point from which the run is over after the remaining steps.
    have later : ∀ {reached after}, (⟨f, regs, some limit⟩ : Setting).step p m = .ok (.running reached after) →
        ((⟨f, regs, some limit⟩ : Setting).finish (steps + 1) (.running p m)).anonymous =
          ((f.flow regs).runFor (limit - after.steps) (f.codeFrom reached) after).anonymous := by
      intro reached after stepped
      have finished := ih (step_within laid within stepped) fun last final reaches =>
        isOver last final (by rw [advance, stepped, ok_bind, reaches])
      rw [← finished, finish, advance, stepped]
      rfl
    obtain ⟨b, rest⟩ := p
    cases rest with
    | nil =>
      cases follows : following b f.layout with
      | nil =>
        obtain ⟨body, got⟩ := laid.found b within.inside
        simp [finish, advance, step, fallThrough, layoutNext, nextAfterLast_eq,
          follows, get_eq_ok.mpr got, codeFrom, codeAfter, Flow.runFor, refuse, RunOutcome.anonymous, bind,
          Except.bind]
      | cons next more =>
        rw [f.codeFrom_nil laid within.inside follows]
        have falls : (f.free regs).fallThrough b = .ok ⟨next, f.codeOf next⟩ :=
          (fallThrough_eq_ok laid within.inside).mpr ⟨next, more, follows, rfl⟩
        exact later (step_nil.mpr ⟨_, falls, rfl⟩)
    | cons inst rest =>
      by_cases exhausted : limit ≤ m.steps
      · simp [finish, advance, step_cons_eq, isExhausted, exhausted, codeFrom,
          Flow.runFor, refuse, bind, Except.bind]
      · obtain ⟨fuel, isFuel⟩ : ∃ fuel, limit - m.steps = fuel + 1 := ⟨limit - m.steps - 1, by omega⟩
        have stepped := step_cons_eq ⟨f, regs, some limit⟩ b inst rest m
        simp only [isExhausted, Option.any_some, exhausted, decide_false, Bool.false_eq_true, if_false] at stepped
        rw [codeFrom, isFuel, cons_append, Flow.runFor, show (f.flow regs).regs = regs from rfl]
        cases ran : m.perform regs inst with
        | error cause =>
          rw [finish, advance, stepped, ran]
          rfl
        | ok res =>
          obtain ⟨after, transfer⟩ := res
          have counted := perform_steps ran
          obtain rfl : fuel = limit - after.steps := by omega
          rw [ran, ok_bind] at stepped
          cases transfer with
          | leave v =>
            rw [finish, advance, stepped]
            simp [proceed, advance_of_returned]
          | next => exact later stepped
          | jump t =>
            have inside := laid.targets b within.inside inst (within.part.subset (by simp)) t (perform_jump ran)
            simp only [proceed, laid.startOf inside, liftM_ok] at stepped
            rw [later stepped]
            simp [flow, inside, codeFrom]

theorem Func.Laid.runWithin_anonymous (laid : f.Laid) (m : Machine) :
    (f.runWithin regs limit m).anonymous = ((f.flow regs).runFor (limit - m.steps)
      (f.codeOf f.entry ++ f.codeAfter f.entry) m).anonymous := by
  rw [laid.runWithin_eq]
  exact finish_anonymous laid (Point.within_start laid.entered) (laid.isOver limit m)

end

theorem Func.Laid.code_targets {f : Func} (laid : f.Laid) {b : BlockId} (inside : b ∈ f.layout) :
    ∀ inst ∈ f.codeOf b ++ f.codeAfter b, ∀ t, inst.branchTarget = some t → t ∈ f.layout := by
  intro inst isCode t branches
  rcases mem_append.mp isCode with isCode | isCode
  · exact laid.targets b inside inst isCode t branches
  · obtain ⟨o, follows, isCode⟩ := mem_flatMap.mp isCode
    exact laid.targets o (following_subset follows) inst isCode t branches

theorem Func.Merged.runWithin_eq {f next : Func} (merged : Merged f next) (laid : f.Laid) (regs : TargetRegs)
    (limit : Nat) (m : Machine) : (next.runWithin regs limit m).anonymous = (f.runWithin regs limit m).anonymous := by
  have laidNext := merged.chained.laid
  rw [laid.runWithin_anonymous, laidNext.runWithin_anonymous, ← merged.entry, merged.code _ laidNext.entered]
  refine congrArg _ (@Flow.runFor_congr (next.flow regs) (f.flow regs) rfl (· ∈ next.layout)
    (fun label inside => ?_) _ _
    m ?_)
  · refine ⟨_, if_pos inside, ?_, laidNext.code_targets inside⟩
    rw [merged.code label inside]
    exact if_pos (merged.subset label inside)
  · rw [← merged.code _ laidNext.entered]
    exact laidNext.code_targets laidNext.entered

end SinglePath
