import SinglePath.Proofs.Flow.Outcomes

/-!
Where runs lead and what they come to in the end: the value that is returned with the machine that is left, or the
reason why the run stops.
-/

namespace SinglePath

open Machine Nat Point Status

variable {o : RunOutcome RunResult} {f : Func} {regs : TargetRegs} {m : Machine}

namespace Setting

variable {s : Setting} {start between next : Status} {outcome : RunOutcome Status} {total steps : Nat}
  {p : Point}

/-- After some steps the run is at the status, or has stopped. -/
def Leads (s : Setting) (start : Status) (outcome : RunOutcome Status) : Prop :=
  ∃ steps, s.advance steps start = outcome

/-- After at least one step the run is at the status. -/
def Moves (s : Setting) (start next : Status) : Prop := ∃ steps, s.advance (steps + 1) start = .ok next

/-- After the given number of steps the run is over. -/
def IsOver (s : Setting) (steps : Nat) (start : Status) : Prop :=
  ∀ p m, s.advance steps start ≠ .ok (.running p m)

theorem advance_of_returned (s : Setting) (steps : Nat) (v : UInt32) (m : Machine) :
    s.advance steps (.returned v m) = .ok (.returned v m) := by
  cases steps <;> rfl

/-- Steps can be taken in two parts. -/
theorem advance_add (s : Setting) (steps more : Nat) (start : Status) :
    s.advance (steps + more) start = (do s.advance more (← s.advance steps start)) := by
  induction steps generalizing start with
  | zero =>
    rw [Nat.zero_add]
    rfl
  | succ steps ih =>
    rw [succ_add]
    cases start with
    | returned v m => simp [advance_of_returned]
    | running p m =>
      simp only [advance]
      cases stepped : s.step p m with
      | error cause => rfl
      | ok next => exact ih next

/-- Where control goes on after an instruction. -/
def proceed (s : Setting) (b : BlockId) (rest : List Inst) (m : Machine) : Transfer → RunOutcome Status
  | .next => .ok (.running ⟨b, rest⟩ m)
  | .jump t => do return .running (← s.func.startOf t) m
  | .leave v => .ok (.returned v m)

theorem step_cons_eq (s : Setting) (b : BlockId) (inst : Inst) (rest : List Inst) (m : Machine) :
    s.step ⟨b, inst :: rest⟩ m =
      if s.isExhausted m.steps then refuse .stepLimit
      else (m.perform s.regs inst >>= fun res => s.proceed b rest res.1 res.2) := by
  congr 2

theorem Leads.refl (s : Setting) (start : Status) : s.Leads start (.ok start) := ⟨0, rfl⟩

theorem Leads.trans (first : s.Leads start (.ok between)) (second : s.Leads between outcome) :
    s.Leads start outcome := by
  obtain ⟨steps, reached⟩ := first
  obtain ⟨more, led⟩ := second
  exact ⟨steps + more, by rw [advance_add, reached, ok_bind, led]⟩

theorem Moves.leads (moves : s.Moves start next) : s.Leads start (.ok next) := by
  obtain ⟨steps, reached⟩ := moves
  exact ⟨steps + 1, reached⟩

theorem Moves.trans_leads (moves : s.Moves start between) (leads : s.Leads between (.ok next)) :
    s.Moves start next := by
  obtain ⟨steps, reached⟩ := moves
  obtain ⟨more, led⟩ := leads
  exact ⟨steps + more, by rw [Nat.add_right_comm, advance_add, reached, ok_bind, led]⟩

theorem Leads.trans_moves (leads : s.Leads start (.ok between)) (moves : s.Moves between next) :
    s.Moves start next := by
  obtain ⟨steps, reached⟩ := leads
  obtain ⟨more, moved⟩ := moves
  exact ⟨steps + more, by rw [Nat.add_assoc, advance_add, reached, ok_bind, moved]⟩

theorem Moves.of_step (stepped : s.step p m = .ok next) : s.Moves (.running p m) next := ⟨0, by simp [advance, stepped]⟩

theorem Leads.of_step (stepped : s.step p m = outcome) : s.Leads (.running p m) outcome := by
  refine ⟨1, ?_⟩
  cases outcome <;> simp [advance, stepped]

/-- A run that is over stays so. -/
theorem IsOver.later {steps : Nat} (isOver : s.IsOver steps start) (more : Nat) :
    s.advance (steps + more) start = s.advance steps start := by
  rw [advance_add]
  cases reached : s.advance steps start with
  | error cause => rfl
  | ok status =>
    cases status with
    | returned v m => exact advance_of_returned _ _ _ _
    | running p m => exact absurd reached (isOver p m)

theorem IsOver.of_advance (isOver : s.IsOver total start) (reached : s.advance steps start = .ok (.running p m)) :
    steps < total ∧ s.IsOver (total - steps) (.running p m) := by
  have isLess : steps < total := by
    refine Nat.not_le.mp fun isMore => isOver p m ?_
    rw [← isOver.later (steps - total), Nat.add_sub_cancel' isMore, reached]
  refine ⟨isLess, fun later final => ?_⟩
  have total := isOver later final
  rwa [← Nat.add_sub_cancel' (Nat.le_of_lt isLess), advance_add, reached] at total

theorem IsOver.of_leads (isOver : s.IsOver total start) (leads : s.Leads start (.ok (.running p m))) :
    ∃ fewer ≤ total, s.IsOver fewer (.running p m) := by
  obtain ⟨steps, reached⟩ := leads
  exact ⟨total - steps, sub_le _ _, (isOver.of_advance reached).2⟩

/-- A run that has moved on is over sooner. -/
theorem IsOver.of_moves (isOver : s.IsOver total start) (moves : s.Moves start (.running p m)) :
    ∃ fewer < total, s.IsOver fewer (.running p m) := by
  obtain ⟨steps, reached⟩ := moves
  obtain ⟨isLess, later⟩ := isOver.of_advance reached
  exact ⟨total - (steps + 1), by omega, later⟩

/-- What a run comes to if it is over after the given number of steps. -/
def finish (s : Setting) (steps : Nat) (start : Status) : RunOutcome RunResult := do
  match ← s.advance steps start with
  | .returned v m => return ⟨v, m⟩
  | .running _ _ => throw (.fault .endless)

/-- The run returns the value and leaves the machine, or it stops. -/
def Finishes (s : Setting) (start : Status) (outcome : RunOutcome RunResult) : Prop :=
  s.Leads start (outcome.map fun res => .returned res.value res.machine)

section

variable {res : RunOutcome RunResult}

theorem Finishes.isOver (finishes : s.Finishes start res) : ∃ steps, s.IsOver steps start ∧
    s.advance steps start = res.map fun res => .returned res.value res.machine := by
  obtain ⟨steps, reached⟩ := finishes
  refine ⟨steps, fun p m isRunning => ?_, reached⟩
  rw [reached] at isRunning
  cases res <;> cases isRunning

/-- A run comes to one end only. -/
theorem Finishes.unique (finishes : s.Finishes start res) (again : s.Finishes start o) : res = o := by
  obtain ⟨steps, isOver, reached⟩ := finishes.isOver
  obtain ⟨more, overMore, reachedMore⟩ := again.isOver
  have same := (isOver.later more).symm.trans ((congrArg (s.advance · start) (Nat.add_comm steps more)).trans
    (overMore.later steps))
  rw [reached, reachedMore] at same
  cases res with
  | error cause =>
    cases o with
    | error reason => rw [Except.error.inj same]
    | ok final => cases same
  | ok final =>
    cases o with
    | error reason => cases same
    | ok last =>
      obtain ⟨sameValue, sameMachine⟩ := returned.inj (Except.ok.inj same)
      rw [show final = last from by cases final; simp_all]

end

variable {limit : Nat} {next : Point} {after : Machine}

/-- A limited run steps as a free one, or is given up. -/
theorem step_limited (f : Func) (regs : TargetRegs) (limit : Nat) (p : Point) (m : Machine) :
    (⟨f, regs, some limit⟩ : Setting).step p m = .error (.refused .stepLimit) ∨
      (⟨f, regs, some limit⟩ : Setting).step p m = (f.free regs).step p m := by
  unfold step
  split
  · exact .inr rfl
  · split
    · exact .inl rfl
    · exact .inr rfl

/-- A limited run goes as a free one, or is given up. -/
theorem advance_limited (f : Func) (regs : TargetRegs) (limit steps : Nat) (start : Status) :
    (⟨f, regs, some limit⟩ : Setting).advance steps start = .error (.refused .stepLimit) ∨
      (⟨f, regs, some limit⟩ : Setting).advance steps start = (f.free regs).advance steps start := by
  induction steps generalizing start with
  | zero => exact .inr rfl
  | succ steps ih =>
    cases start with
    | returned => exact .inr rfl
    | running p m =>
      simp only [advance]
      rcases step_limited f regs limit p m with givenUp | same
      · rw [givenUp]
        exact .inl rfl
      · rw [same]
        cases (f.free regs).step p m with
        | error cause => exact .inr rfl
        | ok next => exact ih next

/-- How much a run under the limit has still to do at most: instructions, and falls between two of them. -/
def room (f : Func) (limit : Nat) (p : Point) (m : Machine) : Nat :=
  (limit - m.steps) * (f.layout.length + 1) + (Func.following p.block f.layout).length

theorem room_of_steps (below : m.steps < limit) (counted : after.steps = m.steps + 1) :
    room f limit next after < room f limit p m := by
  obtain ⟨left, isLeft⟩ : ∃ left, limit - m.steps = left + 1 := ⟨limit - m.steps - 1, by omega⟩
  have isNext : limit - after.steps = left := by omega
  have few := Func.length_following_le next.block f.layout
  unfold room
  rw [isLeft, isNext, succ_mul]
  omega

theorem step_within {limit : Option Nat} (laid : f.Laid) (within : p.Within f)
    (stepped : (⟨f, regs, limit⟩ : Setting).step p m = .ok (.running next after)) : next.Within f := by
  have free := step_unlimited stepped
  obtain ⟨b, rest⟩ := p
  cases rest with
  | nil =>
    obtain ⟨fallen, falls, isNext⟩ := step_nil.mp free
    obtain ⟨rfl, rfl⟩ := running.inj isNext
    obtain ⟨t, more, follows, rfl⟩ := (fallThrough_eq_ok laid within.inside).mp falls
    exact within_start (Func.following_next laid.once within.inside follows).1
  | cons inst rest =>
    obtain ⟨reached, ⟨_, isNext⟩ | ⟨t, start, ran, starts, isNext⟩ | ⟨v, _, isNext⟩⟩ := step_cons.mp free
    · obtain ⟨rfl, rfl⟩ := running.inj isNext
      exact within.tail
    · obtain ⟨rfl, rfl⟩ := running.inj isNext
      have inside := laid.targets b within.inside inst (within.part.subset (by simp)) t (perform_jump ran)
      rw [laid.startOf inside] at starts
      cases starts
      exact within_start inside
    · cases isNext

/-- Every step leaves less room before the limit. -/
theorem step_room (laid : f.Laid) (inside : p.block ∈ f.layout)
    (stepped : (⟨f, regs, some limit⟩ : Setting).step p m = .ok (.running next after)) :
    room f limit next after < room f limit p m := by
  have free := step_unlimited stepped
  obtain ⟨b, rest⟩ := p
  cases rest with
  | nil =>
    obtain ⟨fallen, falls, isNext⟩ := step_nil.mp free
    obtain ⟨rfl, rfl⟩ := running.inj isNext
    obtain ⟨t, more, follows, rfl⟩ := (fallThrough_eq_ok laid inside).mp falls
    simp [room, follows, (Func.following_next laid.once inside follows).2]
  | cons inst rest =>
    have below : m.steps < limit := by
      refine Nat.not_le.mp fun exhausted => ?_
      simp [step, isExhausted, exhausted, refuse] at stepped
    obtain ⟨reached, ⟨ran, isNext⟩ | ⟨_, _, ran, _, isNext⟩ | ⟨v, _, isNext⟩⟩ := step_cons.mp free
    · obtain ⟨rfl, rfl⟩ := running.inj isNext
      exact room_of_steps below (perform_steps ran)
    · obtain ⟨rfl, rfl⟩ := running.inj isNext
      exact room_of_steps below (perform_steps ran)
    · cases isNext

/-- A limited run is over when there is no room left. -/
theorem isOver_of_room (laid : f.Laid) (within : p.Within f) (enough : room f limit p m < steps) :
    (⟨f, regs, some limit⟩ : Setting).IsOver steps (.running p m) := by
  induction steps generalizing p m with
  | zero => omega
  | succ steps ih =>
    intro last final reached
    obtain ⟨next, stepped, reached⟩ := bind_inv reached
    cases next with
    | returned v after =>
      rw [advance_of_returned] at reached
      cases reached
    | running next after =>
      have isLess := step_room laid within.inside stepped
      exact ih (step_within laid within stepped) (by omega) last final reached

end Setting

namespace Func

/-- The function, run from the machine and without a limit on instructions, comes to the outcome. -/
def Finishes (f : Func) (regs : TargetRegs) (m : Machine) (outcome : RunOutcome RunResult) : Prop :=
  ∃ start, (f.free regs).enter m = .ok start ∧ (f.free regs).Finishes start outcome

/-- A run finishes in one way. -/
theorem Finishes.unique {outcome : RunOutcome RunResult}
    (finishes : f.Finishes regs m outcome) (again : f.Finishes regs m o) : outcome = o := by
  obtain ⟨start, entered, finished⟩ := finishes
  obtain ⟨place, enteredAgain, finishedAgain⟩ := again
  obtain rfl := ok_unique entered enteredAgain
  exact finished.unique finishedAgain

/-- Run a function from the machine, and give up when it has executed the number of instructions. -/
def runWithin (f : Func) (regs : TargetRegs) (limit : Nat) (m : Machine) : RunOutcome RunResult := do
  let s : Setting := ⟨f, regs, some limit⟩
  s.finish ((limit + 1) * (f.layout.length + 1)) (← s.enter m)

theorem run_eq (f : Func) (regs : TargetRegs) : f.run regs = (do f.runWithin regs stepLimit (← initial regs)) := by
  unfold run
  cases initial regs with
  | error fault => rfl
  | ok m => rfl

theorem Laid.enter (laid : f.Laid) (limit : Option Nat) (m : Machine) :
    (⟨f, regs, limit⟩ : Setting).enter m = .ok (.running ⟨f.entry, f.codeOf f.entry⟩ m) := by
  unfold Setting.enter
  rw [laid.startOf laid.entered]
  rfl

theorem Laid.runWithin_eq (laid : f.Laid) (limit : Nat) (m : Machine) : f.runWithin regs limit m =
    (⟨f, regs, some limit⟩ : Setting).finish ((limit + 1) * (f.layout.length + 1))
      (.running ⟨f.entry, f.codeOf f.entry⟩ m) := by
  unfold runWithin
  dsimp only
  rw [laid.enter, liftM_ok]
  rfl

/-- A run under the limit is never cut short. -/
theorem Laid.isOver (laid : f.Laid) (limit : Nat) (m : Machine) :
    (⟨f, regs, some limit⟩ : Setting).IsOver ((limit + 1) * (f.layout.length + 1))
      (.running ⟨f.entry, f.codeOf f.entry⟩ m) := by
  refine Setting.isOver_of_room laid (within_start laid.entered) ?_
  have few := length_following_le f.entry f.layout
  have fewer := mul_le_mul_right (f.layout.length + 1) (sub_le limit m.steps)
  simp only [Setting.room, succ_mul]
  omega

/-- A run is given up or is one that finishes. -/
theorem Laid.finishes_run (laid : f.Laid) (initial : initial regs = .ok m) :
    f.run regs = .error (.refused .stepLimit) ∨ f.Finishes regs m (f.run regs) := by
  have isOver := @isOver f regs laid stepLimit m
  rw [run_eq, initial, liftM_ok, ok_bind, laid.runWithin_eq, Setting.finish]
  rcases Setting.advance_limited f regs stepLimit _ _ with givenUp | same
  · rw [givenUp]
    exact .inl rfl
  · refine .inr ⟨_, laid.enter none m, (stepLimit + 1) * (f.layout.length + 1), ?_⟩
    rw [← same]
    cases reached : (⟨f, regs, some stepLimit⟩ : Setting).advance ((stepLimit + 1) * (f.layout.length + 1))
        (.running ⟨f.entry, f.codeOf f.entry⟩ m) with
    | error cause => rfl
    | ok last =>
      cases last with
      | returned v final => rfl
      | running p final => exact absurd reached (isOver p final)

end Func

end SinglePath
