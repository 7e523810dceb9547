import SinglePath.Proofs.Flow.Runs
import SinglePath.Proofs.Func.Edges
import SinglePath.Proofs.Machine.Agreement

namespace SinglePath

open List Machine Status

variable {words : Nat → UInt32} {m one two : Machine} {Related : Point → Machine → Point → Machine → Prop}
  {f next : Func} {regs : TargetRegs} {b : BlockId} {inst : Inst}

/-- The value and the printed text of a run that returns, or why it stops. -/
abbrev Ending := RunOutcome (UInt32 × String)

variable {ending : Ending}

/-- The instruction to run next is a call. -/
def Point.atCall (p : Point) : Bool := p.rest.head?.any Inst.isCall

/-- The machine after an instruction, with the given word as the return offset that a call has left. -/
def Machine.given (m : Machine) (isCall : Bool) (word : UInt32) : Machine :=
  if isCall then { m with returnOffset := word } else m

section

variable (m : Machine) (isCall : Bool) (word : UInt32)

@[simp] theorem Machine.reg_given (r : GReg) : (m.given isCall word).reg r = m.reg r := by
  unfold given
  split <;> rfl

@[simp] theorem Machine.pred_given (r : PReg) : (m.given isCall word).pred r = m.pred r := by
  unfold given
  split <;> rfl

@[simp] theorem Machine.readStack_given (k : Int) : (m.given isCall word).readStack k = m.readStack k := by
  unfold given
  split <;> rfl

/-- Machines that agree after an instruction also agree on a return offset that they are given. -/
theorem Machine.Agrees.given {hidden : Int → Prop} {before : Machine}
    (agrees : Agrees hidden (before.staleAfter inst false) one two) (word : UInt32) :
    Agrees hidden false (one.given inst.isCall word) (two.given inst.isCall word) := by
  unfold Machine.given
  split
  · exact { agrees with returnOffset := fun _ => rfl }
  · rename_i notCall
    have fresh : before.staleAfter inst false = false := by simp [staleAfter, notCall]
    exact { agrees with returnOffset := fun _ => agrees.returnOffset fresh }

end

namespace Setting

/-- One step of the run. A call leaves the given word as return offset. -/
def stepGiven (s : Setting) (word : UInt32) (p : Point) (m : Machine) : RunOutcome Status := do
  match ← s.step p m with
  | .running next after => return .running next (after.given p.atCall word)
  | .returned v after => return .returned v after

/-- The number of calls that were made, one step later. -/
def callsAfter (calls : Nat) (p : Point) : Nat := if p.atCall then calls + 1 else calls

/-- The run has the ending if its calls leave the words one after another, beginning with the one of the given
number. -/
inductive Ends (s : Setting) (words : Nat → UInt32) : Nat → Status → Ending → Prop where
  | returned {calls : Nat} {v : UInt32} {m : Machine} :
      Ends s words calls (.returned v m) (.ok (v, m.printed))
  | stopped {calls : Nat} {p : Point} {m : Machine} {cause : Failure RunError}
      (stops : s.stepGiven (words calls) p m = .error cause) :
      Ends s words calls (.running p m) (.error cause)
  | later {calls : Nat} {p : Point} {m : Machine} {next : Status} {ending : Ending}
      (stepped : s.stepGiven (words calls) p m = .ok next)
      (ends : Ends s words (callsAfter calls p) next ending) :
      Ends s words calls (.running p m) ending

/-- The run comes to the point with the machine. -/
inductive Visits (s : Setting) (words : Nat → UInt32) : Nat → Status → Point → Machine → Prop where
  | now {calls : Nat} {p : Point} {m : Machine} :
      Visits s words calls (.running p m) p m
  | later {calls : Nat} {p reached : Point} {m final : Machine} {next : Status}
      (stepped : s.stepGiven (words calls) p m = .ok next)
      (visits : Visits s words (callsAfter calls p) next reached final) :
      Visits s words calls (.running p m) reached final

/-- The next step leads from the end of a block, or by a branch, to the start of the target. -/
def Transfers (s : Setting) (p : Point) (m : Machine) (t : BlockId) : Prop :=
  (p.rest = [] ∧ s.func.layoutNext p.block = some t) ∨
    ∃ inst rest after, p.rest = inst :: rest ∧ m.perform s.regs inst = .ok (after, .jump t)

end Setting

/-- The edge stands in the successors of its source and in the predecessors of its target. -/
def Func.IsEdge (f : Func) (u t : BlockId) : Prop :=
  t ∈ f.succsOf u ∧ u ∈ f.predsOf t

instance (f : Func) (u t : BlockId) : Decidable (f.IsEdge u t) :=
  inferInstanceAs (Decidable (_ ∧ _))

namespace Setting

variable {s : Setting} {calls : Nat} {p : Point} {status : Status} {word : UInt32}

/-- Every step of the run from one block to another is along an edge. -/
def FollowsEdges (s : Setting) (words : Nat → UInt32) (calls : Nat) (status : Status) : Prop :=
  ∀ p m, s.Visits words calls status p m →
    ∀ t, s.Transfers p m t → s.func.IsEdge p.block t

theorem FollowsEdges.now (follows : s.FollowsEdges words calls (.running p m)) {t : BlockId}
    (transfers : s.Transfers p m t) : s.func.IsEdge p.block t :=
  follows p m .now t transfers

theorem FollowsEdges.later (follows : s.FollowsEdges words calls (.running p m)) {next : Status}
    (stepped : s.stepGiven (words calls) p m = .ok next) : s.FollowsEdges words (callsAfter calls p) next :=
  fun reached final visits => follows reached final (.later stepped visits)

/-- Statuses at which two runs cannot be told apart. -/
inductive Alike (Related : Point → Machine → Point → Machine → Prop) : Status → Status → Prop where
  | running {first second : Point} {one two : Machine} (related : Related first one second two) :
      Alike Related (.running first one) (.running second two)
  | returned {v : UInt32} {one two : Machine} (printed : one.printed = two.printed) :
      Alike Related (.returned v one) (.returned v two)

/-- What two related runs do next: the first run has one instruction more and does it alone, or it fails at that
instruction, which may happen if the passes are lossy, or both do the same. -/
inductive Advance (u t : Setting) (lossy : Prop) (Related : Point → Machine → Point → Machine → Prop)
    (first : Point) (one : Machine) (second : Point) (two : Machine) : Prop where
  | alone {next : Point} {after : Machine} (stepped : u.step first one = .ok (.running next after))
      (quiet : first.atCall = false) (shorter : next.rest.length < first.rest.length)
      (related : Related next after second two)
  | lost (isLossy : lossy) {fault : Fault} (quiet : first.atCall = false)
      (stops : u.step first one = .error (.fault fault))
  | both (calls : first.atCall = second.atCall)
      (alike : ∀ word, Same (Alike Related) (u.stepGiven word first one) (t.stepGiven word second two))

section

variable {u t : Setting} {lossy : Prop} {o : Status}

theorem stepGiven_of_quiet (quiet : p.atCall = false) (word : UInt32)
    (m : Machine) : s.stepGiven word p m = s.step p m := by
  simp only [stepGiven, quiet, given, Bool.false_eq_true, if_false]
  rcases s.step p m with cause | ⟨next, after⟩ | ⟨v, after⟩ <;> rfl

theorem callsAfter_of_quiet (quiet : p.atCall = false) (calls : Nat) : callsAfter calls p = calls := by
  simp [callsAfter, quiet]

theorem Alike.flip (alike : Alike Related status o) :
    Alike (fun first one second two => Related second two first one) o status := by
  cases alike with
  | running related => exact .running related
  | returned printed => exact .returned printed.symm

/-- Two runs that make the same steps have the same end. -/
theorem Ends.lockstep {others : Nat → UInt32} {Related : Nat → Nat → Point → Machine → Point → Machine → Prop}
    (step : ∀ calls n first one second two, Related calls n first one second two →
      Same (Alike (Related (callsAfter calls first) (callsAfter n second)))
        (u.stepGiven (words calls) first one) (t.stepGiven (others n) second two))
    {calls n : Nat} {status o : Status} {ending : Ending} (ends : u.Ends words calls status ending)
    (alike : Alike (Related calls n) status o) : t.Ends others n o ending := by
  induction ends generalizing n o with
  | returned =>
    cases alike with
    | returned printed =>
      rw [printed]
      exact .returned
  | stopped stops =>
    cases alike with
    | running related =>
      have same := step _ _ _ _ _ _ related
      rw [stops] at same
      refine .stopped ?_
      generalize t.stepGiven _ _ _ = res at same
      cases same
      rfl
  | later stepped _ ih =>
    cases alike with
    | running related =>
      have same := step _ _ _ _ _ _ related
      rw [stepped] at same
      generalize isResult : t.stepGiven _ _ _ = res at same
      cases same with
      | ok alikeNext => exact .later isResult (ih alikeNext)

variable
  (advance : ∀ first one second two, Related first one second two → (∀ b, u.Transfers first one b →
    u.func.IsEdge first.block b) → Advance u t lossy Related first one second two)

include advance

/-- The second run ends as the first one does, but for a fault that it does not have. -/
theorem Ends.forward (ends : u.Ends words calls status ending) (follows : u.FollowsEdges words calls status)
    (alike : Alike Related status o) :
    t.Ends words calls o ending ∨ lossy ∧ ∃ fault, ending = .error (.fault fault) := by
  induction ends generalizing o with
  | returned =>
    cases alike with
    | returned printed =>
      rw [printed]
      exact .inl .returned
  | @stopped calls p m cause stops =>
    cases alike with
    | @running _ second _ two related =>
      cases advance _ _ _ _ related fun b => follows.now with
      | alone stepped quiet => simp [stepGiven_of_quiet quiet, stepped] at stops
      | @lost isLossy fault quiet fails =>
        rw [stepGiven_of_quiet quiet, fails] at stops
        exact .inr ⟨isLossy, fault, by rw [← Except.error.inj stops]⟩
      | both _ alike =>
        refine .inl (.stopped ?_)
        have same := alike (words calls)
        rw [stops] at same
        generalize t.stepGiven (words calls) second two = res at same
        cases same
        rfl
  | @later calls p m next ending stepped _ ih =>
    cases alike with
    | @running _ second _ two related =>
      have later := follows.later stepped
      cases advance _ _ _ _ related fun b => follows.now with
      | alone moved quiet _ related =>
        rw [callsAfter_of_quiet quiet] at later ih
        rw [stepGiven_of_quiet quiet, moved] at stepped
        cases stepped
        exact ih later (.running related)
      | lost _ quiet fails =>
        rw [stepGiven_of_quiet quiet, fails] at stepped
        cases stepped
      | both sameCall alike =>
        have same := alike (words calls)
        rw [stepped] at same
        generalize isResult : t.stepGiven (words calls) second two = res at same
        cases same with
        | ok alikeNext =>
          refine (ih later alikeNext).imp_left fun ends => .later isResult ?_
          rwa [callsAfter, ← sameCall]

/-- The first run does alone what it has to do alone, and then both do the same. -/
theorem catch_up {first second : Point} (related : Related first one second two)
    (follows : u.FollowsEdges words calls (.running first one)) :
    (lossy ∧ ∃ fault, u.Ends words calls (.running first one) (.error (.fault fault))) ∨
      ∃ reached after, reached.atCall = second.atCall ∧
        (∀ word, Same (Alike Related) (u.stepGiven word reached after) (t.stepGiven word second two)) ∧
        u.FollowsEdges words calls (.running reached after) ∧
        ∀ ending, u.Ends words calls (.running reached after) ending →
          u.Ends words calls (.running first one) ending := by
  induction size : first.rest.length using Nat.strongRecOn generalizing first one with
  | ind size ih =>
    cases advance _ _ _ _ related fun b => follows.now with
    | alone moved quiet shorter related =>
      have stepped := (stepGiven_of_quiet quiet (words calls) one).trans moved
      have later := follows.later stepped
      rw [callsAfter_of_quiet quiet] at later
      have prepend : ∀ ending, u.Ends words calls (.running _ _) ending →
          u.Ends words calls (.running first one) ending :=
        fun ending ends => .later stepped (by rwa [callsAfter_of_quiet quiet])
      rcases ih _ (size ▸ shorter) related later rfl with
        ⟨isLossy, fault, ends⟩ | ⟨reached, after, sameCall, alike, further, resumes⟩
      · exact .inl ⟨isLossy, fault, prepend _ ends⟩
      · exact .inr ⟨reached, after, sameCall, alike, further, fun ending ends => prepend _ (resumes _ ends)⟩
    | lost isLossy quiet fails =>
      exact .inl ⟨isLossy, _, .stopped ((stepGiven_of_quiet quiet _ _).trans fails)⟩
    | both sameCall alike => exact .inr ⟨first, one, sameCall, alike, follows, fun _ => id⟩

/-- The first run ends as the second one does, or it stops at a fault that the second one does not have. -/
theorem Ends.backward (ends : t.Ends words calls o ending) (follows : u.FollowsEdges words calls status)
    (alike : Alike Related status o) :
    u.Ends words calls status ending ∨ lossy ∧ ∃ fault, u.Ends words calls status (.error (.fault fault)) := by
  induction ends generalizing status with
  | returned =>
    cases alike with
    | returned printed =>
      rw [← printed]
      exact .inl .returned
  | @stopped calls p m cause stops =>
    cases alike with
    | running related =>
      rcases catch_up advance related follows with lost | ⟨reached, after, _, alike, _, resumes⟩
      · exact .inr lost
      · refine .inl (resumes _ (.stopped ?_))
        have same := alike (words calls)
        rw [stops] at same
        generalize u.stepGiven (words calls) reached after = res at same
        cases same
        rfl
  | @later calls p m next ending stepped _ ih =>
    cases alike with
    | running related =>
      rcases catch_up advance related follows with lost | ⟨reached, after, sameCall, alike, further, resumes⟩
      · exact .inr lost
      · have same := alike (words calls)
        rw [stepped] at same
        generalize isResult : u.stepGiven (words calls) reached after = res at same
        cases same with
        | ok alikeNext =>
          have sameCalls : callsAfter calls reached = callsAfter calls p := by simp only [callsAfter, sameCall]
          have resume : ∀ ending, u.Ends words (callsAfter calls p) _ ending →
              u.Ends words calls _ ending :=
            fun ending ends => resumes ending (.later isResult (sameCalls ▸ ends))
          exact (ih (sameCalls ▸ further.later isResult) alikeNext).imp (resume _)
            fun ⟨isLossy, fault, ends⟩ => ⟨isLossy, fault, resume _ ends⟩

end

section

variable {rest : List Inst}

/-- Both runs go on at the start of the target. -/
def Lands (f next : Func) (Related : Point → Machine → Point → Machine → Prop) (t : BlockId) (one two : Machine) :
    Prop :=
  ∃ here there, f.startOf t = .ok here ∧ next.startOf t = .ok there ∧ Related here one there two

theorem stepGiven_cons (word : UInt32) (inst : Inst) (rest : List Inst) (m : Machine) :
    (f.free regs).stepGiven word ⟨b, inst :: rest⟩ m = do
      let res ← m.perform regs inst
      match res.2 with
      | .next => return .running ⟨b, rest⟩ (res.1.given inst.isCall word)
      | .jump t => return .running (← f.startOf t) (res.1.given inst.isCall word)
      | .leave v => return .returned v res.1 := by
  change (m.perform regs inst >>= _) >>= _ = _
  rcases m.perform regs inst with cause | ⟨after, _ | t | v⟩
  · rfl
  · rfl
  · rcases started : f.startOf t with fault | start <;> simp only [started, ok_bind] <;> rfl
  · rfl

/-- Two runs at the same instruction do the same if it has the same effect on both machines. -/
theorem alike_of_perform {kept : List Inst}
    (performs : Same (fun first second => first.2 = second.2 ∧ first.1.printed = second.1.printed ∧
      (first.2 = .next → Related ⟨b, rest⟩ (first.1.given inst.isCall word) ⟨b, kept⟩
        (second.1.given inst.isCall word)) ∧
      ∀ t, first.2 = .jump t → Lands f next Related t (first.1.given inst.isCall word)
        (second.1.given inst.isCall word)) (one.perform regs inst) (two.perform regs inst)) :
    Same (Alike Related) ((f.free regs).stepGiven word ⟨b, inst :: rest⟩ one)
      ((next.free regs).stepGiven word ⟨b, inst :: kept⟩ two) := by
  rw [stepGiven_cons, stepGiven_cons]
  refine performs.bind ?_
  rintro ⟨first, transfer⟩ ⟨second, o⟩ ⟨same, printed, goesOn, jumps⟩
  obtain rfl := same
  cases transfer with
  | next => exact .ok (.running (goesOn rfl))
  | jump t =>
    obtain ⟨here, there, started, startedNext, related⟩ := jumps t rfl
    simp only [started, startedNext]
    exact .ok (.running related)
  | leave v => exact .ok (.returned printed)

/-- Two runs at the end of a block do the same if they fall to the same block. -/
theorem alike_of_fall (sameLayout : next.layout = f.layout) {body kept : Block}
    (found : f.block? b = some body) (foundNext : next.block? b = some kept) (sameName : kept.name = body.name)
    (lands : ∀ t, f.layoutNext b = some t → Lands f next Related t one two) (word : UInt32) :
    Same (Alike Related) ((f.free regs).stepGiven word ⟨b, []⟩ one)
      ((next.free regs).stepGiven word ⟨b, []⟩ two) := by
  have quiet : (⟨b, []⟩ : Point).atCall = false := rfl
  rw [stepGiven_of_quiet quiet, stepGiven_of_quiet quiet]
  simp only [step, fallThrough]
  have sameNext : next.layoutNext b = f.layoutNext b := by rw [Func.layoutNext, Func.layoutNext, sameLayout]
  rw [sameNext]
  cases falls : f.layoutNext b with
  | none =>
    simp only [Func.get_eq_ok.mpr found, Func.get_eq_ok.mpr foundNext, liftM_ok, ok_bind, sameName]
    exact .error _
  | some t =>
    obtain ⟨here, there, started, startedNext, related⟩ := lands t falls
    simp only [started, startedNext]
    exact .ok (.running related)

theorem step_of_perform {after : Machine} (ran : m.perform regs inst = .ok (after, .next)) :
    (f.free regs).step ⟨b, inst :: rest⟩ m = .ok (.running ⟨b, rest⟩ after) :=
  step_cons.mpr ⟨after, .inl ⟨ran, rfl⟩⟩

theorem step_of_failure {cause : Failure RunError} (ran : m.perform regs inst = .error cause) :
    (f.free regs).step ⟨b, inst :: rest⟩ m = .error cause := by
  have stepped : (f.free regs).step ⟨b, inst :: rest⟩ m = m.perform regs inst >>= _ := rfl
  rw [stepped, ran]
  rfl

end

/-- The run, in which calls leave what they leave, has the ending. -/
def Halts (s : Setting) (start : Status) (ending : Ending) : Prop :=
  ∃ steps, (∃ v final, s.advance steps start = .ok (.returned v final) ∧ ending = .ok (v, final.printed)) ∨
    ∃ cause, s.advance steps start = .error cause ∧ ending = .error cause

/-- The call of the given number, counted from here, leaves the word in the run. -/
inductive Left (s : Setting) : Nat → Status → UInt32 → Prop where
  | now {p next : Point} {m after : Machine} (atCall : p.atCall = true)
      (stepped : s.step p m = .ok (.running next after)) :
      Left s 0 (.running p m) after.returnOffset
  | later {call number : Nat} {p : Point} {m : Machine} {next : Status} {word : UInt32}
      (stepped : s.step p m = .ok next) (left : Left s call next word)
      (counted : number = callsAfter call p) : Left s number (.running p m) word

theorem Left.unique {number : Nat} {o : UInt32} (left : s.Left number status word)
    (again : s.Left number status o) : word = o := by
  induction left with
  | now atCall stepped =>
    cases again with
    | now _ steppedAgain => rw [(running.inj (ok_unique stepped steppedAgain)).2]
    | later _ _ counted => simp [callsAfter, atCall] at counted
  | later stepped _ counted ih =>
    cases again with
    | now atCall => simp [callsAfter, atCall] at counted
    | later steppedAgain left countedAgain =>
      have same := counted.symm.trans countedAgain
      unfold callsAfter at same
      exact ih (by split at same <;> simp_all)

/-- The words, from the given number on, are what the calls of the run leave. -/
def Own (s : Setting) (words : Nat → UInt32) (calls : Nat) (status : Status) : Prop :=
  ∀ call word, s.Left call status word → words (calls + call) = word

theorem exists_own (s : Setting) (status : Status) : ∃ words, s.Own words 0 status := by
  refine ⟨fun call => Classical.epsilon (s.Left call status), fun call word left => ?_⟩
  rw [Nat.zero_add]
  exact Left.unique (Classical.epsilon_spec ⟨word, left⟩) left

theorem Own.later (own : s.Own words calls (.running p m)) {next : Status}
    (stepped : s.step p m = .ok next) : s.Own words (callsAfter calls p) next := by
  intro call word left
  rw [← own _ word (.later stepped left rfl)]
  unfold callsAfter
  congr 1
  split <;> omega

/-- A call that is given its own word does what it does. -/
theorem Own.stepGiven (own : s.Own words calls (.running p m)) : s.stepGiven (words calls) p m = s.step p m := by
  cases isCall : p.atCall with
  | false => exact stepGiven_of_quiet isCall ..
  | true =>
    rw [Setting.stepGiven]
    rcases stepped : s.step p m with cause | ⟨next, after⟩ | ⟨v, after⟩
    · rfl
    · rw [← Nat.add_zero calls, own 0 _ (.now isCall stepped)]
      simp only [ok_bind, given, ite_self]
      rfl
    · rfl

theorem Own.ends_iff (own : s.Own words calls status) : s.Ends words calls status ending ↔
    s.Halts status ending := by
  constructor
  · intro ends
    induction ends with
    | returned => exact ⟨0, .inl ⟨_, _, rfl, rfl⟩⟩
    | stopped stops =>
      rw [own.stepGiven] at stops
      exact ⟨1, .inr ⟨_, by rw [advance, stops]; rfl, rfl⟩⟩
    | later stepped _ ih =>
      rw [own.stepGiven] at stepped
      obtain ⟨steps, halts⟩ := ih (own.later stepped)
      exact ⟨steps + 1, by rwa [advance, stepped]⟩
  · rintro ⟨steps, halts⟩
    induction steps generalizing status calls with
    | zero =>
      rcases halts with ⟨v, final, advanced, rfl⟩ | ⟨cause, advanced, _⟩
      · cases advanced
        exact .returned
      · cases advanced
    | succ steps ih =>
      cases status with
      | returned v m =>
        rcases halts with ⟨o, final, advanced, rfl⟩ | ⟨cause, advanced, _⟩
        · obtain ⟨rfl, rfl⟩ := returned.inj (Except.ok.inj advanced)
          exact .returned
        · cases advanced
      | running p m =>
        rw [advance] at halts
        cases stepped : s.step p m with
        | error cause =>
          rw [stepped] at halts
          rcases halts with ⟨v, final, advanced, _⟩ | ⟨o, advanced, rfl⟩
          · cases advanced
          · obtain rfl := Except.error.inj advanced
            exact .stopped (own.stepGiven.trans stepped)
        | ok next =>
          rw [stepped] at halts
          exact .later (own.stepGiven.trans stepped) (ih (own.later stepped) halts)

end Setting

namespace Func

/-- The function has the ending if it is entered with the machine and its calls leave the words one after another. -/
def EndsAs (f : Func) (regs : TargetRegs) (words : Nat → UInt32) (m : Machine) (ending : Ending) : Prop :=
  ∃ start, (f.free regs).enter m = .ok start ∧
    (f.free regs).Ends words 0 start ending

/-- All steps of that run from one block to another are along edges. -/
def FollowsEdges (f : Func) (regs : TargetRegs) (words : Nat → UInt32) (m : Machine) : Prop :=
  ∀ start, (f.free regs).enter m = .ok start →
    (f.free regs).FollowsEdges words 0 start

/-- The run, in which calls leave what they leave, has the ending. -/
def HaltsAs (f : Func) (regs : TargetRegs) (m : Machine) (ending : Ending) : Prop :=
  ∃ start, (f.free regs).enter m = .ok start ∧ (f.free regs).Halts start ending

theorem exists_words (f : Func) (regs : TargetRegs) (m : Machine) :
    ∃ words, ∀ ending, f.EndsAs regs words m ending ↔ f.HaltsAs regs m ending := by
  cases enters : (f.free regs).enter m with
  | error fault => exact ⟨fun _ => 0, fun ending => by simp [EndsAs, HaltsAs, enters]⟩
  | ok start =>
    obtain ⟨words, own⟩ := Setting.exists_own ⟨f, regs, none⟩ start
    exact ⟨words, fun ending => by simp [EndsAs, HaltsAs, enters, own.ends_iff]⟩

theorem HaltsAs.endsAs (halts : f.HaltsAs regs m ending) : ∃ words, f.EndsAs regs words m ending := by
  obtain ⟨words, same⟩ := f.exists_words regs m
  exact ⟨words, (same ending).mpr halts⟩

theorem mem_of_nextAfterLast {next : BlockId} {layout : List BlockId}
    (follows : nextAfterLast b layout = some next) : b ∈ layout := by
  induction layout with
  | nil => cases follows
  | cons first rest ih =>
    rw [nextAfterLast] at follows
    split at follows
    · rename_i isFirst
      exact isFirst.1 ▸ .head _
    · exact .tail _ (ih follows)

/-- Control stays on edges between the given blocks if there is one to the target of each branch and to the next block
of the layout. -/
theorem followsEdges_of_inside {f : Func} {Inside : BlockId → Prop} (entered : Inside f.entry)
    (targets : ∀ b body, Inside b → f.block? b = some body → ∀ t ∈ body.branchTargets,
      f.IsEdge b t ∧ Inside t) (falls : ∀ b, Inside b → ∀ next ∈ f.layoutNext b, f.IsEdge b next ∧ Inside next)
    (regs : TargetRegs) (words : Nat → UInt32) (m : Machine) : f.FollowsEdges regs words m := by
  -- What is left of a block is a last part of its instructions.
  let Partly (p : Point) : Prop := Inside p.block ∧ ∃ body, f.block? p.block = some body ∧ p.rest <:+ body.insts
  have started : ∀ {b : BlockId} {start : Point}, Inside b → f.startOf b = .ok start → Partly start := by
    intro b start inside isStart
    obtain ⟨body, got, rfl⟩ := bind_pure_inv isStart
    exact ⟨inside, body, get_eq_ok.mp got, suffix_refl _⟩
  have jumps : ∀ {p : Point} {inst : Inst} {rest : List Inst} {before after : Machine} {t : BlockId},
      Partly p → p.rest = inst :: rest → before.perform regs inst = .ok (after, .jump t) →
      f.IsEdge p.block t ∧ Inside t := by
    rintro p inst rest before after t ⟨inside, body, found, part⟩ isRest ran
    refine targets _ body inside found t (mem_filterMap.mpr ⟨inst, part.subset ?_, perform_jump ran⟩)
    rw [isRest]
    exact .head _
  have stays : ∀ {calls : Nat} {status : Status} {p : Point} {final : Machine},
      (f.free regs).Visits words calls status p final →
      (∀ start before, status = .running start before → Partly start) → Partly p := by
    intro calls status p final visits
    induction visits with
    | now => exact fun within => within _ _ rfl
    | @later calls start reached before final next stepped _ ih =>
      intro within
      obtain ⟨inside, body, found, part⟩ := within _ _ rfl
      refine ih fun after m isNext => ?_
      subst isNext
      obtain ⟨b, rest⟩ := start
      cases rest with
      | nil =>
        rw [Setting.stepGiven_of_quiet rfl] at stepped
        obtain ⟨fallen, fell, same⟩ := Setting.step_nil.mp stepped
        obtain ⟨rfl, rfl⟩ := running.inj same
        unfold Setting.fallThrough at fell
        split at fell
        · rename_i falling
          exact started (falls _ inside _ falling).2 (liftM_inv (by simpa using fell))
        · obtain ⟨_, _, refused⟩ := bind_inv fell
          exact absurd refused refuse_ne_ok
      | cons inst rest =>
        rw [Setting.stepGiven_cons] at stepped
        obtain ⟨⟨after, transfer⟩, ran, res⟩ := bind_inv stepped
        cases transfer with
        | next =>
          obtain ⟨rfl, rfl⟩ := running.inj (pure_inv res)
          exact ⟨inside, body, found, (suffix_cons inst rest).trans part⟩
        | jump t =>
          obtain ⟨landed, isStart, res⟩ := bind_inv res
          obtain ⟨rfl, rfl⟩ := running.inj (pure_inv res)
          exact started (jumps (within _ _ rfl) rfl ran).2 (liftM_inv isStart)
        | leave v => exact nomatch pure_inv res
  intro start enters p reached visits t transfers
  obtain ⟨begun, isEntry, rfl⟩ := bind_pure_inv enters
  have partly := stays visits fun o before same => by
    obtain ⟨rfl, _⟩ := running.inj same
    exact started entered isEntry
  rcases transfers with ⟨_, falling⟩ | ⟨inst, rest, after, isRest, ran⟩
  · exact (falls _ partly.1 _ falling).1
  · exact (jumps partly isRest ran).1

/-- Control stays on edges if there is one to the target of each branch and to the next block of the layout. -/
theorem followsEdges_of_targets (targets : ∀ body ∈ f.blocks.zipIdx, ∀ t ∈ body.1.branchTargets, f.IsEdge ⟨body.2⟩ t)
    (falls : ∀ b ∈ f.layout, ∀ next ∈ f.layoutNext b, f.IsEdge b next) (regs : TargetRegs)
    (words : Nat → UInt32) (m : Machine) : f.FollowsEdges regs words m := by
  refine @followsEdges_of_inside f (fun _ => True) trivial (fun b body _ found t isTarget => ⟨?_, trivial⟩)
    (fun b _ next falling => ⟨falls b (mem_of_nextAfterLast falling) next falling, trivial⟩) regs words m
  exact targets (body, b.index) (mk_mem_zipIdx_iff_getElem?.mpr found) t isTarget

/-- Two functions that are related at their entries end alike. -/
theorem endsAs_of_advance {lossy : Prop} (advance : ∀ first one second two, Related first one second two →
      (∀ b, (f.free regs).Transfers first one b → f.IsEdge first.block b) →
      Setting.Advance ⟨f, regs, none⟩ ⟨next, regs, none⟩ lossy Related first one second two)
    (e : next.entry = f.entry) (lands : Setting.Lands f next Related f.entry m m)
    (follows : f.FollowsEdges regs words m) (ending : Ending) : (f.EndsAs regs words m ending →
        next.EndsAs regs words m ending ∨ lossy ∧ ∃ fault, ending = .error (.fault fault)) ∧
      (next.EndsAs regs words m ending →
        f.EndsAs regs words m ending ∨ lossy ∧ ∃ fault, f.EndsAs regs words m (.error (.fault fault))) := by
  obtain ⟨here, there, started, startedNext, related⟩ := lands
  have enters : (f.free regs).enter m = .ok (.running here m) := by
    rw [Setting.enter, started]
    rfl
  have entersNext : (next.free regs).enter m = .ok (.running there m) := by
    rw [Setting.enter, e, startedNext]
    rfl
  have along := follows _ enters
  constructor
  · rintro ⟨start, isStart, ends⟩
    obtain rfl := ok_unique enters isStart
    exact (ends.forward advance along (.running related)).imp_left fun ends => ⟨_, entersNext, ends⟩
  · rintro ⟨start, isStart, ends⟩
    obtain rfl := ok_unique entersNext isStart
    exact (ends.backward advance along (.running related)).imp (fun ends => ⟨_, enters, ends⟩)
      fun ⟨isLossy, fault, ends⟩ => ⟨isLossy, fault, _, enters, ends⟩

end Func

end SinglePath
