import SinglePath.Proofs.Flow.Endings

/-!
What a function gives: the value that it returns and the text that it prints, from the machine in which its caller
enters it and without a limit on instructions.
-/

namespace SinglePath

open List Machine Status

variable {f o : Func} {regs : TargetRegs} {m : Machine} {v : UInt32} {text otherText : String}

theorem Machine.initial_constant (initial : initial regs = .ok m) : m.pred PReg.zero = true := by
  obtain ⟨guard, _, written⟩ := bind_inv initial
  obtain ⟨inside, rfl⟩ := writePred_eq_ok.mp written
  rw [pred_withPred, if_neg (fun same => same.2.1 same.1.symm)]
  rfl

namespace Setting

variable {s : Setting} {start : Status} {steps : Nat}

theorem step_unlimited {p : Point} {next : Status} (stepped : s.step p m = .ok next) :
    (⟨s.func, s.regs, none⟩ : Setting).step p m = .ok next := by
  unfold step at stepped ⊢
  split at stepped
  · exact stepped
  · split at stepped
    · cases stepped
    · exact stepped

theorem advance_unlimited {final : Status} (reached : s.advance steps start = .ok final) :
    (⟨s.func, s.regs, none⟩ : Setting).advance steps start = .ok final := by
  induction steps generalizing start with
  | zero => exact reached
  | succ steps ih =>
    cases start with
    | returned => exact reached
    | running p m =>
      obtain ⟨next, stepped, rest⟩ := bind_inv reached
      exact bind_ok (step_unlimited stepped) <| ih rest

theorem advance_returned (reached : s.advance steps start = .ok (.returned v m)) (more : Nat) :
    s.advance (steps + more) start = .ok (.returned v m) := by
  induction steps generalizing start with
  | zero =>
    cases reached
    cases more <;> exact congrArg _ rfl
  | succ steps ih =>
    rw [Nat.add_right_comm]
    cases start with
    | returned => exact reached
    | running p before =>
      obtain ⟨next, stepped, rest⟩ := bind_inv reached
      exact bind_ok stepped <| ih rest

/-- A run comes to one end only. -/
theorem Yields.unique {o : UInt32} (yields : s.Yields start v text)
    (again : s.Yields start o otherText) : v = o ∧ text = otherText := by
  obtain ⟨steps, final, reached, rfl⟩ := yields
  obtain ⟨more, last, reachedLast, rfl⟩ := again
  have late := advance_returned reached more
  have same := advance_returned reachedLast steps
  rw [Nat.add_comm, late] at same
  obtain ⟨rfl, rfl⟩ := returned.inj (Except.ok.inj same)
  exact ⟨rfl, rfl⟩

theorem not_readsOffsetAfterCall (plain : ∀ body ∈ f.blocks, ∀ inst ∈ body.insts, inst.isCall = false)
    (within : ∀ p m, start = .running p m → ∀ inst ∈ p.rest, inst.isCall = false) :
    ¬ (f.free regs).ReadsOffsetAfterCall start := by
  have started : ∀ {b : BlockId} {p : Point}, f.startOf b = .ok p → ∀ inst ∈ p.rest, inst.isCall = false := by
    intro b p isStart
    obtain ⟨body, got, rfl⟩ := bind_pure_inv isStart
    exact plain body (mem_of_getElem? (present_eq_ok.mp got))
  intro reads
  unfold ReadsOffsetAfterCall at reads
  generalize isStale : false = stale at reads
  induction reads with
  | now met => exact nomatch isStale.trans met.1
  | @fall _ b m next stepped _ ih =>
    refine ih (fun p after isNext => ?_) isStale
    obtain ⟨fallen, isFallen, rfl⟩ := step_nil.mp stepped
    obtain ⟨rfl, rfl⟩ := running.inj isNext
    unfold fallThrough at isFallen
    split at isFallen
    · exact started (liftM_inv isFallen)
    · obtain ⟨_, _, impossible⟩ := bind_inv isFallen
      cases impossible
  | @later _ b inst rest m next stepped _ ih =>
    have inside := within _ _ rfl
    refine ih (fun p after isNext => ?_) ?_
    · rcases step_cons.mp stepped with ⟨_, ⟨_, rfl⟩ | ⟨_, _, _, isStart, rfl⟩ | ⟨_, _, rfl⟩⟩
      · obtain ⟨rfl, rfl⟩ := running.inj isNext
        exact (forall_mem_cons.mp inside).2
      · obtain ⟨rfl, rfl⟩ := running.inj isNext
        exact started isStart
      · cases isNext
    · rw [← isStale, staleAfter, inside inst (mem_cons_self ..)]
      rfl

end Setting

namespace Func

/-- The function returns the value and prints the text. -/
def Gives (f : Func) (regs : TargetRegs) (v : UInt32) (text : String) : Prop :=
  ∃ m start, Machine.initial regs = .ok m ∧ (f.free regs).enter m = .ok start ∧
    (f.free regs).Yields start v text

/-- The function reads a return offset that a call has left. -/
def ReadsCallOffset (f : Func) (regs : TargetRegs) : Prop :=
  ∃ m start, Machine.initial regs = .ok m ∧ (f.free regs).enter m = .ok start ∧
    (f.free regs).ReadsOffsetAfterCall start

theorem gives_of_run {res : RunResult} (ran : f.run regs = .ok res) : f.Gives regs res.value res.output := by
  obtain ⟨m, initial, start, entered, ran⟩ := bind_bind_inv ran
  obtain ⟨last, reached, ran⟩ := bind_inv ran
  cases last with
  | running => cases ran
  | returned v final =>
    obtain rfl := pure_inv ran
    exact ⟨m, start, liftM_inv initial, liftM_inv entered, _, final, Setting.advance_unlimited reached, rfl⟩

/-- A function gives one result only. -/
theorem Gives.unique {otherValue : UInt32} (gives : f.Gives regs v text)
    (again : f.Gives regs otherValue otherText) : v = otherValue ∧ text = otherText := by
  obtain ⟨m, start, initial, entered, yields⟩ := gives
  obtain ⟨same, place, initialAgain, enteredAgain, yieldsAgain⟩ := again
  obtain rfl := ok_unique initial initialAgain
  obtain rfl := ok_unique entered enteredAgain
  exact yields.unique yieldsAgain

theorem not_readsCallOffset (plain : ∀ body ∈ f.blocks, ∀ inst ∈ body.insts, inst.isCall = false) :
    ¬ f.ReadsCallOffset regs := by
  rintro ⟨m, start, _, entered, reads⟩
  refine Setting.not_readsOffsetAfterCall plain (fun p _ isStart => ?_) reads
  obtain ⟨begin, begins, rfl⟩ := bind_pure_inv entered
  obtain ⟨rfl, _⟩ := running.inj isStart
  obtain ⟨body, got, rfl⟩ := bind_pure_inv begins
  exact plain body (mem_of_getElem? (present_eq_ok.mp got))

end Func

namespace Setting

variable {words others : Nat → UInt32}

/-- Two runs, one of which is the run as it is, at the same place. They may differ in a return offset that a call has
left and that is not read. -/
structure Apart (f : Func) (regs : TargetRegs) (words : Nat → UInt32) (calls : Nat) (first : Point) (one : Machine)
    (second : Point) (two : Machine) : Prop where
  point : second = first
  own : (f.free regs).Own words calls (.running first one)
  agrees : ∃ stale, Machine.Agrees (fun _ => False) stale one two ∧
    ¬ (f.free regs).Meets Machine.ReadsStale stale (.running first one)

/-- Both runs make the same step. -/
theorem Apart.step {calls n : Nat} {first second : Point} {one two : Machine}
    (apart : Apart f regs words calls first one second two) :
    Same (Alike (Apart f regs words (callsAfter calls first))) ((f.free regs).stepGiven (words calls) first one)
      ((f.free regs).stepGiven (others n) second two) := by
  obtain ⟨rfl, own, stale, agrees, fresh⟩ := apart
  obtain ⟨b, rest⟩ := second
  have isStep := own.stepGiven
  cases rest with
  | nil =>
    rw [isStep, stepGiven_of_quiet rfl]
    simp only [Setting.step]
    cases falls : (f.free regs).fallThrough b with
    | error cause => exact .error _
    | ok next =>
      have stepped : (f.free regs).step ⟨b, []⟩ one = .ok (.running next one) := step_nil.mpr ⟨next, falls, rfl⟩
      exact .ok (.running ⟨rfl, own.later stepped, stale, agrees, fun meets => fresh (.fall stepped meets)⟩)
  | cons inst rest =>
    have visible : ∀ dst addr, inst.op = .load dst addr → addr.Visible fun _ => False := by
      intro dst addr _
      cases addr <;> simp [Addr.Visible]
    have unread : ¬ ReadsStale stale inst one := fun reads => fresh (.now reads)
    have related : Same _ (one.perform regs inst) (two.perform regs inst) :=
      (agrees.perform (fun hidden => hidden.elim fun _ => False.elim) visible unread).attach
    rw [stepGiven_cons] at isStep ⊢
    rw [stepGiven_cons]
    refine related.bind ?_
    rintro ⟨after, control⟩ ⟨afterOther, _⟩ ⟨⟨rfl, agreed⟩, performed, _⟩
    -- After a call the offsets may differ, and after anything else the machines are given nothing.
    have alike : Agrees (fun _ => False) (one.staleAfter inst stale) (after.given inst.isCall (words calls))
        (afterOther.given inst.isCall (others n)) := by
      have agreed := agreed.mono fun _ isHidden => isHidden.1
      unfold given
      split
      · rename_i isCall
        exact { agreed with returnOffset := fun isFresh => by simp [staleAfter, isCall] at isFresh }
      · exact agreed
    rw [performed, ok_bind] at isStep
    have onward : ∀ {next : Point}, _ = Except.ok (running next (after.given inst.isCall (words calls))) →
        Alike (Apart f regs words (callsAfter calls ⟨b, inst :: rest⟩)) (.running next _) (.running next _) :=
      fun stepped => .running ⟨rfl, own.later (isStep.symm.trans stepped), _, alike,
        fun meets => fresh (.later (isStep.symm.trans stepped) meets)⟩
    cases control with
    | next => exact .ok (onward rfl)
    | jump t =>
      dsimp only at onward ⊢
      cases started : f.startOf t with
      | error fault => exact .error _
      | ok start => exact .ok (onward (by rw [started]; rfl))
    | leave v => exact .ok (.returned agreed.printed)

end Setting

namespace Func

theorem gives_iff_of_endsAs (alike : ∀ words m ending, f.EndsAs regs words m ending ↔ o.EndsAs regs words m ending)
    (fresh : ¬ f.ReadsCallOffset regs) : f.Gives regs v text ↔ o.Gives regs v text := by
  have gives : ∀ f : Func, f.Gives regs v text ↔ ∃ m, initial regs = .ok m ∧ f.HaltsAs regs m (.ok (v, text)) := by
    intro f
    constructor
    · rintro ⟨m, start, initial, enters, steps, final, reached, rfl⟩
      exact ⟨m, initial, start, enters, steps, .inl ⟨v, final, reached, rfl⟩⟩
    · rintro ⟨m, initial, start, enters, steps, ⟨_, final, reached, same⟩ | ⟨cause, _, same⟩⟩
      · obtain ⟨rfl, rfl⟩ := Prod.mk.inj (Except.ok.inj same)
        exact ⟨m, start, initial, enters, steps, final, reached, rfl⟩
      · cases same
  rw [gives, gives]
  refine exists_congr fun m => and_congr_right fun initial => ?_
  obtain ⟨otherWords, otherSame⟩ := o.exists_words regs m
  rw [← otherSame, ← alike]
  -- The function itself does not notice the words of the other one.
  refine exists_congr fun start => and_congr_right fun enters => ?_
  obtain ⟨words, own⟩ := Setting.exists_own ⟨f, regs, none⟩ start
  rw [← own.ends_iff]
  obtain ⟨begun, _, rfl⟩ := bind_pure_inv enters
  have apart : Setting.Apart f regs words 0 begun m begun m :=
    ⟨rfl, own, false, .refl m, fun reads => fresh ⟨m, _, initial, enters, reads⟩⟩
  refine ⟨fun ends => ?_, fun ends => ?_⟩
  · exact @Setting.Ends.lockstep _ _ _ _ (fun calls _ => Setting.Apart f regs words calls)
      (fun _ _ _ _ _ _ => Setting.Apart.step) _ _ _ _ _ ends (.running apart)
  · exact @Setting.Ends.lockstep _ _ _ _ (fun _ calls first one second two =>
        Setting.Apart f regs words calls second two first one)
      (fun _ _ _ _ _ _ apart => apart.step.flip.mono fun _ _ => Setting.Alike.flip) _ _ _ _ _ ends (.running apart)

end Func

end SinglePath
