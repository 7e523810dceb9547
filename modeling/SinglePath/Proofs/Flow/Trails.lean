import Mathlib.Data.List.Induction
import SinglePath.Proofs.Flow.Finishing

/-!
The points that a run passes, and how often it is at the start of a loop from the time it comes into the loop until it
leaves it.
-/

namespace SinglePath

open List Nat

variable {s : Setting} {next : Status} {points : List Point} {f : Func} {regs : TargetRegs} {limit : Nat}
  {p : Point}

def Status.machine : Status → Machine
  | .running _ m => m
  | .returned _ m => m

namespace Setting

variable {start between : Status} {more : List Point} {steps : Nat}

/-- The points that a run passes in its next steps, up to where it returns or stops. -/
def trail (s : Setting) : Nat → Status → List Point
  | 0, _ => []
  | _ + 1, .returned _ _ => []
  | steps + 1, .running p m =>
    p :: match s.step p m with
      | .ok next => s.trail steps next
      | .error _ => []

@[simp] theorem trail_returned (s : Setting) (steps : Nat) (v : UInt32) (m : Machine) :
    s.trail steps (.returned v m) = [] := by
  cases steps <;> rfl

/-- The trail of two parts is the trails of the parts. -/
theorem trail_add (reached : s.advance steps start = .ok between) (later : Nat) :
    s.trail (steps + later) start = s.trail steps start ++ s.trail later between := by
  induction steps generalizing start with
  | zero =>
    cases reached
    simp [trail]
  | succ steps ih =>
    rw [Nat.add_right_comm]
    cases start with
    | returned v m =>
      cases reached
      simp
    | running p m =>
      obtain ⟨status, stepped, reached⟩ := bind_inv reached
      simp [trail, stepped, ih reached]

/-- The run passes the points one after the other and is then at the status. -/
def Follows (s : Setting) (start : Status) (points : List Point) (next : Status) : Prop :=
  s.advance points.length start = .ok next ∧ s.trail points.length start = points

theorem Follows.refl (s : Setting) (start : Status) : s.Follows start [] start := ⟨rfl, rfl⟩

theorem Follows.of_step {m : Machine} (stepped : s.step p m = .ok next) : s.Follows (.running p m) [p] next := by
  refine ⟨?_, ?_⟩
  · simp [advance, stepped]
  · simp [trail, stepped]

theorem Follows.trans (first : s.Follows start points between) (second : s.Follows between more next) :
    s.Follows start (points ++ more) next := by
  refine ⟨?_, ?_⟩
  · rw [length_append, advance_add, first.1, ok_bind, second.1]
  · rw [length_append, trail_add first.1, first.2, second.2]

theorem Follows.leads (follows : s.Follows start points next) : s.Leads start (.ok next) := ⟨_, follows.1⟩

theorem trail_take (s : Setting) (start : Status) {fewer : Nat} (isLess : fewer ≤ steps) :
    s.trail fewer start = (s.trail steps start).take fewer := by
  induction fewer generalizing start steps with
  | zero => simp [trail]
  | succ fewer ih =>
    obtain ⟨steps, rfl⟩ := exists_eq_succ_of_ne_zero (Nat.ne_of_gt (Nat.lt_of_lt_of_le (succ_pos _) isLess))
    cases start with
    | returned v m => simp
    | running p m =>
      simp only [trail, take_succ_cons, cons.injEq, true_and]
      cases s.step p m with
      | error cause => simp
      | ok next => exact ih next (le_of_succ_le_succ isLess)

theorem Follows.trail_prefix {v : UInt32} {m : Machine}
    (follows : s.Follows start points (.returned v m)) (steps : Nat) : s.trail steps start <+: points := by
  rcases Nat.le_total steps points.length with fewer | more
  · rw [trail_take s start fewer, follows.2]
    exact take_prefix _ _
  · obtain ⟨later, rfl⟩ := Nat.exists_eq_add_of_le more
    have same : s.trail (points.length + later) start = points := by
      rw [trail_add follows.1, follows.2, trail_returned, append_nil]
    exact same.symm ▸ prefix_refl points

/-- The first point that a run passes is where it is. -/
theorem Follows.head {m : Machine} (follows : s.Follows (.running p m) points next) :
    ∀ first ∈ points.head?, first = p := by
  cases points with
  | nil => nofun
  | cons first rest =>
    rintro _ ⟨⟩
    exact (cons.inj follows.2).1.symm

variable {last : Status}

/-- The trail of a limited run is the start of that of the free run. -/
theorem trail_limited (f : Func) (regs : TargetRegs) (limit steps : Nat) (start : Status) :
    (⟨f, regs, some limit⟩ : Setting).trail steps start <+: (f.free regs).trail steps start := by
  induction steps generalizing start with
  | zero => exact nil_prefix
  | succ steps ih =>
    cases start with
    | returned => exact nil_prefix
    | running p m =>
      simp only [trail, cons_prefix_cons, true_and]
      rcases step_limited f regs limit p m with givenUp | same
      · rw [givenUp]
        exact nil_prefix
      · rw [same]
        cases (f.free regs).step p m with
        | error cause => exact nil_prefix
        | ok next => exact ih next

theorem step_steps {m : Machine} (stepped : (f.free regs).step p m = .ok last) :
    last.machine.steps = m.steps + if p.rest = [] then 0 else 1 := by
  obtain ⟨b, rest⟩ := p
  cases rest with
  | nil =>
    obtain ⟨_, _, rfl⟩ := step_nil.mp stepped
    rfl
  | cons inst rest =>
    obtain ⟨after, ⟨ran, rfl⟩ | ⟨_, _, ran, _, rfl⟩ | ⟨_, ran, rfl⟩⟩ := step_cons.mp stepped
    all_goals exact Machine.perform_steps ran

theorem advance_steps (reached : (f.free regs).advance steps start = .ok last) :
    start.machine.steps ≤ last.machine.steps := by
  induction steps generalizing start with
  | zero =>
    cases reached
    exact Nat.le_refl _
  | succ steps ih =>
    cases start with
    | returned =>
      cases reached
      exact Nat.le_refl _
    | running p m =>
      obtain ⟨next, stepped, reached⟩ := bind_inv reached
      have counted := step_steps stepped
      have := ih reached
      show m.steps ≤ last.machine.steps
      omega

/-- A run of few steps is not stopped by the limit. -/
theorem advance_of_few (reached : (f.free regs).advance steps start = .ok last)
    (few : last.machine.steps ≤ limit) : (⟨f, regs, some limit⟩ : Setting).advance steps start = .ok last := by
  induction steps generalizing start with
  | zero => exact reached
  | succ steps ih =>
    cases start with
    | returned => exact reached
    | running p m =>
      obtain ⟨next, stepped, reached⟩ := bind_inv reached
      refine bind_ok ?_ <| ih reached
      have counted := step_steps stepped
      have later := advance_steps reached
      unfold step at stepped ⊢
      split at stepped
      · exact stepped
      · next isCode =>
          have below : ¬ limit ≤ m.steps := by
            rw [isCode, if_neg (cons_ne_nil _ _)] at counted
            omega
          simpa [isExhausted, below] using stepped

end Setting

/-- The run executes code of a block and goes elsewhere; it is at the start of the code once. -/
structure Setting.Crosses (s : Setting) (b : BlockId) (code : List Inst) (m : Machine) (points : List Point)
    (next : Status) : Prop where
  follows : s.Follows (.running ⟨b, code⟩ m) points next
  spans : ∃ others, points = ⟨b, code⟩ :: others ∧ ∀ p ∈ others, p.block = b ∧ p.rest.length < code.length

namespace Setting.Crosses

variable {b : BlockId} {code rest : List Inst} {inst : Inst} {m after : Machine}

theorem of_step (stepped : s.step ⟨b, code⟩ m = .ok next) : s.Crosses b code m [⟨b, code⟩] next :=
  ⟨.of_step stepped, [], rfl, by simp⟩

theorem cons (crosses : s.Crosses b rest after points next)
    (stepped : s.step ⟨b, inst :: rest⟩ m = .ok (.running ⟨b, rest⟩ after)) :
    s.Crosses b (inst :: rest) m (⟨b, inst :: rest⟩ :: points) next := by
  obtain ⟨follows, others, rfl, within⟩ := crosses
  refine ⟨(Follows.of_step stepped).trans follows, _, rfl, ?_⟩
  rw [forall_mem_cons]
  refine ⟨⟨rfl, lt_succ_self _⟩, fun p mem => ⟨(within p mem).1, ?_⟩⟩
  exact lt_succ_of_lt (within p mem).2

variable (crosses : s.Crosses b code m points next)

include crosses

theorem moves : s.Moves (.running ⟨b, code⟩ m) next := by
  obtain ⟨follows, others, rfl, _⟩ := crosses
  exact ⟨others.length, follows.1⟩

theorem block_eq : ∀ p ∈ points, p.block = b := by
  obtain ⟨_, others, rfl, within⟩ := crosses
  rw [forall_mem_cons]
  exact ⟨rfl, fun p mem => (within p mem).1⟩

/-- Crossing a block passes its start once. -/
theorem count_start : points.count ⟨b, code⟩ = 1 := by
  obtain ⟨_, others, rfl, within⟩ := crosses
  have none : others.count ⟨b, code⟩ = 0 := count_eq_zero.mpr fun mem => Nat.lt_irrefl _ (within _ mem).2
  rw [count_cons_self, none]

end Setting.Crosses

/-- A run that finishes in few steps is the run under the limit. -/
theorem Func.Laid.run_of_few (laid : f.Laid) {m : Machine} {res : RunResult}
    (initial : Machine.initial regs = .ok m) (finishes : f.Finishes regs m (.ok res))
    (few : res.machine.steps ≤ stepLimit) : f.run regs = .ok res := by
  rcases laid.finishes_run initial with givenUp | finished
  · obtain ⟨start, entered, steps, reached⟩ := finishes
    have returns : (⟨f, regs, some stepLimit⟩ : Setting).advance steps start = .ok (.returned res.value res.machine) :=
      Setting.advance_of_few reached few
    have isEntered : (⟨f, regs, some stepLimit⟩ : Setting).enter m = .ok start := entered
    unfold run at givenUp
    rw [initial, liftM_ok, ok_bind, isEntered, liftM_ok, ok_bind] at givenUp
    rcases Nat.le_total steps ((stepLimit + 1) * (f.layout.length + 1)) with fewer | more
    · obtain ⟨later, isLater⟩ := Nat.exists_eq_add_of_le fewer
      rw [isLater, Setting.advance_returned returns] at givenUp
      cases givenUp
    · obtain ⟨later, rfl⟩ := Nat.exists_eq_add_of_le more
      rw [Setting.advance_add] at returns
      obtain ⟨last, isLast, _⟩ := bind_inv returns
      rw [isLast] at givenUp
      cases last <;> cases givenUp
  · exact finished.unique finishes

variable {inside : BlockId → Prop} {start : Point} {passed later : List Point}

open Classical in
/-- One more point of a run: outside the loop the rounds are forgotten, and at the start of the loop there is one
more. -/
noncomputable def countRound (inside : BlockId → Prop) (start : Point) (n : Nat) (p : Point) : Nat :=
  if inside p.block then if p = start then n + 1 else n else 0

/-- How often a run that has passed these points was at the start of the loop since it came into the loop. -/
noncomputable def roundsOf (inside : BlockId → Prop) (start : Point) (points : List Point) : Nat :=
  points.foldl (countRound inside start) 0

/-- All along these points the rounds of the loop do not exceed the limit. -/
def RoundsWithin (inside : BlockId → Prop) (start : Point) (limit : Nat) (points : List Point) : Prop :=
  ∀ passed, passed <+: points → roundsOf inside start passed ≤ limit

theorem countRound_outside (outside : ¬ inside p.block) (n : Nat) : countRound inside start n p = 0 := by
  simp [countRound, outside]

/-- A trail outside a loop makes no rounds of it. -/
theorem roundsOf_outside (outside : ∀ p ∈ passed, ¬ inside p.block) : roundsOf inside start passed = 0 := by
  induction passed using reverseRecOn with
  | nil => rfl
  | append_singleton points p _ =>
    rw [roundsOf, foldl_append]
    exact countRound_outside (outside p (by simp)) _

theorem RoundsWithin.of_outside (outside : ∀ p ∈ passed, ¬ inside p.block) :
    RoundsWithin inside start limit passed := by
  intro points isPart
  rw [roundsOf_outside fun p mem => outside p (isPart.subset mem)]
  exact zero_le _

/-- The rounds of two parts are counted apart if none are left from the first part or the second one starts outside. -/
theorem RoundsWithin.append (first : RoundsWithin inside start limit passed)
    (second : RoundsWithin inside start limit later)
    (reset : (∀ p ∈ passed, ¬ inside p.block) ∨ ∀ p ∈ later.head?, ¬ inside p.block) :
    RoundsWithin inside start limit (passed ++ later) := by
  intro points isPrefix
  rcases prefix_or_prefix_of_prefix isPrefix (prefix_append passed later) with early | ⟨more, rfl⟩
  · exact first points early
  have isMore := (prefix_append_right_inj passed).mp isPrefix
  rw [roundsOf, foldl_append]
  rcases reset with outside | outside
  · rw [show passed.foldl (countRound inside start) 0 = 0 from roundsOf_outside outside]
    exact second more isMore
  · cases more with
    | nil => exact first passed (prefix_refl _)
    | cons p rest =>
      have bounded := second _ isMore
      have isHead : p ∈ later.head? := by
        obtain ⟨others, rfl⟩ := isMore
        rfl
      rw [roundsOf, foldl_cons, countRound_outside (outside p isHead)] at bounded
      rwa [foldl_cons, countRound_outside (outside p isHead)]

theorem foldl_countRound_inside (within : ∀ p ∈ passed, inside p.block) (n : Nat) :
    passed.foldl (countRound inside start) n = n + passed.count start := by
  induction passed generalizing n with
  | nil => rfl
  | cons p rest ih =>
    rw [forall_mem_cons] at within
    rw [foldl_cons, ih within.2, count_cons]
    by_cases atStart : p = start
    · subst atStart
      simp only [countRound, within.1, if_true, beq_self_eq_true]
      omega
    · simp [countRound, within.1, atStart]

/-- The rounds inside a loop are the times that its start is passed. -/
theorem RoundsWithin.of_count (within : ∀ p ∈ passed, inside p.block) (few : passed.count start ≤ limit) :
    RoundsWithin inside start limit passed := by
  intro points isPart
  rw [roundsOf, foldl_countRound_inside fun p mem => within p (isPart.subset mem), Nat.zero_add]
  exact Nat.le_trans (isPart.sublist.count_le start) few

end SinglePath
