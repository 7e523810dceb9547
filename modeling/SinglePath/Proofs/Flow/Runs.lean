import SinglePath.Proofs.Func.Layout
import SinglePath.Proofs.Machine.Execution

namespace SinglePath

variable {b : BlockId} {f : Func} {inst : Inst} {rest : List Inst}

/-- Something about an instruction, the machine that is to execute it, and whether its return offset is that of a
call. -/
abbrev Goal := Bool → Inst → Machine → Prop

/-- The code of a function from the start of each of its blocks. -/
structure Flow where
  regs : TargetRegs
  labels : BlockId → Option (List Inst)

namespace Func

/-- Runs of the function are never given up. -/
abbrev free (f : Func) (regs : TargetRegs) : Setting := ⟨f, regs, none⟩

/-- The code of all blocks after the block. -/
def codeAfter (f : Func) (b : BlockId) : List Inst := (following b f.layout).flatMap f.codeOf

/-- The code from the start of each laid out block. -/
def flow (f : Func) (regs : TargetRegs) : Flow where
  regs := regs
  labels b := if b ∈ f.layout then some (f.codeOf b ++ f.codeAfter b) else none

theorem Laid.startOf {f : Func} (laid : f.Laid) {b : BlockId} (inside : b ∈ f.layout) :
    f.startOf b = .ok ⟨b, f.codeOf b⟩ := by
  obtain ⟨body, got⟩ := laid.found b inside
  simp only [Func.startOf, get, got, present_some, ok_bind, codeOf_eq got]
  rfl

end Func

/-- The code that is left to run from a point. -/
def Func.codeFrom (f : Func) (p : Point) : List Inst := p.rest ++ f.codeAfter p.block

/-- Control is in a laid out block, and what is left of it is a last part of its code. -/
structure Point.Within (p : Point) (f : Func) : Prop where
  inside : p.block ∈ f.layout
  part : p.rest <:+ f.codeOf p.block

namespace Point

theorem within_start (inside : b ∈ f.layout) : (⟨b, f.codeOf b⟩ : Point).Within f := ⟨inside, List.suffix_refl _⟩

theorem Within.tail (within : (⟨b, inst :: rest⟩ : Point).Within f) : (⟨b, rest⟩ : Point).Within f :=
  ⟨within.inside, (List.suffix_cons inst rest).trans within.part⟩

end Point

theorem Func.codeFrom_nil (f : Func) (laid : f.Laid) {next : BlockId} (inside : b ∈ f.layout)
    {more : List BlockId} (follows : following b f.layout = next :: more) :
    f.codeFrom ⟨b, []⟩ = f.codeFrom ⟨next, f.codeOf next⟩ := by
  simp [codeFrom, codeAfter, follows, (following_next laid.once inside follows).2]

namespace Setting

variable {regs : TargetRegs} {m : Machine} {next : Status}

/-- The run of the function comes to an instruction that meets the goal. -/
inductive Meets (s : Setting) (goal : Goal) : Bool → Status → Prop where
  | now {stale : Bool} {b : BlockId} {inst : Inst} {rest : List Inst} {m : Machine}
      (met : goal stale inst m) : Meets s goal stale (.running ⟨b, inst :: rest⟩ m)
  | fall {stale : Bool} {b : BlockId} {m : Machine} {next : Status}
      (stepped : s.step ⟨b, []⟩ m = .ok next) (meets : Meets s goal stale next) :
      Meets s goal stale (.running ⟨b, []⟩ m)
  | later {stale : Bool} {b : BlockId} {inst : Inst} {rest : List Inst} {m : Machine} {next : Status}
      (stepped : s.step ⟨b, inst :: rest⟩ m = .ok next)
      (meets : Meets s goal (m.staleAfter inst stale) next) :
      Meets s goal stale (.running ⟨b, inst :: rest⟩ m)

theorem step_nil {s : Setting} : s.step ⟨b, []⟩ m = .ok next ↔
      ∃ p, s.fallThrough b = .ok p ∧ next = .running p m := by
  simp only [step, bind_eq_ok, pure_eq_ok]
  constructor
  · rintro ⟨p, falls, same⟩
    exact ⟨p, falls, same.symm⟩
  · rintro ⟨p, falls, same⟩
    exact ⟨p, falls, same.symm⟩

/-- A step that executes an instruction, in a run that is never given up. -/
theorem step_cons : (f.free regs).step ⟨b, inst :: rest⟩ m = .ok next ↔
      ∃ after, (m.perform regs inst = .ok (after, .next) ∧ next = .running ⟨b, rest⟩ after) ∨
        (∃ t p, m.perform regs inst = .ok (after, .jump t) ∧ f.startOf t = .ok p ∧
          next = .running p after) ∨
        (∃ v, m.perform regs inst = .ok (after, .leave v) ∧ next = .returned v after) := by
  simp only [step, isExhausted, Option.any_none, Bool.false_eq_true, if_false, Machine.perform]
  rw [bind_eq_ok]
  constructor
  · rintro ⟨⟨after, transfer⟩, ran, stepped⟩
    refine ⟨after, ?_⟩
    cases transfer with
    | next => exact .inl ⟨ran, (pure_inv stepped).symm⟩
    | jump t =>
      obtain ⟨p, started, same⟩ := bind_inv stepped
      exact .inr (.inl ⟨t, p, ran, liftM_inv started, (pure_inv same).symm⟩)
    | leave v => exact .inr (.inr ⟨v, ran, (pure_inv stepped).symm⟩)
  · rintro ⟨after, ⟨ran, same⟩ | ⟨t, p, ran, started, same⟩ | ⟨v, ran, same⟩⟩
    · exact ⟨_, ran, by rw [same]; rfl⟩
    · refine ⟨_, ran, ?_⟩
      rw [same]
      exact bind_ok (liftM_eq_ok.mpr started) rfl
    · exact ⟨_, ran, by rw [same]; rfl⟩

theorem fallThrough_eq_ok (laid : f.Laid) (inside : b ∈ f.layout) {p : Point} : (f.free regs).fallThrough b = .ok p ↔
      ∃ next more, Func.following b f.layout = next :: more ∧ p = ⟨next, f.codeOf next⟩ := by
  simp only [fallThrough, Func.layoutNext, Func.nextAfterLast_eq]
  cases follows : Func.following b f.layout with
  | nil =>
    obtain ⟨body, got⟩ := laid.found b inside
    simp [Func.get, got, bind, Except.bind, refuse]
  | cons next more =>
    obtain ⟨nextInside, _⟩ := Func.following_next laid.once inside follows
    simp only [List.head?_cons, laid.startOf nextInside, liftM_ok, List.cons.injEq]
    constructor
    · intro same
      exact ⟨next, more, ⟨rfl, rfl⟩, (Except.ok.inj same).symm⟩
    · rintro ⟨o, rest, ⟨rfl, rfl⟩, rfl⟩
      rfl

/-- The run reads the return offset after a call and before it is set again. -/
def ReadsOffsetAfterCall (s : Setting) (start : Status) : Prop :=
  s.Meets Machine.ReadsStale false start

/-- The run comes to an end with the value, and the given text is printed. -/
def Yields (s : Setting) (start : Status) (v : UInt32) (text : String) : Prop :=
  ∃ steps final, s.advance steps start = .ok (.returned v final) ∧ final.printed = text

end Setting

end SinglePath
