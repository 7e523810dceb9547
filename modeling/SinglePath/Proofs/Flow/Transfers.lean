import SinglePath.Proofs.Flow.Outcomes
import SinglePath.Proofs.Func.Derivation

/-!
Derived edges cover the flow of control: whatever a run does, it goes from block to block along them.
-/

namespace SinglePath

open List Machine Setting

variable {func : Func} {p reached : Point} {m after : Machine} {b : BlockId} {inst : Inst}
  {regs : TargetRegs}

/-- Control never goes on to the instruction after this one. -/
def Inst.diverts (inst : Inst) : Bool := inst.isBranch && inst.guard.isAlways || inst.isReturn

theorem Machine.perform_diverts (const : m.pred PReg.zero = true) (ran : m.perform regs inst = .ok (after, .next)) :
    inst.diverts = false := by
  refine Bool.eq_false_iff.mpr fun diverts => ?_
  obtain ⟨_, effect⟩ := perform_eq_ok.mp ran
  have enabled : m.enables inst = true := by
    rcases Bool.or_eq_true_iff.mp diverts with always | isReturn
    · exact enables_of_always const (Bool.and_eq_true_iff.mp always).2
    · simp [enables, isReturn]
  rw [if_pos enabled] at effect
  obtain ⟨update, decided, _⟩ := effect
  have transfer := decide_transfer decided
  split at transfer
  · cases transfer
  · obtain ⟨_, leaves, _⟩ := transfer
    cases leaves
  · next notBranch notReturn => grind [Inst.diverts, Inst.isBranch, Inst.branchTarget, Inst.isReturn]

/-- Control can have come to the point from the start of its block. -/
def Point.Entered (p : Point) (func : Func) : Prop :=
  ∃ passed, func.codeOf p.block = passed ++ p.rest ∧ ∀ inst ∈ passed, inst.diverts = false

namespace Point

theorem entered_start (started : func.startOf b = .ok p) : p.Entered func := by
  obtain ⟨body, got, rfl⟩ := bind_pure_inv started
  exact ⟨[], Func.codeOf_eq (Func.get_eq_ok.mp got), by simp⟩

theorem Entered.step (const : m.pred PReg.zero = true) (entered : p.Entered func)
    (step : (func.free regs).step p m = .ok (.running reached after)) :
    reached.Entered func ∧ after.pred PReg.zero = true := by
  obtain ⟨b, rest⟩ := p
  cases rest with
  | nil =>
    obtain ⟨start, falls, same⟩ := step_nil.mp step
    cases same
    refine ⟨?_, const⟩
    unfold fallThrough at falls
    split at falls
    · exact entered_start (liftM_inv falls)
    · simp [bind_eq_ok, refuse] at falls
  | cons inst rest =>
    obtain ⟨after, ⟨ran, same⟩ | ⟨t, start, ran, started, same⟩ | ⟨v, ran, same⟩⟩ := step_cons.mp step
    · cases same
      obtain ⟨passed, code, quiet⟩ := entered
      refine ⟨⟨passed ++ [inst], by simpa using code, ?_⟩, (perform_pred_zero ran).trans const⟩
      simpa [or_imp, forall_and] using ⟨quiet, perform_diverts const ran⟩
    · cases same
      exact ⟨entered_start started, (perform_pred_zero ran).trans const⟩
    · cases same

/-- Control that comes to the end of a block falls through. -/
theorem Entered.fallsThrough {body : Block} (entered : (⟨b, []⟩ : Point).Entered func)
    (got : func.block? b = some body) : body.fallsThrough = true := by
  obtain ⟨passed, code, quiet⟩ := entered
  rw [Func.codeOf_eq got, append_nil] at code
  simp only [Inst.diverts, Bool.or_eq_false_iff] at quiet
  rw [Block.fallsThrough, code, Bool.and_eq_true]
  refine ⟨by simpa using fun inst mem => (quiet inst mem).1, ?_⟩
  cases isLast : passed.getLast? with
  | none => rfl
  | some inst => simp [(quiet inst (mem_of_getLast? isLast)).2]

theorem Entered.advance {steps : Nat} (const : m.pred PReg.zero = true) (entered : p.Entered func)
    (reaches : (func.free regs).advance steps (.running p m) = .ok (.running reached after)) :
    reached.Entered func := by
  induction steps generalizing p m with
  | zero =>
    cases reaches
    exact entered
  | succ steps ih =>
    obtain ⟨next, step, reaches⟩ := bind_inv reaches
    cases next with
    | running middle between =>
      obtain ⟨entered, const⟩ := entered.step const step
      exact ih const entered reaches
    | returned v final => cases steps <;> cases reaches

end Point

theorem Func.exits_of_layoutNext {body : Block} {next : BlockId} {layout : List BlockId}
    (follows : nextAfterLast b layout = some next) (got : func.block? b = some body)
    (falls : body.fallsThrough = true) : func.Exits b next layout := by
  induction layout with
  | nil => cases follows
  | cons first rest ih =>
    rw [nextAfterLast] at follows
    split at follows
    · next here => exact .inl ⟨here.1.symm, body, here.1 ▸ got, by simp [Block.exits, falls, follows]⟩
    · exact .inr (ih follows)

/-- Edges can be derived if and only if the laid out blocks are there. In every run, from any state and from any point
that control can come to, each transfer from a laid out block is along a derived edge. -/
theorem Func.deriveEdges_covers
    (targets : ∀ content ∈ func.blocks, ∀ target ∈ content.branchTargets, target.index < func.blocks.length) :
    ((∃ derived, func.deriveEdges = .ok derived) ↔ ∀ block ∈ func.layout, block.index < func.blocks.length) ∧
      ∀ derived, func.deriveEdges = .ok derived → ∀ regs limit start m, m.pred PReg.zero = true →
        start.Entered derived → ∀ steps point after,
          (⟨derived, regs, limit⟩ : Setting).advance steps (.running start m) = .ok (.running point after) →
            point.block ∈ derived.layout → ∀ target, (⟨derived, regs, limit⟩ : Setting).Transfers point after target →
              derived.IsEdge point.block target := by
  refine ⟨⟨?_, fun known => deriveEdges_of_known fun block inside => ⟨known block inside, ?_⟩⟩, ?_⟩
  · rintro ⟨derived, isDerived⟩ block inside
    obtain ⟨content, found⟩ := deriveEdges_found isDerived block inside
    exact lt_length found
  · have found : func.block? block = some _ := getElem?_eq_getElem (known block inside)
    exact targetsOf_eq found ▸ targets _ (mem_of_getElem? found)
  · intro derived isDerived regs limit start m constant entered steps point after reaches inside target transfers
    obtain ⟨same, linked, edges⟩ := deriveEdges_exits isDerived
    obtain ⟨content, found⟩ := found_of_sameButEdges same (deriveEdges_found isDerived _ (same.layout ▸ inside))
    have entered := entered.advance constant (advance_unlimited reaches)
    have exits : derived.Exits point.block target derived.layout := by
      rcases transfers with ⟨isEnd, follows⟩ | ⟨inst, rest, _, isNext, ran⟩
      · refine exits_of_layoutNext follows found (Point.Entered.fallsThrough ?_ found)
        rwa [← isEnd]
      · obtain ⟨passed, code, _⟩ := entered
        refine exits_of_target inside found (mem_filterMap.mpr ⟨inst, ?_, perform_jump ran⟩)
        rw [← codeOf_eq found, code, isNext]
        simp
    have edge := (edges point.block target).mpr exits
    exact ⟨edge, (linked.ends _ _).mp edge⟩

/-- A block that branches to itself or falls through to a return. -/
def Func.lingeringFunc : Func where
  name := "lingering"
  blocks := [
    { name := "test", insts := [(Inst.plain (.branch ⟨0⟩)).withGuard (.fails ⟨1⟩)], succs := [⟨0⟩, ⟨1⟩],
      preds := [⟨0⟩] },
    { name := "done", insts := [.plain (.ret ⟨1⟩)], preds := [⟨0⟩] }]
  layout := [⟨0⟩, ⟨1⟩]

theorem Func.deriveEdges_covers_lingering : ∃ start m after, lingeringFunc.deriveEdges = .ok lingeringFunc ∧
    lingeringFunc.startOf ⟨0⟩ = .ok start ∧ m.pred PReg.zero = true ∧
      (⟨lingeringFunc, {}, none⟩ : Setting).advance 1 (.running start m) = .ok (.running ⟨⟨0⟩, []⟩ after) ∧
      (⟨lingeringFunc, {}, none⟩ : Setting).Transfers ⟨⟨0⟩, []⟩ after ⟨1⟩ ∧ lingeringFunc.IsEdge ⟨0⟩ ⟨1⟩ := by
  let m : Machine := {
    gregs := Vector.replicate 32 0
    pregs := Vector.replicate 8 true
    returnBase := 0
    returnOffset := 0
    stack := Table.empty
    memory := Vector.replicate 64 0
    steps := 0
    disabled := 0
    outputs := [] }
  have constant : m.pred PReg.zero = true := by decide
  have reaches : (⟨lingeringFunc, {}, none⟩ : Setting).advance 1 (.running ⟨⟨0⟩, lingeringFunc.codeOf ⟨0⟩⟩ m) =
    .ok (.running ⟨⟨0⟩, []⟩ m.skip) := by decide
  have started : lingeringFunc.startOf ⟨0⟩ = .ok ⟨⟨0⟩, lingeringFunc.codeOf ⟨0⟩⟩ := rfl
  refine ⟨_, m, _, rfl, started, constant, reaches, .inl ⟨rfl, rfl⟩, ?_⟩
  exact (@deriveEdges_covers lingeringFunc (by decide)).2 _ rfl {} none _ m constant (Point.entered_start started) 1 _ _
    reaches (by decide) _ (.inl ⟨rfl, rfl⟩)

end SinglePath
