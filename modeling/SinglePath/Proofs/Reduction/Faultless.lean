import SinglePath.Program.Validity
import SinglePath.Proofs.Program.Reducible

namespace SinglePath

open ScopeEvents

open ScopeEvents (placeDefs siteOf)

section

variable {tree : ScopeTree} {f : Func} {entered : List ScopeId} {members : Table BlockId ScopeId} {scope : ScopeId}
  {body : Scope}

theorem ScopeTree.Valid.sites_ok (valid : Valid tree f entered members) (got : tree.get scope = .ok body) :
    ∃ sites, body.nodes.mapM (siteOf tree) = .ok sites := by
  refine mapM_ok fun node listed => ?_
  cases node with
  | block b => exact ⟨_, rfl⟩
  | subscope child =>
    obtain ⟨inner, isInner, _⟩ := (valid.checked got).children child (Scope.mem_subscopes.mpr listed)
    exact ⟨⟨_, inner.header, _⟩, by rw [siteOf, nodeBlock, isInner]; rfl⟩

theorem ScopeEvents.placeDefs_answers {sites : List NodeSite} {index : Nat} (defs : List PredDef) :
    Answers (placeDefs scope sites index defs) := by
  induction defs generalizing index with
  | nil => exact .ok []
  | cons defn rest ih =>
    unfold placeDefs
    split
    · exact .refuse _
    · exact .bind ih fun _ _ => .ok _

theorem ScopeTree.Valid.ofScope_answers (valid : Valid tree f entered members) (got : tree.get scope = .ok body) :
    Answers (ofScope tree scope) := by
  obtain ⟨sites, isSites⟩ := valid.sites_ok got
  refine .bind_lift got ?_
  dsimp only
  split
  · refine .bind (.ok _) fun _ _ =>
      .bind_lift isSites (.bind (placeDefs_answers _) fun _ _ => .bind ?_ fun _ _ => .ok _)
    unfold checkDefined
    split
    · exact .refuse _
    · exact .ok _
  · exact .refuse _

theorem ScopeResult.allocate_answers (es : ScopeEvents) (ctx : ScopeContext) : Answers (allocate es ctx) := by
  unfold allocate
  split
  · exact .ok _
  · exact .refuse _
  · split
    · split
      · exact .ok _
      · exact .refuse _
    · exact .refuse _

theorem ScopeTree.gather_answers {allocs : Table ScopeId ScopeAllocation} (indices : List Nat) :
    Answers (gather allocs indices) := by
  induction indices with
  | nil => exact .ok []
  | cons index rest ih =>
    unfold gather
    split
    · exact .refuse _
    · exact .bind ih fun _ _ => .ok _

theorem ScopeTree.Valid.allocate_answers (valid : Valid tree f entered members) (registers : Nat) :
    Answers (tree.allocate registers) := by
  refine .bind_lift valid.order (.bind (.foldlM fun s scope listed => ?_) fun _ _ => gather_answers _)
  obtain ⟨body, got⟩ := valid.found listed
  unfold allocateScope
  split
  · exact .bind (.ok _) fun _ _ => .bind (valid.ofScope_answers got) fun _ _ =>
      .bind (ScopeResult.allocate_answers _ _) fun _ _ => .bind_lift got (.ok _)
  · exact .refuse _

/-- Once the tree is valid, a plan can only fault because the cells of its frame have no numbers. -/
theorem Plan.make_fault {regs : TargetRegs} {facts : ScopeFacts} {fault : Fault}
    (validated : tree.validate f = .ok facts) (stopped : make tree regs f = .error (.fault fault)) :
    fault = .overflow ∧ ∃ registers allocs n, tree.allocate registers = .ok allocs ∧
      FrameLayout.size f tree allocs = .ok n ∧ 0x100000000 ≤ f.cells + n := by
  obtain ⟨entered, valid⟩ := ScopeTree.validate_valid validated
  cases isLast : ((candidates regs).filter fun r => !f.mentionsPred r).getLast? with
  | none =>
    simp only [make, validated, ok_bind, isLast] at stopped
    cases stopped
  | some temporary =>
    cases allocated : tree.allocate ((candidates regs).filter fun r => !f.mentionsPred r).dropLast.length with
    | error cause =>
      obtain ⟨cause, rfl⟩ := (valid.allocate_answers _).refused allocated
      simp only [make, validated, ok_bind, isLast, pure_bind, allocated, error_bind] at stopped
      cases stopped
    | ok allocs =>
      obtain ⟨plan, start, made⟩ | ⟨overflows, n, sized⟩ := make_cases validated isLast allocated
      · cases stopped.symm.trans made
      · cases stopped.symm.trans overflows
        exact ⟨rfl, _, allocs, n, allocated, sized⟩

end

namespace Program

variable {program : Program} {regs : TargetRegs}

theorem validate_ok (accepted : program.validate regs = .ok ()) :
    regs.predCount ≤ machinePreds ∧ program.func.entry ∈ program.func.layout := by
  simp only [validate, demand_bind_eq_ok, Bool.and_eq_true, decide_eq_true_eq] at accepted
  obtain ⟨⟨few, _⟩, accepted⟩ := accepted
  split at accepted
  · exact absurd accepted refuse_ne_ok
  · exact ⟨few, of_decide_eq_true (demand_bind_eq_ok.mp accepted).1⟩

/-- An accepted program is reduced or refused, unless a frame cell of its code or of the plan has no byte offset or the
cells of the plan have no numbers. Its tree fits it, its edges are derived, each block is laid out once, branches come
last in their blocks, and those of the entry are no frame setup. -/
theorem reduced_or_refused {original : Func} {facts : ScopeFacts} (accepted : program.validate regs = .ok ())
    (fits : program.tree.validate program.func = .ok facts) (derived : original.deriveEdges = .ok program.func)
    (once : program.func.layout.Nodup) (tails : ∀ block, BranchesLast (program.func.codeOf block))
    (plain : ∀ inst ∈ trailing (program.func.codeOf program.func.entry), inst.frameSetup = false)
    (options : ReduceOptions) :
    (∃ reduction, (program.func.reduce program.tree regs options).1 = .ok reduction) ∨
      (∃ cause, (program.func.reduce program.tree regs options).1 = .error (.refused cause)) ∨
      (program.func.reduce program.tree regs options).1 = .error (.fault .overflow) ∧
        ((∃ block, ∃ inst ∈ program.func.codeOf block, ¬ inst.Addressable) ∨
          (∃ plan start, Plan.make program.tree regs program.func = .ok (plan, start) ∧
            ∃ cell ∈ plan.frame.cells, cell.offset = .error .overflow) ∨
          Plan.make program.tree regs program.func = .error (.fault .overflow) ∧
            ∃ registers allocs count, program.tree.allocate registers = .ok allocs ∧
              FrameLayout.size program.func program.tree allocs = .ok count ∧
              0x100000000 ≤ program.func.cells + count) := by
  obtain ⟨few, entered⟩ := validate_ok accepted
  by_cases singlePath : program.tree.singlePath = true
  · cases planned : Plan.make program.tree regs program.func with
    | error failure =>
      have stops : (program.func.reduce program.tree regs options).1 = .error failure := by
        simp [Func.reduce, Work.reduce, singlePath, planned, Work.await]
      cases failure with
      | refused cause => exact .inr (.inl ⟨cause, stops⟩)
      | fault fault =>
        obtain ⟨rfl, far⟩ := Plan.make_fault fits planned
        exact .inr (.inr ⟨stops, .inr (.inr ⟨rfl, far⟩)⟩)
    | ok made =>
      obtain ⟨plan, start⟩ := made
      obtain ⟨_, rfl, depths, made⟩ := Plan.make_ok planned
      have ordered : program.func.Ordered := ⟨(Func.deriveEdges_ok derived).2, once, entered, plain, tails⟩
      rw [Func.reduce_of_plan singlePath planned]
      obtain ⟨result, carried⟩ | ⟨stopped, stops, ⟨cause, isRefused⟩ | ⟨overflows, far⟩⟩ :=
        made.carryOut_cases (few.trans (by decide)) ordered options
      · exact .inl ⟨result.1, by rw [carried]⟩
      · exact .inr (.inl ⟨cause, by rw [stops, ← isRefused]⟩)
      · exact .inr (.inr ⟨by rw [stops, ← overflows], far.imp_right fun far => .inl ⟨plan, start, rfl, far⟩⟩)
  · exact .inl ⟨{}, by simp [Func.reduce, Work.reduce, singlePath, pure, Except.pure]⟩

theorem reduced_or_refused_countdown :
    validate ⟨Func.countdownFunc, Func.countdownTree⟩ {} = .ok () ∧
      Func.countdownFunc.deriveEdges = .ok Func.countdownFunc ∧ ∀ options,
        (∃ reduction, (Func.countdownFunc.reduce Func.countdownTree {} options).1 = .ok reduction) ∨
          ∃ cause, (Func.countdownFunc.reduce Func.countdownTree {} options).1 = .error (.refused cause) := by
  have accepted : validate ⟨Func.countdownFunc, Func.countdownTree⟩ {} = .ok () := by decide +kernel
  have derived : Func.countdownFunc.deriveEdges = .ok Func.countdownFunc := rfl
  have cells : (Plan.make Func.countdownTree {} Func.countdownFunc).toOption.map (·.1.frame.cells) = some [⟨0⟩] := by
    decide +kernel
  refine ⟨accepted, derived, fun options => ?_⟩
  obtain reduced | refused |
      ⟨_, ⟨block, inst, listed, far⟩ | ⟨plan, start, planned, cell, listed, far⟩ | ⟨unplanned, _⟩⟩ :=
    @reduced_or_refused ⟨Func.countdownFunc, Func.countdownTree⟩ {} _ _ accepted rfl derived (by decide)
      (Func.branchesLast_of_blocks (by decide)) (by decide) options
  · exact .inl reduced
  · exact .inr refused
  · exact absurd (@Func.forall_codeOf Func.countdownFunc (fun _ code => ∀ inst ∈ code, inst.Addressable)
      (fun _ => by simp) (by decide) block inst listed) far
  · rw [show Plan.make Func.countdownTree {} Func.countdownFunc = .ok (plan, start) from planned] at cells
    obtain rfl : cell = ⟨0⟩ := List.mem_singleton.mp (Option.some.inj cells ▸ listed)
    exact absurd far (by decide)
  · rw [show Plan.make Func.countdownTree {} Func.countdownFunc = _ from unplanned] at cells
    cases cells

/-- The second block branches to itself before it returns. -/
def branchBeforeReturn : Program where
  func := {
    name := "early"
    blocks := [
      { name := "entry", insts := [.plain (.ret ⟨1⟩)] },
      { name := "done", insts := [.plain (.branch ⟨1⟩), .plain (.ret ⟨1⟩)], succs := [⟨1⟩], preds := [⟨1⟩] }]
    layout := [⟨0⟩, ⟨1⟩] }
  tree := { Func.setupBranchTree with wholeFunction := true }

/-- A region whose entry leaves by a branch that is marked as frame setup. -/
def setupBranchOut : Program where
  func := {
    name := "setup"
    blocks := [
      { name := "entry", insts := [⟨.always, true, .branch ⟨1⟩⟩], succs := [⟨1⟩] },
      { name := "done", insts := [.plain (.ret ⟨1⟩)], preds := [⟨0⟩] }]
    layout := [⟨0⟩, ⟨1⟩] }
  tree := Func.setupBranchTree

/-- A call in a function that uses all numbers of cells. -/
def fullFrame : Program where
  func := {
    name := "full"
    blocks := [{ name := "entry", insts := [.plain (.call 5), .plain (.ret ⟨1⟩)] }]
    layout := [⟨0⟩]
    cells := 0xffffffff }
  tree := .single ⟨0⟩

/-- The program is accepted, its tree fits and its edges are derived, but its reduction faults. -/
def Faults (program : Program) (fault : Fault) : Prop :=
  program.validate {} = .ok () ∧ (program.tree.validate program.func).toBool = true ∧
    program.func.deriveEdges = .ok program.func ∧ (program.func.reduce program.tree {} {}).1 = .error (.fault fault)

/-- The outcome is the fault. -/
def stopsAt {α : Type} (fault : Fault) : Outcome α → Bool
  | .error (.fault other) => other = fault
  | _ => false

theorem eq_of_stopsAt {α : Type} {fault : Fault} {outcome : Outcome α} (stops : stopsAt fault outcome = true) :
    outcome = .error (.fault fault) := by
  rcases outcome with (other | cause) | value
  · rw [of_decide_eq_true stops]
  · cases stops
  · cases stops

/-- Such a branch is left in the code while its target is merged into another block, so it leads nowhere in the end. The
cell that keeps return information over the call has no number. -/
theorem reduce_faults :
    branchBeforeReturn.Faults .dangling ∧ setupBranchOut.Faults .dangling ∧ fullFrame.Faults .overflow :=
  ⟨⟨by decide +kernel, by decide +kernel, rfl, eq_of_stopsAt (by decide +kernel)⟩,
    ⟨by decide +kernel, by decide +kernel, rfl, eq_of_stopsAt (by decide +kernel)⟩,
    by decide +kernel, by decide +kernel, rfl, eq_of_stopsAt (by decide +kernel)⟩

end Program

end SinglePath
