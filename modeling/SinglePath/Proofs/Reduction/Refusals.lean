import SinglePath.Proofs.Plan.Answers
import SinglePath.Proofs.Plan.Emitted
import SinglePath.Proofs.Straight.Rewriting
import SinglePath.Reduction

namespace SinglePath

open List Shape

variable {b : BlockId} {code : List Inst} {plan : Plan} {f : Func} {tree : ScopeTree} {regs : TargetRegs}
  {cause : Refusal}

/-- Only these refusals can come after the function has been changed. -/
def Refusal.isLate : Refusal → Bool
  | .predicatedCall _ => true
  | .irregular _ => true
  | _ => false

/-- If the step stops with a refusal, then with a late one. -/
def OnlyLate {α : Type} (step : Step α) : Prop :=
  ∀ stopped cause, step = .error stopped → stopped.failure = .refused cause → cause.isLate = true

namespace OnlyLate

variable {α β : Type}

theorem ok (v : α) : OnlyLate (.ok v) := nofun

/-- Steps that refuse late only compose. -/
theorem bind {first : Step α} {next : α → Step β} (early : OnlyLate first)
    (later : ∀ v, first = .ok v → OnlyLate (next v)) : OnlyLate (first >>= next) := by
  intro stopped cause stops refused
  cases res : first with
  | error reason =>
    rw [res, error_bind] at stops
    obtain rfl := Except.error.inj stops
    exact early reason cause res refused
  | ok v =>
    rw [res, ok_bind] at stops
    exact later v res stopped cause stops refused

/-- A step that can only fault is not refused. -/
theorem expect (work : Work) (answer : Except Fault α) : OnlyLate (work.expect answer) := by
  intro stopped cause stops refused
  cases answer with
  | ok v => cases stops
  | error fault =>
    obtain rfl := Except.error.inj stops
    cases refused

theorem await {answer : Outcome α} (work : Work) (answered : ∃ v, answer = .ok v) : OnlyLate (work.await answer) := by
  obtain ⟨v, rfl⟩ := answered
  exact .ok v

/-- An answer that fails only for a late reason. -/
theorem awaitLate {answer : Outcome α} (work : Work)
    (late : ∀ failure, answer = .error failure → ∃ cause, failure = .refused cause ∧ cause.isLate = true) :
    OnlyLate (work.await answer) := by
  intro stopped cause stops refused
  cases answer with
  | ok v => cases stops
  | error failure =>
    obtain rfl := Except.error.inj stops
    obtain ⟨reason, rfl, isLate⟩ := late failure rfl
    obtain rfl := Failure.refused.inj refused
    exact isLate

/-- A fold whose steps keep an invariant and are refused late only. -/
theorem foldlM {σ : Type} {step : σ → α → Step σ} {items : List α} {start : σ} (Holds : σ → Prop)
    (initially : Holds start) (each : ∀ s, Holds s → ∀ x ∈ items, OnlyLate (step s x) ∧
      ∀ next, step s x = .ok next → Holds next) : OnlyLate (items.foldlM step start) := by
  induction items generalizing start with
  | nil => exact .ok start
  | cons first rest ih =>
    obtain ⟨late, kept⟩ := each start initially first (.head _)
    exact late.bind fun next stepped => ih (kept next stepped) fun s holds x mem => each s holds x (.tail _ mem)

end OnlyLate

namespace Work

theorem insertCode_onlyLate (work : Work) (b : BlockId) (i : Block → Nat) (code : List Inst) :
    OnlyLate (work.insertCode b i code) :=
  (OnlyLate.expect _ _).bind fun _ _ => (OnlyLate.expect _ _).bind fun _ _ => .ok _

theorem mapFunc_onlyLate (work : Work) (change : Func → Except Fault Func) : OnlyLate (work.mapFunc change) :=
  (OnlyLate.expect _ _).bind fun _ _ => .ok _

theorem eliminate_onlyLate (work : Work) (drop : Func → Except Fault (Nat × Func)) : OnlyLate (work.eliminate drop) :=
  (OnlyLate.expect _ _).bind fun _ _ => .ok _

end Work

/-- Calls stand only where there is a cell to save return information in. -/
def CallsSaved (c : Option CellId) (insts : List Inst) : Prop := c = none → ∀ inst ∈ insts, inst.isCall = false

/-- Some call of the code has a guard of its own. -/
def GuardedCall (insts : List Inst) : Prop := ∃ inst ∈ insts, inst.isCall = true ∧ inst.guard.isAlways = false

namespace CallsSaved

variable {c : Option CellId} {insts : List Inst}

theorem append {first second : List Inst} (one : CallsSaved c first) (two : CallsSaved c second) :
    CallsSaved c (first ++ second) := by
  intro none inst mem
  rcases mem_append.mp mem with early | late
  · exact one none inst early
  · exact two none inst late

theorem of_own (own : plan.OwnCode insts) : CallsSaved c insts := fun _ inst mem => (own inst mem).not_isCall

theorem of_subset {fewer : List Inst} (saved : CallsSaved c insts) (subset : ∀ inst ∈ fewer, inst ∈ insts) :
    CallsSaved c fewer :=
  fun none inst mem => saved none inst (subset inst mem)

/-- Code with a call only where it can be saved is inserted into other such code. -/
theorem insertAt (body : Block) (saved : CallsSaved c body.insts)
    (inserted : CallsSaved c code) (i : Nat) : CallsSaved c (body.insertAt i code).insts :=
  ((saved.of_subset fun _ => mem_of_mem_take).append inserted).append (saved.of_subset fun _ => mem_of_mem_drop)

end CallsSaved

namespace Predication

variable {predication : Predication} {body : Block} {returnInfo : NumberSet} {inst : Inst}
  {failure : Failure Refusal} {insts : List Inst} {i : Nat}

theorem isCall_guardCode {made : Inst} (mem : made ∈ predication.guardCode inst) (notCall : inst.isCall = false) :
    made.isCall = false := by
  unfold guardCode at mem
  split at mem
  · rwa [mem_singleton.mp mem]
  · split at mem
    · rw [mem_singleton.mp mem]
      exact notCall
    · split at mem
      · rwa [mem_singleton.mp mem]
      · rcases mem_cons.mp mem with rfl | last
        · rfl
        · rw [mem_singleton.mp last]
          exact notCall

section

variable (saved : CallsSaved predication.callCell [inst])

include saved

/-- An instruction is refused only as a guarded call. -/
theorem instCode_refused (stopped : predication.instCode b inst = .error failure) :
    failure = .refused (.predicatedCall b) ∧ GuardedCall [inst] := by
  unfold instCode at stopped
  split at stopped
  · next isCall =>
      split at stopped
      · next guarded => exact ⟨(Except.error.inj stopped).symm, inst, by simp, isCall, by simpa using guarded⟩
      · split at stopped
        · next none => simp [saved none inst (by simp)] at isCall
        · cases stopped
  · cases stopped

/-- The code of an instruction calls only if there is a cell for the return. -/
theorem instCode_saved (emitted : predication.instCode b inst = .ok code) : CallsSaved predication.callCell code := by
  intro none made mem
  have notCall := saved none inst (by simp)
  simp only [instCode, notCall, Bool.false_eq_true, if_false] at emitted
  cases emitted
  exact isCall_guardCode mem notCall

theorem codeAt_refused (stopped : predication.codeAt b body returnInfo i inst = .error failure) :
    failure = .refused (.predicatedCall b) ∧ GuardedCall [inst] := by
  unfold codeAt at stopped
  split at stopped
  · cases stopped
  · exact instCode_refused saved stopped

theorem codeAt_saved (emitted : predication.codeAt b body returnInfo i inst = .ok code) :
    CallsSaved predication.callCell code := by
  unfold codeAt at emitted
  split at emitted
  · cases emitted
    exact saved
  · exact instCode_saved saved emitted

end

/-- Code is refused only for a guarded call in it. -/
theorem codeFrom_refused (saved : CallsSaved predication.callCell insts)
    (stopped : predication.codeFrom b body returnInfo i insts = .error failure) :
    failure = .refused (.predicatedCall b) ∧ GuardedCall insts := by
  induction insts generalizing i with
  | nil => cases stopped
  | cons inst rest ih =>
    have first : CallsSaved predication.callCell [inst] := saved.of_subset (by simp)
    have others : CallsSaved predication.callCell rest := saved.of_subset (by simp +contextual)
    unfold codeFrom at stopped
    cases own : predication.codeAt b body returnInfo i inst with
    | error reason =>
      rw [own, error_bind] at stopped
      obtain rfl := Except.error.inj stopped
      obtain ⟨isRefused, call, isInst, guarded⟩ := codeAt_refused first own
      exact ⟨isRefused, call, by simp [mem_singleton.mp isInst], guarded⟩
    | ok code =>
      rw [own, ok_bind] at stopped
      cases later : predication.codeFrom b body returnInfo (i + 1) rest with
      | error reason =>
        rw [later, error_bind] at stopped
        obtain rfl := Except.error.inj stopped
        obtain ⟨isRefused, call, mem, guarded⟩ := ih others later
        exact ⟨isRefused, call, .tail _ mem, guarded⟩
      | ok codes =>
        rw [later, ok_bind] at stopped
        cases stopped

theorem codeFrom_saved (saved : CallsSaved predication.callCell insts)
    (emitted : predication.codeFrom b body returnInfo i insts = .ok code) : CallsSaved predication.callCell code := by
  induction insts generalizing i code with
  | nil =>
    cases emitted
    exact saved
  | cons inst rest ih =>
    have first : CallsSaved predication.callCell [inst] := saved.of_subset (by simp)
    have others : CallsSaved predication.callCell rest := saved.of_subset (by simp +contextual)
    obtain ⟨own, isOwn, later, isLater, rfl⟩ := bind_bind_pure_inv emitted
    exact (codeAt_saved first isOwn).append (ih others isLater)

end Predication

namespace Plan

variable {start : Func} {depths : List Nat} {body : Scope} {scope : ScopeId}

section

/-- Every block has calls only where return information can be saved. -/
def Callable (plan : Plan) (work : Work) : Prop :=
  ∀ b body, work.func.block? b = some body → CallsSaved plan.frame.callCell body.insts

/-- A plan has a cell for the return if the function calls. -/
theorem Made.callable (made : plan.Made f start depths) : plan.Callable { func := start } := by
  intro b body found none inst mem
  rw [made.laid.callCell] at none
  split at none
  · cases none
  · next noCalls =>
      have sameBlocks : start.blocks = f.blocks := by rw [made.laid.start]
      simp only [Func.block?, sameBlocks] at found
      simp only [Func.hasCalls, any_eq_true, not_exists, not_and, Bool.not_eq_true] at noCalls
      exact noCalls body (mem_of_getElem? found) inst mem

variable {work : Work}

theorem Callable.setCode {next : Work} {insts : List Inst} (callable : plan.Callable work)
    (saved : CallsSaved plan.frame.callCell insts) (isNext : next.func = work.func.setCode b insts) :
    plan.Callable next := by
  intro o body found
  rw [isNext, Func.block?_setCode] at found
  split at found
  · obtain ⟨old, _, rfl⟩ := Option.map_eq_some_iff.mp found
    exact saved
  · exact callable o body found

/-- The code that predication gives to a block keeps its calls saved. -/
theorem Predicates.saved {header : BlockId} {body : Block} {new : List Inst}
    (predicates : plan.Predicates scope header b body new) (saved : CallsSaved plan.frame.callCell body.insts) :
    CallsSaved plan.frame.callCell new := by
  obtain ⟨guard, alloc, use, code, isTop, isGuard, _, emitted, isUse, _, rfl⟩ := predicates
  have usedSaved : CallsSaved plan.frame.callCell use := by
    split at isUse
    · exact .of_own (useCode_own isUse)
    · subst isUse
      exact .of_own (OwnCode.nil : plan.OwnCode [])
  have together := usedSaved.append (Predication.codeFrom_saved saved emitted)
  have entrySaved : CallsSaved plan.frame.callCell [.movePred .always guard (.holds plan.temporary)] :=
    .of_own (OwnCode.cons_iff.mpr ⟨⟨rfl, blockGuard_own isGuard⟩, .nil⟩)
  split
  · exact CallsSaved.insertAt { body with insts := use ++ code } together entrySaved _
  · exact together

theorem predicateInsts_onlyLate (guard : PReg) (callable : plan.Callable work) (b : BlockId) :
    OnlyLate (plan.predicateInsts guard work b) := by
  refine (OnlyLate.expect _ _).bind fun body got => OnlyLate.bind ?_ fun _ _ => .ok _
  have saved := callable b body (present_eq_ok.mp (Work.expect_eq_ok.mp got))
  exact .awaitLate _ fun failure stopped =>
    ⟨.predicatedCall b, (Predication.codeFrom_refused saved stopped).1, rfl⟩

theorem addUseCode_onlyLate (made : plan.Made f start depths)
    (found : plan.tree.get scope = .ok body) (work : Work) (inside : b ∈ body.blocks) :
    OnlyLate (plan.addUseCode scope body.header work b) := by
  refine (OnlyLate.expect _ _).bind fun alloc isAlloc => ?_
  obtain ⟨same, sameAlloc, mem, _, _, recorded⟩ := made.alloc_ok found
  obtain rfl := ok_unique sameAlloc (Work.expect_eq_ok.mp isAlloc)
  split
  · next uses =>
      have notHeader : b ≠ body.header := by simpa using (Bool.and_eq_true_iff.mp uses).1
      exact (OnlyLate.await _ (made.useCode_ok mem recorded inside notHeader)).bind
        fun _ _ => work.insertCode_onlyLate _ _ _
  · exact .ok _

theorem addEntryCode_onlyLate (scope : ScopeId) (header : BlockId) (guard : PReg) (work : Work) (b : BlockId) :
    OnlyLate (plan.addEntryCode scope header guard work b) := by
  refine (OnlyLate.expect _ _).bind fun isTop _ => ?_
  split
  · exact work.insertCode_onlyLate _ _ _
  · exact .ok _

/-- Predicating a block of a scope refuses late only. -/
theorem predicateBlock_late (made : plan.Made f start depths)
    (found : plan.tree.get scope = .ok body) (callable : plan.Callable work) (inside : b ∈ body.blocks) :
    OnlyLate (plan.predicateBlock scope body.header work b) ∧
      ∀ next, plan.predicateBlock scope body.header work b = .ok next → plan.Callable next := by
  constructor
  · exact (OnlyLate.await _ (made.blockGuard_ok found inside)).bind fun guard _ =>
      (predicateInsts_onlyLate guard callable b).bind fun _ _ =>
        (addUseCode_onlyLate made found _ inside).bind fun _ _ => addEntryCode_onlyLate _ _ _ _ _
  · intro next predicated
    obtain ⟨old, new, isOld, predicates, isNext⟩ := predicateBlock_ok predicated
    exact callable.setCode (predicates.saved (callable b old isOld)) isNext

/-- Predicating refuses late only. -/
theorem predicate_onlyLate (made : plan.Made f start depths) (callable : plan.Callable work) :
    OnlyLate (plan.predicate work) := by
  refine OnlyLate.foldlM plan.Callable callable fun work callable scope mem => ?_
  obtain ⟨body, found⟩ := made.valid.found mem
  have each (work : Work) (callable : plan.Callable work) (b : BlockId) (inside : b ∈ body.blocks) :=
    predicateBlock_late made found callable inside
  constructor
  · refine (OnlyLate.expect _ _).bind fun same isSame => ?_
    obtain rfl := ok_unique found (Work.expect_eq_ok.mp isSame)
    exact OnlyLate.foldlM plan.Callable callable each
  · intro next stepped
    obtain ⟨same, isSame, folded⟩ := bind_inv stepped
    obtain rfl := ok_unique found (Work.expect_eq_ok.mp isSame)
    exact foldlM_invariant plan.Callable folded callable
      fun work b after inside callable stepped => (each work callable b inside).2 after stepped

end

theorem defineScope_onlyLate (made : plan.Made f start depths) (mem : scope ∈ plan.scopes)
    (s : PendingDefs × Work) : OnlyLate (plan.defineScope s scope) := by
  obtain ⟨body, found⟩ := made.valid.found mem
  refine (OnlyLate.await _ (made.addScopeDefs_ok found s.1)).bind fun pending _ => ?_
  refine OnlyLate.bind ?_ fun _ _ => .ok _
  exact (OnlyLate.expect _ _).bind fun _ _ => (OnlyLate.expect _ _).bind fun _ _ =>
    (OnlyLate.expect _ _).bind fun _ _ => Work.insertCode_onlyLate _ _ _ _

/-- Adding the definitions refuses late only. -/
theorem define_onlyLate (made : plan.Made f start depths) (work : Work) : OnlyLate (plan.define work) := by
  refine OnlyLate.bind ?_ fun defined _ => OnlyLate.bind ?_ fun placed _ => placed.mapFunc_onlyLate _
  · exact OnlyLate.foldlM (fun _ => True) trivial
      fun s _ scope mem => ⟨defineScope_onlyLate made mem s, fun _ _ => trivial⟩
  · exact OnlyLate.foldlM (fun _ => True) trivial
      fun work _ entry _ => ⟨work.insertCode_onlyLate _ _ _, fun _ _ => trivial⟩

theorem next_onlyLate (chain : Chain) (b : BlockId) : OnlyLate (chain.next b) := by
  refine (OnlyLate.expect _ _).bind fun bare _ => (OnlyLate.expect _ _).bind fun stripped _ => ?_
  cases chain.last with
  | none => exact .ok _
  | some last => exact (OnlyLate.expect _ _).bind fun _ _ => .ok _

theorem nameFor_onlyLate (chain : Chain) (header : BlockId) (suffix : String) :
    OnlyLate (chain.nameFor header suffix) :=
  (OnlyLate.expect _ _).bind fun _ _ => .ok _

section

variable (made : plan.Made f start depths) (found : plan.tree.get scope = .ok body)
  (isLoop : body.isTopLevel = false) (chain : Chain)

include made found isLoop chain

theorem enterLoop_onlyLate : OnlyLate (chain.enterLoop plan scope body) := by
  obtain ⟨pred, guards, isPred⟩ := made.headerPred_ok found
  refine (OnlyLate.await _ ⟨pred, isPred⟩).bind fun same isSame => (nameFor_onlyLate _ _ _).bind fun _ _ =>
    (OnlyLate.expect _ _).bind fun _ _ => (OnlyLate.expect _ _).bind fun save _ => ?_
  obtain rfl := ok_unique isPred (Work.await_eq_ok.mp isSame)
  exact (OnlyLate.await _ (made.enterPredCode_ok found isLoop guards)).bind fun _ _ =>
    (OnlyLate.expect _ _).bind fun _ _ => (OnlyLate.expect _ _).bind fun _ _ => (OnlyLate.expect _ _).bind fun _ _ =>
      (Work.insertCode_onlyLate _ _ _ _).bind fun _ _ => next_onlyLate _ _

theorem exitLoop_onlyLate : OnlyLate (chain.exitLoop plan scope body) := by
  refine (OnlyLate.expect _ _).bind fun alloc isAlloc => OnlyLate.bind ?_ fun after _ => ?_
  · obtain ⟨same, sameAlloc, mem, _, _, recorded⟩ := made.alloc_ok found
    obtain rfl := ok_unique sameAlloc (Work.expect_eq_ok.mp isAlloc)
    have reloads := made.reloadCode_ok mem recorded (made.valid.header_mem_blocks found) isLoop
    exact (nameFor_onlyLate _ _ _).bind fun _ _ => (next_onlyLate _ _).bind fun _ _ =>
      (OnlyLate.await _ reloads).bind fun _ _ => (Work.insertCode_onlyLate _ _ _ _).bind fun _ _ =>
        (OnlyLate.await _ (made.branchCode_ok found isLoop)).bind fun _ _ =>
          (Work.insertCode_onlyLate _ _ _ _).bind fun _ _ => (Work.mapFunc_onlyLate _ _).bind fun _ _ => .ok _
  · split
    · exact (nameFor_onlyLate _ _ _).bind fun _ _ => (OnlyLate.expect _ _).bind fun _ _ => next_onlyLate _ _
    · exact .ok _

end

/-- Linearizing refuses late only. -/
theorem linearize_onlyLate (made : plan.Made f start depths) (work : Work) : OnlyLate (plan.linearize work) := by
  refine (OnlyLate.expect _ _).bind fun es _ => OnlyLate.bind ?_ fun _ _ => .ok _
  refine OnlyLate.foldlM (fun _ => True) trivial fun chain _ e _ => ⟨?_, fun _ _ => trivial⟩
  cases e with
  | block b => exact next_onlyLate _ _
  | enter scope =>
    refine (OnlyLate.expect _ _).bind fun body got => ?_
    split
    · exact .ok _
    · next isLoop =>
        exact enterLoop_onlyLate made (Work.expect_eq_ok.mp got) (by simpa using isLoop) chain
  | exit scope =>
    refine (OnlyLate.expect _ _).bind fun body got => ?_
    split
    · exact .ok _
    · next isLoop =>
        exact exitLoop_onlyLate made (Work.expect_eq_ok.mp got) (by simpa using isLoop) chain

theorem clean_onlyLate (plan : Plan) (options : ReduceOptions) (work : Work) : OnlyLate (plan.clean options work) := by
  have stores (work : Work) :
      OnlyLate (if options.dropStores then work.eliminate (·.dropDeadStores plan.frame.cells) else pure work) := by
    split
    · exact work.eliminate_onlyLate _
    · exact .ok _
  unfold clean
  dsimp only
  split
  · exact (work.eliminate_onlyLate _).bind fun _ _ => stores _
  · exact stores work

theorem check_onlyLate (work : Work) (tree : ScopeTree) : OnlyLate (work.await (check work.func tree)) := by
  unfold check
  cases errors work.func tree with
  | error fault => exact .expect work (.error fault)
  | ok found =>
    cases found with
    | nil => exact .ok _
    | cons first rest =>
      refine .awaitLate work fun failure stopped => ⟨.irregular (first :: rest), ?_, rfl⟩
      exact (Except.error.inj stopped).symm

/-- What a plan calls for refuses late only. -/
theorem carryOut_onlyLate (made : plan.Made f start depths) (options : ReduceOptions) :
    OnlyLate (plan.carryOut options { func := start }) := by
  have straightened : OnlyLate (plan.straighten { func := start }) :=
    (predicate_onlyLate made made.callable).bind fun _ _ =>
      (define_onlyLate made _).bind fun _ _ => linearize_onlyLate made _
  refine straightened.bind fun _ _ => (Work.mapFunc_onlyLate _ _).bind fun _ _ =>
    (clean_onlyLate plan options _).bind fun _ _ => (Work.mapFunc_onlyLate _ _).bind fun work _ => ?_
  have numbered : OnlyLate (work.expect work.func.renumber >>= fun numbered =>
      return (({
        stats := work.stats
        allocs := plan.allocs
        available := plan.available
        temporary := some plan.temporary
        blockMap := numbered.1 } : Reduction), { work with func := numbered.2 })) :=
    (OnlyLate.expect _ _).bind fun _ _ => .ok _
  split
  · exact (check_onlyLate work plan.tree).bind fun _ _ => numbered
  · exact numbered

end Plan

namespace Func

variable {options : ReduceOptions}

/-- A reduction that is refused early leaves the function as it was. -/
theorem reduce_refused_early (refused : (f.reduce tree regs options).1 = .error (.refused cause)) :
    Plan.make tree regs f = .error (.refused cause) ∧ (f.reduce tree regs options).2 = f ∨ cause.isLate = true := by
  unfold reduce Work.reduce at refused ⊢
  cases single : tree.singlePath with
  | false => simp [single, pure, Except.pure] at refused
  | true =>
    cases planned : Plan.make tree regs f with
    | error failure =>
      simp only [single, if_true, planned, Work.await, error_bind] at refused ⊢
      exact .inl ⟨congrArg _ (Except.error.inj refused), trivial⟩
    | ok made =>
      obtain ⟨plan, start⟩ := made
      obtain ⟨_, _, depths, isMade⟩ := Plan.make_ok planned
      simp only [single, if_true, planned, Work.await_ok, ok_bind] at refused
      cases carried : plan.carryOut options { func := start } with
      | error stopped =>
        simp only [carried] at refused
        exact .inr (Plan.carryOut_onlyLate isMade options stopped cause carried (Except.error.inj refused))
      | ok done => simp [carried] at refused

/-- A reduction that is refused, other than for a predicated call or a wrong shape, leaves the function as it was. Once
the tree is valid, a temporary register is left and the predicates are allocated, nothing else is refused. -/
theorem reduce_refused (func : Func) (tree : ScopeTree) (regs : TargetRegs) (options : ReduceOptions) :
    (∀ cause, (func.reduce tree regs options).1 = .error (.refused cause) → cause.isLate = false →
        (func.reduce tree regs options).2 = func) ∧
      ∀ facts temporary allocs cause, tree.validate func = .ok facts →
        ((Plan.candidates regs).filter fun reg => !func.mentionsPred reg).getLast? = some temporary →
        tree.allocate ((Plan.candidates regs).filter fun reg => !func.mentionsPred reg).dropLast.length = .ok allocs →
        (func.reduce tree regs options).1 = .error (.refused cause) → cause.isLate = true := by
  constructor
  · intro cause refused early
    rcases reduce_refused_early refused with ⟨_, unchanged⟩ | late
    · exact unchanged
    · simp [early] at late
  · intro facts temporary allocs cause validated isLast allocated refused
    rcases reduce_refused_early refused with ⟨planned, _⟩ | late
    · obtain ⟨_, _, made⟩ | ⟨made, _⟩ := Plan.make_cases validated isLast allocated <;> simp [made] at planned
    · exact late

/-- One block that calls under a guard of its own. -/
def guardedCallFunc : Func where
  name := "guarded"
  blocks := [{ name := "entry", insts := [(Inst.plain (.call 0)).withGuard (.holds ⟨1⟩), .plain (.ret ⟨1⟩)] }]
  layout := [⟨0⟩]

/-- Without a register for its predicates a tree is refused and nothing changes; a call with a guard of its own is found
only after the frame has been laid out. -/
theorem reduce_refused_turnsTree :
    ((ScopeTree.rowFunc.reduce ScopeTree.turnsTree { predCount := 2 } {}).1 =
        .error (.refused (.registerPressure ScopeTree.root)) ∧
      (ScopeTree.rowFunc.reduce ScopeTree.turnsTree { predCount := 2 } {}).2 = ScopeTree.rowFunc) ∧
      (guardedCallFunc.reduce (.single ⟨0⟩) {} {}).1 = .error (.refused (.predicatedCall ⟨0⟩)) ∧
      (Refusal.predicatedCall ⟨0⟩).isLate = true := by
  have pressure : (ScopeTree.rowFunc.reduce ScopeTree.turnsTree { predCount := 2 } {}).1 =
      .error (.refused (.registerPressure ScopeTree.root)) := by rfl
  have guarded : (guardedCallFunc.reduce (.single ⟨0⟩) {} {}).1 = .error (.refused (.predicatedCall ⟨0⟩)) := by rfl
  refine ⟨⟨pressure, (reduce_refused _ _ _ _).1 _ pressure rfl⟩, guarded, ?_⟩
  exact (reduce_refused guardedCallFunc (.single ⟨0⟩) {} {}).2 _ ⟨7⟩ _ _ rfl (by decide) rfl guarded

end Func

end SinglePath
