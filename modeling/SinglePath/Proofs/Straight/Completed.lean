import SinglePath.Proofs.Plan.Provided
import SinglePath.Proofs.Reduction.Refusals
import SinglePath.Proofs.Straight.Straightened

/-!
Straightening comes to its end, unless a call has a guard of its own.
-/

namespace SinglePath

open Block List Nat PendingDefs

variable {work : Work} {b header : BlockId} {body : Block} {inst : Inst} {plan : Plan} {f start : Func}
  {depths : List Nat} {scope : ScopeId}

namespace Work

theorem insertCode_total (i : Block → Nat) (inside : b.index < work.func.blocks.length)
    (fits : ∀ body, i body ≤ body.insts.length) (code : List Inst) :
    ∃ next, work.insertCode b i code = .ok next ∧ next.func.blocks.length = work.func.blocks.length := by
  obtain ⟨body, got⟩ := Func.get_total inside
  have inserted : work.func.insert b (i body) code = .ok (work.func.modify b (·.insertAt (i body) code)) := by
    simp only [Func.insert, got, ok_bind, if_pos (fits body)]
    rfl
  refine ⟨_, bind_ok (expect_eq_ok.mpr got) <| bind_ok (expect_eq_ok.mpr inserted) rfl, ?_⟩
  exact length_modify ..

theorem appendCode_total (inside : b.index < work.func.blocks.length) (code : List Inst) :
    ∃ next, work.appendCode b code = .ok next ∧ next.func.blocks.length = work.func.blocks.length :=
  insertCode_total _ inside (fun _ => le_rfl) code

end Work

theorem Block.setupLength_le_length (b : Block) : b.setupLength ≤ b.insts.length := (takeWhile_sublist _).length_le

namespace Predication

variable {predication : Predication} {returnInfo : NumberSet} {insts code : List Inst} {i : Nat} {made : Inst}

theorem codeAt_calls (emitted : predication.codeAt b body returnInfo i inst = .ok code)
    (mem : made ∈ code) (isCall : made.isCall = true) : made = inst := by
  unfold codeAt at emitted
  split at emitted
  · cases emitted
    exact mem_singleton.mp mem
  · unfold instCode at emitted
    split at emitted
    · split at emitted
      · cases emitted
      · split at emitted
        · cases emitted
        · cases emitted
          simp only [callCode, mem_cons, not_mem_nil, or_false] at mem
          rcases mem with rfl | rfl | rfl | rfl
          · cases isCall
          · cases isCall
          · rfl
          · cases isCall
    · next notCall =>
        cases emitted
        simp [isCall_guardCode mem (by simpa using notCall)] at isCall

theorem codeFrom_calls (emitted : predication.codeFrom b body returnInfo i insts = .ok code)
    (mem : made ∈ code) (isCall : made.isCall = true) : made ∈ insts := by
  induction insts generalizing i code with
  | nil =>
    cases emitted
    exact mem
  | cons inst rest ih =>
    obtain ⟨own, isOwn, later, isLater, rfl⟩ := bind_bind_pure_inv emitted
    rcases mem_append.mp mem with early | late
    · exact codeAt_calls isOwn early isCall ▸ (.head _)
    · exact .tail _ (ih isLater late)

end Predication

namespace Plan

/-- The calls of a predicated block are those of the block. -/
theorem Predicates.calls {new : List Inst} (predicates : plan.Predicates scope header b body new) (mem : inst ∈ new)
    (isCall : inst.isCall = true) : inst ∈ body.insts := by
  obtain ⟨guard, alloc, use, code, isTop, isGuard, _, emitted, isUse, _, rfl⟩ := predicates
  have ownUse : plan.OwnCode use := by
    split at isUse
    · exact useCode_own isUse
    · subst isUse
      exact OwnCode.nil
  have together : ∀ inst ∈ use ++ code, inst.isCall = true → inst ∈ body.insts := by
    intro inst mem isCall
    rcases mem_append.mp mem with early | late
    · simp [(ownUse inst early).not_isCall] at isCall
    · exact Predication.codeFrom_calls emitted late isCall
  split at mem
  · simp only [insertedAt, mem_append, mem_singleton] at mem
    rcases mem with (early | rfl) | late
    · exact together inst (mem_of_mem_take early) isCall
    · cases isCall
    · exact together inst (mem_of_mem_drop late) isCall
  · exact together inst mem isCall

/-- The work has the blocks of the function, and their calls are calls of the function. -/
structure Ready (f : Func) (work : Work) : Prop where
  length : work.func.blocks.length = f.blocks.length
  calls : ∀ b body, work.func.block? b = some body → ∀ inst ∈ body.insts, inst.isCall = true →
    inst ∈ f.codeOf b

/-- The step was refused because of a call with a guard of its own. -/
def OnGuardedCall (f : Func) (stopped : Stopped) : Prop :=
  ∃ b, stopped.failure = .refused (.predicatedCall b) ∧ GuardedCall (f.codeOf b)

section

variable (made : plan.Made f start depths) {body : Scope}

include made

theorem Made.ready : Ready f { func := start } where
  length := by rw [made.laid.start]
  calls b body found inst mem isCall := Func.codeOf_eq (made.block?_start b ▸ found) ▸ mem

theorem Ready.saved (ready : Ready f work) {body : Block} (found : work.func.block? b = some body) :
    CallsSaved plan.frame.callCell body.insts := by
  intro none inst mem
  by_contra isCall
  have isCode := ready.calls b body found inst mem (by simpa using isCall)
  cases isStart : start.block? b with
  | none => simp [Func.codeOf, ← made.block?_start b, isStart] at isCode
  | some original =>
    rw [Func.codeOf_eq (made.block?_start b ▸ isStart)] at isCode
    exact isCall (made.callable b original isStart none inst isCode)

/-- The instructions of a block are predicated, unless one of them is a call with a guard of its own. -/
theorem predicateInsts_cases (ready : Ready f work) (inside : b.index < f.blocks.length) (guard : PReg) :
    (∃ next, plan.predicateInsts guard work b = .ok next ∧ next.func.blocks.length = f.blocks.length) ∨
      ∃ stopped, plan.predicateInsts guard work b = .error stopped ∧ OnGuardedCall f stopped := by
  obtain ⟨body, got⟩ := Func.get_total (ready.length ▸ inside)
  have found := Func.get_eq_ok.mp got
  unfold predicateInsts
  rw [got, Work.expect_ok, ok_bind]
  cases isCode : (plan.predication guard).blockCode b body with
  | ok code => exact .inl ⟨_, rfl, (length_modify ..).trans ready.length⟩
  | error failure =>
    obtain ⟨isRefused, call, mem, isCall, guarded⟩ := Predication.codeFrom_refused (ready.saved made found) isCode
    exact .inr ⟨_, rfl, b, isRefused, call, ready.calls b body found call mem isCall, isCall, guarded⟩

section

variable (found : plan.tree.get scope = .ok body) (length : work.func.blocks.length = f.blocks.length)
  (inside : b ∈ body.blocks)

include found length inside

theorem addUseCode_total : ∃ next, plan.addUseCode scope body.header work b = .ok next ∧
      next.func.blocks.length = f.blocks.length := by
  obtain ⟨alloc, isAlloc, mem, _, _, recorded⟩ := made.alloc_ok found
  unfold addUseCode
  simp only [isAlloc, Work.expect_ok, ok_bind]
  split
  · next uses =>
      have notHeader : b ≠ body.header := by simpa using (Bool.and_eq_true_iff.mp uses).1
      obtain ⟨use, isUse⟩ := made.useCode_ok mem recorded inside notHeader
      obtain ⟨next, inserted, same⟩ := Work.insertCode_total (fun _ => 0)
        (length ▸ made.member_lt found inside) (fun _ => zero_le _) use
      exact ⟨next, by rw [isUse, Work.await_ok, ok_bind, inserted], same.trans length⟩
  · exact ⟨work, rfl, length⟩

theorem addEntryCode_total (guard : PReg) : ∃ next, plan.addEntryCode scope body.header guard work b = .ok next := by
  have isTop : plan.tree.isRegionTop scope = .ok (body.isTopLevel && !plan.tree.wholeFunction) := by
    rw [ScopeTree.isRegionTop, found]
    rfl
  unfold addEntryCode
  simp only [isTop, Work.expect_ok, ok_bind]
  split
  · obtain ⟨next, inserted, _⟩ := Work.insertCode_total _ (length ▸ made.member_lt found inside) setupLength_le_length
      [.movePred .always guard (.holds plan.temporary)]
    exact ⟨next, inserted⟩
  · exact ⟨work, rfl⟩

end

theorem predicateBlock_cases (found : plan.tree.get scope = .ok body) (ready : Ready f work)
    (inside : b ∈ body.blocks) :
    (∃ next, plan.predicateBlock scope body.header work b = .ok next ∧ Ready f next) ∨
      ∃ stopped, plan.predicateBlock scope body.header work b = .error stopped ∧ OnGuardedCall f stopped := by
  obtain ⟨guard, isGuard⟩ := made.blockGuard_ok found inside
  obtain ⟨predicated, predicating, length⟩ | ⟨stopped, stops, onCall⟩ :=
    predicateInsts_cases made ready (made.member_lt found inside) guard
  · obtain ⟨used, using_, length⟩ := addUseCode_total made found length inside
    obtain ⟨next, entering⟩ := addEntryCode_total made found length inside guard
    have res : plan.predicateBlock scope body.header work b = .ok next := bind_eq_ok.mpr
      ⟨guard, Work.await_eq_ok.mpr isGuard, bind_ok predicating <| bind_ok using_ entering⟩
    obtain ⟨old, new, isOld, predicates, isNext⟩ := predicateBlock_ok res
    refine .inl ⟨next, res, ?_, fun o body found => ?_⟩
    · rw [isNext]
      exact (work.func.sameButCode_setCode b new).length.trans ready.length
    · rw [isNext, Func.block?_setCode] at found
      split at found
      · next same =>
          obtain ⟨_, _, rfl⟩ := Option.map_eq_some_iff.mp found
          exact fun inst mem isCall => same ▸ ready.calls b old isOld inst (predicates.calls mem isCall) isCall
      · exact ready.calls o body found
  · refine .inr ⟨stopped, ?_, onCall⟩
    unfold predicateBlock
    rw [isGuard, Work.await_ok, ok_bind, stops, error_bind]

/-- Predicating goes through or stops at a guarded call. -/
theorem predicate_cases (ready : Ready f work) : (∃ next, plan.predicate work = .ok next ∧ Ready f next) ∨
      ∃ stopped, plan.predicate work = .error stopped ∧ OnGuardedCall f stopped := by
  refine foldlM_cases (Ready f) (OnGuardedCall f) ready fun work ready scope mem => ?_
  obtain ⟨body, found⟩ := made.valid.found mem
  unfold predicateScope
  rw [found, Work.expect_ok, ok_bind]
  exact foldlM_cases (Ready f) (OnGuardedCall f) ready fun work ready b inside =>
    predicateBlock_cases made found ready inside

end

/-- The definitions leave blocks of the function. -/
structure Leave (f : Func) (pending : PendingDefs) : Prop where
  defs : ∀ entry ∈ pending.defs.entries, entry.1.index < f.blocks.length
  killed : ∀ entry ∈ pending.killed, entry.1.index < f.blocks.length

variable {pending : PendingDefs}

theorem addDef_leave {next : PendingDefs} {entry : PredDef × Nat} (leave : Leave f pending)
    (u : entry.1.source.index < f.blocks.length) (res : plan.addDef scope pending entry = .ok next) : Leave f next := by
  obtain ⟨made, _, rfl⟩ := addDef_eq res
  constructor
  · intro o mem
    rcases Table.mem_place mem with rfl | earlier
    · exact u
    · refine leave.defs o ?_
      unfold addKilled at earlier
      split at earlier
      · exact earlier
      · exact earlier
  · intro o mem
    have isKilled : o ∈ (pending.addKilled entry.1.source (entry.1.cond.getD .always)).killed := mem
    unfold addKilled at isKilled
    split at isKilled
    · rcases mem_append.mp isKilled with earlier | isNew
      · exact leave.killed o earlier
      · rw [mem_singleton.mp isNew]
        exact u
    · exact leave.killed o isKilled

theorem clearStackBits_total (made : plan.Made f start depths) {body : Scope}
    (found : plan.tree.get scope = .ok body) (length : work.func.blocks.length = f.blocks.length) :
    ∃ next, plan.clearStackBits work scope = .ok next ∧ next.func.blocks.length = f.blocks.length := by
  obtain ⟨alloc, isAlloc, _⟩ := made.alloc_ok found
  obtain ⟨masks, isMasks⟩ := made.stackMasks_ok found isAlloc (plan.tree.blockPred body.header)
  obtain ⟨next, inserted, same⟩ := Work.insertCode_total
    (fun b => if body.isTopLevel then b.setupLength else 0) (length ▸ made.header_lt found)
    (fun b => by split; exacts [b.setupLength_le_length, zero_le _])
    (masks.entries.flatMap fun entry => plan.clearBitsCode entry.1 entry.2)
  refine ⟨next, ?_, same.trans length⟩
  exact bind_ok (Work.expect_eq_ok.mpr found) <| bind_ok (Work.expect_eq_ok.mpr isAlloc) <|
    bind_ok (Work.expect_eq_ok.mpr isMasks) inserted

theorem defineScope_total (made : plan.Made f start depths) (mem : scope ∈ plan.scopes) {s : PendingDefs × Work}
    (leave : Leave f s.1) (length : s.2.func.blocks.length = f.blocks.length) :
    ∃ next, plan.defineScope s scope = .ok next ∧ Leave f next.1 ∧
      next.2.func.blocks.length = f.blocks.length := by
  obtain ⟨body, found⟩ := made.valid.found mem
  obtain ⟨pending, added⟩ := made.addScopeDefs_ok found s.1
  obtain ⟨work, cleared, same⟩ := clearStackBits_total made found length
  refine ⟨(pending, work), bind_ok (Work.await_eq_ok.mpr added) <| bind_ok cleared rfl, ?_, same⟩
  obtain ⟨again, isAgain, folded⟩ := bind_inv added
  obtain rfl := ok_unique found (liftM_inv isAgain)
  exact foldlM_invariant (Leave f) folded leave fun pending entry next isEntry leave added =>
    addDef_leave leave (made.source_lt found (fst_mem_of_mem_zipIdx isEntry)) added

theorem placeDefs_total (leave : Leave f pending) (length : work.func.blocks.length = f.blocks.length) :
    ∃ next, placeDefs pending work = .ok next ∧ next.func.blocks.length = f.blocks.length := by
  refine foldlM_ok (fun work : Work => work.func.blocks.length = f.blocks.length) length fun work length entry mem => ?_
  obtain ⟨next, inserted, same⟩ := Work.insertCode_total terminatorStart
    (length ▸ leave.defs entry mem) (fun _ => sub_le _ _) (code entry.2)
  exact ⟨next, inserted, same.trans length⟩

theorem restoreKills_total (leave : Leave f pending) {o : Func} (length : o.blocks.length = f.blocks.length) :
    ∃ next, restoreKills pending o = .ok next := by
  obtain ⟨next, folded, _⟩ : ∃ next, restoreKills pending o = .ok next ∧ next.blocks.length = f.blocks.length := by
    refine foldlM_ok (fun s : Func => s.blocks.length = f.blocks.length) length fun s length entry mem => ?_
    obtain ⟨body, got⟩ := Func.get_total (length ▸ leave.killed entry mem)
    exact ⟨_, bind_ok got rfl, (length_modify ..).trans length⟩
  exact ⟨next, folded⟩

/-- Adding the definitions goes through. -/
theorem define_total (made : plan.Made f start depths) (length : work.func.blocks.length = f.blocks.length) :
    ∃ next, plan.define work = .ok next := by
  obtain ⟨⟨pending, defined⟩, folded, leave, length⟩ : ∃ s, plan.scopes.foldlM plan.defineScope ({}, work) = .ok s ∧
      Leave f s.1 ∧ s.2.func.blocks.length = f.blocks.length :=
    foldlM_ok (fun s : PendingDefs × Work => Leave f s.1 ∧ s.2.func.blocks.length = f.blocks.length)
      ⟨⟨nofun, nofun⟩, length⟩ fun s holds scope mem => defineScope_total made mem holds.1 holds.2
  obtain ⟨placed, placing, length⟩ := placeDefs_total leave length
  obtain ⟨killed, killing⟩ := restoreKills_total leave length
  exact ⟨_, bind_ok folded <| bind_ok placing <| bind_ok (Work.expect_eq_ok.mpr killing) rfl⟩

end Plan

namespace Func

theorem length_addBlock (f : Func) (name : String) (insts : List Inst) :
    (f.addBlock name insts).2.blocks.length = f.blocks.length + 1 := by
  simp [addBlock]

end Func

namespace Chain

variable {known : Nat} {chain : Chain} {body : Scope}

/-- The chain has at least the known blocks, its last block is one of its blocks, and edges stand at both of their
ends. -/
structure Sound (known : Nat) (chain : Chain) : Prop where
  linked : chain.work.func.Linked
  grown : known ≤ chain.work.func.blocks.length
  last : ∀ last, chain.last = some last → last.index < chain.work.func.blocks.length

theorem Sound.next_total (sound : chain.Sound known) (inside : b.index < chain.work.func.blocks.length) :
    ∃ after, chain.next b = .ok after ∧ after.Sound known ∧ after.last = some b ∧
      after.work.func.blocks.length = chain.work.func.blocks.length := by
  obtain ⟨bare, removed⟩ := Func.removeSuccs_total sound.linked inside
  have sameBare : bare.blocks.length = chain.work.func.blocks.length := (Func.removeSuccs_ok removed).1.same.blocks.symm
  obtain ⟨body, got⟩ := Func.get_total (sameBare ▸ inside)
  have unbranched : bare.removeBranches b =
      .ok (body.trailingBranches, bare.modify b withoutBranches) := bind_ok got rfl
  have sameStripped : (bare.modify b withoutBranches).blocks.length = chain.work.func.blocks.length :=
    (length_modify ..).trans sameBare
  obtain ⟨after, res⟩ : ∃ after, chain.next b = .ok after := by
    unfold next
    simp only [removed, unbranched, Work.expect_ok, ok_bind]
    cases isLast : chain.last with
    | none => exact ⟨_, rfl⟩
    | some last =>
      obtain ⟨joined, added⟩ := Func.addEdge_total (sameStripped ▸ sound.last last isLast) (sameStripped ▸ inside)
      simp only [added, Work.expect_ok, ok_bind]
      exact ⟨_, rfl⟩
  have grows := next_ok res
  have length := grows.follows.length
  refine ⟨after, res, ⟨grows.follows.linked sound.linked, length ▸ sound.grown, fun last isLast => ?_⟩,
    grows.last, length⟩
  rw [grows.last] at isLast
  exact length ▸ Option.some.inj isLast ▸ inside

/-- A new block in the function. -/
theorem Sound.added (sound : chain.Sound known) (name : String) (code : List Inst) :
    ({ chain with work := (chain.work.addBlock name code).2 } : Chain).Sound known ∧
      (chain.work.addBlock name code).1.index < (chain.work.addBlock name code).2.func.blocks.length := by
  have length : (chain.work.addBlock name code).2.func.blocks.length = chain.work.func.blocks.length + 1 :=
    Func.length_addBlock ..
  refine ⟨⟨sound.linked.addBlock name code, ?_, fun last isLast => ?_⟩, ?_⟩
  · exact length ▸ le_succ_of_le sound.grown
  · exact length ▸ lt_succ_of_lt (sound.last last isLast)
  · exact length ▸ lt_succ_self _

theorem Sound.append_total (sound : chain.Sound known) (inside : b.index < chain.work.func.blocks.length)
    (code : List Inst) : ∃ work, chain.work.appendCode b code = .ok work ∧
      ({ chain with work := work } : Chain).Sound known ∧
      work.func.blocks.length = chain.work.func.blocks.length := by
  obtain ⟨work, appended, length⟩ := chain.work.appendCode_total inside code
  have isCode := Work.appendCode_ok appended
  refine ⟨work, appended, ⟨?_, length ▸ sound.grown, fun last isLast => length ▸ sound.last last isLast⟩, length⟩
  rw [isCode]
  exact (Func.sameButCode_setCode ..).linked sound.linked

theorem nameFor_total (inside : header.index < chain.work.func.blocks.length) (suffix : String) :
    ∃ name, chain.nameFor header suffix = .ok name := by
  obtain ⟨body, got⟩ := Func.get_total inside
  exact ⟨_, bind_ok (Work.expect_eq_ok.mpr got) rfl⟩

/-- Counting changes nothing in the function. -/
theorem Sound.counted (sound : ({ chain with work := work } : Chain).Sound known) (counts : Bool) :
    ({ chain with work := if counts then work.countCounter else work } : Chain).Sound known := by
  split
  · exact ⟨sound.linked, sound.grown, sound.last⟩
  · exact sound

variable (made : plan.Made f start depths) (few : plan.regs.predCount ≤ 32)

include made

section

variable (sound : chain.Sound f.blocks.length) (found : plan.tree.get scope = .ok body)
  (isLoop : body.isTopLevel = false)

include sound found isLoop

include few in
/-- Entering a loop goes through. -/
theorem Sound.enterLoop_total : ∃ after, chain.enterLoop plan scope body = .ok after ∧ after.Sound f.blocks.length := by
  obtain ⟨pred, guards, isPred⟩ := made.headerPred_ok found
  obtain ⟨name, isName⟩ := nameFor_total (lt_of_lt_of_le (made.header_lt found) sound.grown) ".preheader"
  obtain ⟨alloc, isAlloc, _⟩ := made.alloc_ok found
  obtain ⟨save, isSave⟩ := made.saveBankCode_ok found isAlloc
  obtain ⟨outer, outerFound, _⟩ := made.valid.parent_ok found isLoop
  obtain ⟨enter, isEnter⟩ := made.enterPredCode_ok found isLoop guards
  obtain ⟨regs, isRegs⟩ := made.exitRegs_ok outerFound body.header
  obtain ⟨clear, isClear⟩ := made.clearExitsCode_ok few found isAlloc (Plan.exitRegs_own isRegs)
  obtain ⟨n, isCount⟩ := made.setCounterCode_ok found isLoop
  obtain ⟨soundAdded, inside⟩ := sound.added name save
  obtain ⟨work, appended, soundAppended, length⟩ := soundAdded.append_total inside (enter ++ clear ++ n)
  have soundCounted := soundAppended.counted body.usableBound.isSome
  have insideCounted : (chain.work.addBlock name save).1.index <
      (if body.usableBound.isSome then work.countCounter else work).func.blocks.length := by
    split
    · exact length ▸ inside
    · exact length ▸ inside
  obtain ⟨after, res, soundAfter, _⟩ := soundCounted.next_total insideCounted
  refine ⟨after, ?_, soundAfter⟩
  exact bind_ok (Work.await_eq_ok.mpr isPred) <| bind_ok isName <| bind_ok (Work.expect_eq_ok.mpr isAlloc) <|
    bind_ok (Work.expect_eq_ok.mpr isSave) <| bind_ok (Work.await_eq_ok.mpr isEnter) <|
    bind_ok (Work.expect_eq_ok.mpr isRegs) <| bind_ok (Work.expect_eq_ok.mpr isClear) <|
    bind_ok (Work.expect_eq_ok.mpr isCount) <| bind_ok appended res

/-- The branch block of a loop can be added. -/
theorem Sound.addBranch_total {alloc : ScopeAllocation} (isAlloc : plan.alloc scope = .ok alloc) :
    ∃ after, chain.addBranch plan scope body alloc = .ok after ∧ after.Sound f.blocks.length := by
  obtain ⟨same, sameAlloc, mem, _, _, recorded⟩ := made.alloc_ok found
  obtain rfl := ok_unique sameAlloc isAlloc
  obtain ⟨name, isName⟩ := nameFor_total (lt_of_lt_of_le (made.header_lt found) sound.grown) ".branch"
  obtain ⟨reload, isReload⟩ := made.reloadCode_ok mem recorded (made.valid.header_mem_blocks found) isLoop
  obtain ⟨branch, isBranch⟩ := made.branchCode_ok found isLoop
  obtain ⟨soundAdded, inside⟩ := sound.added name []
  obtain ⟨linked, linking, soundLinked, _, sameLinked⟩ := soundAdded.next_total inside
  obtain ⟨reloaded, reloading, soundReloaded, sameReloaded⟩ := soundLinked.append_total (sameLinked ▸ inside) reload
  obtain ⟨branched, branching, soundBranched, sameBranched⟩ :=
    soundReloaded.append_total (sameReloaded ▸ sameLinked ▸ inside) branch
  have header : body.header.index < branched.func.blocks.length :=
    lt_of_lt_of_le (made.header_lt found) soundBranched.grown
  obtain ⟨joined, added⟩ := Func.addEdge_total (sameBranched ▸ sameReloaded ▸ sameLinked ▸ inside) header
  have length := (Func.addEdge_sameButEdges added).blocks
  refine ⟨{ linked with work := { branched with func := joined } }, ?_, ?_, ?_, ?_⟩
  · exact bind_ok isName <| bind_ok linking <| bind_ok (Work.await_eq_ok.mpr isReload) <| bind_ok reloading <|
      bind_ok (Work.await_eq_ok.mpr isBranch) <| bind_ok branching <|
      bind_ok (bind_ok (Work.expect_eq_ok.mpr added) rfl) rfl
  · exact soundBranched.linked.addEdge added
  · exact length ▸ soundBranched.grown
  · exact fun last isLast => length ▸ soundBranched.last last isLast

end

/-- Leaving a loop goes through. -/
theorem Sound.exitLoop_total (linked : f.Linked) (sound : chain.Sound f.blocks.length)
    (found : plan.tree.get scope = .ok body) (isLoop : body.isTopLevel = false) :
    ∃ after, chain.exitLoop plan scope body = .ok after ∧ after.Sound f.blocks.length := by
  obtain ⟨alloc, isAlloc, _⟩ := made.alloc_ok found
  obtain ⟨branched, branching, soundBranched⟩ := sound.addBranch_total made found isLoop isAlloc
  unfold exitLoop
  simp only [isAlloc, Work.expect_ok, ok_bind, branching]
  split
  · next saves =>
      obtain ⟨name, isName⟩ := nameFor_total (lt_of_lt_of_le (made.header_lt found) soundBranched.grown) ".postlude"
      obtain ⟨code, isCode⟩ := made.postludeCode_ok linked found isAlloc saves soundBranched.grown
      obtain ⟨soundAdded, inside⟩ := soundBranched.added name code
      obtain ⟨after, res, soundAfter, _⟩ := soundAdded.next_total inside
      exact ⟨after, bind_ok isName <| bind_ok (Work.expect_eq_ok.mpr isCode) res, soundAfter⟩
  · exact ⟨branched, rfl, soundBranched⟩

include few in
/-- Every step of the walk over a valid tree can be made. -/
theorem Sound.extend_total (linked : f.Linked) (sound : chain.Sound f.blocks.length) {e : WalkEvent}
    (fits : ∀ b, e.met = some b → b.index < f.blocks.length)
    (enters : ∀ scope, e.entered = some scope ∨ e.left = some scope → ∃ body, plan.tree.get scope = .ok body) :
    ∃ after, chain.extend plan e = .ok after ∧ after.Sound f.blocks.length := by
  cases e with
  | block b =>
    obtain ⟨after, res, soundAfter, _⟩ := sound.next_total (lt_of_lt_of_le (fits b rfl) sound.grown)
    exact ⟨after, res, soundAfter⟩
  | enter scope =>
    obtain ⟨body, found⟩ := enters scope (.inl rfl)
    simp only [extend, found, Work.expect_ok, ok_bind]
    split
    · exact ⟨chain, rfl, sound⟩
    · next isLoop => exact sound.enterLoop_total made few found (by simpa using isLoop)
  | exit scope =>
    obtain ⟨body, found⟩ := enters scope (.inr rfl)
    simp only [extend, found, Work.expect_ok, ok_bind]
    split
    · exact ⟨chain, rfl, sound⟩
    · next isLoop => exact sound.exitLoop_total made linked found (by simpa using isLoop)

end Chain

namespace Plan

/-- Linearizing goes through. -/
theorem linearize_total (made : plan.Made f start depths) (few : plan.regs.predCount ≤ 32) (linked : f.Linked)
    (length : work.func.blocks.length = f.blocks.length) (linkedWork : work.func.Linked) :
    ∃ next, plan.linearize work = .ok next := by
  obtain ⟨es, walked, isEntered, walks⟩ := made.valid.walked
  have known : ∀ scope ∈ es.filterMap WalkEvent.entered, ∃ body, plan.tree.get scope = .ok body := by
    rw [isEntered]
    exact fun scope => made.valid.found
  obtain ⟨chain, folded, _⟩ : ∃ chain, es.foldlM (Chain.extend plan) ⟨work, none⟩ = .ok chain ∧
      chain.Sound f.blocks.length := by
    refine foldlM_ok (Chain.Sound f.blocks.length) ⟨linkedWork, length.symm ▸ le_rfl, nofun⟩
      fun chain sound e mem => sound.extend_total made few linked (fun b isMet => ?_) fun scope passes => ?_
    · have isMember := mem_filterMap.mpr ⟨e, mem, isMet⟩
      obtain ⟨id, body, found, inside⟩ := (made.valid.mem_met isEntered walks).mp isMember
      exact made.member_lt found inside
    · rcases passes with enters | leaves
      · exact known scope (mem_filterMap.mpr ⟨e, mem, enters⟩)
      · exact known scope (walks.left_perm.mem_iff.mp (mem_filterMap.mpr ⟨e, mem, leaves⟩))
  exact ⟨chain.work, bind_ok (Work.expect_eq_ok.mpr walked) <| bind_ok folded rfl⟩

/-- Straightening goes through or stops at a guarded call. -/
theorem straighten_cases (made : plan.Made f start depths) (few : plan.regs.predCount ≤ 32) (linked : f.Linked) :
    (∃ next, plan.straighten { func := start } = .ok next) ∨
      ∃ stopped, plan.straighten { func := start } = .error stopped ∧ OnGuardedCall f stopped := by
  obtain ⟨predicated, predicating, ready⟩ | ⟨stopped, stops, onCall⟩ := predicate_cases made made.ready
  · obtain ⟨defined, defining⟩ := define_total made ready.length
    have same : start.SameButCode defined.func :=
      (predicate_rewritten made.members_once predicating).same.trans
        (define_ok made.headers_once defining).choose_spec.2.1
    have sameStart : start.blocks.length = f.blocks.length := by rw [made.laid.start]
    have linkedStart : start.Linked := by
      rw [made.laid.start]
      exact ⟨linked.ends, linked.succsOnce, linked.predsOnce⟩
    obtain ⟨next, linearizing⟩ := linearize_total made few linked (same.length.trans sameStart)
      (same.linked linkedStart)
    exact .inl ⟨next, bind_ok predicating <| bind_ok defining linearizing⟩
  · refine .inr ⟨stopped, ?_, onCall⟩
    unfold straighten
    rw [stops, error_bind]

end Plan

end SinglePath
