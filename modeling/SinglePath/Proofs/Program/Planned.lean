import SinglePath.Proofs.Plan.Made
import SinglePath.Proofs.Program.Built
import SinglePath.Proofs.Program.Nested

namespace SinglePath

open Bool Cond FrameLayout Func Inst List Nat Numbers Option PReg Plan Scope

variable {tree : ScopeTree} {f : Func} {regs : TargetRegs} {inst : Inst}

/-- The instruction names no predicate register other than the constant and the condition register. -/
def Inst.NamesCond (inst : Inst) : Prop := ∀ r : PReg, inst.mentionsPred r = true → r = PReg.zero ∨ r = condReg

theorem Inst.namesCond_iff : inst.NamesCond ↔
    (inst.guard.isAlways = false → inst.guard.reg = PReg.zero ∨ inst.guard.reg = condReg) ∧
      (∀ cond ∈ inst.op.condReads, cond.reg = PReg.zero ∨ cond.reg = condReg) ∧
      ∀ r ∈ inst.op.predWrite.toList, r = PReg.zero ∨ r = condReg := by
  simp only [NamesCond, mentionsPred, readsPred, writesPred, or_eq_true, and_eq_true, not_eq_true',
    beq_iff_eq, List.any_eq_true, mem_toList]
  constructor
  · intro names
    exact ⟨fun guarded => names _ (.inl (.inl ⟨guarded, rfl⟩)),
      fun cond reads => names _ (.inl (.inr ⟨cond, reads, rfl⟩)),
      fun r writes => names r (.inr writes)⟩
  · rintro ⟨guard, reads, writes⟩ r ((⟨guarded, rfl⟩ | ⟨cond, isRead, rfl⟩) | isWritten)
    · exact guard guarded
    · exact reads cond isRead
    · exact writes r isWritten

instance (inst : Inst) : Decidable inst.NamesCond := decidable_of_iff' _ Inst.namesCond_iff

theorem Inst.NamesCond.of_silent (unguarded : inst.guard = .always) (readsNone : inst.op.condReads = [])
    (writesNone : inst.op.predWrite = none) : inst.NamesCond := by
  intro r names
  simp [mentionsPred, readsPred, writesPred, unguarded, readsNone, writesNone, isAlways, always] at names

namespace Program

variable {p : Program} {ss : List Stmt} {res : GReg} {outline : Outline} {b : BlockId}

section

variable {id : ScopeId} (built : p.Built ss res outline) {body : Scope}

include built

/-- The root is composed like the loops. -/
theorem Built.composed (got : p.tree.get id = .ok body) : ∃ headerPred numbers limit inside own back,
      Composed p.text id body headerPred numbers limit inside own back := by
  have isScope := present_eq_ok.mp got
  by_cases isRoot : id = ScopeTree.root
  · subst isRoot
    obtain rfl := mem_unique built.root isScope
    refine ⟨⟨0⟩, ⟨1, 1, 1⟩, outline.numbers, outline.nodes, outline.defs, [], rfl, by simp, built.guard, Nat.one_pos,
      Nat.one_pos, built.spelt.arranged Nat.one_pos Nat.one_pos, built.spelt.child, zero_le _, by simp⟩
  · have inside : id.index < outline.numbers.scopes := by
      rw [← built.scopes]
      exact lt_length isScope
    have positive : 1 ≤ id.index := by
      refine one_le_iff_ne_zero.mpr fun isZero => isRoot ?_
      exact congrArg ScopeId.mk isZero
    obtain ⟨o, headerPred, numbers, limit, inside, own, back, isOther, composed⟩ :=
      built.spelt.composed Nat.one_pos positive inside
    obtain rfl := mem_unique isOther isScope
    exact ⟨headerPred, numbers, limit, inside, own, back, composed⟩

theorem Built.graded (got : p.tree.get id = .ok body) :
    ∃ headerPred, Graded p.tree body headerPred (body.nodes.map p.text.site) := by
  obtain ⟨headerPred, _, _, _, _, _, composed⟩ := built.composed got
  exact ⟨headerPred, composed.graded rfl rfl⟩

/-- The walk enters the scopes and meets the blocks in the order of their numbers. -/
theorem Built.walked : ∃ es, p.tree.walk = .ok es ∧ Passes es ⟨0, 0, 0⟩ outline.numbers := by
  have someScopes : 1 ≤ outline.numbers.scopes := built.spelt.grow.scopes
  obtain ⟨room, isRoom⟩ : ∃ room, outline.numbers.scopes = room + 1 := exists_eq_add_one.mpr someScopes
  obtain ⟨es, walkedNodes, passes⟩ : ∃ es, ScopeTree.walkNodes (p.tree.walkScope room) outline.nodes =
      .ok es ∧ Passes es ⟨1, 1, 1⟩ outline.numbers :=
    built.spelt.walked rfl (by simp only; omega)
  have got : p.tree.get ScopeTree.root = .ok _ := present_eq_ok.mpr built.root
  refine ⟨.enter ScopeTree.root :: (.block ⟨0⟩ :: es) ++ [.exit ScopeTree.root], ?_, ?_⟩
  · have isSome : p.tree.scopes.isEmpty = false := by
      rw [isEmpty_eq_false_iff, ← length_pos_iff, built.scopes]
      exact someScopes
    unfold ScopeTree.walk
    rw [isSome, built.scopes, isRoom]
    rw [ScopeTree.walkScope, got, ok_bind, walkNodes_block walkedNodes, ok_bind]
    rfl
  · have inside : Passes es (add (add ⟨0, 0, 0⟩ 0 0 1) 1 1 0) outline.numbers := passes
    exact Passes.loop rfl inside.block

theorem Built.mem_met {es : List WalkEvent} (passes : Passes es ⟨0, 0, 0⟩ outline.numbers) :
    b ∈ es.filterMap WalkEvent.met ↔ b.index < outline.numbers.blocks := by
  rw [passes.met, Ico.zero_bot, ← built.layout]
  exact mem_layout_iff built.layout

/-- The tree of a built program fits its function. -/
theorem Built.fits : ∃ es, p.tree.Fits p.func es ∧ Passes es ⟨0, 0, 0⟩ outline.numbers := by
  obtain ⟨es, walked, passes⟩ := built.walked
  have walks : ScopeTree.Walks p.tree [.subscope ScopeTree.root] es := by
    exact ScopeTree.walk_walks (present_eq_ok.mpr built.root) walked
  refine ⟨es, ⟨walked, ?_, ?_, ?_, ⟨_, present_eq_ok.mpr built.root, rfl, built.entry.symm⟩, ?_, ?_, ?_,
    ?_, ?_, ?_, ?_⟩,
    passes⟩
  · rw [passes.entered]
    exact (Ico.nodup _ _).map fun _ _ same => ScopeId.mk.inj same
  · rw [passes.met]
    exact (Ico.nodup _ _).map fun _ _ same => BlockId.mk.inj same
  · intro id body got
    rw [passes.entered, List.mem_map]
    refine ⟨id.index, Ico.mem.mpr ⟨zero_le _, ?_⟩, rfl⟩
    rw [← built.scopes]
    exact (lt_length (present_eq_ok.mp got))
  · intro id body got
    obtain ⟨_, _, _, _, _, _, composed⟩ := built.composed got
    rw [composed.nodes_eq]
    rfl
  · intro id child body got mem
    obtain ⟨_, _, _, _, _, _, composed⟩ := built.composed got
    have isNode := mem_subscopes.mp mem
    rw [composed.nodes_eq] at isNode
    obtain ⟨inner, isInner, known⟩ := composed.children ((mem_cons.mp isNode).resolve_left (by simp))
    exact ⟨inner, present_eq_ok.mpr isInner, known⟩
  · intro b mem
    obtain ⟨body, isBlock⟩ := built.found ((built.mem_met passes).mp mem)
    refine ⟨⟨body, isBlock, (built.contents body (mem_of_getElem? isBlock)).1⟩, ?_⟩
    rw [walks.met_perm.mem_iff] at mem
    obtain ⟨⟨id, s, member⟩, isMember, rfl⟩ := mem_map.mp ((mem_append.mp mem).resolve_left (by
      simp [ScopeTree.blocksAmong]))
    obtain ⟨_, got, inside⟩ := ScopeTree.mem_membersOf.mp isMember
    obtain ⟨_, graded⟩ := built.graded got
    obtain ⟨pred, isPred, _⟩ := graded.guarded _ (mem_map_of_mem (mem_blocks.mp inside))
    exact ⟨pred, isPred⟩
  · intro b mem
    exact (built.mem_met passes).mpr ((mem_layout_iff built.layout).mp mem)
  · intro id body defn got mem
    obtain ⟨_, graded⟩ := built.graded got
    obtain ⟨site, isSite, isSource, _⟩ := graded.leaves defn mem
    obtain ⟨node, isNode, rfl⟩ := mem_map.mp isSite
    cases node with
    | block b => exact .inl (isSource ▸ mem_blocks.mpr isNode)
    | subscope loop =>
      obtain ⟨_, _, _, _, _, _, composed⟩ := built.composed got
      rw [composed.nodes_eq] at isNode
      have inNodes := (mem_cons.mp isNode).resolve_left (by simp)
      obtain ⟨inner, isInner, _⟩ := composed.children inNodes
      refine .inr ⟨loop, mem_subscopes.mpr (composed.nodes_eq ▸ isNode), inner, present_eq_ok.mpr isInner, ?_⟩
      rw [← isSource, Text.site_subscope isInner]
  · intro id body defn got mem
    obtain ⟨_, graded⟩ := built.graded got
    obtain ⟨site, isSite, isSource, isGuard, _⟩ := graded.leaves defn mem
    obtain ⟨node, _, rfl⟩ := mem_map.mp isSite
    have isPred : (p.text.site node).pred = p.tree.blockPred (p.text.site node).block := by
      cases node <;> rfl
    rw [← isSource, ← isPred, isGuard]
  · intro id body defn got mem _
    obtain ⟨headerPred, _, _, _, _, _, composed⟩ := built.composed got
    rw [built.entry, built.guard]
    intro same
    have isZero : defn.pred.index = 0 := (congrArg PredId.index (some.inj same)).symm
    rcases mem_append.mp (composed.defs_eq ▸ mem) with isOwn | isBack
    · have := (composed.arranged.defined defn isOwn).1
      have := composed.predOld
      omega
    · obtain ⟨isHeader, positive, _⟩ := composed.backDefs defn isBack
      rw [isHeader] at isZero
      omega

end

section

variable (built : p.Built ss res outline)

include built

theorem Built.codeOf_missing (outside : outline.numbers.blocks ≤ b.index) : p.func.codeOf b = [] := by
  have isNone : p.func.block? b = none := getElem?_eq_none (built.size ▸ outside)
  simp [codeOf, isNone]

theorem Built.forall_code {Good : Inst → Prop} (setup : ∀ inst ∈ prologue Builder.frameWords, Good inst)
    (closing : ∀ inst ∈ epilogue Builder.frameWords res, Good inst) (tests : ∀ test : Test, Good test.inst)
    (branches : ∀ t : BlockId, Good (.plain (.branch t)) ∧ Good (.branchIf (.fails condReg) t))
    (own : ∀ inst ∈ Stmt.instsAll ss, Good inst) (b : BlockId) : ∀ inst ∈ p.func.codeOf b, Good inst := by
  by_cases inside : b.index < outline.numbers.blocks
  · exact built.spelt.forall_code built.entryCode setup closing (fun test _ => tests test) (fun t _ => branches t)
      own inside
  · simp [built.codeOf_missing (Nat.le_of_not_lt inside)]

variable (named : ∀ inst ∈ Stmt.instsAll ss, inst.NamesCond)

include named

/-- The instructions of a built program name no other predicate registers if those of its statements do not. -/
theorem Built.namesCond (b : BlockId) : ∀ inst ∈ p.func.codeOf b, inst.NamesCond := by
  refine built.forall_code ?_ ?_ ?_ ?_ named b
  · simp only [prologue, forall_mem_cons]
    exact ⟨.of_silent rfl rfl rfl, .of_silent rfl rfl rfl, .of_silent rfl rfl rfl, by simp⟩
  · simp only [epilogue, forall_mem_cons]
    exact ⟨.of_silent rfl rfl rfl, .of_silent rfl rfl rfl, .of_silent rfl rfl rfl, .of_silent rfl rfl rfl, by simp⟩
  · intro test r names
    have isCond : condReg = r := by
      simpa [Inst.mentionsPred, readsPred, writesPred, Test.inst, plain, Op.condReads, Op.predWrite,
        always, isAlways] using names
    exact .inr isCond.symm
  · intro t
    refine ⟨.of_silent rfl rfl rfl, fun r names => ?_⟩
    have isCond : condReg = r := by
      simpa [Inst.mentionsPred, readsPred, writesPred, branchIf, plain, withGuard, Op.condReads,
        Op.predWrite, fails, isAlways] using names
    exact .inr isCond.symm

theorem Built.mentionsPred_iff {r : PReg} (notZero : r ≠ PReg.zero) : p.func.mentionsPred r = true ↔ r = condReg := by
  unfold Func.mentionsPred
  rw [List.any_eq_true]
  constructor
  · rintro ⟨body, mem, mentions⟩
    obtain ⟨index, isBlock⟩ := mem_iff_getElem?.mp mem
    have isCode : p.func.codeOf ⟨index⟩ = body.insts := by simp [codeOf, block?, isBlock]
    obtain ⟨_, isLive⟩ := built.contents body mem
    rw [and_eq_true, or_eq_true, isLive, List.any_eq_true] at mentions
    rcases mentions.2 with live | ⟨inst, isInst, names⟩
    · simpa using live
    · exact (built.namesCond named ⟨index⟩ inst (isCode ▸ isInst) r names).resolve_left notZero
  · rintro rfl
    have someBlocks : 0 < p.func.blocks.length := by
      rw [built.size]
      exact built.spelt.grow.blocks
    obtain ⟨notErased, isLive⟩ := built.contents _ (getElem_mem someBlocks)
    exact ⟨_, getElem_mem someBlocks, by simp [notErased, isLive]⟩

theorem Built.free_eq (several : 2 ≤ regs.predCount) : (candidates regs).filter (fun r => !p.func.mentionsPred r) =
      (range' 2 (regs.predCount - 2)).map PReg.mk := by
  obtain ⟨more, isMore⟩ : ∃ more, regs.predCount - 1 = more + 1 := exists_eq_add_one.mpr (by omega)
  have isCond : p.func.mentionsPred ⟨1⟩ = true := (built.mentionsPred_iff named (by decide)).mpr rfl
  have others : ((range' 2 more).map PReg.mk).filter (fun r => !p.func.mentionsPred r) =
      (range' 2 more).map PReg.mk := by
    refine filter_eq_self.mpr fun r mem => ?_
    obtain ⟨index, inside, rfl⟩ := mem_map.mp mem
    have notLess := (mem_range'_1.mp inside).1
    rw [not_eq_true', ← not_eq_true]
    intro mentions
    have isOne := (built.mentionsPred_iff named (by simp [PReg.zero]; omega)).mp mentions
    simp only [condReg, PReg.mk.injEq] at isOne
    omega
  rw [candidates, isMore, range'_succ, map_cons, filter_cons, isCond]
  simp only [Bool.not_true, false_eq_true, if_false]
  rw [others, show more = regs.predCount - 2 by omega]

end

/-- The tree of a built program is accepted if its scopes can be numbered. -/
theorem Built.accepts (built : p.Built ss res outline) (few : p.tree.scopes.length < 0x100000000) :
    ∃ facts, p.tree.validate p.func = .ok facts := by
  obtain ⟨es, fits, passes⟩ := built.fits
  refine fits.validate_ok fun {id s} got => ?_
  have bounded : s.depth < 0 + (es.filterMap WalkEvent.entered).length := by
    refine fits.depth_lt fits.walks (fun loop body isNode isBody => ?_) (fits.covered got) got
    obtain rfl : loop = ScopeTree.root := by simpa using isNode
    obtain rfl := ok_unique isBody (present_eq_ok.mpr built.root)
    rfl
  rw [passes.entered, length_map, Ico.length, ← built.scopes] at bounded
  omega

/-- With four predicate registers or more, a plan is made for every built program whose scopes and cells can be
numbered. -/
theorem Built.planned (built : p.Built ss res outline) (few : p.tree.scopes.length < 0x100000000)
    (named : ∀ inst ∈ Stmt.instsAll ss, inst.NamesCond) (several : 4 ≤ regs.predCount) :
    (∃ plan start, make p.tree regs p.func = .ok (plan, start)) ∨ make p.tree regs p.func = .error (.fault .overflow) ∧
      ∃ registers allocs n, p.tree.allocate registers = .ok allocs ∧ size p.func p.tree allocs = .ok n ∧
        0x100000000 ≤ p.func.cells + n := by
  obtain ⟨facts, validated⟩ := built.accepts few
  obtain ⟨entered, valid⟩ := ScopeTree.validate_valid validated
  have free := built.free_eq named (show 2 ≤ regs.predCount by omega)
  have isSome : (range' 2 (regs.predCount - 2)).map PReg.mk ≠ [] := by
    simp
    omega
  have isLast : ((candidates regs).filter fun r => !p.func.mentionsPred r).getLast? =
      some (((range' 2 (regs.predCount - 2)).map PReg.mk).getLast isSome) := by
    rw [free, getLast?_eq_some_getLast isSome]
  obtain ⟨allocs, allocated⟩ : ∃ allocs, p.tree.allocate
      ((candidates regs).filter fun r => !p.func.mentionsPred r).dropLast.length = .ok allocs := by
    have each (id : ScopeId) (body : Scope) (got : p.tree.get id = .ok body) :
        ∃ es, ScopeEvents.ofScope p.tree id = .ok es ∧ es.Undisturbed := by
      obtain ⟨headerPred, graded⟩ := built.graded got
      obtain ⟨s, comp⟩ := graded.ofScope_ok got
      obtain ⟨again, placed, coll⟩ := ScopeEvents.ofScope_collected comp
      obtain rfl := ok_unique got coll.found
      have sameSites : s.sites = body.nodes.map p.text.site := ok_unique coll.sited graded.sited
      rw [← sameSites] at graded
      exact ⟨s, comp, graded.undisturbed coll⟩
    refine (ScopeTree.allocate_cases valid ?_ fun id body got => ?_).resolve_right ?_
    · rw [free]
      simp
      omega
    · obtain ⟨es, comp, _⟩ := each id body got
      exact ⟨es, comp⟩
    · rintro ⟨_, id, es, comp, disturbed, _⟩
      obtain ⟨body, placed, coll⟩ := ScopeEvents.ofScope_collected comp
      obtain ⟨same, isSame, undisturbed⟩ := each id body coll.found
      exact disturbed (ok_unique comp isSame ▸ undisturbed)
  refine (make_cases validated isLast allocated).imp_right ?_
  rintro ⟨failed, n, sized⟩
  exact ⟨failed, _, allocs, n, allocated, sized⟩

end Program

end SinglePath
