import SinglePath.Program.Validity
import SinglePath.Proofs.Program.Reducible

namespace SinglePath

open Bool Builder Func Inst List Op Option Stmt

variable {regs : TargetRegs} {f : Func} {guard : PReg} {c : Block} {position : Nat} {p : Program}
  {ss : List Stmt} {result : GReg} {outline : Outline} {b : BlockId} {inst : Inst} {code : List Inst}

/-- The instruction names no register that is set aside: no predicate register from the call guard on, and not the
register through which predicate words go. The constant is not written. -/
structure Inst.KeepsOff (inst : Inst) (regs : TargetRegs) : Prop where
  below : ∀ r, inst.mentionsPred r = true → r.index + 1 < regs.predCount
  reads : inst.readsReg regs.guards = false
  writes : inst.writesReg regs.guards = false
  constant : inst.writesPred PReg.zero = false

theorem Inst.keepsOff_iff : inst.KeepsOff regs ↔
    (inst.guard.isAlways = false → inst.guard.reg.index + 1 < regs.predCount) ∧
      (∀ cond ∈ inst.op.condReads, cond.reg.index + 1 < regs.predCount) ∧
      (∀ r ∈ inst.op.predWrite.toList, r.index + 1 < regs.predCount) ∧
      inst.readsReg regs.guards = false ∧ inst.writesReg regs.guards = false ∧ inst.writesPred PReg.zero = false := by
  constructor
  · intro keepsOff
    refine ⟨fun guarded => keepsOff.below _ ?_, fun cond reads => keepsOff.below _ ?_,
      fun r writes => keepsOff.below _ ?_,
      keepsOff.reads, keepsOff.writes, keepsOff.constant⟩
    · simp [mentionsPred, readsPred, guarded]
    · simp only [mentionsPred, readsPred, or_eq_true, List.any_eq_true, beq_iff_eq]
      exact .inl (.inr ⟨cond, reads, rfl⟩)
    · simp [mentionsPred, writesPred, mem_toList.mp writes]
  · rintro ⟨guard, reads, writes, readsNot, writesNot, const⟩
    refine ⟨fun r names => ?_, readsNot, writesNot, const⟩
    simp only [mentionsPred, readsPred, writesPred, or_eq_true, and_eq_true, not_eq_true',
      beq_iff_eq, List.any_eq_true] at names
    rcases names with (⟨guarded, rfl⟩ | ⟨cond, isRead, rfl⟩) | isWritten
    · exact guard guarded
    · exact reads cond isRead
    · exact writes r (mem_toList.mpr isWritten)

theorem Inst.KeepsOff.of_silent (unguarded : inst.guard = .always)
    (readsNone : inst.op.condReads = []) (writesNone : inst.op.predWrite = none)
    (reads : regs.guards ∉ inst.op.regReads)
    (writes : inst.op.regWrite ≠ some regs.guards) : inst.KeepsOff regs := by
  refine keepsOff_iff.mpr ⟨?_, ?_, ?_, ?_, ?_, ?_⟩
  · simp [unguarded, Cond.isAlways, Cond.always]
  · simp [readsNone]
  · simp [writesNone]
  · simpa [readsReg] using reads
  · simpa [writesReg] using writes
  · simp [writesPred, writesNone]

section

variable (baseApart : regs.guards ≠ returnBaseSave) (offsetApart : regs.guards ≠ returnOffsetSave)
include baseApart offsetApart

theorem prologue_keepsOff (words : Nat) : ∀ inst ∈ prologue words, inst.KeepsOff regs := by
  simp only [prologue, forall_mem_cons]
  refine ⟨.of_silent rfl rfl rfl not_mem_nil (by simp [setup, regWrite]), .of_silent rfl rfl rfl not_mem_nil ?_,
    .of_silent rfl rfl rfl not_mem_nil ?_, by simp⟩
  · simpa [setup, regWrite] using baseApart.symm
  · simpa [setup, regWrite] using offsetApart.symm

theorem epilogue_keepsOff (words : Nat) (apart : result ≠ regs.guards) :
    ∀ inst ∈ epilogue words result, inst.KeepsOff regs := by
  simp only [epilogue, forall_mem_cons]
  have unwritten {op : Op} (none : op.regWrite = none) : op.regWrite ≠ some regs.guards := by simp [none]
  refine ⟨.of_silent rfl rfl rfl ?_ (unwritten rfl), .of_silent rfl rfl rfl ?_ (unwritten rfl),
    .of_silent rfl rfl rfl not_mem_nil (unwritten rfl), .of_silent rfl rfl rfl ?_ (unwritten rfl), by simp⟩
  · simpa [setup, regReads] using baseApart
  · simpa [setup, regReads] using offsetApart
  · simpa [plain, regReads] using apart.symm

end

/-- A test keeps off if its registers do: the condition register is below the call guard. -/
theorem Test.keepsOff (several : 3 ≤ regs.predCount) {test : Test} (left : test.lhs ≠ regs.guards)
    (right : test.rhs ≠ regs.guards) : test.inst.KeepsOff regs := by
  refine keepsOff_iff.mpr ⟨nofun, nofun, fun r isWritten => ?_, ?_, rfl, rfl⟩
  · rw [← some.inj (mem_toList.mp isWritten)]
    exact several
  · simp [inst, plain, readsReg, regReads, left.symm, right.symm]

theorem Inst.branchIf_keepsOff (several : 3 ≤ regs.predCount) (t : BlockId) :
    (branchIf (.fails condReg) t).KeepsOff regs :=
  keepsOff_iff.mpr ⟨fun _ => several, nofun, nofun, rfl, rfl, rfl⟩

instance (inst : Inst) (regs : TargetRegs) : Decidable (inst.KeepsOff regs) := decidable_of_iff' _ Inst.keepsOff_iff

namespace Program

theorem le_of_mem_missingPreds {r : PReg} (listed : r ∈ missingPreds regs) : regs.predCount ≤ r.index := by
  obtain ⟨index, inside, rfl⟩ := mem_map.mp listed
  exact (mem_range'_1.mp inside).1

/-- The instruction may stand in the function. -/
structure Allows (f : Func) (regs : TargetRegs) (inst : Inst) : Prop where
  target : ∀ t, inst.branchTarget = some t → isKnownTarget f t = true
  keepsOff : inst.KeepsOff regs

theorem checkInst_total (isGuard : regs.predCount = guard.index + 1) (allows : Allows f regs inst)
    (late : inst.isTerminator = true → c.terminatorStart ≤ position) :
    checkInst f regs guard c inst position = .ok () := by
  obtain ⟨known, below, reads, writes, const⟩ := allows
  have early : (c.terminatorStart ≤ position || !inst.isTerminator) = true := by
    cases isLast : inst.isTerminator with
    | false => simp
    | true => simp [late isLast]
  have unguarded : inst.mentionsPred guard = false := by
    refine eq_false_iff.mpr fun names => ?_
    have := below guard names
    omega
  have got : (missingPreds regs).find? inst.mentionsPred = none := by
    refine find?_eq_none.mpr fun r listed names => ?_
    have := le_of_mem_missingPreds listed
    have := below r names
    omega
  unfold checkInst
  cases isTarget : inst.branchTarget with
  | none => simp [demand, early, unguarded, got, reads, writes, const]
  | some t => simp [demand, early, known t isTarget, unguarded, got, reads, writes, const]

theorem checkInsts_total {insts : List Inst} (isGuard : regs.predCount = guard.index + 1)
    (allows : ∀ inst ∈ insts, Allows f regs inst)
    (late : ∀ index inst, insts[index]? = some inst → inst.isTerminator = true → c.terminatorStart ≤ position + index) :
    checkInsts f regs guard c position insts = .ok () := by
  induction insts generalizing position with
  | nil => rfl
  | cons inst rest ih =>
    have first : checkInst f regs guard c inst position = .ok () :=
      checkInst_total isGuard (allows inst (.head _)) (late 0 inst rfl)
    have later : checkInsts f regs guard c (position + 1) rest = .ok () := by
      refine ih (forall_mem_cons.mp allows).2 ?_
      intro index o got isLast
      have := late (index + 1) o got isLast
      omega
    simp only [checkInsts, first, ok_bind, later]

end Program

/-- Straight-line code and one or more terminators behind it. -/
def Terminated (code : List Inst) : Prop :=
  ∃ body ending, code = body ++ ending ∧ ending ≠ [] ∧ (∀ inst ∈ body, inst.isTerminator = false) ∧
    ∀ inst ∈ ending, inst.isTerminator = true

theorem Terminated.prepend {before : List Inst} (terminated : Terminated code)
    (plain : ∀ inst ∈ before, inst.isTerminator = false) : Terminated (before ++ code) := by
  obtain ⟨body, ending, rfl, ends, plainBody, terminators⟩ := terminated
  exact ⟨before ++ body, ending, (append_assoc ..).symm, ends,
    forall_mem_append.mpr ⟨plain, plainBody⟩, terminators⟩

theorem Segment.terminated {Tested : Test → Prop} {limit : Nat} {Last : List Inst → Prop}
    (segment : Segment (fun inst => inst.isTerminator = false) Tested limit Last code)
    (atEnd : ∀ code, Last code → Terminated code) : Terminated code := by
  induction segment with
  | last isLast => exact atEnd _ isLast
  | jump _ =>
    refine ⟨[], [_], rfl, cons_ne_nil _ _, nofun, ?_⟩
    simp [isTerminator, isBranch, branchTarget, plain]
  | fork _ _ _ =>
    refine ⟨[_], forkCode _ _, rfl, cons_ne_nil _ _, ?_, ?_⟩
    · simp [Test.inst, isTerminator, isBranch, branchTarget, isReturn, plain]
    · simp [forkCode, isTerminator, isBranch, branchTarget, plain, branchIf, withGuard]
  | cons plain _ ih => exact (ih.prepend (forall_mem_singleton.mpr plain) :)

theorem Block.terminatorStart_eq {body ending : List Inst} (isCode : c.insts = body ++ ending)
    (plain : ∀ inst ∈ body, inst.isTerminator = false) (terminators : ∀ inst ∈ ending, inst.isTerminator = true) :
    c.terminatorStart = body.length := by
  have trailing : (c.insts.reverse.takeWhile isTerminator).length = ending.length := by
    rw [isCode, reverse_append, takeWhile_append_of_pos (by simpa using terminators)]
    have none : body.reverse.takeWhile isTerminator = [] := by
      cases isBody : body.reverse with
      | nil => rfl
      | cons first rest =>
        have isPlain := plain first (mem_reverse.mp (isBody ▸ .head _))
        simp [takeWhile, isPlain]
    simp [none]
  unfold terminatorStart
  rw [trailing, isCode, length_append, Nat.add_sub_cancel]

/-- A block passes if its code is straight-line code with terminators at the end, and each instruction is allowed. -/
theorem Program.checkBlock_total
    (isGuard : regs.predCount = guard.index + 1) (got : f.block? b = some c) (alive : c.erased = false)
    (terminated : Terminated c.insts) (allows : ∀ inst ∈ c.insts, Allows f regs inst) :
    checkBlock f regs guard b = .ok () := by
  obtain ⟨body, ending, isCode, ends, plain, terminators⟩ := terminated
  have starts := Block.terminatorStart_eq isCode plain terminators
  have someInsts : c.insts ≠ [] := by
    rw [isCode]
    exact append_ne_nil_of_right_ne_nil _ ends
  have someEnding : c.terminatorStart ≠ c.insts.length := by
    have := length_pos_iff.mpr ends
    rw [starts, isCode, length_append]
    omega
  have checked : checkInsts f regs guard c 0 c.insts = .ok () := by
    refine checkInsts_total isGuard allows fun index inst isInst isLast => ?_
    by_contra isEarly
    rw [isCode, getElem?_append_left (by omega)] at isInst
    simp [plain inst (mem_of_getElem? isInst)] at isLast
  have isFound : (liftM (f.get b) : Validity Block) = .ok c := by simp [Func.get, got]
  unfold checkBlock
  simp [isFound, demand, someInsts, alive, someEnding, checked]

/-- The last block that is made is the one where the statements end. -/
theorem Spells.final_newest {text : Text} {s : ScopeId} {depth : Nat} {first last : Numbers} {start final : Place}
    {nodes : List ScopeNode} {defs : List PredDef} (spelt : Spells text s depth first start ss nodes defs final last)
    (newest : start.block.index + 1 = first.blocks) : final.block.index + 1 = last.blocks := by
  induction spelt with
  | nil => exact newest
  | simple _ later => exact later newest
  | ifThenElse _ _ _ _ _ _ _ _ later => exact later rfl
  | whileDo _ _ _ _ _ _ _ _ later => exact later rfl
  | repeatUntil _ _ _ _ _ later => exact later rfl

namespace ScopeTree

variable (tree : ScopeTree) (c : Scope) (pred : PredId) (position : Nat)

/-- The node at the position reads the predicate: as its own guard, or as the guard of a definition that leaves it. -/
def ReadAt : Prop :=
  ∃ node b, c.nodes[position]? = some node ∧ tree.nodeBlock node = .ok b ∧
    (tree.blockPred b = some pred ∨ ∃ defn ∈ c.defs, defn.source = b ∧ defn.guard = pred)

/-- A definition of the predicate leaves the node at the position. -/
def DefinedAt : Prop :=
  ∃ node b, c.nodes[position]? = some node ∧ tree.nodeBlock node = .ok b ∧
    ∃ defn ∈ c.defs, defn.source = b ∧ defn.pred = pred

end ScopeTree

section

open ScopeEvents (siteOf)

variable {tree : ScopeTree} {c : Scope} {headerPred pred : PredId} {sites : List NodeSite}

variable (graded : Graded tree c headerPred sites)

include graded

theorem Graded.site_iff {site : NodeSite} : sites[position]? = some site ↔
      ∃ b, c.nodes[position]? = some site.node ∧ tree.nodeBlock site.node = .ok b ∧
        site = ⟨site.node, b, tree.blockPred b⟩ := by
  constructor
  · intro got
    obtain ⟨node, isNode, comp⟩ := mapM_getElem? graded.sited got
    obtain ⟨b, isBlock, made⟩ := bind_inv comp
    cases made
    exact ⟨b, isNode, isBlock, rfl⟩
  · rintro ⟨b, isNode, isBlock, isSite⟩
    have inside : position < sites.length := by
      rw [mapM_length graded.sited]
      exact lt_length isNode
    obtain ⟨node, isOther, comp⟩ := mapM_getElem? graded.sited (getElem?_eq_getElem inside)
    obtain rfl := mem_unique isOther isNode
    have made : siteOf tree site.node = .ok site := by
      rw [isSite]
      simp only [siteOf, isBlock, ok_bind]
      rfl
    rw [getElem?_eq_getElem inside, ok_unique comp made]

theorem Graded.site_of_read (reads : tree.ReadAt c pred position) :
    ∃ site, sites[position]? = some site ∧ site.pred = some pred := by
  obtain ⟨node, b, isNode, isBlock, guards⟩ := reads
  have got : sites[position]? = some ⟨node, b, tree.blockPred b⟩ := graded.site_iff.mpr ⟨b, isNode, isBlock, rfl⟩
  refine ⟨_, got, ?_⟩
  rcases guards with own | ⟨defn, listed, rfl, rfl⟩
  · exact own
  · obtain ⟨site, isSite, sameBlock, isGuard, _⟩ := graded.leaves defn listed
    obtain ⟨o, isOther⟩ := getElem?_of_mem isSite
    obtain rfl := graded.position_eq isOther got sameBlock
    obtain rfl := mem_unique isOther got
    exact isGuard

/-- A definition leaves a node of the scope. -/
theorem Graded.definedAt {defn : PredDef} (listed : defn ∈ c.defs) :
    ∃ position, tree.DefinedAt c defn.pred position := by
  obtain ⟨site, isSite, sameBlock, _⟩ := graded.leaves defn listed
  obtain ⟨position, got⟩ := getElem?_of_mem isSite
  obtain ⟨b, isNode, isBlock, same⟩ := graded.site_iff.mp got
  rw [same] at sameBlock
  exact ⟨position, site.node, b, isNode, isBlock, defn, listed, sameBlock.symm, rfl⟩

theorem Graded.defined_before_read (notHeader : pred ≠ headerPred) {reader : Nat} (reads : tree.ReadAt c pred reader) :
    (∃ position, tree.DefinedAt c pred position) ∧ ∀ position, tree.DefinedAt c pred position →
      position < reader := by
  obtain ⟨site, got, guards⟩ := graded.site_of_read reads
  obtain ⟨guard, isGuard, isHeader | ⟨defn, listed, rfl, earlier⟩⟩ := graded.guarded site (mem_of_getElem? got)
  · exact absurd (mem_unique guards isGuard ▸ isHeader) notHeader
  obtain rfl := mem_unique guards isGuard
  refine ⟨graded.definedAt listed, ?_⟩
  rintro position ⟨node, b, isNode, isBlock, o, otherListed, rfl, samePred⟩
  obtain rfl := inj_on_of_nodup_map graded.once otherListed listed samePred
  have leaves : sites[position]? = some ⟨node, o.source, tree.blockPred o.source⟩ :=
    graded.site_iff.mpr ⟨_, isNode, isBlock, rfl⟩
  exact graded.position_lt leaves got earlier

end

namespace Program

variable (built : p.Built ss result outline)

include built

/-- The code of a built program is straight-line code with terminators at the end. -/
theorem Built.terminated (plain : ∀ inst ∈ instsAll ss, inst.isTerminator = false)
    (inside : b.index < outline.numbers.blocks) : Terminated (p.func.codeOf b) := by
  obtain ⟨before, code, isCode, isBefore, segment⟩ := built.segment plain inside
  rw [isCode]
  refine .prepend (segment.terminated fun code isLast => ?_) ?_
  · exact ⟨restoring frameWords, [.plain (.ret result)], isLast.2, cons_ne_nil _ _, by decide,
      by simp [isTerminator, isReturn, Inst.plain]⟩
  · rcases isBefore with rfl | rfl
    · simp
    · decide

theorem Built.layout_last : p.func.layout.getLast? = some outline.exit := by
  have newest : outline.exit.index + 1 = outline.numbers.blocks := built.spelt.final_newest rfl
  rw [built.layout, ← newest, range_succ, map_append]
  simp

theorem Built.knows {t : BlockId} (inside : t.index < outline.numbers.blocks) : isKnownTarget p.func t = true := by
  obtain ⟨c, got⟩ := built.found inside
  simp [isKnownTarget, got, (mem_layout_iff built.layout).mpr inside]

/-- The instructions of a built program are allowed if those of its statements, the tests and the result keep off the
registers that are set aside. -/
theorem Built.allows (several : 3 ≤ regs.predCount) (plain : ∀ inst ∈ instsAll ss, inst.isTerminator = false)
    (keepsOff : ∀ inst ∈ instsAll ss, inst.KeepsOff regs) (tests : ∀ test ∈ testsAll ss, test.inst.KeepsOff regs)
    (setup : ∀ inst ∈ prologue frameWords, inst.KeepsOff regs)
    (closing : ∀ inst ∈ epilogue frameWords result, inst.KeepsOff regs)
    (inside : b.index < outline.numbers.blocks) : ∀ inst ∈ p.func.codeOf b, Allows p.func regs inst := by
  intro inst listed
  refine ⟨fun t branches => ?_, ?_⟩
  · exact built.knows (built.spelt.target_lt built.entryCode plain inside inst listed t branches)
  · refine built.spelt.forall_code built.entryCode setup closing tests (fun t _ => ⟨?_, ?_⟩) keepsOff inside inst listed
    · exact .of_silent rfl rfl rfl nofun nofun
    · exact branchIf_keepsOff several t

end Program

/-- A program is accepted if its blocks pass and its last block returns. -/
theorem Program.validate_total {last : BlockId}
    (several : 2 ≤ regs.predCount) (few : regs.predCount ≤ machinePreds) (isGuard : regs.predCount = guard.index + 1)
    (isLast : p.func.layout.getLast? = some last) (entered : p.func.entry ∈ p.func.layout)
    (passes : ∀ b ∈ p.func.layout, checkBlock p.func regs guard b = .ok ())
    (got : p.func.block? last = some c) (returns : c.insts.getLast?.any isReturn = true) :
    p.validate regs = .ok () := by
  have guards : (liftM (Machine.callGuard regs) : Validity PReg) = .ok guard := by
    simp [Machine.callGuard, isGuard]
  have isFound : (liftM (p.func.get last) : Validity Block) = .ok c := by simp [Func.get, got]
  have blocks : ∀ listed : List BlockId, (∀ b ∈ listed, checkBlock p.func regs guard b = .ok ()) →
      checkBlocks p.func regs guard listed = .ok () := by
    intro listed each
    induction listed with
    | nil => rfl
    | cons b rest ih =>
      rw [forall_mem_cons] at each
      simp only [checkBlocks, each.1, ok_bind, ih each.2]
  simp [validate, demand, several, few, isLast, entered, guards, blocks _ passes, isFound, returns]

/-- A built program is accepted if its statements keep off the registers that are set aside. -/
theorem Program.Built.validated (built : p.Built ss result outline) (several : 3 ≤ regs.predCount)
    (few : regs.predCount ≤ machinePreds) (plain : ∀ inst ∈ instsAll ss, inst.isTerminator = false)
    (allows : ∀ b : BlockId, b.index < outline.numbers.blocks →
      ∀ inst ∈ p.func.codeOf b, Allows p.func regs inst) : p.validate regs = .ok () := by
  have laid {b : BlockId} : b ∈ p.func.layout ↔ b.index < outline.numbers.blocks := mem_layout_iff built.layout
  have isLast := built.layout_last
  obtain ⟨c, got⟩ := built.found (laid.mp (mem_of_getLast? isLast))
  obtain ⟨body, inst, isCode, isReturn, _⟩ := (built.onlyReturn plain).ends
  have isGuard : regs.predCount = (⟨regs.predCount - 1⟩ : PReg).index + 1 := by
    show regs.predCount = regs.predCount - 1 + 1
    omega
  refine validate_total (by omega) few isGuard isLast (built.laid plain).entered ?_ got ?_
  · intro b listed
    have inside := laid.mp listed
    obtain ⟨c, got⟩ := built.found inside
    have isCode := codeOf_eq got
    refine checkBlock_total isGuard got (built.contents c (mem_of_getElem? got)).1 ?_ ?_
    · exact isCode ▸ built.terminated plain inside
    · exact isCode ▸ allows b inside
  · rw [← codeOf_eq got, isCode]
    simpa using isReturn

/-- Statements are built into a program that is accepted, as a function or as a region. The tree of the program fits it
if its scopes can be numbered, and in every scope each predicate other than the header's is defined, and only at nodes
before all those that read it. -/
theorem Builder.Opened.accepted {builder : Builder} (opened : builder.Opened) {stmts : List Stmt} {result : GReg}
    {count : Nat} (several : 3 ≤ count) (few : count ≤ 8)
    (plain : ∀ inst ∈ Stmt.instsAll stmts, inst.isTerminator = false)
    (keepsOff : ∀ inst ∈ Stmt.instsAll stmts, inst.KeepsOff { predCount := count })
    (tests : ∀ test ∈ Stmt.testsAll stmts, test.lhs ≠ ⟨26⟩ ∧ test.rhs ≠ ⟨26⟩) (returns : result ≠ ⟨26⟩) :
    ∃ program, builder.finish stmts result = .ok program ∧ program.validate { predCount := count } = .ok () ∧
      (program.tree.scopes.length < 0x100000000 → ∃ facts, program.tree.validate program.func = .ok facts) ∧
      ∀ id content, program.tree.get id = .ok content → ∀ pred, program.tree.blockPred content.header ≠ some pred →
        ∀ reader, program.tree.ReadAt content pred reader →
          (∃ position, program.tree.DefinedAt content pred position) ∧
            ∀ position, program.tree.DefinedAt content pred position → position < reader := by
  obtain ⟨program, outline, finished, built, _⟩ := opened.finish_built plain result
  refine ⟨program, finished, ?_, ?_, ?_⟩
  · refine built.validated several few plain fun block inside => built.allows several plain keepsOff ?_ ?_ ?_ inside
    · exact fun test listed => Test.keepsOff several (tests test listed).1 (tests test listed).2
    · exact prologue_keepsOff (by simp [returnBaseSave]) (by simp [returnOffsetSave]) _
    · exact epilogue_keepsOff (by simp [returnBaseSave]) (by simp [returnOffsetSave]) _ returns
  · exact built.accepts
  · intro id content found pred notHeader reader reads
    obtain ⟨headerPred, graded⟩ := built.graded found
    refine graded.defined_before_read ?_ reads
    rintro rfl
    exact notHeader graded.headed

/-- Guarded instructions, conditionals and a straight-line loop, as a region with a frame cell and four predicate
registers. The second node of the root reads the predicate of the first branch. -/
theorem Samples.guardedOps_selfLoop_accepted :
    (Builder.cellRegion "guarded").Opened ∧
      (∀ inst ∈ Stmt.instsAll (guardedOps ++ selfLoop), inst.isTerminator = false ∧ inst.KeepsOff { predCount := 4 }) ∧
      (∀ test ∈ Stmt.testsAll (guardedOps ++ selfLoop), test.lhs ≠ ⟨26⟩ ∧ test.rhs ≠ ⟨26⟩) ∧ reg 3 ≠ ⟨26⟩ ∧
      ∃ program content, (Builder.cellRegion "guarded").finish (guardedOps ++ selfLoop) (reg 3) = .ok program ∧
        program.validate { predCount := 4 } = .ok () ∧ (∃ facts, program.tree.validate program.func = .ok facts) ∧
        program.tree.get ScopeTree.root = .ok content ∧ program.tree.ReadAt content ⟨1⟩ 1 ∧
        (∃ position, program.tree.DefinedAt content ⟨1⟩ position) ∧
          ∀ position, program.tree.DefinedAt content ⟨1⟩ position → position < 1 := by
  have opened := Builder.cellRegion_opened "guarded"
  have fit : ∀ inst ∈ Stmt.instsAll (guardedOps ++ selfLoop),
      inst.isTerminator = false ∧ inst.KeepsOff { predCount := 4 } := by
    decide
  have tests : ∀ test ∈ Stmt.testsAll (guardedOps ++ selfLoop), test.lhs ≠ ⟨26⟩ ∧ test.rhs ≠ ⟨26⟩ := by decide
  refine ⟨opened, fit, tests, by decide, ?_⟩
  obtain ⟨program, finished, valid, fits, ordered⟩ :=
    Builder.Opened.accepted opened (by decide : 3 ≤ 4) (by decide) (fun inst listed => (fit inst listed).1)
      (fun inst listed => (fit inst listed).2) tests (by decide : reg 3 ≠ ⟨26⟩)
  have shown : ((Builder.cellRegion "guarded").finish (guardedOps ++ selfLoop) (reg 3)).toOption.map (fun program =>
      ((program.tree.scope? ScopeTree.root).map fun content => (content.header, content.nodes[1]?),
        program.tree.blockPred ⟨0⟩, program.tree.blockPred ⟨1⟩, program.tree.scopes.length)) =
      some (some (⟨0⟩, some (.block ⟨1⟩)), some ⟨0⟩, some ⟨1⟩, 2) := by
    decide +kernel
  rw [finished] at shown
  obtain ⟨root, entryGuard, guard, two⟩ := by
    simpa only [Except.toOption, Option.map_some, Option.some.injEq, Prod.mk.injEq] using shown
  obtain ⟨content, found, isContent⟩ := Option.map_eq_some_iff.mp root
  obtain ⟨isHeader, isNode⟩ := Prod.mk.inj isContent
  have reads : program.tree.ReadAt content ⟨1⟩ 1 := ⟨_, _, isNode, rfl, .inl guard⟩
  have notHeader : program.tree.blockPred content.header ≠ some ⟨1⟩ := by
    rw [isHeader, entryGuard]
    decide
  exact ⟨program, content, finished, valid, fits (by omega), present_eq_ok.mpr found, reads,
    ordered _ _ (present_eq_ok.mpr found) _ notHeader _ reads⟩

end SinglePath
