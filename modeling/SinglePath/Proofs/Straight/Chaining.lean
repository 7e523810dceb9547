import Mathlib.Logic.Relation
import SinglePath.Proofs.Straight.Linking

namespace SinglePath

open Func List Nat Option ScopeTree WalkEvent Work

variable {plan : Plan} {base f : Func} {already : Nat} {chain after : Chain} {links more : List Link}
  {scope : ScopeId} {body : Scope} {block : BlockId} {es : List WalkEvent} {e : WalkEvent} {work : Work}
  {code : List Inst}

theorem Work.appendCode_ok {next : Work} (res : work.appendCode block code = .ok next) :
    next.func = work.func.setCode block (work.func.codeOf block ++ code) := by
  obtain ⟨body, found, _, isNext⟩ := insertCode_ok res
  rw [isNext, codeOf, found]
  simp [insertedAt]

namespace Plan

/-- The code of a loop's preheader. -/
def Enters (plan : Plan) (scope : ScopeId) (body : Scope) (code : List Inst) : Prop :=
  ∃ pred alloc save enter regs clear count, plan.headerPred scope = .ok pred ∧ plan.alloc scope = .ok alloc ∧
    plan.saveBankCode alloc body.depth = .ok save ∧
    plan.enterPredCode (body.parent.getD ScopeTree.root) scope body.header pred = .ok enter ∧
    plan.exitRegs (body.parent.getD ScopeTree.root) body.header = .ok regs ∧
    plan.clearExitsCode alloc body.depth regs = .ok clear ∧ plan.setCounterCode body = .ok count ∧
    code = save ++ (enter ++ clear ++ count)

/-- The code of a loop's branch block. -/
def Turns (plan : Plan) (scope : ScopeId) (body : Scope) (code : List Inst) : Prop :=
  ∃ alloc reload branch, plan.alloc scope = .ok alloc ∧ plan.reloadCode alloc body.header = .ok reload ∧
    plan.branchCode scope body = .ok branch ∧ code = reload ++ branch

/-- The code of a loop's postlude, which copies at least the function's own registers that are live at an exit. -/
def Closes (plan : Plan) (base : Func) (scope : ScopeId) (body : Scope) (code : List Inst) : Prop :=
  ∃ (c : CellId) (live : List PReg), plan.frame.bankCell body.depth = .ok c ∧ (∀ r ∈ live, r ∈ plan.unavailable) ∧
    (∀ block ∈ (plan.facts.exits.get? scope).getD [], block.index < base.blocks.length →
      ∀ r ∈ base.liveInsOf block, r ∈ plan.unavailable → r ∈ live) ∧
    code = [.loadCell plan.guards c] ++
      (live.map fun r => .copyBit .always plan.guards plan.guards r.bankBit (.holds r)) ++ [.writeBank plan.guards]

theorem Enters.own (enters : plan.Enters scope body code) : plan.OwnCode code := by
  obtain ⟨_, _, save, enter, _, clear, count, _, _, isSave, isEnter, isRegs, isClear, isCount, rfl⟩ := enters
  simp only [OwnCode.append_iff]
  exact ⟨saveBankCode_own isSave, ⟨enterPredCode_own isEnter, clearExitsCode_own (exitRegs_own isRegs) isClear⟩,
    setCounterCode_own isCount⟩

/-- A branch block ends in its only branch, which goes to the header. -/
theorem Turns.eq (turns : plan.Turns scope body code) :
    ∃ moves r, code = moves ++ [.branchIf (.holds r) body.header] ∧ plan.OwnCode moves := by
  obtain ⟨_, reload, branch, _, isReload, isBranch, rfl⟩ := turns
  obtain ⟨moves, r, rfl, own⟩ := branchCode_eq isBranch
  exact ⟨reload ++ moves, r, by simp, OwnCode.append_iff.mpr ⟨reloadCode_own isReload, own⟩⟩

theorem Closes.own (closes : plan.Closes base scope body code) : plan.OwnCode code := by
  obtain ⟨c, live, found, _, _, rfl⟩ := closes
  exact restoreBank_own (bankCell_own found) live

/-- The links of one step of the walk. -/
inductive Adds (plan : Plan) (base : Func) : WalkEvent → List Link → Prop where
  | block (id : BlockId) : Adds plan base (.block id) [⟨id, stripped (base.codeOf id), none⟩]
  | enterTop {scope : ScopeId} {body : Scope} (found : plan.tree.get scope = .ok body)
      (isTop : body.isTopLevel = true) : Adds plan base (.enter scope) []
  | exitTop {scope : ScopeId} {body : Scope} (found : plan.tree.get scope = .ok body)
      (isTop : body.isTopLevel = true) : Adds plan base (.exit scope) []
  | enter {scope : ScopeId} {body : Scope} {preheader : BlockId} {code : List Inst}
      (found : plan.tree.get scope = .ok body) (isLoop : body.isTopLevel = false)
      (fresh : base.blocks.length ≤ preheader.index) (enters : plan.Enters scope body code) :
      Adds plan base (.enter scope) [⟨preheader, code, none⟩]
  | turn {scope : ScopeId} {body : Scope} {alloc : ScopeAllocation} {branch : BlockId} {code : List Inst}
      (found : plan.tree.get scope = .ok body) (isLoop : body.isTopLevel = false)
      (isAlloc : plan.alloc scope = .ok alloc) (keeps : alloc.savesBank = false)
      (fresh : base.blocks.length ≤ branch.index) (turns : plan.Turns scope body code) :
      Adds plan base (.exit scope) [⟨branch, code, some body.header⟩]
  | close {scope : ScopeId} {body : Scope} {alloc : ScopeAllocation} {branch postlude : BlockId} {code last : List Inst}
      (found : plan.tree.get scope = .ok body) (isLoop : body.isTopLevel = false)
      (isAlloc : plan.alloc scope = .ok alloc) (saves : alloc.savesBank = true)
      (fresh : base.blocks.length ≤ branch.index) (turns : plan.Turns scope body code)
      (freshLast : base.blocks.length ≤ postlude.index) (closes : plan.Closes base scope body last) :
      Adds plan base (.exit scope) [⟨branch, code, some body.header⟩, ⟨postlude, last, none⟩]

/-- The postlude restores what is live at the exits. -/
theorem postludeCode_ok
    (same : ∀ block : BlockId, block.index < base.blocks.length → f.liveInsOf block = base.liveInsOf block)
    (res : plan.postludeCode f scope body = .ok code) : plan.Closes base scope body code := by
  obtain ⟨c, isCell, live, isLive, res⟩ := bind_bind_inv res
  obtain ⟨lists, mem, isLive⟩ := bind_inv isLive
  have isLists : lists = ((plan.facts.exits.get? scope).getD []).map f.liveInsOf := by
    refine mapM_eq_map mem fun block live comp => ?_
    obtain ⟨blockContent, got, comp⟩ := bind_inv comp
    rw [liveInsOf, get_eq_ok.mp got, ← pure_inv comp]
    rfl
  have members : ∀ r, r ∈ live ↔
      (∃ block ∈ (plan.facts.exits.get? scope).getD [], r ∈ f.liveInsOf block) ∧ r ∈ plan.unavailable := by
    intro r
    rw [← pure_inv isLive, isLists]
    simp only [List.mem_map, NumberSet.mem_ofList, mem_filter, mem_flatten, decide_eq_true_eq]
    constructor
    · rintro ⟨_, ⟨_, ⟨⟨_, ⟨block, isExit, rfl⟩, isLiveIn⟩, used⟩, rfl⟩, rfl⟩
      exact ⟨⟨block, isExit, isLiveIn⟩, used⟩
    · rintro ⟨⟨block, isExit, isLiveIn⟩, used⟩
      exact ⟨_, ⟨r, ⟨⟨_, ⟨block, isExit, rfl⟩, isLiveIn⟩, used⟩, rfl⟩, rfl⟩
  refine ⟨c, live, isCell, fun r member => ((members r).mp member).2, ?_, (pure_inv res).symm⟩
  intro block isExit inside r isLiveIn used
  exact (members r).mpr ⟨⟨block, isExit, same block inside ▸ isLiveIn⟩, used⟩

end Plan

namespace Chain

variable {alloc : ScopeAllocation}

/-- The chain so far, its last block, and the branches that the blocks of the function have lost. -/
structure Holds (base : Func) (already : Nat) (chain : Chain) (links : List Link) : Prop where
  linking : Func.Linking base chain.work.func links []
  last : chain.last = links.getLast?.map (·.block)
  removed : chain.work.stats.removedBranches =
    already + (links.map fun link => (trailing (base.codeOf link.block)).length).sum

/-- A block of the function that is not in the chain yet. -/
theorem Holds.next (holds : Holds base already chain links)
    (inside : block.index < base.blocks.length) (laid : base.LaidOut → links = [] → block ∈ base.layout)
    (unlinked : block ∉ links.map (·.block)) (res : chain.next block = .ok after) :
    Holds base already after (links ++ [⟨block, stripped (base.codeOf block), none⟩]) := by
  have grows := next_ok res
  have follows := grows.follows
  rw [holds.last] at follows
  have linking := holds.linking.follow (Nat.lt_of_lt_of_le inside holds.linking.grown) unlinked
    (fun laidOut isFirst => (holds.linking.placing laidOut).kept block (laid laidOut isFirst)) (nofun) follows
  have sameCode := holds.linking.others block inside unlinked
  rw [sameCode] at linking
  refine ⟨linking, by rw [grows.last]; simp, ?_⟩
  rw [grows.stats, sameCode]
  simp [holds.removed, Nat.add_assoc]

theorem codeOf_fresh (fresh : base.blocks.length ≤ block.index) : base.codeOf block = [] := by
  simp [codeOf, block?, getElem?_eq_none fresh]

/-- A new block with the given code. -/
theorem Holds.nextNew (holds : Holds base already chain links) {name : String} {save more : List Inst}
    (appended : work.func = (chain.work.func.addBlock name save).2.setCode (chain.work.func.addBlock name save).1 more)
    (own : plan.OwnCode more)
    (res : ({ chain with work := work } : Chain).next (chain.work.func.addBlock name save).1 = .ok after)
    (sameRemoved : work.stats.removedBranches = chain.work.stats.removedBranches) :
    Holds base already after (links ++ [⟨(chain.work.func.addBlock name save).1, more, none⟩]) ∧
      base.blocks.length ≤ (chain.work.func.addBlock name save).1.index := by
  have grows := next_ok res
  have fresh : base.blocks.length ≤ (chain.work.func.addBlock name save).1.index := holds.linking.grown
  have unlinked := holds.linking.spare_new name save
  have spared := (holds.linking.addBlock name save).setCode unlinked fresh more
  rw [← appended] at spared
  have code : work.func.codeOf (chain.work.func.addBlock name save).1 = more := by
    rw [appended, setCode, codeOf_modify, if_pos rfl]
    simp [block?, Func.addBlock]
  have laid : (chain.work.func.addBlock name save).1 ∈ work.func.layout := by
    rw [appended]
    simp [setCode, Func.modify, Func.addBlock]
  have follows : Follows work.func after.work.func (links.getLast?.map (·.block)) _ := holds.last ▸ grows.follows
  have linking := spared.follow (spared.inside _ laid) unlinked (fun _ _ => laid) (by simp) follows
  rw [code, (stripped_of_own own).1] at linking
  refine ⟨⟨linking, by rw [grows.last]; simp, ?_⟩, fresh⟩
  rw [grows.stats]
  rw [code, (stripped_of_own own).2, sameRemoved, holds.removed]
  simp [codeOf_fresh fresh, trailing]

theorem setCode_addBlock (f : Func) (name : String) (code : List Inst) :
    (f.addBlock name code).2.setCode (f.addBlock name code).1 code = (f.addBlock name code).2 := by
  have found : (f.addBlock name code).2.block? (f.addBlock name code).1 = some { name := name, insts := code } := by
    simp [block?, Func.addBlock]
  exact setCode_self found

theorem codeOf_addBlock (f : Func) (name : String) (code : List Inst) :
    (f.addBlock name code).2.codeOf (f.addBlock name code).1 = code := by
  simp [codeOf, block?, Func.addBlock]

section

variable (holds : Holds base already chain links)

include holds

/-- Entering a loop links its preheader. -/
theorem Holds.enterLoop (res : chain.enterLoop plan scope body = .ok after) :
    ∃ preheader code, base.blocks.length ≤ preheader.index ∧ plan.Enters scope body code ∧
      Holds base already after (links ++ [⟨preheader, code, none⟩]) := by
  obtain ⟨pred, isPred, name, _, res⟩ := bind_bind_inv res
  obtain ⟨alloc, isAlloc, save, isSave, res⟩ := bind_bind_inv res
  obtain ⟨enter, isEnter, regs, isRegs, res⟩ := bind_bind_inv res
  obtain ⟨clear, isClear, count, isCount, res⟩ := bind_bind_inv res
  obtain ⟨work, appended, res⟩ := bind_inv res
  have code : work.func = (chain.work.func.addBlock name save).2.setCode (chain.work.func.addBlock name save).1
      (save ++ (enter ++ clear ++ count)) := by
    have isWork : work.func = (chain.work.func.addBlock name save).2.setCode (chain.work.func.addBlock name save).1
        ((chain.work.func.addBlock name save).2.codeOf (chain.work.func.addBlock name save).1 ++
          (enter ++ clear ++ count)) := appendCode_ok appended
    rw [isWork, codeOf_addBlock]
  have counted : (if body.usableBound.isSome then work.countCounter else work).func = work.func := by
    split <;> rfl
  have sameRemoved : (if body.usableBound.isSome then work.countCounter else work).stats.removedBranches =
      chain.work.stats.removedBranches := by
    have kept : work.stats.removedBranches = chain.work.stats.removedBranches := by
      rw [insertCode_stats appended]
      rfl
    split
    · exact kept
    · exact kept
  have enters : plan.Enters scope body (save ++ (enter ++ clear ++ count)) :=
    ⟨pred, alloc, save, enter, regs, clear, count, await_eq_ok.mp isPred, expect_eq_ok.mp isAlloc,
      expect_eq_ok.mp isSave, await_eq_ok.mp isEnter, expect_eq_ok.mp isRegs,
      expect_eq_ok.mp isClear, expect_eq_ok.mp isCount, rfl⟩
  obtain ⟨after, fresh⟩ := holds.nextNew (counted.trans code) enters.own res sameRemoved
  exact ⟨_, _, fresh, enters, after⟩

/-- Leaving a loop links its branch block, with an edge back. -/
theorem Holds.addBranch (isAlloc : plan.alloc scope = .ok alloc)
    (headed : body.header ∈ links.map (·.block)) (res : chain.addBranch plan scope body alloc = .ok after) :
    ∃ branch code, base.blocks.length ≤ branch.index ∧ plan.Turns scope body code ∧
      Holds base already after (links ++ [⟨branch, code, some body.header⟩]) := by
  obtain ⟨name, _, linked, linking, res⟩ := bind_bind_inv res
  obtain ⟨reload, isReload, reloaded, reloading, res⟩ := bind_bind_inv res
  obtain ⟨branch, isBranch, branched, branching, res⟩ := bind_bind_inv res
  obtain ⟨turned, turning, rfl⟩ := bind_pure_inv res
  obtain ⟨added, adding, turning⟩ := bind_inv turning
  have isTurned : turned.func = added := by rw [← pure_inv turning]
  obtain ⟨next, fresh⟩ := holds.nextNew (setCode_addBlock chain.work.func name []).symm
    (.nil : plan.OwnCode []) linking rfl
  have empty : linked.work.func.codeOf (chain.work.func.addBlock name []).1 = [] :=
    next.linking.codes _ (mem_append_right _ (mem_singleton_self _))
  have isReloaded : reloaded.func = linked.work.func.setCode (chain.work.func.addBlock name []).1 reload := by
    have appended : reloaded.func = linked.work.func.setCode (chain.work.func.addBlock name []).1
        (linked.work.func.codeOf (chain.work.func.addBlock name []).1 ++ reload) := appendCode_ok reloading
    rw [appended, empty, nil_append]
  have inside := next.linking.within (chain.work.func.addBlock name []).1 (by simp)
  have isBranched : branched.func = linked.work.func.setCode (chain.work.func.addBlock name []).1 (reload ++
      branch) := by
    have appended : branched.func = reloaded.func.setCode (chain.work.func.addBlock name []).1
        (reloaded.func.codeOf (chain.work.func.addBlock name []).1 ++ branch) := appendCode_ok branching
    have code : reloaded.func.codeOf (chain.work.func.addBlock name []).1 = reload := by
      rw [isReloaded, setCode, codeOf_modify, if_pos rfl, block?, getElem?_eq_getElem inside]
      rfl
    rw [appended, code, isReloaded, setCode_setCode]
  have adding : (linked.work.func.setCode (chain.work.func.addBlock name []).1 (reload ++ branch)).addEdge
      (chain.work.func.addBlock name []).1 body.header = .ok added := by
    rw [← isBranched]
    exact expect_eq_ok.mp adding
  refine ⟨_, _, fresh, ⟨alloc, reload, branch, isAlloc, await_eq_ok.mp isReload, await_eq_ok.mp isBranch, rfl⟩,
    ⟨?_, ?_, ?_⟩⟩
  · rw [isTurned]
    exact next.linking.turn headed (reload ++ branch) adding
  · rw [next.last]
    simp
  · have kept : turned.stats.removedBranches = linked.work.stats.removedBranches := by
      rw [← pure_inv turning]
      rw [insertCode_stats branching, insertCode_stats reloading]
    refine kept.trans (next.removed.trans ?_)
    simp

/-- Leaving a loop that saves the bank links its postlude. -/
theorem Holds.addPostlude (res : chain.addPostlude plan scope body = .ok after) :
    ∃ postlude code, base.blocks.length ≤ postlude.index ∧ plan.Closes base scope body code ∧
      Holds base already after (links ++ [⟨postlude, code, none⟩]) := by
  obtain ⟨name, _, code, isCode, res⟩ := bind_bind_inv res
  have closes := Plan.postludeCode_ok holds.linking.liveIns (expect_eq_ok.mp isCode)
  obtain ⟨next, fresh⟩ := holds.nextNew (setCode_addBlock chain.work.func name code).symm closes.own res rfl
  exact ⟨_, _, fresh, closes, next⟩

/-- One step of the walk adds its links at the end of the chain. -/
theorem Holds.extend (fits : ∀ block, e = .block block → block.index < base.blocks.length ∧
    block ∉ links.map (·.block) ∧
      (base.LaidOut → links = [] → block ∈ base.layout))
    (headed : ∀ scope body, e = .exit scope → plan.tree.get scope = .ok body → body.header ∈ links.map (·.block))
    (res : chain.extend plan e = .ok after) :
    ∃ more, plan.Adds base e more ∧ Holds base already after (links ++ more) := by
  cases e with
  | block block =>
    obtain ⟨inside, unlinked, laid⟩ := fits block rfl
    exact ⟨_, .block block, holds.next inside laid unlinked res⟩
  | enter scope =>
    obtain ⟨body, got, res⟩ := bind_inv res
    have found := expect_eq_ok.mp got
    split at res
    · rename_i isTop
      obtain rfl := pure_inv res
      exact ⟨[], .enterTop found isTop, by simpa using holds⟩
    · rename_i isLoop
      obtain ⟨preheader, code, fresh, enters, next⟩ := holds.enterLoop res
      exact ⟨_, .enter found (by simpa using isLoop) fresh enters, next⟩
  | exit scope =>
    obtain ⟨body, got, res⟩ := bind_inv res
    have found := expect_eq_ok.mp got
    split at res
    · rename_i isTop
      obtain rfl := pure_inv res
      exact ⟨[], .exitTop found isTop, by simpa using holds⟩
    · rename_i isLoop
      obtain ⟨alloc, gotAlloc, res⟩ := bind_inv res
      have isAlloc := expect_eq_ok.mp gotAlloc
      obtain ⟨branched, branching, res⟩ := bind_inv res
      obtain ⟨branch, code, fresh, turns, next⟩ := holds.addBranch isAlloc (headed scope body rfl found) branching
      split at res
      · rename_i saves
        obtain ⟨postlude, last, freshLast, closes, closed⟩ := next.addPostlude res
        refine ⟨_, .close found (by simpa using isLoop) isAlloc saves fresh turns freshLast closes, ?_⟩
        simpa using closed
      · rename_i keeps
        obtain rfl := pure_inv res
        exact ⟨_, .turn found (by simpa using isLoop) isAlloc (by simpa using keeps) fresh turns, next⟩

end

/-- What is done to a chain in one step of the walk: a block that is met or new becomes the last one, a block is added
or gets more code, an edge is added, a counter is counted. -/
inductive Acts (met : Option BlockId) (known : Nat) : Chain → Chain → Prop where
  | next {chain after : Chain} {block : BlockId} (allowed : met = some block ∨ known ≤ block.index)
      (res : chain.next block = .ok after) : Acts met known chain after
  | add (chain : Chain) (name : String) (code : List Inst) :
      Acts met known chain { chain with work := (chain.work.addBlock name code).2 }
  | append {chain : Chain} {block : BlockId} {code : List Inst} {work : Work}
      (res : chain.work.appendCode block code = .ok work) : Acts met known chain { chain with work := work }
  | edge {chain : Chain} {u t : BlockId} {work : Work}
      (res : chain.work.mapFunc (·.addEdge u t) = .ok work) : Acts met known chain { chain with work := work }
  | count (chain : Chain) : Acts met known chain { chain with work := chain.work.countCounter }

/-- What a series of steps on a chain does to the layout: it gains blocks that are met and new blocks only. -/
structure Spreads (f next : Func) (met : Option BlockId) (known : Nat) : Prop where
  entry : next.entry = f.entry
  length : f.blocks.length ≤ next.blocks.length
  layout : ∀ block ∈ next.layout, block ∈ f.layout ∨ met = some block ∨ known ≤ block.index

variable {met : Option BlockId} {known : Nat}

theorem Acts.spreads (acts : Acts met known chain after) (bounded : known ≤ chain.work.func.blocks.length) :
    Spreads chain.work.func after.work.func met known := by
  have same {f next : Func} (entry : next.entry = f.entry) (length : next.blocks.length = f.blocks.length)
      (layout : next.layout = f.layout) : Spreads f next met known :=
    ⟨entry, Nat.le_of_eq length.symm, fun block inside => .inl (layout ▸ inside)⟩
  cases acts with
  | next allowed res =>
    have follows := (next_ok res).follows
    refine ⟨follows.entry, Nat.le_of_eq follows.length.symm, fun block inside => ?_⟩
    rcases mem_placeAfter (follows.layout ▸ inside) with rfl | kept
    · exact .inr allowed
    · exact .inl kept
  | add name code =>
    refine ⟨rfl, by simp [Work.addBlock, countInserted, Func.addBlock], fun block inside => ?_⟩
    rcases mem_append.mp inside with old | isNew
    · exact .inl old
    · rw [mem_singleton.mp isNew]
      exact .inr (.inr bounded)
  | append res =>
    rename_i block code work
    have sameCode : chain.work.func.SameButCode work.func := by
      rw [appendCode_ok res]
      exact sameButCode_setCode _ _ _
    exact same sameCode.entry sameCode.length sameCode.layout
  | edge res =>
    obtain ⟨f, added, rfl⟩ := bind_pure_inv res
    have sameEdges := addEdge_sameButEdges (expect_eq_ok.mp added)
    exact same sameEdges.entry.symm sameEdges.blocks.symm sameEdges.layout.symm
  | count => exact same rfl rfl rfl

theorem spreads_of_acts (acts : Relation.ReflTransGen (Acts met known) chain after)
    (bounded : known ≤ chain.work.func.blocks.length) : Spreads chain.work.func after.work.func met known := by
  induction acts with
  | refl => exact ⟨rfl, le_rfl, fun _ => .inl⟩
  | tail _ last ih =>
    have spreads := last.spreads (Nat.le_trans bounded ih.length)
    refine ⟨spreads.entry.trans ih.entry, Nat.le_trans ih.length spreads.length, fun block inside => ?_⟩
    rcases spreads.layout block inside with old | new
    · exact ih.layout block old
    · exact .inr new

variable (bounded : known ≤ chain.work.func.blocks.length)

include bounded

theorem enterLoop_acts (res : chain.enterLoop plan scope body = .ok after) :
    Relation.ReflTransGen (Acts met known) chain after := by
  obtain ⟨pred, _, name, _, res⟩ := bind_bind_inv res
  obtain ⟨alloc, _, save, _, res⟩ := bind_bind_inv res
  obtain ⟨enter, _, regs, _, res⟩ := bind_bind_inv res
  obtain ⟨clear, _, count, _, res⟩ := bind_bind_inv res
  obtain ⟨appended, isAppended, res⟩ := bind_inv res
  have coded : Relation.ReflTransGen (Acts met known) chain { chain with work := appended } :=
    (Relation.ReflTransGen.single (Acts.add chain name save)).tail (.append isAppended)
  split at res
  · exact (coded.tail (.count _)).tail (.next (.inr bounded) res)
  · exact coded.tail (.next (.inr bounded) res)

theorem addBranch_acts (res : chain.addBranch plan scope body alloc = .ok after) :
    Relation.ReflTransGen (Acts met known) chain after := by
  obtain ⟨name, _, linked, isLinked, res⟩ := bind_bind_inv res
  obtain ⟨reload, _, reloaded, isReloaded, res⟩ := bind_bind_inv res
  obtain ⟨branch, _, branched, isBranched, res⟩ := bind_bind_inv res
  obtain ⟨turned, isTurned, rfl⟩ := bind_pure_inv res
  have added : Relation.ReflTransGen (Acts met known) chain linked :=
    (Relation.ReflTransGen.single (Acts.add chain name [])).tail (.next (.inr bounded) isLinked)
  exact ((added.tail (.append isReloaded)).tail (.append isBranched)).tail (.edge isTurned)

theorem addPostlude_acts (res : chain.addPostlude plan scope body = .ok after) :
    Relation.ReflTransGen (Acts met known) chain after := by
  obtain ⟨name, _, code, _, res⟩ := bind_bind_inv res
  exact (Relation.ReflTransGen.single (Acts.add chain name code)).tail (.next (.inr bounded) res)

/-- Every event of the walk is a series of small acts on the chain. -/
theorem extend_acts (res : chain.extend plan e = .ok after) : Relation.ReflTransGen (Acts e.met known) chain after := by
  cases e with
  | block id => exact .single (.next (.inl rfl) res)
  | enter scope =>
    obtain ⟨body, _, res⟩ := bind_inv res
    split at res
    · rw [pure_inv res]
    · exact enterLoop_acts bounded res
  | exit scope =>
    obtain ⟨body, _, res⟩ := bind_inv res
    split at res
    · rw [pure_inv res]
    · obtain ⟨alloc, _, branched, isBranched, res⟩ := bind_bind_inv res
      have branching : Relation.ReflTransGen (Acts none known) chain branched := addBranch_acts bounded isBranched
      split at res
      · have grown := (spreads_of_acts branching bounded).length
        exact branching.trans (addPostlude_acts (Nat.le_trans bounded grown) res)
      · rw [← pure_inv res]
        exact branching

end Chain

namespace Plan

/-- The links of a series of steps, those of each step after the ones of the steps before. -/
inductive Threads (plan : Plan) (base : Func) : List WalkEvent → List Link → Prop where
  | nil : Threads plan base [] []
  | cons {e : WalkEvent} {rest : List WalkEvent} {more links : List Link} (adds : plan.Adds base e more)
      (later : Threads plan base rest links) : Threads plan base (e :: rest) (more ++ links)

/-- A step links the block that it meets, and otherwise new blocks only. -/
theorem Adds.blocks (adds : plan.Adds base e more)
    (linked : block ∈ more.map (·.block)) : e.met = some block ∨ base.blocks.length ≤ block.index := by
  cases adds with
  | block id => exact .inl (by simpa [met, eq_comm] using linked)
  | enterTop | exitTop => simp at linked
  | enter _ _ fresh | turn _ _ _ _ fresh =>
    obtain rfl : block = _ := by simpa using linked
    exact .inr fresh
  | close _ _ _ _ fresh _ freshLast =>
    obtain rfl | rfl : block = _ ∨ block = _ := by simpa using linked
    · exact .inr fresh
    · exact .inr freshLast

theorem Adds.met (adds : plan.Adds base e more) (isMet : e.met = some block) : block ∈ more.map (·.block) := by
  cases adds with
  | block id => simpa [WalkEvent.met, eq_comm] using isMet
  | enterTop | exitTop | enter | turn | close => simp [WalkEvent.met] at isMet

theorem Threads.met (threads : plan.Threads base es links)
    (isMet : block ∈ es.filterMap met) : block ∈ links.map (·.block) := by
  induction threads with
  | nil => simp at isMet
  | cons adds _ ih =>
    rw [map_append, mem_append]
    obtain ⟨e, mem, met⟩ := mem_filterMap.mp isMet
    obtain rfl | later := mem_cons.mp mem
    · exact .inl (adds.met met)
    · exact .inr (ih (mem_filterMap.mpr ⟨e, later, met⟩))

/-- The links of a walk are those of the blocks that it meets and of new blocks. -/
theorem Threads.blocks (threads : plan.Threads base es links) (linked : block ∈ links.map (·.block)) :
    block ∈ es.filterMap WalkEvent.met ∨ base.blocks.length ≤ block.index := by
  induction threads with
  | nil => simp at linked
  | cons adds _ ih =>
    rw [met_cons, mem_append, mem_toList]
    rw [map_append, mem_append] at linked
    rcases linked with first | later
    · exact (adds.blocks first).imp_left .inl
    · exact (ih later).imp_left .inr

end Plan

namespace Chain

variable {seen : List BlockId}

/-- The blocks that the walk has met are linked, and besides them only new ones are. -/
structure Sees (base : Func) (seen : List BlockId) (links : List Link) : Prop where
  linked : ∀ block ∈ seen, block ∈ links.map (·.block)
  only : ∀ block ∈ links.map (·.block), block ∈ seen ∨ base.blocks.length ≤ block.index

theorem Sees.extend (sees : Sees base seen links) (adds : plan.Adds base e more) :
    Sees base (e.met.toList ++ seen) (links ++ more) where
  linked block mem := by
    rw [map_append, mem_append]
    obtain new | old := mem_append.mp mem
    · exact .inr (adds.met (mem_toList.mp new))
    · exact .inl (sees.linked block old)
  only block mem := by
    rw [map_append, mem_append] at mem
    rw [mem_append, mem_toList]
    obtain old | new := mem
    · exact (sees.only block old).imp_left .inr
    · exact (adds.blocks new).imp_left .inl

theorem headsFirst_cons {rest : List WalkEvent} (heads : HeadsFirst plan.tree seen (e :: rest)) :
    (∀ scope body, e = .exit scope → plan.tree.get scope = .ok body → body.header ∈ seen) ∧
      HeadsFirst plan.tree (e.met.toList ++ seen) rest := by
  cases e with
  | enter scope => exact ⟨nofun, heads⟩
  | block block => exact ⟨nofun, heads⟩
  | exit scope =>
    refine ⟨fun o body same => ?_, heads.2⟩
    cases same
    exact heads.1 body

/-- A walk that meets each block once, and headers before it leaves their scopes, adds its links step by step. -/
theorem Holds.run (holds : Holds base already chain links) (sees : Sees base seen links)
    (once : (seen.reverse ++ es.filterMap met).Nodup)
    (inside : ∀ block ∈ es.filterMap met, block.index < base.blocks.length)
    (begins : base.LaidOut → links = [] → ∀ block, (es.filterMap met).head? = some block → block ∈ base.layout)
    (heads : HeadsFirst plan.tree seen es) (res : es.foldlM (Chain.extend plan) chain = .ok after) :
    ∃ more, plan.Threads base es more ∧ Holds base already after (links ++ more) := by
  induction es generalizing chain links seen with
  | nil =>
    obtain rfl := pure_inv res
    exact ⟨[], .nil, by rwa [append_nil]⟩
  | cons e rest ih =>
    obtain ⟨next, extended, res⟩ := bind_inv res
    obtain ⟨headed, headsLater⟩ := headsFirst_cons heads
    rw [met_cons] at once inside begins
    obtain ⟨more, adds, holdsNext⟩ := holds.extend (fun block isBlock => by
        subst isBlock
        refine ⟨inside block (by simp [met]), fun linked => ?_, fun laidOut none => begins laidOut none block rfl⟩
        obtain old | fresh := sees.only block linked
        · exact (nodup_append.mp once).2.2 block (mem_reverse.mpr old) block (by simp [met]) rfl
        · exact absurd (inside block (by simp [met])) (by omega))
      (fun scope body isExit found => sees.linked _ (headed scope body isExit found)) extended
    obtain ⟨others, threads, holdsLast⟩ := ih holdsNext (sees.extend adds)
      (by cases isMet : e.met <;> simpa [isMet] using once)
      (fun block later => inside block (mem_append.mpr (.inr later)))
      (fun laidOut none block isFirst => begins laidOut (append_eq_nil_iff.mp none).1 block (by
        cases isMet : e.met with
        | none => simpa using isFirst
        | some met =>
          have linked := adds.met isMet
          rw [(append_eq_nil_iff.mp none).2] at linked
          simp at linked))
      headsLater res
    exact ⟨more ++ others, .cons adds threads, by rwa [← append_assoc]⟩

end Chain

theorem Func.Placing.layout_eq (placing : Placing base f links [])
    (all : ∀ block ∈ base.layout, block ∈ links.map (·.block)) : f.layout = links.map (·.block) := by
  obtain ⟨once, ⟨before, after, isLayout, only⟩, _⟩ := placing
  rw [isLayout] at once ⊢
  have alone : ∀ block ∈ before ++ after, block ∈ links.map (·.block) := fun block outside =>
    all block ((only block outside).resolve_right (by simp))
  obtain ⟨onceBefore, _, apart⟩ := nodup_append.mp once
  have noBefore : before = [] := eq_nil_iff_forall_not_mem.mpr fun block mem =>
    (nodup_append.mp onceBefore).2.2 block mem block (alone block (mem_append.mpr (.inl mem))) rfl
  have noAfter : after = [] := eq_nil_iff_forall_not_mem.mpr fun block mem =>
    apart block (mem_append.mpr (.inr (alone block (mem_append.mpr (.inr mem))))) block mem rfl
  simp [noBefore, noAfter]

namespace Plan

/-- The links of the walk are the whole layout of the linearized function. -/
structure Linearized (plan : Plan) (base f : Func) (es : List WalkEvent) (links : List Link) : Prop where
  walked : plan.tree.walk = .ok es
  threads : plan.Threads base es links
  linking : Func.Linking base f links []
  placing : Func.Placing base f links []
  layout : f.layout = links.map (·.block)

variable {next : Work} {entered : List ScopeId} {members : Table BlockId ScopeId}

/-- Linearizing leaves one chain with the links of the walk, and counts the branches that its blocks have lost. -/
theorem linearize_linking (valid : plan.tree.Valid f entered members) (sameLayout : work.func.layout = f.layout)
    (sameLength : work.func.blocks.length = f.blocks.length) (sameEntry : work.func.entry = f.entry)
    (res : plan.linearize work = .ok next) : ∃ es links, plan.tree.walk = .ok es ∧
      plan.Threads work.func es links ∧ Linking work.func next.func links [] ∧
      (∀ block ∈ work.func.layout, block ∈ links.map (·.block)) ∧ next.stats.removedBranches =
        work.stats.removedBranches + (links.map fun link => (trailing (work.func.codeOf link.block)).length).sum := by
  obtain ⟨es, isWalk, isEntered, walks⟩ := valid.walked
  unfold linearize at res
  rw [isWalk] at res
  obtain ⟨walked, isWalked, res⟩ := bind_inv res
  cases isWalked
  obtain ⟨final, folded, rfl⟩ := bind_pure_inv res
  have inside : ∀ block ∈ es.filterMap met, block.index < work.func.blocks.length := by
    intro block isMet
    obtain ⟨id, scope, found, member⟩ := (valid.mem_met isEntered walks).mp isMet
    exact sameLength ▸ valid.member_lt found member
  have laidMet : ∀ block ∈ work.func.layout, block ∈ es.filterMap met := by
    intro block laid
    obtain ⟨home, isHome⟩ := valid.placed (sameLayout ▸ laid)
    obtain ⟨scope, found, member⟩ := valid.homes isHome
    exact (valid.mem_met isEntered walks).mpr ⟨home, scope, found, member⟩
  obtain ⟨rest, isFirst⟩ := valid.starts walks
  have begins : Chain.Holds work.func work.stats.removedBranches ⟨work, none⟩ [] :=
    ⟨.start fun block laid => inside block (laidMet block laid), rfl, rfl⟩
  have sees : Chain.Sees work.func [] [] := ⟨nofun, nofun⟩
  obtain ⟨links, threads, holds⟩ := begins.run sees (valid.met_nodup isEntered walks) inside
    (fun laidOut _ block isHead => by
      rw [isFirst] at isHead
      obtain rfl : f.entry = block := by simpa using isHead
      exact sameEntry ▸ laidOut.2)
    (walks.headsFirst (fun id body found => (valid.checked found).headerFirst) []) folded
  exact ⟨es, links, isWalk, threads, holds.linking, fun block laid => threads.met (laidMet block laid), holds.removed⟩

/-- In a function that is laid out, the chain is the layout. -/
theorem linearize_ok (valid : plan.tree.Valid f entered members) (sameLayout : work.func.layout = f.layout)
    (sameLength : work.func.blocks.length = f.blocks.length) (sameEntry : work.func.entry = f.entry)
    (once : f.layout.Nodup) (entryLaid : f.entry ∈ f.layout) (res : plan.linearize work = .ok next) :
    ∃ es links, plan.Linearized work.func next.func es links ∧ next.stats.removedBranches =
      work.stats.removedBranches + (links.map fun link => (trailing (work.func.codeOf link.block)).length).sum := by
  obtain ⟨es, links, isWalk, threads, linking, all, removed⟩ :=
    linearize_linking valid sameLayout sameLength sameEntry res
  have placing := linking.placing ⟨sameLayout ▸ once, sameEntry ▸ sameLayout ▸ entryLaid⟩
  exact ⟨es, links, ⟨isWalk, threads, linking, placing, placing.layout_eq all⟩, removed⟩

/-- If the entry is laid out in the end, it was so before. -/
theorem entry_laid (valid : plan.tree.Valid f entered members) (sameEntry : work.func.entry = f.entry)
    (sameLength : work.func.blocks.length = f.blocks.length) (res : plan.linearize work = .ok next)
    (laid : next.func.entry ∈ next.func.layout) : f.entry ∈ work.func.layout := by
  obtain ⟨es, isWalk, isEntered, walks⟩ := valid.walked
  obtain ⟨rest, isFirst⟩ := valid.starts walks
  obtain ⟨top, foundTop, noParent, isHeader⟩ := valid.top
  have metOnce := valid.met_nodup isEntered walks
  have inside : f.entry.index < work.func.blocks.length := by
    rw [sameLength, ← isHeader]
    exact valid.member_lt foundTop (valid.header_mem_blocks foundTop)
  unfold linearize at res
  rw [isWalk, isFirst] at res
  obtain ⟨walked, isWalked, res⟩ := bind_inv res
  cases isWalked
  obtain ⟨final, folded, rfl⟩ := bind_pure_inv res
  rw [isFirst, met_enter, met_block] at metOnce
  by_contra unlaid
  -- The first two events leave the layout alone, and no later one meets the entry.
  obtain ⟨first, entering, second, meeting, folded⟩ := bind_bind_inv folded
  have unlaidLast : final.work.func.entry = f.entry ∧ f.entry ∉ final.work.func.layout ∧
      f.entry.index < final.work.func.blocks.length := by
    refine foldlM_invariant (fun s : Chain => s.work.func.entry = f.entry ∧
      f.entry ∉ s.work.func.layout ∧ f.entry.index < s.work.func.blocks.length) folded ?_ ?_
    · obtain ⟨body, found, entering⟩ := bind_inv entering
      obtain rfl := ok_unique foundTop (expect_eq_ok.mp found)
      rw [Scope.isTopLevel, noParent] at entering
      obtain rfl := pure_inv entering
      have follows := (Chain.next_ok meeting).follows
      rw [follows.layout, follows.length, follows.entry]
      exact ⟨sameEntry, unlaid, inside⟩
    · rintro s e after mem ⟨same, absent, bounded⟩ step
      have spreads := Chain.spreads_of_acts (Chain.extend_acts le_rfl step) le_rfl
      refine ⟨spreads.entry.trans same, fun present => ?_, Nat.lt_of_lt_of_le bounded spreads.length⟩
      rcases spreads.layout _ present with old | isMet | new
      · exact absent old
      · exact (nodup_cons.mp metOnce).1 (mem_filterMap.mpr ⟨e, mem, isMet⟩)
      · omega
  exact unlaidLast.2.1 (unlaidLast.1 ▸ laid)

end Plan

end SinglePath
