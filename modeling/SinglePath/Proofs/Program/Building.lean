import SinglePath.Proofs.Program.Spelled

/-!
What the steps of a builder do to the code of the blocks, to their predicates and to the scopes.
-/

namespace SinglePath

open Func List Nat Numbers Option Scope ScopeTree Table

/-- The scope with more nodes and definitions. -/
def Scope.more (scope : Scope) (nodes : List ScopeNode) (defs : List PredDef) : Scope :=
  { scope with nodes := scope.nodes ++ nodes, defs := scope.defs ++ defs }

@[simp] theorem Scope.more_nil (scope : Scope) : scope.more [] [] = scope := by simp [more]

@[simp] theorem Scope.more_more (scope : Scope) (nodes others : List ScopeNode) (defs more : List PredDef) :
    (scope.more nodes defs).more others more = scope.more (nodes ++ others) (defs ++ more) := by
  simp [Scope.more]

theorem ScopeTree.scope?_modify (tree : ScopeTree) (scope o : ScopeId) (change : Scope → Scope) :
    (tree.modify scope change).scope? o = if o = scope then (tree.scope? o).map change else tree.scope? o := by
  obtain ⟨index⟩ := scope
  obtain ⟨place⟩ := o
  simp only [scope?, modify, getElem?_modify, ScopeId.mk.injEq, eq_comm (a := place)]
  split <;> simp_all

/-- Opening a loop adds its scope and lists it in the parent. -/
theorem ScopeTree.scope?_openLoop (tree : ScopeTree) {parent : ScopeId} (known : parent.index < tree.scopes.length)
    (depth : Nat) (header : BlockId) (bound : Option UInt32) (o : ScopeId) :
    (tree.openLoop parent depth header bound).2.scope? o =
      if o = ⟨tree.scopes.length⟩ then some ⟨some parent, depth + 1, header, [.block header], [], bound⟩
      else if o = parent then
        (tree.scope? o).map fun body => { body with nodes := body.nodes ++ [.subscope ⟨tree.scopes.length⟩] }
      else tree.scope? o := by
  obtain ⟨place⟩ := o
  obtain ⟨index⟩ := parent
  simp only [openLoop, addNode, scope?_modify]
  simp only [scope?, ScopeId.mk.injEq] at known ⊢
  rcases Nat.lt_trichotomy place tree.scopes.length with before | rfl | after
  · rw [getElem?_append_left before, if_neg (by omega : ¬ place = tree.scopes.length)]
  · rw [if_neg (by omega), if_pos rfl]
    simp
  · rw [if_neg (by omega), if_neg (by omega), if_neg (by omega), getElem?_eq_none (by simp; omega),
      getElem?_eq_none (by omega)]

namespace Builder

variable {first middle last : Builder}

/-- The current block and the current scope are there, and the blocks are laid out by their numbers. -/
structure Sound (b : Builder) : Prop where
  block : b.block.index < b.numbers.blocks
  scope : b.scope.index < b.numbers.scopes
  layout : b.func.layout = (List.range b.numbers.blocks).map BlockId.mk
  whole : ∀ body ∈ b.func.blocks, body.erased = false

/-- What no statement changes: the entry, the cells, and what kind of program it is. -/
structure SameFrame (first last : Builder) : Prop where
  entry : last.func.entry = first.func.entry
  cells : last.func.cells = first.func.cells
  singlePath : last.tree.singlePath = first.tree.singlePath
  wholeFunction : last.tree.wholeFunction = first.tree.wholeFunction

theorem SameFrame.refl (b : Builder) : b.SameFrame b := ⟨rfl, rfl, rfl, rfl⟩

theorem SameFrame.trans (one : first.SameFrame middle) (two : middle.SameFrame last) : first.SameFrame last :=
  ⟨two.entry.trans one.entry, two.cells.trans one.cells, two.singlePath.trans one.singlePath,
    two.wholeFunction.trans one.wholeFunction⟩

/-- What is added to a program: code at the end of blocks, the predicates of new blocks, and how scopes change. -/
structure Growth where
  code : BlockId → List Inst
  guard : BlockId → Option PredId
  scope : ScopeId → Option Scope → Option Scope

variable {growth : Growth}

namespace Growth

@[simp] def pushed (block : BlockId) (insts : List Inst) : Growth :=
  ⟨fun o => if o = block then insts else [], fun _ => none, fun _ => id⟩

@[simp] def guarded (block : BlockId) (pred : PredId) : Growth :=
  ⟨fun _ => [], fun o => if o = block then some pred else none, fun _ => id⟩

@[simp] def changed (scope : ScopeId) (change : Option Scope → Option Scope) : Growth :=
  ⟨fun _ => [], fun _ => none, fun o => if o = scope then change else id⟩

/-- A scope gets more nodes and definitions. -/
@[simp] def listed (scope : ScopeId) (nodes : List ScopeNode) (defs : List PredDef) : Growth :=
  changed scope (Option.map (·.more nodes defs))

/-- First the one and then the other. -/
@[simp] def plus (first second : Growth) : Growth :=
  ⟨fun block => first.code block ++ second.code block, fun block => (second.guard block).or (first.guard block),
    fun scope => second.scope scope ∘ first.scope scope⟩

end Growth

open Growth

theorem blockPred_setBlockPred (tree : ScopeTree) (block : BlockId) (pred : PredId) (o : BlockId) :
    (tree.setBlockPred block pred).blockPred o = ((guarded block pred).guard o).or (tree.blockPred o) := by
  simp only [setBlockPred, blockPred, get?_insert, guarded]
  split <;> rfl

/-- From one builder to the other this much has been added. -/
structure Grown (first last : Builder) (growth : Growth) : Prop where
  code : ∀ block, last.func.codeOf block = first.func.codeOf block ++ growth.code block
  guard : ∀ block, last.tree.blockPred block = (growth.guard block).or (first.tree.blockPred block)
  scope : ∀ scope, last.tree.scope? scope = growth.scope scope (first.tree.scope? scope)
  frame : first.SameFrame last

/-- Growth adds up. -/
theorem Grown.trans {more : Growth} (one : Grown first middle growth)
    (two : Grown middle last more) : Grown first last (growth.plus more) where
  code block := by simp [two.code, one.code]
  guard block := by simp [two.guard, one.guard, Option.or_assoc]
  scope scope := by simp [two.scope, one.scope]
  frame := one.frame.trans two.frame

theorem Grown.goTo (grown : Grown first last growth) (scope : ScopeId) (depth : Nat) :
    Grown first { last with scope := scope, depth := depth } growth :=
  ⟨grown.code, grown.guard, grown.scope, ⟨grown.frame.1, grown.frame.2, grown.frame.3, grown.frame.4⟩⟩

variable (b : Builder) (block u : BlockId) (insts : List Inst) (guard : PredId) (cond : Cond)
  (bound : Option UInt32)

@[simp] theorem block_push : (b.push block insts).block = b.block := rfl
@[simp] theorem pred_push : (b.push block insts).pred = b.pred := rfl
@[simp] theorem scope_push : (b.push block insts).scope = b.scope := rfl
@[simp] theorem depth_push : (b.push block insts).depth = b.depth := rfl

@[simp] theorem numbers_push : (b.push block insts).numbers = b.numbers := by
  simp [numbers, push, Func.modify]

/-- Pushing instructions grows the code of one block. -/
theorem grown_push {block : BlockId} (inside : block.index < b.numbers.blocks) :
    Grown b (b.push block insts) (pushed block insts) where
  code o := by
    simp only [push, codeOf_modify, pushed]
    split
    · rename_i same
      subst same
      have got := getElem?_eq_getElem (show o.index < b.func.blocks.length from inside)
      simp [block?, codeOf, got, Block.append]
    · rw [append_nil]
  guard _ := rfl
  scope _ := rfl
  frame := ⟨rfl, rfl, rfl, rfl⟩

theorem codeOf_of_le {block : BlockId} (isNew : b.numbers.blocks ≤ block.index) : b.func.codeOf block = [] := by
  have missing : b.func.block? block = none := getElem?_eq_none isNew
  simp [codeOf, missing]

theorem codeOf_addBlock (o : BlockId) : (b.addBlock guard).2.func.codeOf o = b.func.codeOf o := by
  obtain ⟨index⟩ := o
  simp only [addBlock, Func.addBlock, codeOf, block?]
  rcases Nat.lt_trichotomy index b.func.blocks.length with before | rfl | after
  · rw [getElem?_append_left before]
  · simp
  · rw [getElem?_eq_none (by simp; omega), getElem?_eq_none (by omega)]

/-- A new block with a new predicate and its definition. -/
def branched (b : Builder) (u : BlockId) (guard : PredId) (cond : Cond) : Growth :=
  (guarded b.numbers.block b.numbers.pred).plus
    (listed b.scope [.block b.numbers.block] [⟨b.numbers.pred, guard, u, b.numbers.block, some cond⟩])

@[simp] theorem fst_openBranch : (b.openBranch u guard cond).1 = b.numbers.block := rfl
@[simp] theorem numbers_openBranch : (b.openBranch u guard cond).2.numbers = b.numbers.add 1 1 0 := by
  simp [numbers, openBranch, newPred, ScopeTree.newPred, addMember, addBlock, Func.addBlock, addDef, moveTo,
    setBlockPred, addNode, pushDef, ScopeTree.modify, Numbers.add]

@[simp] theorem block_openBranch : (b.openBranch u guard cond).2.block = b.numbers.block := rfl
@[simp] theorem pred_openBranch : (b.openBranch u guard cond).2.pred = b.numbers.pred := rfl
@[simp] theorem scope_openBranch : (b.openBranch u guard cond).2.scope = b.scope := rfl
@[simp] theorem depth_openBranch : (b.openBranch u guard cond).2.depth = b.depth := rfl

/-- Opening a branch grows a block with its predicate and definition. -/
theorem grown_openBranch : Grown b (b.openBranch u guard cond).2 (b.branched u guard cond) where
  code block := (codeOf_addBlock (b.newPred).2 (b.newPred).1 block).trans (append_nil _).symm
  guard block := by
    simp only [branched, plus, listed, changed, none_or]
    exact blockPred_setBlockPred b.tree _ _ block
  scope scope := by
    change (((_ : ScopeTree).addNode b.scope _).pushDef b.scope _).scope? scope = _
    simp only [pushDef, addNode, scope?_modify, branched, plus, guarded, listed, changed, Function.comp_id]
    split
    · rw [Option.map_map]
      rfl
    · rfl
  frame := ⟨rfl, rfl, rfl, rfl⟩

/-- A new block under a given predicate, at which the builder goes on. -/
def join (b : Builder) (guard : PredId) : Builder :=
  (b.addMember b.scope guard).2.moveTo (b.addMember b.scope guard).1 guard

@[simp] theorem numbers_join : (b.join guard).numbers = b.numbers.add 1 0 0 := by
  simp [numbers, join, addMember, addBlock, Func.addBlock, moveTo, setBlockPred, addNode,
    ScopeTree.modify, Numbers.add]

/-- Joining grows a block under the guard before the branch. -/
theorem grown_join : Grown b (b.join guard)
    ((guarded b.numbers.block guard).plus (listed b.scope [.block b.numbers.block] [])) where
  code block := (codeOf_addBlock b guard block).trans (append_nil _).symm
  guard block := by
    simp only [plus, listed, changed, none_or]
    exact blockPred_setBlockPred b.tree _ _ block
  scope scope := by
    change ((_ : ScopeTree).addNode b.scope _).scope? scope = _
    simp only [addNode, scope?_modify, plus, guarded, listed, changed, more, append_nil, Function.comp_id]
    split <;> rfl
  frame := ⟨rfl, rfl, rfl, rfl⟩

@[simp] theorem numbers_openLoop : (b.openLoop bound).numbers = b.numbers.add 1 1 1 := by
  simp [numbers, openLoop, newPred, ScopeTree.newPred, addBlock, Func.addBlock, addDef, push, Func.modify,
    setBlockPred, addNode, pushDef, ScopeTree.modify, ScopeTree.openLoop, Numbers.add]

@[simp] theorem scope_openLoop : (b.openLoop bound).scope = b.numbers.scope := by
  simp [openLoop, newPred, ScopeTree.newPred, addBlock, addDef, push, setBlockPred, pushDef,
    ScopeTree.modify, ScopeTree.openLoop, Numbers.scope, numbers]

/-- The current block jumps to the header of a new loop in the current scope. -/
def entered (b : Builder) (bound : Option UInt32) : Growth :=
  ((pushed b.block [.plain (.branch b.numbers.block)]).plus
    (guarded b.numbers.block b.numbers.pred)).plus
    ((listed b.scope [.subscope b.numbers.scope]
      [⟨b.numbers.pred, b.pred, b.block, b.numbers.block, none⟩]).plus
      (changed b.numbers.scope fun _ =>
        some ⟨some b.scope, b.depth + 1, b.numbers.block, [.block b.numbers.block], [], bound⟩))

/-- Opening a loop grows its scope, its header and its predicate. -/
theorem grown_openLoop (sound : b.Sound) : Grown b (b.openLoop bound) (b.entered bound) where
  code block := by
    have same := codeOf_addBlock (b.newPred).2 (b.newPred).1
    have inside : b.block.index < ((b.newPred).2.addBlock (b.newPred).1).2.numbers.blocks := by
      have known := sound.block
      simp only [numbers, newPred, addBlock, Func.addBlock, length_append] at known ⊢
      omega
    have pushes := (grown_push ((b.newPred).2.addBlock (b.newPred).1).2
      [.plain (.branch b.numbers.block)] inside).code block
    rw [same] at pushes
    simp only [entered, plus, guarded, listed, changed, append_nil]
    exact pushes
  guard block := by
    simp only [entered, plus, pushed, listed, changed, none_or, or_none]
    exact blockPred_setBlockPred b.tree _ _ block
  scope scope := by
    have known : b.scope.index < b.tree.scopes.length := sound.scope
    let defined := b.tree.pushDef b.scope ⟨b.numbers.pred, b.pred, b.block, b.numbers.block, none⟩
    have length : defined.scopes.length = b.tree.scopes.length := by
      simp [defined, pushDef, ScopeTree.modify]
    have opened : (b.openLoop bound).tree.scope? scope =
        (defined.openLoop b.scope b.depth b.numbers.block bound).2.scope? scope := rfl
    have isScope : (⟨b.tree.scopes.length⟩ : ScopeId) = b.numbers.scope := rfl
    rw [opened, scope?_openLoop _ (length ▸ known), length, isScope]
    simp only [defined, pushDef, scope?_modify, entered, plus, pushed, guarded, listed, changed, Function.comp_id]
    by_cases isNew : scope = b.numbers.scope
    · simp [isNew]
    by_cases isCurrent : scope = b.scope
    · simp only [if_neg isNew, if_pos isCurrent, Option.map_map]
      rfl
    · simp [isNew, isCurrent]
  frame := ⟨rfl, rfl, rfl, rfl⟩

@[simp] theorem numbers_addDef (scope : ScopeId) (defn : PredDef) : (b.addDef scope defn).numbers = b.numbers := by
  simp [numbers, addDef, pushDef, ScopeTree.modify]

theorem grown_addDef (scope : ScopeId) (defn : PredDef) : Grown b (b.addDef scope defn) (listed scope [] [defn]) where
  code _ := (append_nil _).symm
  guard _ := rfl
  scope o := by
    simp only [addDef, pushDef, scope?_modify, listed, changed, more, append_nil]
    split <;> rfl
  frame := ⟨rfl, rfl, rfl, rfl⟩

theorem Sound.push {b : Builder} (sound : b.Sound) (block : BlockId) (insts : List Inst) :
    (b.push block insts).Sound where
  block := by simpa using sound.block
  scope := by simpa using sound.scope
  layout := by
    rw [numbers_push, ← sound.layout]
    rfl
  whole body isListed := by
    obtain ⟨i, isContent⟩ := getElem?_of_mem isListed
    have got : (b.func.modify block (·.append insts)).block? ⟨i⟩ = some body := isContent
    rw [block?_modify] at got
    split at got
    · obtain ⟨old, isOld, rfl⟩ := map_eq_some_iff.mp got
      exact sound.whole old (mem_of_getElem? isOld)
    · exact sound.whole body (mem_of_getElem? got)

theorem Sound.openBranch {b : Builder} (sound : b.Sound) (u : BlockId) (guard : PredId) (cond : Cond) :
    (b.openBranch u guard cond).2.Sound where
  block := by
    rw [numbers_openBranch]
    exact lt_succ_self _
  scope := by
    rw [numbers_openBranch]
    exact sound.scope
  layout := by
    rw [numbers_openBranch, blocks_add, range_succ, map_append, ← sound.layout]
    rfl
  whole body isListed := by
    rcases mem_append.mp isListed with isOld | isNew
    · exact sound.whole body isOld
    · rw [mem_singleton.mp isNew]

theorem Sound.join {b : Builder} (sound : b.Sound) (guard : PredId) : (b.join guard).Sound where
  block := by
    rw [numbers_join]
    exact lt_succ_self _
  scope := by
    rw [numbers_join]
    exact sound.scope
  layout := by
    rw [numbers_join, blocks_add, range_succ, map_append, ← sound.layout]
    rfl
  whole := (sound.openBranch b.block guard .always).whole

/-- Opening a loop keeps the builder sound. -/
theorem Sound.openLoop {b : Builder} (sound : b.Sound) (bound : Option UInt32) : (b.openLoop bound).Sound where
  block := by
    rw [numbers_openLoop]
    exact lt_succ_self _
  scope := by
    rw [numbers_openLoop, scope_openLoop]
    exact lt_succ_self _
  layout := by
    rw [numbers_openLoop, blocks_add, range_succ, map_append, ← sound.layout]
    rfl
  whole body isListed := by
    have pushed := (openBranch sound b.block b.pred .always).push b.block [.plain (.branch b.numbers.block)]
    exact pushed.whole body isListed

theorem Sound.goTo {b : Builder} (sound : b.Sound) {scope : ScopeId} (inside : scope.index < b.numbers.scopes)
    (depth : Nat) : Sound { b with scope := scope, depth := depth } :=
  ⟨sound.block, inside, sound.layout, sound.whole⟩

theorem Sound.addDef {b : Builder} (sound : b.Sound) (scope : ScopeId) (defn : PredDef) :
    (b.addDef scope defn).Sound := by
  refine ⟨?_, ?_, ?_, sound.whole⟩ <;> rw [numbers_addDef]
  · exact sound.block
  · exact sound.scope
  · exact sound.layout

end Builder

end SinglePath
