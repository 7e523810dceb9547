import SinglePath.Proofs.Func.Derivation
import SinglePath.Proofs.Program.Added
import SinglePath.Proofs.Program.Spelling

namespace SinglePath

open BlockId Func Inst List Nat Option Stmt

variable {b : Builder} {res : GReg} {Tested : Test → Prop} {block t : BlockId}
  {ss : List Stmt} {p : Program} {Inner : Inst → Prop} {inst : Inst}

/-- A builder before any statement is added. -/
inductive Builder.Opened : Builder → Prop where
  | start (name : String) : Opened (.start name)
  | newCell {b next : Builder} {cell : CellId} (opened : Opened b) (added : b.newCell = .ok (cell, next)) : Opened next
  | asRegion {b : Builder} (opened : Opened b) : Opened b.asRegion

def Program.text (p : Program) : Text := ⟨p.func.codeOf, p.tree.blockPred, p.tree.scope?⟩

namespace Builder

/-- What is there before any statement: one block, one predicate and one scope. -/
structure Begun (b : Builder) : Prop where
  sound : b.Sound
  numbers : b.numbers = ⟨1, 1, 1⟩
  entry : b.func.entry = ⟨0⟩
  block : b.block = ⟨0⟩
  pred : b.pred = ⟨0⟩
  scope : b.scope = ScopeTree.root
  depth : b.depth = 0
  code : b.func.codeOf ⟨0⟩ = prologue frameWords
  root : b.tree.scope? ScopeTree.root = some ⟨none, 0, ⟨0⟩, [.block ⟨0⟩], [], none⟩
  guard : b.tree.blockPred ⟨0⟩ = some ⟨0⟩
  singlePath : b.tree.singlePath = true

theorem Opened.begun (opened : b.Opened) : b.Begun := by
  induction opened with
  | start name =>
    refine ⟨⟨?_, ?_, rfl, ?_⟩, rfl, rfl, rfl, rfl, rfl, rfl, rfl, rfl, rfl, rfl⟩
    · exact Nat.zero_lt_one
    · exact Nat.zero_lt_one
    · intro c isListed
      rw [mem_singleton.mp isListed]
  | newCell _ added begun =>
    obtain ⟨⟨cell, func⟩, isNew, res⟩ := bind_inv added
    obtain ⟨cells, _, counted⟩ := bind_inv isNew
    obtain ⟨rfl, rfl⟩ := Prod.mk.inj (pure_inv res)
    obtain ⟨rfl, rfl⟩ := Prod.mk.inj (pure_inv counted)
    exact ⟨⟨begun.sound.1, begun.sound.2, begun.sound.3, begun.sound.4⟩, begun.2, begun.3, begun.4, begun.5,
      begun.6, begun.7, begun.8, begun.9, begun.10, begun.11⟩
  | asRegion _ begun =>
    exact ⟨⟨begun.sound.1, begun.sound.2, begun.sound.3, begun.sound.4⟩, begun.2, begun.3, begun.4, begun.5,
      begun.6, begun.7, begun.8, begun.9, begun.10, begun.11⟩

/-- An empty region with a frame cell of its own. -/
def cellRegion (name : String) : Builder := { (start name).asRegion with func := { (start name).func with cells := 1 } }

theorem cellRegion_opened (name : String) : (cellRegion name).Opened := .asRegion (.newCell (.start name) rfl)

/-- The block takes the condition register as live on entry. -/
def withLiveIns (c : Block) : Block := { c with liveIns := [condReg] }

theorem block?_declaring (blocks : List BlockId) (f : Func) (block : BlockId) :
    (blocks.foldl (fun f block => f.modify block withLiveIns) f).block? block =
      if block ∈ blocks then (f.block? block).map withLiveIns else f.block? block := by
  induction blocks generalizing f with
  | nil => simp
  | cons first rest ih =>
    have twice : withLiveIns ∘ withLiveIns = withLiveIns := rfl
    rw [foldl_cons, ih, block?_modify]
    by_cases isFirst : block = first <;> by_cases isLater : block ∈ rest <;> simp_all

theorem declaring_fields (blocks : List BlockId) (f : Func) : ∃ contents, contents.length = f.blocks.length ∧
      blocks.foldl (fun f block => f.modify block withLiveIns) f = { f with blocks := contents } := by
  induction blocks generalizing f with
  | nil => exact ⟨f.blocks, rfl, rfl⟩
  | cons first rest ih =>
    obtain ⟨contents, size, isResult⟩ := ih (f.modify first withLiveIns)
    exact ⟨contents, by simpa [Func.modify] using size, isResult⟩

variable (f : Func)

theorem declareLive_fields :
    ∃ contents, contents.length = f.blocks.length ∧ declareLive f = { f with blocks := contents } :=
  declaring_fields f.layout f

theorem block?_declareLive (block : BlockId) : (declareLive f).block? block =
    if block ∈ f.layout then (f.block? block).map withLiveIns else f.block? block :=
  block?_declaring f.layout f block

/-- What does not show the live registers stays. -/
theorem map_declareLive {α : Type} (view : Block → α) (same : view ∘ withLiveIns = view) (block : BlockId) :
    ((declareLive f).block? block).map view = (f.block? block).map view := by
  rw [block?_declareLive]
  split
  · rw [Option.map_map, same]
  · rfl

theorem codeOf_declareLive (block : BlockId) : (declareLive f).codeOf block = f.codeOf block :=
  congrArg (·.getD []) (map_declareLive f Block.insts rfl block)

theorem succsOf_declareLive (block : BlockId) : (declareLive f).succsOf block = f.succsOf block :=
  congrArg (·.getD []) (map_declareLive f Block.succs rfl block)

theorem predsOf_declareLive (block : BlockId) : (declareLive f).predsOf block = f.predsOf block :=
  congrArg (·.getD []) (map_declareLive f Block.preds rfl block)

end Builder

/-- How a program is laid out that was built from statements: its numbers, the code of the entry after the frame setup,
the block that returns, and what the root scope has for the statements. -/
structure Outline where
  numbers : Numbers
  body : List Inst
  exit : BlockId
  exitPred : PredId
  nodes : List ScopeNode
  defs : List PredDef

variable {outline : Outline}

/-- The program is what was made of the statements, and returns the register. -/
structure Program.Finished (p : Program) (ss : List Stmt) (res : GReg) (outline : Outline) : Prop where
  entry : p.func.entry = ⟨0⟩
  size : p.func.blocks.length = outline.numbers.blocks
  scopes : p.tree.scopes.length = outline.numbers.scopes
  preds : p.tree.predCount = outline.numbers.preds
  layout : p.func.layout = (List.range outline.numbers.blocks).map BlockId.mk
  contents : ∀ c ∈ p.func.blocks, c.erased = false ∧ c.liveIns = [condReg]
  linked : p.func.Linked
  entryCode : p.func.codeOf ⟨0⟩ = prologue Builder.frameWords ++ outline.body
  spelt : Spells p.text ScopeTree.root 0 ⟨1, 1, 1⟩ ⟨⟨0⟩, ⟨0⟩, outline.body⟩ ss outline.nodes outline.defs
    ⟨outline.exit, outline.exitPred, epilogue Builder.frameWords res⟩ outline.numbers
  root : p.tree.scope? ScopeTree.root = some ⟨none, 0, ⟨0⟩, .block ⟨0⟩ :: outline.nodes, outline.defs, none⟩
  guard : p.tree.blockPred ⟨0⟩ = some ⟨0⟩
  singlePath : p.tree.singlePath = true

/-- Its edges are its branches. -/
structure Program.Built (p : Program) (ss : List Stmt) (res : GReg) (outline : Outline) : Prop extends
    p.Finished ss res outline where
  succs : ∀ block o, o ∈ p.func.succsOf block ↔
    block ∈ p.func.layout ∧ o ∈ p.func.targetsOf block

section

variable {text : Text}
  (spelt : Spells text ScopeTree.root 0 ⟨1, 1, 1⟩ ⟨⟨0⟩, ⟨0⟩, outline.body⟩ ss outline.nodes outline.defs
    ⟨outline.exit, outline.exitPred, epilogue Builder.frameWords res⟩ outline.numbers)
  (entryCode : text.code ⟨0⟩ = prologue Builder.frameWords ++ outline.body)

include spelt entryCode

/-- The code of a block of a built program: the frame setup, if it is the entry, and a segment. Only the exit
returns. -/
theorem Spells.segment_of_block (inner : ∀ inst ∈ instsAll ss, Inner inst)
    (tests : ∀ test ∈ testsAll ss, Tested test) (inside : block.index < outline.numbers.blocks) :
    ∃ before code, text.code block = before ++ code ∧ (before = [] ∨ before = prologue Builder.frameWords) ∧
      Segment Inner Tested outline.numbers.blocks
        (fun code => outline.exit = block ∧ code = epilogue Builder.frameWords res) code := by
  obtain ⟨atEntry, inside'⟩ := spelt.segments inner tests le_rfl
  obtain ⟨_ | index⟩ := block
  · exact ⟨_, _, entryCode, .inr rfl, atEntry⟩
  · exact ⟨[], _, rfl, .inl rfl, inside' ⟨index + 1⟩ (by simp) inside⟩

/-- What holds of the frame setup, the return, the tests, the branches and the instructions of the statements holds of
all code. -/
theorem Spells.forall_code {Good : Inst → Prop} (setup : ∀ inst ∈ prologue Builder.frameWords, Good inst)
    (closing : ∀ inst ∈ epilogue Builder.frameWords res, Good inst) (tests : ∀ test ∈ testsAll ss, Good test.inst)
    (branches : ∀ t : BlockId, t.index < outline.numbers.blocks →
      Good (.plain (.branch t)) ∧ Good (.branchIf (.fails condReg) t))
    (own : ∀ inst ∈ instsAll ss, Good inst) (inside : block.index < outline.numbers.blocks) :
    ∀ inst ∈ text.code block, Good inst := by
  obtain ⟨before, code, isCode, isBefore, segment⟩ := spelt.segment_of_block entryCode own tests inside
  rw [isCode, forall_mem_append]
  refine ⟨?_, segment.forall_mem (fun _ => id) (fun _ => id) branches fun code isLast => ?_⟩
  · rcases isBefore with rfl | rfl
    · simp
    · exact setup
  · rw [isLast.2]
    exact closing

/-- Branches of a built program lead to its blocks. -/
theorem Spells.target_lt (plain : StraightLine (instsAll ss))
    (inside : block.index < outline.numbers.blocks) : ∀ inst ∈ text.code block, ∀ t,
      inst.branchTarget = some t → t.index < outline.numbers.blocks := by
  refine spelt.forall_code entryCode ?_ ?_ (fun test _ t isTarget => nomatch isTarget) (fun t below => ?_) ?_ inside
  · simp [prologue, setup, branchTarget]
  · simp [epilogue, setup, Inst.plain, branchTarget]
  · constructor <;> (rintro o ⟨⟩; exact below)
  · intro inst listed t isTarget
    have isPlain := plain inst listed
    simp [isTerminator, isBranch, isTarget] at isPlain

end

theorem Segment.fallsThrough_eq {limit : Nat} {before code : List Inst} {c : Block}
    (segment : Segment Inner Tested limit (fun code => outline.exit = block ∧
      code = epilogue Builder.frameWords res) code)
    (isCode : c.insts = before ++ code) : c.fallsThrough = false := by
  unfold Block.fallsThrough
  rcases segment.closes with ⟨rest, ⟨_, rfl⟩, ⟨more, isMore⟩⟩ | ⟨t, isBranch⟩
  · have returns : c.insts.getLast? = some (.plain (.ret res)) := by
      rw [isCode, ← isMore]
      simp [epilogue]
    simp [returns, isReturn, plain]
  · have always : c.insts.any (fun inst => inst.isBranch && inst.guard.isAlways) = true :=
      any_eq_true.mpr ⟨_, isCode ▸ mem_append_right _ isBranch, rfl⟩
    simp [always]

theorem Func.mem_layout_iff {f : Func} {size : Nat} (layout : f.layout = (range size).map BlockId.mk)
    : block ∈ f.layout ↔ block.index < size := by
  obtain ⟨index⟩ := block
  simp [layout]

namespace Builder

/-- The builder after all statements and the return. -/
def complete (b : Builder) (ss : List Stmt) (res : GReg) : Builder :=
  (b.addAll ss).push (b.addAll ss).block (epilogue frameWords res)

/-- What the complete builder spells. -/
structure Completed (b : Builder) (ss : List Stmt) (res : GReg) (outline : Outline) : Prop where
  numbers : (b.complete ss res).numbers = outline.numbers
  sound : (b.complete ss res).Sound
  frame : b.SameFrame (b.complete ss res)
  entryCode : (b.complete ss res).func.codeOf ⟨0⟩ = prologue frameWords ++ outline.body
  spelt : Spells (b.complete ss res).text ScopeTree.root 0 ⟨1, 1, 1⟩ ⟨⟨0⟩, ⟨0⟩, outline.body⟩ ss outline.nodes
    outline.defs ⟨outline.exit, outline.exitPred, epilogue frameWords res⟩ outline.numbers
  root : (b.complete ss res).tree.scope? ScopeTree.root =
    some ⟨none, 0, ⟨0⟩, .block ⟨0⟩ :: outline.nodes, outline.defs, none⟩
  guard : (b.complete ss res).tree.blockPred ⟨0⟩ = some ⟨0⟩

theorem Begun.completed (begun : b.Begun) (ss : List Stmt) (res : GReg) : ∃ outline, Completed b ss res outline := by
  obtain ⟨growth, adds⟩ := adds_addAll ss begun.sound
  obtain ⟨nodes, defs, isRoot, spelt⟩ := adds.spelt
  have pushes := grown_push (b.addAll ss) (epilogue frameWords res) adds.sound.block
  have code (block : BlockId) : (b.complete ss res).func.codeOf block =
      b.func.codeOf block ++ growth.through (b.addAll ss).block (epilogue frameWords res) block := by
    rw [complete, pushes.code, adds.grown.code, append_assoc]
    rfl
  have has : Has (b.complete ss res).text growth b.numbers (b.addAll ss).numbers
      (b.addAll ss).block (epilogue frameWords res) := {
    code block isNew _ := (code block).trans (by rw [codeOf_of_le b isNew, nil_append])
    guard block pred _ _ isPred := (adds.grown.guard block).trans (by rw [isPred]; rfl)
    scope scope isNew _ := (adds.grown.scope scope).trans (by rw [ScopeTree.scope?, getElem?_eq_none isNew]) }
  obtain ⟨body, isBody, spelled⟩ := spelt _ _ has
  rw [begun.block] at isBody
  rw [begun.block, begun.pred, begun.scope, begun.depth, begun.numbers] at spelled
  refine ⟨⟨(b.addAll ss).numbers, body, (b.addAll ss).block, (b.addAll ss).pred, nodes, defs⟩,
    numbers_push _ _ _, adds.sound.push _ _, adds.grown.frame.trans pushes.frame, ?_, spelled, ?_, ?_⟩
  · rw [code, begun.code, isBody]
  · have isRoot' := (adds.grown.scope ScopeTree.root)
    rw [begun.scope] at isRoot
    rw [isRoot, begun.root] at isRoot'
    exact isRoot'
  · have guard := adds.grown.guard ⟨0⟩
    rwa [adds.guards _ (.inl (by simp [begun.numbers])), begun.guard] at guard

theorem Completed.explicit (completed : Completed b ss res outline)
    (plain : StraightLine (instsAll ss)) : (b.complete ss res).func.Explicit := by
  have inside {block : BlockId} : block ∈ (b.complete ss res).func.layout ↔ block.index < outline.numbers.blocks :=
    mem_layout_iff (completed.numbers ▸ completed.sound.layout)
  have found {block : BlockId} (isInside : block.index < outline.numbers.blocks) :
      ∃ c, (b.complete ss res).func.block? block = some c := by
    rw [← completed.numbers] at isInside
    exact ⟨_, getElem?_eq_getElem isInside⟩
  have tests : ∀ test ∈ testsAll ss, True := fun _ _ => trivial
  refine ⟨fun block isLaid => found (inside.mp isLaid), fun block isLaid t isTarget => found ?_,
    fun block isLaid c isContent => ?_⟩
  · obtain ⟨inst, isInst, branches⟩ := mem_filterMap.mp isTarget
    exact completed.spelt.target_lt completed.entryCode plain (inside.mp isLaid) inst isInst t branches
  · obtain ⟨before, code, isCode, _, segment⟩ :=
      completed.spelt.segment_of_block completed.entryCode plain tests (inside.mp isLaid)
    exact segment.fallsThrough_eq ((codeOf_eq isContent).symm.trans isCode)

theorem finish_eq_ok : b.finish ss res = .ok p ↔ ∃ derived, (b.complete ss res).func.deriveEdges = .ok derived ∧
      ⟨declareLive derived, (b.complete ss res).tree⟩ = p := by
  change (do
    let f ← (b.complete ss res).func.deriveEdges
    return (⟨declareLive f, (b.complete ss res).tree⟩ : Program)) = _ ↔ _
  exact bind_pure_eq_ok

theorem Completed.finished {derived : Func} (completed : Completed b ss res outline) (begun : b.Begun)
    (isDerived : (b.complete ss res).func.deriveEdges = .ok derived) :
    Program.Finished ⟨declareLive derived, (b.complete ss res).tree⟩ ss res outline := by
  obtain ⟨same, links⟩ := deriveEdges_ok isDerived
  obtain ⟨contents, size, fields⟩ := declareLive_fields derived
  have code (block : BlockId) : (declareLive derived).codeOf block = (b.complete ss res).func.codeOf block := by
    rw [codeOf_declareLive, codeOf_of_sameButEdges same]
  have layout : (declareLive derived).layout = (range outline.numbers.blocks).map BlockId.mk := by
    rw [fields, ← completed.numbers, ← completed.sound.layout]
    exact same.layout.symm
  have isSize : (declareLive derived).blocks.length = outline.numbers.blocks := by
    rw [← completed.numbers, fields]
    exact size.trans same.blocks.symm
  exact {
    entry := by
      rw [← begun.entry, ← completed.frame.entry, same.entry, fields]
    size := isSize
    scopes := congrArg Numbers.scopes completed.numbers
    preds := congrArg Numbers.preds completed.numbers
    layout
    contents := by
      intro c isListed
      obtain ⟨i, isContent⟩ := getElem?_of_mem isListed
      have found : (declareLive derived).block? ⟨i⟩ = some c := isContent
      have inside : (⟨i⟩ : BlockId) ∈ derived.layout := by
        have isLess := lt_length isContent
        have isLaid : (⟨i⟩ : BlockId) ∈ (declareLive derived).layout :=
          (mem_layout_iff layout).mpr (isSize ▸ isLess)
        rwa [fields] at isLaid
      rw [block?_declareLive, if_pos inside] at found
      obtain ⟨old, isOld, rfl⟩ := map_eq_some_iff.mp found
      obtain ⟨counterpart, isCounterpart, equal⟩ := SameButEdges.found same.symm isOld
      exact ⟨(congrArg (·.erased) equal).trans (completed.sound.whole _ (mem_of_getElem? isCounterpart)), rfl⟩
    linked := by
      obtain ⟨ends, succsOnce, predsOnce⟩ := links.linked
      constructor <;> simpa only [succsOf_declareLive, predsOf_declareLive]
    entryCode := (code _).trans completed.entryCode
    spelt := by
      have sameText : (⟨declareLive derived, (b.complete ss res).tree⟩ : Program).text =
          (b.complete ss res).text := by
        simp only [Program.text, text, Text.mk.injEq, and_true]
        exact funext code
      rw [sameText]
      exact completed.spelt
    root := completed.root
    guard := completed.guard
    singlePath := completed.frame.singlePath.trans begun.singlePath }

/-- A program is finished if its statements have no branches and returns of their own. -/
theorem Opened.finish_built (opened : b.Opened) (plain : StraightLine (instsAll ss))
    (res : GReg) : ∃ p outline, b.finish ss res = .ok p ∧ p.Built ss res outline ∧
      p.func.cells = b.func.cells ∧ p.tree.wholeFunction = b.tree.wholeFunction := by
  obtain ⟨outline, completed⟩ := opened.begun.completed ss res
  obtain ⟨derived, isDerived, edges⟩ := (completed.explicit plain).deriveEdges
  obtain ⟨same, _⟩ := deriveEdges_ok isDerived
  obtain ⟨contents, _, fields⟩ := declareLive_fields derived
  refine ⟨_, outline, finish_eq_ok.mpr ⟨derived, isDerived, rfl⟩,
    ⟨completed.finished opened.begun isDerived, ?_⟩, ?_, ?_⟩
  · intro block o
    rw [succsOf_declareLive, edges, same.layout, targetsOf, targetsOf, codeOf_declareLive,
      codeOf_of_sameButEdges same, fields]
  · rw [← completed.frame.cells, fields]
    exact (congrArg (·.cells) same).symm
  · exact completed.frame.wholeFunction

end Builder

namespace Program

theorem Finished.found (built : p.Finished ss res outline)
    (inside : block.index < outline.numbers.blocks) : ∃ c, p.func.block? block = some c :=
  ⟨_, getElem?_eq_getElem (built.size ▸ inside)⟩

variable (built : p.Built ss res outline) (plain : StraightLine (instsAll ss))

include built plain

theorem Built.segment (inside : block.index < outline.numbers.blocks) : ∃ before code,
    p.func.codeOf block = before ++ code ∧ (before = [] ∨ before = prologue Builder.frameWords) ∧
      Segment (fun inst => inst.isTerminator = false) (fun _ => True) outline.numbers.blocks
        (fun code => outline.exit = block ∧ code = epilogue Builder.frameWords res) code :=
  built.spelt.segment_of_block built.entryCode plain (fun _ _ => trivial) inside

theorem Built.laid : p.func.Laid where
  once := by
    rw [built.layout]
    exact Pairwise.map _ (fun one o ne same => ne (BlockId.mk.inj same)) nodup_range
  found block inside := built.found ((mem_layout_iff built.layout).mp inside)
  targets block inside inst isInst t branches := (mem_layout_iff built.layout).mpr
      (built.spelt.target_lt built.entryCode plain ((mem_layout_iff built.layout).mp inside) inst isInst t branches)
  entered := by
    rw [built.entry, mem_layout_iff built.layout]
    exact Nat.lt_of_lt_of_le Nat.zero_lt_one built.spelt.blocks_le

end Program

end SinglePath
