import SinglePath.Program.Builder
import SinglePath.Proofs.Func.Merged

namespace SinglePath

/-- How many blocks, predicates and scopes there are. -/
structure Numbers where
  blocks : Nat
  preds : Nat
  scopes : Nat
deriving DecidableEq, Repr

namespace Numbers

/-- The next block, the next predicate and the next scope. -/
def block (numbers : Numbers) : BlockId := ⟨numbers.blocks⟩
def pred (numbers : Numbers) : PredId := ⟨numbers.preds⟩
def scope (numbers : Numbers) : ScopeId := ⟨numbers.scopes⟩

def add (numbers : Numbers) (blocks preds scopes : Nat) : Numbers :=
  ⟨numbers.blocks + blocks, numbers.preds + preds, numbers.scopes + scopes⟩

end Numbers

@[simp] theorem Numbers.blocks_add (numbers : Numbers) (blocks preds scopes : Nat) :
    (numbers.add blocks preds scopes).blocks = numbers.blocks + blocks := rfl

@[simp] theorem Numbers.scopes_add (numbers : Numbers) (blocks preds scopes : Nat) :
    (numbers.add blocks preds scopes).scopes = numbers.scopes + scopes := rfl

@[simp, grind =] theorem Numbers.index_block (numbers : Numbers) : numbers.block.index = numbers.blocks := rfl

@[simp] theorem Numbers.index_scope (numbers : Numbers) : numbers.scope.index = numbers.scopes := rfl

theorem BlockId.ne_of_lt {one o : BlockId} (isLess : one.index < o.index) : one ≠ o := by
  rintro rfl
  exact Nat.lt_irrefl _ isLess

theorem ScopeId.ne_of_lt {one o : ScopeId} (isLess : one.index < o.index) : one ≠ o := by
  rintro rfl
  exact Nat.lt_irrefl _ isLess

theorem Numbers.eq_block {numbers : Numbers} {block : BlockId} (isNext : block.index = numbers.blocks) :
    block = numbers.block :=
  congrArg BlockId.mk isNext

/-- A place in a program: a block, its predicate, and the rest of its code. -/
structure Place where
  block : BlockId
  pred : PredId
  rest : List Inst
deriving DecidableEq, Repr

/-- What a program says of its blocks and its scopes. -/
structure Text where
  code : BlockId → List Inst
  pred : BlockId → Option PredId
  scope : ScopeId → Option Scope

/-- Two branches: one that is taken if the test has failed, and one that is taken otherwise. -/
def forkCode (o next : BlockId) : List Inst := [.branchIf (.fails condReg) o, .plain (.branch next)]

/-- The statements are spelled in a scope of the given depth from one place to another. In between, the scope has the
nodes and the definitions, and the blocks, predicates and scopes from the first numbers up to the last ones are new. -/
inductive Spells (t : Text) :
    ScopeId → Nat → Numbers → Place → List Stmt → List ScopeNode → List PredDef → Place → Numbers → Prop where
  | nil {s : ScopeId} {depth : Nat} {numbers : Numbers} {place : Place} :
      Spells t s depth numbers place [] [] [] place numbers
  | simple {s : ScopeId} {depth : Nat} {first last : Numbers} {block : BlockId} {pred : PredId} {code : List Inst}
      {inst : Inst} {ss : List Stmt} {nodes : List ScopeNode} {defs : List PredDef} {final : Place}
      (later : Spells t s depth first ⟨block, pred, code⟩ ss nodes defs final last) :
      Spells t s depth first ⟨block, pred, inst :: code⟩ (.simple inst :: ss) nodes defs final last
  | ifThenElse {s : ScopeId} {depth : Nat} {first middle joined last : Numbers} {block thenExit elseExit : BlockId}
      {pred thenPred elsePred : PredId} {test : Test} {thenPart elsePart ss : List Stmt}
      {thenNodes elseNodes nodes : List ScopeNode} {thenDefs elseDefs defs : List PredDef} {final : Place}
      (thenGuard : t.pred first.block = some first.pred)
      (thenSpelt : Spells t s depth (first.add 1 1 0) ⟨first.block, first.pred, t.code first.block⟩ thenPart
        thenNodes thenDefs ⟨thenExit, thenPred, [.plain (.branch joined.block)]⟩ middle)
      (elseGuard : t.pred middle.block = some middle.pred)
      (elseSpelt : Spells t s depth (middle.add 1 1 0) ⟨middle.block, middle.pred, t.code middle.block⟩ elsePart
        elseNodes elseDefs ⟨elseExit, elsePred, [.plain (.branch joined.block)]⟩ joined)
      (joinGuard : t.pred joined.block = some pred)
      (later : Spells t s depth (joined.add 1 0 0) ⟨joined.block, pred, t.code joined.block⟩ ss nodes defs
        final last) :
      Spells t s depth first ⟨block, pred, test.inst :: forkCode middle.block first.block⟩
        (.ifThenElse test thenPart elsePart :: ss)
        (.block first.block :: thenNodes ++ .block middle.block :: elseNodes ++ .block joined.block :: nodes)
        (⟨first.pred, pred, block, first.block, some (.holds condReg)⟩ :: thenDefs ++
          ⟨middle.pred, pred, block, middle.block, some (.fails condReg)⟩ :: elseDefs ++ defs) final last
  | whileDo {s : ScopeId} {depth : Nat} {first left last : Numbers} {block bodyExit : BlockId}
      {pred bodyPred : PredId} {test : Test} {bound : Option UInt32} {body ss : List Stmt}
      {bodyNodes nodes : List ScopeNode} {bodyDefs defs : List PredDef} {final : Place}
      (headerGuard : t.pred first.block = some first.pred)
      (headerCode : t.code first.block = test.inst :: forkCode left.block (first.add 1 1 0).block)
      (bodyGuard : t.pred (first.add 1 1 0).block = some (first.add 1 1 0).pred)
      (loop : t.scope first.scope = some ⟨some s, depth + 1, first.block,
        .block first.block :: .block (first.add 1 1 0).block :: bodyNodes,
        ⟨(first.add 1 1 0).pred, first.pred, first.block, (first.add 1 1 0).block, some (.holds condReg)⟩ ::
          bodyDefs ++ [⟨first.pred, bodyPred, bodyExit, first.block, none⟩], bound⟩)
      (bodySpelt : Spells t first.scope (depth + 1) (first.add 2 2 1)
        ⟨(first.add 1 1 0).block, (first.add 1 1 0).pred, t.code (first.add 1 1 0).block⟩ body bodyNodes bodyDefs
        ⟨bodyExit, bodyPred, [.plain (.branch first.block)]⟩ left)
      (exitGuard : t.pred left.block = some left.pred)
      (later : Spells t s depth (left.add 1 1 0) ⟨left.block, left.pred, t.code left.block⟩ ss nodes defs
        final last) :
      Spells t s depth first ⟨block, pred, [.plain (.branch first.block)]⟩ (.whileDo test bound body :: ss)
        (.subscope first.scope :: .block left.block :: nodes)
        (⟨first.pred, pred, block, first.block, none⟩ ::
          ⟨left.pred, first.pred, first.block, left.block, some (.fails condReg)⟩ :: defs) final last
  | repeatUntil {s : ScopeId} {depth : Nat} {first last : Numbers} {block : BlockId} {pred : PredId} {test : Test}
      {bound : Option UInt32} {body : List Inst} {ss : List Stmt} {nodes : List ScopeNode} {defs : List PredDef}
      {final : Place}
      (headerGuard : t.pred first.block = some first.pred)
      (headerCode : t.code first.block = body ++ test.inst :: forkCode first.block (first.add 1 1 0).block)
      (loop : t.scope first.scope = some ⟨some s, depth + 1, first.block, [.block first.block],
        [⟨first.pred, first.pred, first.block, first.block, some (.fails condReg)⟩], bound⟩)
      (exitGuard : t.pred (first.add 1 1 0).block = some (first.add 1 1 0).pred)
      (later : Spells t s depth (first.add 2 2 1)
        ⟨(first.add 1 1 0).block, (first.add 1 1 0).pred, t.code (first.add 1 1 0).block⟩ ss nodes defs final last) :
      Spells t s depth first ⟨block, pred, [.plain (.branch first.block)]⟩ (.repeatUntil body test bound :: ss)
        (.subscope first.scope :: .block (first.add 1 1 0).block :: nodes)
        (⟨first.pred, pred, block, first.block, none⟩ ::
          ⟨(first.add 1 1 0).pred, first.pred, first.block, (first.add 1 1 0).block, some (.holds condReg)⟩ :: defs)
        final last

/-- There are not fewer blocks, predicates and scopes after the statements than before. -/
structure Numbers.Grow (first last : Numbers) : Prop where
  blocks : first.blocks ≤ last.blocks
  preds : first.preds ≤ last.preds
  scopes : first.scopes ≤ last.scopes

section

variable {t : Text} {s : ScopeId} {depth : Nat} {first last : Numbers} {start final : Place} {ss : List Stmt}
  {nodes : List ScopeNode} {defs : List PredDef} (spelt : Spells t s depth first start ss nodes defs final last)

include spelt

/-- Spelling statements uses up numbers. -/
theorem Spells.grow : first.Grow last := by
  induction spelt with
  | nil => exact ⟨Nat.le_refl _, Nat.le_refl _, Nat.le_refl _⟩
  | simple _ later => exact later
  | ifThenElse _ _ _ _ _ _ thenGrow elseGrow later =>
    obtain ⟨thenBlocks, thenPreds, thenScopes⟩ := thenGrow
    obtain ⟨elseBlocks, elsePreds, elseScopes⟩ := elseGrow
    obtain ⟨blocks, preds, scopes⟩ := later
    simp only [Numbers.add] at *
    exact ⟨by omega, by omega, by omega⟩
  | whileDo _ _ _ _ _ _ _ bodyGrow later =>
    obtain ⟨bodyBlocks, bodyPreds, bodyScopes⟩ := bodyGrow
    obtain ⟨blocks, preds, scopes⟩ := later
    simp only [Numbers.add] at *
    exact ⟨by omega, by omega, by omega⟩
  | repeatUntil _ _ _ _ _ later =>
    obtain ⟨blocks, preds, scopes⟩ := later
    simp only [Numbers.add] at *
    exact ⟨by omega, by omega, by omega⟩

theorem Spells.blocks_le : first.blocks ≤ last.blocks := spelt.grow.blocks

end

namespace Builder

variable {b : Builder}

def numbers (b : Builder) : Numbers :=
  ⟨b.func.blocks.length, b.tree.predCount, b.tree.scopes.length⟩

def text (b : Builder) : Text := ⟨b.func.codeOf, b.tree.blockPred, b.tree.scope?⟩

end Builder

end SinglePath
