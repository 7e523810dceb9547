import SinglePath.Proofs.Program.Building

namespace SinglePath

open BlockId List Nat Numbers ScopeId Spells

variable {ss others : List Stmt}

/-- Statements are spelled one after the other. -/
theorem Spells.append {t : Text} {scope : ScopeId} {depth : Nat} {first middle last : Numbers}
    {start between final : Place}
    {nodes moreNodes : List ScopeNode} {defs moreDefs : List PredDef}
    (spelt : Spells t scope depth first start ss nodes defs between middle)
    (more : Spells t scope depth middle between others moreNodes moreDefs final last) :
    Spells t scope depth first start (ss ++ others) (nodes ++ moreNodes) (defs ++ moreDefs) final last := by
  induction spelt with
  | nil => exact more
  | simple _ ih => exact .simple (ih more)
  | ifThenElse thenGuard thenSpelt elseGuard elseSpelt joinGuard _ _ _ ih =>
    simpa using ifThenElse thenGuard thenSpelt elseGuard elseSpelt joinGuard (ih more)
  | whileDo headerGuard headerCode bodyGuard loop bodySpelt exitGuard _ _ ih =>
    simpa using whileDo headerGuard headerCode bodyGuard loop bodySpelt exitGuard (ih more)
  | repeatUntil headerGuard headerCode loop exitGuard _ ih =>
    simpa using repeatUntil headerGuard headerCode loop exitGuard (ih more)

namespace Builder

open Growth

variable {b : Builder}

/-- The code that a block gets, where the code of the final block goes on. -/
def Growth.through (growth : Growth) (final : BlockId) (rest : List Inst) (block : BlockId) : List Inst :=
  growth.code block ++ if block = final then rest else []

/-- The text has all that is new, and the code of the final block goes on. -/
structure Has (t : Text) (growth : Growth) (first last : Numbers) (final : BlockId) (rest : List Inst) : Prop where
  code : ∀ block : BlockId, first.blocks ≤ block.index → block.index < last.blocks →
    t.code block = growth.through final rest block
  guard : ∀ (block : BlockId) pred, first.blocks ≤ block.index → block.index < last.blocks →
    growth.guard block = some pred →
    t.pred block = some pred
  scope : ∀ scope : ScopeId, first.scopes ≤ scope.index → scope.index < last.scopes →
    t.scope scope = growth.scope scope none

/-- The builder has grown. Of the blocks and scopes that were there, only the given blocks and the current scope have
changed. -/
structure Extends (first last : Builder) (changed : List BlockId) (growth : Growth) : Prop where
  grown : Grown first last growth
  sound : last.Sound
  scope : last.scope = first.scope
  depth : last.depth = first.depth
  blocks : first.numbers.blocks ≤ last.numbers.blocks
  scopes : first.numbers.scopes ≤ last.numbers.scopes
  code : ∀ block : BlockId, block ∉ changed → block.index < first.numbers.blocks ∨ last.numbers.blocks ≤ block.index →
    growth.code block = []
  guards : ∀ block : BlockId, block.index < first.numbers.blocks ∨ last.numbers.blocks ≤ block.index →
    growth.guard block = none
  others : ∀ o : ScopeId, o ≠ first.scope → o.index < first.numbers.scopes ∨ last.numbers.scopes ≤ o.index →
    growth.scope o = id

/-- The statements have been added, and are spelled in every text that has what is new. -/
structure Adds (first last : Builder) (ss : List Stmt) (growth : Growth) : Prop
    extends Extends first last [first.block] growth where
  block : last.block = first.block ∨ first.numbers.blocks ≤ last.block.index
  spelt : ∃ nodes defs, growth.scope first.scope = Option.map (·.more nodes defs) ∧
    ∀ t rest, Has t growth first.numbers last.numbers last.block rest →
      ∃ code, growth.through last.block rest first.block = code ∧
        Spells t first.scope first.depth first.numbers ⟨first.block, first.pred, code⟩ ss nodes defs
          ⟨last.block, last.pred, rest⟩ last.numbers

/-- A branch has been opened and has got the statements, which are spelled from its first instruction. -/
structure Opens (first last : Builder) (u : BlockId) (guard : PredId) (cond : Cond) (ss : List Stmt)
    (growth : Growth) : Prop extends Extends first last [] growth where
  block : first.numbers.blocks ≤ last.block.index
  spelt : ∃ nodes defs, growth.scope first.scope = Option.map (·.more (.block first.numbers.block :: nodes)
      (⟨first.numbers.pred, guard, u, first.numbers.block, some cond⟩ :: defs)) ∧
    ∀ t rest, Has t growth first.numbers last.numbers last.block rest →
      t.pred first.numbers.block = some first.numbers.pred ∧
      Spells t first.scope first.depth (first.numbers.add 1 1 0)
        ⟨first.numbers.block, first.numbers.pred, t.code first.numbers.block⟩ ss nodes defs
        ⟨last.block, last.pred, rest⟩ last.numbers

section

variable {first middle last : Builder} {growth more : Growth} {changed later : List BlockId}

/-- What changes later has changed before or is new. -/
theorem Extends.trans (one : first.Extends middle changed growth) (two : middle.Extends last later more)
    (known : ∀ block ∈ later, block ∈ changed ∨ first.numbers.blocks ≤ block.index ∧
      block.index < last.numbers.blocks) :
    first.Extends last changed (growth.plus more) where
  grown := one.grown.trans two.grown
  sound := two.sound
  scope := two.scope.trans one.scope
  depth := two.depth.trans one.depth
  blocks := Nat.le_trans one.blocks two.blocks
  scopes := Nat.le_trans one.scopes two.scopes
  code block unchanged outside := by
    have blocks := one.blocks
    have moreBlocks := two.blocks
    have notLater : block ∉ later := fun isLater => (known block isLater).elim unchanged (by omega)
    simp [one.code block unchanged (by omega), two.code block notLater (by omega)]
  guards block outside := by
    have blocks := one.blocks
    have moreBlocks := two.blocks
    simp [one.guards block (by omega), two.guards block (by omega)]
  others o ne outside := by
    have scopes := one.scopes
    have moreScopes := two.scopes
    simp [one.others o ne (by omega), two.others o (one.scope ▸ ne) (by omega)]

/-- A conditional after its two parts have been added. -/
def closeConditional (b thenEnd elseEnd : Builder) : Builder :=
  ((((elseEnd.join b.pred).push b.block (forkCode thenEnd.numbers.block b.numbers.block)).push thenEnd.block
    [.plain (.branch elseEnd.numbers.block)]).push elseEnd.block [.plain (.branch elseEnd.numbers.block)])

/-- A loop is left from its header, which gets the rest of its code. -/
def closeLoop (b inner : Builder) (cond : Cond) (code : List Inst) : Builder :=
  (openBranch { inner with scope := b.scope, depth := b.depth } b.numbers.block b.numbers.pred
    cond).2.push b.numbers.block code

@[simp] theorem numbers_closeLoop (inner : Builder) (cond : Cond) (code : List Inst) :
    (b.closeLoop inner cond code).numbers = inner.numbers.add 1 1 0 := by
  simp only [closeLoop, numbers_push, numbers_openBranch]
  rfl

/-- The start of a loop with its test before the body. -/
def openWhile (b : Builder) (test : Test) (bound : Option UInt32) : Builder :=
  (b.openLoop bound).push b.numbers.block [test.inst]

@[simp] theorem numbers_openWhile (test : Test) (bound : Option UInt32) :
    (b.openWhile test bound).numbers = b.numbers.add 1 1 1 := by simp [openWhile]

@[simp] theorem scope_openWhile (test : Test) (bound : Option UInt32) :
    (b.openWhile test bound).scope = b.numbers.scope := by simp [openWhile]

/-- The end of a loop's body goes back to the header. -/
def closeBody (b bodyEnd : Builder) : Builder :=
  (bodyEnd.push bodyEnd.block [.plain (.branch b.numbers.block)]).addDef bodyEnd.scope
    ⟨b.numbers.pred, bodyEnd.pred, bodyEnd.block, b.numbers.block, none⟩

/-- The one block of a straight-line loop. -/
def openRepeat (b : Builder) (body : List Inst) (test : Test) (bound : Option UInt32) : Builder :=
  ((b.openLoop bound).push b.numbers.block (body ++ [test.inst])).addDef
    ((b.openLoop bound).push b.numbers.block (body ++ [test.inst])).scope
    ⟨b.numbers.pred, b.numbers.pred, b.numbers.block, b.numbers.block, some (.fails condReg)⟩

@[simp] theorem numbers_openRepeat (body : List Inst) (test : Test) (bound : Option UInt32) :
    (b.openRepeat body test bound).numbers = b.numbers.add 1 1 1 := by simp [openRepeat]

variable {cond : Cond} (sound : b.Sound)

include sound

theorem extends_push (insts : List Inst) {block : BlockId} (inside : block.index < b.numbers.blocks) :
    b.Extends (b.push block insts) [block] (pushed block insts) where
  grown := grown_push b insts inside
  sound := sound.push _ _
  scope := rfl
  depth := rfl
  blocks := by simp
  scopes := by simp
  code o ne _ := if_neg (by simpa using ne)
  guards _ _ := rfl
  others _ _ _ := rfl

theorem extends_openBranch (u : BlockId) (guard : PredId) (cond : Cond) :
    b.Extends (b.openBranch u guard cond).2 [] (b.branched u guard cond) where
  grown := grown_openBranch ..
  sound := sound.openBranch ..
  scope := rfl
  depth := rfl
  blocks := by simp
  scopes := by simp
  code _ _ _ := rfl
  guards block outside := by
    rw [numbers_openBranch, blocks_add] at outside
    simp only [branched, plus, guarded, listed, changed]
    grind
  others o ne _ := by simp [branched, ne]

theorem extends_join (guard : PredId) : b.Extends (b.join guard) []
    ((guarded b.numbers.block guard).plus (listed b.scope [.block b.numbers.block] [])) where
  grown := grown_join b guard
  sound := sound.join guard
  scope := rfl
  depth := rfl
  blocks := by simp
  scopes := by simp
  code _ _ _ := rfl
  guards block outside := by
    rw [numbers_join, blocks_add] at outside
    simp only [plus, guarded, listed, changed]
    grind
  others o ne _ := by simp [ne]

theorem extends_addDef (defn : PredDef) : b.Extends (b.addDef b.scope defn) [] (listed b.scope [] [defn]) where
  grown := grown_addDef b b.scope defn
  sound := sound.addDef b.scope defn
  scope := rfl
  depth := rfl
  blocks := by simp
  scopes := by simp
  code _ _ _ := rfl
  guards _ _ := rfl
  others o ne _ := by simp [ne]

theorem Adds.nil : Adds b b [] (pushed b.block []) where
  grown := ⟨fun block => by simp, fun _ => rfl, fun _ => rfl, .refl b⟩
  sound
  scope := rfl
  depth := rfl
  blocks := le_rfl
  scopes := le_rfl
  code block _ _ := by simp
  guards _ _ := rfl
  others _ _ _ := rfl
  block := .inl rfl
  spelt := ⟨[], [], by simp, fun t rest _ => ⟨rest, by simp [through], .nil⟩⟩

theorem Adds.simple (inst : Inst) : Adds b (b.push b.block [inst]) [.simple inst] (pushed b.block [inst]) where
  toExtends := extends_push sound [inst] sound.block
  block := .inl rfl
  spelt := by
    refine ⟨[], [], by simp, fun t rest _ => ⟨inst :: rest, by simp [through], ?_⟩⟩
    rw [numbers_push]
    exact .simple .nil

/-- Statements are added one after the other. -/
theorem Adds.append (one : Adds b middle ss growth) (two : Adds middle last others more) :
    Adds b last (ss ++ others) (growth.plus more) where
  toExtends := one.toExtends.trans two.toExtends (by
    have := one.block
    have := one.sound.block
    have := two.blocks
    grind)
  block := by
    have := one.block
    have := two.block
    have := one.blocks
    grind
  spelt := by
    have isOld := sound.block
    have := one.sound.block
    have := one.block
    have := two.block
    have blocks := one.blocks
    have moreBlocks := two.blocks
    have scopes := one.scopes
    obtain ⟨nodes, defs, isScope, spelt⟩ := one.spelt
    obtain ⟨moreNodes, moreDefs, isMore, moreSpelt⟩ := two.spelt
    rw [one.scope] at isMore
    refine ⟨nodes ++ moreNodes, defs ++ moreDefs, ?_, fun t rest has => ?_⟩
    · simp [isScope, isMore, Function.comp_def]
    -- The code of a block that was there in between goes on only if it is the block at which the other statements
    -- start.
    have goesOn (block : BlockId) (isOld : block.index < middle.numbers.blocks) :
        (growth.plus more).through last.block rest block =
          growth.through middle.block (more.through last.block rest middle.block) block := by
      have := two.code block
      simp only [through, plus]
      grind
    have before {code : List Inst} (isCode : more.through last.block rest middle.block = code) :
        Has t growth b.numbers middle.numbers middle.block code := {
      code block isNew isOld := (has.code block isNew (by omega)).trans (isCode ▸ goesOn block isOld)
      guard block pred isNew isOld isPred :=
        has.guard block pred isNew (by omega) (by simp [two.guards block (.inl isOld), isPred])
      scope scope isNew isOld := by
        have isScope := sound.scope
        have untouched := two.others scope (by rw [one.scope]; exact (ScopeId.ne_of_lt (by omega)).symm) (.inl isOld)
        have := two.scopes
        simpa [untouched] using has.scope scope isNew (by omega) }
    have later : Has t more middle.numbers last.numbers last.block rest := {
      code block isNew isOld := by
        have untouched := one.code block (by simpa using (BlockId.ne_of_lt (by omega)).symm) (.inr isNew)
        simpa [through, untouched] using has.code block (by omega) isOld
      guard block pred isNew isOld isPred := has.guard block pred (by omega) isOld (by simp [isPred])
      scope scope isNew isOld := by
        have isScope := sound.scope
        have untouched := one.others scope (ScopeId.ne_of_lt (by omega)).symm (.inr isNew)
        simpa [untouched] using has.scope scope (by omega) isOld }
    obtain ⟨code, isCode, spelled⟩ := moreSpelt t rest later
    obtain ⟨whole, isWhole, spelledBefore⟩ := spelt t code (before isCode)
    rw [one.scope, one.depth] at spelled
    exact ⟨whole, by rw [goesOn b.block (by omega), isCode, isWhole], spelledBefore.append spelled⟩

theorem Adds.opened {u : BlockId} {guard : PredId} (adds : Adds (b.openBranch u guard cond).2 last ss growth) :
    Opens b last u guard cond ss ((b.branched u guard cond).plus growth) := by
  have blocks := adds.blocks
  have block := adds.block
  simp only [numbers_openBranch, blocks_add, block_openBranch] at blocks block
  have guards := adds.guards
  simp only [numbers_openBranch, blocks_add] at guards
  exact {
    toExtends := (extends_openBranch sound u guard cond).trans adds.toExtends (by simp; omega)
    block := by
      rcases block with isFirst | isNew
      · exact isFirst ▸ le_rfl
      · exact le_of_succ_le isNew
    spelt := by
      obtain ⟨nodes, defs, isScope, spelt⟩ := adds.spelt
      rw [scope_openBranch] at isScope
      refine ⟨nodes, defs, by simp [branched, isScope, Function.comp_def], fun t rest has => ⟨?_, ?_⟩⟩
      · refine has.guard _ _ le_rfl blocks ?_
        simp [branched, guards b.numbers.block (.inl (lt_succ_self _))]
      · have later : Has t growth (b.openBranch u guard cond).2.numbers last.numbers last.block rest := {
          code block isNew isOld := by
            rw [numbers_openBranch] at isNew
            simpa [branched, through] using has.code block (le_of_succ_le isNew) isOld
          guard block pred isNew isOld isPred := by
            rw [numbers_openBranch] at isNew
            exact has.guard block pred (le_of_succ_le isNew) isOld (by simp [isPred])
          scope scope isNew isOld := by
            rw [numbers_openBranch] at isNew
            have untouched : scope ≠ b.scope := (ScopeId.ne_of_lt (Nat.lt_of_lt_of_le sound.scope isNew)).symm
            simpa [branched, untouched] using has.scope scope isNew isOld }
        obtain ⟨code, isCode, spelled⟩ := spelt t rest later
        have starts : t.code b.numbers.block = code := by
          rw [block_openBranch] at isCode
          rw [has.code b.numbers.block le_rfl blocks, ← isCode]
          simp [branched, through]
        rw [starts]
        rwa [scope_openBranch, depth_openBranch, numbers_openBranch, block_openBranch, pred_openBranch] at spelled }

/-- A conditional is added with its two parts. -/
theorem Opens.ifThenElse {test : Test} {thenPart elsePart : List Stmt} {thenEnd elseEnd : Builder}
    {thenGrowth elseGrowth : Growth}
    (thenOpens : Opens (b.push b.block [test.inst]) thenEnd b.block b.pred (.holds condReg) thenPart
      thenGrowth) (elseOpens : Opens thenEnd elseEnd b.block b.pred (.fails condReg) elsePart elseGrowth) :
    ∃ growth, Adds b (b.closeConditional thenEnd elseEnd) [.ifThenElse test thenPart elsePart] growth := by
  have thenScope : thenEnd.scope = b.scope := thenOpens.scope
  have elseScope : elseEnd.scope = b.scope := elseOpens.scope.trans thenScope
  have thenDepth : thenEnd.depth = b.depth := thenOpens.depth
  -- Where the blocks stand: each part ends at one of its own.
  have isSource := sound.block
  have isScope := sound.scope
  have thenInside := thenOpens.sound.block
  have elseInside := elseOpens.sound.block
  have thenNew := thenOpens.block
  have elseNew := elseOpens.block
  have scopes := thenOpens.scopes
  have moreScopes := elseOpens.scopes
  have thenCode := thenOpens.code
  have elseCode := elseOpens.code
  have elseGuards := elseOpens.guards
  have thenOthers := thenOpens.others
  have elseOthers := elseOpens.others
  simp only [numbers_push, not_mem_nil, not_false_eq_true, forall_const] at thenNew scopes thenCode elseCode
  simp only [numbers_push, scope_push, thenScope] at thenOthers elseOthers
  obtain ⟨thenNodes, thenDefs, thenIsScope, thenSpelt⟩ := thenOpens.spelt
  obtain ⟨elseNodes, elseDefs, elseIsScope, elseSpelt⟩ := elseOpens.spelt
  simp only [scope_push, depth_push, numbers_push, thenScope, thenDepth] at thenIsScope elseIsScope thenSpelt elseSpelt
  have joined := extends_join elseOpens.sound b.pred
  have forked := extends_push joined.sound (forkCode thenEnd.numbers.block b.numbers.block)
    (show b.block.index < _ by simp; omega)
  have leftThen := extends_push forked.sound [.plain (.branch elseEnd.numbers.block)]
    (show thenEnd.block.index < _ by simp; omega)
  have leftElse := extends_push leftThen.sound [.plain (.branch elseEnd.numbers.block)]
    (show elseEnd.block.index < _ by simp; omega)
  have numbers : (b.closeConditional thenEnd elseEnd).numbers = elseEnd.numbers.add 1 0 0 := by simp [closeConditional]
  have block : (b.closeConditional thenEnd elseEnd).block = elseEnd.numbers.block := rfl
  refine ⟨_, {
    toExtends := ((((((extends_push sound [test.inst] sound.block).trans thenOpens.toExtends
      (by simp)).trans elseOpens.toExtends
      (by simp)).trans joined (by simp)).trans forked (by simp)).trans leftThen (by simp; omega)).trans leftElse
      (by simp [numbers]; omega)
    block := by
      simp only [block, index_block]
      omega
    spelt := ?_ }⟩
  · refine ⟨_, _, by simp [thenIsScope, elseIsScope, elseScope, Function.comp_def]; rfl, fun t rest has => ?_⟩
    rw [numbers, block] at has
    obtain ⟨code, guard, loops⟩ := has
    simp only [through, plus, pushed, guarded, listed, changed, elseScope, blocks_add, scopes_add, append_nil,
      Option.none_or, Option.or_none, Function.comp_id, Function.id_comp, Function.comp_apply,
      Nat.add_zero] at code guard loops
    have thenHas : Has t thenGrowth b.numbers thenEnd.numbers thenEnd.block
        [.plain (.branch elseEnd.numbers.block)] := {
      code block isNew isOld := by
        rw [code block isNew (by omega), through]
        grind
      guard block pred isNew isOld isPred := by
        refine guard block pred isNew (by omega) ?_
        have ne : block ≠ elseEnd.numbers.block := ne_of_lt (by simp only [index_block]; omega)
        simp [elseGuards block (.inl isOld), isPred, ne]
      scope scope isNew isOld := by
        have ne : scope ≠ b.scope := (ScopeId.ne_of_lt (by omega)).symm
        rw [loops scope isNew (by omega), elseOthers scope ne (.inl isOld), if_neg ne]
        rfl }
    have elseHas : Has t elseGrowth thenEnd.numbers elseEnd.numbers elseEnd.block
        [.plain (.branch elseEnd.numbers.block)] := {
      code block isNew isOld := by
        rw [code block (by omega) (by omega), through]
        grind
      guard block pred isNew isOld isPred := by
        refine guard block pred (by omega) (by omega) ?_
        have ne : block ≠ elseEnd.numbers.block := ne_of_lt (by simp only [index_block]; omega)
        simp [isPred, ne]
      scope scope isNew isOld := by
        have ne : scope ≠ b.scope := (ScopeId.ne_of_lt (by omega)).symm
        rw [loops scope (by omega) isOld, thenOthers scope ne (.inr isNew), if_neg ne]
        rfl }
    obtain ⟨thenGuard, thenSpelled⟩ := thenSpelt t _ thenHas
    obtain ⟨elseGuard, elseSpelled⟩ := elseSpelt t _ elseHas
    have joinGuard := guard elseEnd.numbers.block b.pred (by simp; omega) (by simp) (by simp)
    have joinCode : t.code elseEnd.numbers.block = rest := by
      rw [code _ (by simp; omega) (by simp)]
      grind
    have pred : (b.closeConditional thenEnd elseEnd).pred = b.pred := rfl
    rw [numbers, block, pred, ← joinCode]
    refine ⟨test.inst :: forkCode thenEnd.numbers.block b.numbers.block, ?_,
      by simpa using Spells.ifThenElse thenGuard thenSpelled elseGuard elseSpelled joinGuard .nil⟩
    have notThen : b.block ≠ thenEnd.block := ne_of_lt (by omega)
    have notElse : b.block ≠ elseEnd.block := ne_of_lt (by omega)
    have notJoin : b.block ≠ elseEnd.numbers.block := ne_of_lt (by simp only [index_block]; omega)
    simp [through, thenCode _ (.inl isSource), elseCode b.block (.inl (by omega)), notThen, notElse, notJoin]

variable {inner : Builder} {bound : Option UInt32} {code : List Inst}

/-- What a text says of a loop that has got its nodes and definitions and of the block after it. -/
structure Loops (t : Text) (b inner : Builder) (bound : Option UInt32) (growth : Growth) (code rest : List Inst) :
    Prop where
  headerGuard : t.pred b.numbers.block = some b.numbers.pred
  headerCode : t.code b.numbers.block = growth.code b.numbers.block ++ code
  loop : t.scope b.numbers.scope = growth.scope b.numbers.scope
    (some ⟨some b.scope, b.depth + 1, b.numbers.block, [.block b.numbers.block], [], bound⟩)
  inside : Has t growth (b.numbers.add 1 1 1) inner.numbers b.numbers.block []
  exitGuard : t.pred inner.numbers.block = some inner.numbers.pred
  exitCode : t.code inner.numbers.block = rest

theorem Extends.adds_loop (extended : (b.openLoop bound).Extends inner [b.numbers.block] growth)
    {stmt : Stmt} (spelt : ∀ t rest, Loops t b inner bound growth code rest →
      Spells t b.scope b.depth b.numbers ⟨b.block, b.pred, [.plain (.branch b.numbers.block)]⟩
        [stmt] [.subscope b.numbers.scope, .block inner.numbers.block]
        [⟨b.numbers.pred, b.pred, b.block, b.numbers.block, none⟩,
          ⟨inner.numbers.pred, b.numbers.pred, b.numbers.block, inner.numbers.block, some cond⟩]
        ⟨inner.numbers.block, inner.numbers.pred, rest⟩ (inner.numbers.add 1 1 0)) :
    ∃ growth, Adds b (b.closeLoop inner cond code) [stmt] growth := by
  have isSource := sound.block
  have isScope := sound.scope
  have notLoop : b.scope ≠ b.numbers.scope := ne_of_lt isScope
  have blocks := extended.blocks
  have scopes := extended.scopes
  have codes := extended.code
  have guards := extended.guards
  have others := extended.others
  simp only [numbers_openLoop, scope_openLoop, blocks_add, scopes_add,
    mem_singleton] at blocks scopes codes guards others
  have outer := others b.scope notLoop (.inl (by omega))
  have leaving := (grown_openBranch { inner with scope := b.scope, depth := b.depth } b.numbers.block
    b.numbers.pred cond).trans (grown_push _ code (show b.numbers.block.index < _ by
      rw [numbers_openBranch]
      exact lt_succ_of_lt blocks))
  have left : numbers { inner with scope := b.scope, depth := b.depth } = inner.numbers := rfl
  refine ⟨_, {
    grown := (((grown_openLoop b bound sound).trans extended.grown).goTo b.scope b.depth).trans leaving
    sound := ((extended.sound.goTo (show b.scope.index < _ by omega) b.depth).openBranch _ _ _).push _ _
    scope := rfl
    depth := rfl
    block := .inr (show b.numbers.blocks ≤ inner.numbers.blocks by omega)
    blocks := by
      rw [numbers_closeLoop, blocks_add]
      omega
    scopes := by
      rw [numbers_closeLoop, scopes_add]
      omega
    code := ?_
    guards := ?_
    others := ?_
    spelt := ?_ }⟩
  · intro block ne outside
    rw [numbers_closeLoop, blocks_add] at outside
    rw [mem_singleton] at ne
    simp only [plus, pushed, guarded, listed, changed, entered, branched]
    grind
  · intro block outside
    rw [numbers_closeLoop, blocks_add] at outside
    simp only [plus, pushed, guarded, listed, changed, entered, branched, left]
    grind
  · intro o ne outside
    rw [numbers_closeLoop, scopes_add] at outside
    have notLoop : o ≠ b.numbers.scope := by
      rintro rfl
      rw [index_scope] at outside
      omega
    simp [entered, branched, others o notLoop (by omega), ne, notLoop]
  · refine ⟨_, _, by simp [entered, branched, left, outer, notLoop, Function.comp_def]; rfl, fun t rest has => ?_⟩
    have block : (b.closeLoop inner cond code).block = inner.numbers.block := rfl
    have pred : (b.closeLoop inner cond code).pred = inner.numbers.pred := rfl
    rw [numbers_closeLoop, block] at has
    obtain ⟨has, guard, loops⟩ := has
    simp only [through, plus, pushed, guarded, listed, changed, entered, branched, left, blocks_add,
      scopes_add, append_nil,
      Option.none_or, Option.or_none, Function.comp_id, Function.id_comp, Function.comp_apply,
      Nat.add_zero] at has guard loops
    rw [numbers_closeLoop, block, pred]
    refine ⟨_, ?_, spelt t rest {
      headerGuard := guard _ _ (by simp) (by simp; omega) (by grind)
      headerCode := by
        rw [has _ (by simp) (by simp; omega)]
        grind
      loop := by
        rw [loops b.numbers.scope (by simp) scopes]
        simp [notLoop.symm]
      inside := {
        code block isNew isOld := by
          rw [blocks_add] at isNew
          rw [has block (by omega) (by omega), through]
          grind
        guard block pred isNew isOld isPred := by
          rw [blocks_add] at isNew
          refine guard block pred (by omega) (by omega) ?_
          grind
        scope scope isNew isOld := by
          rw [scopes_add] at isNew
          have ne : scope ≠ b.scope := (ScopeId.ne_of_lt (by omega)).symm
          have notLoop : scope ≠ b.numbers.scope := (ScopeId.ne_of_lt isNew).symm
          rw [loops scope (by omega) isOld]
          simp [ne, notLoop] }
      exitGuard := guard _ _ (by simp; omega) (by simp) (by simp)
      exitCode := by
        rw [has _ (by simp; omega) (by simp)]
        grind }⟩
    have notHeader : b.block ≠ b.numbers.block := ne_of_lt isSource
    have notExit : b.block ≠ inner.numbers.block := ne_of_lt (by simp only [index_block]; omega)
    simp [through, entered, branched, codes b.block notHeader (.inl (by omega)), notHeader, notExit]

/-- A loop with its test first is added with its body. -/
theorem Opens.whileDo {test : Test} {body : List Stmt} {bodyEnd : Builder} {bodyGrowth : Growth}
    (opens : Opens (b.openWhile test bound) bodyEnd b.numbers.block b.numbers.pred (.holds condReg) body
      bodyGrowth) :
    ∃ growth, Adds b (b.closeLoop (b.closeBody bodyEnd) (.fails condReg) (forkCode
      (b.closeBody bodyEnd).numbers.block
      (b.openWhile test bound).numbers.block)) [.whileDo test bound body] growth := by
  have bodyNew := opens.block
  have bodyInside := opens.sound.block
  have code := opens.code
  have scope := opens.scope
  simp only [numbers_openWhile, scope_openWhile, blocks_add, not_mem_nil, not_false_eq_true,
    forall_const] at bodyNew code scope
  obtain ⟨nodes, defs, isLoop, spelt⟩ := opens.spelt
  simp only [numbers_openWhile, scope_openWhile] at isLoop spelt
  have jumps := extends_push opens.sound [.plain (.branch b.numbers.block)] bodyInside
  have numbers : (b.closeBody bodyEnd).numbers = bodyEnd.numbers := (numbers_addDef _ _ _).trans (numbers_push _ _ _)
  have extended : (b.openLoop bound).Extends (b.closeBody bodyEnd) _ _ :=
    (((extends_push (sound.openLoop bound) [test.inst] (show b.numbers.block.index < _ by simp)).trans
      opens.toExtends (by simp)).trans jumps (by simp; omega)).trans (extends_addDef jumps.sound
        ⟨b.numbers.pred, bodyEnd.pred, bodyEnd.block, b.numbers.block, none⟩) (by simp)
  refine extended.adds_loop sound fun t rest loops => ?_
  obtain ⟨headerGuard, headerCode, loop, ⟨has, guard, scopes⟩, exitGuard, exitCode⟩ := loops
  have bodyHas : Has t bodyGrowth (b.numbers.add 1 1 1) bodyEnd.numbers bodyEnd.block
      [.plain (.branch b.numbers.block)] := {
    code block isNew isOld := by
      have ne : block ≠ b.numbers.block := (BlockId.ne_of_lt isNew).symm
      simpa [through, ne] using has block isNew (numbers ▸ isOld)
    guard block pred isNew isOld isPred := guard block pred isNew (numbers ▸ isOld) (by simp [isPred])
    scope scope' isNew isOld := by
      have notLoop : scope' ≠ b.numbers.scope := (ScopeId.ne_of_lt isNew).symm
      simpa [scope, notLoop] using scopes scope' isNew (numbers ▸ isOld) }
  obtain ⟨bodyGuard, bodySpelled⟩ := spelt t _ bodyHas
  have notBody : b.numbers.block ≠ bodyEnd.block := ne_of_lt bodyNew
  simp [code b.numbers.block (.inl (by simp)), notBody, numbers] at headerCode
  simp [isLoop, scope, Scope.more] at loop
  rw [numbers] at exitGuard exitCode ⊢
  rw [← exitCode]
  exact .whileDo headerGuard headerCode bodyGuard loop bodySpelled exitGuard .nil

/-- A loop with its test last is added with its body. -/
theorem Adds.repeatUntil (body : List Inst) (test : Test) (bound : Option UInt32) :
    ∃ growth, Adds b (b.closeLoop (b.openRepeat body test bound) (.holds condReg)
      (forkCode b.numbers.block (b.openRepeat body test bound).numbers.block))
      [.repeatUntil body test bound] growth := by
  have pushes := extends_push (sound.openLoop bound) (body ++ [test.inst]) (show b.numbers.block.index < _ by simp)
  have extended : (b.openLoop bound).Extends (b.openRepeat body test bound) _ _ :=
    pushes.trans (extends_addDef pushes.sound
    ⟨b.numbers.pred, b.numbers.pred, b.numbers.block, b.numbers.block, some (.fails condReg)⟩) (by simp)
  refine extended.adds_loop sound fun t rest loops => ?_
  obtain ⟨headerGuard, headerCode, loop, _, exitGuard, exitCode⟩ := loops
  simp at headerCode
  simp [Scope.more] at loop
  rw [numbers_openRepeat] at exitGuard exitCode ⊢
  rw [← exitCode]
  exact .repeatUntil headerGuard headerCode loop exitGuard .nil

end

theorem add_ifThenElse (b : Builder) (test : Test) (thenPart elsePart : List Stmt) :
    b.add (.ifThenElse test thenPart elsePart) =
      let thenEnd := ((b.push b.block [test.inst]).openBranch b.block b.pred (.holds condReg)).2.addAll thenPart
      b.closeConditional thenEnd ((thenEnd.openBranch b.block b.pred (.fails condReg)).2.addAll elsePart) := by
  rw [add]
  simp only [fst_openBranch, numbers_push]
  rfl

mutual

/-- Adding a statement spells it. -/
theorem adds_add (stmt : Stmt) {b : Builder} (sound : b.Sound) : ∃ growth, Adds b (b.add stmt) [stmt] growth := by
  cases stmt with
  | simple inst => exact ⟨_, .simple sound inst⟩
  | ifThenElse test thenPart elsePart =>
    have tested := sound.push b.block [test.inst]
    obtain ⟨_, thenAdds⟩ := adds_addAll thenPart (tested.openBranch b.block b.pred (.holds condReg))
    obtain ⟨_, elseAdds⟩ := adds_addAll elsePart (thenAdds.sound.openBranch b.block b.pred (.fails condReg))
    rw [add_ifThenElse]
    exact (thenAdds.opened tested).ifThenElse sound (elseAdds.opened thenAdds.sound)
  | whileDo test bound body =>
    have opened : (b.openWhile test bound).Sound := (sound.openLoop bound).push _ _
    obtain ⟨_, bodyAdds⟩ := adds_addAll body (opened.openBranch b.numbers.block b.numbers.pred (.holds condReg))
    rw [add]
    exact (bodyAdds.opened opened).whileDo sound
  | repeatUntil body test bound =>
    rw [add]
    exact Adds.repeatUntil sound body test bound

/-- Adding statements spells them. -/
theorem adds_addAll (ss : List Stmt) {b : Builder} (sound : b.Sound) : ∃ growth, Adds b (b.addAll ss) ss growth := by
  cases ss with
  | nil =>
    rw [addAll]
    exact ⟨_, .nil sound⟩
  | cons stmt rest =>
    obtain ⟨_, first⟩ := adds_add stmt sound
    obtain ⟨_, later⟩ := adds_addAll rest first.sound
    rw [addAll]
    exact ⟨_, first.append sound later⟩

end

end Builder

end SinglePath
