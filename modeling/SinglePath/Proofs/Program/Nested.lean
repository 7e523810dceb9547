import Mathlib.Data.List.Intervals
import SinglePath.Proofs.Allocation.Graded
import SinglePath.Proofs.Program.Spelled
import SinglePath.Proofs.ScopeTree.Fitting

namespace SinglePath

open List Nat Numbers Option PredId ScopeNode ScopeTree Text

variable {text : Text} {s id : ScopeId} {depth : Nat} {first last middle : Numbers} {start final : Place}
  {ss : List Stmt} {nodes later : List ScopeNode} {defs : List PredDef} {c : Scope} {tree : ScopeTree}

theorem Numbers.Grow.trans (grow : first.Grow middle) (growLater : middle.Grow last) : first.Grow last :=
  ⟨le_trans grow.blocks growLater.blocks, le_trans grow.preds growLater.preds,
    le_trans grow.scopes growLater.scopes⟩

theorem Numbers.grow_add (numbers : Numbers) (blocks preds scopes : Nat) :
    numbers.Grow (numbers.add blocks preds scopes) :=
  ⟨le_add_right _ _, le_add_right _ _, le_add_right _ _⟩

section

variable (spelt : Spells text s depth first start ss nodes defs final last)

include spelt

theorem Spells.final_node : (final.block = start.block ∧ final.pred = start.pred) ∨
      (.block final.block ∈ nodes ∧ text.pred final.block = some final.pred) := by
  induction spelt with
  | nil => exact .inl ⟨rfl, rfl⟩
  | simple _ later => exact later
  | ifThenElse _ _ _ _ joinGuard _ _ _ later =>
    rcases later with ⟨isBlock, isPred⟩ | ⟨mem, guarded⟩
    · exact .inr ⟨by simp [isBlock], by rw [isBlock, isPred, joinGuard]⟩
    · exact .inr ⟨by simp [mem], guarded⟩
  | whileDo _ _ _ _ _ exitGuard _ _ later =>
    rcases later with ⟨isBlock, isPred⟩ | ⟨mem, guarded⟩
    · exact .inr ⟨by simp [isBlock], by rw [isBlock, isPred, exitGuard]⟩
    · exact .inr ⟨by simp [mem], guarded⟩
  | repeatUntil _ _ _ exitGuard _ later =>
    rcases later with ⟨isBlock, isPred⟩ | ⟨mem, guarded⟩
    · exact .inr ⟨by simp [isBlock], by rw [isBlock, isPred, exitGuard]⟩
    · exact .inr ⟨by simp [mem], guarded⟩

/-- The inner loops know their scope. -/
theorem Spells.child {loop : ScopeId} (mem : .subscope loop ∈ nodes) :
    ∃ inner, text.scope loop = some inner ∧ inner.parent = some s ∧ inner.depth = depth + 1 := by
  induction spelt with
  | nil => cases mem
  | simple _ later => exact later mem
  | ifThenElse _ _ _ _ _ _ thenChild elseChild later =>
    simp only [cons_append, mem_cons, mem_append, reduceCtorEq, false_or] at mem
    rcases mem with (inThen | inElse) | inLater
    · exact thenChild inThen
    · exact elseChild inElse
    · exact later inLater
  | whileDo _ _ _ loopScope _ _ _ _ later =>
    simp only [mem_cons, subscope.injEq, reduceCtorEq, false_or] at mem
    rcases mem with rfl | inLater
    · exact ⟨_, loopScope, rfl, rfl⟩
    · exact later inLater
  | repeatUntil _ _ loopScope _ _ later =>
    simp only [mem_cons, subscope.injEq, reduceCtorEq, false_or] at mem
    rcases mem with rfl | inLater
    · exact ⟨_, loopScope, rfl, rfl⟩
    · exact later inLater

end

/-- A node with the block that stands for it and that block's predicate. -/
def Text.site (text : Text) : ScopeNode → NodeSite
  | .block id => ⟨.block id, id, text.pred id⟩
  | .subscope id =>
    let header := ((text.scope id).map (·.header)).getD ⟨0⟩
    ⟨.subscope id, header, text.pred header⟩

theorem Text.site_subscope {loop : ScopeId} {inner : Scope} (got : text.scope loop = some inner) :
    text.site (.subscope loop) = ⟨.subscope loop, inner.header, text.pred inner.header⟩ := by
  simp [site, got]

/-- Nodes and definitions that start at a block under its predicate, with new blocks and predicates from the first
numbers up to the last ones. -/
structure Arranged (text : Text) (b : BlockId) (pred : PredId) (first last : Numbers) (nodes : List ScopeNode)
    (defs : List PredDef) : Prop where
  blocksGrow : first.blocks ≤ last.blocks
  predsGrow : first.preds ≤ last.preds
  ascending : (nodes.map text.site).Pairwise fun earlier later => earlier.block.index < later.block.index
  within : ∀ site ∈ nodes.map text.site, first.blocks ≤ site.block.index ∧ site.block.index < last.blocks
  guarded : ∀ site ∈ nodes.map text.site, ∃ guard, site.pred = some guard ∧
    (guard = pred ∨ (first.preds ≤ guard.index ∧ guard.index < last.preds ∧
      ∃ defn ∈ defs, defn.pred = guard ∧ defn.source.index < site.block.index))
  leaves : ∀ defn ∈ defs, (defn.source = b ∧ defn.guard = pred) ∨
    ∃ site ∈ nodes.map text.site, site.block = defn.source ∧ site.pred = some defn.guard
  defined : ∀ defn ∈ defs, first.preds ≤ defn.pred.index ∧ defn.pred.index < last.preds
  once : defs.Pairwise fun earlier later => earlier.pred.index < later.pred.index
  loops : ∀ site ∈ nodes.map text.site, ∀ loop guard, site.node = .subscope loop → site.pred = some guard →
    first.preds ≤ guard.index ∧ ∀ o ∈ nodes.map text.site, o.pred = some guard → o = site

namespace Arranged

variable {b : BlockId} {pred : PredId} {next : Numbers} {laterDefs : List PredDef}

theorem nil (text : Text) (b : BlockId) (pred : PredId) (first : Numbers) : Arranged text b pred first first [] [] where
  blocksGrow := le_rfl
  predsGrow := le_rfl
  ascending := .nil
  within := by simp
  guarded := by simp
  leaves := by simp
  defined := by simp
  once := .nil
  loops := by simp

/-- What comes after starts at the same place, or at the only node before it. -/
theorem append {place : BlockId} {guard : PredId} (arranged : Arranged text b pred first middle nodes defs)
    (isOld : pred.index < first.preds) (arrangedLater : Arranged text place guard middle last later laterDefs)
    (starts : (place = b ∧ guard = pred) ∨ ∃ site, nodes.map text.site = [site] ∧ site.block = place ∧
      site.pred = some guard ∧ ∀ loop, site.node = .subscope loop → ∀ o ∈ later.map text.site, o.pred ≠ some guard) :
    Arranged text b pred first last (nodes ++ later) (defs ++ laterDefs) := by
  have blocksGrow := arranged.blocksGrow
  have predsGrow := arranged.predsGrow
  have blocksGrowLater := arrangedLater.blocksGrow
  have predsGrowLater := arrangedLater.predsGrow
  -- The predicate where the later part starts is known in the first one.
  have known : guard = pred ∨ (first.preds ≤ guard.index ∧ guard.index < middle.preds ∧
      ∃ defn ∈ defs, defn.pred = guard ∧ defn.source.index < middle.blocks) := by
    rcases starts with ⟨_, rfl⟩ | ⟨site, isNodes, _, guards, _⟩
    · exact .inl rfl
    · have mem : site ∈ nodes.map text.site := by simp [isNodes]
      obtain ⟨_, isGuard, isStart | ⟨notLess, isLess, defn, isDef, defines, isBefore⟩⟩ := arranged.guarded site mem
      all_goals obtain rfl := mem_unique guards isGuard
      · exact .inl isStart
      · exact .inr ⟨notLess, isLess, defn, isDef, defines, Nat.lt_trans isBefore (arranged.within site mem).2⟩
  refine ⟨by omega, by omega, ?_, ?_, ?_, ?_, ?_, ?_, ?_⟩
  · rw [map_append, pairwise_append]
    refine ⟨arranged.ascending, arrangedLater.ascending, fun site mem o listedLater => ?_⟩
    have := arranged.within site mem
    have := arrangedLater.within o listedLater
    omega
  · intro site mem
    rcases mem_append.mp (map_append ▸ mem) with isFirst | isLater
    · have := arranged.within site isFirst
      omega
    · have := arrangedLater.within site isLater
      omega
  · intro site mem
    rcases mem_append.mp (map_append ▸ mem) with isFirst | isLater
    · obtain ⟨guard, isGuard, isStart | ⟨notLess, isLess, defn, isDef, defines, isBefore⟩⟩ :=
        arranged.guarded site isFirst
      · exact ⟨guard, isGuard, .inl isStart⟩
      · exact ⟨guard, isGuard, .inr ⟨notLess, by omega, defn, mem_append_left _ isDef, defines, isBefore⟩⟩
    · obtain ⟨o, isOther, rfl | ⟨notLess, isLess, defn, isDef, defines, isBefore⟩⟩ :=
        arrangedLater.guarded site isLater
      · refine ⟨o, isOther, known.imp_right ?_⟩
        rintro ⟨notLess, isLess, defn, isDef, defines, isBefore⟩
        have := (arrangedLater.within site isLater).1
        exact ⟨notLess, by omega, defn, mem_append_left _ isDef, defines, by omega⟩
      · exact ⟨o, isOther, .inr ⟨by omega, isLess, defn, mem_append_right _ isDef, defines, isBefore⟩⟩
  · intro defn mem
    rcases mem_append.mp mem with isFirst | isLater
    · refine (arranged.leaves defn isFirst).imp_right ?_
      rintro ⟨site, isSite, leaves⟩
      exact ⟨site, map_append ▸ mem_append_left _ isSite, leaves⟩
    · rcases arrangedLater.leaves defn isLater with ⟨isSource, isGuard⟩ | ⟨site, isSite, leaves⟩
      · rcases starts with ⟨rfl, rfl⟩ | ⟨site, isNodes, isPlace, guards, _⟩
        · exact .inl ⟨isSource, isGuard⟩
        · exact .inr ⟨site, by simp [isNodes], isPlace.trans isSource.symm, isGuard ▸ guards⟩
      · exact .inr ⟨site, map_append ▸ mem_append_right _ isSite, leaves⟩
  · intro defn mem
    rcases mem_append.mp mem with isFirst | isLater
    · have := arranged.defined defn isFirst
      omega
    · have := arrangedLater.defined defn isLater
      omega
  · rw [pairwise_append]
    refine ⟨arranged.once, arrangedLater.once, fun defn mem o listedLater => ?_⟩
    have := arranged.defined defn mem
    have := arrangedLater.defined o listedLater
    omega
  · -- The predicate of an inner loop is new on its own side, and so it guards nothing on the other.
    intro site mem loop own isLoop guards
    rcases mem_append.mp (map_append ▸ mem) with isFirst | isLater
    · obtain ⟨notLess, alone⟩ := arranged.loops site isFirst loop own isLoop guards
      refine ⟨notLess, fun o listedToo guardsToo => ?_⟩
      rcases mem_append.mp (map_append ▸ listedToo) with otherFirst | otherLater
      · exact alone o otherFirst guardsToo
      · obtain ⟨_, isOther, rfl | ⟨otherNotLess, _⟩⟩ := arrangedLater.guarded o otherLater
        all_goals obtain rfl := mem_unique guardsToo isOther
        · rcases starts with ⟨_, rfl⟩ | ⟨only, isNodes, _, _, alone⟩
          · omega
          · rw [isNodes, mem_singleton] at isFirst
            exact absurd guardsToo (alone loop (isFirst ▸ isLoop) o otherLater)
        · obtain ⟨_, isSame, rfl | ⟨_, isLess, _⟩⟩ := arranged.guarded site isFirst
          all_goals
            obtain rfl := mem_unique guards isSame
            omega
    · obtain ⟨notLess, alone⟩ := arrangedLater.loops site isLater loop own isLoop guards
      refine ⟨by omega, fun o listedToo guardsToo => ?_⟩
      rcases mem_append.mp (map_append ▸ listedToo) with otherFirst | otherLater
      · obtain ⟨_, isOther, rfl | ⟨_, isLess, _⟩⟩ := arranged.guarded o otherFirst
        all_goals
          obtain rfl := mem_unique guardsToo isOther
          omega
      · exact alone o otherLater guardsToo

/-- A new node comes first, under a new predicate that is defined where the nodes start. -/
theorem enter {node : ScopeNode} (isSite : text.site node = ⟨node, first.block, some first.pred⟩)
    (isOld : b.index < first.blocks) (isOldPred : pred.index < first.preds) (blocksLess : first.blocks < next.blocks)
    (predsLess : first.preds < next.preds) (arranged : Arranged text first.block first.pred next last nodes defs)
    (alone : ∀ loop, node = .subscope loop → ∀ site ∈ nodes.map text.site, site.pred ≠ some first.pred) (t : BlockId)
    (cond : Option Cond) :
    Arranged text b pred first last (node :: nodes) (⟨first.pred, pred, b, t, cond⟩ :: defs) := by
  have isFirstPred : first.pred.index = first.preds := rfl
  have entered : Arranged text b pred first next [node] [⟨first.pred, pred, b, t, cond⟩] := {
    blocksGrow := by omega
    predsGrow := by omega
    ascending := by simp
    within := by simpa [isSite] using blocksLess
    guarded := by simp [isSite, isFirstPred, isOld, predsLess]
    leaves := by simp
    defined := by simp [isFirstPred, predsLess]
    once := by simp
    loops := by
      rw [map_singleton, isSite]
      rintro site mem _ _ _ guards
      obtain rfl := mem_singleton.mp mem
      cases guards
      exact ⟨le_rfl, fun o listedToo _ => mem_singleton.mp listedToo⟩ }
  exact entered.append isOldPred arranged (.inr ⟨_, by rw [map_singleton, isSite], rfl, rfl, alone⟩)

/-- A new block comes first, under the predicate where the nodes start. -/
theorem join (arranged : Arranged text first.block pred next last nodes defs)
    (guard : text.pred first.block = some pred)
    (isOld : pred.index < first.preds) (blocksLess : first.blocks < next.blocks) (predsLe : first.preds ≤ next.preds) :
    Arranged text b pred first last (.block first.block :: nodes) defs := by
  have joined : Arranged text b pred first next [.block first.block] [] := {
    blocksGrow := by omega
    predsGrow := predsLe
    ascending := by simp
    within := by simpa [site] using blocksLess
    guarded := by simp [site, guard]
    leaves := by simp
    defined := by simp
    once := .nil
    loops := by simp [site] }
  exact joined.append isOld arranged (.inr ⟨_, map_singleton, rfl, guard, fun _ isLoop => by cases isLoop⟩)

/-- A new block under a new predicate. -/
theorem branch {next : Numbers} (guard : text.pred first.block = some first.pred) (isOld : b.index < first.blocks)
    (isOldPred : pred.index < first.preds) (blocksLess : first.blocks < next.blocks)
    (predsLess : first.preds < next.preds)
    (arranged : Arranged text first.block first.pred next last nodes defs) (t : BlockId) (cond : Option Cond) :
    Arranged text b pred first last (.block first.block :: nodes) (⟨first.pred, pred, b, t, cond⟩ :: defs) :=
  arranged.enter (by simp [site, guard]) isOld isOldPred blocksLess predsLess (fun _ isLoop => by cases isLoop) t cond

/-- An inner loop, and the block to which it exits. -/
theorem loop {left next : Numbers} {id : ScopeId} {inner : Scope} (got : text.scope id = some inner)
    (isHeader : inner.header = first.block) (headerGuard : text.pred first.block = some first.pred)
    (isOld : b.index < first.blocks) (isOldPred : pred.index < first.preds) (leftBlocks : first.blocks < left.blocks)
    (leftPreds : first.preds < left.preds)
    (exitGuard : text.pred left.block = some left.pred) (blocksLess : left.blocks < next.blocks)
    (predsLess : left.preds < next.preds) (arranged : Arranged text left.block left.pred next last nodes defs)
    (t exit : BlockId) (cond exitCond : Option Cond) :
    Arranged text b pred first last (.subscope id :: .block left.block :: nodes)
      (⟨first.pred, pred, b, t, cond⟩ :: ⟨left.pred, first.pred, first.block, exit, exitCond⟩ :: defs) := by
  have exited : Arranged text first.block first.pred left last (.block left.block :: nodes)
      (⟨left.pred, first.pred, first.block, exit, exitCond⟩ :: defs) :=
    arranged.branch exitGuard leftBlocks leftPreds blocksLess predsLess exit exitCond
  refine exited.enter ?_ isOld isOldPred leftBlocks leftPreds ?_ t cond
  · rw [site_subscope got, isHeader, headerGuard]
  · intro _ _ site mem guards
    rcases mem_cons.mp mem with rfl | isLater
    · have isGuard : text.pred left.block = some first.pred := guards
      have := congrArg index (mem_unique exitGuard isGuard)
      simp only [Numbers.pred] at this
      omega
    · obtain ⟨guard, isGuard, rfl | ⟨notLess, _⟩⟩ := arranged.guarded site isLater
      all_goals
        have same := congrArg index (mem_unique isGuard guards)
        simp only [Numbers.pred] at same
        omega

end Arranged

/-- The nodes and definitions of spelled statements. -/
theorem Spells.arranged
    (spelt : Spells text s depth first start ss nodes defs final last) (isOld : start.block.index < first.blocks)
    (isOldPred : start.pred.index < first.preds) : Arranged text start.block start.pred first last nodes defs := by
  induction spelt with
  | nil => exact .nil _ _ _ _
  | simple _ later => exact later isOld isOldPred
  | @ifThenElse s depth first middle joined last b thenExit elseExit pred thenPred elsePred test thenPart elsePart
      ss thenNodes elseNodes nodes thenDefs elseDefs defs final thenGuard thenSpelt elseGuard elseSpelt joinGuard
      laterSpelt thenArranged elseArranged laterArranged =>
      have thenGrow := thenSpelt.grow
      have elseGrow := elseSpelt.grow
      have thenBlocks := thenGrow.blocks
      have thenPreds := thenGrow.preds
      have elseBlocks := elseGrow.blocks
      have elsePreds := elseGrow.preds
      simp only [add] at thenBlocks thenPreds elseBlocks elsePreds
      simp only at isOld isOldPred
      have thenPart : Arranged text b pred first middle (.block first.block :: thenNodes) _ :=
        (thenArranged (lt_succ_self _) (lt_succ_self _)).branch thenGuard isOld isOldPred (lt_succ_self _)
          (lt_succ_self _) first.block (some (.holds condReg))
      have elsePart : Arranged text b pred middle joined (.block middle.block :: elseNodes) _ :=
        (elseArranged (lt_succ_self _) (lt_succ_self _)).branch elseGuard (by omega) (by omega) (lt_succ_self _)
          (lt_succ_self _) middle.block (some (.fails condReg))
      have later : Arranged text joined.block pred (joined.add 1 0 0) last nodes defs :=
        laterArranged (lt_succ_self _) (by simp only [add]; omega)
      have laterPart : Arranged text b pred joined last (.block joined.block :: nodes) defs :=
        later.join joinGuard (by omega) (lt_succ_self _) (le_add_right _ 0)
      exact (thenPart.append isOldPred elsePart (.inl ⟨rfl, rfl⟩)).append isOldPred laterPart (.inl ⟨rfl, rfl⟩)
  | @whileDo s depth first left last b bodyExit pred bodyPred test bound body ss bodyNodes nodes bodyDefs defs
      final headerGuard headerCode bodyGuard loopScope bodySpelt exitGuard laterSpelt bodyArranged laterArranged =>
      have bodyGrow := bodySpelt.grow
      have bodyBlocks := bodyGrow.blocks
      have bodyPreds := bodyGrow.preds
      simp only [add] at bodyBlocks bodyPreds
      exact (laterArranged (lt_succ_self _) (lt_succ_self _)).loop loopScope rfl headerGuard isOld isOldPred (by omega)
        (by omega) exitGuard (lt_succ_self _) (lt_succ_self _) _ _ _ _
  | @repeatUntil s depth first last b pred test bound body ss nodes defs final headerGuard headerCode loopScope
      exitGuard laterSpelt laterArranged =>
      have arranged := laterArranged (lt_succ_self _) (lt_succ_self _)
      exact arranged.loop loopScope rfl headerGuard isOld isOldPred (lt_succ_self _) (lt_succ_self _) exitGuard
        (lt_succ_self _) (lt_succ_self _) _ _ _ _

/-- A scope whose nodes are its header and arranged nodes. Its own predicate is defined at most once in it, at one of
its blocks. -/
structure Composed (text : Text) (id : ScopeId) (c : Scope) (headerPred : PredId) (first last : Numbers)
    (nodes : List ScopeNode) (defs back : List PredDef) : Prop where
  nodes_eq : c.nodes = .block c.header :: nodes
  defs_eq : c.defs = defs ++ back
  headed : text.pred c.header = some headerPred
  headerOld : c.header.index < first.blocks
  predOld : headerPred.index < first.preds
  arranged : Arranged text c.header headerPred first last nodes defs
  children : ∀ {loop : ScopeId}, .subscope loop ∈ nodes →
    ∃ inner, text.scope loop = some inner ∧ inner.parent = some id ∧ inner.depth = c.depth + 1
  backOnce : back.length ≤ 1
  backDefs : ∀ defn ∈ back, defn.pred = headerPred ∧ 0 < headerPred.index ∧
    .block defn.source ∈ c.nodes ∧ text.pred defn.source = some defn.guard

namespace Composed

variable {headerPred : PredId} {back : List PredDef}

theorem sites_eq (composed : Composed text id c headerPred first last nodes defs back) :
    c.nodes.map text.site = ⟨.block c.header, c.header, some headerPred⟩ :: nodes.map text.site := by
  rw [composed.nodes_eq, map_cons]
  simp [site, composed.headed]

theorem siteOf_ok (isPred : tree.blockPred = text.pred) (isScope : tree.scope? = text.scope)
    (known : ∀ {loop : ScopeId}, .subscope loop ∈ nodes → ∃ inner, text.scope loop = some inner) :
    nodes.mapM (ScopeEvents.siteOf tree) = .ok (nodes.map text.site) := by
  refine mapM_eq_ok (by simp) fun i node got => ⟨text.site node, by simp [got], ?_⟩
  unfold ScopeEvents.siteOf
  cases node with
  | block b => simp [nodeBlock, site, isPred, pure, Except.pure]
  | subscope loop =>
    obtain ⟨inner, innerFound⟩ := known (mem_of_getElem? got)
    have isInner : tree.get loop = .ok inner := present_eq_ok.mpr (isScope ▸ innerFound)
    simp [nodeBlock, site, isPred, isInner, innerFound, pure, Except.pure]

/-- A composed scope is graded. -/
theorem graded (composed : Composed text id c headerPred first last nodes defs back)
    (isPred : tree.blockPred = text.pred) (isScope : tree.scope? = text.scope) :
    Graded tree c headerPred (c.nodes.map text.site) := by
  have arranged := composed.arranged
  have headerOld := composed.headerOld
  have predOld := composed.predOld
  refine ⟨?_, by rw [isPred, composed.headed], ?_, ?_, ?_, ?_, ?_⟩
  · refine siteOf_ok isPred isScope fun mem => ?_
    rw [composed.nodes_eq] at mem
    obtain ⟨inner, got, _⟩ := composed.children ((mem_cons.mp mem).resolve_left (by simp))
    exact ⟨inner, got⟩
  all_goals try rw [composed.sites_eq]
  · refine pairwise_cons.mpr ⟨fun site mem => ?_, arranged.ascending⟩
    exact Nat.lt_of_lt_of_le headerOld (arranged.within site mem).1
  · intro site mem
    rcases mem_cons.mp mem with rfl | isLater
    · exact ⟨headerPred, rfl, .inl rfl⟩
    · obtain ⟨guard, isGuard, isStart | ⟨_, _, defn, isDef, defines, isBefore⟩⟩ := arranged.guarded site isLater
      · exact ⟨guard, isGuard, .inl isStart⟩
      · exact ⟨guard, isGuard, .inr ⟨defn, composed.defs_eq ▸ mem_append_left _ isDef, defines, isBefore⟩⟩
  · intro defn mem
    rcases mem_append.mp (composed.defs_eq ▸ mem) with isOwn | isBack
    · have notHeader : defn.pred ≠ headerPred := by
        intro same
        have := (arranged.defined defn isOwn).1
        rw [same] at this
        omega
      rcases arranged.leaves defn isOwn with ⟨isSource, isGuard⟩ | ⟨site, isSite, isSource, guards⟩
      · exact ⟨_, .head _, isSource.symm, by rw [isGuard], fun isHeader => absurd isHeader notHeader⟩
      · exact ⟨site, .tail _ isSite, isSource, guards, fun isHeader => absurd isHeader notHeader⟩
    · obtain ⟨_, _, isNode, guards⟩ := composed.backDefs defn isBack
      rw [← composed.sites_eq]
      exact ⟨_, mem_map_of_mem isNode, rfl, guards, fun _ => rfl⟩
  · rw [composed.defs_eq, map_append, nodup_append]
    refine ⟨?_, ?_, ?_⟩
    · rw [Nodup, pairwise_map]
      exact arranged.once.imp fun isLess same => Nat.ne_of_lt isLess (congrArg index same)
    · have := composed.backOnce
      match back, this with
      | [], _ => exact .nil
      | [_], _ => simp
    · intro pred isOwn o isBack same
      obtain ⟨defn, mem, rfl⟩ := mem_map.mp isOwn
      obtain ⟨backDef, backListed, rfl⟩ := mem_map.mp isBack
      have := (arranged.defined defn mem).1
      rw [same, (composed.backDefs backDef backListed).1] at this
      omega
  · intro site mem loop guard isLoop guards
    rcases mem_cons.mp mem with rfl | isLater
    · cases isLoop
    · obtain ⟨notLess, alone⟩ := arranged.loops site isLater loop guard isLoop guards
      have notHeader : guard ≠ headerPred := by
        rintro rfl
        omega
      refine ⟨notHeader, fun o listedToo guardsToo => ?_⟩
      rcases mem_cons.mp listedToo with rfl | otherLater
      · exact absurd (some.inj guardsToo).symm notHeader
      · exact alone o otherLater guardsToo

end Composed

/-- The loops of spelled statements are composed scopes. -/
theorem Spells.composed
    (spelt : Spells text s depth first start ss nodes defs final last) (positive : 0 < first.preds) {index : Nat}
    (notLess : first.scopes ≤ index) (isLess : index < last.scopes) : ∃ c headerPred numbers limit inside own back,
      text.scope ⟨index⟩ = some c ∧
        Composed text ⟨index⟩ c headerPred numbers limit inside own back := by
  induction spelt with
  | nil => omega
  | simple _ later => exact later positive notLess isLess
  | @ifThenElse _ _ _ middle joined _ _ _ _ _ _ _ _ _ _ _ _ _ _ _ _ _ _ _ thenSpelt _ elseSpelt _ _ thenPart elsePart
      later =>
      have thenPreds := thenSpelt.grow.preds
      have elsePreds := elseSpelt.grow.preds
      simp only [add] at thenPreds elsePreds thenPart elsePart later
      by_cases inThen : index < middle.scopes
      · exact thenPart (by omega) notLess inThen
      · by_cases inElse : index < joined.scopes
        · exact elsePart (by omega) (by omega) inElse
        · exact later (by omega) (by omega) isLess
  | @whileDo s depth first left last b bodyExit pred bodyPred test bound body ss bodyNodes nodes bodyDefs defs
      final headerGuard headerCode bodyGuard loopScope bodySpelt exitGuard laterSpelt bodyPart later =>
      by_cases isHere : index = first.scopes
      · subst isHere
        have inBody : Arranged text first.block first.pred (first.add 1 1 0) left
            (.block (first.add 1 1 0).block :: bodyNodes) _ :=
          (bodySpelt.arranged (lt_succ_self _) (lt_succ_self _)).branch bodyGuard (lt_succ_self _)
            (lt_succ_self _) (lt_succ_self _) (lt_succ_self _) (first.add 1 1 0).block (some (.holds condReg))
        refine ⟨_, first.pred, _, _, _, _, [⟨first.pred, bodyPred, bodyExit, first.block, none⟩], loopScope, rfl, rfl,
          headerGuard, lt_succ_self _, lt_succ_self _, inBody, ?_, le_rfl, ?_⟩
        · intro loop mem
          exact bodySpelt.child ((mem_cons.mp mem).resolve_left (by simp))
        · intro defn mem
          obtain rfl := mem_singleton.mp mem
          refine ⟨rfl, positive, ?_⟩
          rcases bodySpelt.final_node with ⟨isBlock, isPred⟩ | ⟨isNode, guards⟩
          · simp only at isBlock isPred
            exact ⟨by simp [isBlock], by rw [isBlock, isPred, bodyGuard]⟩
          · exact ⟨.tail _ (.tail _ isNode), guards⟩
      · have bodyPreds := bodySpelt.grow.preds
        simp only [add] at bodyPreds bodyPart later
        by_cases inBody : index < left.scopes
        · exact bodyPart (by omega) (by omega) inBody
        · exact later (by omega) (by omega) isLess
  | @repeatUntil s depth first last b pred test bound body ss nodes defs final headerGuard headerCode loopScope
      exitGuard laterSpelt later =>
      by_cases isHere : index = first.scopes
      · subst isHere
        refine ⟨_, first.pred, first.add 1 1 0, first.add 1 1 0, [], [],
          [⟨first.pred, first.pred, first.block, first.block, some (.fails condReg)⟩], loopScope, rfl, rfl, headerGuard,
          lt_succ_self _, lt_succ_self _, .nil _ _ _ _, fun mem => (by cases mem), le_rfl, ?_⟩
        intro defn mem
        obtain rfl := mem_singleton.mp mem
        exact ⟨rfl, positive, .head _, headerGuard⟩
      · simp only [add] at later
        exact later (by omega) (by omega) isLess

/-- Events that enter the scopes and meet the blocks of two ranges, each in the order of the numbers. -/
structure Passes (es : List WalkEvent) (first last : Numbers) : Prop where
  grow : first.Grow last
  entered : es.filterMap WalkEvent.entered = (List.Ico first.scopes last.scopes).map ScopeId.mk
  met : es.filterMap WalkEvent.met = (List.Ico first.blocks last.blocks).map BlockId.mk

namespace Passes

variable {es later : List WalkEvent}

theorem nil (first : Numbers) : Passes [] first first := ⟨first.grow_add 0 0 0, by simp, by simp⟩

theorem append (passes : Passes es first middle) (passesLater : Passes later middle last) :
    Passes (es ++ later) first last where
  grow := passes.grow.trans passesLater.grow
  entered := by
    rw [filterMap_append, passes.entered, passesLater.entered, ← map_append,
      Ico.append_consecutive passes.grow.scopes passesLater.grow.scopes]
  met := by
    rw [filterMap_append, passes.met, passesLater.met, ← map_append,
      Ico.append_consecutive passes.grow.blocks passesLater.grow.blocks]

/-- The next block comes first. -/
theorem block {preds : Nat} (passes : Passes es (first.add 1 preds 0) last) :
    Passes (.block first.block :: es) first last where
  grow := (first.grow_add 1 preds 0).trans passes.grow
  entered := passes.entered
  met := by
    have isLess : first.blocks < last.blocks := passes.grow.blocks
    rw [Ico.eq_cons isLess, met_block, passes.met]
    rfl

/-- The next scope is entered and left. -/
theorem loop {left : Numbers} {s : ScopeId} (isNext : s = first.scope)
    (passes : Passes es (first.add 0 0 1) left) : Passes (.enter s :: es ++ [.exit s]) first left where
  grow := (first.grow_add 0 0 1).trans passes.grow
  entered := by
    have isLess : first.scopes < left.scopes := passes.grow.scopes
    rw [Ico.eq_cons isLess, cons_append, entered_enter, filterMap_append, passes.entered, isNext]
    simp [Numbers.scope]
  met := by
    rw [cons_append, met_enter, filterMap_append, passes.met]
    simp

end Passes

variable {inner : ScopeId → Except Fault (List WalkEvent)} {es : List WalkEvent} {room : Nat}

theorem walkNodes_append {laterEvents : List WalkEvent}
    (walked : walkNodes inner nodes = .ok es) (walkedLater : walkNodes inner later = .ok laterEvents) :
    walkNodes inner (nodes ++ later) = .ok (es ++ laterEvents) := by
  induction nodes generalizing es with
  | nil =>
    cases walked
    exact walkedLater
  | cons node rest ih =>
    cases node with
    | block id =>
      obtain ⟨inside, walkedRest, rfl⟩ := bind_pure_inv walked
      rw [cons_append, walkNodes, ih walkedRest, ok_bind]
      rfl
    | subscope id =>
      obtain ⟨entered, walkedInner, inside, walkedRest, rfl⟩ := bind_bind_pure_inv walked
      rw [cons_append, walkNodes, walkedInner, ok_bind, ih walkedRest, ok_bind, append_assoc]
      rfl

theorem walkNodes_block (walked : walkNodes inner nodes = .ok es) (b : BlockId) :
    walkNodes inner (.block b :: nodes) = .ok (.block b :: es) := by
  rw [walkNodes, walked, ok_bind]
  rfl

/-- A scope is walked if its nodes are, and what follows it. -/
theorem walkNodes_subscope {inside : List WalkEvent}
    (got : tree.get id = .ok c) (walkedInside : walkNodes (tree.walkScope room) c.nodes = .ok inside)
    (walked : walkNodes (tree.walkScope (room + 1)) nodes = .ok es) :
    walkNodes (tree.walkScope (room + 1)) (.subscope id :: nodes) =
      .ok ((.enter id :: inside ++ [.exit id]) ++ es) := by
  rw [walkNodes, walkScope, got, ok_bind, walkedInside, ok_bind, walked]
  rfl

/-- The nodes of spelled statements are walked in the order of the numbers. -/
theorem Spells.walked (spelt : Spells text s depth first start ss nodes defs final last)
    (isScope : tree.scope? = text.scope) (enough : last.scopes ≤ first.scopes + room) :
    ∃ es, walkNodes (tree.walkScope room) nodes = .ok es ∧ Passes es first last := by
  induction spelt generalizing room with
  | nil => exact ⟨[], rfl, .nil _⟩
  | simple _ later => exact later enough
  | ifThenElse _ thenSpelt _ elseSpelt _ laterSpelt thenWalked elseWalked laterWalked =>
    have thenScopes := thenSpelt.grow.scopes
    have elseScopes := elseSpelt.grow.scopes
    have laterScopes := laterSpelt.grow.scopes
    simp only [scopes_add] at *
    obtain ⟨thenEvents, walkedThen, thenPasses⟩ := @thenWalked room (by omega)
    obtain ⟨elseEvents, walkedElse, elsePasses⟩ := @elseWalked room (by omega)
    obtain ⟨laterEvents, walkedLater, laterPasses⟩ := @laterWalked room (by omega)
    refine ⟨_, walkNodes_append (walkNodes_append (walkNodes_block walkedThen _) (walkNodes_block walkedElse _))
      (walkNodes_block walkedLater _), ?_⟩
    exact (thenPasses.block.append elsePasses.block).append laterPasses.block
  | @whileDo _ _ first left _ _ _ _ _ _ _ _ _ _ _ _ _ _ _ _ _ loopScope bodySpelt _ laterSpelt bodyWalked laterWalked =>
    have bodyScopes := bodySpelt.grow.scopes
    have laterScopes := laterSpelt.grow.scopes
    simp only [scopes_add] at *
    obtain ⟨smaller, rfl⟩ : ∃ smaller, room = smaller + 1 := exists_eq_add_one.mpr (by omega)
    obtain ⟨bodyEvents, walkedBody, bodyPasses⟩ := @bodyWalked smaller (by omega)
    obtain ⟨laterEvents, walkedLater, laterPasses⟩ := @laterWalked (smaller + 1) (by omega)
    have got : tree.get first.scope = .ok _ := present_eq_ok.mpr (isScope ▸ loopScope)
    refine ⟨_, walkNodes_subscope got (walkNodes_block (walkNodes_block walkedBody _) _)
      (walkNodes_block walkedLater _), ?_⟩
    have inBody : Passes bodyEvents (((first.add 0 0 1).add 1 1 0).add 1 1 0) left := bodyPasses
    exact (Passes.loop rfl inBody.block.block).append laterPasses.block
  | @repeatUntil _ _ first last _ _ _ _ _ _ _ _ _ _ _ loopScope _ laterSpelt laterWalked =>
    have laterScopes := laterSpelt.grow.scopes
    simp only [scopes_add] at *
    obtain ⟨smaller, rfl⟩ : ∃ smaller, room = smaller + 1 := exists_eq_add_one.mpr (by omega)
    obtain ⟨laterEvents, walkedLater, laterPasses⟩ := @laterWalked (smaller + 1) (by omega)
    have got : tree.get first.scope = .ok _ := present_eq_ok.mpr (isScope ▸ loopScope)
    refine ⟨_, walkNodes_subscope got (walkNodes_block rfl _) (walkNodes_block walkedLater _), ?_⟩
    have inHeader : Passes [] ((first.add 0 0 1).add 1 1 0) (first.add 1 1 1) := .nil _
    have afterLoop : Passes laterEvents ((first.add 1 1 1).add 1 1 0) last := laterPasses
    exact (Passes.loop rfl inHeader.block).append afterLoop.block

end SinglePath
