import SinglePath.Proofs.Program.Meaning
import SinglePath.Proofs.Program.Spelled

/-!
What can be read off spelled statements: the numbers grow, the blocks that are new hold the instructions and tests of
the statements and branches among them, and each of them but the last ends in a branch.
-/

namespace SinglePath

open List Nat Numbers Stmt

variable {text : Text} {s : ScopeId} {depth : Nat} {first last : Numbers} {start final : Place} {ss : List Stmt}
  {nodes : List ScopeNode} {defs : List PredDef}

/-- The code left at a place is a last part of the code of its block. -/
def Place.Sited (place : Place) (text : Text) : Prop := place.rest <:+ text.code place.block

theorem Spells.final_block (spelt : Spells text s depth first start ss nodes defs final last) :
    final.block = start.block ∨ (first.blocks ≤ final.block.index ∧ final.block.index < last.blocks) := by
  induction spelt with
  | nil => exact .inl rfl
  | simple _ later => exact later
  | ifThenElse _ thenSpelt _ elseSpelt _ laterSpelt _ _ later =>
    have thenLe := thenSpelt.blocks_le
    have elseLe := elseSpelt.blocks_le
    have laterLe := laterSpelt.blocks_le
    simp only [add] at thenLe elseLe laterLe later
    rcases later with isJoin | ⟨isNew, isOld⟩
    · simp only [isJoin, block]
      omega
    · omega
  | whileDo _ _ _ _ bodySpelt _ laterSpelt _ later =>
    have bodyLe := bodySpelt.blocks_le
    have laterLe := laterSpelt.blocks_le
    simp only [add] at bodyLe laterLe later
    rcases later with isExit | ⟨isNew, isOld⟩
    · simp only [isExit, block]
      omega
    · omega
  | repeatUntil _ _ _ _ laterSpelt later =>
    have laterLe := laterSpelt.blocks_le
    simp only [add] at laterLe later
    rcases later with isExit | ⟨isNew, isOld⟩
    · simp only [isExit, block]
      omega
    · omega

theorem Spells.sited (spelt : Spells text s depth first start ss nodes defs final last) (sited : start.Sited text) :
    final.Sited text := by
  induction spelt with
  | nil => exact sited
  | simple _ later => exact later ((suffix_cons _ _).trans sited)
  | ifThenElse _ _ _ _ _ _ _ _ later => exact later (suffix_refl _)
  | whileDo _ _ _ _ _ _ _ _ later => exact later (suffix_refl _)
  | repeatUntil _ _ _ _ _ later => exact later (suffix_refl _)

/-- Straight-line code and what it ends in: a branch, a test with its two branches, or what is last. The branches lead
to blocks below the limit. -/
inductive Segment (Inner : Inst → Prop) (Tested : Test → Prop) (limit : Nat) (Last : List Inst → Prop) :
    List Inst → Prop where
  | last {code : List Inst} (isLast : Last code) : Segment Inner Tested limit Last code
  | jump {t : BlockId} (below : t.index < limit) : Segment Inner Tested limit Last [.plain (.branch t)]
  | fork {test : Test} {o next : BlockId} (tested : Tested test) (otherBelow : o.index < limit)
      (nextBelow : next.index < limit) : Segment Inner Tested limit Last (test.inst :: forkCode o next)
  | cons {inst : Inst} {code : List Inst} (inner : Inner inst) (later : Segment Inner Tested limit Last code) :
      Segment Inner Tested limit Last (inst :: code)

variable {Inner : Inst → Prop} {Tested : Test → Prop} {limit : Nat} {Last Other : List Inst → Prop}
    {code body : List Inst}

theorem Segment.mono (segment : Segment Inner Tested limit Last code)
    (goesOn : ∀ code, Last code → Segment Inner Tested limit Other code) : Segment Inner Tested limit Other code := by
  induction segment with
  | last isLast => exact goesOn _ isLast
  | jump below => exact .jump below
  | fork tested otherBelow nextBelow => exact .fork tested otherBelow nextBelow
  | cons inner _ ih => exact .cons inner ih

theorem Segment.prepend (segment : Segment Inner Tested limit Last code) (inner : ∀ inst ∈ body, Inner inst) :
    Segment Inner Tested limit Last (body ++ code) := by
  induction body with
  | nil => exact segment
  | cons inst rest ih =>
    obtain ⟨here, later⟩ := forall_mem_cons.mp inner
    exact .cons here (ih later)

theorem Segment.closed {exit block t : BlockId} (segment : Segment Inner Tested limit
    (fun code => exit = block ∧ code = [.plain (.branch t)]) code) (below : t.index < limit) :
    Segment Inner Tested limit Last code :=
  segment.mono fun _ isLast => isLast.2 ▸ .jump below

/-- All code from one place to the other is in segments, and only that of the last block ends in what is left there. -/
theorem Spells.segments (spelt : Spells text s depth first start ss nodes defs final last)
    (inner : ∀ inst ∈ instsAll ss, Inner inst) (tests : ∀ test ∈ testsAll ss, Tested test)
    (within : last.blocks ≤ limit) :
    Segment Inner Tested limit (fun code => final.block = start.block ∧ code = final.rest) start.rest ∧
      ∀ block : BlockId, first.blocks ≤ block.index → block.index < last.blocks →
        Segment Inner Tested limit (fun code => final.block = block ∧ code = final.rest) (text.code block) := by
  induction spelt with
  | nil => exact ⟨.last ⟨rfl, rfl⟩, fun block isNew isOld => absurd isOld (Nat.not_lt.mpr isNew)⟩
  | simple later ih =>
    simp only [instsAll, insts, testsAll, Stmt.tests, singleton_append, nil_append, forall_mem_cons] at inner tests
    obtain ⟨here, inside⟩ := ih inner.2 tests within
    exact ⟨.cons inner.1 here, inside⟩
  | @ifThenElse _ _ first middle joined last block thenExit elseExit pred _ _ test thenPart elsePart ss _ _
    _ _ _ _ final
      _ thenSpelt _ elseSpelt _ laterSpelt thenSegments elseSegments later =>
      have thenLe := thenSpelt.blocks_le
      have elseLe := elseSpelt.blocks_le
      have laterLe := laterSpelt.blocks_le
      simp only [instsAll, insts, testsAll, Stmt.tests, forall_mem_append, cons_append,
        forall_mem_cons] at inner tests
      simp only [blocks_add] at thenLe elseLe laterLe
      obtain ⟨atThen, inThen⟩ := thenSegments inner.1.1 tests.2.1.1 (by omega)
      obtain ⟨atElse, inElse⟩ := elseSegments inner.1.2 tests.2.1.2 (by omega)
      obtain ⟨atJoin, inLater⟩ := later inner.2 tests.2.2 within
      refine ⟨.fork tests.1 (by simp only [index_block]; omega) (by simp only [index_block]; omega),
        fun block isNew isOld => ?_⟩
      -- Each part ends in the jump to the join.
      have below : joined.block.index < limit := by simp only [index_block]; omega
      rcases Nat.lt_trichotomy block.index middle.blocks with isThen | isMiddle | isElse
      · rcases Nat.eq_or_lt_of_le isNew with isFirst | isInside
        · obtain rfl := eq_block isFirst.symm
          exact atThen.closed below
        · exact (inThen block isInside isThen).closed below
      · obtain rfl := eq_block isMiddle
        exact atElse.closed below
      · rcases Nat.lt_trichotomy block.index joined.blocks with isInside | isJoin | isLater
        · exact (inElse block isElse isInside).closed below
        · obtain rfl := eq_block isJoin
          exact atJoin
        · exact inLater block isLater isOld
  | @whileDo _ _ first left last block bodyExit pred _ test _ body ss _ _ _ _ final _ headerCode _ _
    bodySpelt _ laterSpelt
      bodySegments later =>
      have bodyLe := bodySpelt.blocks_le
      have laterLe := laterSpelt.blocks_le
      simp only [instsAll, insts, testsAll, Stmt.tests, forall_mem_append, cons_append,
        forall_mem_cons] at inner tests
      simp only [blocks_add] at bodyLe laterLe
      obtain ⟨atBody, inBody⟩ := bodySegments inner.1 tests.2.1 (by omega)
      obtain ⟨atExit, inLater⟩ := later inner.2 tests.2.2 within
      refine ⟨.jump (by simp only [index_block]; omega), fun block isNew isOld => ?_⟩
      have below : first.block.index < limit := by simp only [index_block]; omega
      rcases Nat.lt_trichotomy block.index left.blocks with isBody | isExit | isLater
      · rcases Nat.eq_or_lt_of_le isNew with isHeader | isInside
        · obtain rfl := eq_block isHeader.symm
          rw [headerCode]
          exact .fork tests.1 (by simp only [index_block]; omega) (by simp only [index_block, blocks_add]; omega)
        · rcases Nat.eq_or_lt_of_le isInside with isFirst | isMore
          · obtain rfl : block = (first.add 1 1 0).block := eq_block isFirst.symm
            exact atBody.closed below
          · exact (inBody block isMore isBody).closed below
      · obtain rfl := eq_block isExit
        exact atExit
      · exact inLater block isLater isOld
  | @repeatUntil _ _ first last block pred test _ body ss _ _ final _ headerCode _ _ laterSpelt later =>
    have laterLe := laterSpelt.blocks_le
    simp only [instsAll, insts, testsAll, Stmt.tests, forall_mem_append, cons_append,
      nil_append, forall_mem_cons] at inner tests
    simp only [blocks_add] at laterLe
    obtain ⟨atExit, inLater⟩ := later inner.2 tests.2 within
    refine ⟨.jump (by simp only [index_block]; omega), fun block isNew isOld => ?_⟩
    rcases Nat.eq_or_lt_of_le isNew with isHeader | isInside
    · obtain rfl := eq_block isHeader.symm
      rw [headerCode]
      exact Segment.prepend (.fork tests.1 (by omega) (by simp only [index_block, blocks_add]; omega)) inner.1
    · rcases Nat.eq_or_lt_of_le isInside with isExit | isLater
      · obtain rfl : block = (first.add 1 1 0).block := eq_block isExit.symm
        exact atExit
      · exact inLater block isLater isOld

/-- What holds of the inner instructions, the tests, the branches and of what is last, holds of all code. -/
theorem Segment.forall_mem {Good : Inst → Prop} (segment : Segment Inner Tested limit Last code)
    (inner : ∀ inst, Inner inst → Good inst) (tests : ∀ test, Tested test → Good test.inst)
    (branches : ∀ t : BlockId, t.index < limit → Good (.plain (.branch t)) ∧ Good (.branchIf (.fails condReg) t))
    (atEnd : ∀ code, Last code → ∀ inst ∈ code, Good inst) : ∀ inst ∈ code, Good inst := by
  induction segment with
  | last isLast => exact atEnd _ isLast
  | jump below => simpa using (branches _ below).1
  | fork tested otherBelow nextBelow =>
    simp only [forkCode, forall_mem_cons]
    exact ⟨tests _ tested, (branches _ otherBelow).2, (branches _ nextBelow).1, by simp⟩
  | cons isInner _ ih => exact forall_mem_cons.mpr ⟨inner _ isInner, ih⟩

/-- The code ends in what is last, or has a branch that is always taken. -/
theorem Segment.closes (segment : Segment Inner Tested limit Last code) :
    (∃ rest, Last rest ∧ rest <:+ code) ∨ ∃ t, Inst.plain (.branch t) ∈ code := by
  induction segment with
  | last isLast => exact .inl ⟨_, isLast, suffix_refl _⟩
  | @jump t _ => exact .inr ⟨t, by simp⟩
  | @fork _ _ next => exact .inr ⟨next, by simp [forkCode]⟩
  | cons _ _ ih =>
    refine ih.imp ?_ ?_
    · exact fun ⟨rest, isLast, part⟩ => ⟨rest, isLast, part.trans (suffix_cons _ _)⟩
    · exact fun ⟨t, isBranch⟩ => ⟨t, .tail _ isBranch⟩

end SinglePath
