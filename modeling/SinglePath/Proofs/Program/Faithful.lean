import SinglePath.Program.Samples
import SinglePath.Proofs.Flow.Trails
import SinglePath.Proofs.Program.Built

namespace SinglePath

open Builder Inst List Machine Nat Numbers PReg Spells Stmt

variable {f : Func} {regs : TargetRegs} {b t o : BlockId} {rest : List Inst} {m next : Machine}
  {inst : Inst} {test : Test} {ss : List Stmt} {cause : Failure RunError} {v : Bool}

def Place.point (place : Place) : Point := ⟨place.block, place.rest⟩

theorem Machine.perform_next {after : Machine} {transfer : Transfer}
    (plain : inst.isTerminator = false) (ran : m.perform regs inst = .ok (after, transfer)) : transfer = .next := by
  obtain ⟨_, effect⟩ := perform_eq_ok.mp ran
  split at effect
  · obtain ⟨update, decided, _⟩ := effect
    have transfers := decide_transfer decided
    split at transfers
    · simp_all [isTerminator, isBranch, branchTarget]
    · simp_all [isTerminator, isReturn]
    · exact transfers
  · exact effect.2

namespace Setting

theorem step_after (plain : inst.isTerminator = false) : (f.free regs).step ⟨b, inst :: rest⟩ m =
      (m.after regs inst).map fun next => .running ⟨b, rest⟩ next := by
  unfold Machine.after
  cases ran : m.perform regs inst with
  | error cause =>
    rw [step_of_failure ran]
    rfl
  | ok result =>
    obtain ⟨after, transfer⟩ := result
    obtain rfl := perform_next plain ran
    rw [step_of_perform ran]
    rfl

theorem moves_simple (plain : inst.isTerminator = false) (ran : m.after regs inst = .ok next) :
    (f.free regs).Moves (.running ⟨b, inst :: rest⟩ m) (.running ⟨b, rest⟩ next) := by
  refine .of_step ?_
  rw [step_after plain, ran]
  rfl

theorem leads_simple_error (plain : inst.isTerminator = false) (stops : m.after regs inst = .error cause) :
    (f.free regs).Leads (.running ⟨b, inst :: rest⟩ m) (.error cause) := by
  refine .of_step ?_
  rw [step_after plain, stops]
  rfl

/-- Instructions that are not terminators are performed one after the other. -/
theorem leads_afterAll {insts : List Inst} (plain : StraightLine insts) :
    (f.free regs).Leads (.running ⟨b, insts ++ rest⟩ m)
      ((m.afterAll regs insts).map fun next => .running ⟨b, rest⟩ next) := by
  induction insts generalizing m with
  | nil => exact .refl _ _
  | cons inst more ih =>
    obtain ⟨plainInst, plainMore⟩ := forall_mem_cons.mp plain
    unfold afterAll
    cases ran : m.after regs inst with
    | error cause => exact leads_simple_error plainInst ran
    | ok between => exact (moves_simple plainInst ran).leads.trans (ih plainMore)

variable (const : m.pred PReg.zero = true) {p : Point}

include const

theorem perform_branch (regs : TargetRegs) (t : BlockId) :
    m.perform regs (.plain (.branch t)) = .ok (m.fetch, .jump t) := by
  rw [perform_of_always const rfl]
  rfl

theorem step_jump (starts : f.startOf t = .ok p) : (f.free regs).step ⟨b, .plain (.branch t) :: rest⟩ m =
      .ok (.running p m.fetch) :=
  step_cons.mpr ⟨_, .inr (.inl ⟨t, p, perform_branch const regs t, starts, rfl⟩)⟩

/-- A test and the branches behind it. -/
theorem crosses_test (tested : test.eval m = .ok (v, next)) (starts : f.startOf (if v then t else o) = .ok p) :
    ∃ points, (f.free regs).Crosses b (test.inst :: forkCode o t) m points (.running p (next.fork v)) := by
  obtain ⟨isValue, isConstant⟩ := eval_pred tested
  have ran : m.perform regs test.inst = .ok (next, .next) := by
    rw [perform_test const, tested]
    rfl
  have cond : next.cond (.fails condReg) = .ok !v := by
    rw [cond_eq_ok]
    exact ⟨by decide, by simp [holds, Cond.fails, isValue]⟩
  have branched : next.perform regs (.branchIf (.fails condReg) o) =
      if v then .ok (next.skip, .next) else .ok (next.fetch, .jump o) := by
    rw [perform_eq, show (branchIf (.fails condReg) o).guard = .fails condReg from rfl, cond]
    cases v <;> rfl
  cases v with
  | true =>
    have constantLeft : next.skip.pred zero = true := isConstant.trans const
    have jumps : (f.free regs).Crosses b [.plain (.branch t)] next.skip _ (.running p (next.fork true)) :=
      .of_step (step_jump constantLeft starts)
    exact ⟨_, (jumps.cons (step_of_perform branched)).cons (step_of_perform ran)⟩
  | false =>
    have jumps : (f.free regs).Crosses b (forkCode o t) next _ (.running p (next.fork false)) :=
      .of_step (step_cons.mpr ⟨_, .inr (.inl ⟨o, p, branched, starts, rfl⟩)⟩)
    exact ⟨_, jumps.cons (step_of_perform ran)⟩

theorem leads_test_error (stops : test.eval m = .error cause) :
    (f.free regs).Leads (.running ⟨b, test.inst :: rest⟩ m) (.error cause) := by
  have ran : m.perform regs test.inst = .error cause := by
    rw [perform_test const, stops]
    rfl
  exact .of_step (step_of_failure ran)

theorem step_leave (r : GReg) : (f.free regs).step ⟨b, .plain (.ret r) :: rest⟩ m =
      (m.leave r).map fun result => .returned result.value result.machine := by
  have ran : m.perform regs (.plain (.ret r)) = m.fetch.execute regs (.ret r) := perform_of_always const rfl
  have step : (f.free regs).step ⟨b, .plain (.ret r) :: rest⟩ m = m.perform regs (.plain (.ret r)) >>= _ := rfl
  rw [step, ran]
  have base : m.fetch.returnBase = m.returnBase := rfl
  have k : m.fetch.returnOffset = m.returnOffset := rfl
  have read : m.fetch.readReg r = m.readReg r := rfl
  simp only [execute, leave, base, k, read]
  split
  · rfl
  · cases m.readReg r <;> rfl

end Setting

section

variable {text : Text} {limit depth steps : Nat} {header exit : BlockId} {s : ScopeId}
  {first middle joined last : Numbers} {start final : Place} {thenPart elsePart : List Stmt} {nodes : List ScopeNode}
  {defs : List PredDef} {outcome : RunOutcome Machine}

/-- The blocks below the limit start with the code that the text has for them. -/
def Func.Starts (f : Func) (text : Text) (limit : Nat) : Prop :=
  ∀ b : BlockId, b.index < limit → f.startOf b = .ok ⟨b, text.code b⟩

section

variable (starts : f.Starts text limit) {inner : BlockId}

include starts

/-- A test leads to the one or the other block. -/
theorem Func.Starts.moves_test (const : m.pred zero = true)
    (tested : test.eval m = .ok (v, next)) (otherBelow : o.index < limit) (targetBelow : t.index < limit) :
    (f.free regs).Moves (.running ⟨b, test.inst :: forkCode o t⟩ m)
      (.running ⟨if v then t else o, text.code (if v then t else o)⟩ (next.fork v)) := by
  have below : (if v then t else o).index < limit := by cases v <;> assumption
  obtain ⟨_, crosses⟩ := Setting.crosses_test const tested (starts _ below)
  exact crosses.moves

theorem Func.Starts.moves_jump (const : m.pred zero = true) (below : t.index < limit) :
    (f.free regs).Moves (.running ⟨b, .plain (.branch t) :: rest⟩ m) (.running ⟨t, text.code t⟩ m.fetch) :=
  .of_step (Setting.step_jump const (starts _ below))

variable (headerCode : text.code header = test.inst :: forkCode exit inner) (headerBelow : header.index < limit)

include headerCode headerBelow

/-- A branch to a header leads to its test. -/
theorem Func.Starts.moves_toHeader (const : m.pred zero = true) :
    (f.free regs).Moves (.running ⟨b, .plain (.branch header) :: rest⟩ m)
      (.running ⟨header, test.inst :: forkCode exit inner⟩ m.fetch) := by
  rw [← headerCode]
  exact starts.moves_jump const headerBelow

/-- From a jump to the header of a loop through its test into the body or to the exit. -/
theorem Func.Starts.moves_header (innerBelow : inner.index < limit) (exitBelow : exit.index < limit)
    (const : m.pred zero = true) (tested : test.eval m.fetch = .ok (v, next)) :
    (f.free regs).Moves (.running ⟨b, .plain (.branch header) :: rest⟩ m)
      (.running ⟨if v then inner else exit, text.code (if v then inner else exit)⟩ (next.fork v)) := by
  have constantInside : m.fetch.pred zero = true := const
  exact (starts.moves_toHeader headerCode headerBelow const).trans_leads
    (starts.moves_test constantInside tested exitBelow innerBelow).leads

theorem Func.Starts.leads_header_error (const : m.pred zero = true) (stops : test.eval m.fetch = .error cause) :
    (f.free regs).Leads (.running ⟨b, .plain (.branch header) :: rest⟩ m) (.error cause) := by
  have constantInside : m.fetch.pred zero = true := const
  exact (starts.moves_toHeader headerCode headerBelow const).leads.trans
    (Setting.leads_test_error constantInside stops)

end

section

variable {body : List Inst}

/-- One round of a straight-line loop leads to its start or to its exit. -/
theorem Func.Starts.moves_round (starts : f.Starts text limit) (plain : StraightLine body)
    (headerCode : text.code header = body ++ test.inst :: forkCode header exit) (headerBelow : header.index < limit)
    (exitBelow : exit.index < limit) (round : test.round regs body m = .ok (v, next))
    (const : m.pred zero = true) : (f.free regs).Moves (.running ⟨header, text.code header⟩ m)
      (.running ⟨if v then exit else header, text.code (if v then exit else header)⟩ (next.fork v)) := by
  obtain ⟨between, ran, tested⟩ := bind_inv round
  have straight : (f.free regs).Leads (.running ⟨header, body ++ test.inst :: forkCode header exit⟩ m) _ :=
    Setting.leads_afterAll plain
  rw [ran, ← headerCode] at straight
  have constantLeft := (afterAll_constant ran).trans const
  exact straight.trans_moves (starts.moves_test constantLeft tested headerBelow exitBelow)

theorem leads_round_error (plain : StraightLine body)
    (headerCode : text.code header = body ++ test.inst :: forkCode header exit)
    (round : test.round regs body m = .error cause) (const : m.pred zero = true) :
    (f.free regs).Leads (.running ⟨header, text.code header⟩ m) (.error cause) := by
  have straight : (f.free regs).Leads (.running ⟨header, body ++ test.inst :: forkCode header exit⟩ m) _ :=
    Setting.leads_afterAll plain
  rw [← headerCode] at straight
  unfold Test.round at round
  cases ran : m.afterAll regs body with
  | error reason =>
    rw [ran] at straight round
    obtain rfl := Except.error.inj round
    exact straight
  | ok between =>
    rw [ran] at straight round
    have constantLeft := (afterAll_constant ran).trans const
    exact straight.trans (Setting.leads_test_error constantLeft round)

variable (starts : f.Starts text limit) (plain : StraightLine body)
  (headerCode : text.code header = body ++ test.inst :: forkCode header exit) (headerBelow : header.index < limit)
  (exitBelow : exit.index < limit)

include starts plain headerCode headerBelow exitBelow

/-- All rounds of a straight-line loop lead from the start of its block to the exit. -/
theorem Rounds.leads (rounds : Rounds regs body test m outcome)
    (const : m.pred zero = true) : (f.free regs).Leads (.running ⟨header, text.code header⟩ m)
      (outcome.map fun next => .running ⟨exit, text.code exit⟩ next) := by
  induction rounds with
  | leaves round => exact (starts.moves_round plain headerCode headerBelow exitBelow round const).leads
  | again round _ ih =>
    have constantLeft := (Test.round_pred round).2.trans const
    exact (starts.moves_round plain headerCode headerBelow exitBelow round const).leads.trans
      (ih (by simpa using constantLeft))
  | stops round => exact leads_round_error plain headerCode round const

/-- If the run is over some time, the rounds come to something. -/
theorem Func.Starts.rounds (const : m.pred zero = true)
    (isOver : (f.free regs).IsOver steps (.running ⟨header, text.code header⟩ m)) :
    ∃ outcome, Rounds regs body test m outcome := by
  induction steps using Nat.strongRecOn generalizing m with
  | ind steps ih =>
    cases round : test.round regs body m with
    | error cause => exact ⟨_, .stops round⟩
    | ok result =>
      obtain ⟨v, next⟩ := result
      have moves := starts.moves_round plain headerCode headerBelow exitBelow round const
      cases v with
      | true => exact ⟨_, .leaves round⟩
      | false =>
        obtain ⟨fewer, isLess, overLater⟩ := isOver.of_moves moves
        have constantLeft := (Test.round_pred round).2.trans const
        obtain ⟨outcome, later⟩ := ih fewer isLess (by simpa using constantLeft) overLater
        exact ⟨outcome, .again round later⟩

end

/-- The part of a conditional that a test chooses, spelled from its first block to the jump to the join. -/
theorem Spells.chosen
    {thenNodes elseNodes : List ScopeNode} {thenDefs elseDefs : List PredDef} {thenExit elseExit : BlockId}
    {thenPred elsePred : PredId} {jump : List Inst}
    (thenSpelt : Spells text s depth (first.add 1 1 0) ⟨first.block, first.pred, text.code first.block⟩ thenPart
      thenNodes thenDefs ⟨thenExit, thenPred, jump⟩ middle)
    (elseSpelt : Spells text s depth (middle.add 1 1 0) ⟨middle.block, middle.pred, text.code middle.block⟩ elsePart
      elseNodes elseDefs ⟨elseExit, elsePred, jump⟩ joined) (v : Bool) :
    ∃ numbers pred nodes defs exit exitPred last,
      Spells text s depth numbers ⟨if v then first.block else middle.block, pred,
        text.code (if v then first.block else middle.block)⟩ (if v then thenPart else elsePart) nodes defs
        ⟨exit, exitPred, jump⟩ last ∧ last.blocks ≤ joined.blocks := by
  have elseLe := elseSpelt.blocks_le
  rw [blocks_add] at elseLe
  cases v with
  | true => exact ⟨_, _, _, _, _, _, _, thenSpelt, by omega⟩
  | false => exact ⟨_, _, _, _, _, _, _, elseSpelt, le_rfl⟩

section

variable {left : Numbers} {next between exit place : Place} {body : List Stmt} {bodyNodes moreNodes : List ScopeNode}
  {bodyDefs moreDefs : List PredDef} {bound : Option UInt32}

theorem Spells.below_of_ifThenElse
    (thenSpelt : Spells text s depth (first.add 1 1 0) start thenPart nodes defs between middle)
    (elseSpelt : Spells text s depth (middle.add 1 1 0) next elsePart bodyNodes bodyDefs exit joined)
    (laterSpelt : Spells text s depth (joined.add 1 0 0) place ss moreNodes moreDefs final last)
    (within : last.blocks ≤ limit) :
    first.block.index < limit ∧ middle.block.index < limit ∧ joined.block.index < limit := by
  have thenLe := thenSpelt.blocks_le
  have elseLe := elseSpelt.blocks_le
  have laterLe := laterSpelt.blocks_le
  simp only [blocks_add, index_block] at *
  omega

theorem Spells.below_of_whileDo {inner : ScopeId}
    (bodySpelt : Spells text inner (depth + 1) (first.add 2 2 1) start body nodes defs between left)
    (laterSpelt : Spells text s depth (left.add 1 1 0) place ss moreNodes moreDefs final last)
    (within : last.blocks ≤ limit) :
    first.block.index < limit ∧ (first.add 1 1 0).block.index < limit ∧ left.block.index < limit := by
  have bodyLe := bodySpelt.blocks_le
  have laterLe := laterSpelt.blocks_le
  simp only [blocks_add, index_block] at *
  omega

theorem Spells.below_of_repeatUntil
    (laterSpelt : Spells text s depth (first.add 2 2 1) place ss moreNodes moreDefs final last)
    (within : last.blocks ≤ limit) : first.block.index < limit ∧ (first.add 1 1 0).block.index < limit := by
  have laterLe := laterSpelt.blocks_le
  simp only [blocks_add, index_block] at *
  omega

theorem Stmt.plain_ifThenElse (plain : StraightLine (instsAll (.ifThenElse test thenPart elsePart :: ss))) (v : Bool) :
    (StraightLine (instsAll (if v then thenPart else elsePart))) ∧
      StraightLine (instsAll ss) := by
  simp only [instsAll, insts, forall_mem_append] at plain
  cases v
  · exact ⟨plain.1.2, plain.2⟩
  · exact ⟨plain.1.1, plain.2⟩

theorem Stmt.plain_whileDo (plain : StraightLine (instsAll (.whileDo test bound body :: ss))) :
    (StraightLine (instsAll body)) ∧ StraightLine (instsAll ss) := by
  simpa only [instsAll, insts, forall_mem_append] using plain

theorem Stmt.plain_repeatUntil {body : List Inst}
    (plain : StraightLine (instsAll (.repeatUntil body test bound :: ss))) :
    (StraightLine body) ∧ StraightLine (instsAll ss) := by
  simpa only [instsAll, insts, forall_mem_append] using plain

end

/-- The run from the first place leads to the last one with the machine that the statements come to, or it stops where
they stop. -/
theorem Executes.leads (starts : f.Starts text limit) (executes : Executes regs ss m outcome)
    (spelt : Spells text s depth first start ss nodes defs final last) (within : last.blocks ≤ limit)
    (plain : StraightLine (instsAll ss)) (const : m.pred zero = true) :
    (f.free regs).Leads (.running start.point m) (outcome.map fun next => .running final.point next) := by
  induction executes generalizing s depth first start nodes defs final last with
  | done =>
    cases spelt
    exact .refl _ _
  | simple ran _ laterLeads =>
    cases spelt with
    | simple laterSpelt =>
      simp only [instsAll, insts, singleton_append, forall_mem_cons] at plain
      exact (Setting.moves_simple plain.1 ran).leads.trans
        (laterLeads laterSpelt within plain.2 ((after_constant ran).trans const))
  | simpleStops stops =>
    cases spelt with
    | simple laterSpelt =>
      simp only [instsAll, insts, singleton_append, forall_mem_cons] at plain
      exact Setting.leads_simple_error plain.1 stops
  | @branch test thenPart elsePart ss m next after v outcome tested inside later insideLeads laterLeads =>
    cases spelt with
    | ifThenElse _ thenSpelt _ elseSpelt _ laterSpelt =>
      have below := below_of_ifThenElse thenSpelt elseSpelt laterSpelt within
      have constantInside := fork_constant tested const
      have constantAfter : after.pred zero = true := (inside.constant _ rfl).trans constantInside
      obtain ⟨_, _, _, _, _, _, _, partSpelt, partLe⟩ := thenSpelt.chosen elseSpelt v
      obtain ⟨plainPart, plainLater⟩ := plain_ifThenElse plain v
      exact (starts.moves_test const tested below.2.1 below.1).leads.trans
        ((insideLeads partSpelt (Nat.le_trans partLe (Nat.le_of_lt below.2.2)) plainPart constantInside).trans
          ((starts.moves_jump constantAfter below.2.2).leads.trans
            (laterLeads laterSpelt within plainLater constantAfter)))
  | @branchStops test thenPart elsePart ss m next v cause tested inside insideLeads =>
    cases spelt with
    | ifThenElse _ thenSpelt _ elseSpelt _ laterSpelt =>
      have below := below_of_ifThenElse thenSpelt elseSpelt laterSpelt within
      have constantInside := fork_constant tested const
      obtain ⟨_, _, _, _, _, _, _, partSpelt, partLe⟩ := thenSpelt.chosen elseSpelt v
      obtain ⟨plainPart, _⟩ := plain_ifThenElse plain v
      exact (starts.moves_test const tested below.2.1 below.1).leads.trans
        (insideLeads partSpelt (Nat.le_trans partLe (Nat.le_of_lt below.2.2)) plainPart constantInside)
  | branchTestStops stops =>
    cases spelt with
    | ifThenElse => exact Setting.leads_test_error const stops
  | whileLeaves tested _ laterLeads =>
    cases spelt with
    | whileDo _ headerCode _ _ bodySpelt _ laterSpelt =>
      have below := below_of_whileDo bodySpelt laterSpelt within
      exact (starts.moves_header headerCode below.1 below.2.1 below.2.2 const tested).leads.trans
        (laterLeads laterSpelt within (plain_whileDo plain).2 (fork_constant tested const))
  | whileAgain tested inside _ insideLeads againLeads =>
    cases spelt with
    | @whileDo _ _ _ _ _ _ bodyExit _ bodyPred _ _ _ _ _ _ _ _ _ headerGuard headerCode bodyGuard loop
      bodySpelt exitGuard
        laterSpelt =>
        have below := below_of_whileDo bodySpelt laterSpelt within
        have constantInside := fork_constant tested const
        have constantAfter := (inside.constant _ rfl).trans constantInside
        -- The body ends with a jump to the header, so the loop is spelled from there as well.
        have spelled : Spells text s depth first
          ⟨bodyExit, bodyPred, [.plain (.branch first.block)]⟩ _ _ _ final last :=
          .whileDo headerGuard headerCode bodyGuard loop bodySpelt exitGuard laterSpelt
        have again := againLeads spelled within plain constantAfter
        exact (starts.moves_header headerCode below.1 below.2.1 below.2.2 const tested).leads.trans
          ((insideLeads bodySpelt (Nat.le_of_lt below.2.2) (plain_whileDo plain).1 constantInside).trans again)
  | whileStops tested _ insideLeads =>
    cases spelt with
    | whileDo _ headerCode _ _ bodySpelt _ laterSpelt =>
      have below := below_of_whileDo bodySpelt laterSpelt within
      exact (starts.moves_header headerCode below.1 below.2.1 below.2.2 const tested).leads.trans
        (insideLeads bodySpelt (Nat.le_of_lt below.2.2) (plain_whileDo plain).1 (fork_constant tested const))
  | whileTestStops stops =>
    cases spelt with
    | whileDo _ headerCode _ _ bodySpelt _ laterSpelt =>
      have below := below_of_whileDo bodySpelt laterSpelt within
      exact starts.leads_header_error headerCode below.1 const stops
  | repeated rounds _ laterLeads =>
    cases spelt with
    | repeatUntil _ headerCode _ _ laterSpelt =>
      have below := below_of_repeatUntil laterSpelt within
      obtain ⟨plainBody, plainLater⟩ := plain_repeatUntil plain
      have constantAfter := (rounds.constant _ rfl).trans const
      exact (starts.moves_jump const below.1).leads.trans
        ((rounds.leads starts plainBody headerCode below.1 below.2 const).trans
          (laterLeads laterSpelt within plainLater constantAfter))
  | repeatStops rounds =>
    cases spelt with
    | repeatUntil _ headerCode _ _ laterSpelt =>
      have below := below_of_repeatUntil laterSpelt within
      exact (starts.moves_jump const below.1).leads.trans
        (rounds.leads starts (plain_repeatUntil plain).1 headerCode below.1 below.2 const)

/-- If the run from the first place is over some time, the statements come to something. -/
theorem Spells.executes (starts : f.Starts text limit)
    (spelt : Spells text s depth first start ss nodes defs final last) (within : last.blocks ≤ limit)
    (plain : StraightLine (instsAll ss)) (const : m.pred zero = true)
    (isOver : (f.free regs).IsOver steps (.running start.point m)) : ∃ outcome, Executes regs ss m outcome := by
  -- The induction is on the number of steps: each statement takes at least one, also where a loop starts again.
  induction steps using Nat.strongRecOn generalizing ss m s depth first last start final nodes defs with
  | ind steps ih =>
    cases spelt with
    | nil => exact ⟨_, .done⟩
    | @simple _ _ _ _ b _ code inst _ _ _ _ laterSpelt =>
      simp only [instsAll, insts, singleton_append, forall_mem_cons] at plain
      cases ran : m.after regs inst with
      | error cause => exact ⟨_, .simpleStops ran⟩
      | ok next =>
        obtain ⟨fewer, isLess, overLater⟩ := isOver.of_moves (Setting.moves_simple plain.1 ran)
        have constantLeft := (after_constant ran).trans const
        obtain ⟨outcome, later⟩ := ih fewer isLess laterSpelt within plain.2 constantLeft overLater
        exact ⟨outcome, .simple ran later⟩
    | @ifThenElse _ _ _ middle joined _ _ _ _ _ _ _ test thenPart elsePart _ _ _ _ _ _ _ _ _ thenSpelt _ elseSpelt _
      laterSpelt =>
      have below := below_of_ifThenElse thenSpelt elseSpelt laterSpelt within
      cases tested : test.eval m with
      | error cause => exact ⟨_, .branchTestStops tested⟩
      | ok result =>
        obtain ⟨v, next⟩ := result
        have constantInside := fork_constant tested const
        obtain ⟨_, _, _, _, _, _, _, partSpelt, partLe⟩ := thenSpelt.chosen elseSpelt v
        obtain ⟨plainPart, plainLater⟩ := plain_ifThenElse plain v
        have partWithin := Nat.le_trans partLe (Nat.le_of_lt below.2.2)
        obtain ⟨fewer, isLess, overInside⟩ := isOver.of_moves (starts.moves_test const tested below.2.1 below.1)
        obtain ⟨reached, inside⟩ := ih fewer isLess partSpelt partWithin plainPart constantInside overInside
        cases reached with
        | error cause => exact ⟨_, .branchStops tested inside⟩
        | ok after =>
          have constantAfter : after.pred zero = true := (inside.constant _ rfl).trans constantInside
          have leads := inside.leads starts partSpelt partWithin plainPart constantInside
          obtain ⟨even, isLe, overLater⟩ :=
            overInside.of_leads (leads.trans (starts.moves_jump constantAfter below.2.2).leads)
          have constantJoin : after.fetch.pred zero = true := constantAfter
          obtain ⟨outcome, later⟩ := ih even (by omega) laterSpelt within plainLater constantJoin overLater
          exact ⟨outcome, .branch tested inside later⟩
    | @whileDo _ _ _ _ _ _ bodyExit _ bodyPred test _ _ _ _ _ _ _ _ headerGuard headerCode bodyGuard loop
      bodySpelt exitGuard
        laterSpelt =>
        have below := below_of_whileDo bodySpelt laterSpelt within
        obtain ⟨plainBody, plainLater⟩ := plain_whileDo plain
        cases tested : test.eval m.fetch with
        | error cause => exact ⟨_, .whileTestStops tested⟩
        | ok result =>
          obtain ⟨v, next⟩ := result
          have constantInside := fork_constant tested const
          obtain ⟨fewer, isLess, overInside⟩ :=
            isOver.of_moves (starts.moves_header headerCode below.1 below.2.1 below.2.2 const tested)
          cases v with
          | false =>
            obtain ⟨outcome, later⟩ := ih fewer isLess laterSpelt within plainLater constantInside overInside
            exact ⟨outcome, .whileLeaves tested later⟩
          | true =>
            have bodyWithin := Nat.le_of_lt below.2.2
            obtain ⟨reached, inside⟩ := ih fewer isLess bodySpelt bodyWithin plainBody constantInside overInside
            cases reached with
            | error cause => exact ⟨_, .whileStops tested inside⟩
            | ok after =>
              have constantAfter : after.pred zero = true := (inside.constant _ rfl).trans constantInside
              have leads := inside.leads starts bodySpelt bodyWithin plainBody constantInside
              obtain ⟨even, isLe, overAgain⟩ := overInside.of_leads leads
              have spelled : Spells text s depth first ⟨bodyExit, bodyPred, [.plain (.branch first.block)]⟩ _ _ _
                final last := .whileDo headerGuard headerCode bodyGuard loop bodySpelt exitGuard laterSpelt
              obtain ⟨outcome, again⟩ := ih even (by omega) spelled within plain constantAfter overAgain
              exact ⟨outcome, .whileAgain tested inside again⟩
    | @repeatUntil _ _ _ _ _ _ test _ body _ _ _ _ _ headerCode _ _ laterSpelt =>
      have below := below_of_repeatUntil laterSpelt within
      obtain ⟨plainBody, plainLater⟩ := plain_repeatUntil plain
      obtain ⟨fewer, isLess, overInside⟩ := isOver.of_moves (starts.moves_jump const below.1)
      have constantInside : m.fetch.pred zero = true := const
      obtain ⟨reached, rounds⟩ := starts.rounds plainBody headerCode below.1 below.2 constantInside overInside
      cases reached with
      | error cause => exact ⟨_, .repeatStops rounds⟩
      | ok after =>
        have constantAfter := (rounds.constant _ rfl).trans const
        obtain ⟨even, isLe, overLater⟩ :=
          overInside.of_leads (rounds.leads starts plainBody headerCode below.1 below.2 constantInside)
        obtain ⟨outcome, later⟩ := ih even (by omega) laterSpelt within plainLater constantAfter overLater
        exact ⟨outcome, .repeated rounds later⟩

end

namespace Program

variable {program : Program} {result : GReg} {outline : Outline} {outcome : RunOutcome RunResult}

theorem Built.starts (built : program.Built ss result outline) :
    program.func.Starts program.text outline.numbers.blocks := by
  intro b inside
  obtain ⟨c, isFound⟩ := built.found inside
  rw [Func.startOf, Func.get_eq_ok.mpr isFound]
  simp only [ok_bind, text, Func.codeOf_eq isFound]
  rfl

theorem Built.enter (built : program.Built ss result outline) (limit : Option Nat) :
    (⟨program.func, regs, limit⟩ : Setting).enter m =
      .ok (.running ⟨⟨0⟩, prologue frameWords ++ outline.body⟩ m) := by
  have inside : (⟨0⟩ : BlockId).index < outline.numbers.blocks :=
    Nat.lt_of_lt_of_le Nat.zero_lt_one built.spelt.blocks_le
  rw [Setting.enter, built.entry, built.starts _ inside]
  exact congrArg (fun code => Except.ok (Status.running ⟨⟨0⟩, code⟩ m)) built.entryCode

theorem prologue_plain : StraightLine (prologue frameWords) := by decide

theorem restoring_plain : StraightLine (restoring frameWords) := by decide

variable (built : program.Built ss result outline) (plain : StraightLine (instsAll ss))
  (const : m.pred zero = true)

include built plain const

/-- The run comes to what the program means. -/
theorem Built.finishes (evaluates : Evaluates regs ss result m outcome) : program.func.Finishes regs m outcome := by
  refine ⟨_, built.enter none, ?_⟩
  have setup : (program.func.free regs).Leads
      (.running ⟨⟨0⟩, prologue frameWords ++ outline.body⟩ m) _ := Setting.leads_afterAll prologue_plain
  cases evaluates with
  | setupStops stops =>
    rw [stops] at setup
    exact setup
  | @executed started reached isSetup executes =>
    rw [isSetup] at setup
    have constantInside := (afterAll_constant isSetup).trans const
    have inside := executes.leads built.starts built.spelt le_rfl plain constantInside
    cases reached with
    | error cause => exact setup.trans inside
    | ok middle =>
      have constantAfter := (executes.constant _ rfl).trans constantInside
      have restores : (program.func.free regs).Leads
          (.running ⟨outline.exit, restoring frameWords ++ [.plain (.ret result)]⟩ middle) _ :=
        Setting.leads_afterAll restoring_plain
      refine setup.trans (inside.trans ?_)
      rw [ok_bind]
      cases restored : middle.afterAll regs (restoring frameWords) with
      | error cause =>
        rw [restored] at restores
        exact restores
      | ok last =>
        rw [restored] at restores
        have constantLast := (afterAll_constant restored).trans constantAfter
        exact restores.trans (.of_step (Setting.step_leave constantLast result))

/-- If the run comes to an end, the program means something. -/
theorem Built.evaluates
    (finishes : program.func.Finishes regs m outcome) : ∃ meaning, Evaluates regs ss result m meaning := by
  obtain ⟨start, entered, finishes⟩ := finishes
  obtain rfl := ok_unique (built.enter none) entered
  obtain ⟨steps, isOver, _⟩ := finishes.isOver
  cases setup : m.afterAll regs (prologue frameWords) with
  | error cause => exact ⟨_, .setupStops setup⟩
  | ok started =>
    have leads : (program.func.free regs).Leads
      (.running ⟨⟨0⟩, prologue frameWords ++ outline.body⟩ m) _ := Setting.leads_afterAll prologue_plain
    rw [setup] at leads
    obtain ⟨fewer, _, overInside⟩ := isOver.of_leads leads
    have constantInside := (afterAll_constant setup).trans const
    obtain ⟨reached, executes⟩ := built.spelt.executes built.starts le_rfl plain constantInside overInside
    exact ⟨_, .executed setup executes⟩

/-- A built program finishes as its statements evaluate. -/
theorem Built.finishes_iff : program.func.Finishes regs m outcome ↔ Evaluates regs ss result m outcome := by
  refine ⟨fun finishes => ?_, built.finishes plain const⟩
  obtain ⟨meaning, evaluates⟩ := built.evaluates plain const finishes
  rwa [finishes.unique (built.finishes plain const evaluates)]

end Program

/-- Statements without branches and returns of their own are built into a program that does what they mean. Its run
comes to the machine and the value that the statements come to, or stops for the same reason, and under the limit it
does so unless it is given up. The bounds of loops have no influence on it. -/
theorem Builder.finish_faithful {builder : Builder} (opened : builder.Opened) {stmts : List Stmt}
    (plain : ∀ inst ∈ Stmt.instsAll stmts, inst.isTerminator = false) (result : GReg) :
    ∃ program, builder.finish stmts result = .ok program ∧
      (∀ regs machine, machine.pred PReg.zero = true → ∀ outcome,
        program.func.Finishes regs machine outcome ↔ Evaluates regs stmts result machine outcome) ∧
      (∀ regs machine, Machine.initial regs = .ok machine →
        program.func.run regs = .error (.refused .stepLimit) ∨
          Evaluates regs stmts result machine (program.func.run regs)) ∧
      ∀ others, Stmt.allUnbounded others = Stmt.allUnbounded stmts → ∃ other, builder.finish others result = .ok other ∧
        ∀ regs machine, machine.pred PReg.zero = true → ∀ outcome,
          other.func.Finishes regs machine outcome ↔ program.func.Finishes regs machine outcome := by
  obtain ⟨program, outline, finished, built, _⟩ := opened.finish_built plain result
  refine ⟨program, finished, fun regs machine constant outcome => built.finishes_iff plain constant, ?_, ?_⟩
  · intro regs machine initial
    refine ((built.laid plain).finishes_run initial).imp_right fun finishes => ?_
    exact (built.finishes_iff plain (Machine.initial_constant initial)).mp finishes
  · intro others same
    have sameInsts : Stmt.instsAll others = Stmt.instsAll stmts := by
      rw [← Stmt.instsAll_unbounded others, same, Stmt.instsAll_unbounded]
    have plainOthers : ∀ inst ∈ Stmt.instsAll others, inst.isTerminator = false := sameInsts ▸ plain
    obtain ⟨other, _, finishedOther, builtOther, _⟩ := opened.finish_built plainOthers result
    refine ⟨other, finishedOther, fun regs machine constant outcome => ?_⟩
    rw [builtOther.finishes_iff plainOthers constant, built.finishes_iff plain constant]
    exact ⟨fun evaluates => evaluates.of_unbounded same.symm, fun evaluates => evaluates.of_unbounded same⟩

/-- Calls in conditionals and loops, and a straight-line loop, with a frame cell and as a region. -/
theorem Samples.calls_selfLoop_faithful :
    (Builder.cellRegion "calls").Opened ∧
      (∀ inst ∈ Stmt.instsAll (calls ++ selfLoop), inst.isTerminator = false) ∧
      ∃ program, (Builder.cellRegion "calls").finish (calls ++ selfLoop) (reg 1) = .ok program ∧
        ∀ regs machine, machine.pred PReg.zero = true → ∀ outcome,
          program.func.Finishes regs machine outcome ↔ Evaluates regs (calls ++ selfLoop) (reg 1) machine outcome := by
  have opened := Builder.cellRegion_opened "calls"
  have plain : ∀ inst ∈ Stmt.instsAll (calls ++ selfLoop), inst.isTerminator = false := by decide
  obtain ⟨program, finished, means, _⟩ := Builder.finish_faithful opened plain (reg 1)
  exact ⟨opened, plain, program, finished, means⟩

end SinglePath
