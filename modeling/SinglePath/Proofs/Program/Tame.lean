import SinglePath.Program.Generator
import SinglePath.Proofs.Program.Bounded

namespace SinglePath

open BinOp BlockId GReg List Machine Nat Numbers Stmt Test

variable {test : Test}

theorem Stmt.instsAll_append (first second : List Stmt) :
    instsAll (first ++ second) = instsAll first ++ instsAll second := by
  induction first with
  | nil => rfl
  | cons stmt rest ih => simp [instsAll, ih]

/-- A test of two registers that exist has a result. -/
theorem Test.eval_total (lhsInside : test.lhs.index < 32) (rhsInside : test.rhs.index < 32) (m : Machine) :
    ∃ next, test.eval m = .ok (test.op.eval (m.reg test.lhs) (m.reg test.rhs), next) := by
  have lhs : m.readReg test.lhs = .ok (m.reg test.lhs) := readReg_eq_ok.mpr ⟨lhsInside, rfl⟩
  have rhs : m.readReg test.rhs = .ok (m.reg test.rhs) := readReg_eq_ok.mpr ⟨rhsInside, rfl⟩
  unfold eval
  rw [lhs, rhs]
  exact ⟨_, rfl⟩

namespace Generator

variable {loops cost more : Nat} {m after : Machine} {regs : TargetRegs} {ss others : List Stmt}
  {bound : Option UInt32} {Before : Machine → Prop} {Result : Machine → Machine → Prop} {inst : Inst} {r : GReg}
  {v : Bool}

/-- The constants of the machine are in place. -/
structure Steady (m : Machine) : Prop where
  constant : m.pred PReg.zero = true
  zero : m.reg GReg.zero = 0

/-- The registers that statements inside this many loops leave alone: zero, those with the return information, and the
counters and the limits of the loops around. -/
def Reserved (loops : Nat) (r : GReg) : Prop :=
  r = GReg.zero ∨ r = returnBaseSave ∨ r = returnOffsetSave ∨
    ∃ level < loops, r = counterReg { loops := level } ∨ r = limitReg { loops := level }

/-- What statements inside this many loops may change, and how many instructions they take at most. -/
structure Passes (loops cost : Nat) (m after : Machine) : Prop where
  constant : after.pred PReg.zero = m.pred PReg.zero
  kept : ∀ r, Reserved loops r → after.reg r = m.reg r
  steps : after.steps ≤ m.steps + cost

section

variable {between : Machine}

theorem reserved_zero (loops : Nat) : Reserved loops zero := .inl rfl

/-- What is reserved outside a loop is reserved inside it. -/
theorem Reserved.inside (reserved : Reserved loops r) (fewer : loops ≤ more) : Reserved more r := by
  rcases reserved with isZero | isBase | isOffset | ⟨level, isLess, isReg⟩
  · exact .inl isZero
  · exact .inr (.inl isBase)
  · exact .inr (.inr (.inl isOffset))
  · exact .inr (.inr (.inr ⟨level, lt_of_lt_of_le isLess fewer, isReg⟩))

/-- The counter of a loop is reserved inside it. -/
theorem reserved_counter (loops : Nat) : Reserved (loops + 1) (counterReg { loops := loops }) :=
  .inr (.inr (.inr ⟨loops, lt_succ_self loops, .inl rfl⟩))

/-- The limit of a loop is reserved inside it. -/
theorem reserved_limit (loops : Nat) : Reserved (loops + 1) (limitReg { loops := loops }) :=
  .inr (.inr (.inr ⟨loops, lt_succ_self loops, .inr rfl⟩))

/-- The numbers of the reserved registers. -/
theorem Reserved.index (reserved : Reserved loops r) :
    r.index = 0 ∨ r.index = 20 ∨ r.index = 21 ∨ 10 ≤ r.index ∧ r.index < 10 + loops ∨
      16 ≤ r.index ∧ r.index < 16 + loops := by
  rcases reserved with rfl | rfl | rfl | ⟨level, isLess, rfl | rfl⟩
  · exact .inl rfl
  · exact .inr (.inl rfl)
  · exact .inr (.inr (.inl rfl))
  · exact .inr (.inr (.inr (.inl ⟨le_add_right _ _, Nat.add_lt_add_left isLess _⟩)))
  · exact .inr (.inr (.inr (.inr ⟨le_add_right _ _, Nat.add_lt_add_left isLess _⟩)))

namespace Passes

theorem refl (loops : Nat) (m : Machine) : Passes loops 0 m m := ⟨rfl, fun _ _ => rfl, le_rfl⟩

/-- Steps that keep the reserved registers compose, and their costs add up. -/
theorem trans (first : Passes loops cost m between) (second : Passes loops more between after) :
    Passes loops (cost + more) m after where
  constant := second.constant.trans first.constant
  kept r reserved := (second.kept r reserved).trans (first.kept r reserved)
  steps := by
    have := first.steps
    have := second.steps
    omega

/-- A cost may be overestimated. -/
theorem mono (passes : Passes loops cost m after) (isLess : cost ≤ more) : Passes loops more m after :=
  ⟨passes.constant, passes.kept, Nat.le_trans passes.steps (Nat.add_le_add_left isLess _)⟩

/-- What keeps the registers of an inner loop keeps those of the outer one. -/
theorem outside (passes : Passes (loops + 1) cost m after) : Passes loops cost m after :=
  ⟨passes.constant, fun r reserved => passes.kept r (reserved.inside (le_succ loops)), passes.steps⟩

/-- A steady machine stays steady. -/
theorem steady (passes : Passes loops cost m after) (steady : Steady m) : Steady after :=
  ⟨passes.constant.trans steady.constant, (passes.kept _ (reserved_zero loops)).trans steady.zero⟩

theorem fetch (loops : Nat) (m : Machine) : Passes loops 1 m m.fetch := ⟨rfl, fun _ _ => rfl, le_rfl⟩

/-- A test costs two steps, the comparison and the branch after it. -/
theorem fork (loops : Nat) (m : Machine) (v : Bool) : Passes loops 2 m (m.fork v) := by
  cases v with
  | true => exact ⟨rfl, fun _ _ => rfl, le_rfl⟩
  | false => exact (fetch loops m).mono (le_succ 1)

/-- A test and the branches behind it. -/
theorem tested (loops : Nat) (isTested : test.eval m = .ok (v, after)) : Passes loops 3 m (after.fork v) := by
  have written : Passes loops 1 m after := by
    obtain ⟨lhs, _, rhs, _, isTested⟩ := bind_bind_inv isTested
    obtain ⟨written, writes, isTested⟩ := bind_inv isTested
    obtain ⟨rfl, rfl⟩ := Prod.mk.inj (pure_inv isTested)
    obtain ⟨_, rfl⟩ := writePred_eq_ok.mp (liftM_inv writes)
    refine ⟨?_, fun _ _ => reg_withPred _ _ _ _, le_of_eq (steps_withPred _ _ _)⟩
    rw [pred_withPred, if_neg (by decide)]
    rfl
  exact written.trans (fork loops after v)

/-- A register that is not reserved may be written. -/
theorem written (free : ¬ Reserved loops r) (v : UInt32) : Passes loops 1 m (m.fetch.withReg r v) := by
  refine ⟨pred_withReg _ _ _ _, fun o reserved => ?_, le_of_eq (steps_withReg _ _ _)⟩
  have ne : o ≠ r := fun same => free (same ▸ reserved)
  rw [reg_withReg, if_neg fun isWritten => ne isWritten.1]
  rfl

end Passes

end

/-- The instruction is executed wherever the constants are in place, and goes on to the next one. -/
structure TameInst (regs : TargetRegs) (loops : Nat) (inst : Inst) : Prop where
  plain : inst.isTerminator = false
  runs : ∀ m, Steady m → ∃ after, m.after regs inst = .ok after ∧ Passes loops 1 m after

/-- The rounds do not exceed the bound, if there is one. -/
def WithinBound (bound : Option UInt32) (n : Nat) : Prop := ∀ limit ∈ bound, n ≤ limit.toNat

/-- Wherever the statements are spelled, the run passes them within their bounds from every machine of the one kind, and
the machines before and after are related. -/
structure Runs (regs : TargetRegs) (ss : List Stmt) (Before : Machine → Prop)
    (Result : Machine → Machine → Prop) : Prop where
  passes : ∀ {f : Func} {t : Text} {limit : Nat} {s : ScopeId} {depth : Nat} {first last : Numbers}
    {start final : Place} {nodes : List ScopeNode} {defs : List PredDef} {m : Machine}, f.Starts t limit →
    Spells t s depth first start ss nodes defs final last → last.blocks ≤ limit → start.block.index < first.blocks →
    Before m → ∃ points after, Traced f regs t first last start final m after points ∧ Result m after

section

variable {body : List Stmt} {rounds : Nat} {Between Final : Machine → Prop} {Later : Machine → Machine → Prop}
  {Inv : Nat → Machine → Prop}

theorem runs_nil (isResult : ∀ m, Before m → Result m m) : Runs regs [] Before Result := by
  refine ⟨fun {_ _ _ _ _ _ _ _ _ _ _ m} _ spelt _ _ before => ?_⟩
  obtain ⟨rfl, rfl⟩ := spelt.nil_inv
  exact ⟨[], m, ⟨.refl _ _, nofun, boundsKept_of_apart nofun⟩, isResult m before⟩

/-- The condition of a run may be strengthened and its result weakened. -/
theorem Runs.conseq (runs : Runs regs ss Before Result) (stronger : ∀ m, Between m → Before m)
    (weaker : ∀ m after, Between m → Result m after → Later m after) : Runs regs ss Between Later := by
  refine ⟨fun {_ _ _ _ _ _ _ _ _ _ _ m} starts spelt within isOld before => ?_⟩
  obtain ⟨points, after, traced, res⟩ := runs.passes starts spelt within isOld (stronger m before)
  exact ⟨points, after, traced, weaker m after before res⟩

/-- Runs of statements one after the other compose. -/
theorem Runs.append (early : Runs regs ss Before Result) (late : Runs regs others Between Later)
    (leads : ∀ m between, Before m → Result m between → Between between) :
    Runs regs (ss ++ others) Before fun m after => ∃ between, Result m between ∧ Later between after := by
  refine ⟨fun {_ _ _ _ _ _ _ _ _ _ _ m} starts spelt within isOld before => ?_⟩
  obtain ⟨place, middle, _, _, _, _, earlySpelt, lateSpelt⟩ := spelt.append_inv
  have ends := earlySpelt.final_block
  have earlyLe := earlySpelt.blocks_le
  have lateLe := lateSpelt.blocks_le
  simp only [eq_iff] at ends
  obtain ⟨points, between, traced, res⟩ := early.passes starts earlySpelt (by omega) isOld before
  obtain ⟨more, after, tracedLater, later⟩ :=
    late.passes starts lateSpelt within (by omega) (leads m between before res)
  exact ⟨_, after, traced.trans tracedLater earlySpelt lateSpelt isOld, between, res, later⟩

/-- A statement of one instruction runs if the instruction can be performed. -/
theorem runs_simple (plain : inst.isTerminator = false)
    (performs : ∀ m, Before m → ∃ after, m.after regs inst = .ok after ∧ Result m after) :
    Runs regs [.simple inst] Before Result := by
  refine ⟨fun {_ _ _ _ _ _ _ _ _ _ _ m} _ spelt _ _ before => ?_⟩
  cases spelt with
  | simple later =>
    obtain ⟨rfl, rfl⟩ := later.nil_inv
    obtain ⟨after, ran, res⟩ := performs m before
    exact ⟨_, after, traced_step plain ran, res⟩

/-- Rounds are made until none are left, and then one that leaves the loop. -/
theorem turned_of_rounds {f : Func} {t : Text} {first left : Numbers}
    (apart : ∀ p : Point, p.block = first.block → Apart t (first.scopes + 1) left.scopes p)
    (again : ∀ rounds m, Inv (rounds + 1) m → ∃ points after,
      Turned f regs t first left 1 m (.running ⟨first.block, t.code first.block⟩ after) points ∧
      Inv rounds after) (leaves : ∀ m, Inv 0 m → ∃ points after,
      Turned f regs t first left 1 m (.running ⟨left.block, t.code left.block⟩ after) points ∧ Final after)
    (holds : Inv rounds m) :
    ∃ points after, Turned f regs t first left (rounds + 1) m (.running ⟨left.block, t.code left.block⟩ after)
      points ∧ Final after := by
  induction rounds generalizing m with
  | zero => exact leaves m holds
  | succ rounds ih =>
    obtain ⟨points, between, turned, holds⟩ := again rounds m holds
    obtain ⟨more, after, later, final⟩ := ih holds
    exact ⟨_, after, Nat.add_comm 1 (rounds + 1) ▸ turned.trans later apart, final⟩

/-- A loop with its test before the body: what holds at the header as long as so many rounds are left. -/
theorem runs_whileDo {Enter : Nat → Machine → Prop} (fits : WithinBound bound (rounds + 1))
    (const : ∀ rounds m, Inv rounds m → m.pred PReg.zero = true)
    (again : ∀ rounds m, Inv (rounds + 1) m → ∃ next, test.eval m = .ok (true, next) ∧
      Enter rounds (next.fork true))
    (inside : ∀ rounds, Runs regs body (Enter rounds) fun _ after => Inv rounds after.fetch)
    (leaves : ∀ m, Inv 0 m → ∃ next, test.eval m = .ok (false, next) ∧ Final (next.fork false)) :
    Runs regs [.whileDo test bound body] (fun m => Inv rounds m.fetch) fun _ after => Final after := by
  refine ⟨fun {f t limit _ _ first _ _ _ _ _ m} starts spelt within isOld before => ?_⟩
  cases spelt with
  | @whileDo _ _ first left _ b _ pred _ _ _ _ _ _ _ _ _ _ _ headerCode _ loop bodySpelt _ laterSpelt =>
    obtain ⟨rfl, rfl⟩ := laterSpelt.nil_inv
    obtain ⟨bodyBlocks, _, bodyScopes⟩ := bodySpelt.grow
    simp only [blocks_add] at bodyBlocks within
    have apart (p : Point) (isBefore : p.block.index < first.blocks + 2) :
        Apart t (first.scopes + 1) left.scopes p := bodySpelt.apart (by simp) (.inl (by simpa using isBefore))
    have apartHeader (p : Point) (isHeader : p.block = first.block) : Apart t (first.scopes + 1) left.scopes p :=
      apart p (by simp [isHeader])
    have rounds : ∃ points after, Turned f regs t first left (rounds + 1) m.fetch
        (.running ⟨left.block, t.code left.block⟩ after) points ∧ Final after := by
      refine turned_of_rounds apartHeader (fun rounds m holds => ?_) (fun m holds => ?_) before
      · obtain ⟨next, tested, enters⟩ := again rounds m holds
        obtain ⟨points, after, traced, holdsAfter⟩ :=
          (inside rounds).passes starts bodySpelt (by omega) (by simp) enters
        obtain ⟨points, turned⟩ := traced.turned starts headerCode bodySpelt within (const _ _ holds) tested
          (const _ after.fetch holdsAfter)
        exact ⟨points, _, turned, holdsAfter⟩
      · obtain ⟨next, tested, final⟩ := leaves m holds
        obtain ⟨points, crosses⟩ : ∃ points, (f.free regs).Crosses first.block (t.code first.block) m
            points (.running ⟨left.block, t.code left.block⟩ (next.fork false)) := by
          rw [headerCode]
          exact Setting.crosses_test (const _ _ holds) tested (starts left.block within)
        exact ⟨points, _, .of_crosses crosses apartHeader (by omega), final⟩
    obtain ⟨points, after, turned, final⟩ := rounds
    refine ⟨_, after, turned.traced starts loop rfl ?_ fits (const _ m.fetch before) (by simp; omega) isOld
      fun p isBefore => apart p (by omega), final⟩
    simp only [held_iff loop, heldBy_block, bodySpelt.heldBy_iff, eq_iff, blocks_add, index_block]
    omega

/-- A straight-line loop: what holds at the header as long as so many rounds are left before the last one. -/
theorem runs_repeatUntil {body : List Inst} (Inv : Nat → Machine → Prop) (fits : WithinBound bound (rounds + 1))
    (plain : ∀ inst ∈ body, inst.isTerminator = false) (const : ∀ rounds m, Inv rounds m → m.pred PReg.zero = true)
    (again : ∀ rounds m, Inv (rounds + 1) m → ∃ next, test.round regs body m = .ok (false, next) ∧
      Inv rounds (next.fork false))
    (leaves : ∀ m, Inv 0 m → ∃ next, test.round regs body m = .ok (true, next) ∧ Final (next.fork true)) :
    Runs regs [.repeatUntil body test bound] (fun m => Inv rounds m.fetch) fun _ after => Final after := by
  refine ⟨fun {f t limit _ _ first _ _ _ _ _ m} starts spelt within isOld before => ?_⟩
  cases spelt with
  | @repeatUntil _ _ first _ b pred _ _ _ _ _ _ _ _ headerCode loop _ laterSpelt =>
    obtain ⟨rfl, rfl⟩ := laterSpelt.nil_inv
    simp only [blocks_add] at within
    have apart (p : Point) : Apart t (first.scopes + 1) (first.add 1 1 1).scopes p := by
      intro id notLess isLess
      simp only [scopes_add] at isLess
      omega
    have crossed {m next : Machine} {v : Bool} (const : m.pred PReg.zero = true)
        (round : test.round regs body m = .ok (v, next)) : ∃ points,
        (f.free regs).Crosses first.block (t.code first.block) m points
          (.running ⟨if v then (first.add 1 1 1).block else first.block,
            t.code (if v then (first.add 1 1 1).block else first.block)⟩ (next.fork v)) := by
      obtain ⟨between, ran, tested⟩ := bind_inv round
      have constantLeft := (afterAll_constant ran).trans const
      have startsNext := starts (if v then (first.add 1 1 1).block else first.block) (by cases v <;> simp <;> omega)
      obtain ⟨_, crosses⟩ := Setting.crosses_test constantLeft tested startsNext
      rw [headerCode]
      exact crosses.prepend plain ran
    have rounds : ∃ points after, Turned f regs t first (first.add 1 1 1) (rounds + 1) m.fetch
        (.running ⟨(first.add 1 1 1).block, t.code (first.add 1 1 1).block⟩ after) points ∧ Final after := by
      refine turned_of_rounds (fun p _ => apart p) (fun rounds m holds => ?_) (fun m holds => ?_) before
      · obtain ⟨next, round, holdsAfter⟩ := again rounds m holds
        obtain ⟨points, crosses⟩ := crossed (const _ _ holds) round
        exact ⟨points, _, .of_crosses crosses (fun p _ => apart p) (by simp), holdsAfter⟩
      · obtain ⟨next, round, final⟩ := leaves m holds
        obtain ⟨points, crosses⟩ := crossed (const _ _ holds) round
        exact ⟨points, _, .of_crosses crosses (fun p _ => apart p) (by simp), final⟩
    obtain ⟨points, after, turned, final⟩ := rounds
    refine ⟨_, after, turned.traced starts loop rfl ?_ fits (const _ m.fetch before) (by simp; omega) isOld
      fun p _ => apart p, final⟩
    simp only [held_iff loop, heldBy_block, heldBy_nil, or_false, eq_iff, blocks_add, index_block]
    omega

end

/-- The statements are passed wherever the constants are in place. -/
structure Tame (regs : TargetRegs) (loops cost : Nat) (ss : List Stmt) : Prop where
  plain : ∀ inst ∈ Stmt.instsAll ss, inst.isTerminator = false
  runs : Runs regs ss Steady (Passes loops cost)

theorem tame_nil (regs : TargetRegs) (loops : Nat) : Tame regs loops 0 [] where
  plain := nofun
  runs := runs_nil fun m _ => .refl loops m

/-- The cost of tame statements may be overestimated. -/
theorem Tame.mono (tame : Tame regs loops cost ss) (isLess : cost ≤ more) : Tame regs loops more ss where
  plain := tame.plain
  runs := tame.runs.conseq (fun _ steady => steady) fun _ _ _ passes => passes.mono isLess

/-- Tame statements may follow each other, and their costs add up. -/
theorem Tame.append (tame : Tame regs loops cost ss) (later : Tame regs loops more others) :
    Tame regs loops (cost + more) (ss ++ others) where
  plain := by
    rw [instsAll_append, forall_mem_append]
    exact ⟨tame.plain, later.plain⟩
  runs := by
    refine (tame.runs.append later.runs fun _ _ steady passes => passes.steady steady).conseq
      (fun _ steady => steady) ?_
    rintro m after _ ⟨between, passes, passesLater⟩
    exact passes.trans passesLater

/-- A tame instruction is a tame statement. -/
theorem TameInst.simple (tame : TameInst regs loops inst) : Tame regs loops 1 [.simple inst] where
  plain := by simpa [instsAll, insts] using tame.plain
  runs := runs_simple tame.plain tame.runs

/-- One of the parts is executed between a test and a branch to the join. -/
theorem Tame.ifThenElse {test : Test} (lhsInside : test.lhs.index < 32) (rhsInside : test.rhs.index < 32)
    (thenTame : Tame regs loops cost ss) (elseTame : Tame regs loops more others) :
    Tame regs loops (4 + (cost + more)) [.ifThenElse test ss others] where
  plain := by
    simp only [instsAll, insts, append_nil, forall_mem_append]
    exact ⟨thenTame.plain, elseTame.plain⟩
  runs := by
    refine ⟨fun {f t limit _ _ first _ _ _ _ _ m} starts spelt within isOld steady => ?_⟩
    obtain ⟨next, tested⟩ := eval_total lhsInside rhsInside m
    generalize test.op.eval (m.reg test.lhs) (m.reg test.rhs) = v at tested
    have passesTest : Passes loops 3 m (next.fork v) := .tested loops tested
    cases spelt with
    | @ifThenElse _ _ first middle joined _ _ thenExit elseExit _ _ _ _ _ _ _ _ _ _ _ _ _ _ _ thenSpelt _ elseSpelt _
        laterSpelt =>
      obtain ⟨rfl, rfl⟩ := laterSpelt.nil_inv
      have thenEnds := thenSpelt.final_block
      have elseEnds := elseSpelt.final_block
      obtain ⟨thenBlocks, _, thenScopes⟩ := thenSpelt.grow
      obtain ⟨elseBlocks, _, elseScopes⟩ := elseSpelt.grow
      simp only [eq_iff, blocks_add, scopes_add, index_block] at *
      have thenApart {p : Point} (elsewhere : p.block.index < first.blocks + 1 ∨ middle.blocks ≤ p.block.index ∨
          p.block = thenExit) : Apart t first.scopes middle.scopes p :=
            thenSpelt.apart (by simp) (by simpa using elsewhere)
      have elseApart {p : Point} (elsewhere : p.block.index < middle.blocks + 1 ∨ joined.blocks ≤ p.block.index ∨
          p.block = elseExit) : Apart t middle.scopes joined.scopes p :=
        elseSpelt.apart (by simp) (by simpa using elsewhere)
      cases v with
      | true =>
        obtain ⟨points, after, traced, passes⟩ :=
          thenTame.runs.passes starts thenSpelt (by omega) (by simp) (passesTest.steady steady)
        have partWithin := traced.within
        simp only [eq_iff, blocks_add, index_block] at partWithin
        have kept : BoundsKept t first.scopes joined.scopes points := by
          refine traced.kept.join (boundsKept_of_apart fun p mem => elseApart (.inl ?_))
          have := partWithin p mem
          omega
        have apart (p : Point) (elsewhere : p.block.index < first.blocks ∨ p.block = thenExit) :
            Apart t first.scopes joined.scopes p := by
          refine (thenApart ?_).join (elseApart (.inl ?_)) <;> rw [eq_iff] at * <;> omega
        obtain ⟨points, traced⟩ := traced_part starts steady.constant tested rfl (by simp; omega)
          (by simp; omega) traced
          (passes.steady (passesTest.steady steady)).constant (by simp; omega) (by simp; omega)
            (by omega) kept isOld apart
        exact ⟨points, _, traced, ((passesTest.trans passes).trans (.fetch loops after)).mono (by omega)⟩
      | false =>
        obtain ⟨points, after, traced, passes⟩ :=
          elseTame.runs.passes starts elseSpelt (by omega) (by simp) (passesTest.steady steady)
        have partWithin := traced.within
        simp only [eq_iff, blocks_add, index_block] at partWithin
        have kept : BoundsKept t first.scopes joined.scopes points := by
          refine .join (boundsKept_of_apart fun p mem => thenApart (.inr (.inl ?_))) traced.kept
          have := partWithin p mem
          omega
        have apart (p : Point) (elsewhere : p.block.index < first.blocks ∨ p.block = elseExit) :
            Apart t first.scopes joined.scopes p := by
          refine (thenApart ?_).join (elseApart ?_) <;> rw [eq_iff] at * <;> omega
        obtain ⟨points, traced⟩ := traced_part starts steady.constant tested rfl (by simp; omega)
          (by simp; omega) traced
          (passes.steady (passesTest.steady steady)).constant (by simp; omega) (by simp; omega)
            (by omega) kept isOld apart
        exact ⟨points, _, traced, ((passesTest.trans passes).trans (.fetch loops after)).mono (by omega)⟩

/-- A machine inside a loop that has counted this far up to its limit. -/
structure Counts (nesting : Nesting) (trips done : Nat) (m : Machine) : Prop where
  counter : m.reg (counterReg nesting) = UInt32.ofNat done
  limit : m.reg (limitReg nesting) = UInt32.ofNat trips

variable {nesting : Nesting} {trips done left : Nat} {body : List Inst}

/-- The body of a loop leaves its counter and its limit alone. -/
theorem Counts.inside (counts : Counts nesting trips done m) (passes : Passes (nesting.loops + 1) cost m after) :
    Counts nesting trips done after :=
  ⟨(passes.kept _ (reserved_counter _)).trans counts.counter, (passes.kept _ (reserved_limit _)).trans counts.limit⟩

/-- An unguarded instruction is executed on a steady machine. -/
theorem after_of_execute (steady : Steady m) (always : inst.guard.isAlways = true)
    (executed : m.fetch.execute regs inst.op = .ok (after, .next)) : m.after regs inst = .ok after := by
  unfold Machine.after
  rw [perform_of_always steady.constant always]
  exact bind_ok executed rfl

theorem after_imm (steady : Steady m) (inside : r.index < 32) (v : UInt32) :
    m.after regs (.plain (.imm r v)) = .ok (m.fetch.withReg r v) := by
  refine after_of_execute steady rfl ?_
  have written : m.fetch.writeReg r v = .ok (m.fetch.withReg r v) := writeReg_eq_ok.mpr ⟨inside, rfl⟩
  simp only [Inst.plain, execute, written, liftM_ok, ok_bind]
  rfl

/-- A loop counts in another register than the one that holds its limit. -/
theorem counter_ne_limit (nesting : Nesting) : counterReg nesting ≠ limitReg nesting := by
  simp only [counterReg, limitReg, ne_eq, GReg.mk.injEq]
  omega

section

variable (within : nesting.loops < maxLoopDepth)

include within

/-- The counter is a register that can be written. -/
theorem counter_inside : counterReg nesting ≠ GReg.zero ∧ (counterReg nesting).index < 32 := by
  simp only [counterReg, GReg.zero, ne_eq, GReg.mk.injEq, maxLoopDepth] at within ⊢
  omega

/-- The limit is in a register that can be written. -/
theorem limit_inside : limitReg nesting ≠ GReg.zero ∧ (limitReg nesting).index < 32 := by
  simp only [limitReg, GReg.zero, ne_eq, GReg.mk.injEq, maxLoopDepth] at within ⊢
  omega

/-- The counter of a loop is not reserved around it. -/
theorem free_counter : ¬ Reserved nesting.loops (counterReg nesting) := by
  intro reserved
  have := reserved.index
  simp only [counterReg, maxLoopDepth] at this within
  omega

/-- The limit of a loop is not reserved around it. -/
theorem free_limit : ¬ Reserved nesting.loops (limitReg nesting) := by
  intro reserved
  have := reserved.index
  simp only [limitReg, maxLoopDepth] at this within
  omega

end

/-- The counter starts at zero, and the limit is the number of rounds. -/
theorem countUpTo_runs (regs : TargetRegs) (within : nesting.loops < maxLoopDepth) (trips : Nat) :
    Runs regs (countUpTo nesting trips) Steady fun m after =>
      Passes nesting.loops 2 m after ∧ Counts nesting trips 0 after := by
  have setsCounter : Runs regs [.simple (.plain (.imm (counterReg nesting) 0))] Steady fun m after =>
      Passes nesting.loops 1 m after ∧ after.reg (counterReg nesting) = 0 := by
    refine runs_simple rfl fun m steady => ⟨_, after_imm steady (counter_inside within).2 0,
      .written (free_counter within) 0, ?_⟩
    exact (reg_withReg _ _ _ _).trans (if_pos ⟨rfl, counter_inside within⟩)
  have setsLimit : Runs regs [.simple (.plain (.imm (limitReg nesting) (UInt32.ofNat trips)))]
      (fun m => Steady m ∧ m.reg (counterReg nesting) = 0) fun m after =>
      Passes nesting.loops 1 m after ∧ Counts nesting trips 0 after := by
    refine runs_simple rfl fun m start => ?_
    obtain ⟨steady, isZero⟩ := start
    refine ⟨_, after_imm steady (limit_inside within).2 (UInt32.ofNat trips),
      .written (free_limit within) (UInt32.ofNat trips), ?_, ?_⟩
    · rw [reg_withReg, if_neg fun isLimit => counter_ne_limit nesting isLimit.1]
      exact isZero
    · rw [reg_withReg, if_pos ⟨rfl, limit_inside within⟩]
  refine (setsCounter.append setsLimit fun _ _ steady sets => ⟨sets.1.steady steady,
    sets.2⟩).conseq (fun _ steady => steady) ?_
  rintro m after _ ⟨between, ⟨passes, _⟩, passesLater, counts⟩
  exact ⟨passes.trans passesLater, counts⟩

/-- Each increment counts one more round. -/
theorem increment_effect (regs : TargetRegs) (within : nesting.loops < maxLoopDepth) (steady : Steady m)
    (counts : Counts nesting trips done m) :
    ∃ after, m.after regs (increment nesting) = .ok after ∧ Passes nesting.loops 1 m after ∧
      Counts nesting trips (done + 1) after := by
  have inside := counter_inside within
  have isCounter : m.fetch.readReg (counterReg nesting) = .ok (UInt32.ofNat done) :=
    readReg_eq_ok.mpr ⟨inside.2, counts.counter⟩
  have written : m.fetch.writeReg (counterReg nesting) (add.eval (UInt32.ofNat done) 1) =
      .ok (m.fetch.withReg (counterReg nesting) (add.eval (UInt32.ofNat done) 1)) :=
    writeReg_eq_ok.mpr ⟨inside.2, rfl⟩
  have next : add.eval (UInt32.ofNat done) 1 = UInt32.ofNat (done + 1) := (UInt32.ofNat_add done 1).symm
  refine ⟨_, after_of_execute steady rfl ?_, .written (free_counter within) (add.eval (UInt32.ofNat done) 1), ?_, ?_⟩
  · simp only [increment, Inst.plain, execute, isCounter, written, liftM_ok, ok_bind]
    rfl
  · rw [reg_withReg, if_pos ⟨rfl, inside⟩, next]
  · rw [reg_withReg, if_neg fun isCounter => counter_ne_limit nesting isCounter.1.symm]
    exact counts.limit

/-- The counter is compared with the limit, in either order. -/
theorem Counts.tested (counts : Counts nesting trips done m) (within : nesting.loops < maxLoopDepth)
    (few : trips ≤ maxTrips) (below : done ≤ maxTrips) :
    (∃ next, (⟨.lt, counterReg nesting, limitReg nesting⟩ : Test).eval m = .ok (decide (done < trips), next)) ∧
      ∃ next, (⟨.le, limitReg nesting, counterReg nesting⟩ : Test).eval m = .ok (decide (trips ≤ done), next) := by
  have counterInside := (counter_inside within).2
  have limitInside := (limit_inside within).2
  have less : ∀ trips ≤ 5, ∀ done ≤ 5, CmpOp.lt.eval (UInt32.ofNat done) (UInt32.ofNat trips) =
      decide (done < trips) := by
    decide
  have notMore : ∀ trips ≤ 5, ∀ done ≤ 5, CmpOp.le.eval (UInt32.ofNat trips) (UInt32.ofNat done) =
      decide (trips ≤ done) := by
    decide
  rw [← less trips few done below, ← notMore trips few done below, ← counts.counter, ← counts.limit]
  exact ⟨eval_total counterInside limitInside m, eval_total limitInside counterInside m⟩

/-- This many rounds are left of a loop that started from the machine, and each of the others took no more than its
share. -/
def Remaining (nesting : Nesting) (trips share extra : Nat) (origin : Machine) (left : Nat) (m : Machine) : Prop :=
  ∃ done, done + left = trips ∧ Passes nesting.loops (done * share + extra) origin m ∧ Counts nesting trips done m

/-- Statements run from all machines if they run from each of them. -/
theorem runs_each
    (runs : ∀ origin, Before origin → Runs regs ss (fun m => m = origin) fun _ after => Result origin after) :
    Runs regs ss Before Result := by
  refine ⟨fun {_ _ _ _ _ _ _ _ _ _ _ m} starts spelt within isOld before => ?_⟩
  exact (runs m before).passes starts spelt within isOld rfl

/-- A counter is set up, and a loop makes the rounds that are left. -/
theorem countUpTo_loop {stmt : Stmt} {total : Nat} (share : Nat) (within : nesting.loops < maxLoopDepth)
    (fewer : 2 + total ≤ cost)
    (rounds : ∀ origin, Steady origin → Runs regs [stmt]
      (fun m => Remaining nesting trips share 1 origin trips m.fetch) fun _ after =>
        Passes nesting.loops total origin after) :
    Runs regs (countUpTo nesting trips ++ [stmt]) Steady (Passes nesting.loops cost) := by
  have loop : Runs regs [stmt] (fun m => Steady m ∧ Counts nesting trips 0 m) (Passes nesting.loops total) := by
    refine runs_each fun origin ⟨steady, counts⟩ => (rounds origin steady).conseq ?_ fun _ _ _ passes => passes
    rintro _ rfl
    exact ⟨0, Nat.zero_add _, (Passes.fetch _ _).mono (by omega), counts.inside (.fetch _ _)⟩
  refine ((countUpTo_runs regs within trips).append loop fun _ _ steady counted =>
    ⟨counted.1.steady steady, counted.2⟩).conseq (fun _ steady => steady) ?_
  rintro m after _ ⟨between, ⟨passes, _⟩, passesRounds⟩
  exact (passes.trans passesRounds).mono fewer

/-- A loop with its test before the body makes the rounds that its limit says. -/
theorem Tame.whileLoop {body : List Stmt} (within : nesting.loops < maxLoopDepth) (few : trips ≤ maxTrips)
    (tame : Tame regs (nesting.loops + 1) cost body) (fits : WithinBound bound (trips + 1)) :
    Tame regs nesting.loops (31 + 5 * cost) (countUpTo nesting trips ++
      [.whileDo ⟨.lt, counterReg nesting, limitReg nesting⟩ bound (body ++ [.simple (increment nesting)])]) where
  plain := by
    simp only [instsAll_append, countUpTo, instsAll, insts, append_nil, forall_mem_append, forall_mem_singleton]
    exact ⟨⟨rfl, rfl⟩, tame.plain, rfl⟩
  runs := by
    have cost_le : 2 + (trips * (cost + 5) + 4) ≤ 31 + 5 * cost := by
      have := Nat.mul_le_mul_right (cost + 5) few
      simp only [maxTrips] at this
      omega
    refine countUpTo_loop (cost + 5) within cost_le fun origin steady => ?_
    have inside (left : Nat) : Runs regs (body ++ [.simple (increment nesting)])
        (Remaining nesting trips (cost + 5) 4 origin (left + 1))
        fun _ after => Remaining nesting trips (cost + 5) 1 origin left after.fetch := by
      refine runs_each fun m ⟨done, isDone, passes, counts⟩ => ?_
      have bodyRuns : Runs regs body (fun before => before = m) fun _ after =>
        Passes (nesting.loops + 1) cost m after :=
        tame.runs.conseq (fun _ same => same ▸ passes.steady steady) fun _ _ same isPassed => same ▸ isPassed
      have counting : Runs regs [.simple (increment nesting)] (Passes (nesting.loops + 1) cost m)
          fun _ after => Remaining nesting trips (cost + 5) 1 origin left after.fetch := by
        refine runs_simple rfl fun between passesBody => ?_
        obtain ⟨after, ran, passesCount, counted⟩ :=
          increment_effect regs within (passesBody.steady (passes.steady steady)) (counts.inside passesBody)
        refine ⟨after, ran, done + 1, by omega, ?_, counted.inside (.fetch _ after)⟩
        refine (((passes.trans passesBody.outside).trans passesCount).trans (.fetch _ after)).mono ?_
        rw [Nat.succ_mul]
        omega
      exact (bodyRuns.append counting fun _ _ _ isPassed => isPassed).conseq (fun _ same => same)
        fun _ _ _ ⟨_, _, holds⟩ => holds
    refine runs_whileDo fits (fun _ _ ⟨_, _, passes, _⟩ => (passes.steady steady).constant) ?_ inside ?_
    · intro left m ⟨done, isDone, passes, counts⟩
      obtain ⟨next, tested⟩ := (counts.tested within few (by omega)).1
      rw [decide_eq_true (by omega)] at tested
      exact ⟨next, tested, done, isDone, (passes.trans (.tested _ tested)).mono (by omega),
        counts.inside (.tested _ tested)⟩
    · intro m ⟨done, isDone, passes, counts⟩
      obtain ⟨next, tested⟩ := (counts.tested within few (by omega)).1
      rw [decide_eq_false (by omega)] at tested
      obtain rfl : done = trips := isDone
      exact ⟨next, tested, (passes.trans (.tested _ tested)).mono (by omega)⟩

/-- Tame instructions are performed one after the other, at a cost of one step each. -/
theorem afterAll_append_of_tame (tame : ∀ inst ∈ body, TameInst regs loops inst) (steady : Steady m) :
    ∃ after, (∀ rest, m.afterAll regs (body ++ rest) = after.afterAll regs rest) ∧
      Passes loops body.length m after := by
  induction body generalizing m with
  | nil => exact ⟨m, fun _ => rfl, .refl loops m⟩
  | cons inst body ih =>
    obtain ⟨tameInst, tameBody⟩ := forall_mem_cons.mp tame
    obtain ⟨between, ran, passes⟩ := tameInst.runs m steady
    obtain ⟨after, performedLater, passesLater⟩ := ih tameBody (passes.steady steady)
    refine ⟨after, fun rest => ?_, (passes.trans passesLater).mono (by simp [Nat.add_comm])⟩
    rw [← performedLater rest]
    simp only [cons_append, afterAll, ran, ok_bind]

/-- One round of a straight-line loop counts and compares. -/
theorem round_of_counts (within : nesting.loops < maxLoopDepth) (few : trips ≤ maxTrips)
    (tame : ∀ inst ∈ body, TameInst regs (nesting.loops + 1) inst) (isLess : done < trips) (steady : Steady m)
    (counts : Counts nesting trips done m) (isLast : decide (trips ≤ done + 1) = v) :
    ∃ next, (⟨.le, limitReg nesting, counterReg nesting⟩ : Test).round regs (body ++ [increment nesting]) m =
        .ok (v, next) ∧ Passes nesting.loops (body.length + 4) m (next.fork v) ∧
      Counts nesting trips (done + 1) (next.fork v) := by
  obtain ⟨between, ran, passesBody⟩ := afterAll_append_of_tame tame steady
  obtain ⟨counted, isCounted, passesCount, counts⟩ :=
    increment_effect regs within (passesBody.steady steady) (counts.inside passesBody)
  obtain ⟨next, tested⟩ := (counts.tested within few (le_trans isLess few)).2
  rw [isLast] at tested
  refine ⟨next, ?_, ((passesBody.outside.trans passesCount).trans (.tested _ tested)).mono (by omega),
    counts.inside (.tested _ tested)⟩
  have single : between.afterAll regs [increment nesting] = .ok counted := by
    simp only [afterAll, isCounted, ok_bind]
  simp only [Test.round, ran, single, ok_bind, tested]

/-- A straight-line loop makes the rounds that its limit says. -/
theorem Tame.repeatLoop (within : nesting.loops < maxLoopDepth) (few : trips + 1 ≤ maxTrips)
    (tame : ∀ inst ∈ body, TameInst regs (nesting.loops + 1) inst) (short : body.length ≤ 3)
    (fits : WithinBound bound (trips + 1)) :
    Tame regs nesting.loops 38 (countUpTo nesting (trips + 1) ++
      [.repeatUntil (body ++ [increment nesting]) ⟨.le, limitReg nesting, counterReg nesting⟩ bound]) := by
  have plainBody : ∀ inst ∈ body ++ [increment nesting], inst.isTerminator = false :=
    forall_mem_append.mpr ⟨fun inst mem => (tame inst mem).plain, forall_mem_singleton.mpr rfl⟩
  refine ⟨?_, ?_⟩
  · simpa only [instsAll_append, countUpTo, instsAll, insts, append_nil, forall_mem_append,
      forall_mem_singleton] using
      ⟨⟨rfl, rfl⟩, fun inst mem => (tame inst mem).plain, rfl⟩
  · have cost_le : 2 + ((trips + 1) * (body.length + 4) + 1) ≤ 38 := by
      have := Nat.mul_le_mul few (Nat.add_le_add_right short 4)
      simp only [maxTrips] at this
      omega
    refine countUpTo_loop (body.length + 4) within cost_le fun origin steady => ?_
    refine runs_repeatUntil (fun left => Remaining nesting (trips + 1) (body.length + 4) 1 origin
      (left + 1)) fits plainBody
      (fun _ _ ⟨_, _, passes, _⟩ => (passes.steady steady).constant) ?_ ?_
    · intro left m ⟨done, isDone, passes, counts⟩
      obtain ⟨next, round, passesRound, counted⟩ :=
        round_of_counts within few tame (by omega) (passes.steady steady) counts
        (decide_eq_false (by omega))
      refine ⟨next, round, done + 1, by omega, (passes.trans passesRound).mono ?_, counted⟩
      rw [Nat.succ_mul]
      omega
    · intro m ⟨done, isDone, passes, counts⟩
      obtain ⟨next, round, passesRound, _⟩ := round_of_counts within few tame (by omega) (passes.steady steady) counts
        (decide_eq_true (by omega))
      obtain rfl := Nat.succ_inj.mp isDone
      refine ⟨next, round, (passes.trans passesRound).mono ?_⟩
      rw [Nat.succ_mul]
      omega

end Generator

end SinglePath
