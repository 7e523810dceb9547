import SinglePath.Proofs.Program.Faithful
import SinglePath.Proofs.Program.Nested

/-!
The points that a run passes where statements are spelled, and the rounds of the loops along them.
-/

namespace SinglePath

open BlockId Builder List Machine Nat Numbers PReg ScopeId

variable {scopes : ScopeId → Option Scope} {nodes : List ScopeNode} {b o t : BlockId} {text : Text}
  {s id : ScopeId} {depth : Nat} {first last : Numbers} {start final : Place} {ss : List Stmt}
  {defs : List PredDef} {f : Func} {regs : TargetRegs} {m next : Machine} {points : List Point}
  {status : Status} {c : Scope}

/-- The block lies in the scope or in a loop inside it. -/
inductive Held (scopes : ScopeId → Option Scope) : ScopeId → BlockId → Prop where
  | own {id : ScopeId} {c : Scope} {b : BlockId} (got : scopes id = some c)
      (mem : .block b ∈ c.nodes) : Held scopes id b
  | inner {id loop : ScopeId} {c : Scope} {b : BlockId} (got : scopes id = some c)
      (mem : .subscope loop ∈ c.nodes) (held : Held scopes loop b) : Held scopes id b

/-- The block is one of the nodes or lies in a loop that is one. -/
def HeldBy (scopes : ScopeId → Option Scope) (nodes : List ScopeNode) (b : BlockId) : Prop :=
  .block b ∈ nodes ∨ ∃ loop, .subscope loop ∈ nodes ∧ Held scopes loop b

theorem held_iff (got : scopes id = some c) (b : BlockId) : Held scopes id b ↔ HeldBy scopes c.nodes b := by
  constructor
  · rintro (⟨isContent, mem⟩ | ⟨isContent, mem, held⟩)
    · obtain rfl := Option.mem_unique isContent got
      exact .inl mem
    · obtain rfl := Option.mem_unique isContent got
      exact .inr ⟨_, mem, held⟩
  · rintro (mem | ⟨loop, mem, held⟩)
    · exact .own got mem
    · exact .inner got mem held

section

variable {later : List ScopeNode} {loop : ScopeId}

theorem heldBy_nil : ¬ HeldBy scopes [] b := by simp [HeldBy]

theorem heldBy_append : HeldBy scopes (nodes ++ later) b ↔ HeldBy scopes nodes b ∨ HeldBy scopes later b := by
  simp only [HeldBy, mem_append]
  constructor
  · rintro ((early | late) | ⟨loop, early | late, held⟩)
    · exact .inl (.inl early)
    · exact .inr (.inl late)
    · exact .inl (.inr ⟨loop, early, held⟩)
    · exact .inr (.inr ⟨loop, late, held⟩)
  · rintro ((early | ⟨loop, early, held⟩) | (late | ⟨loop, late, held⟩))
    · exact .inl (.inl early)
    · exact .inr ⟨loop, .inl early, held⟩
    · exact .inl (.inr late)
    · exact .inr ⟨loop, .inr late, held⟩

theorem heldBy_block : HeldBy scopes (.block o :: nodes) b ↔ b = o ∨ HeldBy scopes nodes b := by
  simp [HeldBy, or_assoc]

theorem heldBy_subscope : HeldBy scopes (.subscope loop :: nodes) b ↔ Held scopes loop b ∨ HeldBy scopes nodes b := by
  simp only [HeldBy, mem_cons, reduceCtorEq, false_or, ScopeNode.subscope.injEq]
  constructor
  · rintro (mem | ⟨id, rfl | mem, held⟩)
    · exact .inr (.inl mem)
    · exact .inl held
    · exact .inr (.inr ⟨id, mem, held⟩)
  · rintro (held | mem | ⟨id, mem, held⟩)
    · exact .inr ⟨loop, .inl rfl, held⟩
    · exact .inl mem
    · exact .inr ⟨id, .inr mem, held⟩

end

theorem BlockId.eq_iff : b = o ↔ b.index = o.index := by
  cases b
  cases o
  simp

theorem Spells.heldBy_iff (spelt : Spells text s depth first start ss nodes defs final last) (b : BlockId) :
    HeldBy text.scope nodes b ↔ first.blocks ≤ b.index ∧ b.index < last.blocks := by
  induction spelt with
  | nil => simp [heldBy_nil]
  | simple _ later => exact later
  | ifThenElse _ thenSpelt _ elseSpelt _ laterSpelt thenHeld elseHeld laterHeld =>
    have thenLe := thenSpelt.blocks_le
    have elseLe := elseSpelt.blocks_le
    have laterLe := laterSpelt.blocks_le
    simp only [cons_append, append_assoc, heldBy_append, heldBy_block, thenHeld, elseHeld, laterHeld,
      eq_iff, blocks_add, index_block] at *
    omega
  | whileDo _ _ _ loop bodySpelt _ laterSpelt bodyHeld laterHeld =>
    have bodyLe := bodySpelt.blocks_le
    have laterLe := laterSpelt.blocks_le
    simp only [heldBy_subscope, held_iff loop, heldBy_block, bodyHeld, laterHeld, eq_iff, blocks_add,
      index_block] at *
    omega
  | repeatUntil _ _ loop _ laterSpelt laterHeld =>
    have laterLe := laterSpelt.blocks_le
    simp only [heldBy_subscope, held_iff loop, heldBy_block, heldBy_nil, or_false, laterHeld, eq_iff,
      blocks_add, index_block] at *
    omega

/-- A loop of spelled statements holds blocks among the new ones, and not the block where the statements end. -/
theorem Spells.of_held (spelt : Spells text s depth first start ss nodes defs final last)
    (isOld : start.block.index < first.blocks) (notLess : first.scopes ≤ id.index)
    (isLess : id.index < last.scopes) (held : Held text.scope id b) :
    first.blocks ≤ b.index ∧ b.index < last.blocks ∧ b ≠ final.block := by
  -- The loop is one of those of a part, and the statements end at a block that was made after that part.
  induction spelt with
  | nil => omega
  | simple _ later => exact later isOld notLess isLess
  | @ifThenElse _ _ first middle joined last _ _ _ _ _ _ _ _ _ _ _ _ _ _ _ _ final _ thenSpelt _ elseSpelt _ laterSpelt
      thenHeld elseHeld laterHeld =>
      have thenGrow := thenSpelt.grow
      have elseGrow := elseSpelt.grow
      have laterGrow := laterSpelt.grow
      have ends := laterSpelt.final_block
      obtain ⟨thenBlocks, _, thenScopes⟩ := thenGrow
      obtain ⟨elseBlocks, _, elseScopes⟩ := elseGrow
      obtain ⟨laterBlocks, _, laterScopes⟩ := laterGrow
      simp only [blocks_add, scopes_add, index_block, ne_eq, eq_iff] at *
      rcases Nat.lt_or_ge id.index middle.scopes with isThen | notThen
      · omega
      rcases Nat.lt_or_ge id.index joined.scopes with isElse | notElse
      · have := elseHeld (by omega) (by omega) isElse
        omega
      · omega
  | @whileDo _ _ first left last _ _ _ _ _ _ _ _ _ _ _ _ final _ _ _ loop bodySpelt _ laterSpelt bodyHeld laterHeld =>
    have bodyGrow := bodySpelt.grow
    have laterGrow := laterSpelt.grow
    have ends := laterSpelt.final_block
    have inLoop := (bodySpelt.heldBy_iff b).mp
    obtain ⟨bodyBlocks, _, bodyScopes⟩ := bodyGrow
    obtain ⟨laterBlocks, _, laterScopes⟩ := laterGrow
    rcases Nat.eq_or_lt_of_le notLess with isFirst | isLater
    · have isLoop : id = first.scope := by
        exact congrArg ScopeId.mk isFirst.symm
      subst isLoop
      simp only [held_iff loop, heldBy_block, blocks_add, index_block, ne_eq, eq_iff] at *
      rcases held with isHeader | isBody | isInner
      · omega
      · omega
      · have := inLoop isInner
        omega
    simp only [blocks_add, scopes_add, index_block, ne_eq, eq_iff] at *
    rcases Nat.lt_or_ge id.index left.scopes with isInner | notInner
    · omega
    · omega
  | @repeatUntil _ _ first last _ _ _ _ _ _ _ _ final _ _ loop _ laterSpelt laterHeld =>
    have laterGrow := laterSpelt.grow
    have ends := laterSpelt.final_block
    obtain ⟨laterBlocks, _, laterScopes⟩ := laterGrow
    rcases Nat.eq_or_lt_of_le notLess with isFirst | isLater
    · have isLoop : id = first.scope := by
        exact congrArg ScopeId.mk isFirst.symm
      subst isLoop
      simp only [held_iff loop, heldBy_block, heldBy_nil, or_false, blocks_add, index_block, ne_eq, eq_iff] at *
      omega
    simp only [blocks_add, scopes_add, index_block, ne_eq, eq_iff] at *
    omega

namespace Setting

variable {rest insts : List Inst}

/-- Straight-line code comes before other code. -/
theorem Crosses.prepend (crosses : (f.free regs).Crosses b rest next points status)
    (plain : StraightLine insts) (ran : m.afterAll regs insts = .ok next) :
    ∃ points, (f.free regs).Crosses b (insts ++ rest) m points status := by
  induction insts generalizing m with
  | nil =>
    cases ran
    exact ⟨points, crosses⟩
  | cons inst more ih =>
    obtain ⟨plainInst, plainMore⟩ := forall_mem_cons.mp plain
    obtain ⟨between, first, later⟩ := bind_inv ran
    obtain ⟨_, crosses⟩ := ih plainMore later
    exact ⟨_, crosses.cons (by rw [step_after plainInst, first]; rfl)⟩

theorem follows_afterAll (plain : StraightLine insts) (ran : m.afterAll regs insts = .ok next) :
    ∃ points, (f.free regs).Follows (.running ⟨b, insts ++ rest⟩ m) points
        (.running ⟨b, rest⟩ next) ∧ ∀ point ∈ points, point.block = b := by
  induction insts generalizing m with
  | nil =>
    cases ran
    exact ⟨[], .refl _ _, nofun⟩
  | cons inst more ih =>
    obtain ⟨plainInst, plainMore⟩ := forall_mem_cons.mp plain
    obtain ⟨between, first, later⟩ := bind_inv ran
    obtain ⟨points, follows, isBlock⟩ := ih plainMore later
    have step : (f.free regs).step ⟨b, inst :: (more ++ rest)⟩ m = .ok (.running ⟨b, more ++ rest⟩ between) := by
      rw [step_after plainInst, first]
      rfl
    exact ⟨_, (Follows.of_step step).trans follows, forall_mem_cons.mpr ⟨rfl, isBlock⟩⟩

end Setting

/-- Along the points the rounds of the loops whose numbers are in the range do not exceed their bounds. -/
def BoundsKept (text : Text) (lower upper : Nat) (points : List Point) : Prop :=
  ∀ id c, lower ≤ id.index → id.index < upper → text.scope id = some c → ∀ bound ∈ c.bound,
    RoundsWithin (Held text.scope id) ⟨c.header, text.code c.header⟩ bound.toNat points

/-- The point is none of a loop in the range. -/
def Apart (text : Text) (lower upper : Nat) (point : Point) : Prop :=
  ∀ id : ScopeId, lower ≤ id.index → id.index < upper → ¬ Held text.scope id point.block

section

variable {lower middle upper : Nat} {later : List Point} {point : Point}

theorem BoundsKept.join (keptLower : BoundsKept text lower middle points)
    (keptUpper : BoundsKept text middle upper points) :
    BoundsKept text lower upper points := by
  intro id c notLess isLess
  rcases lt_or_ge id.index middle with below | above
  · exact keptLower id c notLess below
  · exact keptUpper id c above isLess

theorem Apart.join (apartLower : Apart text lower middle point) (apartUpper : Apart text middle upper point) :
    Apart text lower upper point := by
  intro id notLess isLess
  rcases lt_or_ge id.index middle with below | above
  · exact apartLower id notLess below
  · exact apartUpper id above isLess

theorem boundsKept_of_apart (apart : ∀ point ∈ points, Apart text lower upper point) :
    BoundsKept text lower upper points :=
  fun id _ notLess isLess _ _ _ => .of_outside fun point mem => apart point mem id notLess isLess

theorem BoundsKept.append (first : BoundsKept text lower upper points) (second : BoundsKept text lower upper later)
    (reset : (∀ point ∈ points, Apart text lower upper point) ∨ ∀ point ∈ later.head?, Apart text lower upper point) :
    BoundsKept text lower upper (points ++ later) := by
  intro id c notLess isLess got bound isBound
  refine (first id c notLess isLess got bound isBound).append (second id c notLess isLess got bound isBound) ?_
  exact reset.imp (fun apart point mem => apart point mem id notLess isLess)
    fun apart point mem => apart point mem id notLess isLess

/-- Points that are none of the loops come before and after. -/
theorem BoundsKept.amid {before after : List Point} (kept : BoundsKept text lower upper points)
    (apartBefore : ∀ point ∈ before, Apart text lower upper point)
    (apartAfter : ∀ point ∈ after, Apart text lower upper point) :
    BoundsKept text lower upper (before ++ (points ++ after)) := by
  refine (boundsKept_of_apart apartBefore).append (kept.append (boundsKept_of_apart apartAfter) (.inr ?_))
    (.inl apartBefore)
  exact fun point isHead => apartAfter point (mem_of_mem_head? isHead)

/-- The loops of spelled statements have none of the other blocks. -/
theorem Spells.apart (spelt : Spells text s depth first start ss nodes defs final last)
    (isOld : start.block.index < first.blocks)
    (elsewhere : point.block.index < first.blocks ∨ last.blocks ≤ point.block.index ∨ point.block = final.block) :
    Apart text first.scopes last.scopes point := by
  intro id notLess isLess held
  obtain ⟨notBefore, notAfter, notFinal⟩ := spelt.of_held isOld notLess isLess held
  rcases elsewhere with isBefore | isAfter | isFinal
  · omega
  · omega
  · exact notFinal isFinal

end

/-- The run passes the points from the one place to the other. They lie in the first block and the new ones, and the
rounds of the new loops stay within their bounds. -/
structure Traced (f : Func) (regs : TargetRegs) (text : Text) (first last : Numbers) (start final : Place)
    (m after : Machine) (points : List Point) : Prop where
  follows : (f.free regs).Follows (.running start.point m) points (.running final.point after)
  within : ∀ point ∈ points, point.block = start.block ∨ first.blocks ≤ point.block.index ∧
    point.block.index < last.blocks
  kept : BoundsKept text first.scopes last.scopes points

/-- The run passes the points from the header of a loop on, this many times at its start. They lie in the loop, and the
rounds of the loops inside it stay within their bounds. -/
structure Turned (f : Func) (regs : TargetRegs) (text : Text) (first left : Numbers) (n : Nat) (m : Machine)
    (next : Status) (points : List Point) : Prop where
  follows : (f.free regs).Follows (.running ⟨first.block, text.code first.block⟩ m) points next
  within : ∀ point ∈ points, first.blocks ≤ point.block.index ∧ point.block.index < left.blocks
  count_eq : points.count ⟨first.block, text.code first.block⟩ = n
  kept : BoundsKept text (first.scopes + 1) left.scopes points

section

variable {limit n : Nat} {inner : ScopeId} {between middle joined left : Numbers} {place : Place} {exit : BlockId}
  {pred exitPred : PredId} {others body : List Stmt} {moreNodes : List ScopeNode}
  {moreDefs : List PredDef} {test : Test} {after : Machine} {morePoints : List Point} {v : Bool}

theorem Spells.nil_inv (spelt : Spells text s depth first start [] nodes defs final last) :
    start = final ∧ first = last := by
  cases spelt
  exact ⟨rfl, rfl⟩

theorem Spells.append_inv (spelt : Spells text s depth first start (ss ++ others) nodes defs final last) :
    ∃ place between nodes defs moreNodes moreDefs, Spells text s depth first start ss nodes defs place between ∧
      Spells text s depth between place others moreNodes moreDefs final last := by
  induction ss generalizing first start nodes defs with
  | nil => exact ⟨_, _, _, _, _, _, .nil, spelt⟩
  | cons stmt rest ih =>
    cases spelt with
    | simple later =>
      obtain ⟨_, _, _, _, _, _, early, late⟩ := ih later
      exact ⟨_, _, _, _, _, _, .simple early, late⟩
    | ifThenElse thenGuard thenSpelt elseGuard elseSpelt joinGuard later =>
      obtain ⟨_, _, _, _, _, _, early, late⟩ := ih later
      exact ⟨_, _, _, _, _, _, .ifThenElse thenGuard thenSpelt elseGuard elseSpelt joinGuard early, late⟩
    | whileDo headerGuard headerCode bodyGuard loop bodySpelt exitGuard later =>
      obtain ⟨_, _, _, _, _, _, early, late⟩ := ih later
      exact ⟨_, _, _, _, _, _, .whileDo headerGuard headerCode bodyGuard loop bodySpelt exitGuard early, late⟩
    | repeatUntil headerGuard headerCode loop exitGuard later =>
      obtain ⟨_, _, _, _, _, _, early, late⟩ := ih later
      exact ⟨_, _, _, _, _, _, .repeatUntil headerGuard headerCode loop exitGuard early, late⟩

/-- The points of one part of the statements and those of the next. -/
theorem Traced.trans (traced : Traced f regs text first between start place m next points)
    (later : Traced f regs text between last place final next after morePoints)
    (spelt : Spells text s depth first start ss nodes defs place between)
    (laterSpelt : Spells text s depth between place others moreNodes moreDefs final last)
    (isOld : start.block.index < first.blocks) :
    Traced f regs text first last start final m after (points ++ morePoints) := by
  have ends := spelt.final_block
  have within := traced.within
  have laterWithin := later.within
  have blocksLe := spelt.blocks_le
  have laterLe := laterSpelt.blocks_le
  simp only [eq_iff] at ends within laterWithin
  have apart : ∀ point ∈ morePoints, Apart text first.scopes between.scopes point := by
    intro point mem
    refine spelt.apart isOld (.inr ?_)
    rw [eq_iff]
    have := laterWithin point mem
    omega
  have laterApart : ∀ point ∈ points, Apart text between.scopes last.scopes point := by
    intro point mem
    have := within point mem
    exact laterSpelt.apart (by omega) (.inl (by omega))
  refine ⟨traced.follows.trans later.follows, ?_, .join (traced.kept.append (boundsKept_of_apart apart) (.inr ?_))
    ((boundsKept_of_apart laterApart).append later.kept (.inl laterApart))⟩
  · simp only [forall_mem_append, eq_iff]
    refine ⟨fun point mem => ?_, fun point mem => ?_⟩
    · have := within point mem
      omega
    · have := laterWithin point mem
      omega
  · exact fun point isHead => apart point (mem_of_mem_head? isHead)

theorem traced_step {inst : Inst} {code : List Inst} (plain : inst.isTerminator = false)
    (ran : m.after regs inst = .ok after) :
    Traced f regs text first first ⟨b, pred, inst :: code⟩ ⟨b, pred, code⟩ m after [⟨b, inst :: code⟩] := by
  have step : (f.free regs).step ⟨b, inst :: code⟩ m = .ok (.running ⟨b, code⟩ after) := by
    rw [Setting.step_after plain, ran]
    rfl
  refine ⟨.of_step step, forall_mem_singleton.mpr (.inl rfl),
    boundsKept_of_apart fun point _ id notLess isLess => ?_⟩
  omega

/-- One part of a conditional, between the test and the jump to the join. -/
theorem traced_part {partFirst partLast : Numbers} {partPred : PredId} (starts : f.Starts text limit)
    (const : m.pred zero = true) (tested : test.eval m = .ok (v, next))
    (isTarget : t = if v then first.block else middle.block) (targetBelow : t.index < limit)
    (targetNew : first.blocks ≤ t.index ∧ t.index < joined.blocks)
    (traced : Traced f regs text partFirst partLast ⟨t, partPred, text.code t⟩
      ⟨exit, exitPred, [.plain (.branch joined.block)]⟩ (next.fork v) after points)
    (constantAfter : after.pred zero = true) (joinBelow : joined.block.index < limit)
    (blocksLe : first.blocks ≤ partFirst.blocks ∧ partLast.blocks ≤ joined.blocks)
    (exitNew : first.blocks ≤ exit.index ∧ exit.index < joined.blocks)
    (kept : BoundsKept text first.scopes joined.scopes points) (isOld : b.index < first.blocks)
    (apart : ∀ point : Point, point.block.index < first.blocks ∨ point.block = exit →
      Apart text first.scopes joined.scopes point) :
    ∃ points, Traced f regs text first (joined.add 1 0 0) ⟨b, pred, test.inst :: forkCode middle.block first.block⟩
      ⟨joined.block, pred, text.code joined.block⟩ m after.fetch points := by
  have starting : f.startOf (if v then first.block else middle.block) = .ok ⟨t, text.code t⟩ :=
    isTarget ▸ starts t targetBelow
  obtain ⟨testPoints, crosses⟩ : ∃ points, (f.free regs).Crosses b
      (test.inst :: forkCode middle.block first.block) m points (.running ⟨t, text.code t⟩ (next.fork v)) :=
    Setting.crosses_test const tested starting
  have jumps : (f.free regs).Follows (.running ⟨exit, [.plain (.branch joined.block)]⟩ after)
      [⟨exit, [.plain (.branch joined.block)]⟩] (.running ⟨joined.block, text.code joined.block⟩ after.fetch) :=
    .of_step (Setting.step_jump constantAfter (starts _ joinBelow))
  have within := traced.within
  simp only [eq_iff] at within
  refine ⟨_, crosses.follows.trans (traced.follows.trans jumps), ?_, ?_⟩
  · simp only [forall_mem_append, forall_mem_singleton, blocks_add]
    refine ⟨fun point mem => .inl (crosses.block_eq point mem), fun point mem => .inr ?_, .inr (by omega)⟩
    have := within point mem
    omega
  · refine kept.amid (fun point mem => apart point (.inl ?_)) (forall_mem_singleton.mpr (apart _ (.inr rfl)))
    rw [crosses.block_eq point mem]
    exact isOld

theorem Turned.of_crosses (crosses : (f.free regs).Crosses first.block (text.code first.block) m points status)
    (apart : ∀ point : Point, point.block = first.block → Apart text (first.scopes + 1) left.scopes point)
    (isMore : first.blocks < left.blocks) : Turned f regs text first left 1 m status points where
  follows := crosses.follows
  within point mem := by
    rw [crosses.block_eq point mem, index_block]
    omega
  count_eq := crosses.count_start
  kept := boundsKept_of_apart fun point mem => apart point (crosses.block_eq point mem)

theorem Turned.trans {more : Nat}
    (turned : Turned f regs text first left n m (.running ⟨first.block, text.code first.block⟩ next) points)
    (later : Turned f regs text first left more next status morePoints)
    (apart : ∀ point : Point, point.block = first.block → Apart text (first.scopes + 1) left.scopes point) :
    Turned f regs text first left (n + more) m status (points ++ morePoints) where
  follows := turned.follows.trans later.follows
  within := forall_mem_append.mpr ⟨turned.within, later.within⟩
  count_eq := by rw [count_append, turned.count_eq, later.count_eq]
  kept := turned.kept.append later.kept (.inr fun point isHead => apart point (later.follows.head point isHead ▸ rfl))

/-- A round of a loop with its test before the body: the test, the body and the jump back. -/
theorem Traced.turned (traced : Traced f regs text (first.add 2 2 1) left
      ⟨(first.add 1 1 0).block, pred, text.code (first.add 1 1 0).block⟩
      ⟨exit, exitPred, [.plain (.branch first.block)]⟩
      (next.fork true) after points) (starts : f.Starts text limit)
    (headerCode : text.code first.block = test.inst :: forkCode left.block (first.add 1 1 0).block)
    (bodySpelt : Spells text inner depth (first.add 2 2 1)
      ⟨(first.add 1 1 0).block, pred, text.code (first.add 1 1 0).block⟩ body nodes defs
      ⟨exit, exitPred, [.plain (.branch first.block)]⟩ left)
    (within : left.blocks < limit) (const : m.pred zero = true)
    (tested : test.eval m = .ok (true, next)) (constantAfter : after.pred zero = true) :
    ∃ points, Turned f regs text first left 1 m (.running ⟨first.block, text.code first.block⟩ after.fetch) points := by
  have bodyLe := bodySpelt.blocks_le
  have ends := bodySpelt.final_block
  have bodyWithin := traced.within
  simp only [eq_iff, blocks_add, index_block] at bodyLe ends bodyWithin
  obtain ⟨testPoints, crosses⟩ : ∃ points, (f.free regs).Crosses first.block (text.code first.block) m
      points (.running ⟨(first.add 1 1 0).block, text.code (first.add 1 1 0).block⟩ (next.fork true)) := by
    rw [headerCode]
    exact Setting.crosses_test const tested (starts (first.add 1 1 0).block (by simp; omega))
  have jumps : (f.free regs).Follows (.running ⟨exit, [.plain (.branch first.block)]⟩ after)
      [⟨exit, [.plain (.branch first.block)]⟩] (.running ⟨first.block, text.code first.block⟩ after.fetch) :=
    .of_step (Setting.step_jump constantAfter (starts _ (by simp; omega)))
  refine ⟨_, crosses.follows.trans (traced.follows.trans jumps), ?_, ?_, ?_⟩
  · simp only [forall_mem_append, forall_mem_singleton]
    refine ⟨fun point mem => ?_, fun point mem => ?_, by omega⟩
    · rw [crosses.block_eq point mem, index_block]
      omega
    · have := bodyWithin point mem
      omega
  · have notBody : points.count ⟨first.block, text.code first.block⟩ = 0 := by
      refine count_eq_zero.mpr fun mem => ?_
      have := bodyWithin _ mem
      simp only [index_block] at this
      omega
    have notExit : (⟨exit, [.plain (.branch first.block)]⟩ : Point) ≠ ⟨first.block, text.code first.block⟩ := by
      intro same
      have := congrArg (fun point : Point => point.block.index) same
      simp only [index_block] at this
      omega
    rw [count_append, count_append, crosses.count_start, notBody, count_cons_of_ne notExit, count_nil]
  · refine traced.kept.amid (fun point mem => ?_) (forall_mem_singleton.mpr ?_)
    · exact bodySpelt.apart (by simp) (.inl (by simp [crosses.block_eq point mem]))
    · exact bodySpelt.apart (by simp) (.inr (.inr rfl))

/-- A loop whose rounds stay within its bound, from the jump to its header on. -/
theorem Turned.traced (starts : f.Starts text limit)
    (turned : Turned f regs text first left n m.fetch (.running ⟨left.block, text.code left.block⟩ after) points)
    (got : text.scope first.scope = some c) (isHeader : c.header = first.block)
    (held : ∀ b, Held text.scope first.scope b ↔ first.blocks ≤ b.index ∧ b.index < left.blocks)
    (fits : ∀ bound ∈ c.bound, n ≤ bound.toNat) (const : m.pred zero = true)
    (headerBelow : first.block.index < limit) (isOld : b.index < first.blocks)
    (apart : ∀ point : Point, point.block.index < first.blocks → Apart text (first.scopes + 1) left.scopes point) :
    Traced f regs text first (left.add 1 1 0) ⟨b, pred, [.plain (.branch first.block)]⟩
      ⟨left.block, left.pred, text.code left.block⟩ m after (⟨b, [.plain (.branch first.block)]⟩ :: points) := by
  have jumps : (f.free regs).Follows (.running ⟨b, [.plain (.branch first.block)]⟩ m)
      [⟨b, [.plain (.branch first.block)]⟩] (.running ⟨first.block, text.code first.block⟩ m.fetch) :=
    .of_step (Setting.step_jump const (starts _ headerBelow))
  have apartStart : ∀ point ∈ [(⟨b, [.plain (.branch first.block)]⟩ : Point)],
      Apart text (first.scopes + 1) left.scopes point := forall_mem_singleton.mpr (apart _ isOld)
  refine ⟨jumps.trans turned.follows, ?_, ?_⟩
  · refine forall_mem_cons.mpr ⟨.inl rfl, fun point mem => .inr ?_⟩
    have := turned.within point mem
    rw [blocks_add]
    omega
  · refine .join ?_ ((boundsKept_of_apart apartStart).append turned.kept (.inl apartStart))
    intro id o notLess isLess isOther bound isBound
    obtain rfl : id = first.scope := by
      exact congrArg ScopeId.mk (Nat.le_antisymm (le_of_lt_succ isLess) notLess)
    obtain rfl := Option.mem_unique isOther got
    have outside : ∀ point ∈ [(⟨b, [.plain (.branch first.block)]⟩ : Point)],
        ¬ Held text.scope first.scope point.block := by
      refine forall_mem_singleton.mpr fun isHeld => ?_
      have := (held b).mp isHeld
      omega
    refine (RoundsWithin.of_outside outside).append
      (.of_count (fun point mem => (held _).mpr (turned.within point mem)) ?_)
      (.inl outside)
    rw [isHeader, turned.count_eq]
    exact fits bound isBound

end

/-- In its run from the machine the program is at the start of a loop with a bound at most as often as the bound says,
from coming into the loop until leaving it. -/
def Program.KeepsBounds (p : Program) (regs : TargetRegs) (limit : Option Nat) (m : Machine) : Prop :=
  ∀ id c bound, p.tree.scope? id = some c → c.bound = some bound →
    ∀ start, (⟨p.func, regs, limit⟩ : Setting).enter m = .ok start →
      ∀ steps, roundsOf (Held p.tree.scope? id) ⟨c.header, p.func.codeOf c.header⟩
        ((⟨p.func, regs, limit⟩ : Setting).trail steps start) ≤ bound.toNat

/-- A built program runs to its end within its bounds if its statements do. -/
theorem Program.Built.keepsBounds {p : Program} {res : GReg} {outline : Outline}
    {started middle last : Machine} {v : RunResult} (built : p.Built ss res outline)
    (setup : m.afterAll regs (prologue frameWords) = .ok started)
    (traced : Traced p.func regs p.text ⟨1, 1, 1⟩ outline.numbers ⟨⟨0⟩, ⟨0⟩, outline.body⟩
      ⟨outline.exit, outline.exitPred, epilogue frameWords res⟩ started middle points)
    (restored : middle.afterAll regs (restoring frameWords) = .ok last) (const : last.pred zero = true)
    (leaves : last.leave res = .ok v) (limit : Nat) :
    p.func.Finishes regs m (.ok v) ∧ p.KeepsBounds regs (some limit) m := by
  obtain ⟨before, followsBefore, isEntry⟩ : ∃ points, (p.func.free regs).Follows
      (.running ⟨⟨0⟩, prologue frameWords ++ outline.body⟩ m) points (.running ⟨⟨0⟩, outline.body⟩ started) ∧
      ∀ point ∈ points, point.block = ⟨0⟩ := Setting.follows_afterAll prologue_plain setup
  obtain ⟨after, followsAfter, isExit⟩ : ∃ points, (p.func.free regs).Follows
      (.running ⟨outline.exit, restoring frameWords ++ [.plain (.ret res)]⟩ middle) points
      (.running ⟨outline.exit, [.plain (.ret res)]⟩ last) ∧ ∀ point ∈ points, point.block = outline.exit :=
    Setting.follows_afterAll restoring_plain restored
  have returns : (p.func.free regs).Follows (.running ⟨outline.exit, [.plain (.ret res)]⟩ last)
      [⟨outline.exit, [.plain (.ret res)]⟩] (.returned v.value v.machine) :=
    .of_step (by rw [Setting.step_leave const, leaves]; rfl)
  have follows := followsBefore.trans (traced.follows.trans (followsAfter.trans returns))
  -- The frame is set up and torn down outside all loops.
  have apart {point : Point} (elsewhere : point.block = ⟨0⟩ ∨ point.block = outline.exit) :
      Apart p.text 1 outline.numbers.scopes point := by
    refine built.spelt.apart Nat.one_pos ?_
    rcases elsewhere with isEntry | isExit
    · exact .inl (by simp [isEntry])
    · exact .inr (.inr isExit)
  have kept : BoundsKept p.text 1 outline.numbers.scopes
      (before ++ (points ++ (after ++ [⟨outline.exit, [.plain (.ret res)]⟩]))) := by
    refine traced.kept.amid (fun point mem => apart (.inl (isEntry point mem))) (forall_mem_append.mpr ⟨?_, ?_⟩)
    · exact fun point mem => apart (.inr (isExit point mem))
    · exact forall_mem_singleton.mpr (apart (.inr rfl))
  refine ⟨⟨_, built.enter none, follows.leads⟩, ?_⟩
  intro id c bound got isBound start entered steps
  obtain rfl := ok_unique entered (built.enter (some limit))
  have inside : id.index < outline.numbers.scopes := built.scopes ▸ (lt_length got)
  have notRoot : 1 ≤ id.index := by
    by_contra isRoot
    obtain rfl : id = ScopeTree.root := by
      exact congrArg ScopeId.mk (lt_one_iff.mp (Nat.lt_of_not_le isRoot))
    obtain rfl := Option.mem_unique got built.root
    cases isBound
  exact kept id c notRoot inside got bound isBound _
    ((Setting.trail_limited p.func regs limit steps _).trans (follows.trail_prefix steps))

end SinglePath
