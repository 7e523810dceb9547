import SinglePath.Proofs.Allocation.Preserved
import SinglePath.Proofs.Reduction.Merging

/-!
The cells that a plan adds to the frame do not meet, and the code around a loop keeps to the cells of its depth.
-/

namespace SinglePath

open FrameLayout Func List Relation ScopeTree

namespace FrameLayout

variable {layout : FrameLayout} {f start : Func} {tree : ScopeTree} {allocs : List ScopeAllocation} {depths : List Nat}
  {first n depth : Nat} {c : CellId}

theorem nodup_cellRange (first n : Nat) : (cellRange first n).Nodup :=
  nodup_range.map fun _ _ same => Nat.add_left_cancel (CellId.mk.inj same)

theorem atDepth_cellRange (got : atDepth (cellRange first n) depth = .ok c) :
    0 < depth ∧ depth ≤ n ∧ c.index + 1 = first + depth := by
  cases depth with
  | zero => cases got
  | succ depth =>
    have isCell := present_eq_ok.mp got
    have inRange : depth < n := by simpa using lt_length isCell
    rw [getElem?_cellRange inRange] at isCell
    cases isCell
    exact ⟨Nat.succ_pos _, inRange, by simp [Nat.add_assoc]⟩

/-- The saved bank or the counter of the loops at a depth. -/
def LoopCell (layout : FrameLayout) (depth : Nat) (c : CellId) : Prop :=
  layout.bankCell depth = .ok c ∨ layout.counter depth = .ok c

theorem Laid.loopCell_place (laid : Laid layout f start tree allocs depths) (isLoop : layout.LoopCell depth c) :
    (∀ o, layout.LoopCell o c → depth = o) ∧ c ∉ layout.callCell.toList ++ layout.predWords := by
  have place (depth : Nat) (isLoop : layout.LoopCell depth c) : 0 < depth ∧
      (depth ≤ largest depths ∧ c.index + 1 = f.cells + (if f.hasCalls then 1 else 0) +
        (stackBits allocs + wordBits - 1) / wordBits + depth ∨ c.index + 1 = f.cells + (if f.hasCalls then 1 else 0) +
        (stackBits allocs + wordBits - 1) / wordBits + largest depths + depth) := by
    rcases isLoop with bank | counter
    · rw [bankCell, laid.bankCells] at bank
      obtain ⟨positive, most, isIndex⟩ := atDepth_cellRange bank
      exact ⟨positive, .inl ⟨most, isIndex⟩⟩
    · rw [FrameLayout.counter, laid.counters] at counter
      obtain ⟨positive, _, isIndex⟩ := atDepth_cellRange counter
      exact ⟨positive, .inr isIndex⟩
  have here := place depth isLoop
  refine ⟨fun o isOther => ?_, fun listed => ?_⟩
  · have there := place o isOther
    omega
  · rw [laid.words_eq, mem_cellRange] at listed
    omega

/-- As many copies of a cell as it takes to find it at the depth. -/
def copies (depth : Nat) : Except Fault CellId → List CellId
  | .ok c => replicate depth c
  | .error _ => []

/-- The frame without the loop cells of other depths. -/
def only (layout : FrameLayout) (depth : Nat) : FrameLayout :=
  { layout with
    bankCells := copies depth (layout.bankCell depth)
    counters := copies depth (layout.counter depth) }

theorem atDepth_copies (cells : List CellId) (depth : Nat) :
    atDepth (copies depth (atDepth cells depth)) depth = atDepth cells depth := by
  cases depth with
  | zero => rfl
  | succ depth =>
    change present (copies (depth + 1) (present cells[depth]?))[depth]? = present cells[depth]?
    cases cells[depth]? <;> simp [copies]

theorem bankCell_only (layout : FrameLayout) (depth : Nat) :
    (layout.only depth).bankCell depth = layout.bankCell depth :=
  atDepth_copies _ _

theorem counter_only (layout : FrameLayout) (depth : Nat) : (layout.only depth).counter depth = layout.counter depth :=
  atDepth_copies _ _

theorem eq_ok_of_mem_copies {got : Except Fault CellId} (listed : c ∈ copies depth got) : got = .ok c := by
  cases got with
  | ok o => rw [eq_of_mem_replicate listed]
  | error fault => cases listed

theorem mem_only (listed : c ∈ (layout.only depth).cells) :
    c ∈ layout.callCell.toList ++ layout.predWords ∨ layout.LoopCell depth c := by
  rcases mem_append.mp listed with others | counter
  · exact (mem_append.mp others).imp id fun bank => .inl (eq_ok_of_mem_copies bank)
  · exact .inr (.inr (eq_ok_of_mem_copies counter))

end FrameLayout

namespace Plan

variable {plan : Plan} {base f start : Func} {depths : List Nat} {s : ScopeId} {body : Scope} {code : List Inst}
  {inst : Inst} {c : CellId} {depth o : Nat} {b : BlockId}

/-- The plan without the loop cells of other depths. -/
def only (plan : Plan) (depth : Nat) : Plan := { plan with frame := plan.frame.only depth }

theorem frame_only (plan : Plan) (depth : Nat) : (plan.only depth).frame = plan.frame.only depth := rfl

theorem Enters.only (enters : plan.Enters s body code) : (plan.only body.depth).Enters s body code := by
  obtain ⟨pred, alloc, save, enter, regs, clear, n, isPred, isAlloc, isSave, isEnter, isRegs, isClear, isCount, rfl⟩ :=
    enters
  refine ⟨pred, alloc, save, enter, regs, clear, n, isPred, isAlloc, ?_, isEnter, isRegs, ?_, ?_, rfl⟩
  · rw [saveBankCode, frame_only, bankCell_only]
    exact isSave
  · rw [clearExitsCode, frame_only, bankCell_only]
    exact isClear
  · rw [setCounterCode, frame_only, counter_only]
    exact isCount

theorem Turns.only (turns : plan.Turns s body code) : (plan.only body.depth).Turns s body code := by
  obtain ⟨alloc, reload, branch, isAlloc, isReload, isBranch, rfl⟩ := turns
  refine ⟨alloc, reload, branch, isAlloc, isReload, ?_, rfl⟩
  rw [branchCode, frame_only, counter_only]
  exact isBranch

theorem Closes.only (closes : plan.Closes base s body code) : (plan.only body.depth).Closes base s body code := by
  obtain ⟨c, live, isCell, closes⟩ := closes
  exact ⟨c, live, (bankCell_only _ _).trans isCell, closes⟩

/-- A definition that writes a loop cell leaves the header of the loop. -/
theorem defCode_only {entry : PredDef × Nat} {made : PendingDef} (res : plan.defCode s entry = .ok made) :
    (plan.only 0).OwnCode made.code ∨ ∃ loop inner, plan.tree.childWithHeader s entry.1.source = .ok (some loop) ∧
      plan.tree.get loop = .ok inner ∧ (plan.only inner.depth).OwnCode made.code := by
  obtain ⟨exited, exits, guard, isGuard, res⟩ := bind_bind_inv res
  obtain ⟨alloc, isAlloc, res⟩ := bind_inv res
  split at res
  · obtain ⟨dst, isDst, res⟩ := bind_inv res
    obtain ⟨loop, inner, _, c, rfl, got, _, _, isCell, rfl⟩ | ⟨_, rfl⟩ := registerDef_cases res
    · have own : c ∈ (plan.only inner.depth).frame.cells := bankCell_own ((bankCell_only _ _).trans isCell)
      exact .inr ⟨loop, inner, liftM_inv exits, got, bitDefCode_own own _ _ _⟩
    · refine .inl (OwnCode.cons_iff.mpr ⟨?_, .nil⟩)
      have own : (plan.only 0).OwnPred dst := .inr (.inr (preg_own (liftM_inv isDst)))
      split <;> exact ⟨rfl, own⟩
  · obtain ⟨⟨c, bit⟩, isBit, rfl⟩ := bind_pure_inv res
    have own : c ∈ (plan.only 0).frame.cells := stackBit_own (liftM_inv isBit)
    exact .inl (bitDefCode_own own _ _ _)
  · exact absurd res refuseTree_ne_ok

theorem mem_insertedAt {i : Nat} {insts : List Inst} (listed : inst ∈ insertedAt i code insts) :
    inst ∈ code ∨ inst ∈ insts := by
  rw [← take_append_drop i insts]
  simp only [insertedAt, mem_append] at listed ⊢
  tauto

namespace Made

variable (made : plan.Made f start depths) (isLoop : plan.frame.LoopCell depth c)

include made isLoop

section

variable (touches : inst.Touches [c])

include touches

/-- Code that keeps to the loop cells of one depth touches no others. -/
theorem depth_eq (own : (plan.only o).OwnCode code) (listed : inst ∈ code) : o = depth := by
  obtain ⟨_, isCell, named⟩ := touches
  obtain rfl := mem_singleton.mp isCell
  rcases mem_only ((own inst listed).cell_mem named) with isWord | isOwn
  · exact absurd isWord (made.laid.loopCell_place isLoop).2
  · exact ((made.laid.loopCell_place isLoop).1 o isOwn).symm

theorem not_own (own : (plan.only 0).OwnCode code) : inst ∉ code := by
  intro listed
  obtain rfl := made.depth_eq isLoop touches own listed
  rcases isLoop with bank | counter
  · cases bank
  · cases counter

/-- Predication touches no loop cell that the block does not touch. -/
theorem of_predicates {header : BlockId} {body : Block} (predicates : plan.Predicates s header b body code)
    (listed : inst ∈ code) : ∃ old ∈ body.insts, old.Touches [c] := by
  obtain ⟨guard, alloc, use, code, isTop, isGuard, _, emitted, isUse, _, rfl⟩ := predicates
  have ownUse : (plan.only 0).OwnCode use := by
    split at isUse
    · exact useCode_own isUse
    · exact isUse ▸ .nil
  have inside : inst ∈ use ++ code := by
    split at listed
    · have own : (plan.only 0).OwnCode [.movePred .always guard (.holds plan.temporary)] :=
        OwnCode.cons_iff.mpr ⟨⟨rfl, blockGuard_own isGuard⟩, .nil⟩
      exact (mem_insertedAt listed).resolve_left (made.not_own isLoop touches own)
    · exact listed
  have emitted : ((plan.only 0).predication guard).blockCode b body = .ok code := emitted
  have kept : ∀ inst ∈ code, inst.Touches [c] → ∃ old ∈ body.insts, old.Touches [c] :=
    (Predication.codeFrom_weaves emitted).1.forall_new
      (fun old isOld _ same touches => ⟨old, isOld, Inst.touches_of_bare same.symm touches⟩)
      fun inst own touches => absurd (mem_singleton_self inst)
        (made.not_own isLoop touches (OwnCode.cons_iff.mpr ⟨own, .nil⟩))
  exact kept inst ((mem_append.mp inside).resolve_left (made.not_own isLoop touches ownUse)) touches

end

variable {work next : Work} (predicating : plan.predicate { func := start } = .ok work)
  (touches : inst.Touches [c])

include predicating touches

theorem of_predicated (listed : inst ∈ work.func.codeOf b) : ∃ own ∈ f.codeOf b, own.Touches [c] := by
  have rewritten := predicate_rewritten made.members_once predicating
  by_cases isMember : b ∈ (plan.tree.membersOf plan.scopes).map (·.2.2)
  · obtain ⟨member, mem, rfl⟩ := mem_map.mp isMember
    obtain ⟨body, new, got, predicates, foundNew⟩ := rewritten.changed _ mem
    rw [codeOf_eq foundNew] at listed
    rw [made.block?_start] at got
    rw [codeOf_eq got]
    exact made.of_predicates isLoop touches predicates listed
  · rw [codeOf, rewritten.others b isMember, made.block?_start] at listed
    exact ⟨inst, listed, touches⟩

/-- Before the blocks are linked, a loop cell that a block's own code does not touch is touched only by definitions, at
the header of the loop. -/
theorem heads (defining : plan.define work = .ok next) (listed : inst ∈ next.func.codeOf b) :
    (∃ own ∈ f.codeOf b, own.Touches [c]) ∨
      ∃ s body, plan.tree.get s = .ok body ∧ body.depth = depth ∧ b = body.header := by
  obtain ⟨defs, makes, same, changed⟩ := define_ok made.headers_once defining
  cases got : work.func.block? b with
  | none =>
    have missing : next.func.block? b = none := by simpa [got] using same.block? b
    simp [codeOf, missing] at listed
  | some body =>
    obtain ⟨cleared, insts, foundNew, clears, sameKills⟩ := changed b body got
    rw [codeOf_eq foundNew] at listed
    have isBare : inst.bare ∈ insts.map Inst.bare := mem_map_of_mem listed
    rw [sameKills.bare] at isBare
    obtain ⟨old, isOld, sameBare⟩ := mem_map.mp isBare
    have touches := Inst.touches_of_bare sameBare touches
    have predicated (isKept : old ∈ body.insts) : ∃ own ∈ f.codeOf b, own.Touches [c] :=
      made.of_predicated isLoop predicating touches (codeOf_eq got ▸ isKept)
    rcases mem_insertedAt isOld with isDef | isCleared
    · obtain ⟨entry, _, pending, rfl, isPending, inside⟩ := makes.mem_code isDef
      rcases defCode_only isPending with own | ⟨loop, inner, exits, foundLoop, own⟩
      · exact absurd inside (made.not_own isLoop touches own)
      · obtain ⟨_, _, exits⟩ := bind_inv exits
        obtain ⟨_, _, again, isHeader⟩ := findHeader_some exits
        obtain rfl := ok_unique foundLoop again
        exact .inr ⟨loop, inner, foundLoop, made.depth_eq isLoop touches own inside, isHeader.symm⟩
    · refine .inl (predicated ?_)
      obtain ⟨s, _, _, inner, alloc, masks, _, _, isMasks, rfl⟩ | ⟨_, rfl⟩ := clears
      · have own : (plan.only 0).OwnCode (plan.clearCode masks) := stackMasks_own isMasks
        exact (mem_insertedAt isCleared).resolve_left (made.not_own isLoop touches own)
      · exact isCleared

end Made

section

variable (plan : Plan) (base straight : Func) (scope : ScopeId) (body : Scope) (block : BlockId)

/-- The loop's preheader in straightened code: a new block with the code that enters the loop and one edge, to the
header. -/
def Preheader : Prop :=
  base.blocks.length ≤ block.index ∧ plan.Enters scope body (straight.codeOf block) ∧
    ∀ other, other ∈ straight.succsOf block ↔ other = body.header

/-- The loop's branch block: a new block with the code that takes the next round and an edge back to the header. -/
def BranchBlock : Prop :=
  base.blocks.length ≤ block.index ∧ plan.Turns scope body (straight.codeOf block) ∧
    body.header ∈ straight.succsOf block

/-- The loop's postlude: a new block with the code that restores the bank for what is live in the function at the loop's
exits, right after the branch block. -/
def Postlude : Prop :=
  base.blocks.length ≤ block.index ∧ plan.Closes base scope body (straight.codeOf block) ∧
    ∃ branch, plan.BranchBlock base straight scope body branch ∧ block ∈ straight.succsOf branch

/-- The block is the header, the preheader, the branch block or the postlude of the loop. -/
def Serves : Prop :=
  block = body.header ∨ plan.Preheader base straight scope body block ∨
    plan.BranchBlock base straight scope body block ∨ plan.Postlude base straight scope body block

end

theorem Closes.of_same (closes : plan.Closes base s body code) (sameLength : base.blocks.length = f.blocks.length)
    (sameLive : ∀ b, base.liveInsOf b = f.liveInsOf b) : plan.Closes f s body code := by
  obtain ⟨c, live, isCell, unavailable, listed, isCode⟩ := closes
  refine ⟨c, live, isCell, unavailable, fun b isExit inside r isLive => ?_, isCode⟩
  exact listed b isExit (sameLength ▸ inside) r (sameLive b ▸ isLive)

section

variable {es : List WalkEvent} {links before after : List Link} {link : Link}

theorem Threads.head_block (threads : plan.Threads base es links) (isHead : es.head? = some (.block b)) :
    links.head?.map (·.block) = some b := by
  cases threads with
  | nil => cases isHead
  | cons adds later =>
    obtain rfl := Option.some.inj isHead
    cases adds
    rfl

/-- The code of a loop's own links keeps to the loop cells of its depth. -/
def Keeps (plan : Plan) (depth : Nat) (code : List Inst) : Prop :=
  ∀ inst ∈ code, (plan.only depth).Own inst ∨ inst.isBranch = true

theorem Turns.keeps (turns : plan.Turns s body code) : plan.Keeps body.depth code := by
  obtain ⟨moves, r, rfl, own⟩ := turns.only.eq
  exact forall_mem_append.mpr ⟨fun inst isMove => .inl (own inst isMove), forall_mem_singleton.mpr (.inr rfl)⟩

/-- A new block of a loop among the links: the preheader right before the header, the branch block with its edge back,
or the postlude right after the branch block. -/
inductive Attends (plan : Plan) (base : Func) (s : ScopeId) (body : Scope) : List Link → Link → List Link → Prop where
  | enter {before after : List Link} {link : Link} (fresh : base.blocks.length ≤ link.block.index)
      (enters : plan.Enters s body link.code) (noBack : link.back = none)
      (heads : after.head?.map (·.block) = some body.header) : Attends plan base s body before link after
  | turn {before after : List Link} {link : Link} (fresh : base.blocks.length ≤ link.block.index)
      (turns : plan.Turns s body link.code) (isBack : link.back = some body.header) :
      Attends plan base s body before link after
  | close (before : List Link) {after : List Link} {branch link : Link} (fresh : base.blocks.length ≤ link.block.index)
      (closes : plan.Closes base s body link.code) (freshBranch : base.blocks.length ≤ branch.block.index)
      (turns : plan.Turns s body branch.code) (isBack : branch.back = some body.header) :
      Attends plan base s body (before ++ [branch]) link after

theorem Attends.keeps (attends : plan.Attends base s body before link after) : plan.Keeps body.depth link.code := by
  cases attends with
  | enter _ enters _ _ => exact fun inst mem => .inl (enters.only.own inst mem)
  | turn _ turns _ => exact turns.keeps
  | close _ _ closes _ _ _ => exact fun inst mem => .inl (closes.only.own inst mem)

theorem Attends.cons (attends : plan.Attends base s body before link after) (first : Link) :
    plan.Attends base s body (first :: before) link after := by
  cases attends with
  | enter fresh enters noBack heads => exact .enter fresh enters noBack heads
  | turn fresh turns isBack => exact .turn fresh turns isBack
  | close before fresh closes freshBranch turns isBack =>
    exact .close (first :: before) fresh closes freshBranch turns isBack

/-- The link between the others has the code of its block, or is a new block of a loop. -/
def Placed (plan : Plan) (base : Func) (before : List Link) (link : Link) (after : List Link) : Prop :=
  link.code = stripped (base.codeOf link.block) ∨
    ∃ s body, plan.tree.get s = .ok body ∧ plan.Attends base s body before link after

theorem Placed.cons (placed : plan.Placed base before link after) (first : Link) :
    plan.Placed base (first :: before) link after := by
  refine placed.imp_right ?_
  rintro ⟨s, body, got, attends⟩
  exact ⟨s, body, got, attends.cons first⟩

theorem placed_cons {first : Link} (here : plan.Placed base [] first links)
    (later : ∀ before link after, links = before ++ link :: after → plan.Placed base before link after) :
    ∀ before link after, first :: links = before ++ link :: after → plan.Placed base before link after := by
  rintro (_ | ⟨o, before⟩) link after isLinks
  · obtain ⟨rfl, rfl⟩ := cons.inj isLinks
    exact here
  · exact (later before link after (cons.inj isLinks).2).cons o

theorem Threads.placed (threads : plan.Threads base es links) (leads : Leads plan.tree es) :
    ∀ before link after, links = before ++ link :: after → plan.Placed base before link after := by
  induction threads with
  | nil => simp
  | cons adds later ih =>
    have ih := ih leads.tail
    cases adds with
    | enterTop | exitTop => exact ih
    | block id => exact placed_cons (.inl rfl) ih
    | enter got _ fresh enters =>
      exact placed_cons (.inr ⟨_, _, got, .enter fresh enters rfl (later.head_block (leads.head got))⟩) ih
    | turn got _ _ _ fresh turns => exact placed_cons (.inr ⟨_, _, got, .turn fresh turns rfl⟩) ih
    | close got _ _ _ fresh turns freshLast closes =>
      rintro (_ | ⟨branch, _ | ⟨postlude, before⟩⟩) link after isLinks
      · obtain ⟨rfl, rfl⟩ := cons.inj isLinks
        exact .inr ⟨_, _, got, .turn fresh turns rfl⟩
      · obtain ⟨rfl, isRest⟩ := cons.inj isLinks
        obtain ⟨rfl, rfl⟩ := cons.inj isRest
        exact .inr ⟨_, _, got, .close [] freshLast closes fresh turns rfl⟩
      · exact ((ih before link after (cons.inj (cons.inj isLinks).2).2).cons postlude).cons branch

/-- The place among the links is the place in the function that they link. -/
theorem Attends.serves (attends : plan.Attends base s body before link after) {straight : Func}
    (linking : Linking base straight links []) (isLinks : links = before ++ link :: after)
    (sameLength : base.blocks.length = f.blocks.length) (sameLive : ∀ b, base.liveInsOf b = f.liveInsOf b) :
    plan.Serves f straight s body link.block := by
  have isCode {link : Link} (mem : link ∈ links) : straight.codeOf link.block = link.code := linking.codes link mem
  have here : link ∈ links := isLinks ▸ mem_append_right before mem_cons_self
  cases attends with
  | enter fresh enters noBack heads =>
    refine .inr (.inl ⟨sameLength ▸ fresh, isCode here ▸ enters, fun o => ?_⟩)
    rw [linking.succs _ _ _ isLinks, heads, noBack]
    simp [eq_comm]
  | turn fresh turns isBack =>
    exact .inr (.inr (.inl ⟨sameLength ▸ fresh, isCode here ▸ turns,
      (linking.succs _ _ _ isLinks _).mpr (.inr isBack)⟩))
  | @close before _ branch _ fresh closes freshBranch turns isBack =>
    have isBranch : links = before ++ branch :: link :: after := by simpa using isLinks
    have there : branch ∈ links := isBranch ▸ mem_append_right before mem_cons_self
    have succs := linking.succs _ _ _ isBranch
    refine .inr (.inr (.inr ⟨sameLength ▸ fresh, isCode here ▸ closes.of_same sameLength sameLive, branch.block,
      ⟨sameLength ▸ freshBranch, isCode there ▸ turns, (succs _).mpr (.inr isBack)⟩, (succs _).mpr (.inl rfl)⟩))

end

/-- In straightened code a loop cell is touched by instructions of the function's own, or by blocks that serve a loop of
its depth. -/
theorem Made.served (made : plan.Made f start depths) {straight : Work}
    (straightened : plan.straighten { func := start } = .ok straight) (listed : inst ∈ straight.func.codeOf b)
    (touches : inst.Touches [c]) (isLoop : plan.frame.LoopCell depth c) :
    (∃ own ∈ f.codeOf b, own.Touches [c]) ∨ ∃ s body, plan.tree.get s = .ok body ∧ body.depth = depth ∧
      plan.Serves f straight.func s body b := by
  obtain ⟨predicated, predicating, defined, defining, linearizing⟩ := bind_bind_inv straightened
  have heads (listed : inst ∈ defined.func.codeOf b) : (∃ own ∈ f.codeOf b, own.Touches [c]) ∨
      ∃ s body, plan.tree.get s = .ok body ∧ body.depth = depth ∧ plan.Serves f straight.func s body b := by
    refine (made.heads isLoop predicating touches defining listed).imp_right ?_
    rintro ⟨s, body, got, isDepth, isHeader⟩
    exact ⟨s, body, got, isDepth, .inl isHeader⟩
  obtain ⟨_, _, sameDefined, _⟩ := define_ok made.headers_once defining
  have same := (predicate_rewritten made.members_once predicating).same.trans sameDefined
  have sameLength : defined.func.blocks.length = f.blocks.length := same.length.trans (by rw [made.laid.start])
  have sameLive (b : BlockId) : defined.func.liveInsOf b = f.liveInsOf b := by
    rw [same.liveInsOf, made.laid.start]
    rfl
  obtain ⟨es, links, isWalk, threads, linking, _, _⟩ := linearize_linking made.valid
    (same.layout.trans (by rw [made.laid.start])) sameLength (same.entry.trans (by rw [made.laid.start])) linearizing
  by_cases linked : b ∈ links.map (·.block)
  · obtain ⟨link, mem, rfl⟩ := mem_map.mp linked
    obtain ⟨before, after, isLinks⟩ := append_of_mem mem
    rw [linking.codes link mem] at listed
    rcases threads.placed (made.valid.leads isWalk) before link after isLinks with isBlock | ⟨s, body, got, attends⟩
    · rw [isBlock] at listed
      refine heads ?_
      rw [← stripped_append_trailing (defined.func.codeOf link.block)]
      exact mem_append_left _ listed
    · refine .inr ⟨s, body, got, ?_, attends.serves linking isLinks sameLength sameLive⟩
      rcases attends.keeps inst listed with own | isBranch
      · exact made.depth_eq isLoop touches (OwnCode.cons_iff.mpr ⟨own, .nil⟩) (mem_singleton_self inst)
      · obtain ⟨guard, setup, op⟩ := inst
        obtain ⟨_, _, named⟩ := touches
        cases op <;> simp_all [Inst.isBranch, Inst.branchTarget, Inst.readsCell, Inst.writesCell]
  · by_cases inside : b.index < defined.func.blocks.length
    · rw [linking.others b inside linked] at listed
      exact heads listed
    · have missing : straight.func.block? b = none := by
        refine getElem?_eq_none (Nat.le_of_not_lt fun isBlock => ?_)
        exact linked ((linking.fresh b (Nat.le_of_not_lt inside) isBlock).resolve_right (by simp))
      simp [codeOf, missing] at listed

end Plan

namespace ScopeTree

variable {tree : ScopeTree} {f start : Func} {entered : List ScopeId} {members : Table BlockId ScopeId}
    {registers : Nat}
  {allocs : List ScopeAllocation} {inner outer id : ScopeId} {s : Scope} {alloc : ScopeAllocation}

theorem firstStackLoc_of_allocate {es : ScopeEvents} {context : ScopeContext} {result : ScopeResult}
    (allocated : ScopeResult.allocate es context = .ok result) :
    result.alloc.firstStackLoc = context.firstStackLoc := by
  obtain ⟨_, comp⟩ := compute_of_allocate allocated
  obtain ⟨_, _, _, _, rfl⟩ := bind_bind_pure_inv comp
  rfl

section

variable (valid : Valid tree f entered members) (allocated : tree.allocate registers = .ok allocs)

include valid allocated

/-- A scope is one deeper than the scope around it, and its stack bits begin where those end. -/
theorem Child.stack (child : Child tree inner outer) (got : tree.get outer = .ok s)
    (isAlloc : allocs[outer.index]? = some alloc) : ∃ body innerAlloc, tree.get inner = .ok body ∧
      allocs[inner.index]? = some innerAlloc ∧ body.depth = s.depth + 1 ∧
      innerAlloc.firstStackLoc = alloc.stackEnd := by
  obtain ⟨same, foundSame, listed⟩ := child
  obtain rfl := ok_unique got foundSame
  obtain ⟨body, foundInner, _, isDepth⟩ := (valid.checked got).children inner listed
  obtain ⟨context, es, result, assigned⟩ := assigned_of_listed allocated got isAlloc
  obtain ⟨innerAlloc, innerContext, innerEvents, innerResult, isInner, innerAssigned⟩ :=
    allocate_assigned allocated foundInner
  obtain rfl := innerAssigned.inherits.unique valid
    (.inner assigned.inherits got assigned.collected assigned.allocated listed)
  refine ⟨body, innerAlloc, foundInner, isInner, isDepth, ?_⟩
  rw [← innerAssigned.same, firstStackLoc_of_allocate innerAssigned.allocated, ← assigned.same]
  rfl

/-- A scope inside another one is deeper, and its stack bits come after the ones of the outer scope. -/
theorem stack_of_descends (descends : TransGen (Child tree) inner outer) (got : tree.get outer = .ok s)
    (isAlloc : allocs[outer.index]? = some alloc) : ∃ body innerAlloc, tree.get inner = .ok body ∧
      allocs[inner.index]? = some innerAlloc ∧ s.depth < body.depth ∧ alloc.stackEnd ≤ innerAlloc.firstStackLoc := by
  induction descends generalizing s alloc with
  | single child =>
    obtain ⟨body, innerAlloc, foundInner, isInner, isDepth, starts⟩ := child.stack valid allocated got isAlloc
    exact ⟨body, innerAlloc, foundInner, isInner, by omega, starts.ge⟩
  | tail _ child ih =>
    obtain ⟨middle, middleAlloc, foundMiddle, isMiddle, isDepth, starts⟩ := child.stack valid allocated got isAlloc
    obtain ⟨body, innerAlloc, foundInner, isInner, deeper, later⟩ := ih foundMiddle isMiddle
    refine ⟨body, innerAlloc, foundInner, isInner, by omega, Nat.le_trans ?_ later⟩
    rw [← starts]
    exact Nat.le_add_right _ _

theorem savesBank_depth (got : tree.get id = .ok s) (isAlloc : allocs[id.index]? = some alloc)
    (saves : alloc.savesBank = true) : alloc.scope = id ∧ 0 < s.depth := by
  obtain ⟨_, _, _, assigned⟩ := assigned_of_listed allocated got isAlloc
  obtain ⟨same, _, _, _, _, comp⟩ := assigned.computed valid
  obtain rfl := ok_unique got comp.collected.found
  rw [comp.saves, comp.collected.placedTop] at saves
  refine ⟨comp.named.trans comp.collected.named, valid.depth_pos got ?_⟩
  simpa using (Bool.and_eq_true_iff.mp saves).1

end

end ScopeTree

namespace FrameLayout

variable {layout : FrameLayout} {tree : ScopeTree} {f start : Func} {entered : List ScopeId}
  {members : Table BlockId ScopeId} {registers : Nat} {allocs : List ScopeAllocation}

/-- What the cells of a frame are to the scopes of an allocated tree: they are different and follow the function's own;
every stack bit, saved bank and counter that is needed has a place, and no two stack bits have the same; a scope inside
another one has other stack bits and other loop cells. -/
structure Separates (layout : FrameLayout) (func start : Func) (tree : ScopeTree) (allocs : List ScopeAllocation) :
    Prop where
  once : layout.cells.Nodup
  range : ∀ c, c ∈ layout.cells ↔ func.cells ≤ c.index ∧ c.index < start.cells
  bits : ∀ alloc ∈ allocs, ∀ location < alloc.stackEnd, ∃ place, layout.stackBit location = .ok place
  bitsApart : ∀ first second place, layout.stackBit first = .ok place → layout.stackBit second = .ok place →
    first = second
  banks : ∀ id s alloc, tree.get id = .ok s → allocs[id.index]? = some alloc → alloc.savesBank = true →
    ∃ c, layout.bankCell s.depth = .ok c
  counters : ∀ id s, tree.get id = .ok s → s.usableBound.isSome → 0 < s.depth →
    ∃ c, layout.counter s.depth = .ok c
  nested : ∀ inner outer s alloc, TransGen (Child tree) inner outer → tree.get outer = .ok s →
    allocs[outer.index]? = some alloc → ∃ body innerAlloc, tree.get inner = .ok body ∧
      allocs[inner.index]? = some innerAlloc ∧ alloc.stackEnd ≤ innerAlloc.firstStackLoc ∧
      ∀ c, layout.LoopCell s.depth c → ¬ layout.LoopCell body.depth c

theorem stackBit_inj (once : layout.predWords.Nodup) {first second : Nat} {place : CellId × Nat}
    (one : layout.stackBit first = .ok place) (two : layout.stackBit second = .ok place) : first = second := by
  obtain ⟨word, isWord, rfl⟩ := bind_pure_inv one
  obtain ⟨o, isOther, same⟩ := bind_pure_inv two
  obtain ⟨rfl, sameBit⟩ := Prod.mk.inj same
  have isWord := present_eq_ok.mp isWord
  have sameWord := (getElem?_inj (lt_length isWord) once).mp (isWord.trans (present_eq_ok.mp isOther).symm)
  rw [← Nat.div_add_mod first wordBits, sameWord, ← sameBit, Nat.div_add_mod]

theorem separates_of_create (valid : Valid tree f entered members) (allocated : tree.allocate registers = .ok allocs)
    (created : create f tree allocs = .ok (layout, start)) : layout.Separates f start tree allocs := by
  obtain ⟨depths, laid⟩ := laid_of_create created
  refine ⟨laid.cells_eq ▸ nodup_cellRange _ _, fun _ => laid.mem_cells, fun alloc mem location inRange => ?_,
    fun _ _ _ => ?_,
    fun id s alloc got isAlloc saves => ?_, fun id s got bounded positive => laid.counter_ok got bounded positive,
    fun inner outer s alloc descends got isAlloc => ?_⟩
  · obtain ⟨c, isBit⟩ := laid.stackBit_ok mem inRange
    exact ⟨_, isBit⟩
  · exact stackBit_inj (laid.predWords ▸ nodup_cellRange _ _)
  · obtain ⟨rfl, positive⟩ := savesBank_depth valid allocated got isAlloc saves
    exact laid.bankCell_ok (mem_of_getElem? isAlloc) saves got positive
  · obtain ⟨body, innerAlloc, foundInner, isInner, deeper, starts⟩ :=
      stack_of_descends valid allocated descends got isAlloc
    refine ⟨body, innerAlloc, foundInner, isInner, starts, fun c outer inner => ?_⟩
    exact Nat.ne_of_lt deeper ((laid.loopCell_place outer).1 _ inner)

end FrameLayout

/-- The frame of an allocated tree is created and its cells are apart, unless there are too few numbers for its cells.
In straightened code the loop cells of a depth are touched only by blocks that serve a loop of that depth, and by blocks
whose own code touches them. -/
theorem frame_apart {tree : ScopeTree} {func : Func} {facts : ScopeFacts} {registers : Nat}
    {allocs : List ScopeAllocation}
    (validated : tree.validate func = .ok facts) (allocated : tree.allocate registers = .ok allocs) :
    (∃ count, FrameLayout.size func tree allocs = .ok count ∧
      ((∃ layout start, FrameLayout.create func tree allocs = .ok (layout, start) ∧
          layout.Separates func start tree allocs) ∨
        FrameLayout.create func tree allocs = .error .overflow ∧ 0x100000000 ≤ func.cells + count)) ∧
      ∀ regs plan start straight, Plan.make tree regs func = .ok (plan, start) →
        plan.straighten { func := start } = .ok straight → ∀ block, ∀ inst ∈ straight.func.codeOf block, ∀ cell depth,
          inst.Touches [cell] → plan.frame.LoopCell depth cell → (∃ own ∈ func.codeOf block, own.Touches [cell]) ∨
            ∃ scope body, tree.get scope = .ok body ∧ body.depth = depth ∧
              plan.Serves func straight.func scope body block := by
  obtain ⟨entered, valid⟩ := validate_valid validated
  refine ⟨?_, fun regs plan start straight planned straightened block inst listed cell depth => ?_⟩
  · obtain ⟨count, isSize, ⟨layout, start, created⟩ | overflows⟩ := create_cases valid allocated
    · exact ⟨count, isSize, .inl ⟨layout, start, created, separates_of_create valid allocated created⟩⟩
    · exact ⟨count, isSize, .inr overflows⟩
  · obtain ⟨rfl, _, depths, made⟩ := Plan.make_ok planned
    exact made.served straightened listed

theorem frame_apart_countdown : ∃ allocs layout created plan start straight,
    countdownTree.allocate 3 = .ok allocs ∧
    FrameLayout.create countdownFunc countdownTree allocs = .ok (layout, created) ∧
    layout.Separates countdownFunc created countdownTree allocs ∧
    Plan.make countdownTree {} countdownFunc = .ok (plan, start) ∧ plan.straighten { func := start } = .ok straight ∧
    ∀ block, ∀ inst ∈ straight.func.codeOf block, ∀ cell depth, inst.Touches [cell] → plan.frame.LoopCell depth cell →
      ∃ scope body, countdownTree.get scope = .ok body ∧ body.depth = depth ∧
        plan.Serves countdownFunc straight.func scope body block := by
  obtain ⟨plan, start, straight, _, planned, straightened, _, _⟩ := exists_of_mergesTo
    (show countdownFunc.mergesTo countdownTree {} (fun _ _ => true) = true by decide +kernel)
  obtain ⟨isTree, _, _, made⟩ := Plan.make_ok planned
  have allocated : countdownTree.allocate 3 = .ok _ := rfl
  obtain ⟨⟨_, _, apart⟩, served⟩ := frame_apart (isTree ▸ made.validated) allocated
  obtain ⟨layout, created, isCreated, separates⟩ := apart.resolve_right fun overflows => by cases overflows.1
  refine ⟨_, layout, created, plan, start, straight, allocated, isCreated, separates, planned, straightened, ?_⟩
  intro block inst listed cell depth touches isLoop
  refine (served {} plan start straight planned straightened block inst listed cell depth touches
    isLoop).resolve_left ?_
  rintro ⟨own, isOwn, touchesOwn⟩
  have uses : countdownFunc.UsesOwnCells := by decide
  obtain ⟨_, _, below⟩ := uses.of_touches isOwn touchesOwn
  exact Nat.not_lt_zero _ below

/-- A function of one block, under a root scope with a bound. -/
def boundedRoot : Program where
  func := {
    name := "root"
    blocks := [{ name := "entry", insts := [.plain (.imm ⟨1⟩ 1), .plain (.ret ⟨1⟩)] }]
    layout := [⟨0⟩] }
  tree := (ScopeTree.single ⟨0⟩).modify root fun s => { s with bound := some 5 }

/-- The countdown with as many cells as can be counted. -/
def fullCountdown : Func := { countdownFunc with cells := 0xffffffff }

/-- The countdown, which before its loop loads a cell that it does not have. -/
def strayCountdown : Func :=
  countdownFunc.modify ⟨0⟩ fun b => { b with insts := .plain (.load ⟨3⟩ (.frame ⟨0⟩)) :: b.insts }

/-- The root has no counter, whatever its bound; a full function has no room for a counter; and code that loads a cell
that the function does not have may load a counter. -/
theorem frame_exceptions : (∃ facts allocs layout start scope,
    boundedRoot.tree.validate boundedRoot.func = .ok facts ∧ boundedRoot.tree.allocate 3 = .ok allocs ∧
      FrameLayout.create boundedRoot.func boundedRoot.tree allocs = .ok (layout, start) ∧
      boundedRoot.tree.get root = .ok scope ∧ scope.usableBound = some 5 ∧
      layout.counter scope.depth = .error .dangling) ∧
    (∃ facts allocs, countdownTree.validate fullCountdown = .ok facts ∧ countdownTree.allocate 3 = .ok allocs ∧
      FrameLayout.create fullCountdown countdownTree allocs = .error .overflow) ∧
    ∃ plan start straight inst, Plan.make countdownTree {} strayCountdown = .ok (plan, start) ∧
      plan.straighten { func := start } = .ok straight ∧ inst ∈ straight.func.codeOf ⟨0⟩ ∧ inst.Touches [⟨0⟩] ∧
      plan.frame.LoopCell 1 ⟨0⟩ ∧ ∀ scope body, countdownTree.get scope = .ok body → body.depth = 1 →
        ¬ plan.Serves strayCountdown straight.func scope body ⟨0⟩ := by
  refine ⟨⟨_, _, _, _, _, rfl, rfl, rfl, rfl, rfl, rfl⟩, ⟨_, _, rfl, rfl, rfl⟩, ?_⟩
  obtain ⟨plan, start, straight, _, planned, straightened, _, listed⟩ := exists_of_mergesTo
    (show strayCountdown.mergesTo countdownTree {} (fun straight _ =>
      decide (.plain (.load ⟨3⟩ (.frame ⟨0⟩)) ∈ straight.codeOf ⟨0⟩)) = true by decide +kernel)
  refine ⟨plan, start, straight, _, planned, straightened, of_decide_eq_true listed, ?_, ?_, ?_⟩
  · exact ⟨⟨0⟩, mem_singleton_self _, .inl rfl⟩
  · have isCounter : (Plan.make countdownTree {} strayCountdown).toOption.map (·.1.frame.counters) = some [⟨0⟩] := by
      decide +kernel
    rw [planned] at isCounter
    have isCounters : plan.frame.counters = [⟨0⟩] := Option.some.inj isCounter
    refine .inr ?_
    rw [FrameLayout.counter, isCounters]
    rfl
  · intro scope body found isDepth serves
    have notHead : body.header ≠ ⟨0⟩ := by
      obtain ⟨_ | _ | index⟩ := scope
      · cases found
        cases isDepth
      · cases found
        decide
      · cases found
    obtain isHeader | new | new | new := serves
    · exact notHead isHeader.symm
    · exact Nat.not_succ_le_zero _ new.1
    · exact Nat.not_succ_le_zero _ new.1
    · exact Nat.not_succ_le_zero _ new.1

end SinglePath
