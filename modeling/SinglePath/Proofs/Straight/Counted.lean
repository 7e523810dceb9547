import SinglePath.Proofs.Func.Joined
import SinglePath.Proofs.Straight.Straightened

namespace SinglePath

open Finset Func List Nat WalkEvent

variable {work next : Work} {b : BlockId} {plan : Plan} {f start base : Func} {depths : List Nat}
  {es : List WalkEvent} {links : List Link}

theorem Func.size_setCode {body : Block} (got : f.block? b = some body)
    (insts : List Inst) : (f.setCode b insts).size + body.insts.length = f.size + insts.length :=
  size_modify got fun body => { body with insts := insts }

theorem length_insertedAt (i : Nat) (code insts : List Inst) :
    (insertedAt i code insts).length = insts.length + code.length := by
  rw [insertedAt, length_append, length_append, length_take, length_drop]
  omega

namespace Work

/-- The size of the function less what was inserted, and what was dropped. -/
def account (work : Work) : Int × Nat × Nat :=
  (work.func.size - work.stats.insertedInsts, work.stats.removedBranches, work.stats.eliminated)

/-- The account with the dropped branches counted back in. -/
def balance (work : Work) : Int × Nat := (work.account.1 + work.account.2.1, work.account.2.2)

theorem balance_of_account (same : next.account = work.account) : next.balance = work.balance := by
  rw [balance, balance, same]

theorem insertCode_account {i : Block → Nat} {code : List Inst}
    (res : work.insertCode b i code = .ok next) : next.account = work.account := by
  obtain ⟨body, got, _, isNext⟩ := insertCode_ok res
  have size := size_setCode got (insertedAt (i body) code body.insts)
  rw [length_insertedAt] at size
  rw [account, account, insertCode_stats res, isNext]
  refine Prod.ext ?_ rfl
  push_cast
  omega

theorem addBlock_account (work : Work) (name : String) (code : List Inst) :
    (work.addBlock name code).2.account = work.account := by
  have size := work.func.size_addBlock name code
  refine Prod.ext ?_ rfl
  simp only [account, addBlock, countInserted]
  omega

theorem mapFunc_account {change : Func → Except Fault Func} (same : ∀ f next, change f = .ok next → next.size = f.size)
    (res : work.mapFunc change = .ok next) : next.account = work.account := by
  obtain ⟨f, changed, rfl⟩ := bind_pure_inv res
  rw [account, account, same _ _ (expect_eq_ok.mp changed)]

end Work

namespace Plan

theorem predicateInsts_account {guard : PReg} (res : plan.predicateInsts guard work b = .ok next) :
    next.account = work.account := by
  obtain ⟨body, got, insts, emitted, rfl⟩ := bind_bind_pure_inv res
  have size := size_setCode (present_eq_ok.mp (Work.expect_eq_ok.mp got)) insts
  have grown : body.insts.length ≤ insts.length :=
    Woven.length_le (Predication.codeFrom_weaves (Work.await_eq_ok.mp emitted)).1
  refine Prod.ext ?_ rfl
  simp only [Work.account, Work.countInserted, Work.setInsts]
  change ((work.func.setCode b insts).size : Int) - _ = _
  omega

theorem predicateBlock_account {scope : ScopeId} {header : BlockId}
    (res : plan.predicateBlock scope header work b = .ok next) : next.account = work.account := by
  obtain ⟨guard, _, predicated, isPredicated, res⟩ := bind_bind_inv res
  obtain ⟨used, isUsed, res⟩ := bind_inv res
  have first := predicateInsts_account isPredicated
  have second : used.account = predicated.account := by
    obtain ⟨alloc, _, isUsed⟩ := bind_inv isUsed
    split at isUsed
    · obtain ⟨code, _, inserted⟩ := bind_inv isUsed
      exact Work.insertCode_account inserted
    · rw [pure_inv isUsed]
  have third : next.account = used.account := by
    obtain ⟨isTop, _, res⟩ := bind_inv res
    split at res
    · exact Work.insertCode_account res
    · rw [pure_inv res]
  rw [third, second, first]

theorem predicate_account (res : plan.predicate work = .ok next) : next.account = work.account := by
  refine foldlM_invariant (fun s : Work => s.account = work.account) res rfl ?_
  intro s scope after _ same step
  obtain ⟨body, _, step⟩ := bind_inv step
  refine foldlM_invariant (fun s : Work => s.account = work.account) step same ?_
  intro s b after _ same step
  exact (predicateBlock_account step).trans same

theorem restoreKills_size {pending : PendingDefs} {next : Func} (res : restoreKills pending f = .ok next) :
    next.size = f.size := by
  refine foldlM_invariant (fun s : Func => s.size = f.size) res rfl ?_
  intro s entry after _ same step
  obtain ⟨body, got, rfl⟩ := bind_pure_inv step
  have size := size_modify (present_eq_ok.mp got) fun body =>
    { body with insts := killLastReader body.insts body.terminatorStart entry.2 }
  have length := congrArg length (sameButKills_killLastReader body.insts body.terminatorStart entry.2)
  simp only [length_map] at length
  dsimp only at size
  omega

theorem define_account (res : plan.define work = .ok next) : next.account = work.account := by
  obtain ⟨⟨pending, cleared⟩, defined, placed, placing, res⟩ := bind_bind_inv res
  have first : cleared.account = work.account := by
    refine foldlM_invariant (fun s : Work => s.account = work.account) (defineScope_ok defined).2 rfl ?_
    intro s scope after _ same step
    obtain ⟨_, _, _, _, step⟩ := bind_bind_inv step
    obtain ⟨_, _, step⟩ := bind_inv step
    exact (Work.insertCode_account step).trans same
  have second : placed.account = cleared.account := by
    refine foldlM_invariant (fun s : Work => s.account = cleared.account) placing rfl ?_
    intro s entry after _ same step
    exact (Work.insertCode_account step).trans same
  rw [Work.mapFunc_account (fun _ _ => restoreKills_size) res, second, first]

end Plan

namespace Chain

variable {chain after : Chain} {met : Option BlockId} {known : Nat}

theorem next_balance (res : chain.next b = .ok after) : after.work.balance = chain.work.balance := by
  have grows := next_ok res
  obtain ⟨body, got⟩ := grows.found
  have mem : b.index ∈ Finset.range chain.work.func.blocks.length := Finset.mem_range.mpr (lt_length got)
  have others : ∑ index ∈ (Finset.range chain.work.func.blocks.length).erase b.index,
      (after.work.func.codeOf ⟨index⟩).length = ∑ index ∈ (Finset.range chain.work.func.blocks.length).erase b.index,
      (chain.work.func.codeOf ⟨index⟩).length := by
    refine sum_congr rfl fun index isOther => ?_
    have ne : (⟨index⟩ : BlockId) ≠ b := fun same => (mem_erase.mp isOther).1 (congrArg BlockId.index same)
    rw [grows.follows.codeOf, if_neg ne]
  have before := add_sum_erase _ (fun index => (chain.work.func.codeOf ⟨index⟩).length) mem
  have later := add_sum_erase _ (fun index => (after.work.func.codeOf ⟨index⟩).length) mem
  have parts := congrArg length (stripped_append_trailing (chain.work.func.codeOf b))
  rw [length_append] at parts
  have isStripped : after.work.func.codeOf ⟨b.index⟩ = stripped (chain.work.func.codeOf b) := by
    rw [grows.follows.codeOf, if_pos rfl]
  have size : after.work.func.size + (trailing (chain.work.func.codeOf b)).length = chain.work.func.size := by
    rw [size_eq, size_eq, grows.follows.length, ← before, ← later, others, isStripped]
    change _ = (chain.work.func.codeOf b).length + _
    omega
  rw [Work.balance, Work.balance, Work.account, Work.account, grows.stats]
  refine Prod.ext ?_ rfl
  push_cast
  omega

theorem Acts.balance (acts : Acts met known chain after) : after.work.balance = chain.work.balance := by
  cases acts with
  | next _ res => exact next_balance res
  | add name code => exact Work.balance_of_account (chain.work.addBlock_account name code)
  | append res => exact Work.balance_of_account (Work.insertCode_account res)
  | edge res =>
    exact Work.balance_of_account (Work.mapFunc_account (fun _ _ added => (addEdge_sameButEdges added).size) res)
  | count => rfl

theorem balance_of_acts (acts : Relation.ReflTransGen (Acts met known) chain after) :
    after.work.balance = chain.work.balance := by
  induction acts with
  | refl => rfl
  | tail _ last ih => exact last.balance.trans ih

end Chain

namespace Plan

theorem linearize_balance (res : plan.linearize work = .ok next) : next.balance = work.balance := by
  obtain ⟨es, _, final, folded, rfl⟩ := bind_bind_pure_inv res
  refine foldlM_invariant (fun s : Chain => s.work.balance = work.balance) folded rfl ?_
  intro s e after _ same step
  exact (Chain.balance_of_acts (Chain.extend_acts le_rfl step)).trans same

end Plan

namespace Plan

/-- A block of one of the scopes. -/
def Member (plan : Plan) (b : BlockId) : Prop := ∃ id scope, plan.tree.get id = .ok scope ∧ b ∈ scope.blocks

namespace Made

variable {predicated defined : Work}

theorem leaving_nil (made : plan.Made f start depths) {defs : List (BlockId × PendingDef)}
    (makes : plan.Makes (plan.defsOf plan.scopes) defs) (outside : ¬ plan.Member b) : leaving defs b = [] := by
  refine map_eq_nil_iff.mpr (filter_eq_nil_iff.mpr ?_)
  rintro ⟨u, pending⟩ mem
  have isOther : u ≠ b := by
    rintro rfl
    obtain ⟨i, got⟩ := getElem?_of_mem mem
    obtain ⟨⟨id, defn, index⟩, isDef, comp⟩ := mapM_getElem? makes got
    obtain ⟨pendingDef, isMade, comp⟩ := bind_inv comp
    obtain ⟨isSource, _⟩ := Prod.mk.inj (pure_inv comp)
    obtain ⟨exited, exits, _⟩ := bind_inv isMade
    obtain ⟨scope, _, inScope⟩ := mem_flatMap.mp (mem_of_getElem? isDef)
    split at inScope
    · rename_i body isContent
      obtain ⟨⟨o, place⟩, isEntry, same⟩ := mem_map.mp inScope
      cases same
      have foundScope : plan.tree.get id = .ok body := present_eq_ok.mpr isContent
      have u := made.valid.source_mem foundScope (fst_mem_of_mem_zipIdx isEntry) (liftM_inv exits)
      refine outside ?_
      rw [← isSource]
      cases exited with
      | none => exact ⟨id, body, foundScope, u⟩
      | some loop =>
        obtain ⟨_, inner, foundInner, isHeader⟩ := u
        exact ⟨loop, inner, foundInner, isHeader ▸ made.valid.header_mem_blocks foundInner⟩
    · simp at inScope
  simpa using isOther

theorem outside_length (made : plan.Made f start depths) (isStart : work.func = start)
    (predicating : plan.predicate work = .ok predicated) (defining : plan.define predicated = .ok defined)
    (outside : ¬ plan.Member b) : (defined.func.codeOf b).length = (f.codeOf b).length := by
  have rewritten := predicate_rewritten made.members_once predicating
  have notMember : b ∉ (plan.tree.membersOf plan.scopes).map (·.2.2) := by
    intro mem
    obtain ⟨⟨id, scope, _⟩, isMember, rfl⟩ := mem_map.mp mem
    obtain ⟨_, got, inside⟩ := ScopeTree.mem_membersOf.mp isMember
    exact outside ⟨id, scope, got, inside⟩
  have same : predicated.func.codeOf b = f.codeOf b := by
    rw [codeOf, rewritten.others b notMember, isStart, made.block?_start, codeOf]
  obtain ⟨defs, makes, sameButCode, changed⟩ := define_ok made.headers_once defining
  rw [← same]
  cases got : predicated.func.block? b with
  | none =>
    have missing : defined.func.block? b = none := by
      simpa [got] using sameButCode.block? b
    simp [codeOf, got, missing]
  | some body =>
    obtain ⟨cleared, insts, foundNew, clears, sameKills⟩ := changed b body got
    have lengths := congrArg length sameKills
    rw [length_map, length_map, length_insertedAt, made.leaving_nil makes outside] at lengths
    obtain ⟨scope, mem, isHeader, _⟩ | ⟨_, rfl⟩ := clears
    · obtain ⟨inner, foundScope⟩ := made.valid.found mem
      rw [headerOf_eq foundScope] at isHeader
      exact absurd ⟨scope, inner, foundScope, isHeader ▸ made.valid.header_mem_blocks foundScope⟩ outside
    · rw [codeOf_eq got, codeOf_eq foundNew, lengths]
      rfl

end Made

/-- What the blocks that a walk meets have at their ends, the links of the walk have too. -/
theorem Threads.sum (threads : plan.Threads base es links)
    (measure : BlockId → Nat) (nothing : ∀ b, base.blocks.length ≤ b.index → measure b = 0) :
    (links.map fun link => measure link.block).sum = ((es.filterMap WalkEvent.met).map measure).sum := by
  induction threads with
  | nil => rfl
  | cons adds _ ih =>
    rw [met_cons, map_append, map_append, List.sum_append, List.sum_append, ih]
    cases adds with
    | block id => rfl
    | enterTop => rfl
    | exitTop => rfl
    | enter _ _ fresh => simp [WalkEvent.met, nothing _ fresh]
    | turn _ _ _ _ fresh => simp [WalkEvent.met, nothing _ fresh]
    | close _ _ _ _ fresh _ freshLast => simp [WalkEvent.met, nothing _ fresh, nothing _ freshLast]

end Plan

/-- The code of the blocks that a walk meets, without their trailing branches. -/
def Func.walkCode (f : Func) (es : List WalkEvent) : List Inst :=
  (es.filterMap WalkEvent.met).flatMap fun b => stripped (f.codeOf b)

/-- The number of trailing branches of the blocks that a walk meets. -/
def Func.walkBranches (f : Func) (es : List WalkEvent) : Nat :=
  ((es.filterMap WalkEvent.met).map fun b => (trailing (f.codeOf b)).length).sum

theorem Func.walk_length (f : Func) (es : List WalkEvent) : ((es.filterMap met).flatMap f.codeOf).length =
      (f.walkCode es).length + f.walkBranches es := by
  rw [walkCode, walkBranches]
  induction es.filterMap met with
  | nil => rfl
  | cons b rest ih =>
    have parts := congrArg length (stripped_append_trailing (f.codeOf b))
    simp only [flatMap_cons, length_append, List.map_cons, List.sum_cons] at parts ⊢
    omega

namespace Plan

variable {next : Func}

/-- The code of a straightened function: the code of the walk, with all that was inserted. -/
structure Straightened (plan : Plan) (f : Func) (es : List WalkEvent) (next : Work) : Prop where
  strung : next.func.Strung
  entry : next.func.entry = f.entry
  laces : plan.Laces (f.walkCode es) next.func.code
  length : next.func.code.length = (f.walkCode es).length + next.stats.insertedInsts
  removed : next.stats.removedBranches = f.walkBranches es
  eliminated : next.stats.eliminated = 0

theorem Linearized.code (linearized : plan.Linearized base next es links) : next.code = links.flatMap (·.code) := by
  rw [Func.code, linearized.layout, flatMap_map]
  exact flatMap_congr fun link mem => linearized.linking.codes link mem

/-- The blocks outside the chain are those that the walk does not meet. -/
theorem Linearized.size (linearized : plan.Linearized base next es links)
    (sameLength : base.blocks.length = f.blocks.length) (once : (es.filterMap met).Nodup)
    (inside : ∀ b ∈ es.filterMap met, b.index < f.blocks.length)
    (kept : ∀ b, b ∉ es.filterMap met → (base.codeOf b).length = (f.codeOf b).length) :
    next.size + ((es.filterMap met).flatMap f.codeOf).length = f.size + next.code.length := by
  have linking := linearized.linking
  have isNext := next.size_split linearized.placing.once linking.inside
  have isFunc := f.size_split once inside
  have sameBlocks : (Finset.range next.blocks.length).filter (fun index => (⟨index⟩ : BlockId) ∉ next.layout) =
      (Finset.range f.blocks.length).filter fun index => (⟨index⟩ : BlockId) ∉ es.filterMap met := by
    ext index
    simp only [Finset.mem_filter, Finset.mem_range, linearized.layout]
    constructor
    · rintro ⟨exists_, unlinked⟩
      refine ⟨?_, fun isMet => unlinked (linearized.threads.met isMet)⟩
      refine Decidable.byContradiction fun new => unlinked ?_
      exact (linking.fresh ⟨index⟩ (Nat.not_lt.mp (sameLength ▸ new)) exists_).resolve_right (by simp)
    · rintro ⟨exists_, unmet⟩
      refine ⟨Nat.lt_of_lt_of_le (sameLength ▸ exists_) linking.grown, fun linked => ?_⟩
      rcases linearized.threads.blocks linked with isMet | new
      · exact unmet isMet
      · exact absurd (sameLength ▸ new) (Nat.not_le.mpr exists_)
  have sameRest : ∑ index ∈ range next.blocks.length with (⟨index⟩ : BlockId) ∉ next.layout,
      (next.codeOf ⟨index⟩).length = ∑ index ∈ range f.blocks.length with
      (⟨index⟩ : BlockId) ∉ es.filterMap met, (f.codeOf ⟨index⟩).length := by
    rw [sameBlocks]
    refine sum_congr rfl fun index isOutside => ?_
    obtain ⟨exists_, unmet⟩ := Finset.mem_filter.mp isOutside
    have old : index < base.blocks.length := sameLength ▸ Finset.mem_range.mp exists_
    rw [linking.others ⟨index⟩ old fun linked => ?_, kept _ unmet]
    exact (linearized.threads.blocks linked).elim unmet fun new => absurd new (Nat.not_le.mpr old)
  rw [Func.code]
  omega

/-- Straightening keeps the code of the walk and counts what it inserts and drops. -/
theorem Made.straighten_ok (made : plan.Made f start depths) (once : f.layout.Nodup)
    (plain : ∀ inst ∈ trailing (f.codeOf f.entry), inst.frameSetup = false) (laid : f.entry ∈ f.layout)
    {next : Work} (res : plan.straighten { func := start } = .ok next) :
    ∃ es, plan.tree.walk = .ok es ∧ plan.Straightened f es next := by
  obtain ⟨predicated, defined, es, links, stages⟩ := made.stages once plain laid res
  obtain ⟨isEntered, walks⟩ := stages.walks made
  have linearized := stages.linearized
  have account : defined.account = ({ func := start } : Work).account :=
    (define_account stages.defining).trans (predicate_account stages.predicating)
  have balance := (linearize_balance stages.linearizing).trans (Work.balance_of_account account)
  have branches : next.stats.removedBranches = f.walkBranches es := by
    have already : defined.stats.removedBranches = 0 := congrArg (·.2.1) account
    have sameBranches : ∀ b, (trailing (defined.func.codeOf b)).length = (trailing (f.codeOf b)).length :=
      fun b => by simpa using congrArg length (stages.carries b).branches
    rw [stages.removed, already, zero_add,
      linearized.threads.sum (fun b => (trailing (defined.func.codeOf b)).length)
      fun b fresh => by rw [Chain.codeOf_fresh fresh]; rfl, walkBranches]
    simp only [sameBranches]
  have size := linearized.size (stages.length made) (made.valid.met_nodup isEntered walks) (fun b isMet => by
      obtain ⟨id, scope, got, member⟩ := (made.valid.mem_met isEntered walks).mp isMet
      exact made.valid.member_lt got member)
    (fun b unmet => made.outside_length rfl stages.predicating stages.defining fun member =>
      unmet ((made.valid.mem_met isEntered walks).mpr member))
  have walkLength := f.walk_length es
  have sizes : (next.func.size : Int) - next.stats.insertedInsts + next.stats.removedBranches = f.size := by
    have sameSize : start.size = f.size := by
      rw [made.laid.start]
      rfl
    rw [← sameSize]
    simpa [Work.balance, Work.account] using congrArg Prod.fst balance
  refine ⟨es, linearized.walked, linearized.strung made.valid (stages.entry made),
    linearized.linking.entry.trans (stages.entry made), ?_, ?_, branches, congrArg Prod.snd balance⟩
  · rw [linearized.code]
    exact linearized.threads.laces stages.carries
  · omega

end Plan

end SinglePath
