import SinglePath.Proofs.Func.Streamlined
import SinglePath.Proofs.Straight.Straightened

namespace SinglePath

open List Option

variable {f : Func} {entered : List ScopeId} {members : Table BlockId ScopeId} {inst : Inst}

theorem BranchesLast.stripped_plain {code : List Inst} (last : BranchesLast code) :
    ∀ inst ∈ stripped code, inst.branchTarget = none := by
  obtain ⟨body, branches, rfl, plain, branching⟩ := last
  have isBody : stripped (body ++ branches) = body :=
    (stripped_eq (fun inst isLast => by simp [Inst.isBranch, plain inst (mem_of_getLast? isLast)])
      fun inst mem => by
        obtain ⟨t, isTarget⟩ := branching inst mem
        simp [Inst.isBranch, isTarget]).1
  rw [isBody]
  exact plain

instance (code : List Inst) : Decidable (BranchesLast code) :=
  decidable_of_iff (∀ inst ∈ stripped code, inst.branchTarget = none)
    ⟨fun plain => ⟨stripped code, trailing code, (stripped_append_trailing code).symm, plain, fun _ mem =>
      Option.isSome_iff_exists.mp (isBranch_of_mem_trailing mem)⟩, BranchesLast.stripped_plain⟩

namespace Inst

theorem branchTarget_bare (inst : Inst) : inst.bare.branchTarget = inst.branchTarget := by
  obtain ⟨guard, frameSetup, op⟩ := inst
  cases op <;> rfl

theorem isReturn_bare (inst : Inst) : inst.bare.isReturn = inst.isReturn := by
  obtain ⟨guard, frameSetup, op⟩ := inst
  cases op <;> rfl

theorem isBranch_of_isReturn (isReturn : inst.isReturn = true) : inst.isBranch = false := by
  obtain ⟨guard, frameSetup, op⟩ := inst
  cases op with
  | ret => rfl
  | _ => cases isReturn

theorem returns?_of_bare {o : Inst} (same : o.bare = inst.bare) : o.returns? = inst.returns? := by
  rw [returns?, ← isReturn_bare, same, isReturn_bare, returns?]

end Inst

namespace Func

/-- The only return of the function is the last instruction of the last node of its tree, which is a block. -/
structure OnlyReturn (f : Func) (tree : ScopeTree) (last : BlockId) : Prop where
  node : ∃ top, tree.get ScopeTree.root = .ok top ∧ top.nodes.getLast? = some (.block last)
  ends : ∃ body final, f.codeOf last = body ++ [final] ∧ final.isReturn = true ∧ ∀ inst ∈ body, inst.isReturn = false
  only : ∀ block, block ≠ last → ∀ inst ∈ f.codeOf block, inst.isReturn = false

end Func

theorem ScopeTree.Valid.entry_not_loopHeader {tree : ScopeTree} (valid : Valid tree f entered members) :
    f.entry ∉ Shape.loopHeaders tree := by
  intro mem
  obtain ⟨c, isLoop, isHeader⟩ := mem_map.mp mem
  obtain ⟨mem, isLoop⟩ := mem_filter.mp isLoop
  obtain ⟨index, isContent⟩ := getElem?_of_mem mem
  have found : tree.get ⟨index⟩ = .ok c := present_eq_ok.mpr isContent
  obtain ⟨top, foundTop, noParent, isEntry⟩ := valid.top
  have isRoot : (⟨index⟩ : ScopeId) = root := valid.home_unique found foundTop
    (isHeader ▸ valid.header_mem_blocks found) (isEntry ▸ valid.header_mem_blocks foundTop)
  rw [isRoot] at found
  obtain rfl := ok_unique found foundTop
  simp [Scope.isTopLevel, noParent] at isLoop

namespace Plan

variable {plan : Plan} {start base next : Func} {depths : List Nat} {es : List WalkEvent} {links more : List Link}
  {e : WalkEvent}

/-- The header of the loop, if the scope is one. -/
def loopHeader? (plan : Plan) (s : ScopeId) : Option BlockId :=
  (plan.tree.scope? s).bind fun c => if c.isTopLevel then none else some c.header

/-- Each branch block goes back to the header of the loop that it leaves. -/
theorem Threads.backs (threads : plan.Threads base es links) :
    links.filterMap (·.back) = (es.filterMap WalkEvent.left).filterMap plan.loopHeader? := by
  induction threads with
  | nil => rfl
  | cons adds _ ih =>
    rw [filterMap_append, ih]
    cases adds with
    | block | enterTop | enter => rfl
    | exitTop found isTop => simp [loopHeader?, present_eq_ok.mp found, isTop]
    | turn found isLoop => simp [loopHeader?, present_eq_ok.mp found, isLoop]
    | close found isLoop => simp [loopHeader?, present_eq_ok.mp found, isLoop]

theorem loopHeader?_scopes (plan : Plan) :
    ((range plan.tree.scopes.length).map ScopeId.mk).filterMap plan.loopHeader? = Shape.loopHeaders plan.tree := by
  have picked : ∀ scopes : List Scope, (range scopes.length).filterMap (fun index => scopes[index]?.bind fun c =>
      if c.isTopLevel then none else some c.header) = (scopes.filter (!·.isTopLevel)).map (·.header) := by
    intro scopes
    induction scopes with
    | nil => rfl
    | cons first rest ih =>
      rw [length_cons, range_succ_eq_map, filterMap_cons, filterMap_map]
      cases isTop : first.isTopLevel <;> simpa [isTop, Function.comp_def] using ih
  rw [filterMap_map]
  exact picked plan.tree.scopes

theorem loopHeaders_nodup (valid : plan.tree.Valid f entered members) : (Shape.loopHeaders plan.tree).Nodup := by
  rw [← plan.loopHeader?_scopes]
  refine Nodup.filterMap (fun first second header one two => ?_) (nodup_range.map fun _ _ => ScopeId.mk.inj)
  have found : ∀ {s : ScopeId}, header ∈ plan.loopHeader? s → ∃ c, plan.tree.get s = .ok c ∧ header ∈ c.blocks := by
    intro s isHeader
    obtain ⟨c, isContent, isHeader⟩ := bind_eq_some_iff.mp isHeader
    have got : plan.tree.get s = .ok c := present_eq_ok.mpr isContent
    refine ⟨c, got, ?_⟩
    split at isHeader
    · cases isHeader
    · cases isHeader
      exact valid.header_mem_blocks got
  obtain ⟨_, foundFirst, inFirst⟩ := found one
  obtain ⟨_, foundSecond, inSecond⟩ := found two
  exact valid.home_unique foundFirst foundSecond inFirst inSecond

theorem Linearized.backs_perm
    (linearized : plan.Linearized base next es links) (valid : plan.tree.Valid f entered members) :
    (links.filterMap (·.back)).Perm (Shape.loopHeaders plan.tree) := by
  obtain ⟨walked, isWalk, isEntered, walks⟩ := valid.walked
  obtain rfl := ok_unique linearized.walked isWalk
  rw [linearized.threads.backs]
  have ordered : entered.Perm ((range plan.tree.scopes.length).map ScopeId.mk) := by
    refine (perm_ext_iff_of_nodup valid.once (nodup_range.map fun _ _ => ScopeId.mk.inj)).mpr fun id => ?_
    rw [List.mem_map]
    constructor
    · intro mem
      obtain ⟨s, found⟩ := valid.found mem
      exact ⟨id.index, mem_range.mpr (lt_length (present_eq_ok.mp found)), rfl⟩
    · rintro ⟨index, inside, rfl⟩
      exact valid.covered (present_eq_ok.mpr (getElem?_eq_getElem (mem_range.mp inside)))
  rw [← plan.loopHeader?_scopes]
  exact ((walks.left_perm.trans (isEntered ▸ .refl _)).trans ordered).filterMap _

/-- A link has the branch that leads back, and no other. -/
theorem Adds.targets (adds : plan.Adds base e more)
    (plain : ∀ block, ∀ inst ∈ stripped (base.codeOf block), inst.branchTarget = none) :
    ∀ link ∈ more, link.code.filterMap Inst.branchTarget = link.back.toList := by
  have ownTargets {code : List Inst} (own : plan.OwnCode code) : code.filterMap Inst.branchTarget = [] :=
    filterMap_eq_nil_iff.mpr fun inst mem => by simpa [Inst.isBranch] using (own inst mem).not_isBranch
  have turnTargets {s : ScopeId} {c : Scope} {code : List Inst} (turns : plan.Turns s c code) :
      code.filterMap Inst.branchTarget = [c.header] := by
    obtain ⟨moves, r, rfl, own⟩ := turns.eq
    rw [filterMap_append, ownTargets own]
    rfl
  cases adds with
  | block id => exact forall_mem_singleton.mpr (filterMap_eq_nil_iff.mpr (plain id))
  | enterTop | exitTop => simp
  | enter _ _ _ enters => exact forall_mem_singleton.mpr (ownTargets enters.own)
  | turn _ _ _ _ _ turns => exact forall_mem_singleton.mpr (turnTargets turns)
  | close _ _ _ _ _ turns _ closes =>
    exact forall_mem_cons.mpr ⟨turnTargets turns, forall_mem_singleton.mpr (ownTargets closes.own)⟩

theorem Threads.targets (threads : plan.Threads base es links)
    (plain : ∀ block, ∀ inst ∈ stripped (base.codeOf block), inst.branchTarget = none) :
    ∀ link ∈ links, link.code.filterMap Inst.branchTarget = link.back.toList := by
  induction threads with
  | nil => exact nofun
  | cons adds _ ih =>
    exact fun link mem => (mem_append.mp mem).elim (adds.targets plain link) (ih link)

namespace Linearized

variable (linearized : plan.Linearized base next es links)

include linearized

section

variable (plain : ∀ block, ∀ inst ∈ stripped (base.codeOf block), inst.branchTarget = none)

include plain

theorem targets {link : Link} (mem : link ∈ links) : next.targetsOf link.block = link.back.toList := by
  rw [Func.targetsOf, linearized.linking.codes link mem]
  exact linearized.threads.targets plain link mem

theorem code_targets : next.code.filterMap Inst.branchTarget = links.filterMap (·.back) := by
  rw [Func.code, linearized.layout, flatMap_map, filterMap_flatMap, filterMap_eq_flatMap_toList]
  exact flatMap_congr fun link mem => linearized.targets plain mem

end

/-- A straightened function is a chain. -/
theorem chained (valid : plan.tree.Valid f entered members) (sameEntry : base.entry = f.entry)
    (linked : base.Linked) (sourced : ∀ block o, o ∈ base.succsOf block → block ∈ base.layout)
    (plain : ∀ block, ∀ inst ∈ stripped (base.codeOf block), inst.branchTarget = none) : next.Chained := by
  have strung := linearized.strung valid sameEntry
  have linking := linearized.linking
  have split_of : ∀ block ∈ next.layout, ∃ before link after, links = before ++ link :: after ∧ link.block = block ∧
      next.targetsOf block = link.back.toList := by
    intro block inside
    obtain ⟨before, link, after, split, rfl⟩ := linearized.link_of inside
    exact ⟨before, link, after, split, rfl, linearized.targets plain (split ▸ mem_append_right _ (.head _))⟩
  have earlier : ∀ block ∈ next.layout, ∀ t ∈ next.targetsOf block,
      t ∈ next.layout ∧ t ∉ Func.following block next.layout := by
    intro block inside t isTarget
    obtain ⟨before, link, after, split, rfl, isBack⟩ := split_of block inside
    rw [isBack, mem_toList] at isTarget
    exact linearized.back_earlier split isTarget
  refine ⟨⟨strung.once, strung.found, ?_, mem_of_head? strung.starts⟩, linking.linked linked, ?_, ?_, ?_,
    strung.starts, ?_⟩
  · intro block inside inst mem t isTarget
    exact (earlier block inside t (mem_filterMap.mpr ⟨inst, mem, isTarget⟩)).1
  · intro block inside o
    obtain ⟨before, link, after, split, rfl, isBack⟩ := split_of block inside
    rw [linking.succs before link after split, linearized.following_link split, head?_map, isBack, mem_toList]
  · intro block o edge
    by_contra outside
    have unlinked : block ∉ links.map (·.block) := linearized.layout ▸ outside
    exact outside (linearized.placing.kept block (sourced block o (linking.rest block o edge unlinked)))
  · exact fun block inside t isTarget => (earlier block inside t isTarget).2
  · intro block inside isTarget
    obtain ⟨before, link, after, split, rfl, isBack⟩ := split_of block inside
    rw [isBack, mem_toList, linking.entry, sameEntry] at isTarget
    have mem : f.entry ∈ links.filterMap (·.back) :=
      mem_filterMap.mpr ⟨link, split ▸ mem_append_right _ (.head _), isTarget⟩
    exact valid.entry_not_loopHeader ((linearized.backs_perm valid).mem_iff.mp mem)

end Linearized

theorem Own.not_returns (own : plan.Own inst) : inst.returns? = none := by
  rw [Inst.returns?, (Bool.or_eq_false_iff.mp own.not_isTerminator).2]
  rfl

section

variable (carries : ∀ block, plan.Carries (f.codeOf block) (base.codeOf block))
  (sameLength : base.blocks.length = f.blocks.length)

include carries sameLength

/-- A link has the returns of its block, and a new block has none. -/
theorem Adds.returns (adds : plan.Adds base e more) :
    ∀ link ∈ more, link.code.filterMap Inst.returns? = (stripped (f.codeOf link.block)).filterMap Inst.returns? := by
  have ownReturns {block : BlockId} {code : List Inst} (fresh : base.blocks.length ≤ block.index)
      (none : ∀ inst ∈ code, inst.returns? = none) :
      code.filterMap Inst.returns? = (stripped (f.codeOf block)).filterMap Inst.returns? := by
    rw [Chain.codeOf_fresh (sameLength ▸ fresh)]
    exact filterMap_eq_nil_iff.mpr none
  have turnReturns {s : ScopeId} {c : Scope} {code : List Inst} (turns : plan.Turns s c code) :
      ∀ inst ∈ code, inst.returns? = none := by
    obtain ⟨moves, r, rfl, own⟩ := turns.eq
    refine fun inst mem => (mem_append.mp mem).elim (fun isMove => (own inst isMove).not_returns) fun isBranch => ?_
    rw [mem_singleton.mp isBranch]
    rfl
  cases adds with
  | block id =>
    exact forall_mem_singleton.mpr ((carries id).body.filterMap_eq (fun _ _ => Inst.returns?_of_bare)
      fun _ => Own.not_returns)
  | enterTop | exitTop => simp
  | enter _ _ fresh enters =>
    exact forall_mem_singleton.mpr (ownReturns fresh fun inst mem => (enters.own inst mem).not_returns)
  | turn _ _ _ _ fresh turns => exact forall_mem_singleton.mpr (ownReturns fresh (turnReturns turns))
  | close _ _ _ _ fresh turns freshLast closes =>
    exact forall_mem_cons.mpr ⟨ownReturns fresh (turnReturns turns), forall_mem_singleton.mpr
      (ownReturns freshLast fun inst mem => (closes.own inst mem).not_returns)⟩

theorem Threads.returns (threads : plan.Threads base es links) :
    ∀ link ∈ links, link.code.filterMap Inst.returns? = (stripped (f.codeOf link.block)).filterMap Inst.returns? := by
  induction threads with
  | nil => exact nofun
  | cons adds _ ih =>
    exact fun link mem => (mem_append.mp mem).elim (adds.returns carries sameLength link) (ih link)

end

theorem Threads.append {first second : List WalkEvent} (threads : plan.Threads base (first ++ second) links) :
    ∃ one two, links = one ++ two ∧ plan.Threads base first one ∧ plan.Threads base second two := by
  induction first generalizing links with
  | nil => exact ⟨[], links, rfl, .nil, threads⟩
  | cons e rest ih =>
    cases threads with
    | cons adds later =>
      obtain ⟨one, two, rfl, threadsOne, threadsTwo⟩ := ih later
      exact ⟨_ ++ one, two, (append_assoc ..).symm, .cons adds threadsOne, threadsTwo⟩

section

variable (linearized : plan.Linearized base next es links)

include linearized

/-- The links of the chain are those of the nodes of the root. -/
theorem Linearized.nodes (valid : plan.tree.Valid f entered members) {top : Scope}
    (foundTop : plan.tree.get ScopeTree.root = .ok top) :
    ∃ inside, plan.tree.Walks top.nodes inside ∧ plan.Threads base inside links := by
  obtain ⟨walked, isWalk, _, walks⟩ := valid.walked
  obtain rfl := ok_unique linearized.walked isWalk
  obtain ⟨root, foundRoot, noParent, _⟩ := valid.top
  have notLoop : ∀ c, plan.tree.get ScopeTree.root = .ok c → c.isTopLevel ≠ false := by
    intro c found
    obtain rfl := ok_unique foundRoot found
    simp [Scope.isTopLevel, noParent]
  have threads := linearized.threads
  cases walks with
  | @loop _ c _ inside _ found inner nothing =>
    cases nothing
    obtain rfl := ok_unique found foundTop
    refine ⟨inside, inner, ?_⟩
    cases threads with
    | cons enters later =>
      obtain ⟨one, two, rfl, threadsInside, leaving⟩ := Threads.append later
      cases leaving with
      | cons leaves none =>
        cases none
        cases enters with
        | enter again isLoop => exact absurd isLoop (notLoop _ again)
        | enterTop =>
          cases leaves with
          | turn again isLoop => exact absurd isLoop (notLoop _ again)
          | close again isLoop => exact absurd isLoop (notLoop _ again)
          | exitTop => simpa using threadsInside

/-- If the nodes of the root end with a block, so does the chain. -/
theorem Linearized.last {entered : List ScopeId} {members : Table BlockId ScopeId}
    (valid : plan.tree.Valid f entered members) {top : Scope}
    (foundTop : plan.tree.get ScopeTree.root = .ok top) {last : BlockId}
    (isLast : top.nodes.getLast? = some (.block last)) : ∃ before code, links = before ++ [⟨last, code, none⟩] := by
  obtain ⟨inside, walks, threads⟩ := linearized.nodes valid foundTop
  obtain ⟨before, rfl⟩ := walks.last_block isLast
  obtain ⟨one, two, rfl, _, threads⟩ := threads.append
  cases threads with
  | cons adds none =>
    cases none
    cases adds with
    | block => exact ⟨one, stripped (base.codeOf last), rfl⟩

/-- The only return of a straightened function is in its last block. -/
theorem Linearized.returnsLast (valid : plan.tree.Valid f entered members)
    (carries : ∀ block, plan.Carries (f.codeOf block) (base.codeOf block))
    (sameLength : base.blocks.length = f.blocks.length) {last : BlockId} (only : f.OnlyReturn plan.tree last) :
    next.ReturnsLast := by
  obtain ⟨top, foundTop, isLast⟩ := only.node
  obtain ⟨init, code, isLinks⟩ := linearized.last valid foundTop isLast
  have returns := linearized.threads.returns carries sameLength
  have once := linearized.linking.links_once
  intro block inside
  obtain ⟨before, link, after, split, rfl⟩ := linearized.link_of inside
  obtain ⟨mid, isMid⟩ : ∃ mid, link :: after = mid ++ [⟨last, code, none⟩] := by
    refine getLast?_eq_some_iff.mp ?_
    rw [← getLast?_append_of_ne_nil before (cons_ne_nil link after), ← split, isLinks]
    simp
  have isCode : next.codeOf link.block ++ next.codeAfter link.block = (link :: after).flatMap (·.code) := by
    rw [Func.codeAfter, linearized.following_link split, flatMap_map, flatMap_cons,
      linearized.linking.codes link (by rw [split]; simp)]
    congr 1
    exact flatMap_congr fun o mem => linearized.linking.codes o (by rw [split]; simp [mem])
  have none : ∀ o ∈ mid, o.code.filterMap Inst.returns? = [] := by
    intro o mem
    have isLink : o ∈ links := by
      rw [split, isMid]
      simp [mem]
    rw [returns o isLink]
    refine filterMap_eq_nil_iff.mpr fun inst isInst => ?_
    have ne : o.block ≠ last := by
      rw [split, isMid, ← append_assoc, map_append, nodup_append] at once
      exact once.2.2 o.block (mem_map_of_mem (mem_append_right _ mem)) last (by simp)
    rw [Inst.returns?, only.only o.block ne inst (mem_of_mem_stripped isInst)]
    rfl
  have one : code.filterMap Inst.returns? = [()] := by
    obtain ⟨body, final, isCode, isReturn, plain⟩ := only.ends
    have whole : stripped (f.codeOf last) = body ++ [final] := by
      rw [(stripped_of_last fun inst isLast => ?_).1, isCode]
      rw [isCode, getLast?_concat, some.injEq] at isLast
      exact isLast ▸ Inst.isBranch_of_isReturn isReturn
    have noReturn : body.filterMap Inst.returns? = [] :=
      filterMap_eq_nil_iff.mpr fun inst mem => by simp [Inst.returns?, plain inst mem]
    rw [returns ⟨last, code, Option.none⟩ (by rw [isLinks]; simp), whole, filterMap_append, noReturn]
    simp [Inst.returns?, isReturn]
  rw [isCode, isMid, flatMap_append, filterMap_append, filterMap_flatMap, flatMap_eq_nil_iff.mpr none]
  simpa using one

end

namespace Stages

variable {predicated defined next : Work}

variable (stages : plan.Stages f start predicated defined next es links)

include stages

/-- Before their trailing branches, the blocks have no branch. -/
theorem plain (tails : ∀ block, BranchesLast (f.codeOf block)) (block : BlockId) :
    ∀ inst ∈ stripped (defined.func.codeOf block), inst.branchTarget = none := by
  refine (stages.carries block).body.forall_new (fun old mem new same => ?_) fun new own => ?_
  · rw [← Inst.branchTarget_bare, same, Inst.branchTarget_bare]
    exact (tails block).stripped_plain old mem
  · simpa [Inst.isBranch] using own.not_isBranch

variable (made : plan.Made f start depths) (derived : f.Derived)
  (tails : ∀ block, BranchesLast (f.codeOf block))

include made derived tails

theorem chained : next.func.Chained := by
  have sameEdges : ∀ block, defined.func.succsOf block = f.succsOf block := fun block => by
    rw [stages.same.succsOf, made.laid.start]
    rfl
  have linked : start.Linked := by
    rw [made.laid.start]
    exact ⟨derived.linked.ends, derived.linked.succsOnce, derived.linked.predsOnce⟩
  refine stages.linearized.chained made.valid (stages.entry made) (stages.same.linked linked) ?_ (stages.plain tails)
  intro block o edge
  rw [stages.layout made]
  exact derived.sourced block o (sameEdges block ▸ edge)

/-- Straightening leaves one chain with one branch for each loop and one return. -/
theorem streamlined
    {last : BlockId} (only : f.OnlyReturn plan.tree last) : next.func.Streamlined (Shape.loopHeaders plan.tree) where
  chained := stages.chained made derived tails
  branches := by
    rw [stages.linearized.code_targets (stages.plain tails)]
    exact stages.linearized.backs_perm made.valid
  returns := stages.linearized.returnsLast made.valid stages.carries (stages.length made) only

end Stages

end Plan

end SinglePath
