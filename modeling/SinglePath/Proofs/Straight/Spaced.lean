import SinglePath.Proofs.Straight.Chains

namespace SinglePath

open List

/-- A loop that is the last node of a loop has a postlude, because it saves the bank. -/
def ScopeTree.LoopsApart (tree : ScopeTree) (allocs : List ScopeAllocation) : Prop :=
  ∀ s c inner alloc, tree.get s = .ok c → c.isTopLevel = false →
    c.nodes.getLast? = some (.subscope inner) → allocs[inner.index]? = some alloc → alloc.savesBank = true

/-- Not both of the links branch back. -/
def Link.Apart (first second : Link) : Prop := first.back.isSome = true → second.back = none

namespace Plan

variable {plan : Plan} {f base next : Func} {es : List WalkEvent}
  {links more : List Link} {s : ScopeId} {c : Scope} {entered : List ScopeId}
  {members : Table BlockId ScopeId} {nodes : List ScopeNode}

/-- The links of some nodes: they begin without a branch, no two branches are neighbours, and only a loop without a
postlude ends in one. -/
structure Calm (plan : Plan) (nodes : List ScopeNode) (links : List Link) : Prop where
  apart : links.IsChain Link.Apart
  opens : ∀ link ∈ links.head?, link.back = none
  closes : ∀ link ∈ links.getLast?, link.back.isSome = true → ∃ inner alloc,
    nodes.getLast? = some (.subscope inner) ∧ plan.alloc inner = .ok alloc ∧ alloc.savesBank = false
  linked : links = [] → nodes = []

namespace Calm

theorem nil (plan : Plan) : plan.Calm [] [] := ⟨.nil, nofun, nofun, fun _ => rfl⟩

theorem block (plan : Plan) (id : BlockId) {link : Link} (plain : link.back = none) : plan.Calm [.block id] [link] := by
  refine ⟨.singleton _, ?_, ?_, nofun⟩
  · simpa using plain
  · intro last isLast branches
    obtain rfl : link = last := by simpa using isLast
    simp [plain] at branches

theorem append {more : List ScopeNode} {moreLinks : List Link} (calm : plan.Calm nodes links)
    (later : plan.Calm more moreLinks) : plan.Calm (nodes ++ more) (links ++ moreLinks) where
  apart := isChain_append.mpr ⟨calm.apart, later.apart, fun _ _ o isFirst _ => later.opens o isFirst⟩
  opens link isFirst := by
    cases links with
    | nil => exact later.opens link isFirst
    | cons first rest => exact calm.opens link isFirst
  closes link isLast branches := by
    cases isEnd : moreLinks.getLast? with
    | none =>
      obtain rfl := later.linked (getLast?_eq_none_iff.mp isEnd)
      rw [append_nil]
      exact calm.closes link (by simpa [isEnd] using isLast) branches
    | some o =>
      obtain rfl : o = link := by simpa [isEnd] using isLast
      obtain ⟨inner, alloc, isInner, got⟩ := later.closes o isEnd branches
      exact ⟨inner, alloc, by simp [getLast?_append, isInner], got⟩
  linked nothing := by
    rw [calm.linked (append_eq_nil_iff.mp nothing).1, later.linked (append_eq_nil_iff.mp nothing).2, append_nil]

/-- A loop whose nodes do not end in a branch. -/
theorem loop {id : ScopeId} {preheader : Link} {body turn : List Link} {alloc : ScopeAllocation}
    (inner : plan.Calm nodes body) (quiet : ∀ link ∈ body.getLast?, link.back = none) (plain : preheader.back = none)
    (turns : turn.IsChain Link.Apart) (isAlloc : plan.alloc id = .ok alloc)
    (ends : ∃ last ∈ turn.getLast?, last.back.isSome = true → alloc.savesBank = false) :
    plan.Calm [.subscope id] (preheader :: (body ++ turn)) where
  apart := by
    refine isChain_cons.mpr ⟨fun _ _ branches => by simp [plain] at branches, ?_⟩
    refine isChain_append.mpr ⟨inner.apart, turns, fun o isLast _ _ branches => ?_⟩
    simp [quiet o isLast] at branches
  opens link isFirst := by
    obtain rfl : preheader = link := by simpa using isFirst
    exact plain
  closes link isLast branches := by
    obtain ⟨last, isEnd, unsaved⟩ := ends
    obtain rfl : last = link := by simpa [getLast?_cons, getLast?_append, Option.mem_def.mp isEnd] using isLast
    exact ⟨id, alloc, rfl, isAlloc, unsaved branches⟩
  linked := nofun

end Calm

/-- The preheader of a loop has no branch. -/
theorem Adds.preheader (adds : plan.Adds base (.enter s) more) (got : plan.tree.get s = .ok c)
    (isLoop : c.isTopLevel = false) : ∃ link, more = [link] ∧ link.back = none := by
  cases adds with
  | enterTop foundTop isTop =>
    obtain rfl := ok_unique foundTop got
    exact absurd isTop (by simp [isLoop])
  | enter => exact ⟨_, rfl, rfl⟩

theorem Adds.turn_links (adds : plan.Adds base (.exit s) more) (got : plan.tree.get s = .ok c)
    (isLoop : c.isTopLevel = false) :
    more.IsChain Link.Apart ∧ ∃ alloc, plan.alloc s = .ok alloc ∧
      ∃ last ∈ more.getLast?, last.back.isSome = true → alloc.savesBank = false := by
  cases adds with
  | exitTop foundTop isTop =>
    obtain rfl := ok_unique foundTop got
    exact absurd isTop (by simp [isLoop])
  | turn _ _ isAlloc keeps => exact ⟨.singleton _, _, isAlloc, _, rfl, fun _ => keeps⟩
  | close _ _ isAlloc => exact ⟨.cons_cons (fun _ => rfl) (.singleton _), _, isAlloc, _, rfl, nofun⟩

/-- The branches of a walk are apart if the loops of its tree are. -/
theorem Threads.calm (valid : plan.tree.Valid f entered members)
    (loopsApart : plan.tree.LoopsApart plan.allocs) (walks : plan.tree.Walks nodes es)
    (threads : plan.Threads base es links)
    (loops : ∀ id, .subscope id ∈ nodes → ∀ c, plan.tree.get id = .ok c → c.isTopLevel = false) :
    plan.Calm nodes links := by
  induction walks generalizing links with
  | nil =>
    cases threads
    exact .nil plan
  | @block id rest es later ih =>
    cases threads with
    | cons adds more =>
      cases adds
      exact (Calm.block plan id rfl).append (ih more fun id mem => loops id (.tail _ mem))
  | @loop id c rest inside es got inner later innerIh laterIh =>
    have isLoop := loops id (.head _) c got
    obtain ⟨before, after, rfl, entering, leaving⟩ := append threads
    cases entering with
    | @cons _ _ opening body enters threadsInside =>
      cases leaving with
      | @cons _ _ turn others turns threadsLater =>
        obtain ⟨preheader, rfl, plain⟩ := enters.preheader got isLoop
        obtain ⟨turnApart, alloc, isAlloc, ends⟩ := turns.turn_links got isLoop
        have innerCalm := innerIh threadsInside fun child mem _ => valid.child_isLoop got mem
        have laterCalm := laterIh threadsLater fun id mem => loops id (.tail _ mem)
        have quiet : ∀ link ∈ body.getLast?, link.back = none := fun link isLast => by
          cases isBack : link.back with
          | none => rfl
          | some header =>
            obtain ⟨child, childAlloc, isChild, isChildAlloc, unsaved⟩ :=
              innerCalm.closes link isLast (by simp [isBack])
            exact absurd (loopsApart id c child childAlloc got isLoop isChild
              (present_eq_ok.mp isChildAlloc)) (by simp [unsaved])
        simpa using (Calm.loop innerCalm quiet plain turnApart isAlloc ends).append laterCalm

/-- No two branch blocks of a chain are neighbours if the loops of the tree are apart. -/
theorem Linearized.apart (linearized : plan.Linearized base next es links) (valid : plan.tree.Valid f entered members)
    (loopsApart : plan.tree.LoopsApart plan.allocs) : links.IsChain Link.Apart := by
  obtain ⟨top, foundTop, _⟩ := valid.top
  obtain ⟨inside, walks, threads⟩ := linearized.nodes valid foundTop
  exact (Threads.calm valid loopsApart walks threads fun child mem _ => valid.child_isLoop foundTop mem).apart

/-- Nothing follows the branch of a link. -/
theorem Adds.branchEnds {e : WalkEvent} (adds : plan.Adds base e more)
    (plain : ∀ block, ∀ inst ∈ stripped (base.codeOf block), inst.branchTarget = none) :
    ∀ link ∈ more, BranchEnds link.code := by
  have isPlain : ∀ {code : List Inst}, plan.OwnCode code → ∀ inst ∈ code, inst.branchTarget = none :=
    fun own inst mem => by simpa [Inst.isBranch] using (own inst mem).not_isBranch
  have turned : ∀ {s : ScopeId} {c : Scope} {code : List Inst}, plan.Turns s c code →
      BranchEnds code := by
    intro s c code turns
    obtain ⟨moves, r, rfl, own⟩ := turns.eq
    rw [BranchEnds, dropLast_concat]
    exact isPlain own
  cases adds with
  | block id => simpa using .of_plain (plain id)
  | enterTop => simp
  | exitTop => simp
  | enter _ _ _ enters => simpa using .of_plain (isPlain enters.own)
  | turn _ _ _ _ _ turns => simpa using turned turns
  | close _ _ _ _ _ turns _ closes => simpa using ⟨turned turns, .of_plain (isPlain closes.own)⟩

theorem Threads.branchEnds (threads : plan.Threads base es links)
    (plain : ∀ block, ∀ inst ∈ stripped (base.codeOf block), inst.branchTarget = none) :
    ∀ link ∈ links, BranchEnds link.code := by
  induction threads with
  | nil => exact nofun
  | cons adds _ ih =>
    intro link mem
    rcases mem_append.mp mem with isNew | isLater
    · exact adds.branchEnds plain link isNew
    · exact ih link isLater

theorem Threads.back_new (threads : plan.Threads base es links) {link : Link} (mem : link ∈ links)
    {header : BlockId} (isBack : link.back = some header) :
    base.blocks.length ≤ link.block.index ∧ ∃ s c, plan.tree.get s = .ok c ∧ c.header = header := by
  induction threads with
  | nil => cases mem
  | cons adds _ ih =>
    rcases mem_append.mp mem with isNew | isLater
    · cases adds with
      | block | enter =>
        obtain rfl := mem_singleton.mp isNew
        cases isBack
      | enterTop | exitTop => cases isNew
      | turn got _ _ _ fresh =>
        obtain rfl := mem_singleton.mp isNew
        exact ⟨fresh, _, _, got, Option.some.inj isBack⟩
      | close got _ _ _ fresh =>
        rcases mem_pair.mp isNew with rfl | rfl
        · exact ⟨fresh, _, _, got, Option.some.inj isBack⟩
        · cases isBack
    · exact ih isLater

/-- The branches of a straightened function are spaced if the loops of the tree are apart. -/
theorem Linearized.spaced (linearized : plan.Linearized base next es links)
    (valid : plan.tree.Valid f entered members) (sameEntry : base.entry = f.entry)
    (sameLength : base.blocks.length = f.blocks.length)
    (plain : ∀ block, ∀ inst ∈ stripped (base.codeOf block), inst.branchTarget = none)
    (loopsApart : plan.tree.LoopsApart plan.allocs) : next.Spaced where
  ends block inside := by
    obtain ⟨before, link, after, split, rfl⟩ := linearized.link_of inside
    have mem : link ∈ links := by simp [split]
    rw [linearized.linking.codes link mem]
    exact linearized.threads.branchEnds plain link mem
  apart block inside o isNext branches := by
    obtain ⟨before, link, after, split, rfl⟩ := linearized.link_of inside
    rw [linearized.following_link split, head?_map] at isNext
    obtain ⟨follower, isHead, rfl⟩ := Option.map_eq_some_iff.mp isNext
    have isFollower : follower ∈ links := by
      rw [split]
      exact mem_append_right _ (.tail _ (mem_of_mem_head? isHead))
    have apart := linearized.apart valid loopsApart
    rw [split, isChain_split] at apart
    rw [linearized.targets plain isFollower]
    rw [linearized.targets plain (by simp [split])] at branches
    rw [(isChain_cons.mp apart.2).1 follower isHead (by cases isBack : link.back <;> simp_all)]
    rfl
  heads block inside t branches := by
    obtain ⟨before, link, after, split, rfl⟩ := linearized.link_of inside
    rw [linearized.targets plain (by simp [split])] at branches
    have isBack : link.back = some t := by simpa using branches
    obtain ⟨_, s, c, got, rfl⟩ := linearized.threads.back_new (by simp [split]) isBack
    obtain ⟨_, header, _, splitHeader, isHeader⟩ := linearized.link_of (linearized.back_earlier split isBack).1
    have mem : header ∈ links := by simp [splitHeader]
    rw [← isHeader, linearized.targets plain mem]
    cases again : header.back with
    | none => rfl
    | some o =>
      have isNew := (linearized.threads.back_new mem again).1
      have isOld := valid.member_lt got (valid.header_mem_blocks got)
      rw [isHeader, sameLength] at isNew
      omega
  first := by
    obtain ⟨code, rest, rfl⟩ := linearized.head valid
    rw [linearized.linking.entry, sameEntry, linearized.targets plain (mem_cons_self ..)]
    rfl

end Plan

end SinglePath
