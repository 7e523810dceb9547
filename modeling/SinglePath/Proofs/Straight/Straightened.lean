import Mathlib.Data.List.Nodup
import SinglePath.Reduction
import SinglePath.Proofs.Plan.Made
import SinglePath.Proofs.Straight.Carried

/-!
A function whose blocks are predicated, whose predicates are defined and whose blocks stand in one chain.
-/

namespace SinglePath

open Func List WalkEvent

namespace Plan

variable {plan : Plan} {f start base : Func} {depths : List Nat} {code new : List Inst}
  {predicated defined next : Work} {es : List WalkEvent} {links : List Link} {s : ScopeId} {body : Scope}

namespace Made

section

variable (made : plan.Made f start depths)

include made

theorem headers_once : (plan.scopes.map plan.headerOf).Nodup := by
  refine Nodup.map_on ?_ made.valid.once
  intro first firstListed second secondListed same
  obtain ⟨one, foundOne⟩ := made.valid.found firstListed
  obtain ⟨two, foundTwo⟩ := made.valid.found secondListed
  rw [headerOf_eq foundOne, headerOf_eq foundTwo] at same
  exact made.valid.home_unique foundOne foundTwo (made.valid.header_mem_blocks foundOne)
    (same ▸ made.valid.header_mem_blocks foundTwo)

theorem members_once : ((plan.tree.membersOf plan.scopes).map (·.2.2)).Nodup :=
  made.valid.members_nodup made.valid.once fun _ mem => made.valid.found mem

theorem header_top (got : plan.tree.get s = .ok body) (isTop : body.isTopLevel = true) : body.header = f.entry := by
  obtain rfl := made.valid.top_unique got isTop
  obtain ⟨top, foundTop, _, isEntry⟩ := made.valid.top
  obtain rfl := ok_unique got foundTop
  exact isEntry

theorem block?_start (b : BlockId) : start.block? b = f.block? b := by
  rw [made.laid.start]
  rfl

end

variable {work : Work}

/-- Predicating carries the code of every block over. -/
theorem predicate_carries (made : plan.Made f start depths)
    (plain : ∀ inst ∈ trailing (f.codeOf f.entry), inst.frameSetup = false) (isStart : work.func = start)
    (res : plan.predicate work = .ok predicated) :
    start.SameButCode predicated.func ∧ ∀ b, plan.Carries (f.codeOf b) (predicated.func.codeOf b) := by
  have rewritten := predicate_rewritten made.members_once res
  rw [isStart] at rewritten
  refine ⟨rewritten.same, fun b => ?_⟩
  by_cases isMember : b ∈ (plan.tree.membersOf plan.scopes).map (·.2.2)
  · obtain ⟨⟨s, inner, _⟩, mem, rfl⟩ := mem_map.mp isMember
    obtain ⟨_, foundScope, _⟩ := ScopeTree.mem_membersOf.mp mem
    obtain ⟨body, new, got, predicates, foundNew⟩ := rewritten.changed _ mem
    rw [made.block?_start] at got
    rw [codeOf_eq got, codeOf_eq foundNew]
    refine predicates.carries fun isHeader isTop => ?_
    obtain ⟨o, foundOther, topped⟩ := bind_inv isTop
    obtain rfl := ok_unique foundScope foundOther
    have topLevel : inner.isTopLevel = true := (Bool.and_eq_true_iff.mp (pure_inv topped)).1
    rw [← codeOf_eq got, isHeader, made.header_top foundScope topLevel]
    exact plain
  · have same : predicated.func.codeOf b = f.codeOf b := by
      rw [codeOf, rewritten.others b isMember, made.block?_start, codeOf]
    rw [same]
    exact .of_bare rfl

theorem define_carries (made : plan.Made f start depths)
    (plain : ∀ inst ∈ trailing (work.func.codeOf f.entry), inst.frameSetup = false)
    (res : plan.define work = .ok defined) :
    work.func.SameButCode defined.func ∧ ∀ b, plan.Carries (work.func.codeOf b) (defined.func.codeOf b) := by
  obtain ⟨defs, makes, same, changed⟩ := define_ok made.headers_once res
  refine ⟨same, fun b => ?_⟩
  cases got : work.func.block? b with
  | none =>
    have missing : defined.func.block? b = none := by
      simpa [got] using same.block? b
    simp only [codeOf, got, missing]
    exact .of_bare rfl
  | some body =>
    obtain ⟨cleared, insts, foundNew, clears, sameKills⟩ := changed b body got
    rw [codeOf_eq got, codeOf_eq foundNew]
    have carriesCleared : plan.Carries body.insts cleared := by
      obtain ⟨s, _, isHeader, clearsIn⟩ | ⟨_, rfl⟩ := clears
      · refine clearsIn.carries fun inner foundScope isTop => ?_
        rw [headerOf_eq foundScope, made.header_top foundScope isTop] at isHeader
        rw [← codeOf_eq got, ← isHeader]
        exact plain
      · exact .of_bare rfl
    have inserted : plan.Carries cleared (insertedAt ({ body with insts := cleared } : Block).terminatorStart
        (PendingDefs.code (leaving defs b)) cleared) :=
      .insertedAt (terminatorStart_le { body with insts := cleared }) (makes.own b)
    exact (carriesCleared.trans inserted).trans (.of_bare sameKills.bare)

end Made

/-- An instruction that the plan inserts: one of its own, or the branch back of a loop. -/
def Inserts (plan : Plan) (inst : Inst) : Prop :=
  plan.Own inst ∨ inst.frameSetup = false ∧ ∃ header ∈ Shape.loopHeaders plan.tree, inst.op = .branch header

/-- Instructions of the plan and branches back are woven into the code. -/
def Laces (plan : Plan) (code new : List Inst) : Prop :=
  Woven (fun old new => new.bare = old.bare) plan.Inserts code new

theorem Weaves.laces (weaves : plan.Weaves code new) : plan.Laces code new := Woven.mono weaves fun _ => .inl

theorem Laces.append {more moreNew : List Inst} (first : plan.Laces code new) (second : plan.Laces more moreNew) :
    plan.Laces (code ++ more) (new ++ moreNew) :=
  Woven.append first second

theorem Turns.laces (turns : plan.Turns s body code)
    (got : plan.tree.get s = .ok body) (isLoop : body.isTopLevel = false) : plan.Laces [] code := by
  obtain ⟨moves, r, rfl, own⟩ := turns.eq
  refine (Weaves.of_own own).laces.append (.made (.inr ⟨rfl, body.header, ?_, rfl⟩) .nil)
  have mem : body ∈ plan.tree.scopes := mem_of_getElem? (present_eq_ok.mp got)
  exact mem_map_of_mem (mem_filter.mpr ⟨mem, by simpa using isLoop⟩)

section

variable {codeOf : BlockId → List Inst}

/-- One step of the walk adds the code of the block that it meets, or code of the plan. -/
theorem Adds.laces {e : WalkEvent} {more : List Link} (adds : plan.Adds base e more)
    (carries : ∀ b, plan.Carries (codeOf b) (base.codeOf b)) :
    plan.Laces (e.met.toList.flatMap fun b => stripped (codeOf b)) (more.flatMap (·.code)) := by
  cases adds with
  | block id => simpa [WalkEvent.met] using (carries id).body.laces
  | enterTop => exact .nil
  | exitTop => exact .nil
  | enter _ _ _ enters => simpa [WalkEvent.met] using (Weaves.of_own enters.own).laces
  | turn got isLoop _ _ _ turns => simpa [WalkEvent.met] using turns.laces got isLoop
  | close got isLoop _ _ _ turns _ closes =>
    simpa [WalkEvent.met] using (turns.laces got isLoop).append (Weaves.of_own closes.own).laces

/-- The links of a walk hold the code of the blocks that it meets, with instructions of the plan between. -/
theorem Threads.laces (threads : plan.Threads base es links) (carries : ∀ b, plan.Carries (codeOf b) (base.codeOf b)) :
    plan.Laces ((es.filterMap WalkEvent.met).flatMap fun b => stripped (codeOf b)) (links.flatMap (·.code)) := by
  induction threads with
  | nil => exact .nil
  | cons adds _ ih =>
    rw [met_cons, flatMap_append, flatMap_append]
    exact (adds.laces carries).append ih

end

namespace Linearized

variable {next : Func} {entered : List ScopeId} {members : Table BlockId ScopeId}

variable {link : Link} (linearized : plan.Linearized base next es links) {before after : List Link}

include linearized

/-- The chain begins with the entry. -/
theorem head (valid : plan.tree.Valid f entered members) : ∃ code rest, links = ⟨f.entry, code, none⟩ :: rest := by
  obtain ⟨walked, isWalk, _, walks⟩ := valid.walked
  obtain rfl := ok_unique linearized.walked isWalk
  obtain ⟨rest, isFirst⟩ := valid.starts walks
  obtain ⟨top, foundTop, noParent, _⟩ := valid.top
  have threads := linearized.threads
  rw [isFirst] at threads
  cases threads with
  | cons adds later =>
    cases adds with
    | enterTop =>
      cases later with
      | cons addsBlock _ =>
        cases addsBlock
        exact ⟨_, _, rfl⟩
    | enter got isLoop =>
      obtain rfl := ok_unique foundTop got
      simp [Scope.isTopLevel, noParent] at isLoop

theorem following_link (split : links = before ++ link :: after) :
    following link.block next.layout = after.map (·.block) := by
  have once := linearized.linking.links_once
  rw [← linearized.layout] at once
  exact following_split once ((split ▸ linearized.layout).trans map_append)

theorem link_of {b : BlockId} (inside : b ∈ next.layout) :
    ∃ before link after, links = before ++ link :: after ∧ link.block = b := by
  rw [linearized.layout] at inside
  obtain ⟨link, mem, isBlock⟩ := mem_map.mp inside
  obtain ⟨before, after, split⟩ := append_of_mem mem
  exact ⟨before, link, after, split, isBlock⟩

theorem back_earlier (split : links = before ++ link :: after) {header : BlockId}
    (isBack : link.back = some header) : header ∈ next.layout ∧ header ∉ following link.block next.layout := by
  have earlier := linearized.linking.backs before link after split header isBack
  have once := linearized.linking.links_once
  rw [linearized.following_link split, linearized.layout, split, map_append, map_cons]
  rw [split, map_append, map_cons] at once
  refine ⟨mem_append_left _ earlier, fun later => ?_⟩
  exact (nodup_append.mp once).2.2 header earlier header (.tail _ later) rfl

/-- From each block of the chain control can go to the next one, and otherwise to no later one. -/
theorem strung (valid : plan.tree.Valid f entered members) (sameEntry : base.entry = f.entry) : next.Strung := by
  have linking := linearized.linking
  refine ⟨linearized.placing.once, fun b inside => ?_, fun b inside o isNext => ?_, fun b inside o isSucc => ?_, ?_⟩
  · exact ⟨_, getElem?_eq_getElem (linking.inside b inside)⟩
  · obtain ⟨before, link, after, split, rfl⟩ := linearized.link_of inside
    rw [linearized.following_link split, head?_map] at isNext
    exact (linking.succs before link after split o).mpr (.inl isNext)
  · obtain ⟨before, link, after, split, rfl⟩ := linearized.link_of inside
    refine ((linking.succs before link after split o).mp isSucc).imp (fun isNext => ?_) (linearized.back_earlier split)
    rw [linearized.following_link split, head?_map]
    exact isNext
  · obtain ⟨code, rest, isLinks⟩ := linearized.head valid
    rw [linearized.layout, linking.entry, sameEntry, isLinks]
    rfl

end Linearized

/-- The steps of straightening: the blocks are predicated, the predicates are defined, and the blocks are linked in the
order of the walk. -/
structure Stages (plan : Plan) (f start : Func) (predicated defined next : Work) (es : List WalkEvent)
    (links : List Link) : Prop where
  predicating : plan.predicate { func := start } = .ok predicated
  defining : plan.define predicated = .ok defined
  linearizing : plan.linearize defined = .ok next
  same : start.SameButCode defined.func
  carries : ∀ b, plan.Carries (f.codeOf b) (defined.func.codeOf b)
  linearized : plan.Linearized defined.func next.func es links
  removed : next.stats.removedBranches =
    defined.stats.removedBranches + (links.map fun link => (trailing (defined.func.codeOf link.block)).length).sum

theorem Made.stages (made : plan.Made f start depths) (once : f.layout.Nodup)
    (plain : ∀ inst ∈ trailing (f.codeOf f.entry), inst.frameSetup = false) (laid : f.entry ∈ f.layout)
    (res : plan.straighten { func := start } = .ok next) :
    ∃ predicated defined es links, plan.Stages f start predicated defined next es links := by
  obtain ⟨predicated, predicating, defined, defining, res⟩ := bind_bind_inv res
  obtain ⟨samePredicated, carriesPredicated⟩ := made.predicate_carries plain rfl predicating
  obtain ⟨sameDefined, carriesDefined⟩ := made.define_carries ((carriesPredicated f.entry).plain plain) defining
  have same := samePredicated.trans sameDefined
  have isStart := made.laid.start
  have sameLayout : defined.func.layout = f.layout := by rw [same.layout, isStart]
  have sameLength : defined.func.blocks.length = f.blocks.length := by rw [same.length, isStart]
  have sameEntry : defined.func.entry = f.entry := by rw [same.entry, isStart]
  obtain ⟨es, links, linearized, removed⟩ := linearize_ok made.valid sameLayout sameLength sameEntry once laid res
  exact ⟨predicated, defined, es, links, predicating, defining, res, same,
    fun b => (carriesPredicated b).trans (carriesDefined b), linearized, removed⟩

namespace Stages

variable (stages : plan.Stages f start predicated defined next es links)

include stages

variable (made : plan.Made f start depths)

include made

theorem layout : defined.func.layout = f.layout := by
  rw [stages.same.layout, made.laid.start]

theorem entry : defined.func.entry = f.entry := by
  rw [stages.same.entry, made.laid.start]

theorem length : defined.func.blocks.length = f.blocks.length := by
  rw [stages.same.length, made.laid.start]

/-- The walk of the stages is the walk of the tree. -/
theorem walks : es.filterMap entered = plan.scopes ∧ plan.tree.Walks [.subscope ScopeTree.root] es := by
  obtain ⟨walked, isWalk, isEntered, walks⟩ := made.valid.walked
  obtain rfl := ok_unique stages.linearized.walked isWalk
  exact ⟨isEntered, walks⟩

end Stages

end Plan

end SinglePath
