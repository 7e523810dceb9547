import SinglePath.Proofs.ScopeTree.Walked

namespace SinglePath

open List Table WalkEvent

namespace ScopeTree

variable {tree : ScopeTree} {f : Func} {es : List WalkEvent}

/-- What a tree must be like to be accepted for a function. -/
structure Fits (tree : ScopeTree) (f : Func) (es : List WalkEvent) : Prop where
  walked : tree.walk = .ok es
  once : (es.filterMap WalkEvent.entered).Nodup
  metOnce : (es.filterMap WalkEvent.met).Nodup
  covered : ∀ {id : ScopeId} {s : Scope}, tree.get id = .ok s → id ∈ es.filterMap WalkEvent.entered
  top : ∃ top, tree.get root = .ok top ∧ top.parent = none ∧ top.header = f.entry
  headerFirst : ∀ {id : ScopeId} {s : Scope}, tree.get id = .ok s → s.nodes.head? = some (.block s.header)
  children : ∀ {id child : ScopeId} {s : Scope}, tree.get id = .ok s → child ∈ s.subscopes →
    ∃ body, tree.get child = .ok body ∧ body.parent = some id ∧ body.depth = s.depth + 1
  usable : ∀ {b : BlockId}, b ∈ es.filterMap WalkEvent.met → Usable tree f b
  laid : ∀ {b : BlockId}, b ∈ f.layout → b ∈ es.filterMap WalkEvent.met
  leaves : ∀ {id : ScopeId} {s : Scope} {defn : PredDef}, tree.get id = .ok s → defn ∈ s.defs →
    defn.source ∈ s.blocks ∨
      ∃ loop ∈ s.subscopes, ∃ inner, tree.get loop = .ok inner ∧ inner.header = defn.source
  guarded : ∀ {id : ScopeId} {s : Scope} {defn : PredDef}, tree.get id = .ok s →
    defn ∈ s.defs → tree.blockPred defn.source = some defn.guard
  notEntry : ∀ {id : ScopeId} {s : Scope} {defn : PredDef}, tree.get id = .ok s →
    defn ∈ s.defs → tree.wholeFunction = true → tree.blockPred f.entry ≠ some defn.pred

section

variable {s : ScopeId} {members : Table BlockId ScopeId} {scopes : List Scope} {blocks : List BlockId} {first : Nat}

theorem checkMembers_total (once : blocks.Nodup)
    (usable : ∀ b ∈ blocks, Usable tree f b) (fresh : ∀ b ∈ blocks, members.get? b = none) :
    ∃ res, tree.checkMembers f s blocks members = .ok res := by
  induction blocks generalizing members with
  | nil => exact ⟨members, rfl⟩
  | cons b rest ih =>
    obtain ⟨⟨body, got, notErased⟩, pred, isPred⟩ := usable b (.head _)
    obtain ⟨notLater, onceLater⟩ := nodup_cons.mp once
    obtain ⟨res, checked⟩ : ∃ res, tree.checkMembers f s rest (members.insert b s) = .ok res := by
      refine ih onceLater (forall_mem_cons.mp usable).2 ?_
      intro o isLater
      have ne : o ≠ b := fun same => notLater (same ▸ isLater)
      rw [get?_insert, if_neg ne]
      exact fresh o (.tail _ isLater)
    refine ⟨res, ?_⟩
    rw [checkMembers, demandTree_bind_eq_ok, demandTree_bind_eq_ok, demandTree_bind_eq_ok]
    refine ⟨by simp [got, notErased], ?_, by simp [isPred], checked⟩
    simp [Table.contains, fresh b mem_cons_self]

theorem checkChildren_total {depth : Nat} {children : List ScopeId} (shallow : depth + 1 < 0x100000000)
    (linked : ∀ child ∈ children, ∃ body, tree.get child = .ok body ∧ body.parent = some s ∧
      body.depth = depth + 1) : tree.checkChildren s depth children = .ok () := by
  induction children with
  | nil => rfl
  | cons child rest ih =>
    obtain ⟨body, got, hasParent, isDeeper⟩ := linked child (.head _)
    rw [checkChildren, got, liftM_ok, ok_bind, demandTree_bind_eq_ok]
    refine ⟨by simp [hasParent], ?_⟩
    rw [inWord_eq_ok.mpr ⟨shallow, rfl⟩, liftM_ok, ok_bind, demandTree_bind_eq_ok]
    exact ⟨by simp [isDeeper], ih (forall_mem_cons.mp linked).2⟩

/-- Scopes with different blocks that are new pass the check of the scopes. -/
theorem checkScopes_total {scopes seen : List ScopeId} (once : scopes.Nodup) (unseen : ∀ id ∈ scopes, id ∉ seen)
    (known : ∀ id ∈ scopes, ∃ body, tree.get id = .ok body ∧
      body.nodes.head? = some (.block body.header) ∧ body.depth + 1 < 0x100000000 ∧
      ∀ child ∈ body.subscopes, ∃ inner, tree.get child = .ok inner ∧ inner.parent = some id ∧
        inner.depth = body.depth + 1) (blocksOnce : ((tree.membersOf scopes).map (·.2.2)).Nodup)
    (usable : ∀ b ∈ (tree.membersOf scopes).map (·.2.2), Usable tree f b)
    (fresh : ∀ b ∈ (tree.membersOf scopes).map (·.2.2), members.get? b = none) :
    ∃ res, tree.checkScopes f scopes seen members = .ok res := by
  induction scopes generalizing seen members with
  | nil => exact ⟨members, rfl⟩
  | cons id rest ih =>
    obtain ⟨body, got, headerFirst, shallow, linked⟩ := known id (.head _)
    have isSplit : (tree.membersOf (id :: rest)).map (·.2.2) =
        body.blocks ++ (tree.membersOf rest).map (·.2.2) := by
      rw [membersOf_cons got, map_append, map_map]
      exact congrArg (· ++ (tree.membersOf rest).map (·.2.2)) (map_id body.blocks)
    rw [isSplit] at blocksOnce usable fresh
    obtain ⟨here, later, apart⟩ := nodup_append.mp blocksOnce
    obtain ⟨extended, checkedMembers⟩ : ∃ extended, tree.checkMembers f id body.blocks members = .ok extended :=
      checkMembers_total here (fun b mem => usable b (mem_append_left _ mem))
        fun b mem => fresh b (mem_append_left _ mem)
    obtain ⟨notLater, onceLater⟩ := nodup_cons.mp once
    obtain ⟨res, checked⟩ : ∃ res, tree.checkScopes f rest (id :: seen) extended = .ok res := by
      refine ih onceLater ?_ (forall_mem_cons.mp known).2 later (fun b mem => usable b (mem_append_right _ mem)) ?_
      · intro o isLater
        rw [mem_cons, not_or]
        exact ⟨fun same => notLater (same ▸ isLater), unseen o (.tail _ isLater)⟩
      · intro b mem
        rw [(checkMembers_ok checkedMembers).2.2, if_neg fun inside => apart b inside b mem rfl]
        exact fresh b (mem_append_right _ mem)
    refine ⟨res, ?_⟩
    rw [checkScopes, demandTree_bind_eq_ok]
    refine ⟨by simpa using unseen id (.head _), ?_⟩
    rw [got, liftM_ok, ok_bind, demandTree_bind_eq_ok]
    refine ⟨by simpa using headerFirst, ?_⟩
    rw [checkedMembers, ok_bind, checkChildren_total shallow linked, ok_bind]
    exact checked

/-- A definition that leaves a block of the scope or the header of one of its loops is accepted. -/
theorem checkSource_total {defn : PredDef} {home : ScopeId} (isHome : members.get? defn.source = some home)
    (guarded : tree.blockPred defn.source = some defn.guard)
    (leaves : home = s ∨ ∃ loop, tree.childWithHeader s defn.source = .ok (some loop)) :
    tree.checkSource members s defn = .ok () := by
  unfold checkSource
  simp only [isHome, guarded, decide_true]
  by_cases isHere : home = s
  · rw [if_pos isHere]
    rfl
  · obtain ⟨loop, exits⟩ := leaves.resolve_left isHere
    rw [if_neg isHere, exits, liftM_ok, ok_bind]
    rfl

/-- The loop with the header is found among the inner loops. -/
theorem childWithHeader_total {body inner : Scope} {loop : ScopeId} (got : tree.get s = .ok body)
    (known : ∀ child ∈ body.subscopes, ∃ inner, tree.get child = .ok inner) (mem : loop ∈ body.subscopes)
    (innerFound : tree.get loop = .ok inner) : ∃ exited, tree.childWithHeader s inner.header = .ok (some exited) := by
  unfold childWithHeader
  rw [got, ok_bind]
  obtain ⟨exited, isExited⟩ : ∃ exited, tree.findHeader inner.header body.subscopes = .ok exited :=
    findHeader_ok known
  cases exited with
  | none => exact absurd rfl (findHeader_none isExited mem innerFound)
  | some exited => exact ⟨exited, isExited⟩

theorem checkPred_total {top : Scope} {pred : PredId} (got : tree.get root = .ok top)
    (notEntry : top.isTopLevel = true → tree.wholeFunction = true → tree.blockPred top.header ≠ some pred) :
    tree.checkPred pred = .ok () := by
  unfold checkPred isFunctionTop headerPred
  rw [got]
  refine demandTree_eq_ok.mpr ?_
  cases isTop : top.isTopLevel <;> cases whole : tree.wholeFunction <;> simp_all

theorem checkDefs_total {defs : List PredDef} (each : ∀ defn ∈ defs, tree.checkSource members s defn = .ok () ∧
      tree.checkPred defn.pred = .ok ()) : tree.checkDefs members s defs = .ok () := by
  induction defs with
  | nil => rfl
  | cons defn rest ih =>
    obtain ⟨u, pred⟩ := each defn (.head _)
    rw [checkDefs, u, ok_bind, pred, ok_bind]
    exact ih fun o isLater => each o (.tail _ isLater)

theorem checkAllDefs_total (each : ∀ i body, scopes[i]? = some body →
      tree.checkDefs members ⟨first + i⟩ body.defs = .ok ()) : tree.checkAllDefs members first scopes = .ok () := by
  induction scopes generalizing first with
  | nil => rfl
  | cons body rest ih =>
    rw [checkAllDefs, show tree.checkDefs members ⟨first⟩ body.defs = .ok () from each 0 body rfl, ok_bind]
    refine ih fun i o got => ?_
    rw [show first + 1 + i = first + (i + 1) by omega]
    exact each (i + 1) o (by simpa using got)

theorem exitsFrom_total {exits : List BlockId} (known : ∀ b ∈ blocks, ∃ body, f.get b = .ok body) :
    ∃ res, tree.exitsFrom members f s blocks exits = .ok res := by
  induction blocks generalizing exits with
  | nil => exact ⟨exits, rfl⟩
  | cons b rest ih =>
    have later (exits : List BlockId) := @ih exits fun o isLater =>
      known o (.tail _ isLater)
    rw [exitsFrom]
    split
    · obtain ⟨body, got⟩ := known b (.head _)
      rw [got, liftM_ok, ok_bind]
      exact later _
    · exact later _

theorem allExits_total (known : ∀ b ∈ f.layout, ∃ body, f.get b = .ok body) :
    ∃ exits, tree.allExits members f first scopes = .ok exits := by
  induction scopes generalizing first with
  | nil => exact ⟨[], rfl⟩
  | cons body rest ih =>
    obtain ⟨later, comp⟩ := @ih (first + 1)
    rw [allExits]
    split
    · exact ⟨later, comp⟩
    · obtain ⟨exits, isExits⟩ : ∃ exits, tree.exitsFrom members f ⟨first⟩ f.layout [] = .ok exits :=
        exitsFrom_total known
      rw [isExits, ok_bind, comp, ok_bind]
      exact ⟨_, rfl⟩

end

namespace Fits

theorem scopesInOrder (fits : Fits tree f es) : tree.scopesInOrder = .ok (es.filterMap entered) := by
  unfold ScopeTree.scopesInOrder
  rw [fits.walked, ok_bind]
  rfl

theorem walks (fits : Fits tree f es) : Walks tree [.subscope root] es := by
  obtain ⟨top, got, _⟩ := fits.top
  exact walk_walks got fits.walked

/-- From loops down, each level of a walk adds one to the depth and at least one scope. -/
theorem depth_lt (fits : Fits tree f es) {nodes : List ScopeNode} {inner : List WalkEvent} {depth : Nat}
    (walks : Walks tree nodes inner)
    (near : ∀ loop body, .subscope loop ∈ nodes → tree.get loop = .ok body → body.depth ≤ depth)
    {id : ScopeId} {s : Scope} (listed : id ∈ inner.filterMap entered) (got : tree.get id = .ok s) :
    s.depth < depth + (inner.filterMap entered).length := by
  induction walks generalizing depth with
  | nil => cases listed
  | block _ ih => exact ih (fun loop body isNode => near loop body (.tail _ isNode)) listed
  | @loop loop _ _ _ _ loopFound _ _ innerIh laterIh =>
    simp only [cons_append, entered_enter, filterMap_append, entered_exit, mem_cons, mem_append, length_cons,
      length_append] at listed ⊢
    have here := near loop _ (.head _) loopFound
    obtain rfl | deeper | isLater := listed
    · obtain rfl := ok_unique got loopFound
      omega
    · have deep := @innerIh (depth + 1) (fun inner body isNode isBody => by
        obtain ⟨_, isChild, _, isDeeper⟩ := fits.children loopFound (Scope.mem_subscopes.mpr isNode)
        obtain rfl := ok_unique isBody isChild
        omega) deeper
      omega
    · have later := laterIh (fun o body isNode => near o body (.tail _ isNode)) isLater
      omega

/-- Such a tree is accepted if the depth inside each scope is a word. -/
theorem validate_ok (fits : Fits tree f es)
    (shallow : ∀ {id : ScopeId} {s : Scope}, tree.get id = .ok s → s.depth + 1 < 0x100000000) :
    ∃ facts, tree.validate f = .ok facts := by
  obtain ⟨top, topFound, _, isEntry⟩ := fits.top
  have members_perm := fits.walks.met_perm
  have blocksOnce : ((tree.membersOf (es.filterMap entered)).map (·.2.2)).Nodup := by
    have := members_perm.nodup_iff.mp fits.metOnce
    simpa [blocksAmong] using this
  have isMet {b : BlockId} : b ∈ (tree.membersOf (es.filterMap entered)).map (·.2.2) ↔ b ∈ es.filterMap met := by
    rw [members_perm.mem_iff]
    simp [blocksAmong]
  obtain ⟨members, checkedScopes⟩ : ∃ members, tree.checkScopes f (es.filterMap entered) []
      empty = .ok members := by
    refine checkScopes_total fits.once (by simp) ?_ blocksOnce (fun b mem => fits.usable (isMet.mp mem)) (by simp)
    intro id mem
    obtain ⟨_, _, _, body, _, got, _⟩ := fits.walks.segment mem
    exact ⟨body, got, fits.headerFirst got, shallow got, fun child isChild => fits.children got isChild⟩
  obtain ⟨_, _, checked, _, _⟩ := checkScopes_ok checkedScopes
  have home {id : ScopeId} {s : Scope} (got : tree.get id = .ok s) {b : BlockId}
      (inside : b ∈ s.blocks) : members.get? b = some id := by
    obtain ⟨body, foundToo, isChecked⟩ := checked id (fits.covered got)
    obtain rfl := ok_unique got foundToo
    exact isChecked.home b inside
  have coverChecked : tree.checkCovered (es.filterMap entered) = .ok () := by
    unfold checkCovered
    split
    · next index missing =>
        have inside := mem_range.mp (mem_of_find?_eq_some missing)
        have isMissing := find?_some missing
        have got : tree.get ⟨index⟩ = .ok (tree.scopes.get ⟨index, inside⟩) := get_eq_ok.mpr (by simp)
        simp [fits.covered got] at isMissing
    · rfl
  have layoutChecked : checkLayout members f.layout = .ok () := by
    unfold checkLayout
    split
    · next b missing =>
        have mem := fits.laid (mem_of_find?_eq_some missing)
        obtain ⟨⟨id, body, member⟩, inMembers, rfl⟩ := mem_map.mp (isMet.mpr mem)
        obtain ⟨_, got, inside⟩ := mem_membersOf.mp inMembers
        have isMissing := find?_some missing
        simp [Table.contains, home got inside] at isMissing
    · rfl
  have defsChecked : tree.checkAllDefs members 0 tree.scopes = .ok () := by
    refine checkAllDefs_total fun i body isScope => ?_
    rw [Nat.zero_add]
    have got : tree.get ⟨i⟩ = .ok body := get_eq_ok.mpr isScope
    refine checkDefs_total fun defn mem => ⟨?_, ?_⟩
    · rcases fits.leaves got mem with inside | ⟨loop, isLoop, inner, innerFound, isHeader⟩
      · exact checkSource_total (home got inside) (fits.guarded got mem) (.inl rfl)
      · have inInner : inner.header ∈ inner.blocks :=
          Scope.mem_blocks.mpr (mem_of_head? (fits.headerFirst innerFound))
        refine checkSource_total (isHeader ▸ home innerFound inInner) (fits.guarded got mem) (.inr ?_)
        rw [← isHeader]
        refine childWithHeader_total got (fun child isChild => ?_) isLoop innerFound
        obtain ⟨o, otherFound, _⟩ := fits.children got isChild
        exact ⟨o, otherFound⟩
    · refine checkPred_total topFound fun _ whole => ?_
      rw [isEntry]
      exact fits.notEntry got mem whole
  obtain ⟨exits, exitsComputed⟩ : ∃ exits, tree.allExits members f 0 tree.scopes = .ok exits := by
    refine allExits_total fun b mem => ?_
    obtain ⟨⟨body, got, _⟩, _⟩ := fits.usable (fits.laid mem)
    exact ⟨body, present_eq_ok.mpr got⟩
  refine ⟨⟨members, ofList exits⟩, ?_⟩
  unfold validate
  simp only [checkRoot_iff.mpr fits.top, ok_bind, fits.scopesInOrder, liftM_ok, checkedScopes, coverChecked,
    layoutChecked, defsChecked,
    exitsComputed]
  rfl

end Fits

end ScopeTree

end SinglePath
