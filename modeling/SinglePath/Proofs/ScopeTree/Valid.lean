import SinglePath.Proofs.Computation
import SinglePath.ScopeTree.Validation

namespace SinglePath

open List Option Table WalkEvent

variable {s : Scope} {loop : ScopeId} {block : BlockId}

namespace Scope

theorem mem_blocks : block ∈ s.blocks ↔ .block block ∈ s.nodes := by
  simp only [blocks, mem_filterMap]
  constructor
  · rintro ⟨node, mem, isBlock⟩
    cases node with
    | block o =>
      obtain rfl : o = block := by simpa using isBlock
      exact mem
    | subscope loop => simp at isBlock
  · intro mem
    exact ⟨.block block, mem, rfl⟩

theorem mem_subscopes : loop ∈ s.subscopes ↔ .subscope loop ∈ s.nodes := by
  simp only [subscopes, mem_filterMap]
  constructor
  · rintro ⟨node, mem, isLoop⟩
    cases node with
    | block block => simp at isLoop
    | subscope o =>
      obtain rfl : o = loop := by simpa using isLoop
      exact mem
  · intro mem
    exact ⟨.subscope loop, mem, rfl⟩

/-- A scope without repeated blocks and loops has no repeated node. -/
theorem nodes_nodup (blocksOnce : s.blocks.Nodup) (loopsOnce : s.subscopes.Nodup) : s.nodes.Nodup := by
  unfold blocks at blocksOnce
  unfold subscopes at loopsOnce
  generalize s.nodes = nodes at blocksOnce loopsOnce
  induction nodes with
  | nil => exact nodup_nil
  | cons node rest ih =>
    refine nodup_cons.mpr ⟨?_, ?_⟩
    · intro again
      cases node with
      | block block =>
        refine (nodup_cons.mp blocksOnce).1 (mem_filterMap.mpr ⟨_, again, rfl⟩)
      | subscope loop =>
        refine (nodup_cons.mp loopsOnce).1 (mem_filterMap.mpr ⟨_, again, rfl⟩)
    · refine ih ?_ ?_
      · cases node with
        | block block =>
          exact (nodup_cons.mp blocksOnce).2
        | subscope loop => simpa [filterMap_cons] using blocksOnce
      · cases node with
        | block block => simpa [filterMap_cons] using loopsOnce
        | subscope loop =>
          exact (nodup_cons.mp loopsOnce).2

end Scope

namespace ScopeTree

variable {tree : ScopeTree} {id : ScopeId} {f : Func} {members : Table BlockId ScopeId} {defn : PredDef}

theorem get_eq_ok : tree.get id = .ok s ↔ tree.scopes[id.index]? = some s := present_eq_ok

section

variable {header : BlockId} {loops : List ScopeId}

theorem findHeader_ok (known : ∀ loop ∈ loops, ∃ inner, tree.get loop = .ok inner) :
    ∃ got, tree.findHeader header loops = .ok got := by
  induction loops with
  | nil => exact ⟨none, rfl⟩
  | cons first rest ih =>
    obtain ⟨inner, innerFound⟩ := known first (.head _)
    obtain ⟨later, laterFound⟩ := ih (forall_mem_cons.mp known).2
    unfold findHeader
    rw [innerFound, ok_bind]
    split
    · exact ⟨_, rfl⟩
    · exact ⟨later, laterFound⟩

/-- A loop that is found is in the list and has the header. -/
theorem findHeader_some (got : tree.findHeader header loops = .ok (some loop)) :
    loop ∈ loops ∧ ∃ inner, tree.get loop = .ok inner ∧ inner.header = header := by
  induction loops with
  | nil => simp [findHeader] at got
  | cons first rest ih =>
    obtain ⟨inner, innerFound, got⟩ := bind_inv got
    split at got
    · next isHeader =>
        obtain rfl := some.inj (pure_inv got)
        exact ⟨.head _, inner, innerFound, isHeader⟩
    · obtain ⟨mem, heads⟩ := ih got
      exact ⟨.tail _ mem, heads⟩

/-- If no loop is found, none in the list has the header. -/
theorem findHeader_none (got : tree.findHeader header loops = .ok none) {inner : Scope} (mem : loop ∈ loops)
    (innerFound : tree.get loop = .ok inner) : inner.header ≠ header := by
  induction loops with
  | nil => simp at mem
  | cons first rest ih =>
    obtain ⟨o, otherFound, got⟩ := bind_inv got
    split at got
    · simp [pure_eq_ok] at got
    · next isOther =>
        rcases mem_cons.mp mem with rfl | later
        · obtain rfl := ok_unique otherFound innerFound
          exact isOther
        · exact ih got later

end

section

variable {inner : ScopeId → Except Fault (List WalkEvent)} {nodes : List ScopeNode} {room : Nat} {inside : ScopeId}
  {es : List WalkEvent}

/-- The events of a list of nodes, those of an inner loop between its entry and its exit. -/
inductive Walks (tree : ScopeTree) : List ScopeNode → List WalkEvent → Prop where
  | nil : Walks tree [] []
  | block {id : BlockId} {rest : List ScopeNode} {es : List WalkEvent} (later : Walks tree rest es) :
      Walks tree (.block id :: rest) (.block id :: es)
  | loop {id : ScopeId} {body : Scope} {rest : List ScopeNode} {inside es : List WalkEvent}
      (got : tree.get id = .ok body) (inner : Walks tree body.nodes inside) (later : Walks tree rest es) :
      Walks tree (.subscope id :: rest) (.enter id :: inside ++ .exit id :: es)

/-- A walk over nodes is one, if the walks of their loops are. -/
theorem walkNodes_walks (walkedInner : ∀ loop inside, inner loop = .ok inside → Walks tree [.subscope loop] inside)
    (walked : walkNodes inner nodes = .ok es) : Walks tree nodes es := by
  induction nodes generalizing es with
  | nil =>
    cases walked
    exact .nil
  | cons node rest ih =>
    cases node with
    | block block =>
      obtain ⟨later, remaining, rfl⟩ := bind_pure_inv walked
      exact .block (ih remaining)
    | subscope loop =>
      obtain ⟨first, entered, later, remaining, rfl⟩ := bind_bind_pure_inv walked
      cases walkedInner loop first entered with
      | loop got inside nothing =>
        cases nothing
        simpa using Walks.loop got inside (ih remaining)

/-- The walk of a scope enters it, walks its nodes and leaves it. -/
theorem walkScope_ok (walked : tree.walkScope room id = .ok es) :
    ∃ smaller s inside, room = smaller + 1 ∧ tree.get id = .ok s ∧
      walkNodes (tree.walkScope smaller) s.nodes = .ok inside ∧
      es = .enter id :: inside ++ [.exit id] := by
  cases room with
  | zero =>
    rw [walkScope, bind_eq_ok] at walked
    obtain ⟨_, _, endless⟩ := walked
    simp [throw, throwThe, throw] at endless
  | succ smaller =>
    rw [walkScope, bind_eq_ok] at walked
    obtain ⟨s, got, walked⟩ := walked
    obtain ⟨inside, walkedInside, res⟩ := bind_inv walked
    exact ⟨smaller, s, inside, rfl, got, walkedInside, (pure_inv res).symm⟩

theorem walkScope_walks (walked : tree.walkScope room id = .ok es) : Walks tree [.subscope id] es := by
  induction room generalizing id es with
  | zero =>
    obtain ⟨smaller, _, _, impossible, _⟩ := walkScope_ok walked
    omega
  | succ room ih =>
    obtain ⟨smaller, s, inside, same, got, walkedInside, rfl⟩ := walkScope_ok walked
    obtain rfl : room = smaller := by omega
    exact .loop got (walkNodes_walks (fun _ _ => ih) walkedInside) .nil

theorem walk_eq {top : Scope} (got : tree.get root = .ok top) : tree.walk = tree.walkScope tree.scopes.length root := by
  unfold walk
  split
  · next isEmpty => simp [get_eq_ok, isEmpty_iff.mp isEmpty] at got
  · rfl

/-- The walk of a tree with a root is the walk of the root. -/
theorem walk_walks {top : Scope} (got : tree.get root = .ok top) (walked : tree.walk = .ok es) :
    Walks tree [.subscope root] es :=
  walkScope_walks (walk_eq got ▸ walked)

@[simp] theorem entered_enter (s : ScopeId) (rest : List WalkEvent) :
    (WalkEvent.enter s :: rest).filterMap WalkEvent.entered = s :: rest.filterMap WalkEvent.entered := rfl

@[simp] theorem entered_block (block : BlockId) (rest : List WalkEvent) :
    (WalkEvent.block block :: rest).filterMap WalkEvent.entered = rest.filterMap WalkEvent.entered := rfl

@[simp] theorem entered_exit (s : ScopeId) (rest : List WalkEvent) :
    (WalkEvent.exit s :: rest).filterMap WalkEvent.entered = rest.filterMap WalkEvent.entered := rfl

namespace Walks

variable (walks : Walks tree nodes es)

include walks

/-- A scope that is entered has its part of the walk, from entering it to leaving it. -/
theorem segment (listed : id ∈ es.filterMap entered) :
    ∃ before inside after body, es = before ++ (.enter id :: inside ++ .exit id :: after) ∧
      tree.get id = .ok body ∧ Walks tree body.nodes inside := by
  induction walks with
  | nil => simp at listed
  | @block met _ _ _ ih =>
    obtain ⟨before, inside, after, body, rfl, got, inner⟩ := ih (by simpa using listed)
    exact ⟨.block met :: before, inside, after, body, rfl, got, inner⟩
  | @loop loop body rest inside es got inner later innerIh laterIh =>
    simp only [cons_append, entered_enter, filterMap_append, entered_exit, mem_cons, mem_append] at listed
    obtain rfl | deeper | isLater := listed
    · exact ⟨[], inside, es, body, rfl, got, inner⟩
    · obtain ⟨before, within, after, o, rfl, otherFound, otherInner⟩ := innerIh deeper
      exact ⟨.enter loop :: before, within, after ++ .exit loop :: es, o, by simp, otherFound, otherInner⟩
    · obtain ⟨before, within, after, o, rfl, otherFound, otherInner⟩ := laterIh isLater
      exact ⟨.enter loop :: inside ++ .exit loop :: before, within, after, o, by simp, otherFound, otherInner⟩

/-- Every scope that is entered is a subscope of one that exists. -/
theorem nested (listed : inside ∈ es.filterMap entered) :
    .subscope inside ∈ nodes ∨ ∃ parent s, tree.get parent = .ok s ∧ inside ∈ s.subscopes := by
  induction walks with
  | nil => cases listed
  | block _ ih => exact (ih listed).imp_left (.tail _)
  | loop got _ _ innerIh laterIh =>
    simp only [cons_append, entered_enter, filterMap_append, entered_exit, mem_cons, mem_append] at listed
    obtain rfl | deeper | isLater := listed
    · exact .inl (.head _)
    · exact .inr ((innerIh deeper).elim (fun mem => ⟨_, _, got, Scope.mem_subscopes.mpr mem⟩) id)
    · exact (laterIh isLater).imp_left (.tail _)

omit walks in
/-- The subscopes of a scope are entered in their order. -/
theorem subscopes_sublist (walks : Walks tree s.nodes es) : s.subscopes <+ es.filterMap entered := by
  unfold Scope.subscopes
  generalize s.nodes = nodes at walks
  induction walks with
  | nil => exact .slnil
  | block _ ih => exact ih
  | loop _ _ _ _ laterIh =>
    rw [cons_append, entered_enter, filterMap_append, entered_exit]
    exact (laterIh.trans (sublist_append_right _ _)).cons_cons _

theorem subscopes_nodup (once : (es.filterMap entered).Nodup) (listed : id ∈ es.filterMap entered)
    (got : tree.get id = .ok s) : s.subscopes.Nodup := by
  obtain ⟨before, within, after, body, rfl, contentFound, inner⟩ := walks.segment listed
  obtain rfl := ok_unique got contentFound
  have part : within <+ before ++ (.enter id :: within ++ .exit id :: after) :=
    ((sublist_append_left ..).cons _).trans (sublist_append_right ..)
  exact (inner.subscopes_sublist.trans (part.filterMap _)).nodup once

end Walks

end

section

variable {s : ScopeId} {res : Table BlockId ScopeId}

/-- A block that the tree may name: it is part of the function and has a predicate. -/
def Usable (tree : ScopeTree) (f : Func) (block : BlockId) : Prop :=
  (∃ body, f.block? block = some body ∧ body.erased = false) ∧ ∃ pred, tree.blockPred block = some pred

/-- Members that pass are usable, new and different, and are recorded with their scope. -/
theorem checkMembers_ok {blocks : List BlockId} (checked : tree.checkMembers f s blocks members = .ok res) :
    blocks.Nodup ∧ (∀ block ∈ blocks, Usable tree f block ∧ members.get? block = none) ∧
      ∀ block, res.get? block = if block ∈ blocks then some s else members.get? block := by
  induction blocks generalizing members with
  | nil =>
    have same : members = res := by simpa [checkMembers] using checked
    simp [same]
  | cons first rest ih =>
    rw [checkMembers, demandTree_bind_eq_ok] at checked
    obtain ⟨exists_, checked⟩ := checked
    obtain ⟨fresh, checked⟩ := demandTree_bind_eq_ok.mp checked
    obtain ⟨guarded, checked⟩ := demandTree_bind_eq_ok.mp checked
    obtain ⟨nodup, usable, lookup⟩ := ih checked
    have missing : members.get? first = none := by simpa [Table.contains] using fresh
    have firstUsable : Usable tree f first := by
      obtain ⟨body, got, kept⟩ := (any_eq_true _ _).mp exists_
      exact ⟨⟨body, got, by simpa using kept⟩, isSome_iff_exists.mp guarded⟩
    have notLater : first ∉ rest := by
      intro mem
      have later := (usable first mem).2
      simp at later
    refine ⟨nodup_cons.mpr ⟨notLater, nodup⟩, ?_, ?_⟩
    · intro block mem
      rcases mem_cons.mp mem with rfl | later
      · exact ⟨firstUsable, missing⟩
      · obtain ⟨blockUsable, unknown⟩ := usable block later
        refine ⟨blockUsable, ?_⟩
        have ne : block ≠ first := fun same => notLater (same ▸ later)
        simpa [ne] using unknown
    · intro block
      rw [lookup block, get?_insert]
      by_cases same : block = first
      · simp [same, notLater]
      · simp [same]

/-- Children that pass name the scope as their parent and are one deeper. -/
theorem checkChildren_ok {depth : Nat} {children : List ScopeId}
    (checked : tree.checkChildren s depth children = .ok ()) :
    ∀ child ∈ children, ∃ body, tree.get child = .ok body ∧ body.parent = some s ∧ body.depth = depth + 1 := by
  induction children with
  | nil => simp
  | cons first rest ih =>
    rw [checkChildren, bind_eq_ok] at checked
    obtain ⟨body, got, checked⟩ := checked
    obtain ⟨hasParent, checked⟩ := demandTree_bind_eq_ok.mp checked
    obtain ⟨inner, isInner, checked⟩ := bind_inv checked
    obtain ⟨_, rfl⟩ := inWord_eq_ok.mp (liftM_inv isInner)
    obtain ⟨isDeeper, checked⟩ := demandTree_bind_eq_ok.mp checked
    intro child mem
    rcases mem_cons.mp mem with rfl | later
    · exact ⟨body, liftM_inv got, by simpa using hasParent, by simpa using isDeeper⟩
    · exact ih checked child later

/-- What the check of one scope has established, given the final scope of each block. -/
structure Checked (tree : ScopeTree) (f : Func) (members : Table BlockId ScopeId) (id : ScopeId) (s : Scope) :
    Prop where
  headerFirst : s.nodes.head? = some (.block s.header)
  blocksOnce : s.blocks.Nodup
  usable : ∀ block ∈ s.blocks, Usable tree f block
  home : ∀ block ∈ s.blocks, members.get? block = some id
  children : ∀ child ∈ s.subscopes, ∃ body, tree.get child = .ok body ∧ body.parent = some id ∧
    body.depth = s.depth + 1

/-- Scopes that pass are new, different and in order, and every record is that of a member. -/
theorem checkScopes_ok {scopes seen : List ScopeId} (checked : tree.checkScopes f scopes seen members = .ok res) :
    scopes.Nodup ∧ (∀ id ∈ scopes, id ∉ seen) ∧
      (∀ id ∈ scopes, ∃ s, tree.get id = .ok s ∧ Checked tree f res id s) ∧
      (∀ block home, members.get? block = some home → res.get? block = some home) ∧
      ∀ block home, res.get? block = some home → members.get? block = some home ∨
        home ∈ scopes ∧ ∃ s, tree.get home = .ok s ∧ block ∈ s.blocks := by
  induction scopes generalizing seen members with
  | nil =>
    have same : members = res := by simpa [checkScopes] using checked
    simp [same]
  | cons first rest ih =>
    rw [checkScopes, demandTree_bind_eq_ok] at checked
    obtain ⟨unseen, checked⟩ := checked
    obtain ⟨s, got, checked⟩ := bind_inv checked
    obtain ⟨headerFirst, checked⟩ := demandTree_bind_eq_ok.mp checked
    obtain ⟨extended, membersChecked, _, childrenChecked, checked⟩ := bind_bind_inv checked
    obtain ⟨blocksOnce, usable, lookup⟩ := checkMembers_ok membersChecked
    obtain ⟨nodup, notSeen, scopesChecked, grows, origin⟩ := ih checked
    have scopeFound := liftM_inv got
    have firstUnseen : first ∉ seen := by simpa using unseen
    refine ⟨nodup_cons.mpr ⟨fun later => notSeen first later (.head _), nodup⟩, ?_, ?_, ?_, ?_⟩
    · intro id mem
      rcases mem_cons.mp mem with rfl | later
      · exact firstUnseen
      · exact fun inSeen => notSeen id later (mem_cons_of_mem first inSeen)
    · intro id mem
      rcases mem_cons.mp mem with rfl | later
      · refine ⟨s, scopeFound, by simpa using headerFirst, blocksOnce, fun block inside => (usable block inside).1,
          ?_, checkChildren_ok childrenChecked⟩
        intro block inside
        exact grows block id (by rw [lookup, if_pos inside])
      · exact scopesChecked id later
    · intro block home known
      refine grows block home ?_
      rw [lookup]
      split
      · next inside => simp [(usable block inside).2] at known
      · exact known
    · intro block home known
      rcases origin block home known with before | ⟨later, elsewhere⟩
      · rw [lookup] at before
        split at before
        · next inside =>
            obtain rfl : first = home := by simpa using before
            exact .inr ⟨.head _, s, scopeFound, inside⟩
        · exact .inl before
      · exact .inr ⟨mem_cons_of_mem first later, elsewhere⟩

/-- A definition of a scope leaves a block of the scope or the header of a loop in it, is guarded by that block, and
does not define the predicate of a whole function's entry. -/
structure SoundDef (tree : ScopeTree) (members : Table BlockId ScopeId) (id : ScopeId) (defn : PredDef) :
    Prop where
  leaves : members.get? defn.source = some id ∨
    ∃ loop, tree.childWithHeader id defn.source = .ok (some loop)
  guarded : tree.blockPred defn.source = some defn.guard
  notEntry : ∀ top, tree.get root = .ok top → top.isTopLevel = true → tree.wholeFunction = true →
    tree.blockPred top.header ≠ some defn.pred

theorem checkSource_ok (checked : tree.checkSource members s defn = .ok ()) : (members.get? defn.source = some s ∨
        ∃ loop, tree.childWithHeader s defn.source = .ok (some loop)) ∧
      tree.blockPred defn.source = some defn.guard := by
  unfold checkSource at checked
  simp only at checked
  split at checked
  · exact absurd checked refuseTree_ne_ok
  · next home known =>
    split at checked
    · next isHome => exact ⟨.inl (isHome ▸ known), by simpa using demandTree_eq_ok.mp checked⟩
    · obtain ⟨child, childFound, checked⟩ := bind_inv checked
      split at checked
      · next exited =>
          obtain ⟨loop, rfl⟩ := isSome_iff_exists.mp exited
          exact ⟨.inr ⟨loop, liftM_inv childFound⟩, by simpa using demandTree_eq_ok.mp checked⟩
      · split at checked
        · exact absurd checked refuse_ne_ok
        · exact absurd checked refuseTree_ne_ok

theorem checkPred_ok {pred : PredId} (checked : tree.checkPred pred = .ok ()) {top : Scope}
    (got : tree.get root = .ok top) (isTop : top.isTopLevel = true) (whole : tree.wholeFunction = true) :
    tree.blockPred top.header ≠ some pred := by
  obtain ⟨isFunctionTop, first, entryPred, second, checked⟩ := bind_bind_inv checked
  have firstEq := liftM_inv first
  have secondEq := liftM_inv second
  rw [ScopeTree.isFunctionTop, got] at firstEq
  rw [headerPred, got] at secondEq
  have firstValue : (top.isTopLevel && tree.wholeFunction) = isFunctionTop := Except.ok.inj firstEq
  have secondValue : tree.blockPred top.header = entryPred := Except.ok.inj secondEq
  have apart := demandTree_eq_ok.mp checked
  rw [← firstValue, ← secondValue, isTop, whole] at apart
  simpa using apart

/-- Definitions that pass are sound. -/
theorem checkDefs_ok {defs : List PredDef} (checked : tree.checkDefs members s defs = .ok ()) :
    ∀ defn ∈ defs, SoundDef tree members s defn := by
  induction defs with
  | nil => simp
  | cons first rest ih =>
    rw [checkDefs, bind_eq_ok] at checked
    obtain ⟨_, u, checked⟩ := checked
    obtain ⟨_, pred, checked⟩ := bind_inv checked
    intro defn mem
    rcases mem_cons.mp mem with rfl | later
    · obtain ⟨leaves, guarded⟩ := checkSource_ok u
      exact ⟨leaves, guarded, fun top got isTop whole => checkPred_ok pred got isTop whole⟩
    · exact ih checked defn later

theorem checkAllDefs_ok {first : Nat} {scopes : List Scope}
    (checked : tree.checkAllDefs members first scopes = .ok ()) :
    ∀ i s, scopes[i]? = some s → ∀ defn ∈ s.defs, SoundDef tree members ⟨first + i⟩ defn := by
  induction scopes generalizing first with
  | nil => simp
  | cons s rest ih =>
    rw [checkAllDefs, bind_eq_ok] at checked
    obtain ⟨_, own, others⟩ := checked
    intro i o got
    cases i with
    | zero =>
      obtain rfl : s = o := by simpa using got
      exact checkDefs_ok own
    | succ i =>
      have later := ih others i o (by simpa using got)
      rwa [Nat.add_assoc, Nat.add_comm 1] at later

end

/-- A tree that fits a function: its scopes in the order of the walk, and the scope of each block. -/
structure Valid (tree : ScopeTree) (f : Func) (entered : List ScopeId) (members : Table BlockId ScopeId) :
    Prop where
  order : tree.scopesInOrder = .ok entered
  once : entered.Nodup
  covered : ∀ {id : ScopeId} {s : Scope}, tree.get id = .ok s → id ∈ entered
  found : ∀ {id : ScopeId}, id ∈ entered → ∃ s, tree.get id = .ok s
  checked : ∀ {id : ScopeId} {s : Scope}, tree.get id = .ok s → Checked tree f members id s
  loopsOnce : ∀ {id : ScopeId} {s : Scope}, tree.get id = .ok s → s.subscopes.Nodup
  nested : ∀ {id : ScopeId}, id ∈ entered → id = root ∨
    ∃ parent s, tree.get parent = .ok s ∧ id ∈ s.subscopes
  defs : ∀ {id : ScopeId} {s : Scope} {defn : PredDef}, tree.get id = .ok s →
    defn ∈ s.defs → SoundDef tree members id defn
  top : ∃ top, tree.get root = .ok top ∧ top.parent = none ∧ top.header = f.entry
  placed : ∀ {block : BlockId}, block ∈ f.layout → ∃ home, members.get? block = some home
  homes : ∀ {block : BlockId} {home : ScopeId}, members.get? block = some home →
    ∃ s, tree.get home = .ok s ∧ block ∈ s.blocks

namespace Valid

variable {entered : List ScopeId}

variable (valid : Valid tree f entered members)

include valid

variable (got : tree.get id = .ok s) {o child : ScopeId} {otherScope : Scope}

include got

theorem header_mem_blocks : s.header ∈ s.blocks :=
  Scope.mem_blocks.mpr (mem_of_mem_head? (valid.checked got).headerFirst)

/-- A member of a scope is a block of the function. -/
theorem member_lt (inside : block ∈ s.blocks) : block.index < f.blocks.length := by
  obtain ⟨⟨_, isBlock, _⟩, _⟩ := (valid.checked got).usable block inside
  exact lt_length isBlock

/-- No block is a member of two scopes. -/
theorem home_unique (foundOther : tree.get o = .ok otherScope) (inside : block ∈ s.blocks)
    (insideOther : block ∈ otherScope.blocks) : id = o :=
  some.inj (((valid.checked got).home block inside).symm.trans ((valid.checked foundOther).home block insideOther))

theorem child_ne (mem : child ∈ s.subscopes) : child ≠ id := by
  rintro rfl
  obtain ⟨body, contentFound, _, depth⟩ := (valid.checked got).children child mem
  obtain rfl := ok_unique contentFound got
  omega

/-- No scope is a subscope of two scopes. -/
theorem parent_unique (foundOther : tree.get o = .ok otherScope) (mem : child ∈ s.subscopes)
    (listedOther : child ∈ otherScope.subscopes) : id = o := by
  obtain ⟨body, contentFound, parent, _⟩ := (valid.checked got).children child mem
  obtain ⟨again, againFound, parentOther, _⟩ := (valid.checked foundOther).children child listedOther
  obtain rfl := ok_unique contentFound againFound
  exact mem_unique parent parentOther

/-- Only the root is at the top level. -/
theorem top_unique (isTop : s.isTopLevel = true) : id = root := by
  rcases valid.nested (valid.covered got) with isRoot | ⟨parent, outer, outerFound, mem⟩
  · exact isRoot
  · obtain ⟨body, contentFound, hasParent, _⟩ := (valid.checked outerFound).children id mem
    obtain rfl := ok_unique contentFound got
    simp [Scope.isTopLevel, hasParent] at isTop

theorem child_isLoop (mem : .subscope child ∈ s.nodes) {body : Scope} (foundChild : tree.get child = .ok body) :
    body.isTopLevel = false := by
  obtain ⟨same, foundSame, hasParent, _⟩ := (valid.checked got).children child (Scope.mem_subscopes.mpr mem)
  obtain rfl := ok_unique foundChild foundSame
  simp [Scope.isTopLevel, hasParent]

/-- The search for a loop with a header succeeds in a valid tree. -/
theorem childWithHeader_ok (header : BlockId) : ∃ exited, tree.childWithHeader id header = .ok exited := by
  unfold childWithHeader
  rw [got, ok_bind]
  refine findHeader_ok fun loop mem => ?_
  obtain ⟨inner, innerFound, _⟩ := (valid.checked got).children loop mem
  exact ⟨inner, innerFound⟩

/-- A definition leaves the header of the loop that it exits, or else a block of its scope. -/
theorem source_mem (mem : defn ∈ s.defs) {exited : Option ScopeId}
    (exits : tree.childWithHeader id defn.source = .ok exited) :
    match exited with
    | some loop => loop ∈ s.subscopes ∧ ∃ inner, tree.get loop = .ok inner ∧ inner.header = defn.source
    | none => defn.source ∈ s.blocks := by
  cases exited with
  | some loop =>
    unfold childWithHeader at exits
    rw [got, ok_bind] at exits
    exact findHeader_some exits
  | none =>
    rcases (valid.defs got mem).leaves with isHome | ⟨loop, o⟩
    · obtain ⟨home, homeFound, inside⟩ := valid.homes isHome
      obtain rfl := ok_unique got homeFound
      exact inside
    · simp [exits] at o

theorem nodes_nodup : s.nodes.Nodup := Scope.nodes_nodup (valid.checked got).blocksOnce (valid.loopsOnce got)

/-- No two nodes of a scope stand for the same block. -/
theorem node_unique {first second : ScopeNode} (mem : first ∈ s.nodes) (listedToo : second ∈ s.nodes)
    (stands : tree.nodeBlock first = .ok block) (standsToo : tree.nodeBlock second = .ok block) : first = second := by
  have loop_block {loop : ScopeId} (isNode : .subscope loop ∈ s.nodes)
      (header : tree.nodeBlock (.subscope loop) = .ok block) :
      ∃ inner, tree.get loop = .ok inner ∧ block ∈ inner.blocks ∧ loop ≠ id := by
    obtain ⟨inner, innerFound, rfl⟩ := bind_pure_inv header
    exact ⟨inner, innerFound, valid.header_mem_blocks innerFound, valid.child_ne got (Scope.mem_subscopes.mpr isNode)⟩
  cases first with
  | block one =>
    obtain rfl : one = block := by simpa [nodeBlock] using stands
    cases second with
    | block o =>
      obtain rfl : o = one := by simpa [nodeBlock] using standsToo
      rfl
    | subscope loop =>
      obtain ⟨inner, innerFound, inside, ne⟩ := loop_block listedToo standsToo
      exact absurd (valid.home_unique innerFound got inside (Scope.mem_blocks.mpr mem)) ne
  | subscope loop =>
    obtain ⟨inner, innerFound, inside, ne⟩ := loop_block mem stands
    cases second with
    | block o =>
      obtain rfl : o = block := by simpa [nodeBlock] using standsToo
      exact absurd (valid.home_unique innerFound got inside (Scope.mem_blocks.mpr listedToo)) ne
    | subscope otherLoop =>
      obtain ⟨otherInner, otherFound, otherInside, _⟩ := loop_block listedToo standsToo
      rw [valid.home_unique innerFound otherFound inside otherInside]

end Valid

/-- The check of the root passes exactly if it has no parent and heads the function. -/
theorem checkRoot_iff : tree.checkRoot f = .ok () ↔
    ∃ top, tree.get root = .ok top ∧ top.parent = none ∧ top.header = f.entry := by
  simp only [checkRoot, get_eq_ok, root]
  cases tree.scopes with
  | nil => simp
  | cons top rest => simp [demandTree_bind_eq_ok, demandTree_eq_ok]

/-- If all scopes are covered, every scope is entered. -/
theorem checkCovered_ok {entered : List ScopeId}
    (checked : tree.checkCovered entered = .ok ()) (got : tree.get id = .ok s) : id ∈ entered := by
  unfold checkCovered at checked
  split at checked
  · exact absurd checked refuseTree_ne_ok
  · next noneMissing =>
      have inRange := lt_length (get_eq_ok.mp got)
      simpa using find?_eq_none.mp noneMissing id.index (mem_range.mpr inRange)

theorem checkLayout_ok {layout : List BlockId} (checked : checkLayout members layout = .ok ()) (mem : block ∈ layout) :
    ∃ home, members.get? block = some home := by
  unfold checkLayout at checked
  split at checked
  · exact absurd checked refuseTree_ne_ok
  · next noneMissing =>
      have present := find?_eq_none.mp noneMissing block mem
      exact ne_none_iff_exists'.mp (by simpa [Table.contains] using present)

/-- A tree that passes the checks has what they check. -/
theorem validate_valid {facts : ScopeFacts} (validated : tree.validate f = .ok facts) :
    ∃ entered, Valid tree f entered facts.blockScope := by
  obtain ⟨_, rootChecked, entered, order, validated⟩ := bind_bind_inv validated
  obtain ⟨members, scopesChecked, _, coverChecked, validated⟩ := bind_bind_inv validated
  obtain ⟨_, layoutChecked, _, defsChecked, validated⟩ := bind_bind_inv validated
  obtain ⟨exits, _, rfl⟩ := bind_pure_inv validated
  obtain ⟨once, _, each, _, origin⟩ := checkScopes_ok scopesChecked
  have orderOk := liftM_inv order
  have covered {id : ScopeId} {s : Scope} (got : tree.get id = .ok s) : id ∈ entered :=
    checkCovered_ok coverChecked got
  have checked {id : ScopeId} {s : Scope} (got : tree.get id = .ok s) :
      Checked tree f members id s := by
    obtain ⟨body, contentFound, holds⟩ := each id (covered got)
    obtain rfl := ok_unique contentFound got
    exact holds
  obtain ⟨es, walked, rfl⟩ := bind_pure_inv orderOk
  obtain ⟨top, topFound, topRoot⟩ := checkRoot_iff.mp rootChecked
  have walks := walk_walks topFound walked
  refine ⟨_, orderOk, once, covered, ?_, checked, fun got => walks.subscopes_nodup once (covered got) got, ?_, ?_,
    ⟨top, topFound, topRoot⟩, ?_, ?_⟩
  · intro id mem
    obtain ⟨s, got, _⟩ := each id mem
    exact ⟨s, got⟩
  · exact fun mem => (walks.nested mem).imp_left (by simp)
  · intro id s defn got mem
    simpa using checkAllDefs_ok defsChecked id.index s (get_eq_ok.mp got) defn mem
  · exact fun mem => checkLayout_ok layoutChecked mem
  · intro block home known
    rcases origin block home known with before | ⟨_, inside⟩
    · simp at before
    · exact inside

end ScopeTree

end SinglePath
