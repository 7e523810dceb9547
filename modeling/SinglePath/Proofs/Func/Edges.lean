import SinglePath.Proofs.Computation
import SinglePath.Func.Basic

namespace SinglePath

open List

/-- Where control can go from the block: to the targets of its branches, and past its end. -/
def Block.exits (body : Block) (following : Option BlockId) : List BlockId :=
  body.branchTargets ++ if body.fallsThrough then following.toList else []

namespace Func

variable {f next : Func} {b source t : BlockId} {body : Block}

def succsOf (f : Func) (b : BlockId) : List BlockId := ((f.block? b).map (·.succs)).getD []

def predsOf (f : Func) (b : BlockId) : List BlockId := ((f.block? b).map (·.preds)).getD []

/-- Every edge stands once at each of its ends. -/
structure Linked (f : Func) : Prop where
  ends : ∀ source t, t ∈ f.succsOf source ↔ source ∈ f.predsOf t
  succsOnce : ∀ b, (f.succsOf b).Nodup
  predsOnce : ∀ b, (f.predsOf b).Nodup

/-- Only the block that is modified changes. -/
theorem block?_modify (f : Func) (b o : BlockId) (change : Block → Block) : (f.modify b change).block? o =
      if o = b then (f.block? o).map change else f.block? o := by
  obtain ⟨index⟩ := b
  obtain ⟨place⟩ := o
  simp only [block?, modify, getElem?_modify, BlockId.mk.injEq]
  by_cases same : index = place
  · simp [same]
  · simp [same, Ne.symm same]

theorem get_eq_ok : f.get b = .ok body ↔ f.block? b = some body := present_eq_ok

theorem succsOf_eq (found : f.block? b = some body) : f.succsOf b = body.succs := by
  simp [succsOf, found]

theorem predsOf_eq (found : f.block? b = some body) : f.predsOf b = body.preds := by
  simp [predsOf, found]

/-- The functions differ in nothing but their edges. -/
def SameButEdges (f o : Func) : Prop := f.clearEdges = o.clearEdges

namespace SameButEdges

variable {o third : Func}

theorem refl (f : Func) : f.SameButEdges f := rfl

theorem trans (first : f.SameButEdges o) (second : o.SameButEdges third) : f.SameButEdges third :=
  Eq.trans first second

variable (same : f.SameButEdges o)

include same

theorem layout : f.layout = o.layout := congrArg (·.layout) same

theorem entry : f.entry = o.entry := congrArg (·.entry) same

theorem blocks : f.blocks.length = o.blocks.length := by
  simpa [clearEdges] using congrArg (fun f => f.blocks.length) same

theorem block? (b : BlockId) : (f.block? b).map (fun body => { body with succs := [], preds := [] }) =
      (o.block? b).map fun body => { body with succs := [], preds := [] } := by
  have blocks : f.clearEdges.blocks = o.clearEdges.blocks := congrArg (·.blocks) same
  simpa [clearEdges, Func.block?] using congrArg (fun blocks => blocks[b.index]?) blocks

/-- A block of one function has its counterpart in the other. -/
theorem found (found : f.block? b = some body) : ∃ counterpart, o.block? b = some counterpart ∧
      { body with succs := [], preds := [] } = { counterpart with succs := [], preds := [] } := by
  have mapped := same.block? b
  rw [found] at mapped
  obtain ⟨counterpart, foundOther, equal⟩ := Option.map_eq_some_iff.mp mapped.symm
  exact ⟨counterpart, foundOther, equal.symm⟩

end SameButEdges

/-- The block is there and is not erased. -/
def Standing (f : Func) (b : BlockId) : Prop := (f.block? b).map (·.erased) = some false

/-- Edges do not decide whether a block is erased. -/
theorem standing_of_sameButEdges (same : f.SameButEdges next) (b : BlockId) : next.Standing b ↔ f.Standing b := by
  have flags := congrArg (Option.map (·.erased)) (same.block? b)
  simp only [Option.map_map, Function.comp_def] at flags
  rw [Standing, Standing, flags]

/-- A change to the edges of one block is a change to edges only. -/
theorem modify_sameButEdges (f : Func) (b : BlockId) {change : Block → Block}
    (keeps : ∀ body : Block, { change body with succs := [], preds := [] } =
      { body with succs := [], preds := [] }) : f.SameButEdges (f.modify b change) := by
  have blocks : f.blocks.map (fun body => { body with succs := [], preds := [] }) =
      (f.blocks.modify b.index change).map fun body => { body with succs := [], preds := [] } := by
    apply ext_getElem?
    intro index
    simp only [getElem?_map, getElem?_modify]
    split
    · cases f.blocks[index]? <;> simp [keeps]
    · simp
  simp only [SameButEdges, clearEdges, modify, blocks]

/-- Every block of the arena can be looked up. -/
theorem get_total (inside : b.index < f.blocks.length) : ∃ body, f.get b = .ok body :=
  ⟨_, get_eq_ok.mpr (getElem?_eq_getElem inside)⟩

/-- An edge can be added between any two blocks of the arena. -/
theorem addEdge_total (fromInside : source.index < f.blocks.length) (toInside : t.index < f.blocks.length) :
    ∃ next, f.addEdge source t = .ok next := by
  obtain ⟨body, got⟩ := get_total fromInside
  obtain ⟨o, gotOther⟩ := get_total toInside
  simp only [addEdge, got, gotOther, ok_bind]
  split <;> exact ⟨_, rfl⟩

section

variable (added : f.addEdge source t = .ok next)

include added

/-- Adding an edge that is there changes nothing; a new one goes to the end of both lists. -/
theorem addEdge_cases : (t ∈ f.succsOf source ∧ next = f) ∨
      (t ∉ f.succsOf source ∧ (∃ body, f.block? source = some body) ∧ (∃ body, f.block? t = some body) ∧
        next = (f.modify source fun b => { b with succs := b.succs ++ [t] }).modify t
          fun b => { b with preds := b.preds ++ [source] }) := by
  obtain ⟨body, found, added⟩ := bind_inv added
  have found := get_eq_ok.mp found
  rw [succsOf_eq found]
  split at added
  · rename_i present
    exact .inl ⟨present, (pure_inv added).symm⟩
  · rename_i absent
    obtain ⟨o, foundTarget, added⟩ := bind_inv added
    exact .inr ⟨absent, ⟨body, found⟩, ⟨o, get_eq_ok.mp foundTarget⟩, (pure_inv added).symm⟩

/-- Adding an edge leaves everything else. -/
theorem addEdge_sameButEdges : f.SameButEdges next := by
  obtain ⟨_, rfl⟩ | ⟨_, _, _, rfl⟩ := addEdge_cases added
  · exact .refl _
  · refine (modify_sameButEdges f source ?_).trans (modify_sameButEdges _ t ?_) <;> exact fun _ => rfl

/-- A new edge adds one successor, to its source. -/
theorem succsOf_addEdge (b : BlockId) :
    next.succsOf b = if b = source ∧ t ∉ f.succsOf source then f.succsOf b ++ [t]
      else f.succsOf b := by
  obtain ⟨present, rfl⟩ | ⟨absent, ⟨body, found⟩, _, rfl⟩ := addEdge_cases added
  · simp [present]
  · simp only [succsOf, block?_modify]
    by_cases isTarget : b = t <;> by_cases isSource : b = source <;>
      cases foundBlock : f.block? b <;> simp_all [succsOf]

/-- A new edge adds one predecessor, to its target. -/
theorem predsOf_addEdge (b : BlockId) :
    next.predsOf b = if b = t ∧ t ∉ f.succsOf source then f.predsOf b ++ [source]
      else f.predsOf b := by
  obtain ⟨present, rfl⟩ | ⟨absent, _, ⟨body, found⟩, rfl⟩ := addEdge_cases added
  · simp [present]
  · simp only [predsOf, block?_modify]
    by_cases isTarget : b = t <;> by_cases isSource : b = source <;>
      cases foundBlock : f.block? b <;> simp_all

/-- The edges after adding one are those before it and the new one. -/
theorem mem_succsOf_addEdge (b o : BlockId) : o ∈ next.succsOf b ↔ o ∈ f.succsOf b ∨ (b = source ∧ o = t) := by
  rw [succsOf_addEdge added]
  split
  · rename_i isNew
    simp [isNew.1]
  · rename_i isOld
    constructor
    · exact .inl
    · rintro (present | ⟨rfl, rfl⟩)
      · exact present
      · exact Decidable.not_not.mp fun absent => isOld ⟨rfl, absent⟩

end

/-- Adding an edge keeps the two lists of each edge in step. -/
theorem Linked.addEdge (linked : f.Linked) (added : f.addEdge source t = .ok next) : next.Linked where
  ends b o := by
    rw [mem_succsOf_addEdge added, predsOf_addEdge added, linked.ends]
    have known : t ∈ f.succsOf source ↔ source ∈ f.predsOf t := linked.ends source t
    split
    · rename_i isNew
      simp [isNew.1]
    · rename_i isOld
      constructor
      · rintro (present | ⟨rfl, rfl⟩)
        · exact present
        · exact known.mp (Decidable.not_not.mp fun absent => isOld ⟨rfl, absent⟩)
      · exact .inl
  succsOnce b := by
    rw [succsOf_addEdge added]
    split
    · rename_i isNew
      obtain ⟨rfl, absent⟩ := isNew
      exact nodup_append.mpr ⟨linked.succsOnce b, by simp, by
        intro first present second isTarget
        simp only [mem_singleton] at isTarget
        rintro rfl
        exact absent (isTarget ▸ present)⟩
    · exact linked.succsOnce b
  predsOnce b := by
    rw [predsOf_addEdge added]
    split
    · rename_i isNew
      obtain ⟨rfl, absent⟩ := isNew
      exact nodup_append.mpr ⟨linked.predsOnce b, by simp, by
        intro first present second isSource
        simp only [mem_singleton] at isSource
        rintro rfl
        exact absent ((linked.ends source b).mpr (isSource ▸ present))⟩
    · exact linked.predsOnce b

section

variable (removed : f.removeEdge source t = .ok next)

include removed

/-- Removing an edge filters both of its lists. -/
theorem removeEdge_eq :
    next = (f.modify source fun b => { b with succs := b.succs.filter (· ≠ t) }).modify t
      fun b => { b with preds := b.preds.filter (· ≠ source) } := by
  obtain ⟨_, _, _, _, removed⟩ := bind_bind_inv removed
  exact (pure_inv removed).symm

/-- Removing an edge leaves everything else. -/
theorem removeEdge_sameButEdges : f.SameButEdges next := by
  rw [removeEdge_eq removed]
  refine (modify_sameButEdges f source ?_).trans (modify_sameButEdges _ t ?_) <;> exact fun _ => rfl

theorem succsOf_removeEdge (b : BlockId) :
    next.succsOf b = if b = source then (f.succsOf b).filter (· ≠ t) else f.succsOf b := by
  rw [removeEdge_eq removed]
  simp only [succsOf, block?_modify]
  by_cases isTarget : b = t <;> by_cases isSource : b = source <;>
    cases foundBlock : f.block? b <;> simp_all

theorem predsOf_removeEdge (b : BlockId) :
    next.predsOf b = if b = t then (f.predsOf b).filter (· ≠ source) else f.predsOf b := by
  rw [removeEdge_eq removed]
  simp only [predsOf, block?_modify]
  by_cases isTarget : b = t <;> by_cases isSource : b = source <;>
    cases foundBlock : f.block? b <;> simp_all

/-- The edges after removing one are the other ones. -/
theorem mem_succsOf_removeEdge (b o : BlockId) : o ∈ next.succsOf b ↔ o ∈ f.succsOf b ∧ ¬ (b = source ∧ o = t) := by
  rw [succsOf_removeEdge removed]
  split <;> simp_all

end

/-- Removing an edge keeps the two lists of each edge in step. -/
theorem Linked.removeEdge (linked : f.Linked) (removed : f.removeEdge source t = .ok next) : next.Linked where
  ends b o := by
    rw [mem_succsOf_removeEdge removed, predsOf_removeEdge removed, linked.ends]
    split
    · rename_i isTarget
      simp [isTarget]
    · rename_i isOther
      simp [isOther]
  succsOnce b := by
    rw [succsOf_removeEdge removed]
    split
    · exact (linked.succsOnce b).filter _
    · exact linked.succsOnce b
  predsOnce b := by
    rw [predsOf_removeEdge removed]
    split
    · exact (linked.predsOnce b).filter _
    · exact linked.predsOnce b

/-- What a sequence of operations on edges keeps: all but the edges, and that both ends are in step. -/
structure Relinked (f next : Func) : Prop where
  same : f.SameButEdges next
  linked : f.Linked → next.Linked

theorem Relinked.refl (f : Func) : f.Relinked f := ⟨.refl f, id⟩

/-- Changes of edges compose. -/
theorem Relinked.trans {last : Func} (first : f.Relinked next) (second : next.Relinked last) : f.Relinked last :=
  ⟨first.same.trans second.same, fun linked => second.linked (first.linked linked)⟩

/-- The edges of the items are removed one after the other. -/
theorem removeEdges_fold {f next : Func} {items : List BlockId} {source t : BlockId → BlockId}
    (removed : items.foldlM (fun f x => f.removeEdge (source x) (t x)) f = .ok next) :
    f.Relinked next ∧ ∀ b o, o ∈ next.succsOf b ↔ o ∈ f.succsOf b ∧ ¬ ∃ x ∈ items, b = source x ∧ o = t x := by
  induction items generalizing f with
  | nil =>
    obtain rfl := pure_inv removed
    exact ⟨.refl f, by simp⟩
  | cons x rest ih =>
    obtain ⟨middle, first, removed⟩ := bind_inv removed
    obtain ⟨relinked, edges⟩ := ih removed
    refine ⟨.trans ⟨removeEdge_sameButEdges first, fun linked => linked.removeEdge first⟩ relinked, ?_⟩
    intro b o
    rw [edges, mem_succsOf_removeEdge first]
    grind

/-- Removing the successors of a block removes the edges that leave it, and no others. -/
theorem removeSuccs_ok (removed : f.removeSuccs b = .ok next) :
    f.Relinked next ∧ ∀ source o, o ∈ next.succsOf source ↔ o ∈ f.succsOf source ∧ source ≠ b := by
  obtain ⟨body, found, removed⟩ := bind_inv removed
  obtain ⟨relinked, edges⟩ := @removeEdges_fold _ _ _ (fun _ => b) id removed
  refine ⟨relinked, fun source o => ?_⟩
  rw [edges, ← succsOf_eq (get_eq_ok.mp found)]
  grind

/-- Removing the predecessors of a block removes the edges that enter it, and no others. -/
theorem removePreds_ok (linked : f.Linked) (removed : f.removePreds b = .ok next) :
    f.Relinked next ∧ ∀ source o, o ∈ next.succsOf source ↔ o ∈ f.succsOf source ∧ o ≠ b := by
  obtain ⟨body, found, removed⟩ := bind_inv removed
  obtain ⟨relinked, edges⟩ := @removeEdges_fold _ _ _ id (fun _ => b) removed
  refine ⟨relinked, fun source o => ?_⟩
  have ends := linked.ends source b
  rw [edges, ← predsOf_eq (get_eq_ok.mp found)]
  grind

/-- Edges to a list of targets are added to those that are there. -/
theorem addEdges_fold {targets : List BlockId} (added : targets.foldlM (fun f t => f.addEdge source t) f = .ok next) :
    f.Relinked next ∧ ∀ b o, o ∈ next.succsOf b ↔ o ∈ f.succsOf b ∨ (b = source ∧ o ∈ targets) := by
  induction targets generalizing f with
  | nil =>
    obtain rfl := pure_inv added
    exact ⟨.refl f, by simp⟩
  | cons t rest ih =>
    obtain ⟨middle, first, added⟩ := bind_inv added
    obtain ⟨relinked, edges⟩ := ih added
    refine ⟨.trans ⟨addEdge_sameButEdges first, fun linked => linked.addEdge first⟩ relinked, ?_⟩
    intro b o
    rw [edges, mem_succsOf_addEdge first]
    grind

/-- Linking a block adds an edge for each of its exits. -/
theorem linkBlock_eq (f : Func) (source : BlockId) (following : Option BlockId) :
    f.linkBlock source following = f.get source >>= fun body =>
      (body.exits following).foldlM (fun f t => f.addEdge source t) f := by
  refine bind_congr fun body => ?_
  rw [Block.exits, foldlM_append]
  refine bind_congr fun middle => ?_
  cases following <;> cases body.fallsThrough <;> simp

/-- Linking a block adds the edges along which control can leave it. -/
theorem linkBlock_ok {following : Option BlockId} (linked : f.linkBlock source following = .ok next) :
    ∃ body, f.block? source = some body ∧ f.Relinked next ∧ ∀ b o,
      o ∈ next.succsOf b ↔ o ∈ f.succsOf b ∨ (b = source ∧ o ∈ body.exits following) := by
  rw [linkBlock_eq] at linked
  obtain ⟨body, found, linked⟩ := bind_inv linked
  exact ⟨body, get_eq_ok.mp found, addEdges_fold linked⟩

/-- Control can go from the block to the other one if the blocks are laid out in this order. -/
def Exits (f : Func) (b o : BlockId) : List BlockId → Prop
  | [] => False
  | source :: rest =>
    (b = source ∧ ∃ body, f.block? source = some body ∧ o ∈ body.exits rest.head?) ∨
      f.Exits b o rest

/-- Where control can go does not depend on the edges. -/
theorem exits_of_sameButEdges {o : BlockId} (same : f.SameButEdges next) (layout : List BlockId) :
    next.Exits b o layout ↔ f.Exits b o layout := by
  have exits {f next : Func} (same : f.SameButEdges next) {source : BlockId} {following : Option BlockId} :
      (∃ body, f.block? source = some body ∧ o ∈ body.exits following) →
        ∃ body, next.block? source = some body ∧ o ∈ body.exits following := by
    rintro ⟨body, found, exits⟩
    obtain ⟨counterpart, isFound, equal⟩ := same.found found
    have insts : body.insts = counterpart.insts := congrArg (·.insts) equal
    refine ⟨counterpart, isFound, ?_⟩
    rwa [Block.exits, Block.branchTargets, Block.fallsThrough, ← insts]
  induction layout with
  | nil => rfl
  | cons source rest ih => exact or_congr (and_congr_right fun _ => ⟨exits same.symm, exits same⟩) ih

/-- Linking a layout adds the edges along which control can leave its blocks. -/
theorem linkLayout_ok {sources : List BlockId} (linked : f.linkLayout sources = .ok next) : f.Relinked next ∧
    ∀ b o, o ∈ next.succsOf b ↔ o ∈ f.succsOf b ∨ f.Exits b o sources := by
  induction sources generalizing f with
  | nil =>
    obtain rfl := Except.ok.inj linked
    exact ⟨.refl f, by simp [Exits]⟩
  | cons source rest ih =>
    obtain ⟨middle, first, linked⟩ := bind_inv linked
    obtain ⟨body, found, relinked, edges⟩ := linkBlock_ok first
    obtain ⟨later, laterEdges⟩ := ih linked
    refine ⟨relinked.trans later, fun b o => ?_⟩
    rw [laterEdges, edges, exits_of_sameButEdges relinked.same, Exits, found]
    simp [or_assoc]

/-- Control leaves blocks of the layout only, for a target of a branch or a block of the layout. -/
theorem Exits.place {o : BlockId} {layout : List BlockId} (exits : f.Exits b o layout) :
    b ∈ layout ∧ ∃ body following, f.block? b = some body ∧ o ∈ body.exits following ∧
      ∀ next ∈ following, next ∈ layout := by
  induction layout with
  | nil => exact exits.elim
  | cons source rest ih =>
    rcases exits with ⟨rfl, body, found, exits⟩ | later
    · exact ⟨.head _, body, _, found, exits, fun next isNext => .tail _ (mem_of_mem_head? isNext)⟩
    · obtain ⟨inside, body, following, found, exits, laid⟩ := ih later
      exact ⟨.tail _ inside, body, following, found, exits, fun next isNext => .tail _ (laid next isNext)⟩

/-- A branch is an exit to its target. -/
theorem exits_of_target {layout : List BlockId} (inside : b ∈ layout) (found : f.block? b = some body)
    (branches : t ∈ body.branchTargets) : f.Exits b t layout := by
  induction inside with
  | head rest => exact .inl ⟨rfl, body, found, mem_append_left _ branches⟩
  | tail source _ ih => exact .inr ih

/-- Derived edges are in step, leave laid out blocks only, and reach every branch target. -/
structure Derived (f : Func) : Prop where
  linked : f.Linked
  sourced : ∀ b o, o ∈ f.succsOf b → b ∈ f.layout
  targets : ∀ b ∈ f.layout, ∀ body, f.block? b = some body →
    ∀ t ∈ body.branchTargets, t ∈ f.succsOf b

theorem succsOf_clearEdges (f : Func) (b : BlockId) : f.clearEdges.succsOf b = [] := by
  simp only [succsOf, block?, clearEdges, getElem?_map]
  cases f.blocks[b.index]? <;> rfl

theorem predsOf_clearEdges (f : Func) (b : BlockId) : f.clearEdges.predsOf b = [] := by
  simp only [predsOf, block?, clearEdges, getElem?_map]
  cases f.blocks[b.index]? <;> rfl

/-- Without edges, the lists are in step. -/
theorem clearEdges_linked (f : Func) : f.clearEdges.Linked where
  ends source t := by simp [succsOf_clearEdges, predsOf_clearEdges]
  succsOnce b := by simp [succsOf_clearEdges]
  predsOnce b := by simp [predsOf_clearEdges]

theorem clearEdges_same (f : Func) : f.SameButEdges f.clearEdges := by
  simp [SameButEdges, clearEdges, Function.comp_def]

/-- The derived edges are those along which control can leave a block of the layout. -/
theorem deriveEdges_exits (derived : f.deriveEdges = .ok next) : f.SameButEdges next ∧ next.Linked ∧
    ∀ b o, o ∈ next.succsOf b ↔ next.Exits b o next.layout := by
  obtain ⟨relinked, edges⟩ := linkLayout_ok derived
  have same := f.clearEdges_same.trans relinked.same
  refine ⟨same, relinked.linked f.clearEdges_linked, fun b o => ?_⟩
  rw [edges, succsOf_clearEdges, exits_of_sameButEdges relinked.same, ← same.layout]
  simp

/-- Edges are derived only if every block of the layout is there. -/
theorem deriveEdges_found (derived : f.deriveEdges = .ok next) : ∀ b ∈ f.layout, ∃ body, f.block? b = some body := by
  have linked {sources : List BlockId} {start : Func} (linked : start.linkLayout sources = .ok next) :
      ∀ source ∈ sources, source.index < start.blocks.length := by
    induction sources generalizing start with
    | nil => simp
    | cons source rest ih =>
      obtain ⟨middle, first, linked⟩ := bind_inv linked
      obtain ⟨body, found, relinked, _⟩ := linkBlock_ok first
      exact forall_mem_cons.mpr ⟨lt_length found, relinked.same.blocks ▸ ih linked⟩
  intro b inside
  exact ⟨_, getElem?_eq_getElem (f.clearEdges_same.blocks ▸ linked derived b inside)⟩

/-- Deriving edges changes edges only, and leaves those that the code calls for. -/
theorem deriveEdges_ok (derived : f.deriveEdges = .ok next) : f.SameButEdges next ∧ next.Derived := by
  obtain ⟨same, linked, edges⟩ := deriveEdges_exits derived
  refine ⟨same, linked, fun b o edge => ((edges b o).mp edge).place.1, ?_⟩
  exact fun b inside body found t branches => (edges b t).mpr (exits_of_target inside found branches)

end Func

end SinglePath
