import SinglePath.Proofs.Func.Edges
import SinglePath.Proofs.ScopeTree.Answered
import SinglePath.Proofs.Tables

/-!
An accepted tree is a tree: its walk meets every scope and every block once, each in its place.
-/

namespace SinglePath

open List Relation WalkEvent

namespace ScopeTree

variable {tree : ScopeTree} {func : Func} {entered : List ScopeId} {members : Table BlockId ScopeId}
    {id outer : ScopeId}
  {s : Scope} {b : BlockId} {nodes : List ScopeNode} {es : List WalkEvent}

/-- The block lies in the scope or in a loop inside it. -/
def Encloses (tree : ScopeTree) (outer : ScopeId) (b : BlockId) : Prop :=
  ∃ home body, tree.get home = .ok body ∧ b ∈ body.blocks ∧ ReflTransGen (Child tree) home outer

/-- How the walk of an accepted tree goes, and what the facts say about it. -/
structure Arranged (tree : ScopeTree) (func : Func) (facts : ScopeFacts) (es : List WalkEvent) : Prop where
  walked : tree.walk = .ok es
  nested : Walks tree [.subscope root] es
  entersOnce : (es.filterMap WalkEvent.entered).Nodup
  leavesOnce : (es.filterMap WalkEvent.left).Nodup
  meetsOnce : (es.filterMap WalkEvent.met).Nodup
  enters : ∀ id, id ∈ es.filterMap WalkEvent.entered ↔ ∃ s, tree.get id = .ok s
  leaves : ∀ id, id ∈ es.filterMap WalkEvent.left ↔ ∃ s, tree.get id = .ok s
  inner : ∀ inner outer, Child tree inner outer → [.enter outer, .enter inner, .exit inner, .exit outer] <+ es
  laid : ∀ b ∈ func.layout, b ∈ es.filterMap WalkEvent.met
  homes : ∀ b ∈ es.filterMap WalkEvent.met, ∃ home body, facts.blockScope.get? b = some home ∧
    tree.get home = .ok body ∧ b ∈ body.blocks ∧ [.enter home, .block b, .exit home] <+ es
  defs : ∀ id s, tree.get id = .ok s → ∀ definition ∈ s.defs,
    (definition.source ∈ s.blocks ∨ ∃ loop ∈ s.subscopes, ∃ inner, tree.get loop = .ok inner ∧
      inner.header = definition.source) ∧ tree.blockPred definition.source = some definition.guard
  exits : ∀ id s, tree.get id = .ok s → s.isTopLevel = false → ∃ exits,
    facts.exits.get? id = some exits ∧ exits.Nodup ∧ ∀ b, b ∈ exits ↔
      ¬ Encloses tree id b ∧ ∃ u ∈ func.layout, Encloses tree id u ∧ b ∈ func.succsOf u

theorem Walks.nodes_met (walks : Walks tree nodes es) : (∀ b, .block b ∈ nodes → [.block b] <+ es) ∧
      ∀ loop, .subscope loop ∈ nodes → [.enter loop, .exit loop] <+ es := by
  induction walks with
  | nil => simp
  | block later ih =>
    refine ⟨fun b listed => ?_, fun loop listed => (ih.2 loop (by simpa using listed)).cons _⟩
    rcases mem_cons.mp listed with same | isLater
    · exact ScopeNode.block.inj same ▸ (nil_sublist _).cons_cons _
    · exact (ih.1 b isLater).cons _
  | loop found inner later _ laterIh =>
    refine ⟨fun b listed => ?_, fun loop listed => ?_⟩
    · exact (((laterIh.1 b (by simpa using listed)).cons _).trans (sublist_append_right ..)).cons _
    · rcases mem_cons.mp listed with same | isLater
      · exact ScopeNode.subscope.inj same ▸ (singleton_sublist.mpr (by simp)).cons_cons _
      · exact (((laterIh.2 loop isLater).cons _).trans (sublist_append_right ..)).cons _

namespace Valid

variable (valid : Valid tree func entered members)

include valid

theorem parent_iff (found : tree.get id = .ok s) : s.parent = some outer ↔ Child tree id outer := by
  constructor
  · intro isParent
    rcases valid.nested (valid.covered found) with rfl | ⟨parent, body, foundParent, listed⟩
    · obtain ⟨top, foundTop, noParent, _⟩ := valid.top
      obtain rfl := ok_unique found foundTop
      simp [noParent] at isParent
    · obtain ⟨inner, foundInner, isOuter, _⟩ := (valid.checked foundParent).children id listed
      obtain rfl := ok_unique found foundInner
      obtain rfl : parent = outer := by simpa [isOuter] using isParent
      exact ⟨body, foundParent, listed⟩
  · rintro ⟨body, foundOuter, listed⟩
    obtain ⟨inner, foundInner, isParent, _⟩ := (valid.checked foundOuter).children id listed
    exact ok_unique found foundInner ▸ isParent

theorem member_iff : members.get? b = some id ↔ ∃ body, tree.get id = .ok body ∧ b ∈ body.blocks := by
  refine ⟨valid.homes, ?_⟩
  rintro ⟨body, found, inside⟩
  exact (valid.checked found).home b inside

theorem climbs (found : tree.get id = .ok s) : Climbs tree tree.scopes.length (some id) := by
  obtain ⟨top, foundTop, noParent, _⟩ := valid.top
  obtain ⟨es, walked, isEntered⟩ := scopesInOrder_ok foundTop valid.order
  have above : ∀ body, tree.get root = .ok body → Climbs tree 0 body.parent := fun body isTop => by
    rw [ok_unique isTop foundTop, noParent]
    exact .top 0
  refine Nat.zero_add tree.scopes.length ▸ climbs_of_entered walked above ?_ (isEntered ▸ valid.covered found)
  intro outer _ body foundOuter child listed
  obtain ⟨inner, foundInner, isParent, _⟩ := (valid.checked foundOuter).children child listed
  exact ⟨inner, foundInner, isParent⟩

theorem isWithin_iff {steps : Nat} {start : Option ScopeId} (climbs : Climbs tree steps start) :
    tree.isWithin outer steps start = true ↔ ∃ id, start = some id ∧ ReflTransGen (Child tree) id outer := by
  induction climbs with
  | top => simp [isWithin]
  | link found _ ih =>
    rw [isWithin, present_eq_ok.mp found, Option.bind_some, Bool.or_eq_true, ih, decide_eq_true_eq]
    simp only [valid.parent_iff found, Option.some.injEq, exists_eq_left']
    rw [ReflTransGen.cases_head_iff]

theorem holdsBlock_iff : tree.holdsBlock members outer b = true ↔ Encloses tree outer b := by
  rw [holdsBlock, valid.isWithin_iff]
  · simp only [valid.member_iff, Encloses, ← exists_and_right, and_assoc]
  · cases isHome : members.get? b with
    | none => exact .top _
    | some home =>
      obtain ⟨body, found, _⟩ := valid.homes isHome
      exact valid.climbs found

end Valid

section

variable {exits all : List BlockId}

theorem mem_foldl_collect (succs : List BlockId) (once : exits.Nodup) :
    let all := succs.foldl (fun exits succ => if succ ∈ exits then exits else exits ++ [succ]) exits
    all.Nodup ∧ ∀ b, b ∈ all ↔ b ∈ exits ∨ b ∈ succs := by
  induction succs generalizing exits with
  | nil => simpa using once
  | cons succ rest ih =>
    rw [foldl_cons]
    split
    · next listed =>
      refine ⟨(ih once).1, fun b => ?_⟩
      grind
    · next fresh =>
      obtain ⟨allOnce, mem_all⟩ := ih (once.append (nodup_singleton succ) (by simpa using fresh))
      exact ⟨allOnce, fun b => by simp [mem_all, or_assoc]⟩

/-- The exits of a scope are the successors outside it of the blocks inside it, each once. -/
theorem exitsFrom_ok {blocks : List BlockId} (once : exits.Nodup)
    (res : tree.exitsFrom members func id blocks exits = .ok all) :
    all.Nodup ∧ ∀ b, b ∈ all ↔ b ∈ exits ∨ tree.holdsBlock members id b = false ∧
      ∃ u ∈ blocks, tree.holdsBlock members id u = true ∧ b ∈ func.succsOf u := by
  induction blocks generalizing exits with
  | nil =>
    obtain rfl := Except.ok.inj res
    simpa using once
  | cons first rest ih =>
    rw [exitsFrom] at res
    split at res
    · next isHeld =>
      obtain ⟨body, got, res⟩ := bind_inv res
      obtain ⟨nextOnce, mem_next⟩ := mem_foldl_collect
        (body.succs.filter fun succ => !tree.holdsBlock members id succ) once
      obtain ⟨allOnce, mem_all⟩ := ih nextOnce res
      refine ⟨allOnce, fun b => ?_⟩
      rw [mem_all, mem_next, ← Func.succsOf_eq (Func.get_eq_ok.mp (liftM_inv got)), mem_filter]
      grind
    · next isOutside =>
      obtain ⟨allOnce, mem_all⟩ := ih once res
      refine ⟨allOnce, fun b => ?_⟩
      rw [mem_all]
      grind

theorem allExits_ok {index : Nat} {scopes : List Scope} {all : List (ScopeId × List BlockId)}
    (res : tree.allExits members func index scopes = .ok all) :
    (all.map (·.1)).Nodup ∧ (∀ e ∈ all, index ≤ e.1.index) ∧
      ∀ i s, scopes[i]? = some s → s.isTopLevel = false → ∃ exits, (⟨index + i⟩, exits) ∈ all ∧
          tree.exitsFrom members func ⟨index + i⟩ func.layout [] = .ok exits := by
  induction scopes generalizing index all with
  | nil =>
    cases res
    simp
  | cons first rest ih =>
    rw [allExits] at res
    split at res
    · next isTop =>
      obtain ⟨once, larger, each⟩ := ih res
      refine ⟨once, fun e listed => Nat.le_of_succ_le (larger e listed), fun i s found isLoop => ?_⟩
      cases i with
      | zero => simp_all
      | succ i => exact Nat.succ_add_eq_add_succ .. ▸ each i s found isLoop
    · obtain ⟨own, isOwn, others, isOthers, rfl⟩ := bind_bind_pure_inv res
      obtain ⟨once, larger, each⟩ := ih isOthers
      refine ⟨nodup_cons.mpr ⟨fun listed => ?_, once⟩, ?_, fun i s found isLoop => ?_⟩
      · obtain ⟨e, isEntry, same⟩ := mem_map.mp listed
        have more := larger e isEntry
        rw [same] at more
        exact Nat.not_succ_le_self index more
      · exact forall_mem_cons.mpr ⟨Nat.le_refl index, fun e listed => Nat.le_of_succ_le (larger e listed)⟩
      · cases i with
        | zero => exact ⟨own, .head _, isOwn⟩
        | succ i =>
          obtain ⟨exits, listed, isExits⟩ := each i s found isLoop
          exact ⟨exits, .tail _ (Nat.succ_add_eq_add_succ .. ▸ listed), Nat.succ_add_eq_add_succ .. ▸ isExits⟩

theorem exits_of_validate {facts : ScopeFacts} (validated : tree.validate func = .ok facts)
    (found : tree.get id = .ok s) (isLoop : s.isTopLevel = false) : ∃ exits, facts.exits.get? id = some exits ∧
      exits.Nodup ∧ ∀ b, b ∈ exits ↔ tree.holdsBlock facts.blockScope id b = false ∧
        ∃ u ∈ func.layout, tree.holdsBlock facts.blockScope id u = true ∧ b ∈ func.succsOf u := by
  obtain ⟨_, _, entered, _, validated⟩ := bind_bind_inv validated
  obtain ⟨members, _, _, _, validated⟩ := bind_bind_inv validated
  obtain ⟨_, _, _, _, validated⟩ := bind_bind_inv validated
  obtain ⟨all, isAll, rfl⟩ := bind_pure_inv validated
  obtain ⟨once, _, each⟩ := allExits_ok isAll
  obtain ⟨exits, listed, isExits⟩ := each id.index s (get_eq_ok.mp found) isLoop
  rw [Nat.zero_add] at listed isExits
  refine ⟨exits, Table.get?_ofList once listed, ?_⟩
  simpa using exitsFrom_ok nodup_nil isExits

end

/-- An accepted tree is walked from the root through all of its scopes and blocks, each once and in its place; its
definitions leave their own blocks and loops; and the exits of its loops are the edges that leave them. -/
theorem validate_arranged {facts : ScopeFacts} (validated : tree.validate func = .ok facts) :
    ∃ events, Arranged tree func facts events := by
  obtain ⟨_, valid⟩ := validate_valid validated
  obtain ⟨events, walked, rfl, walks⟩ := valid.walked
  have enters (id : ScopeId) : id ∈ events.filterMap WalkEvent.entered ↔ ∃ scope, tree.get id = .ok scope := by
    refine ⟨valid.found, ?_⟩
    rintro ⟨scope, found⟩
    exact valid.covered found
  refine ⟨events, walked, walks, valid.once, walks.left_perm.nodup_iff.mpr valid.once,
    valid.met_nodup rfl walks, enters,
    fun id => walks.left_perm.mem_iff.trans (enters id), ?_, ?_, ?_, ?_, ?_⟩
  · rintro inner outer ⟨content, found, listed⟩
    obtain ⟨before, inside, after, other, rfl, otherFound, within⟩ := walks.segment (valid.covered found)
    obtain rfl := ok_unique found otherFound
    have part := within.nodes_met.2 inner (Scope.mem_subscopes.mp listed)
    exact ((part.append ((nil_sublist after).cons_cons _)).cons_cons _).trans (sublist_append_right ..)
  · intro block inside
    obtain ⟨home, isHome⟩ := valid.placed inside
    exact (valid.mem_met rfl walks).mpr ⟨home, valid.homes isHome⟩
  · intro block isMet
    obtain ⟨home, content, found, listed⟩ := (valid.mem_met rfl walks).mp isMet
    obtain ⟨before, inside, after, other, rfl, otherFound, within⟩ := walks.segment (valid.covered found)
    obtain rfl := ok_unique found otherFound
    have part := within.nodes_met.1 block (Scope.mem_blocks.mp listed)
    exact ⟨home, content, valid.member_iff.mpr ⟨content, found, listed⟩, found, listed,
      ((part.append ((nil_sublist after).cons_cons _)).cons_cons _).trans (sublist_append_right ..)⟩
  · intro id scope found definition listed
    obtain ⟨exited, exits⟩ := valid.childWithHeader_ok found definition.source
    have source := valid.source_mem found listed exits
    refine ⟨?_, (valid.defs found listed).guarded⟩
    cases exited with
    | none => exact .inl source
    | some loop => exact .inr ⟨loop, source⟩
  · intro id scope found isLoop
    obtain ⟨exits, isExits, once, mem_exits⟩ := exits_of_validate validated found isLoop
    refine ⟨exits, isExits, once, fun block => ?_⟩
    simp only [mem_exits, ← valid.holdsBlock_iff, Bool.not_eq_true]

def forkFunc : Func where
  name := "fork"
  blocks := [{ name := "entry", succs := [⟨1⟩] },
    { name := "loop", succs := [⟨2⟩, ⟨3⟩], preds := [⟨0⟩, ⟨2⟩] },
    { name := "again", succs := [⟨1⟩, ⟨3⟩], preds := [⟨1⟩] },
    { name := "done", preds := [⟨1⟩, ⟨2⟩] }]
  layout := [⟨0⟩, ⟨1⟩, ⟨2⟩, ⟨3⟩]

def forkTree : ScopeTree where
  scopes := [⟨none, 0, ⟨0⟩, [.block ⟨0⟩, .subscope ⟨1⟩, .block ⟨3⟩], [⟨⟨1⟩, ⟨0⟩, ⟨0⟩, ⟨1⟩, none⟩], none⟩,
    ⟨some root, 1, ⟨1⟩, [.block ⟨1⟩, .block ⟨2⟩], [⟨⟨1⟩, ⟨1⟩, ⟨2⟩, ⟨1⟩, some (.holds ⟨1⟩)⟩], none⟩]
  blockPreds := ⟨[(⟨0⟩, ⟨0⟩), (⟨1⟩, ⟨1⟩), (⟨2⟩, ⟨1⟩), (⟨3⟩, ⟨0⟩)]⟩
  predCount := 2

theorem validate_arranged_fork : ∃ facts events, forkTree.validate forkFunc = .ok facts ∧
    facts.exits.get? ⟨1⟩ = some [⟨3⟩] ∧ Arranged forkTree forkFunc facts events := by
  obtain ⟨facts, validated, left⟩ : ∃ facts, forkTree.validate forkFunc = .ok facts ∧
      facts.exits.get? ⟨1⟩ = some [⟨3⟩] := ⟨_, rfl, by decide⟩
  obtain ⟨events, arranged⟩ := validate_arranged validated
  exact ⟨facts, events, validated, left, arranged⟩

end ScopeTree

end SinglePath
