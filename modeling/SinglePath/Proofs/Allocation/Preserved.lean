import SinglePath.Proofs.Allocation.SafeReplay

namespace SinglePath

open List Option ScopeEvents

variable {pred : PredId}

/-- The point lies between the first and the last event of the predicate. -/
def ScopeEvents.Spans (s : ScopeEvents) (pred : PredId) (p : Nat) : Prop :=
  ∃ first last, (s.eventsOf pred).head? = some first ∧ (s.eventsOf pred).getLast? = some last ∧
    first.point ≤ p ∧ p ≤ last.point

theorem ScopeEvents.Spans.live {s : ScopeEvents} {p : Nat} (spans : s.Spans pred p) :
    s.start pred ≤ p ∧ p < s.finish pred := by
  obtain ⟨first, last, isFirst, isLast, starts, finishes⟩ := spans
  constructor
  · unfold start
    split
    · exact Nat.zero_le p
    · simpa [isFirst] using starts
  · simp only [finish, isLast, map_some, getD_some]
    omega

namespace ScopeTree

/-- The scopes on the way from a scope down to one that lies in it, both included. -/
inductive Descends (tree : ScopeTree) : ScopeId → List ScopeId → ScopeId → Prop where
  | here {id : ScopeId} : Descends tree id [id] id
  | inward {id child last : ScopeId} {content : Scope} {path : List ScopeId} (got : tree.get id = .ok content)
      (listed : child ∈ content.subscopes) (below : Descends tree child path last) :
      Descends tree id (id :: path) last

variable {tree : ScopeTree} {func : Func} {entered : List ScopeId} {members : Table BlockId ScopeId}
  {registers r : Nat} {allocs : List ScopeAllocation} {id : ScopeId} {content : Scope} {alloc : ScopeAllocation}

theorem assigned_of_listed (allocated : tree.allocate registers = .ok allocs) (got : tree.get id = .ok content)
    (isAlloc : allocs[id.index]? = some alloc) :
    ∃ context es result, Assigned tree registers id alloc context es result := by
  obtain ⟨same, context, es, result, listed, assigned⟩ := allocate_assigned allocated got
  obtain rfl := mem_unique listed isAlloc
  exact ⟨context, es, result, assigned⟩

section

variable {context : ScopeContext} {es : ScopeEvents} {result : ScopeResult}

variable (valid : Valid tree func entered members) (assigned : Assigned tree registers id alloc context es result)

include valid assigned

theorem Assigned.holder_mem (held : alloc.defLoc pred = .register r) :
    ⟨pred, r, es.start pred, es.finish pred⟩ ∈ result.holders := by
  obtain ⟨content, placed, locs, firstFree, states, comp⟩ := assigned.computed valid
  have notAlways : some pred ≠ es.alwaysTrue := by
    intro isAlways
    rw [comp.constant pred isAlways] at held
    cases held
  rw [comp.defLoc pred notAlways] at held
  refine comp.located.held.mpr ⟨?_, rfl, rfl⟩
  cases located : locs.get? pred with
  | none => simp [located] at held
  | some location => simpa [located] using held

/-- A loop that uses a register of its preserve set saves the bank. -/
theorem Assigned.savesBank (got : tree.get id = .ok content)
    (isLoop : content.isTopLevel = false) (preserved : r ∈ alloc.preserve.members)
    (used : r ∈ alloc.usedRegs.members) : alloc.savesBank = true := by
  obtain ⟨same, placed, locs, firstFree, states, comp⟩ := assigned.computed valid
  obtain rfl := ok_unique comp.collected.found got
  have inherited : alloc.preserve = context.preserve := by
    rw [← assigned.same]
    exact preserve_of_allocate assigned.allocated
  rw [comp.saves, comp.collected.placedTop, isLoop, Bool.not_false, Bool.true_and, List.any_eq_true]
  refine ⟨r, used, ?_⟩
  rw [← inherited]
  simpa [NumberSet.contains] using preserved

end

/-- A loop hands its preserve set on to the loops in it, unless it saves the bank. -/
theorem preserve_inner (valid : Valid tree func entered members) (allocated : tree.allocate registers = .ok allocs)
    (got : tree.get id = .ok content) {child : ScopeId} (listed : child ∈ content.subscopes)
    (isAlloc : allocs[id.index]? = some alloc) {inner : ScopeAllocation} (isInner : allocs[child.index]? = some inner)
    (unsaved : alloc.savesBank = false) (preserved : r ∈ alloc.preserve.members) : r ∈ inner.preserve.members := by
  obtain ⟨context, es, result, assigned⟩ := assigned_of_listed allocated got isAlloc
  obtain ⟨innerContent, innerFound, _, _⟩ := (valid.checked got).children child listed
  obtain ⟨innerContext, innerEvents, innerResult, innerAssigned⟩ := assigned_of_listed allocated innerFound isInner
  obtain rfl := innerAssigned.inherits.unique valid
    (.inner assigned.inherits got assigned.collected assigned.allocated listed)
  have outerSet : alloc.preserve = context.preserve := by
    rw [← assigned.same]
    exact preserve_of_allocate assigned.allocated
  have innerSet : inner.preserve = (result.childContext es context registers child).preserve := by
    rw [← innerAssigned.same]
    exact preserve_of_allocate innerAssigned.allocated
  have resultUnsaved : result.alloc.savesBank = false := by rw [assigned.same, unsaved]
  rw [innerSet]
  simp only [ScopeResult.childContext, NumberSet.mem_ofList, mem_append, resultUnsaved, Bool.false_eq_true, if_false]
  exact .inr (outerSet ▸ preserved)

/-- On the way from a loop with the register in its preserve set down to a loop that uses the register, some loop saves
the bank. -/
theorem savesBank_of_descends (valid : Valid tree func entered members)
    (allocated : tree.allocate registers = .ok allocs) {path : List ScopeId} {last : ScopeId}
    (descends : Descends tree id path last) (got : tree.get id = .ok content) (isLoop : content.isTopLevel = false)
    (isAlloc : allocs[id.index]? = some alloc) (preserved : r ∈ alloc.preserve.members)
    {deepest : ScopeAllocation} (isDeepest : allocs[last.index]? = some deepest) (used : r ∈ deepest.usedRegs.members) :
    ∃ s ∈ path, ∃ saving, allocs[s.index]? = some saving ∧ saving.savesBank = true := by
  induction descends generalizing content alloc with
  | @here id =>
    obtain rfl := mem_unique isAlloc isDeepest
    obtain ⟨context, es, result, assigned⟩ := assigned_of_listed allocated got isAlloc
    exact ⟨id, mem_singleton_self id, alloc, isAlloc, assigned.savesBank valid got isLoop preserved used⟩
  | @inward id child last outer path foundOuter listed below ih =>
    obtain rfl := ok_unique foundOuter got
    cases saves : alloc.savesBank with
    | true => exact ⟨id, .head _, alloc, isAlloc, saves⟩
    | false =>
      obtain ⟨inner, innerFound, _, _⟩ := (valid.checked got).children child listed
      obtain ⟨innerAlloc, _, _, _, isInner, _⟩ := allocate_assigned allocated innerFound
      obtain ⟨s, isOnPath, saving⟩ := ih innerFound
        (valid.child_isLoop got (Scope.mem_subscopes.mp listed) innerFound) isInner
        (preserve_inner valid allocated got listed isAlloc isInner saves preserved) isDeepest
      exact ⟨s, mem_cons_of_mem id isOnPath, saving⟩

/-- If a predicate of a scope lives in a register and its events lie on both sides of the point where the definitions on
the exits of a loop happen, then the loop preserves the register, and wherever in the loop the register is used, some
scope from the loop down to there saves the bank. -/
theorem allocate_live_preserved {facts : ScopeFacts} (validated : tree.validate func = .ok facts)
    (allocated : tree.allocate registers = .ok allocs) (found : tree.get id = .ok content) {events : ScopeEvents}
    (collected : ScopeEvents.ofScope tree id = .ok events) (isAlloc : allocs[id.index]? = some alloc) {pred : PredId}
    {reg : Nat} (held : alloc.defLoc pred = .register reg) {position : Nat} {loop : ScopeId}
    (isNode : content.nodes[position]? = some (.subscope loop)) (spans : events.Spans pred (2 * position + 1)) :
    (∃ inner, allocs[loop.index]? = some inner ∧ reg ∈ inner.preserve.members) ∧
      ∀ path deep used, Descends tree loop path deep → allocs[deep.index]? = some used → reg ∈ used.usedRegs.members →
        ∃ scope ∈ path, ∃ saving, allocs[scope.index]? = some saving ∧ saving.savesBank = true := by
  obtain ⟨entered, valid⟩ := validate_valid validated
  obtain ⟨context, sameEvents, result, assigned⟩ := assigned_of_listed allocated found isAlloc
  obtain rfl : sameEvents = events := ok_unique assigned.collected collected
  obtain ⟨sameContent, placed, gathered⟩ := ScopeEvents.ofScope_collected collected
  obtain rfl : sameContent = content := ok_unique gathered.found found
  obtain ⟨site, siteFound, isSite⟩ : ∃ site, sameEvents.sites[position]? = some site ∧ site.node = .subscope loop := by
    have inRange : position < sameEvents.sites.length := by
      rw [mapM_length gathered.sited]
      exact (lt_length isNode)
    have siteFound := List.getElem?_eq_getElem inRange
    exact ⟨_, siteFound, Option.some.inj ((site_of_node gathered siteFound).1.symm.trans isNode)⟩
  have isChild : loop ∈ sameContent.subscopes := Scope.mem_subscopes.mpr (List.mem_of_getElem? isNode)
  obtain ⟨inner, innerFound, _, _⟩ := (valid.checked found).children loop isChild
  obtain ⟨innerAlloc, _, _, _, isInner, _⟩ := allocate_assigned allocated innerFound
  have preserved : reg ∈ innerAlloc.preserve.members := by
    have live := preserved_of_live valid allocated found assigned gathered siteFound isSite
      (assigned.holder_mem valid held) spans.live.1 spans.live.2
    simpa only [preservedBy, isInner] using live
  have isLoop := valid.child_isLoop found (Scope.mem_subscopes.mp isChild) innerFound
  refine ⟨⟨innerAlloc, isInner, preserved⟩, fun path deep used descends isDeep isUsed => ?_⟩
  exact savesBank_of_descends valid allocated descends innerFound isLoop isInner preserved isDeep isUsed

/-- A loop in a loop, between the definition of a predicate in the first block and its use in the last. With two
registers the outer loop needs only the free one, and the inner loop takes the one that must be preserved. -/
def nestTree : ScopeTree where
  scopes := [
    ⟨none, 0, ⟨0⟩, [.block ⟨0⟩, .subscope ⟨1⟩, .block ⟨4⟩],
      [⟨⟨1⟩, ⟨0⟩, ⟨0⟩, ⟨4⟩, some (.holds ⟨1⟩)⟩, ⟨⟨2⟩, ⟨0⟩, ⟨0⟩, ⟨1⟩, none⟩], none⟩,
    ⟨some ⟨0⟩, 1, ⟨1⟩, [.block ⟨1⟩, .subscope ⟨2⟩, .block ⟨3⟩], [⟨⟨2⟩, ⟨2⟩, ⟨3⟩, ⟨1⟩, some (.holds ⟨1⟩)⟩], none⟩,
    ⟨some ⟨1⟩, 2, ⟨2⟩, [.block ⟨2⟩], [⟨⟨2⟩, ⟨2⟩, ⟨2⟩, ⟨2⟩, some (.holds ⟨1⟩)⟩], none⟩]
  blockPreds := ⟨[(⟨0⟩, ⟨0⟩), (⟨1⟩, ⟨2⟩), (⟨2⟩, ⟨2⟩), (⟨3⟩, ⟨2⟩), (⟨4⟩, ⟨1⟩)]⟩
  predCount := 3

theorem nestTree_live_preserved :
    ∃ facts allocs content events alloc outer inner, nestTree.validate rowFunc = .ok facts ∧
      nestTree.allocate 2 = .ok allocs ∧ nestTree.get root = .ok content ∧
      ScopeEvents.ofScope nestTree root = .ok events ∧ allocs[0]? = some alloc ∧ alloc.defLoc ⟨1⟩ = .register 0 ∧
      content.nodes[1]? = some (.subscope ⟨1⟩) ∧ events.Spans ⟨1⟩ (2 * 1 + 1) ∧ allocs[1]? = some outer ∧
      outer.savesBank = false ∧ allocs[2]? = some inner ∧ 0 ∈ inner.usedRegs.members ∧
      Descends nestTree ⟨1⟩ [⟨1⟩, ⟨2⟩] ⟨2⟩ ∧
      (∃ inner, allocs[1]? = some inner ∧ 0 ∈ inner.preserve.members) ∧
        ∃ scope ∈ [(⟨1⟩ : ScopeId), ⟨2⟩], ∃ saving, allocs[scope.index]? = some saving ∧ saving.savesBank = true := by
  obtain ⟨facts, validated⟩ : ∃ facts, nestTree.validate rowFunc = .ok facts := ⟨_, rfl⟩
  obtain ⟨content, found, isNode⟩ : ∃ content, nestTree.get root = .ok content ∧
      content.nodes[1]? = some (.subscope ⟨1⟩) := ⟨_, rfl, rfl⟩
  obtain ⟨events, collected, listed⟩ : ∃ events, ScopeEvents.ofScope nestTree root = .ok events ∧
      events.eventsOf ⟨1⟩ = [⟨1, .define true⟩, ⟨4, .use (.block ⟨4⟩)⟩] := ⟨_, rfl, rfl⟩
  obtain ⟨alloc, outer, inner, allocated, held, unsaved, used⟩ : ∃ alloc outer inner,
      nestTree.allocate 2 = .ok [alloc, outer, inner] ∧ alloc.defLoc ⟨1⟩ = .register 0 ∧ outer.savesBank = false ∧
        0 ∈ inner.usedRegs.members := ⟨_, _, _, rfl, rfl, rfl, by decide⟩
  have spans : events.Spans ⟨1⟩ (2 * 1 + 1) :=
    ⟨⟨1, .define true⟩, ⟨4, .use (.block ⟨4⟩)⟩, by rw [listed]; rfl, by rw [listed]; rfl, by decide, by decide⟩
  have descends : Descends nestTree ⟨1⟩ [⟨1⟩, ⟨2⟩] ⟨2⟩ := .inward rfl (by decide) .here
  obtain ⟨preserved, saved⟩ := allocate_live_preserved validated allocated found collected rfl held isNode spans
  exact ⟨facts, _, content, events, alloc, outer, inner, validated, allocated, found, collected, rfl, held,
    isNode, spans,
    rfl, unsaved, rfl, used, descends, preserved, saved _ _ _ descends rfl used⟩

end ScopeTree

end SinglePath
