import SinglePath.Proofs.Allocation.Assigned

/-!
Every replay of every scope of a valid tree is safe: each guard, each loop, each merging definition and each branch back
finds the current value of its predicate.
-/

namespace SinglePath

open List Nat Option Replay Scope ScopeAllocation ScopeEvents

variable {tree : ScopeTree} {id : ScopeId} {content : Scope} {placed : List PlacedDef} {ctx : ScopeContext}
  {alloc : ScopeAllocation} {i : Nat} {site : NodeSite} {allocs : List ScopeAllocation}

open ScopeEvents (Collected)
open Computed (Ready siteActions defAction)

/-- The registers that a loop preserves, by its allocation. -/
def preservedBy (allocs : List ScopeAllocation) (loop : ScopeId) : NumberSet :=
  match allocs[loop.index]? with
  | some alloc => alloc.preserve
  | none => .empty

namespace Computed

variable {scope : ScopeEvents} {locs : Table PredId Location} {holders : List Holder} {firstFree : Nat}
  {states : Nat → Placement.State} {pred : PredId}
  (comp : Computed tree id content placed scope ctx locs holders firstFree states alloc)

include comp

theorem isConstant_iff : tree.isConstant content pred = true ↔ some pred = scope.alwaysTrue := by
  have coll := comp.collected
  rw [coll.constant, ScopeTree.isConstant, coll.guarded]
  cases content.isTopLevel && tree.wholeFunction with
  | false => simp
  | true => simpa using eq_comm

theorem defActions_eq (got : scope.sites[i]? = some site) :
    alloc.defActions content.defs site.block = (defsAt placed i).map (defAction scope alloc) := by
  have coll := comp.collected
  unfold defActions
  rw [← placeDefs_indexed coll.located, List.filter_map, List.map_map, comp.firstDefs]
  refine congrArg _ (filter_congr ?_)
  intro x mem
  obtain ⟨sourceSite, sourceFound, u⟩ := coll.site_of_def mem
  simp only [Function.comp_apply, decide_eq_decide]
  constructor
  · intro same
    exact comp.sited.distinct sourceFound got (u.trans same)
  · rintro rfl
    obtain rfl := mem_unique got sourceFound
    exact u.symm

theorem nodeActions_eq (got : scope.sites[i]? = some site) (guards : site.pred = some pred)
    (allocated : ∀ loop, site.node = .subscope loop → ∃ inner, allocs[loop.index]? = some inner) :
    tree.nodeActions allocs alloc content site.node =
      .ok (siteActions scope placed alloc (preservedBy allocs) site pred i) := by
  obtain ⟨_, stands, guarded⟩ := site_of_node comp.collected got
  have const : tree.isConstant content pred = true ↔ some pred = scope.alwaysTrue := comp.isConstant_iff
  have header := comp.collected.headed
  have blockPred : tree.blockPred site.block = some pred := guarded.symm.trans guards
  unfold siteActions
  rw [← comp.defActions_eq got]
  cases node : site.node with
  | block b =>
    rw [node] at stands
    obtain rfl : b = site.block := by simpa [ScopeTree.nodeBlock] using stands
    simp only [ScopeTree.nodeActions, blockPred, present_some, ok_bind, const, header]
    rfl
  | subscope loop =>
    rw [node] at stands
    obtain ⟨inner, innerFound, res⟩ := bind_inv stands
    have innerHeader : inner.header = site.block := pure_inv res
    obtain ⟨innerAlloc, innerAllocated⟩ := allocated loop node
    simp only [ScopeTree.nodeActions, innerFound, ok_bind, innerHeader, blockPred, innerAllocated, present_some,
      const, preservedBy]
    rfl

/-- What all nodes from a position on do. -/
def sitesActions (scope : ScopeEvents) (placed : List PlacedDef) (alloc : ScopeAllocation)
    (preserve : ScopeId → NumberSet) (sites : List NodeSite) (first : Nat) : List (List Replay.Action) :=
  (sites.zipIdx first).map fun entry =>
    siteActions scope placed alloc preserve entry.1 (entry.1.pred.getD scope.headerPred) entry.2

variable {ν : Type} {replay : Replay.State ν}

/-- What holds before the first node and is kept by each node holds after the last. -/
theorem sites_safe (guarded : ∀ site ∈ scope.sites, ∃ pred, site.pred = some pred)
    (defined : ∀ x ∈ placed, some x.definition.pred ≠ scope.alwaysTrue)
    (preserves : ∀ i site loop, scope.sites[i]? = some site → site.node = .subscope loop →
      ∀ holder ∈ holders, holder.start ≤ 2 * i + 1 → 2 * i + 1 < holder.finish →
        holder.reg ∈ (preservedBy allocs loop).members)
    (front rest : List NodeSite) (split : scope.sites = front ++ rest)
    (ready : Ready scope locs states front.length replay) :
    Safe (sitesActions scope placed alloc (preservedBy allocs) rest front.length).flatten replay
      (Ready scope locs states scope.sites.length) := by
  induction rest generalizing front replay with
  | nil =>
    rw [split, append_nil]
    exact ready
  | cons site rest ih =>
    have got : scope.sites[front.length]? = some site := by simp [split]
    obtain ⟨pred, guards⟩ := guarded site (mem_of_getElem? got)
    have here := comp.site_safe got guards defined (preserves front.length site · got) ready
    simp only [sitesActions, zipIdx_cons, map_cons, flatten_cons, guards, getD_some]
    refine safe_append.mpr (here.mono ?_)
    intro next nextReady
    have extended : (front ++ [site]).length = front.length + 1 := by simp
    rw [← extended] at nextReady ⊢
    exact ih (front ++ [site]) (by simp [split]) nextReady

theorem header_register (notAlways : some scope.headerPred ≠ scope.alwaysTrue) :
    ∃ r, locs.get? scope.headerPred = some (.register r) ∧ alloc.useReg scope.header scope.headerPred = some r ∧
      alloc.spillLoc scope.header scope.headerPred = none := by
  obtain ⟨r, held⟩ := comp.located.header notAlways
  obtain ⟨site, got, isBlock, guards⟩ := comp.sited.header
  have b := comp.sited.named got isBlock
  have fresh := (comp.placing (zero_le _)).fresh 0 site (Nat.le_refl _) got
  have step := comp.steps got
  generalize placedNext : states (0 + 1) = next at step
  have reads : Reads scope site scope.headerPred := ⟨guards, notAlways⟩
  have only (pred : PredId) (readsToo : Reads scope site pred) : pred = scope.headerPred :=
    mem_unique readsToo.1 guards
  refine ⟨r, held, ?_⟩
  rw [← b]
  cases step with
  | register pred o readsToo heldToo =>
    obtain rfl := only pred readsToo
    obtain rfl : r = o := by simpa [held] using heldToo
    constructor
    · rw [comp.useReg_eq got, placedNext]
      rw [BlockLocs.entriesAt_record_first _ fresh.1]
      simp [Table.find]
    · rw [comp.spillLoc_eq got, placedNext]
      change Table.find _ ((states 0).spillLocs.entriesAt site.block) = none
      rw [fresh.2]
      rfl
  | idle unread =>
    rcases unread _ reads with missing | always
    · simp [held] at missing
    · simp [held] at always
  | borrow pred _ _ _ readsToo heldToo =>
    obtain rfl := only pred readsToo
    simp [held] at heldToo
  | evict pred _ _ _ _ readsToo heldToo =>
    obtain rfl := only pred readsToo
    simp [held] at heldToo
  | bit pred _ _ readsToo heldToo =>
    obtain rfl := only pred readsToo
    simp [held] at heldToo

theorem ready_initial (holds : ∀ r, alloc.useReg scope.header scope.headerPred = some r →
      replay.regs r = replay.current scope.headerPred) : Ready scope locs states 0 replay := by
  intro pred started needed
  obtain ⟨e, next, _⟩ := needed
  have mem := mem_of_nextFrom next
  obtain ⟨notAlways, _⟩ := comp.collected.mem_eventsOf.mp mem
  have isHeader : pred = scope.headerPred := by
    refine Decidable.byContradiction fun ne => ?_
    obtain ⟨_, _, _, _, starts⟩ := comp.collected.start_eq ne mem
    omega
  subst isHeader
  obtain ⟨r, held, useReg, _⟩ := comp.header_register notAlways
  refine ⟨by simp [held], ?_, ?_⟩
  · rintro _ _ _ ⟨eviction, isEvicted, _⟩
    simp [comp.initial] at isEvicted
  · intro o heldToo _
    obtain rfl : r = o := by simpa [held] using heldToo
    exact holds r useReg

/-- Before the branch back the header's predicate is in its register. -/
theorem back_safe (notTop : content.isTopLevel = false) (ready : Ready scope locs states scope.sites.length replay) :
    Safe (ScopeTree.backActions alloc content scope.headerPred) replay fun final =>
      ∀ r, alloc.useReg scope.header scope.headerPred = some r → final.regs r = final.current scope.headerPred := by
  have coll := comp.collected
  have notAlways : some scope.headerPred ≠ scope.alwaysTrue := by simp [coll.constant, notTop]
  have mem : ⟨2 * scope.sites.length, .use .backEdge⟩ ∈ scope.eventsOf scope.headerPred :=
    coll.mem_eventsOf.mpr ⟨notAlways, .backEdge rfl⟩
  obtain ⟨r, held, useReg, spillLoc⟩ := comp.header_register notAlways
  obtain ⟨e, next⟩ := nextFrom_exists mem (Nat.le_refl _)
  have notLater := coll.nextFrom_le next mem (Nat.le_refl _)
  have isBack : e.kind = .use .backEdge := by
    have notEarlier := le_of_nextFrom next
    cases (coll.mem_eventsOf.mp (mem_of_nextFrom next)).2 with
    | backEdge => rfl
    | use i site got => have := (lt_length got); simp only at notLater notEarlier; omega
    | guard site b x got => simp only at notLater notEarlier; omega
    | define site x got => simp only at notLater notEarlier; omega
  have kept := ready scope.headerPred (by rw [start_header]; exact zero_le _)
    ⟨e, next, by simp [isBack], fun _ => coll.placedTop.trans notTop⟩
  have read_safe (s : State ν) (holds : s.regs r = s.current scope.headerPred) :
      Safe [alloc.readAction scope.header scope.headerPred] s fun final =>
        ∀ r, alloc.useReg scope.header scope.headerPred = some r →
          final.regs r = final.current scope.headerPred := by
    simp only [readAction, useReg]
    refine ⟨holds, ?_⟩
    rintro _ rfl o same
    cases same
    exact holds
  have placing := comp.placing (Nat.le_refl scope.sites.length)
  have loads : alloc.loadsAt scope.header = (states scope.sites.length).loadLocs.entriesAt scope.header := by
    rw [loadsAt, comp.loadLocs]
  have evicted_of_entry (pred : PredId) (slot : Nat)
      (entry : (pred, slot) ∈ (states scope.sites.length).loadLocs.entriesAt scope.header) :
      pred = scope.headerPred ∧ (states scope.sites.length).slots.get? pred = some slot ∧
        Evicted (states scope.sites.length) scope.sites.length pred := by
    obtain ⟨isHeader, known, eviction, isEvicted, isPred, till⟩ := placing.headerLoads pred slot entry
    exact ⟨isHeader, known, eviction, isEvicted, by omega, isPred⟩
  have once := comp.loads_once (Nat.le_refl scope.sites.length) scope.header
  simp only [ScopeTree.backActions, notTop, Bool.false_eq_true, if_false, ← coll.headed, loads]
  cases entries : (states scope.sites.length).loadLocs.entriesAt scope.header with
  | nil =>
    refine read_safe replay (kept.register r held ?_)
    rintro ⟨eviction, isEvicted, isOpen, isPred⟩
    obtain ⟨o, reload, returns⟩ := placing.evicted eviction isEvicted isOpen
    have follows := returns.follows
    rw [isPred] at follows
    obtain rfl := mem_unique next follows
    have comes := returns.comes
    have back : reload = .before scope.header := by
      simp only [Placement.reloadFor, isBack, coll.placedTop.trans notTop] at comes
      exact (some.inj comes).symm
    obtain ⟨slot, _, loaded⟩ := returns.loaded scope.header back
    simp [entries] at loaded
  | cons first rest =>
    obtain ⟨pred, slot⟩ := first
    obtain ⟨rfl, known, isEvicted⟩ := evicted_of_entry pred slot (by simp [entries])
    have noMore : rest = [] := by
      cases rest with
      | nil => rfl
      | cons second others =>
        obtain ⟨o, otherSlot⟩ := second
        obtain ⟨rfl, _⟩ := evicted_of_entry o otherSlot (by simp [entries])
        simp [entries] at once
    have single : alloc.loadActions scope.header (scope.headerPred, slot) = [.load r slot] := by
      simp [loadActions, useReg, spillLoc]
    rw [noMore, flatMap_cons, flatMap_nil, append_nil, single]
    refine ⟨trivial, ?_⟩
    rintro _ rfl
    refine read_safe _ ?_
    simpa [State.setReg] using kept.slot r slot held isEvicted known

end Computed

namespace ScopeTree

open Computed (sitesActions)

variable {func : Func} {entered : List ScopeId} {members : Table BlockId ScopeId} {registers : Nat}

section

variable (valid : Valid tree func entered members) {es : ScopeEvents}

include valid

/-- A loop preserves the registers that are live across it in the scope around it. -/
theorem preserved_of_live (allocated : tree.allocate registers = .ok allocs)
    {res : ScopeResult} (got : tree.get id = .ok content)
    (assigned : Assigned tree registers id alloc ctx es res) (coll : Collected tree id content placed es)
    {loop : ScopeId} (siteFound : es.sites[i]? = some site) (isLoop : site.node = .subscope loop)
    {holder : Holder} (mem : holder ∈ res.holders) (starts : holder.start ≤ 2 * i + 1)
    (finishes : 2 * i + 1 < holder.finish) : holder.reg ∈ (preservedBy allocs loop).members := by
  obtain ⟨nodeFound, _, _⟩ := site_of_node coll siteFound
  rw [isLoop] at nodeFound
  have isChild : loop ∈ content.subscopes := mem_subscopes.mpr (mem_of_getElem? nodeFound)
  obtain ⟨inner, innerFound, _, _⟩ := (valid.checked got).children loop isChild
  obtain ⟨innerAlloc, innerContext, innerEvents, innerResult, innerListed, innerAssigned⟩ :=
    allocate_assigned allocated innerFound
  obtain rfl := innerAssigned.inherits.unique valid
    (.inner assigned.inherits got assigned.collected assigned.allocated isChild)
  have preserve : innerAlloc.preserve = (res.childContext es ctx registers loop).preserve := by
    rw [← innerAssigned.same]
    exact preserve_of_allocate innerAssigned.allocated
  have index : es.sites.findIdx? (fun site => decide (site.node = .subscope loop)) = some i := by
    have inRange := lt_length siteFound
    refine findIdx?_eq_some_iff_getElem.mpr ⟨inRange, ?_, ?_⟩
    · have atPosition := (List.getElem?_eq_some_iff.mp siteFound).2
      simp [atPosition, isLoop]
    · intro earlier before isSame
      have earlierFound : es.sites[earlier]? = some es.sites[earlier] := getElem?_eq_getElem (by omega)
      obtain ⟨earlierNode, _, _⟩ := site_of_node coll earlierFound
      have sameNode : es.sites[earlier].node = .subscope loop := by simpa using isSame
      rw [sameNode] at earlierNode
      have nodeInRange := lt_length nodeFound
      have := (getElem?_inj nodeInRange (valid.nodes_nodup got)).mp (nodeFound.trans earlierNode.symm)
      omega
  simp only [preservedBy, innerListed, preserve, ScopeResult.childContext, index, getD_some,
    NumberSet.mem_ofList, mem_append, List.mem_map,
    mem_filter]
  exact .inl ⟨holder, ⟨mem, by simpa using ⟨starts, finishes⟩⟩, rfl⟩

theorem guarded_of_valid (coll : Collected tree id content placed es) (mem : site ∈ es.sites) :
    ∃ pred, site.pred = some pred := by
  obtain ⟨i, siteFound⟩ := getElem?_of_mem mem
  obtain ⟨nodeFound, stands, guards⟩ := site_of_node coll siteFound
  have inNodes := mem_of_getElem? nodeFound
  rw [guards]
  cases node : site.node with
  | block b =>
    rw [node] at stands inNodes
    obtain rfl : b = site.block := by simpa [nodeBlock] using stands
    exact ((valid.checked coll.found).usable _ (mem_blocks.mpr inNodes)).2
  | subscope loop =>
    rw [node] at stands inNodes
    obtain ⟨inner, innerFound, res⟩ := bind_inv stands
    have header : inner.header = site.block := pure_inv res
    rw [← header]
    exact ((valid.checked innerFound).usable _ (valid.header_mem_blocks innerFound)).2

theorem defined_of_valid (coll : Collected tree id content placed es) {x : PlacedDef} (mem : x ∈ placed) :
    some x.definition.pred ≠ es.alwaysTrue := by
  rw [coll.constant]
  split
  · next isTop =>
      obtain ⟨topLevel, whole⟩ := Bool.and_eq_true_iff.mp isTop
      obtain ⟨top, topFound, noParent, _⟩ := valid.top
      have isRoot : id = root := valid.top_unique coll.found topLevel
      subst isRoot
      obtain rfl := ok_unique topFound coll.found
      have sound := valid.defs coll.found (def_of_placed coll mem)
      have notEntry := sound.notEntry top topFound topLevel whole
      rw [coll.guarded] at notEntry
      exact fun same => notEntry same.symm
  · simp

/-- The replay of a scope exists, and is safe from every state in which the header's register holds its predicate. -/
theorem scopeActions_ok (allocated : tree.allocate registers = .ok allocs) (got : tree.get id = .ok content) :
    ∃ actions, tree.scopeActions allocs id = .ok actions ∧
      ∀ {ν : Type} (start : State ν), tree.EntersWith allocs id start →
        Safe actions start fun final => content.isTopLevel = false → tree.EntersWith allocs id final := by
  obtain ⟨alloc, ctx, es, res, mem, assigned⟩ := allocate_assigned allocated got
  obtain ⟨again, placed, locs, firstFree, states, comp⟩ := assigned.computed valid
  have coll := comp.collected
  obtain rfl := ok_unique got coll.found
  have guarded (site : NodeSite) (inSites : site ∈ es.sites) := guarded_of_valid valid coll inSites
  let nodes := sitesActions es placed alloc (preservedBy allocs) es.sites 0
  have mapped : content.nodes.mapM (tree.nodeActions allocs alloc content) = .ok nodes := by
    refine mapM_eq_ok (by simp [nodes, sitesActions, mapM_length coll.sited]) ?_
    intro i node nodeFound
    have inRange := lt_length nodeFound
    rw [← mapM_length coll.sited] at inRange
    have siteFound : es.sites[i]? = some es.sites[i] := getElem?_eq_getElem inRange
    obtain ⟨pred, guards⟩ := guarded _ (mem_of_getElem? siteFound)
    obtain ⟨sameNode, _, _⟩ := site_of_node coll siteFound
    obtain rfl := mem_unique nodeFound sameNode
    refine ⟨_, ?_, comp.nodeActions_eq siteFound guards ?_⟩
    · simp [nodes, sitesActions, getElem?_zipIdx, siteFound, guards]
    · intro loop isLoop
      rw [isLoop] at sameNode
      obtain ⟨inner, innerFound, _, _⟩ := (valid.checked got).children loop
        (mem_subscopes.mpr (mem_of_getElem? sameNode))
      obtain ⟨innerAlloc, _, _, _, innerListed, _⟩ := allocate_assigned allocated innerFound
      exact ⟨innerAlloc, innerListed⟩
  refine ⟨nodes.flatten ++ backActions alloc content es.headerPred, ?_, ?_⟩
  · simp only [scopeActions, got, ok_bind, mem, present_some, coll.guarded, mapped]
    rfl
  · intro ν start enters
    have entry (s : State ν) : tree.EntersWith allocs id s ↔ ∀ r, alloc.useReg es.header es.headerPred = some r →
          s.regs r = s.current es.headerPred := by
      rw [coll.headed]
      constructor
      · intro holds r useReg
        exact holds content alloc es.headerPred r got mem coll.guarded useReg
      · intro holds scope o pred r scopeFound otherListed guards useReg
        obtain rfl := ok_unique got scopeFound
        obtain rfl := mem_unique mem otherListed
        obtain rfl := mem_unique coll.guarded guards
        exact holds r useReg
    refine safe_append.mpr ((comp.sites_safe guarded
      (fun x inPlaced => defined_of_valid valid coll inPlaced)
      (fun i site loop siteFound isLoop holder isHolder starts finishes =>
        preserved_of_live valid allocated got assigned coll siteFound isLoop isHolder starts finishes)
      [] es.sites rfl (comp.ready_initial ((entry start).mp enters))).mono ?_)
    intro atEnd ready
    cases isTop : content.isTopLevel with
    | true =>
      simp [backActions, isTop, Safe]
    | false =>
      refine (comp.back_safe isTop ready).mono ?_
      intro final holds _
      exact (entry final).mpr holds

end

/-- For every function, every tree that fits it and every number of registers: in each scope of the tree, whatever
values the predicates take, every guard, every inner loop, every merging definition and every branch back finds the
current value of its predicate where the allocation says, and a pass through a loop ends ready for the next pass. -/
theorem allocate_replay_safe {facts : ScopeFacts} (validated : tree.validate func = .ok facts)
    (allocated : tree.allocate registers = .ok allocs) (found : tree.get id = .ok content) :
    ∃ actions, tree.scopeActions allocs id = .ok actions ∧
      ∀ {ν : Type} (start : Replay.State ν), tree.EntersWith allocs id start →
        Replay.Safe actions start fun final => content.isTopLevel = false → tree.EntersWith allocs id final := by
  obtain ⟨entered, valid⟩ := validate_valid validated
  exact scopeActions_ok valid allocated found

/-- Five blocks in a row. -/
def rowFunc : Func where
  name := "row"
  blocks := List.replicate 5 { name := "" }
  layout := [⟨0⟩, ⟨1⟩, ⟨2⟩, ⟨3⟩, ⟨4⟩]

/-- Two predicates that take turns. With one register, one of them is on the stack and evicts the other. -/
def turnsTree : ScopeTree where
  scopes := [⟨none, 0, ⟨0⟩, [.block ⟨0⟩, .block ⟨1⟩, .block ⟨2⟩, .block ⟨3⟩, .block ⟨4⟩],
    [⟨⟨1⟩, ⟨0⟩, ⟨0⟩, ⟨1⟩, some (.holds ⟨1⟩)⟩, ⟨⟨2⟩, ⟨0⟩, ⟨0⟩, ⟨2⟩, some (.fails ⟨1⟩)⟩], none⟩]
  blockPreds := ⟨[(⟨0⟩, ⟨0⟩), (⟨1⟩, ⟨1⟩), (⟨2⟩, ⟨2⟩), (⟨3⟩, ⟨1⟩), (⟨4⟩, ⟨2⟩)]⟩
  predCount := 3

theorem turnsTree_replay_safe :
    ∃ facts allocs content actions, turnsTree.validate rowFunc = .ok facts ∧ turnsTree.allocate 1 = .ok allocs ∧
      turnsTree.get root = .ok content ∧ turnsTree.scopeActions allocs root = .ok actions ∧
      turnsTree.EntersWith allocs root ⟨fun _ => 0, fun _ => 0, fun _ => 0⟩ ∧
      Replay.Safe actions (⟨fun _ => 0, fun _ => 0, fun _ => 0⟩ : Replay.State Nat) fun final =>
        content.isTopLevel = false → turnsTree.EntersWith allocs root final := by
  obtain ⟨facts, validated⟩ : ∃ facts, turnsTree.validate rowFunc = .ok facts := ⟨_, rfl⟩
  obtain ⟨allocs, allocated⟩ : ∃ allocs, turnsTree.allocate 1 = .ok allocs := ⟨_, rfl⟩
  obtain ⟨content, found⟩ : ∃ content, turnsTree.get root = .ok content := ⟨_, rfl⟩
  obtain ⟨actions, replayed, safe⟩ := allocate_replay_safe validated allocated found
  have enters : turnsTree.EntersWith allocs root (⟨fun _ => 0, fun _ => 0, fun _ => 0⟩ : Replay.State Nat) :=
    fun _ _ _ _ _ _ _ _ => rfl
  exact ⟨facts, allocs, content, actions, validated, allocated, found, replayed, enters, safe _ enters⟩

end ScopeTree

end SinglePath
