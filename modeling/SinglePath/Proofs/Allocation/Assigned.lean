import SinglePath.Proofs.Allocation.Soundness
import SinglePath.Proofs.ScopeTree.Valid

namespace SinglePath

open LinearScan List ScopeAllocation ScopeResult Table

open ScopeEvents (Collected)

variable {tree : ScopeTree} {id : ScopeId} {body : Scope} {i : Nat} {f : Func} {entered : List ScopeId}
  {members : Table BlockId ScopeId}

section

variable {placed : List PlacedDef} {scope : ScopeEvents} {ctx : ScopeContext} {reserve : Bool}
  {res : ScopeResult} {site : NodeSite}

/-- The predicates of a scope live where the scan has put them. -/
theorem located_of_run (coll : Collected tree id body placed scope) {pool : List Nat}
    {regs : Table PredId (Option Nat)} (scanned : run scope ctx pool = .ok regs) :
    Located scope ⟨numberStack ctx.firstStackLoc regs.entries⟩ (holders scope regs)
      ctx.firstStackLoc (ctx.firstStackLoc + stackCount regs) := by
  have separated := run_separated (nodup_keys coll) scanned
  refine ⟨?_, ?_, ?_, ?_, ?_, ?_, ?_⟩
  · intro holder
    rw [mem_holders separated]
    exact and_congr_left fun _ => find_numberStack_register.symm
  · intro pred e mem
    obtain ⟨place, known⟩ := (separated.known pred).mp ((mem_keys_iff coll).mpr ⟨e, mem⟩)
    exact find_numberStack_exists known
  · intro pred location known
    have isKey : pred ∈ scope.events.keys := by
      rw [separated.known]
      cases missing : regs.get? pred with
      | some place => exact ⟨place, rfl⟩
      | none =>
        have unknown : find pred (numberStack ctx.firstStackLoc regs.entries) = none :=
          find_numberStack_none missing
        simp [get?, unknown] at known
    exact (mem_keys_iff coll).mp isKey
  · intro first second r held heldToo
    exact separated.disjoint first second r (find_numberStack_register.mp held)
      (find_numberStack_register.mp heldToo)
  · intro pred bit held
    exact (find_numberStack_stack held).2
  · intro first second bit held heldToo
    exact find_numberStack_injective held heldToo
  · intro notAlways
    have backEdge : ⟨2 * scope.sites.length, .use .backEdge⟩ ∈ scope.eventsOf scope.headerPred :=
      coll.mem_eventsOf.mpr ⟨notAlways, .backEdge rfl⟩
    obtain ⟨r, held⟩ := separated.header ((mem_keys_iff coll).mpr ⟨_, backEdge⟩)
    exact ⟨r, find_numberStack_register.mpr held⟩

theorem mem_of_mem_poolFor {r : Nat} (inPool : r ∈ poolFor ctx reserve) : r ∈ ctx.pool := by
  unfold poolFor at inPool
  split at inPool
  · exact (mem_filter.mp inPool).1
  · exact inPool

theorem computed_of_compute (coll : Collected tree id body placed scope) (sited : Sited scope placed)
    (allocated : compute scope ctx reserve = .ok res) :
    ∃ locs firstFree states, Computed tree id body placed scope ctx locs res.holders firstFree states
      res.alloc := by
  obtain ⟨regs, scanned, final, placedAll, rfl⟩ := bind_bind_pure_inv allocated
  have located := located_of_run coll scanned
  obtain ⟨states, starts, ends, steps⟩ := foldlM_trace placedAll
  have stepsAt {i : Nat} {site : NodeSite} (got : scope.sites[i]? = some site) :=
    Placement.placeNode_step (steps i (site, i) (by simp [getElem?_zipIdx, got]))
  rw [length_zipIdx] at ends
  have grown : ctx.firstStackLoc + stackCount regs ≤ final.nextStack := by
    refine foldlM_invariant (fun s => ctx.firstStackLoc + stackCount regs ≤ s.nextStack)
      placedAll (Nat.le_refl _) ?_
    rintro s ⟨site, i⟩ next _ bound step
    exact Nat.le_trans bound (Placement.placeNode_step step).nextStack_le
  have separated := run_separated (nodup_keys coll) scanned
  refine ⟨_, _, states, coll, sited, located, starts, stepsAt, ?_, ?_, ?_, ?_, rfl, ?_, ?_, ?_, ?_, rfl, rfl⟩
  · rw [ends]
  · rw [ends]
  · rw [ends]
  · intro pred notAlways
    unfold defLoc
    cases const : scope.alwaysTrue with
    | none => rfl
    | some always =>
      have ne : pred ≠ always := by
        rintro rfl
        exact notAlways const.symm
      simp [ne]
  · rw [ends]
    unfold stackEnd
    simp only
    omega
  · intro pred r held
    exact mem_of_mem_poolFor (separated.pooled pred r (find_numberStack_register.mp held))
  · intro pred const
    unfold defLoc
    simp [← const]
  · intro r
    rw [ends, NumberSet.mem_ofList, mem_append, mem_map]

theorem compute_of_allocate (allocated : allocate scope ctx = .ok res) :
    ∃ reserve, compute scope ctx reserve = .ok res := by
  unfold allocate at allocated
  split at allocated
  · next got =>
      cases allocated
      exact ⟨false, got⟩
  · exact absurd allocated refuse_ne_ok
  · split at allocated
    · split at allocated
      · next got =>
          cases allocated
          exact ⟨true, got⟩
      · exact absurd allocated refuse_ne_ok
    · exact absurd allocated refuse_ne_ok

theorem computed_of_allocate (coll : Collected tree id body placed scope) (sited : Sited scope placed)
    (allocated : allocate scope ctx = .ok res) :
    ∃ locs firstFree states, Computed tree id body placed scope ctx locs res.holders firstFree states
      res.alloc := by
  obtain ⟨reserve, comp⟩ := compute_of_allocate allocated
  exact computed_of_compute coll sited comp

theorem preserve_of_compute (allocated : compute scope ctx reserve = .ok res) : res.alloc.preserve = ctx.preserve := by
  obtain ⟨regs, _, final, _, rfl⟩ := bind_bind_pure_inv allocated
  rfl

theorem preserve_of_allocate (allocated : allocate scope ctx = .ok res) : res.alloc.preserve = ctx.preserve := by
  obtain ⟨reserve, comp⟩ := compute_of_allocate allocated
  exact preserve_of_compute comp

theorem siteOf_eq_ok {node : ScopeNode} (sited : ScopeEvents.siteOf tree node = .ok site) :
    site.node = node ∧ tree.nodeBlock node = .ok site.block ∧ site.pred = tree.blockPred site.block := by
  obtain ⟨b, stands, rfl⟩ := bind_pure_inv sited
  exact ⟨rfl, stands, rfl⟩

theorem site_of_node (coll : Collected tree id body placed scope) (got : scope.sites[i]? = some site) :
    body.nodes[i]? = some site.node ∧ tree.nodeBlock site.node = .ok site.block ∧
      site.pred = tree.blockPred site.block := by
  obtain ⟨node, nodeFound, sited⟩ := mapM_getElem? coll.sited got
  obtain ⟨rfl, stands, guards⟩ := siteOf_eq_ok sited
  exact ⟨nodeFound, stands, guards⟩

theorem def_of_placed (coll : Collected tree id body placed scope) {x : PlacedDef}
    (mem : x ∈ placed) : x.definition ∈ body.defs := by
  have indexed : (x.definition, x.index) ∈ body.defs.zipIdx := by
    rw [← ScopeEvents.placeDefs_indexed coll.located]
    exact mem_map.mpr ⟨x, mem, rfl⟩
  exact mem_of_getElem? (mem_zipIdx_iff_getElem?.mp indexed)

theorem sited_of_valid
    (valid : ScopeTree.Valid tree f entered members) (coll : Collected tree id body placed scope) :
    Sited scope placed := by
  have checked := valid.checked coll.found
  refine ⟨?_, ?_, ?_, ?_⟩
  · intro first second site o got foundToo same
    obtain ⟨nodeFound, stands, _⟩ := site_of_node coll got
    obtain ⟨otherFound, otherStands, _⟩ := site_of_node coll foundToo
    rw [← same] at otherStands
    have sameNode := valid.node_unique coll.found (mem_of_getElem? nodeFound)
      (mem_of_getElem? otherFound) stands otherStands
    have inRange := lt_length nodeFound
    refine (getElem?_inj inRange (valid.nodes_nodup coll.found)).mp ?_
    rw [nodeFound, otherFound, sameNode]
  · intro i site b got isBlock
    obtain ⟨_, stands, _⟩ := site_of_node coll got
    rw [isBlock] at stands
    simpa [ScopeTree.nodeBlock] using stands.symm
  · have nonempty : 0 < scope.sites.length := by
      rw [mapM_length coll.sited]
      exact length_pos_of_mem (mem_of_mem_head? checked.headerFirst)
    have got : scope.sites[0]? = some scope.sites[0] := getElem?_eq_getElem nonempty
    obtain ⟨nodeFound, stands, guards⟩ := site_of_node coll got
    have isHeader : scope.sites[0].node = .block body.header := by
      rw [← head?_eq_getElem?, checked.headerFirst] at nodeFound
      exact (Option.some.inj nodeFound).symm
    rw [isHeader] at stands
    have b : scope.sites[0].block = body.header := by simpa [ScopeTree.nodeBlock] using stands.symm
    refine ⟨scope.sites[0], got, ?_, ?_⟩
    · rw [isHeader, coll.headed]
    · rw [guards, b, coll.guarded]
  · intro x site mem got
    obtain ⟨_, _, guards⟩ := site_of_node coll got
    obtain ⟨sourceSite, sourceFound, u⟩ := coll.site_of_def mem
    obtain rfl := Option.mem_unique got sourceFound
    rw [guards, u]
    exact (valid.defs coll.found (def_of_placed coll mem)).guarded

end

namespace ScopeTree

variable {registers : Nat}

/-- What the root starts with. -/
def rootContext (registers : Nat) : ScopeContext :=
  { pool := List.range registers, preserve := .empty, preferred := none, firstStackLoc := 0 }

/-- A scope inherits its context from the allocation of the scope around it. -/
inductive Inherits (tree : ScopeTree) (registers : Nat) : ScopeId → ScopeContext → Prop where
  | outermost : Inherits tree registers root (rootContext registers)
  | inner {parent child : ScopeId} {body : Scope} {ctx : ScopeContext} {es : ScopeEvents}
      {res : ScopeResult} (inherits : Inherits tree registers parent ctx) (got : tree.get parent = .ok body)
      (coll : ScopeEvents.ofScope tree parent = .ok es)
      (allocated : ScopeResult.allocate es ctx = .ok res) (mem : child ∈ body.subscopes) :
      Inherits tree registers child (res.childContext es ctx registers child)

theorem Inherits.unique (valid : Valid tree f entered members) {first second : ScopeContext}
    (inherits : Inherits tree registers id first) (inheritsToo : Inherits tree registers id second) :
    first = second := by
  obtain ⟨top, topFound, noParent, _⟩ := valid.top
  have notRoot {parent child : ScopeId} {body : Scope} (got : tree.get parent = .ok body)
      (mem : child ∈ body.subscopes) : child ≠ root := by
    rintro rfl
    obtain ⟨inner, innerFound, hasParent, _⟩ := (valid.checked got).children root mem
    obtain rfl := ok_unique topFound innerFound
    simp [noParent] at hasParent
  induction inherits generalizing second with
  | outermost =>
    generalize isRoot : root = id at inheritsToo
    cases inheritsToo with
    | outermost => rfl
    | inner _ got _ _ mem => exact absurd isRoot.symm (notRoot got mem)
  | @inner parent child body ctx es res _ got coll allocated mem ih =>
    generalize isChild : child = id at inheritsToo
    cases inheritsToo with
    | outermost => exact absurd isChild (notRoot got mem)
    | inner inheritsToo foundToo collectedToo allocatedToo listedToo =>
      subst isChild
      obtain rfl := valid.parent_unique got foundToo mem listedToo
      obtain rfl := ih inheritsToo
      obtain rfl := ok_unique coll collectedToo
      obtain rfl := ok_unique allocated allocatedToo
      rfl

/-- The allocation of a scope is made from its events and from what it inherits. -/
structure Assigned (tree : ScopeTree) (registers : Nat) (id : ScopeId) (alloc : ScopeAllocation)
    (ctx : ScopeContext) (es : ScopeEvents) (res : ScopeResult) : Prop where
  inherits : Inherits tree registers id ctx
  collected : ScopeEvents.ofScope tree id = .ok es
  allocated : ScopeResult.allocate es ctx = .ok res
  same : res.alloc = alloc

theorem Assigned.computed (valid : Valid tree f entered members) {alloc : ScopeAllocation} {ctx : ScopeContext}
    {es : ScopeEvents} {res : ScopeResult} (assigned : Assigned tree registers id alloc ctx es res) :
    ∃ body placed locs firstFree states,
      Computed tree id body placed es ctx locs res.holders firstFree states alloc := by
  obtain ⟨body, placed, coll⟩ := ScopeEvents.ofScope_collected assigned.collected
  rw [← assigned.same]
  exact ⟨body, placed, computed_of_allocate coll (sited_of_valid valid coll) assigned.allocated⟩

/-- What is known of the scopes allocated so far. -/
structure Sound (tree : ScopeTree) (registers : Nat) (s : Assignment) : Prop where
  contexts : ∀ {id : ScopeId} {ctx : ScopeContext}, s.contexts.get? id = some ctx →
    Inherits tree registers id ctx
  allocs : ∀ {id : ScopeId} {alloc : ScopeAllocation}, s.allocs.get? id = some alloc →
    ∃ ctx es res, Assigned tree registers id alloc ctx es res

theorem Sound.step {s next : Assignment} (sound : Sound tree registers s)
    (step : tree.allocateScope registers s id = .ok next) : Sound tree registers next := by
  unfold allocateScope at step
  cases inherited : s.contexts.get? id with
  | none =>
    rw [inherited] at step
    obtain ⟨_, refused, _⟩ := bind_inv step
    exact absurd refused refuseTree_ne_ok
  | some ctx =>
    rw [inherited] at step
    obtain ⟨_, same, step⟩ := bind_inv step
    obtain rfl := pure_inv same
    obtain ⟨es, coll, res, allocated, step⟩ := bind_bind_inv step
    obtain ⟨body, got, rfl⟩ := bind_pure_inv step
    have inherits := sound.contexts inherited
    have children (loops : List ScopeId) (mem : ∀ loop ∈ loops, loop ∈ body.subscopes)
        (contexts : Table ScopeId ScopeContext)
        (known : ∀ {id : ScopeId} {ctx : ScopeContext}, contexts.get? id = some ctx →
          Inherits tree registers id ctx) {id : ScopeId} {context' : ScopeContext}
        (lookup : (loops.foldl (fun contexts child =>
          contexts.insert child (res.childContext es ctx registers child)) contexts).get? id =
            some context') : Inherits tree registers id context' := by
      induction loops generalizing contexts with
      | nil => exact known lookup
      | cons loop rest ih =>
        refine ih (fun o inRest => mem o (mem_cons_of_mem loop inRest)) _ ?_ lookup
        intro o otherContext otherLookup
        rw [get?_insert] at otherLookup
        split at otherLookup
        · next isLoop =>
            cases otherLookup
            subst isLoop
            exact .inner inherits (liftM_inv got) coll allocated (mem _ (.head _))
        · exact known otherLookup
    refine ⟨?_, ?_⟩
    · intro o otherContext lookup
      refine children body.subscopes (fun _ mem => mem) (s.contexts.erase id) ?_ lookup
      intro known knownContext knownLookup
      rw [get?_erase] at knownLookup
      split at knownLookup
      · simp at knownLookup
      · exact sound.contexts knownLookup
    · intro o alloc lookup
      rw [get?_insert] at lookup
      split at lookup
      · next isOther =>
          subst isOther
          exact ⟨ctx, es, res, inherits, coll, allocated, Option.some.inj lookup⟩
      · exact sound.allocs lookup

theorem gather_getElem? {allocs : Table ScopeId ScopeAllocation} {indices : List Nat} {gathered : List ScopeAllocation}
    (ok : gather allocs indices = .ok gathered) {index : Nat} (got : indices[i]? = some index) :
    ∃ alloc, gathered[i]? = some alloc ∧ allocs.get? ⟨index⟩ = some alloc := by
  induction indices generalizing gathered i with
  | nil => simp at got
  | cons first rest ih =>
    rw [gather] at ok
    split at ok
    · exact absurd ok refuseTree_ne_ok
    · next alloc lookup =>
        obtain ⟨later, gatheredLater, rfl⟩ := bind_pure_inv ok
        cases i with
        | zero =>
          obtain rfl : first = index := by simpa using got
          exact ⟨alloc, rfl, lookup⟩
        | succ earlier =>
          simpa using ih gatheredLater (by simpa using got)

theorem allocate_assigned {allocs : List ScopeAllocation} (allocated : tree.allocate registers = .ok allocs)
    (got : tree.get id = .ok body) :
    ∃ alloc ctx es res, allocs[id.index]? = some alloc ∧
      Assigned tree registers id alloc ctx es res := by
  obtain ⟨scopes, _, final, folded, gathered⟩ := bind_bind_inv allocated
  have sound : Sound tree registers final := by
    refine foldlM_invariant (Sound tree registers) folded ⟨?_, by simp⟩ fun _ _ _ _ holds step => holds.step step
    intro o ctx lookup
    rw [get?_insert] at lookup
    split at lookup
    · next isRoot =>
        cases lookup
        exact isRoot ▸ .outermost
    · simp at lookup
  have inRange : id.index < tree.scopes.length := lt_length (get_eq_ok.mp got)
  obtain ⟨alloc, mem, lookup⟩ := gather_getElem? gathered (getElem?_range inRange)
  obtain ⟨ctx, es, res, assigned⟩ := sound.allocs lookup
  exact ⟨alloc, ctx, es, res, mem, assigned⟩

end ScopeTree

end SinglePath
