import Mathlib.Data.List.Nodup
import SinglePath.Proofs.Allocation.Sufficient

/-!
Scopes in which every predicate has one definition, which comes before all its uses.
-/

namespace SinglePath

open List Nat Option ScopeEvents Table

open ScopeEvents (Collected Occurs siteOf placeDefs nodeEvents collect checkDefined occurrences)

/-- The blocks of the nodes have increasing numbers. Each node is guarded by the predicate of the header or by one that
is defined at an earlier node; no predicate is defined twice; the header's is defined at blocks only; and the predicate
of an inner loop guards nothing else. -/
structure Graded (tree : ScopeTree) (body : Scope) (headerPred : PredId) (sites : List NodeSite) : Prop where
  sited : body.nodes.mapM (siteOf tree) = .ok sites
  headed : tree.blockPred body.header = some headerPred
  ascending : sites.Pairwise fun earlier later => earlier.block.index < later.block.index
  guarded : ∀ site ∈ sites, ∃ pred, site.pred = some pred ∧
    (pred = headerPred ∨ ∃ defn ∈ body.defs, defn.pred = pred ∧
      defn.source.index < site.block.index)
  leaves : ∀ defn ∈ body.defs, ∃ site ∈ sites, site.block = defn.source ∧
    site.pred = some defn.guard ∧ (defn.pred = headerPred → site.node = .block site.block)
  once : (body.defs.map (·.pred)).Nodup
  loops : ∀ site ∈ sites, ∀ loop pred, site.node = .subscope loop → site.pred = some pred →
    pred ≠ headerPred ∧ ∀ o ∈ sites, o.pred = some pred → o = site

namespace Graded

variable {tree : ScopeTree} {id : ScopeId} {body : Scope} {headerPred pred : PredId} {sites : List NodeSite}
  {placed : List PlacedDef} {first second i : Nat} {site o : NodeSite} {defs : List PredDef}
  {s : ScopeEvents} {x : PlacedDef}

section

variable (graded : Graded tree body headerPred sites) (got : sites[first]? = some site)
  (foundToo : sites[second]? = some o)

include graded got foundToo

theorem position_lt (isLess : site.block.index < o.block.index) : first < second := by
  obtain ⟨inside, rfl⟩ := List.getElem?_eq_some_iff.mp got
  obtain ⟨insideToo, rfl⟩ := List.getElem?_eq_some_iff.mp foundToo
  refine Nat.lt_of_not_le fun notLess => ?_
  rcases Nat.eq_or_lt_of_le notLess with rfl | greater
  · exact Nat.lt_irrefl _ isLess
  · exact Nat.lt_asymm isLess (pairwise_iff_getElem.mp graded.ascending _ _ insideToo inside greater)

theorem position_eq (same : site.block = o.block) : first = second := by
  obtain ⟨inside, rfl⟩ := List.getElem?_eq_some_iff.mp got
  obtain ⟨insideToo, rfl⟩ := List.getElem?_eq_some_iff.mp foundToo
  have ordered := pairwise_iff_getElem.mp graded.ascending
  rcases Nat.lt_trichotomy first second with less | equal | greater
  · exact absurd (congrArg BlockId.index same) (Nat.ne_of_lt (ordered _ _ inside insideToo less))
  · exact equal
  · exact absurd (congrArg BlockId.index same) (Nat.ne_of_gt (ordered _ _ insideToo inside greater))

end

theorem placeDefs_ok (leaving : ∀ defn ∈ defs, ∃ site ∈ sites, site.block = defn.source) (id : ScopeId)
    (first : Nat) : ∃ placed, placeDefs id sites first defs = .ok placed := by
  induction defs generalizing first with
  | nil => exact ⟨[], rfl⟩
  | cons defn rest ih =>
    obtain ⟨site, mem, isSource⟩ := leaving defn (.head _)
    obtain ⟨i, isPosition⟩ : ∃ i, sites.findIdx? (·.block = defn.source) = some i := isSome_iff_exists.mp (by
        rw [findIdx?_isSome]
        exact any_eq_true.mpr ⟨site, mem, by simpa using isSource⟩)
    obtain ⟨later, located⟩ := ih (forall_mem_cons.mp leaving).2 (first + 1)
    refine ⟨⟨i, first, defn⟩ :: later, ?_⟩
    rw [placeDefs, isPosition]
    simp only
    rw [located, ok_bind]
    rfl

theorem definitions_eq (located : placeDefs id sites first defs = .ok placed) : placed.map (·.definition) = defs := by
  have indexed := congrArg (map Prod.fst) (placeDefs_indexed located)
  rw [List.map_map, zipIdx_map_fst] at indexed
  exact indexed

/-- The events that are collected for a predicate stand in the order of their points. -/
theorem entry_of_collect {alwaysTrue : Option PredId} {entry : PredId × List Event}
    (mem : entry ∈ (collect alwaysTrue (occurrences s placed)).entries) :
    entry.2.Pairwise (fun earlier later => earlier.point ≤ later.point) ∧
      ∀ e, e ∈ entry.2 ↔ some entry.1 ≠ alwaysTrue ∧ Occurs s placed entry.1 e := by
  have increasing : Increasing PredId.index (collect alwaysTrue (occurrences s placed)).entries := by
    have ranked (one o : PredId) : one < o ↔ one.index < o.index := Iff.rfl
    have injective (one o : PredId) (same : one.index = o.index) : one = o := by
      exact congrArg PredId.mk same
    exact foldl_collect_increasing ranked injective _ _ Pairwise.nil
  have isEntry := get?_of_mem increasing.nodup_keys mem
  have isList : entry.2 = (((occurrences s placed).filter fun x => some x.1 ≠ alwaysTrue).filter
      (·.1 = entry.1)).map (·.2) := by
    have coll := get?_foldl_collect ((occurrences s placed).filter fun x => some x.1 ≠ alwaysTrue)
      empty entry.1
    rw [show (foldl _ empty _).get? entry.1 = some entry.2 from isEntry] at coll
    simpa using coll
  constructor
  · rw [isList, pairwise_map]
    exact ((occurrences_ordered s placed).filter _).filter _
  · intro e
    rw [isList, ← mem_occurrences]
    simp only [List.mem_map, mem_filter]
    grind

/-- If every use comes after another event, no predicate but the header's starts with a use. -/
theorem checkDefined_ok (earlier : ∀ pred e site, pred ≠ headerPred → Occurs s placed pred e →
      e.kind = .use site → ∃ o, Occurs s placed pred o ∧ o.point < e.point) (alwaysTrue : Option PredId) :
    checkDefined headerPred (collect alwaysTrue (occurrences s placed)) = .ok () := by
  unfold checkDefined
  split
  · next entry isUsed =>
      obtain ⟨ordered, members⟩ := entry_of_collect (mem_of_find?_eq_some isUsed)
      obtain ⟨notHeader, starts⟩ : entry.1 ≠ headerPred ∧ startsWithUse entry.2 = true := by
        simpa using find?_some isUsed
      obtain ⟨first, site, rest, isFirst, isUse⟩ : ∃ first site rest, entry.2 = first :: rest ∧
          first.kind = .use site := by
        unfold startsWithUse at starts
        split at starts
        · next p site isHead =>
            obtain ⟨rest, isList⟩ := head?_eq_some_iff.mp isHead
            exact ⟨_, site, rest, isList, rfl⟩
        · cases starts
      obtain ⟨notAlways, occurs⟩ := (members first).mp (isFirst ▸ (.head _))
      obtain ⟨o, occursToo, isEarlier⟩ := earlier entry.1 first site notHeader occurs isUse
      have mem := (members o).mpr ⟨notAlways, occursToo⟩
      rw [isFirst] at mem ordered
      rcases mem_cons.mp mem with rfl | isLater
      · exact absurd isEarlier (Nat.lt_irrefl _)
      · exact absurd isEarlier (Nat.not_lt.mpr ((pairwise_cons.mp ordered).1 o isLater))
  · rfl

section

variable (graded : Graded tree body headerPred sites)

include graded

section

variable (located : placeDefs id sites 0 body.defs = .ok placed)

include located

theorem definition_before (got : sites[i]? = some site) (guards : site.pred = some pred)
    (notHeader : pred ≠ headerPred) :
    ∃ x ∈ placed, x.definition.pred = pred ∧ x.position < i := by
  obtain ⟨guard, isGuard, isHeader | ⟨defn, mem, defines, isLess⟩⟩ := graded.guarded site (mem_of_getElem? got)
  · exact absurd ((mem_unique guards isGuard).trans isHeader) notHeader
  · obtain ⟨x, isPlaced, rfl⟩ : ∃ x ∈ placed, x.definition = defn := by
      rw [← definitions_eq located] at mem
      exact mem_map.mp mem
    obtain ⟨u, sourceFound, isSource⟩ := placeDefs_position located isPlaced
    refine ⟨x, isPlaced, ?_, graded.position_lt sourceFound got (isSource ▸ isLess)⟩
    rw [defines]
    exact mem_unique isGuard guards

theorem eq_of_pred_eq {first second : PlacedDef} (mem : first ∈ placed) (listedToo : second ∈ placed)
    (same : first.definition.pred = second.definition.pred) : first = second := by
  have once := graded.once
  rw [← definitions_eq located, List.map_map] at once
  exact inj_on_of_nodup_map once mem listedToo same

theorem guard_of_placed (mem : x ∈ placed) (got : sites[x.position]? = some site) :
    site.pred = some x.definition.guard ∧ (x.definition.pred = headerPred → site.node = .block site.block) := by
  obtain ⟨u, sourceFound, isSource⟩ := placeDefs_position located mem
  obtain rfl := mem_unique got sourceFound
  have inDefs : x.definition ∈ body.defs := definitions_eq located ▸ mem_map_of_mem mem
  obtain ⟨o, isSite, isBlock, guards, atBlock⟩ := graded.leaves x.definition inDefs
  obtain ⟨i, otherFound⟩ := mem_iff_getElem?.mp isSite
  obtain rfl := graded.position_eq got otherFound (isSource.trans isBlock.symm)
  obtain rfl := mem_unique got otherFound
  exact ⟨guards, atBlock⟩

end

theorem ofScope_ok (got : tree.get id = .ok body) : ∃ es, ofScope tree id = .ok es := by
  obtain ⟨placed, located⟩ := placeDefs_ok (fun defn mem => by
    obtain ⟨site, isSite, isSource, _⟩ := graded.leaves defn mem
    exact ⟨site, isSite, isSource⟩) id 0
  let alwaysTrue := if body.isTopLevel && tree.wholeFunction then some headerPred else none
  let firstDefs := firstDefsOf (inNodeOrder sites.length placed)
  let s : ScopeEvents := ⟨id, body.header, body.isTopLevel, sites, headerPred, alwaysTrue, empty, firstDefs, empty⟩
  have defined : checkDefined headerPred (collect alwaysTrue (occurrences s placed)) = .ok () := by
    refine checkDefined_ok (fun pred e useSite notHeader occurs isUse => ?_) alwaysTrue
    cases occurs with
    | use i site siteFound guards =>
      obtain ⟨x, mem, defines, isEarlier⟩ := graded.definition_before located siteFound guards notHeader
      obtain ⟨u, sourceFound, _⟩ := placeDefs_position located mem
      exact ⟨_, .define u x sourceFound mem defines, by simp only; omega⟩
    | guard site b x siteFound isBlock mem guards =>
      have isGuard := (graded.guard_of_placed located mem siteFound).1
      exact ⟨_, .use x.position site siteFound (isGuard.trans (congrArg some guards)), by simp⟩
    | define => cases isUse
    | backEdge isHeader => exact absurd isHeader notHeader
  unfold ofScope
  simp only [got, liftM_ok, ok_bind, graded.headed, pure_bind, graded.sited, located]
  exact ⟨_, bind_ok defined rfl⟩

end

variable (graded : Graded tree body headerPred s.sites)

include graded

variable (coll : Collected tree id body placed s)

include coll

/-- The only definition of a predicate is its first one. -/
theorem isFirst (mem : x ∈ placed) : IsFirst s x := by
  obtain ⟨first, firstListed, samePred, isFirst, _⟩ := coll.first_def mem
  obtain rfl := graded.eq_of_pred_eq coll.located firstListed mem samePred
  exact isFirst

theorem le_of_loop {loop : ScopeId} {e : Event}
    (got : s.sites[i]? = some site) (isLoop : site.node = .subscope loop) (guards : site.pred = some pred)
    (mem : e ∈ s.eventsOf pred) : e.point ≤ 2 * i := by
  have isHeader : s.headerPred = headerPred := mem_unique coll.guarded graded.headed
  obtain ⟨notHeader, alone⟩ := graded.loops site (mem_of_getElem? got) loop pred isLoop guards
  cases (coll.mem_eventsOf.mp mem).2 with
  | use o otherSite otherFound guardsToo =>
    obtain rfl := alone otherSite (mem_of_getElem? otherFound) guardsToo
    obtain rfl := graded.position_eq got otherFound rfl
    exact Nat.le_refl _
  | guard otherSite otherBlock x otherFound isBlock isPlaced guardsToo =>
    have isGuard := (graded.guard_of_placed coll.located isPlaced otherFound).1
    obtain rfl := alone otherSite (mem_of_getElem? otherFound) (guardsToo ▸ isGuard)
    cases isLoop.symm.trans isBlock
  | define otherSite x otherFound isPlaced defines =>
    obtain ⟨first, firstPlaced, definesToo, isEarlier⟩ :=
      graded.definition_before coll.located got guards notHeader
    obtain rfl := graded.eq_of_pred_eq coll.located firstPlaced isPlaced (definesToo.trans defines.symm)
    simp only
    omega
  | backEdge same => exact absurd (same.trans isHeader) notHeader

/-- In a graded scope one register is enough. -/
theorem undisturbed : s.Undisturbed := by
  have isHeader : s.headerPred = headerPred := mem_unique coll.guarded graded.headed
  refine ⟨?_, ?_, ?_⟩
  · intro i site b pred e got isBlock ne mem here
    have inside : i < s.sites.length := lt_length got
    cases (coll.mem_eventsOf.mp mem).2 with
    | use o otherSite otherFound guards =>
      obtain rfl : o = i := by
        simp only at here
        omega
      obtain rfl := mem_unique got otherFound
      exact absurd guards ne
    | guard otherSite otherBlock x otherFound _ isPlaced guards =>
      obtain rfl : x.position = i := by
        simp only at here
        omega
      exact absurd (guards ▸ (graded.guard_of_placed coll.located isPlaced got).1) ne
    | define otherSite x otherFound isPlaced defines =>
      obtain rfl : x.position = i := by
        simp only at here
        omega
      obtain rfl := mem_unique got otherFound
      have isFull : isFull s.firstDefs site x = true := by
        unfold isFull
        rw [isBlock]
        exact decide_eq_true (graded.isFirst coll isPlaced)
      rw [isFull]
    | backEdge =>
      simp only at here
      omega
  · intro pred e mem isKept
    obtain ⟨notAlways, occurs⟩ := coll.mem_eventsOf.mp mem
    cases occurs with
    | define site x got isPlaced defines =>
      have notFull : isFull s.firstDefs site x = false := EventKind.define.inj isKept
      have notHeader : pred ≠ s.headerPred := by
        rintro rfl
        have isBlock := (graded.guard_of_placed coll.located isPlaced got).2 (defines.trans isHeader)
        unfold isFull at notFull
        rw [isBlock] at notFull
        exact of_decide_eq_false notFull (graded.isFirst coll isPlaced)
      obtain ⟨first, firstPlaced, definesToo, _, starts⟩ := coll.start_eq notHeader mem
      obtain rfl := graded.eq_of_pred_eq coll.located firstPlaced isPlaced (definesToo.trans defines.symm)
      exact starts.symm
    | use => cases isKept
    | guard => cases isKept
    | backEdge => cases isKept
  · intro pred e header mem isLoop
    obtain ⟨notAlways, occurs⟩ := coll.mem_eventsOf.mp mem
    cases occurs with
    | use i site got guards =>
      obtain ⟨loop, isSubscope⟩ : ∃ loop, site.node = .subscope loop := by
        unfold NodeSite.useSite at isLoop
        split at isLoop
        · cases isLoop
        · next loop isSubscope => exact ⟨loop, isSubscope⟩
      obtain ⟨last, isLast, notEarlier⟩ : ∃ last, (s.eventsOf pred).getLast? = some last ∧ 2 * i ≤ last.point := by
        have isSome : s.eventsOf pred ≠ [] := ne_nil_of_mem mem
        refine ⟨_, getLast?_eq_some_getLast isSome, ?_⟩
        have isBefore := coll.lt_finish mem
        rw [finish, getLast?_eq_some_getLast isSome] at isBefore
        exact le_of_lt_succ isBefore
      have notLater := graded.le_of_loop coll got isSubscope guards (mem_of_getLast? isLast)
      simp only [isLastEvent, isLast, any_some, decide_eq_true_eq]
      exact Nat.le_antisymm notLater notEarlier
    | guard => cases isLoop
    | define => cases isLoop
    | backEdge => cases isLoop

end Graded

end SinglePath
