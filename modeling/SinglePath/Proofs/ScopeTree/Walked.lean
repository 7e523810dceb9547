import SinglePath.Proofs.ScopeTree.Valid

namespace SinglePath

open List

/-- The block that an event meets. -/
def WalkEvent.met : WalkEvent → Option BlockId
  | .enter _ => none
  | .block id => some id
  | .exit _ => none

/-- The scope that an event leaves. -/
def WalkEvent.left : WalkEvent → Option ScopeId
  | .enter _ => none
  | .block _ => none
  | .exit s => some s

theorem WalkEvent.met_cons (e : WalkEvent) (rest : List WalkEvent) :
    (e :: rest).filterMap met = e.met.toList ++ rest.filterMap met := by
  cases isMet : e.met <;> simp [isMet]

namespace ScopeTree

variable {tree : ScopeTree} {es : List WalkEvent} {nodes : List ScopeNode} {id : ScopeId} {scopes : List ScopeId}
  {body : Scope} {block : BlockId}

/-- The members of the scopes, each with its scope. -/
def membersOf (tree : ScopeTree) (scopes : List ScopeId) : List (ScopeId × Scope × BlockId) :=
  scopes.flatMap fun s =>
    match tree.scope? s with
    | some body => body.blocks.map fun block => (s, body, block)
    | none => []

theorem mem_membersOf {s : ScopeId} : (s, body, block) ∈ tree.membersOf scopes ↔
      s ∈ scopes ∧ tree.get s = .ok body ∧ block ∈ body.blocks := by
  simp only [membersOf, mem_flatMap, get, present_eq_ok]
  constructor
  · rintro ⟨o, mem, isMember⟩
    split at isMember
    · rename_i got
      obtain ⟨inside, isBlock, same⟩ := mem_map.mp isMember
      obtain ⟨rfl, rfl, rfl⟩ : o = s ∧ _ = body ∧ inside = block := by simpa using same
      exact ⟨mem, got, isBlock⟩
    · cases isMember
  · rintro ⟨mem, got, isBlock⟩
    refine ⟨s, mem, ?_⟩
    rw [got]
    exact mem_map_of_mem isBlock

theorem membersOf_cons (got : tree.get id = .ok body) (rest : List ScopeId) :
    tree.membersOf (id :: rest) = body.blocks.map (fun block => (id, body, block)) ++ tree.membersOf rest := by
  have isScope : tree.scope? id = some body := present_eq_ok.mp got
  simp only [membersOf, flatMap_cons, isScope]

theorem membersOf_append (first second : List ScopeId) :
    tree.membersOf (first ++ second) = tree.membersOf first ++ tree.membersOf second := by
  simp [membersOf]

/-- The blocks among the nodes. -/
def blocksAmong (nodes : List ScopeNode) : List BlockId :=
  nodes.filterMap fun node =>
    match node with
    | .block id => some id
    | .subscope _ => none

@[simp] theorem met_enter (s : ScopeId) (rest : List WalkEvent) :
    (WalkEvent.enter s :: rest).filterMap WalkEvent.met = rest.filterMap WalkEvent.met := rfl

@[simp] theorem met_block (block : BlockId) (rest : List WalkEvent) :
    (WalkEvent.block block :: rest).filterMap WalkEvent.met = block :: rest.filterMap WalkEvent.met := rfl

@[simp] theorem met_exit (s : ScopeId) (rest : List WalkEvent) :
    (WalkEvent.exit s :: rest).filterMap WalkEvent.met = rest.filterMap WalkEvent.met := rfl

@[simp] theorem left_enter (s : ScopeId) (rest : List WalkEvent) :
    (WalkEvent.enter s :: rest).filterMap WalkEvent.left = rest.filterMap WalkEvent.left := rfl

@[simp] theorem left_exit (s : ScopeId) (rest : List WalkEvent) :
    (WalkEvent.exit s :: rest).filterMap WalkEvent.left = s :: rest.filterMap WalkEvent.left := rfl

@[simp] theorem left_block (block : BlockId) (rest : List WalkEvent) :
    (WalkEvent.block block :: rest).filterMap WalkEvent.left = rest.filterMap WalkEvent.left := rfl

theorem Walks.left_perm (walks : Walks tree nodes es) :
    (es.filterMap WalkEvent.left).Perm (es.filterMap WalkEvent.entered) := by
  induction walks with
  | nil => exact .refl _
  | block _ ih => exact ih
  | loop _ _ _ inner later =>
    rw [cons_append, left_enter, entered_enter, filterMap_append, filterMap_append, left_exit, entered_exit]
    exact perm_middle.trans ((inner.append later).cons _)

/-- A walk meets the members of the scopes that it enters, each once. -/
theorem Walks.met_perm (walks : Walks tree nodes es) : (es.filterMap WalkEvent.met).Perm
      (blocksAmong nodes ++ (tree.membersOf (es.filterMap WalkEvent.entered)).map (·.2.2)) := by
  induction walks with
  | nil => exact .nil
  | block later ih =>
    simpa [blocksAmong] using ih
  | @loop id body rest inside es got inner later innerIh laterIh =>
    have split : (tree.membersOf ((WalkEvent.enter id :: inside ++ .exit id :: es).filterMap
        WalkEvent.entered)).map (·.2.2) = blocksAmong body.nodes ++
          (tree.membersOf (inside.filterMap WalkEvent.entered)).map (·.2.2) ++
            (tree.membersOf (es.filterMap WalkEvent.entered)).map (·.2.2) := by
      simp only [cons_append, entered_enter, filterMap_append, entered_exit, membersOf_cons got,
        membersOf_append, map_append, map_map, append_assoc]
      congr 1
      exact map_id _
    have met : (WalkEvent.enter id :: inside ++ .exit id :: es).filterMap WalkEvent.met =
        inside.filterMap WalkEvent.met ++ es.filterMap WalkEvent.met := by
      simp
    rw [split, met]
    refine (innerIh.append laterIh).trans ?_
    rw [← append_assoc, ← append_assoc (blocksAmong _)]
    exact (perm_append_comm.append_right _)

/-- The headers of the scopes that a walk leaves are met before it leaves them. -/
def HeadsFirst (tree : ScopeTree) : List BlockId → List WalkEvent → Prop
  | _, [] => True
  | seen, .enter _ :: rest => HeadsFirst tree seen rest
  | seen, .block block :: rest => HeadsFirst tree (block :: seen) rest
  | seen, .exit s :: rest =>
    (∀ body, tree.get s = .ok body → body.header ∈ seen) ∧ HeadsFirst tree seen rest

theorem headsFirst_append {first second : List WalkEvent} {seen : List BlockId} :
    HeadsFirst tree seen (first ++ second) ↔
      HeadsFirst tree seen first ∧ HeadsFirst tree ((first.filterMap WalkEvent.met).reverse ++ seen) second := by
  induction first generalizing seen with
  | nil => simp [HeadsFirst]
  | cons e rest ih =>
    cases e with
    | enter s => simp [HeadsFirst, ih]
    | block block => simp [HeadsFirst, ih]
    | exit s => simp [HeadsFirst, ih, and_assoc]

theorem Walks.first_block (walks : Walks tree nodes es)
    (first : nodes.head? = some (.block block)) : ∃ rest, es = .block block :: rest := by
  cases walks with
  | nil => simp at first
  | block later =>
    obtain rfl : _ = block := by simpa using first
    exact ⟨_, rfl⟩
  | loop got inner later => simp at first

theorem Walks.last_block (walks : Walks tree nodes es)
    (last : nodes.getLast? = some (.block block)) : ∃ before, es = before ++ [.block block] := by
  induction walks with
  | nil => simp at last
  | @block id rest es later ih =>
    cases rest with
    | nil =>
      cases later
      obtain rfl : id = block := by simpa using last
      exact ⟨[], rfl⟩
    | cons node rest =>
      obtain ⟨before, rfl⟩ := ih (by simpa using last)
      exact ⟨.block id :: before, rfl⟩
  | @loop id body rest inside es got inner later innerIh laterIh =>
    cases rest with
    | nil => simp at last
    | cons node rest =>
      obtain ⟨before, rfl⟩ := laterIh (by simpa using last)
      exact ⟨.enter id :: inside ++ .exit id :: before, by simp⟩

/-- A walk meets the header of a scope before it leaves the scope. -/
theorem Walks.headsFirst (walks : Walks tree nodes es)
    (headed : ∀ id body, tree.get id = .ok body → body.nodes.head? = some (.block body.header))
    (seen : List BlockId) : HeadsFirst tree seen es := by
  induction walks generalizing seen with
  | nil => trivial
  | block later ih => exact ih _
  | @loop id body rest inside es got inner later innerIh laterIh =>
    refine headsFirst_append.mpr ⟨innerIh seen, fun o otherFound => ?_, laterIh _⟩
    obtain rfl := ok_unique got otherFound
    obtain ⟨rest, rfl⟩ := inner.first_block (headed id body got)
    simp

/-- In a walk, entering a scope is followed by its header. -/
def Leads (tree : ScopeTree) : List WalkEvent → Prop
  | [] => True
  | .enter id :: rest => (∀ body, tree.get id = .ok body → rest.head? = some (.block body.header)) ∧ Leads tree rest
  | _ :: rest => Leads tree rest

theorem Leads.tail {e : WalkEvent} {rest : List WalkEvent} (leads : Leads tree (e :: rest)) : Leads tree rest := by
  cases e with
  | enter id => exact leads.2
  | block id | exit id => exact leads

theorem Leads.head {rest : List WalkEvent} (leads : Leads tree (.enter id :: rest)) (got : tree.get id = .ok body) :
    rest.head? = some (.block body.header) :=
  leads.1 body got

/-- What follows a walk may be any series of steps with the property. -/
theorem Walks.leads {rest : List WalkEvent} (walks : Walks tree nodes es)
    (headed : ∀ id body, tree.get id = .ok body → body.nodes.head? = some (.block body.header))
    (leads : Leads tree rest) : Leads tree (es ++ rest) := by
  induction walks generalizing rest with
  | nil => exact leads
  | block later ih => exact ih leads
  | @loop id body nodes inside es got inner later innerIh laterIh =>
    rw [cons_append, cons_append, append_assoc]
    refine ⟨fun o otherFound => ?_, innerIh (laterIh leads)⟩
    obtain rfl := ok_unique got otherFound
    obtain ⟨_, rfl⟩ := inner.first_block (headed id body got)
    rfl

namespace Valid

variable {f : Func} {entered : List ScopeId} {members : Table BlockId ScopeId}

variable (valid : Valid tree f entered members)

include valid

/-- No block is a member twice. -/
theorem members_nodup (once : scopes.Nodup)
    (known : ∀ id ∈ scopes, ∃ s, tree.get id = .ok s) : ((tree.membersOf scopes).map (·.2.2)).Nodup := by
  induction scopes with
  | nil => simp [membersOf]
  | cons id rest ih =>
    obtain ⟨s, got⟩ := known id (.head _)
    obtain ⟨notLater, restOnce⟩ := nodup_cons.mp once
    have own : (s.blocks.map fun block => (id, s, block)).map (·.2.2) = s.blocks := by
      rw [map_map]
      exact map_id _
    rw [membersOf_cons got, map_append, own]
    refine nodup_append.mpr ⟨(valid.checked got).blocksOnce, ih restOnce (forall_mem_cons.mp known).2, ?_⟩
    rintro block inside _ insideLater rfl
    obtain ⟨⟨o, otherScope, same⟩, isMember, rfl⟩ := mem_map.mp insideLater
    obtain ⟨mem, otherFound, insideOther⟩ := mem_membersOf.mp isMember
    exact notLater (valid.home_unique got otherFound inside insideOther ▸ mem)

/-- The walk of a valid tree enters its scopes in order. -/
theorem walked : ∃ es, tree.walk = .ok es ∧ es.filterMap WalkEvent.entered = entered ∧
      Walks tree [.subscope root] es := by
  obtain ⟨es, walked, res⟩ := bind_inv valid.order
  obtain ⟨top, got, _⟩ := valid.top
  exact ⟨es, walked, pure_inv res, walk_walks got walked⟩

/-- In the walk of a valid tree, entering a scope is followed by its header. -/
theorem leads (isWalk : tree.walk = .ok es) : Leads tree es := by
  obtain ⟨_, isWalked, _, walks⟩ := valid.walked
  obtain rfl := ok_unique isWalk isWalked
  have leads : Leads tree (es ++ []) := walks.leads (fun id body got => (valid.checked got).headerFirst) trivial
  rwa [append_nil] at leads

section

variable (isEntered : es.filterMap WalkEvent.entered = entered) (walks : Walks tree [.subscope root] es)

include isEntered walks

theorem met_nodup : (es.filterMap WalkEvent.met).Nodup := by
  refine (walks.met_perm.nodup_iff).mpr ?_
  rw [isEntered]
  exact valid.members_nodup valid.once fun id mem => valid.found mem

/-- The walk meets exactly the members of scopes. -/
theorem mem_met : block ∈ es.filterMap WalkEvent.met ↔ ∃ id s, tree.get id = .ok s ∧ block ∈ s.blocks := by
  rw [walks.met_perm.mem_iff, isEntered]
  constructor
  · intro isMember
    obtain ⟨id, s, isMember⟩ : ∃ id s, (id, s, block) ∈ tree.membersOf entered := by
      simpa [blocksAmong] using isMember
    obtain ⟨_, got, inside⟩ := mem_membersOf.mp isMember
    exact ⟨id, s, got, inside⟩
  · rintro ⟨id, s, got, inside⟩
    refine mem_append_right _ (mem_map.mpr ⟨(id, s, block), ?_, rfl⟩)
    exact mem_membersOf.mpr ⟨valid.covered got, got, inside⟩

end

/-- The walk begins with the entry of the function. -/
theorem starts (walks : Walks tree [.subscope root] es) : ∃ rest, es = .enter root :: .block f.entry :: rest := by
  cases walks with
  | loop got inner later =>
    obtain ⟨top, topFound, _, isEntry⟩ := valid.top
    obtain rfl := ok_unique topFound got
    obtain ⟨rest, rfl⟩ := inner.first_block (valid.checked got).headerFirst
    exact ⟨_, by rw [isEntry]; rfl⟩

end Valid

end ScopeTree

end SinglePath
