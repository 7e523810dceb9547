import SinglePath.Proofs.ScopeTree.Fitting
import Mathlib.Data.List.Nodup
import Mathlib.Data.List.Perm.Subperm
import Mathlib.Logic.Relation

namespace SinglePath

open List Relation WalkEvent

namespace ScopeTree

variable {tree : ScopeTree} {f : Func} {id inside : ScopeId} {members : Table BlockId ScopeId} {steps room : Nat}
  {es : List WalkEvent} {top : Scope}

/-- The first scope is a loop of the second. -/
def Child (tree : ScopeTree) (inner outer : ScopeId) : Prop :=
  ∃ body, tree.get outer = .ok body ∧ inner ∈ body.subscopes

/-- The scope is there, and so are the loops inside it, however deep; none of them lies inside itself. -/
inductive Unfolds (tree : ScopeTree) : ScopeId → Prop where
  | scope {id : ScopeId} {body : Scope} (got : tree.get id = .ok body)
      (inner : ∀ child ∈ body.subscopes, Unfolds tree child) : Unfolds tree id

theorem Unfolds.isThere (unfolds : Unfolds tree id) : ∃ body, tree.get id = .ok body := by
  cases unfolds with
  | scope got _ => exact ⟨_, got⟩

theorem Unfolds.children {body : Scope} (unfolds : Unfolds tree id) (got : tree.get id = .ok body) :
    ∀ child ∈ body.subscopes, ∃ inner, tree.get child = .ok inner := by
  cases unfolds with
  | scope foundToo inner =>
    obtain rfl := ok_unique got foundToo
    exact fun child listed => (inner child listed).isThere

theorem Unfolds.acyclic (unfolds : Unfolds tree id) : ¬ TransGen (Child tree) id id := by
  induction unfolds with
  | scope got _ ih =>
    intro cycle
    obtain ⟨child, reaches, body, foundToo, listed⟩ := TransGen.tail'_iff.mp cycle
    obtain rfl := ok_unique got foundToo
    exact ih child listed (TransGen.head' ⟨_, got, listed⟩ reaches)

theorem walkNodes_total {inner : ScopeId → Except Fault (List WalkEvent)} {nodes : List ScopeNode}
    (walked : ∀ loop, .subscope loop ∈ nodes → ∃ es, inner loop = .ok es) : ∃ es, walkNodes inner nodes = .ok es := by
  induction nodes with
  | nil => exact ⟨[], rfl⟩
  | cons node rest ih =>
    obtain ⟨later, walkedLater⟩ := ih fun loop listed => walked loop (.tail _ listed)
    cases node with
    | block b => exact ⟨_, by rw [walkNodes, walkedLater]; rfl⟩
    | subscope loop =>
      obtain ⟨first, walkedFirst⟩ := walked loop (.head _)
      exact ⟨_, by rw [walkNodes, walkedFirst, ok_bind, walkedLater]; rfl⟩

/-- The walk of such a scope has room enough. The scopes around it are all different, so there are at most as many
as the tree has. -/
theorem Unfolds.walkScope_total (unfolds : Unfolds tree id) {around : List ScopeId} (once : around.Nodup)
    (known : ∀ outer ∈ around, outer.index < tree.scopes.length)
    (inside : ∀ outer ∈ around, TransGen (Child tree) id outer)
    (enough : tree.scopes.length ≤ room + around.length) : ∃ es, tree.walkScope room id = .ok es := by
  induction unfolds generalizing around room with
  | @scope id body got inner ih =>
    have isNew : id ∉ around := fun listed => (scope got inner).acyclic (inside id listed)
    have knownToo : ∀ outer ∈ id :: around, outer.index < tree.scopes.length :=
      forall_mem_cons.mpr ⟨lt_length (get_eq_ok.mp got), known⟩
    have onceToo : (id :: around).Nodup := nodup_cons.mpr ⟨isNew, once⟩
    have few : ((id :: around).map ScopeId.index).length ≤ (range tree.scopes.length).length := by
      refine (Nodup.subperm ?_ ?_).length_le
      · exact onceToo.map_on fun _ _ _ _ same => congrArg ScopeId.mk same
      · intro index listed
        obtain ⟨outer, isOuter, rfl⟩ := mem_map.mp listed
        exact mem_range.mpr (knownToo outer isOuter)
    rw [length_map, length_cons, length_range] at few
    obtain ⟨smaller, rfl⟩ : ∃ smaller, room = smaller + 1 := ⟨room - 1, by omega⟩
    obtain ⟨es, walked⟩ : ∃ es, walkNodes (tree.walkScope smaller) body.nodes = .ok es := by
      refine walkNodes_total fun loop listed => ?_
      have isChild : Child tree loop id := ⟨body, got, Scope.mem_subscopes.mpr listed⟩
      refine ih loop (Scope.mem_subscopes.mpr listed) onceToo knownToo ?_ (by rw [length_cons]; omega)
      exact forall_mem_cons.mpr ⟨.single isChild, fun outer isOuter => .head isChild (inside outer isOuter)⟩
    exact ⟨_, by rw [walkScope, got, ok_bind, walked]; rfl⟩

theorem Walks.unfolds {nodes : List ScopeNode} (walks : Walks tree nodes es) (listed : id ∈ es.filterMap entered) :
    Unfolds tree id := by
  induction walks generalizing id with
  | nil => cases listed
  | block _ ih => exact ih listed
  | loop got inner _ innerIh laterIh =>
    simp only [cons_append, entered_enter, filterMap_append, entered_exit, mem_cons, mem_append] at listed
    obtain rfl | deeper | isLater := listed
    · exact .scope got fun child isChild => innerIh (inner.subscopes_sublist.subset isChild)
    · exact innerIh deeper
    · exact laterIh isLater

theorem scopesInOrder_total (unfolds : Unfolds tree root) : ∃ entered, tree.scopesInOrder = .ok entered := by
  obtain ⟨es, walked⟩ := unfolds.walkScope_total nodup_nil (by simp) (by simp) (Nat.le_refl _)
  obtain ⟨top, got⟩ := unfolds.isThere
  exact ⟨_, by rw [scopesInOrder, walk_eq got, walked]; rfl⟩

/-- The walk behind the order of the scopes of a tree that has some. -/
theorem scopesInOrder_ok {entered : List ScopeId} (got : tree.get root = .ok top)
    (order : tree.scopesInOrder = .ok entered) :
    ∃ es, tree.walkScope tree.scopes.length root = .ok es ∧ es.filterMap WalkEvent.entered = entered := by
  obtain ⟨es, walked, isEntered⟩ := bind_pure_inv order
  exact ⟨es, walk_eq got ▸ walked, isEntered⟩

section

variable {scope : ScopeId}

theorem checkMembers_answers (blocks : List BlockId) : Answers (tree.checkMembers f scope blocks members) := by
  induction blocks generalizing members with
  | nil => exact .ok members
  | cons b rest ih =>
    exact .bind (.demandTree _ _) fun _ _ => .bind (.demandTree _ _) fun _ _ => .bind (.demandTree _ _) fun _ _ => ih

/-- The check of the loops of a scope faults only if the first of them names it, and the depth inside is no word. -/
theorem checkChildren_cases {depth : Nat} {children : List ScopeId}
    (known : ∀ child ∈ children, ∃ body, tree.get child = .ok body) :
    Answers (tree.checkChildren scope depth children) ∨ ∃ child rest body, children = child :: rest ∧
      tree.get child = .ok body ∧ body.parent = some scope ∧ 0x100000000 ≤ depth + 1 := by
  induction children with
  | nil => exact .inl (.ok ())
  | cons child rest ih =>
    obtain ⟨body, got⟩ := known child (.head _)
    by_cases isParent : body.parent = some scope
    · by_cases shallow : depth + 1 < 0x100000000
      · refine .inl (.bind_lift got (.bind (.demandTree _ _) fun _ _ => .bind_lift (inWord_eq_ok.mpr ⟨shallow, rfl⟩)
          (.bind (.demandTree _ _) fun _ _ => ?_)))
        refine (ih (forall_mem_cons.mp known).2).resolve_right ?_
        rintro ⟨_, _, _, _, _, _, deep⟩
        omega
      · exact .inr ⟨child, rest, body, rfl, got, isParent, Nat.le_of_not_lt shallow⟩
    · refine .inl (.bind_lift got (.bind (.demandTree _ _) fun _ linked => ?_))
      exact absurd (by simpa using demandTree_eq_ok.mp linked) isParent

/-- The check of the scopes comes to one whose first loop names it as its parent, and the depth inside it is no word. -/
inductive Overflows (tree : ScopeTree) (f : Func) : List ScopeId → List ScopeId → Table BlockId ScopeId → Prop where
  | here {id child : ScopeId} {rest seen others : List ScopeId} {members extended : Table BlockId ScopeId}
      {body inner : Scope} (unseen : id ∉ seen) (got : tree.get id = .ok body)
      (headed : body.nodes.head? = some (.block body.header))
      (listed : tree.checkMembers f id body.blocks members = .ok extended) (loops : body.subscopes = child :: others)
      (isChild : tree.get child = .ok inner) (linked : inner.parent = some id)
      (deep : 0x100000000 ≤ body.depth + 1) : Overflows tree f (id :: rest) seen members
  | later {id : ScopeId} {rest seen : List ScopeId} {members extended : Table BlockId ScopeId} {body : Scope}
      (unseen : id ∉ seen) (got : tree.get id = .ok body) (headed : body.nodes.head? = some (.block body.header))
      (listed : tree.checkMembers f id body.blocks members = .ok extended)
      (linked : tree.checkChildren id body.depth body.subscopes = .ok ())
      (deeper : Overflows tree f rest (id :: seen) extended) : Overflows tree f (id :: rest) seen members

theorem Overflows.fault {scopes seen : List ScopeId} (overflows : Overflows tree f scopes seen members) :
    tree.checkScopes f scopes seen members = .error (.fault .overflow) := by
  induction overflows with
  | here unseen got headed listed loops isChild linked deep =>
    have far : inWord (_ + 1) = .error .overflow := if_neg (Nat.not_lt.mpr deep)
    simp [checkScopes, demandTree, demand, unseen, got, headed, listed, loops, checkChildren, isChild, linked, far]
  | later unseen got headed listed linked _ ih =>
    simp [checkScopes, demandTree, demand, unseen, got, headed, listed, linked, ih]

theorem checkScopes_fault {scopes seen : List ScopeId} {fault : Fault} (unfold : ∀ id ∈ scopes, Unfolds tree id)
    (stopped : tree.checkScopes f scopes seen members = .error (.fault fault)) :
    Overflows tree f scopes seen members := by
  induction scopes generalizing seen members fault with
  | nil => cases stopped
  | cons first rest ih =>
    obtain ⟨body, got⟩ := (unfold first (.head _)).isThere
    by_contra fits
    refine Answers.bind (.demandTree _ _) (fun _ unseen => .bind_lift got (.bind (.demandTree _ _) fun _ headed =>
      .bind (checkMembers_answers _) fun extended listed => ?_)) fault stopped
    have unseen : first ∉ seen := by simpa using demandTree_eq_ok.mp unseen
    have headed := of_decide_eq_true (demandTree_eq_ok.mp headed)
    obtain answers | ⟨child, others, inner, loops, isChild, linked, deep⟩ :=
      checkChildren_cases ((unfold first (.head _)).children got)
    · refine .bind answers fun _ linked => fun fault stopped => fits ?_
      exact .later unseen got headed listed linked (ih (forall_mem_cons.mp unfold).2 stopped)
    · exact absurd (.here unseen got headed listed loops isChild linked deep) fits

theorem checkSource_answers {defn : PredDef} {exited : Option ScopeId}
    (exits : tree.childWithHeader scope defn.source = .ok exited) : Answers (tree.checkSource members scope defn) := by
  unfold checkSource
  simp only
  split
  · exact .refuse _
  · split
    · exact .demandTree _ _
    · refine .bind_lift exits ?_
      split
      · exact .demandTree _ _
      · split
        · exact .refuse _
        · exact .refuse _

theorem checkDefs_answers {defs : List PredDef} (isTop : tree.get root = .ok top)
    (exits : ∀ header, ∃ exited, tree.childWithHeader scope header = .ok exited) :
    Answers (tree.checkDefs members scope defs) := by
  induction defs with
  | nil => exact .ok ()
  | cons defn rest ih =>
    obtain ⟨exited, isExited⟩ := exits defn.source
    refine .bind (checkSource_answers isExited) fun _ _ => .bind ?_ fun _ _ => ih
    refine .bind_lift (by rw [isFunctionTop, isTop]; rfl) (.bind_lift (by rw [headerPred, isTop]; rfl) ?_)
    exact .demandTree _ _

theorem checkAllDefs_answers {first : Nat} {scopes : List Scope} (isTop : tree.get root = .ok top)
    (exits : ∀ i < scopes.length, ∀ header, ∃ exited, tree.childWithHeader ⟨first + i⟩ header = .ok exited) :
    Answers (tree.checkAllDefs members first scopes) := by
  induction scopes generalizing first with
  | nil => exact .ok ()
  | cons body rest ih =>
    refine .bind (checkDefs_answers isTop (exits 0 (by simp))) fun _ _ => ih fun i inside header => ?_
    rw [show first + 1 + i = first + (i + 1) by omega]
    exact exits (i + 1) (by simpa using inside) header

end

theorem checkRoot_answers : Answers (tree.checkRoot f) := by
  unfold checkRoot
  split
  · exact .refuse _
  · exact .bind (.demandTree _ _) fun _ _ => .demandTree _ _

/-- Only the walk of the tree and the depths of its scopes can fault. -/
theorem validate_answers {entered : List ScopeId} (unfolds : Unfolds tree root)
    (order : tree.scopesInOrder = .ok entered) (fits : ¬ Overflows tree f entered [] Table.empty) :
    Answers (tree.validate f) := by
  obtain ⟨top, got⟩ := unfolds.isThere
  obtain ⟨es, walked, rfl⟩ := scopesInOrder_ok got order
  refine .bind checkRoot_answers fun _ _ =>
    .bind_lift order (.bind ?_ fun members scopesChecked => .bind ?_ fun _ coverChecked =>
    .bind ?_ fun _ layoutChecked => .bind ?_ fun _ _ => ?_)
  · exact fun fault stopped =>
      fits (checkScopes_fault (fun id listed => (walkScope_walks walked).unfolds listed) stopped)
  · unfold checkCovered
    split
    · exact .refuse _
    · exact .ok ()
  · unfold checkLayout
    split
    · exact .refuse _
    · exact .ok ()
  · refine checkAllDefs_answers got fun i inside header => ?_
    rw [Nat.zero_add]
    have isScope : tree.get ⟨i⟩ = .ok (tree.scopes.get ⟨i, inside⟩) := get_eq_ok.mpr (by simp)
    have unfoldsToo := (walkScope_walks walked).unfolds (checkCovered_ok coverChecked isScope)
    rw [childWithHeader, isScope, ok_bind]
    exact findHeader_ok (unfoldsToo.children isScope)
  · obtain ⟨_, _, each, _, origin⟩ := checkScopes_ok scopesChecked
    obtain ⟨exits, isExits⟩ : ∃ exits, tree.allExits members f 0 tree.scopes = .ok exits := by
      refine allExits_total fun b listed => ?_
      obtain ⟨home, isHome⟩ := checkLayout_ok layoutChecked listed
      rcases origin b home isHome with before | ⟨isEntered, body, isScope, inside⟩
      · simp at before
      · obtain ⟨o, isOther, checked⟩ := each home isEntered
        obtain rfl := ok_unique isScope isOther
        obtain ⟨⟨held, isHeld, _⟩, _⟩ := checked.usable b inside
        exact ⟨held, present_eq_ok.mpr isHeld⟩
    rw [isExits]
    exact .ok _

/-- The parent links lead from the scope to the top within the given number of steps. -/
inductive Climbs (tree : ScopeTree) : Nat → Option ScopeId → Prop where
  | top (steps : Nat) : Climbs tree steps none
  | link {steps : Nat} {id : ScopeId} {body : Scope} (got : tree.get id = .ok body)
      (later : Climbs tree steps body.parent) : Climbs tree (steps + 1) (some id)

namespace Climbs

variable {start : Option ScopeId}

theorem add (climbs : Climbs tree steps start) (more : Nat) : Climbs tree (steps + more) start := by
  induction climbs with
  | top steps => exact .top _
  | link got _ ih => exact Nat.add_right_comm .. ▸ .link got ih

theorem isWithin_add (climbs : Climbs tree steps start) (outer : ScopeId) (more : Nat) :
    tree.isWithin outer (steps + more) start = tree.isWithin outer steps start := by
  induction climbs with
  | top steps => simp [isWithin]
  | link got _ ih => rw [Nat.add_right_comm, isWithin, isWithin, present_eq_ok.mp got, Option.bind_some, ih]

end Climbs

/-- A scope that is entered among the nodes is entered by one of their loops. -/
theorem walkNodes_mem {inner : ScopeId → Except Fault (List WalkEvent)} {nodes : List ScopeNode}
    (walked : walkNodes inner nodes = .ok es) (listed : inside ∈ es.filterMap entered) :
    ∃ loop within, .subscope loop ∈ nodes ∧ inner loop = .ok within ∧ inside ∈ within.filterMap entered ∧
      within <+ es := by
  induction nodes generalizing es with
  | nil =>
    cases walked
    cases listed
  | cons node rest ih =>
    cases node with
    | block b =>
      obtain ⟨later, remaining, rfl⟩ := bind_pure_inv walked
      obtain ⟨loop, within, isNode, walkedLoop, isInside, part⟩ := ih remaining listed
      exact ⟨loop, within, .tail _ isNode, walkedLoop, isInside, part.cons _⟩
    | subscope loop =>
      obtain ⟨first, walkedFirst, later, remaining, rfl⟩ := bind_bind_pure_inv walked
      rw [filterMap_append, mem_append] at listed
      rcases listed with isFirst | isLater
      · exact ⟨loop, first, .head _, walkedFirst, isFirst, sublist_append_left ..⟩
      · obtain ⟨o, within, isNode, walkedLoop, isInside, part⟩ := ih remaining isLater
        exact ⟨o, within, .tail _ isNode, walkedLoop, isInside, part.trans (sublist_append_right ..)⟩

/-- Links between the scopes that a walk enters lead back to its start. -/
theorem climbs_of_entered (walked : tree.walkScope room id = .ok es)
    (above : ∀ body, tree.get id = .ok body → Climbs tree steps body.parent)
    (linked : ∀ outer ∈ es.filterMap entered, ∀ body, tree.get outer = .ok body →
      ∀ child ∈ body.subscopes, ∃ inner, tree.get child = .ok inner ∧ inner.parent = some outer)
    (isEntered : inside ∈ es.filterMap entered) : Climbs tree (steps + room) (some inside) := by
  induction room generalizing id es steps with
  | zero =>
    obtain ⟨_, _, _, impossible, _⟩ := walkScope_ok walked
    omega
  | succ smaller ih =>
    obtain ⟨_, body, within, same, got, walkedNodes, rfl⟩ := walkScope_ok walked
    obtain rfl := Nat.succ.inj same
    have here : Climbs tree (steps + 1) (some id) := .link got (above body got)
    rw [show steps + (smaller + 1) = steps + 1 + smaller by omega]
    simp only [cons_append, entered_enter, filterMap_append, entered_exit, filterMap_nil, append_nil,
      mem_cons] at isEntered linked
    rcases isEntered with rfl | deeper
    · exact here.add smaller
    · obtain ⟨loop, inLoop, isNode, loopWalked, isInside, part⟩ := walkNodes_mem walkedNodes deeper
      refine ih loopWalked (fun inner innerFound => ?_)
        (fun outer isOuter => linked outer (.inr ((part.filterMap _).subset isOuter))) isInside
      obtain ⟨o, otherFound, isParent⟩ := linked id (.inl rfl) body got loop (Scope.mem_subscopes.mpr isNode)
      obtain rfl := ok_unique innerFound otherFound
      rw [isParent]
      exact here

/-- The check of a tree faults exactly if the root is in order and the walk of the tree meets a loop that is missing or
lies inside itself, or a scope with a loop at the largest depth. The parent links that it follows after the checks of
the links lead to the root. -/
theorem validate_fault_iff (tree : ScopeTree) (func : Func) :
    ((∃ fault, tree.validate func = .error (.fault fault)) ↔
      (∃ top, tree.get root = .ok top ∧ top.parent = none ∧ top.header = func.entry) ∧
        (¬ Unfolds tree root ∨
          ∃ entered, tree.scopesInOrder = .ok entered ∧ Overflows tree func entered [] Table.empty)) ∧
    ∀ entered members, tree.checkRoot func = .ok () → tree.scopesInOrder = .ok entered →
      tree.checkScopes func entered [] Table.empty = .ok members → ∀ block,
        Climbs tree tree.scopes.length (members.get? block) ∧
        ∀ outer more, tree.isWithin outer (tree.scopes.length + more) (members.get? block) =
          tree.holdsBlock members outer block := by
  refine ⟨⟨?_, ?_⟩, ?_⟩
  · rintro ⟨fault, stopped⟩
    refine ⟨?_, or_iff_not_imp_left.mpr fun unfolds => ?_⟩
    · rw [← checkRoot_iff]
      cases checked : tree.checkRoot func with
      | ok => rfl
      | error failure =>
        obtain ⟨cause, rfl⟩ := checkRoot_answers.refused checked
        rw [validate, checked, error_bind] at stopped
        cases stopped
    · have unfolds := not_not.mp unfolds
      obtain ⟨entered, order⟩ := scopesInOrder_total unfolds
      exact ⟨entered, order, not_not.mp fun fits => validate_answers unfolds order fits fault stopped⟩
  · rintro ⟨⟨top, found, isRoot⟩, endless | ⟨entered, order, overflows⟩⟩
    · cases order : tree.scopesInOrder with
      | ok entered =>
        obtain ⟨events, walked, _⟩ := scopesInOrder_ok found order
        obtain ⟨_, _, _, _, _, _, rfl⟩ := walkScope_ok walked
        exact absurd ((walkScope_walks walked).unfolds (by simp)) endless
      | error fault =>
        refine ⟨fault, ?_⟩
        rw [validate, checkRoot_iff.mpr ⟨top, found, isRoot⟩, ok_bind, order]
        rfl
    · refine ⟨.overflow, ?_⟩
      rw [validate, checkRoot_iff.mpr ⟨top, found, isRoot⟩, ok_bind, order, liftM_ok, ok_bind,
        overflows.fault, error_bind]
  · intro entered members rootChecked order scopesChecked block
    obtain ⟨top, found, isTop, _⟩ := checkRoot_iff.mp rootChecked
    obtain ⟨events, walked, rfl⟩ := scopesInOrder_ok found order
    obtain ⟨_, _, each, _, origin⟩ := checkScopes_ok scopesChecked
    have climbs : Climbs tree tree.scopes.length (members.get? block) := by
      cases isHome : members.get? block with
      | none => exact .top _
      | some home =>
        rcases origin block home isHome with before | ⟨isEntered, _⟩
        · simp at before
        · refine Nat.zero_add tree.scopes.length ▸ climbs_of_entered walked ?_ ?_ isEntered
          · intro content isContent
            rw [ok_unique isContent found, isTop]
            exact .top 0
          · intro outer isOuter content isContent child listed
            obtain ⟨other, isOther, checked⟩ := each outer isOuter
            obtain rfl := ok_unique isContent isOther
            obtain ⟨inner, isInner, isParent, _⟩ := checked.children child listed
            exact ⟨inner, isInner, isParent⟩
    exact ⟨climbs, fun outer more => climbs.isWithin_add outer more⟩

/-- Two scopes, the second a loop; the root names the given loop. -/
def rootNaming (loop : ScopeId) : ScopeTree where
  scopes := [⟨none, 0, ⟨0⟩, [.block ⟨0⟩, .subscope loop], [], none⟩, ⟨some root, 1, ⟨1⟩, [.block ⟨1⟩], [], none⟩]
  blockPreds := Table.ofList [(⟨0⟩, ⟨0⟩), (⟨1⟩, ⟨1⟩)]
  predCount := 2

def twoBlocks : Func where
  name := "two"
  blocks := [{ name := "entry" }, { name := "loop", insts := [.plain (.ret ⟨1⟩)] }]
  layout := [⟨0⟩, ⟨1⟩]

theorem validate_fault_iff_rootNaming :
    (¬ ∃ fault, (rootNaming ⟨1⟩).validate twoBlocks = .error (.fault fault)) ∧
    ∃ members, (rootNaming ⟨1⟩).checkScopes twoBlocks [⟨0⟩, ⟨1⟩] [] Table.empty = .ok members ∧
      members.get? ⟨1⟩ = some ⟨1⟩ ∧ Climbs (rootNaming ⟨1⟩) 2 (members.get? ⟨1⟩) := by
  obtain ⟨faults, climbs⟩ := validate_fault_iff (rootNaming ⟨1⟩) twoBlocks
  refine ⟨fun faulty => ?_, _, rfl, rfl, (climbs [⟨0⟩, ⟨1⟩] _ rfl rfl rfl ⟨1⟩).1⟩
  obtain endless | ⟨entered, order, overflows⟩ := (faults.mp faulty).2
  · refine endless (.scope rfl fun child listed => ?_)
    obtain rfl : child = ⟨1⟩ := mem_singleton.mp listed
    exact .scope rfl (by simp [Scope.subscopes])
  · obtain rfl : [⟨0⟩, ⟨1⟩] = entered := Except.ok.inj order
    cases overflows.fault

/-- A loop that is missing, a root that names itself and a root at the largest depth are no defects that the check
reports. -/
theorem validate_faults :
    (rootNaming ⟨2⟩).validate twoBlocks = .error (.fault .dangling) ∧
      (rootNaming root).validate twoBlocks = .error (.fault .endless) ∧
      ((rootNaming ⟨1⟩).modify root ({ · with depth := 0xffffffff })).validate twoBlocks = .error (.fault .overflow) :=
  ⟨rfl, rfl, rfl⟩

end ScopeTree

end SinglePath
