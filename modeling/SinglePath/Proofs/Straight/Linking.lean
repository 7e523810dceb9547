import SinglePath.Proofs.Plan.Emitted
import SinglePath.Proofs.Straight.Rewriting

namespace SinglePath

open List Nat Option Work

/-- The code without its trailing branches. -/
def stripped (code : List Inst) : List Inst := (code.reverse.dropWhile Inst.isBranch).reverse

/-- The trailing branches of the code. -/
def trailing (code : List Inst) : List Inst := (code.reverse.takeWhile Inst.isBranch).reverse

theorem stripped_append_trailing (code : List Inst) : stripped code ++ trailing code = code := by
  rw [stripped, trailing, ← reverse_append, takeWhile_append_dropWhile, reverse_reverse]

variable {inst : Inst} {f next : Func} {b last : BlockId} {code : List Inst}

theorem mem_of_mem_stripped (mem : inst ∈ stripped code) : inst ∈ code :=
  stripped_append_trailing code ▸ mem_append_left _ mem

theorem isBranch_of_mem_trailing (mem : inst ∈ trailing code) : inst.isBranch = true :=
  all_eq_true.mp all_takeWhile inst (mem_reverse.mp mem)

theorem stripped_getLast? (isLast : (stripped code).getLast? = some inst) : inst.isBranch = false := by
  rw [stripped, getLast?_reverse] at isLast
  have := head?_dropWhile_not Inst.isBranch code.reverse
  simpa [isLast] using this

/-- Code whose last instruction is no branch, with branches after it, is stripped of these. -/
theorem stripped_eq {body branches : List Inst} (ends : ∀ inst, body.getLast? = some inst → inst.isBranch = false)
    (only : ∀ inst ∈ branches, inst.isBranch = true) :
    stripped (body ++ branches) = body ∧ trailing (body ++ branches) = branches := by
  have reversed : ∀ inst ∈ branches.reverse, inst.isBranch = true := fun inst mem =>
    only inst (mem_reverse.mp mem)
  have stops : body.reverse.takeWhile Inst.isBranch = [] ∧ body.reverse.dropWhile Inst.isBranch = body.reverse := by
    cases last : body.reverse with
    | nil => simp
    | cons inst rest =>
      have notBranch : inst.isBranch = false := ends inst (by rw [← head?_reverse, last]; rfl)
      simp [notBranch]
  constructor
  · rw [stripped, reverse_append, dropWhile_append_of_pos reversed, stops.2, reverse_reverse]
  · rw [trailing, reverse_append, takeWhile_append_of_pos reversed, stops.1, append_nil, reverse_reverse]

theorem stripped_of_last (ends : ∀ inst, code.getLast? = some inst → inst.isBranch = false) :
    stripped code = code ∧ trailing code = [] := by
  simpa using stripped_eq ends (show ∀ inst ∈ ([] : List Inst), inst.isBranch = true from nofun)

theorem stripped_of_own {plan : Plan} (own : plan.OwnCode code) : stripped code = code ∧ trailing code = [] :=
  stripped_of_last fun inst isLast => (own inst (mem_of_getLast? isLast)).not_isBranch

/-- A block of the chain, its code, and where its branch leads if it has one. -/
structure Link where
  block : BlockId
  code : List Inst
  back : Option BlockId := none
deriving DecidableEq, Repr

namespace Func

variable {n : Nat}

def liveInsOf (f : Func) (b : BlockId) : List PReg := ((f.block? b).map (·.liveIns)).getD []

theorem liveInsOf_of_sameButEdges (same : f.SameButEdges next) (b : BlockId) : next.liveInsOf b = f.liveInsOf b := by
  have mapped := congrArg (Option.map (·.liveIns)) (same.block? b)
  simp only [Option.map_map, Function.comp_def] at mapped
  simp only [liveInsOf, mapped]

theorem SameButCode.liveInsOf (same : SameButCode f next) (b : BlockId) : next.liveInsOf b = f.liveInsOf b := by
  have mapped := congrArg (Option.map (·.liveIns)) (same.block? b)
  simp only [Option.map_map, Function.comp_def] at mapped
  simp only [Func.liveInsOf, mapped]

/-- The block right after the last one, if there is a last one. -/
def placeAfter (b : BlockId) (last : Option BlockId) (layout : List BlockId) : List BlockId :=
  match last with
  | some last => insertAfter b last (layout.filter (· ≠ b))
  | none => layout

/-- What it takes to put a block after the last one of a chain. -/
structure Follows (f next : Func) (last : Option BlockId) (b : BlockId) : Prop where
  codeOf : ∀ o, next.codeOf o = if o = b then stripped (f.codeOf b) else f.codeOf o
  liveInsOf : ∀ o, next.liveInsOf o = f.liveInsOf o
  standing : ∀ o, next.Standing o ↔ f.Standing o
  linked : f.Linked → next.Linked
  edges : ∀ u o, o ∈ next.succsOf u ↔
    (o ∈ f.succsOf u ∧ u ≠ b) ∨ (last = some u ∧ o = b)
  layout : next.layout = placeAfter b last f.layout
  length : next.blocks.length = f.blocks.length
  entry : next.entry = f.entry

theorem removeBranches_eq (removed : f.removeBranches b = .ok (n, next)) : next = f.modify b Block.withoutBranches := by
  obtain ⟨c, _, removed⟩ := bind_inv removed
  exact (congrArg Prod.snd (pure_inv removed)).symm

theorem codeOf_withoutBranches (f : Func) (b o : BlockId) : (f.modify b Block.withoutBranches).codeOf o =
      if o = b then stripped (f.codeOf b) else f.codeOf o := by
  rw [codeOf_modify]
  split
  · rename_i same
    rw [same, codeOf]
    cases f.block? b <;> rfl
  · rfl

theorem liveInsOf_modify (f : Func) (b o : BlockId) (change : Block → Block)
    (keeps : ∀ c, (change c).liveIns = c.liveIns) : (f.modify b change).liveInsOf o = f.liveInsOf o := by
  simp only [liveInsOf, block?_modify]
  split <;> simp [Function.comp_def, keeps]

theorem follows_none {bare : Func} (removed : f.removeSuccs b = .ok bare)
    (unbranched : bare.removeBranches b = .ok (n, next)) : Follows f next none b := by
  obtain ⟨relinked, edges⟩ := removeSuccs_ok removed
  have isNext := removeBranches_eq unbranched
  have keepsSuccs : ∀ c : Block, c.withoutBranches.succs = c.succs := fun _ => rfl
  have keepsPreds : ∀ c : Block, c.withoutBranches.preds = c.preds := fun _ => rfl
  subst isNext
  refine ⟨fun o => ?_, fun o => ?_, fun o => ?_, fun linked => ?_, fun u o => ?_, ?_, ?_, ?_⟩
  · rw [codeOf_withoutBranches, codeOf_of_sameButEdges relinked.same, codeOf_of_sameButEdges relinked.same]
  · rw [liveInsOf_modify _ _ _ _ (by exact fun _ => rfl), liveInsOf_of_sameButEdges relinked.same]
  · rw [standing_modify _ _ _ _ (by exact fun _ => rfl), standing_of_sameButEdges relinked.same]
  · exact (relinked.linked linked).modify b _ keepsSuccs keepsPreds
  · rw [succsOf_modify _ _ _ _ keepsSuccs, edges]
    simp
  · exact relinked.same.layout.symm
  · exact (length_modify ..).trans relinked.same.blocks.symm
  · exact relinked.same.entry.symm

/-- An edge from the last block and a place right after it. -/
theorem Follows.after {linked : Func} (follows : Follows f next none b)
    (added : next.addEdge last b = .ok linked) : Follows f (linked.moveAfter b last) (some last) b := by
  have same := addEdge_sameButEdges added
  refine ⟨fun o => ?_, fun o => ?_, fun o => ?_, fun isLinked => ?_, fun u o => ?_, ?_, ?_, ?_⟩
  · exact (codeOf_of_sameButEdges same o).trans (follows.codeOf o)
  · exact (liveInsOf_of_sameButEdges same o).trans (follows.liveInsOf o)
  · exact (standing_of_sameButEdges same o).trans (follows.standing o)
  · have isLinked := (follows.linked isLinked).addEdge added
    exact ⟨isLinked.ends, isLinked.succsOnce, isLinked.predsOnce⟩
  · refine (mem_succsOf_addEdge added u o).trans ?_
    rw [follows.edges]
    simp only [reduceCtorEq, false_and, or_false, some.injEq]
    constructor
    · rintro (old | ⟨rfl, rfl⟩)
      · exact .inl old
      · exact .inr ⟨rfl, rfl⟩
    · rintro (old | ⟨rfl, rfl⟩)
      · exact .inl old
      · exact .inr ⟨rfl, rfl⟩
  · change insertAfter b last (linked.layout.filter _) = _
    rw [← same.layout, follows.layout]
    rfl
  · exact same.blocks.symm.trans follows.length
  · exact same.entry.symm.trans follows.entry

end Func

namespace Chain

/-- What it takes to put a block after the last one of a chain, and what is counted. -/
structure Grows (chain after : Chain) (b : BlockId) : Prop where
  last : after.last = some b
  follows : Func.Follows chain.work.func after.work.func chain.last b
  found : ∃ c, chain.work.func.block? b = some c
  stats : after.work.stats = { chain.work.stats with
    removedBranches := chain.work.stats.removedBranches + (trailing (chain.work.func.codeOf b)).length }

/-- The next block of a chain loses its edges and branches and follows the last one. -/
theorem next_ok {chain after : Chain} (res : chain.next b = .ok after) : Grows chain after b := by
  obtain ⟨bare, removed, ⟨n, unbranched⟩, unbranching, res⟩ := bind_bind_inv res
  have removed := expect_eq_ok.mp removed
  obtain ⟨c, got, _⟩ := bind_inv removed
  have counted : n = (trailing (chain.work.func.codeOf b)).length := by
    obtain ⟨bareContent, bareGot, counting⟩ := bind_inv (expect_eq_ok.mp unbranching)
    have sameCode := Func.codeOf_of_sameButEdges (Func.removeSuccs_ok removed).1.same b
    rw [← sameCode, Func.codeOf_eq (Func.get_eq_ok.mp bareGot), trailing, length_reverse]
    exact (congrArg Prod.fst (pure_inv counting)).symm
  subst counted
  have follows := Func.follows_none removed (expect_eq_ok.mp unbranching)
  cases isLast : chain.last with
  | none =>
    rw [isLast] at res
    obtain rfl := pure_inv res
    exact ⟨rfl, isLast ▸ follows, ⟨c, Func.get_eq_ok.mp got⟩, rfl⟩
  | some last =>
    rw [isLast] at res
    obtain ⟨linked, added, rfl⟩ := bind_pure_inv res
    exact ⟨rfl, isLast ▸ follows.after (expect_eq_ok.mp added), ⟨c, Func.get_eq_ok.mp got⟩, rfl⟩

end Chain

namespace Func

theorem insertAfter_append {before : List BlockId} (after : List BlockId) (first : last ∉ before) :
    insertAfter b last (before ++ last :: after) = before ++ last :: b :: after := by
  induction before with
  | nil => simp [insertAfter]
  | cons o rest ih =>
    have ne : o ≠ last := by
      rintro rfl
      exact first (.head _)
    have firstInRest : last ∉ rest := fun isLater => first (.tail _ isLater)
    simp [insertAfter, ne, ih firstInRest]

theorem mem_placeAfter {o : BlockId} {last : Option BlockId} {layout : List BlockId}
    (mem : o ∈ placeAfter b last layout) : o = b ∨ o ∈ layout := by
  have inserted {last : BlockId} {layout : List BlockId} (mem : o ∈ insertAfter b last layout) :
      o = b ∨ o ∈ layout := by
    induction layout with
    | nil => exact .inl (mem_singleton.mp mem)
    | cons first rest ih =>
      rw [insertAfter] at mem
      split at mem
      · grind
      · rcases mem_cons.mp mem with rfl | later
        · exact .inr (.head _)
        · exact (ih later).imp_right (mem_cons_of_mem _)
  cases last with
  | none => exact .inr mem
  | some last => exact (inserted mem).imp_right fun kept => (mem_filter.mp kept).1

/-- The entry is laid out, and no block is twice. -/
def LaidOut (f : Func) : Prop := f.layout.Nodup ∧ f.entry ∈ f.layout

/-- The layout of a function in which some blocks are already chained, and some spare ones are not in their places
yet. -/
structure Placing (base f : Func) (links : List Link) (spare : List BlockId) : Prop where
  once : f.layout.Nodup
  placed : ∃ before after, f.layout = before ++ links.map (·.block) ++ after ∧
    ∀ b ∈ before ++ after, b ∈ base.layout ∨ b ∈ spare
  kept : ∀ b ∈ base.layout, b ∈ f.layout

/-- The blocks of such a function. -/
structure Linking (base f : Func) (links : List Link) (spare : List BlockId) : Prop where
  placing : base.LaidOut → Placing base f links spare
  links_once : (links.map (·.block)).Nodup
  within : ∀ b ∈ links.map (·.block), b.index < f.blocks.length
  codes : ∀ link ∈ links, f.codeOf link.block = link.code
  others : ∀ b, b.index < base.blocks.length → b ∉ links.map (·.block) →
    f.codeOf b = base.codeOf b
  liveIns : ∀ b, b.index < base.blocks.length → f.liveInsOf b = base.liveInsOf b
  grown : base.blocks.length ≤ f.blocks.length
  inside : ∀ b ∈ f.layout, b.index < f.blocks.length
  linked : base.Linked → f.Linked
  succs : ∀ before link after, links = before ++ link :: after → ∀ o, o ∈ f.succsOf link.block ↔
    (after.head?).map (·.block) = some o ∨ link.back = some o
  backs : ∀ before link after, links = before ++ link :: after → ∀ header, link.back = some header →
    header ∈ before.map (·.block)
  rest : ∀ b o, o ∈ f.succsOf b → b ∉ links.map (·.block) → o ∈ base.succsOf b
  entry : f.entry = base.entry
  fresh : ∀ b : BlockId, base.blocks.length ≤ b.index → b.index < f.blocks.length →
    b ∈ links.map (·.block) ∨ b ∈ spare
  standing : ∀ b, f.Standing b ↔
    base.Standing b ∨ base.blocks.length ≤ b.index ∧ b.index < f.blocks.length

theorem succsOf_addBlock (f : Func) (name : String) (insts : List Inst) (b : BlockId) :
    (f.addBlock name insts).2.succsOf b = f.succsOf b := by
  simp only [succsOf, Func.block?, Func.addBlock, getElem?_append]
  grind

theorem predsOf_addBlock (f : Func) (name : String) (insts : List Inst) (b : BlockId) :
    (f.addBlock name insts).2.predsOf b = f.predsOf b := by
  simp only [predsOf, Func.block?, Func.addBlock, getElem?_append]
  grind

theorem standing_addBlock (f : Func) (name : String) (insts : List Inst) (b : BlockId) :
    (f.addBlock name insts).2.Standing b ↔ f.Standing b ∨ b.index = f.blocks.length := by
  simp only [Standing, Func.block?, Func.addBlock, getElem?_append]
  grind

theorem Linked.addBlock (linked : f.Linked) (name : String) (insts : List Inst) : (f.addBlock name insts).2.Linked where
  ends u t := by rw [succsOf_addBlock, predsOf_addBlock, linked.ends]
  succsOnce b := by simpa only [succsOf_addBlock] using linked.succsOnce b
  predsOnce b := by simpa only [predsOf_addBlock] using linked.predsOnce b

section

variable {base : Func} {links : List Link} {spare : List BlockId}

/-- The layout around the blocks of the chain, once the block stands after the last one of them. -/
theorem Placing.follow (placing : Placing base f links spare)
    (unlinked : b ∉ links.map (·.block)) (laid : links = [] → b ∈ f.layout)
    (onlySpare : ∀ o ∈ spare, o = b) (follows : Follows f next (links.getLast?.map (·.block)) b) :
    next.layout.Nodup ∧ (∀ o, o ∈ next.layout ↔ o ∈ f.layout ∨ o = b) ∧
      ∃ before after, next.layout = before ++ (links.map (·.block) ++ [b]) ++ after ∧
        ∀ o ∈ before ++ after, o ∈ base.layout := by
  have once := placing.once
  obtain ⟨before, after, layout, members⟩ := placing.placed
  have based : ∀ o ∈ before ++ after, o ≠ b → o ∈ base.layout := fun o member ne =>
    (members o member).resolve_right fun isSpare => ne (onlySpare o isSpare)
  rcases eq_nil_or_concat links with rfl | ⟨init, last, rfl⟩
  · have same : next.layout = f.layout := follows.layout
    have laidOut := laid rfl
    obtain ⟨first, rest, split⟩ := append_of_mem laidOut
    rw [same]
    refine ⟨once, fun _ => ⟨.inl, fun either => either.elim id fun isBlock => isBlock ▸ laidOut⟩, first, rest,
      by simp [split], fun o member => ?_⟩
    have whole : before ++ after = first ++ b :: rest := by simpa [layout] using split
    have ne : o ≠ b := by
      rintro rfl
      grind
    refine based o ?_ ne
    rw [whole]
    grind
  · have placed : next.layout = insertAfter b last.block (f.layout.filter (· ≠ b)) := by
      simpa [placeAfter] using follows.layout
    have filtered : f.layout.filter (· ≠ b) =
        before.filter (· ≠ b) ++ init.map (·.block) ++ last.block :: after.filter (· ≠ b) := by
      have keepsInit : (init.map (·.block)).filter (· ≠ b) = init.map (·.block) :=
        filter_eq_self.mpr fun o member => by grind
      have keepsLast : last.block ≠ b := by grind
      rw [layout]
      simp only [concat_eq_append, map_append, map_cons, map_nil, filter_append, keepsInit, append_assoc]
      simp [keepsLast]
    have first : last.block ∉ before.filter (· ≠ b) ++ init.map (·.block) := by
      grind
    rw [filtered, insertAfter_append _ first] at placed
    refine ⟨?_, fun o => ?_, before.filter (· ≠ b), after.filter (· ≠ b), by simp [placed], ?_⟩
    · have rest : (f.layout.filter (· ≠ b)).Nodup := once.filter _
      rw [placed]
      grind
    · have sameMembers : o ∈ f.layout.filter (· ≠ b) ↔ o ∈ f.layout ∧ o ≠ b := by simp
      rw [filtered] at sameMembers
      rw [placed]
      by_cases isBlock : o = b
      · simp [isBlock]
      · simp only [isBlock, ne_eq, not_false_iff, and_true] at sameMembers
        rw [or_iff_left isBlock, ← sameMembers]
        simp [isBlock]
    · intro o member
      rw [← filter_append, mem_filter] at member
      exact based o member.1 (by simpa using member.2)

end

namespace Linking

variable {base : Func} {links : List Link} {spare : List BlockId}

/-- Nothing is linked in the beginning. -/
theorem start (inside : ∀ b ∈ base.layout, b.index < base.blocks.length) : Linking base base [] [] where
  placing laidOut := ⟨laidOut.1, ⟨base.layout, [], by simp, by simp⟩, fun _ inside => inside⟩
  links_once := nodup_nil
  within _ member := nomatch member
  codes _ member := nomatch member
  others _ _ _ := rfl
  liveIns _ _ := rfl
  grown := le_rfl
  inside := inside
  linked := id
  succs before link after isEmpty := by simp at isEmpty
  backs before link after isEmpty := by simp at isEmpty
  rest _ _ edge _ := edge
  entry := rfl
  fresh _ new old := absurd old (Nat.not_lt.mpr new)
  standing _ := (or_iff_left (by omega)).symm

/-- A new block is a spare one. -/
theorem addBlock (linking : Linking base f links []) (name : String) (insts : List Inst) :
    Linking base (f.addBlock name insts).2 links [(f.addBlock name insts).1] := by
  have newOnce : (⟨f.blocks.length⟩ : BlockId) ∉ f.layout := fun inside =>
    Nat.lt_irrefl _ (linking.inside _ inside)
  have block? : ∀ b : BlockId, b.index < f.blocks.length →
      (f.addBlock name insts).2.block? b = f.block? b := fun b inside => by
    simp [block?, Func.addBlock, getElem?_append_left inside]
  have within : ∀ b : BlockId, b.index < base.blocks.length → b.index < f.blocks.length :=
    fun b inside => Nat.lt_of_lt_of_le inside linking.grown
  refine ⟨fun laidOut => ?_, linking.links_once, ?_, ?_, ?_, ?_, ?_, ?_,
    fun linked => (linking.linked linked).addBlock name insts, ?_, linking.backs, ?_, linking.entry, ?_, fun b => ?_⟩
  · have placing := linking.placing laidOut
    refine ⟨nodup_append.mpr ⟨placing.once, by simp, ?_⟩, ?_, fun b inside =>
      mem_append_left _ (placing.kept b inside)⟩
    · rintro b inside _ (isNew : _ ∈ [_]) rfl
      exact newOnce (mem_singleton.mp isNew ▸ inside)
    · obtain ⟨before, after, layout, members⟩ := placing.placed
      refine ⟨before, after ++ [⟨f.blocks.length⟩], by simp [Func.addBlock, layout], fun b member => ?_⟩
      rw [← append_assoc, mem_append] at member
      rcases member with old | isNew
      · exact (members b old).imp id (by simp)
      · exact .inr isNew
  · exact fun b member => Nat.lt_of_lt_of_le (linking.within b member) (by simp [Func.addBlock])
  · intro link member
    rw [codeOf, block? _ (linking.within _ (mem_map_of_mem member))]
    exact linking.codes link member
  · intro b inside unlinked
    rw [codeOf, block? _ (within b inside)]
    exact linking.others b inside unlinked
  · intro b inside
    rw [liveInsOf, block? _ (within b inside)]
    exact linking.liveIns b inside
  · exact Nat.le_trans linking.grown (by simp [Func.addBlock])
  · intro b member
    simp only [Func.addBlock, length_append, length_singleton]
    rcases mem_append.mp member with old | isNew
    · exact lt_succ_of_lt (linking.inside b old)
    · rw [mem_singleton.mp isNew]
      exact lt_succ_self _
  · intro before link after split o
    rw [succsOf_addBlock]
    exact linking.succs before link after split o
  · intro b o edge unlinked
    rw [succsOf_addBlock] at edge
    exact linking.rest b o edge unlinked
  · intro b new exists_
    rw [Func.addBlock, length_append, length_singleton] at exists_
    rcases Nat.lt_succ_iff_lt_or_eq.mp exists_ with old | isNew
    · exact (linking.fresh b new old).imp_right (by simp)
    · exact .inr (mem_singleton.mpr (congrArg BlockId.mk isNew))
  · have grown := linking.grown
    rw [standing_addBlock, linking.standing, Func.addBlock, length_append, length_singleton]
    grind

/-- A block that is added is not linked yet. -/
theorem spare_new (linking : Linking base f links []) (name : String) (insts : List Inst) :
    (f.addBlock name insts).1 ∉ links.map (·.block) := fun member =>
  Nat.lt_irrefl _ (linking.within _ member)

/-- The code of a block outside the base and the chain is free. -/
theorem setCode (linking : Linking base f links spare) (unlinked : b ∉ links.map (·.block))
    (outside : base.blocks.length ≤ b.index) (insts : List Inst) : Linking base (f.setCode b insts) links spare := by
  have same := sameButCode_setCode f b insts
  have codeOf : ∀ o, o ≠ b → (f.setCode b insts).codeOf o = f.codeOf o :=
    fun o ne => by rw [Func.setCode, codeOf_modify, if_neg ne]
  refine ⟨fun laidOut => ?_, linking.links_once, ?_, ?_, ?_, ?_, ?_, ?_, same.linked ∘ linking.linked, ?_,
    linking.backs, ?_, linking.entry, ?_, fun o => ?_⟩
  · obtain ⟨once, placed, kept⟩ := linking.placing laidOut
    exact ⟨once, placed, kept⟩
  · rw [same.length]
    exact linking.within
  · intro link member
    rw [codeOf _ fun isBlock => unlinked (isBlock ▸ mem_map_of_mem member)]
    exact linking.codes link member
  · intro o inside notLinked
    have ne : o ≠ b := by
      rintro rfl
      exact Nat.not_lt.mpr outside inside
    rw [codeOf o ne]
    exact linking.others o inside notLinked
  · intro o inside
    exact (liveInsOf_modify f b o _ (by exact fun _ => rfl)).trans (linking.liveIns o inside)
  · rw [same.length]
    exact linking.grown
  · rw [same.length]
    exact linking.inside
  · intro before link after split o
    rw [same.succsOf]
    exact linking.succs before link after split o
  · intro o succ edge notLinked
    rw [same.succsOf] at edge
    exact linking.rest o succ edge notLinked
  · rw [same.length]
    exact linking.fresh
  · rw [same.standing, same.length, linking.standing]

/-- The block becomes the last one of the chain. -/
theorem follow (linking : Linking base f links spare) (exists_ : b.index < f.blocks.length)
    (unlinked : b ∉ links.map (·.block)) (laid : base.LaidOut → links = [] → b ∈ f.layout)
    (onlySpare : ∀ o ∈ spare, o = b) (follows : Follows f next (links.getLast?.map (·.block)) b) :
    Linking base next (links ++ [⟨b, stripped (f.codeOf b), none⟩]) [] := by
  refine ⟨fun laidOut => ?_, ?_, ?_, ?_, ?_, ?_, ?_, ?_, follows.linked ∘ linking.linked, ?_, ?_, ?_,
    follows.entry.trans linking.entry, ?_, fun o => ?_⟩
  · have placing := linking.placing laidOut
    obtain ⟨once, sameMembers, before, after, layout, members⟩ :=
      placing.follow unlinked (laid laidOut) onlySpare follows
    exact ⟨once, ⟨before, after, by simpa using layout, fun o member => .inl (members o member)⟩,
      fun o inside => (sameMembers o).mpr (.inl (placing.kept o inside))⟩
  · rw [map_append]
    refine nodup_append.mpr ⟨linking.links_once, by simp, fun o member new isNew same => unlinked ?_⟩
    obtain rfl : new = b := mem_singleton.mp isNew
    exact same ▸ member
  · rw [follows.length]
    intro o member
    rw [map_append, mem_append] at member
    rcases member with old | isNew
    · exact linking.within o old
    · exact mem_singleton.mp isNew ▸ exists_
  · intro link member
    rw [follows.codeOf]
    rcases mem_append.mp member with old | isNew
    · have ne : link.block ≠ b := fun isBlock => unlinked (isBlock ▸ mem_map_of_mem old)
      rw [if_neg ne]
      exact linking.codes link old
    · rw [mem_singleton.mp isNew, if_pos rfl]
  · intro o inside notLinked
    simp only [map_append, map_cons, map_nil, mem_append, mem_singleton, not_or] at notLinked
    rw [follows.codeOf, if_neg notLinked.2]
    exact linking.others o inside notLinked.1
  · exact fun o inside => (follows.liveInsOf o).trans (linking.liveIns o inside)
  · rw [follows.length]
    exact linking.grown
  · rw [follows.length]
    intro o inside
    rcases mem_placeAfter (follows.layout ▸ inside) with rfl | old
    · exact exists_
    · exact linking.inside o old
  · intro before link after split o
    rw [follows.edges]
    rcases eq_nil_or_concat after with rfl | ⟨after, new, rfl⟩
    · obtain ⟨rfl, isLink⟩ := append_inj' split rfl
      obtain rfl := cons.inj isLink |>.1
      have notLast : links.getLast?.map (·.block) ≠ some b := by
        intro isLast
        obtain ⟨last, found, rfl⟩ := map_eq_some_iff.mp isLast
        exact unlinked (mem_map_of_mem (mem_of_getLast? found))
      simp [notLast]
    · have split : links ++ [⟨b, stripped (f.codeOf b), none⟩] = (before ++ link :: after) ++ [new] := by
        simpa using split
      obtain ⟨rfl, isNew⟩ := append_inj' split rfl
      obtain rfl := cons.inj isNew |>.1
      have ne : link.block ≠ b := fun isBlock => unlinked (by simp [← isBlock])
      rw [linking.succs before link after rfl]
      cases after with
      | nil => simp [ne, or_comm, eq_comm]
      | cons second more =>
        have notLast : (before ++ link :: second :: more).getLast?.map (·.block) ≠ some link.block := by
          have linksOnce := linking.links_once
          intro isLast
          obtain ⟨last, isLast, sameBlock⟩ := map_eq_some_iff.mp isLast
          rw [getLast?_append, getLast?_cons_cons] at isLast
          have isLater : last ∈ second :: more := by
            cases more <;> grind
          rw [map_append, map_cons] at linksOnce
          have apart := (nodup_cons.mp (nodup_append.mp linksOnce).2.1).1
          exact apart (sameBlock ▸ mem_map_of_mem isLater)
        simp only [notLast, false_and, or_false]
        simp [ne]
  · intro before link after split header isBack
    rcases eq_nil_or_concat after with rfl | ⟨after, new, rfl⟩
    · obtain ⟨rfl, isLink⟩ := append_inj' split rfl
      obtain rfl := cons.inj isLink |>.1
      cases isBack
    · have split : links ++ [⟨b, stripped (f.codeOf b), none⟩] = (before ++ link :: after) ++ [new] := by
        simpa using split
      obtain ⟨rfl, _⟩ := append_inj' split rfl
      exact linking.backs before link after rfl header isBack
  · intro u o edge notLinked
    simp only [map_append, map_cons, map_nil, mem_append, mem_singleton, not_or] at notLinked
    rcases (follows.edges u o).mp edge with ⟨old, _⟩ | ⟨isLast, _⟩
    · exact linking.rest u o old notLinked.1
    · obtain ⟨last, found, rfl⟩ := map_eq_some_iff.mp isLast
      exact absurd (mem_map_of_mem (mem_of_getLast? found)) notLinked.1
  · intro o new exists_
    rw [follows.length] at exists_
    simp only [map_append, map_cons, map_nil, mem_append, mem_singleton]
    exact .inl ((linking.fresh o new exists_).imp_right (onlySpare o))
  · rw [follows.standing, follows.length, linking.standing]

/-- The last block of the chain gets code and a branch back. -/
theorem turn (linking : Linking base f (links ++ [⟨b, [], none⟩]) spare) {header : BlockId}
    (headed : header ∈ links.map (·.block)) (insts : List Inst)
    (added : (f.setCode b insts).addEdge b header = .ok next) :
    Linking base next (links ++ [⟨b, insts, some header⟩]) spare := by
  have sameCode := sameButCode_setCode f b insts
  have same := addEdge_sameButEdges added
  have linksOnce := linking.links_once
  have codeOf : ∀ o, o ≠ b → next.codeOf o = f.codeOf o := fun o ne => by
    rw [codeOf_of_sameButEdges same, Func.setCode, codeOf_modify, if_neg ne]
  have sameBlocks : (links ++ [(⟨b, insts, some header⟩ : Link)]).map (·.block) =
      (links ++ [(⟨b, [], none⟩ : Link)]).map (·.block) := by simp
  have apart : ∀ link ∈ links, link.block ≠ b := by
    rw [map_append] at linksOnce
    intro link member isBlock
    exact (nodup_append.mp linksOnce).2.2 _ (mem_map_of_mem member) _ (by simp) isBlock
  have inside : b.index < f.blocks.length := linking.within _ (by simp)
  have edges : ∀ u o, o ∈ next.succsOf u ↔ o ∈ f.succsOf u ∨ (u = b ∧ o = header) := fun u o => by
    rw [mem_succsOf_addEdge added, sameCode.succsOf]
  refine ⟨fun laidOut => ?_, sameBlocks ▸ linking.links_once, ?_, ?_, ?_, ?_, ?_, ?_,
    fun isLinked => (sameCode.linked (linking.linked isLinked)).addEdge added, ?_, ?_, ?_,
    same.entry.symm.trans linking.entry, ?_, fun o => ?_⟩
  · obtain ⟨once, placed, kept⟩ := linking.placing laidOut
    exact ⟨same.layout ▸ once, by rwa [← same.layout, sameBlocks], same.layout ▸ kept⟩
  · rw [← same.blocks, sameCode.length, sameBlocks]
    exact linking.within
  · intro link member
    rcases mem_append.mp member with old | isLast
    · rw [codeOf _ (apart link old)]
      exact linking.codes link (mem_append_left _ old)
    · rw [mem_singleton.mp isLast, codeOf_of_sameButEdges same, Func.setCode, codeOf_modify, if_pos rfl, block?,
        getElem?_eq_getElem inside]
      rfl
  · intro o inside notLinked
    rw [sameBlocks] at notLinked
    have ne : o ≠ b := by
      rintro rfl
      exact notLinked (by simp)
    rw [codeOf o ne]
    exact linking.others o inside notLinked
  · intro o inside
    rw [liveInsOf_of_sameButEdges same]
    exact (liveInsOf_modify f b o _ (by exact fun _ => rfl)).trans (linking.liveIns o inside)
  · rw [← same.blocks, sameCode.length]
    exact linking.grown
  · rw [← same.layout, ← same.blocks, sameCode.length]
    exact linking.inside
  · intro before link after split o
    rw [edges]
    rcases eq_nil_or_concat after with rfl | ⟨after, last, rfl⟩
    · obtain ⟨rfl, isLink⟩ := append_inj' split rfl
      obtain rfl := cons.inj isLink |>.1
      rw [linking.succs links ⟨b, [], none⟩ [] rfl]
      simp [eq_comm]
    · have split : links ++ [⟨b, insts, some header⟩] = (before ++ link :: after) ++ [last] := by simpa using split
      obtain ⟨rfl, isLast⟩ := append_inj' split rfl
      obtain rfl := cons.inj isLast |>.1
      rw [linking.succs before link (after ++ [⟨b, [], none⟩]) (by simp)]
      have ne : link.block ≠ b := apart link (by simp)
      cases after <;> simp [ne]
  · intro before link after split o isBack
    rcases eq_nil_or_concat after with rfl | ⟨after, last, rfl⟩
    · obtain ⟨rfl, isLink⟩ := append_inj' split rfl
      obtain rfl := cons.inj isLink |>.1
      exact some.inj isBack ▸ headed
    · have split : links ++ [⟨b, insts, some header⟩] = (before ++ link :: after) ++ [last] := by simpa using split
      obtain ⟨rfl, _⟩ := append_inj' split rfl
      exact linking.backs before link (after ++ [⟨b, [], none⟩]) (by simp) o isBack
  · intro u o edge notLinked
    rw [sameBlocks] at notLinked
    have ne : u ≠ b := by
      rintro rfl
      exact notLinked (by simp)
    exact linking.rest u o (((edges u o).mp edge).resolve_right fun isNew => ne isNew.1) notLinked
  · rw [← same.blocks, sameCode.length, sameBlocks]
    exact linking.fresh
  · rw [standing_of_sameButEdges same, sameCode.standing, ← same.blocks, sameCode.length, linking.standing]

end Linking

end Func

end SinglePath
