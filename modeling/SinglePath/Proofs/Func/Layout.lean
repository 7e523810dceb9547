import SinglePath.Func.Basic

/-!
The layout of a function: the code of each of its blocks, and the blocks that follow it.
-/

namespace SinglePath

open List

/-- All branches of the code stand at its end. -/
def BranchesLast (code : List Inst) : Prop :=
  ∃ body branches, code = body ++ branches ∧ (∀ inst ∈ body, inst.branchTarget = none) ∧
    ∀ inst ∈ branches, ∃ t, inst.branchTarget = some t

/-- Nothing follows a branch in the code. -/
def BranchEnds (code : List Inst) : Prop := ∀ inst ∈ code.dropLast, inst.branchTarget = none

instance (code : List Inst) : Decidable (BranchEnds code) := inferInstanceAs (Decidable (∀ inst ∈ code.dropLast, _))

variable {code : List Inst}

theorem BranchEnds.of_plain (plain : ∀ inst ∈ code, inst.branchTarget = none) : BranchEnds code :=
  fun inst mem => plain inst (dropLast_subset code mem)

theorem BranchEnds.prepend {before : List Inst} (plain : ∀ inst ∈ before, inst.branchTarget = none)
    (ends : BranchEnds code) :
    BranchEnds (before ++ code) := by
  cases code with
  | nil => simpa using of_plain plain
  | cons first rest =>
    intro inst mem
    rw [dropLast_append_of_ne_nil (by simp), mem_append] at mem
    exact mem.elim (plain inst) (ends inst)

/-- Code that has a branch ends in it. -/
theorem BranchEnds.last {code : List Inst} (ends : BranchEnds code) {t : BlockId}
    (branches : t ∈ code.filterMap Inst.branchTarget) :
    ∃ inst, code.getLast? = some inst ∧ inst.branchTarget = some t := by
  obtain ⟨inst, mem, isTarget⟩ := mem_filterMap.mp branches
  have more : code ≠ [] := ne_nil_of_mem mem
  rw [← dropLast_concat_getLast more, mem_append, mem_singleton] at mem
  refine ⟨inst, ?_, isTarget⟩
  rcases mem with earlier | rfl
  · exact nomatch (ends inst earlier).symm.trans isTarget
  · exact getLast?_eq_some_getLast more

theorem BranchEnds.branchesLast (ends : BranchEnds code) : BranchesLast code := by
  by_cases more : code = []
  · exact ⟨[], [], more, nofun, nofun⟩
  · cases isTarget : (code.getLast more).branchTarget with
    | none =>
      refine ⟨code, [], (append_nil _).symm, fun inst mem => ?_, nofun⟩
      rw [← dropLast_concat_getLast more, mem_append, mem_singleton] at mem
      exact mem.elim (ends inst) (· ▸ isTarget)
    | some t =>
      exact ⟨_, _, (dropLast_concat_getLast more).symm, ends, by simpa using ⟨t, isTarget⟩⟩

/-- After a branch there are only branches. -/
theorem BranchesLast.pairwise (last : BranchesLast code) : code.Pairwise fun first second =>
    ∀ t, first.branchTarget = some t → second.isTerminator = true := by
  obtain ⟨body, branches, rfl, plain, branching⟩ := last
  have plainFirst : ∀ first ∈ body, ∀ second : Inst, ∀ t, first.branchTarget = some t → second.isTerminator = true :=
    fun first inBody _ t isBranch => nomatch (plain first inBody).symm.trans isBranch
  refine pairwise_append.mpr ⟨pairwise_of_forall_sublist fun part => plainFirst _ (part.subset (by simp)) _,
    pairwise_of_forall_sublist fun part t _ => ?_, fun first inBody second _ => plainFirst first inBody second⟩
  obtain ⟨t, branches⟩ := branching _ (part.subset (.tail _ (mem_singleton_self _)))
  simp [Inst.isTerminator, Inst.isBranch, branches]

theorem BranchesLast.sublist {fewer : List Inst} (last : BranchesLast code) (part : fewer.Sublist code) :
    BranchesLast fewer := by
  obtain ⟨body, branches, rfl, plain, branching⟩ := last
  obtain ⟨lessBody, lessBranches, rfl, bodyPart, branchPart⟩ := sublist_append_iff.mp part
  exact ⟨lessBody, lessBranches, rfl, fun inst inBody => plain inst (bodyPart.subset inBody),
    fun inst isBranch => branching inst (branchPart.subset isBranch)⟩

namespace Func

def codeOf (f : Func) (b : BlockId) : List Inst := ((f.block? b).map (·.insts)).getD []

/-- The blocks after the last place of the block in a layout. -/
def following (b : BlockId) : List BlockId → List BlockId
  | [] => []
  | first :: rest => if first = b ∧ b ∉ rest then rest else following b rest

/-- Each laid out block exists and has one place, and control stays among these blocks. -/
structure Laid (f : Func) : Prop where
  once : f.layout.Nodup
  found : ∀ b ∈ f.layout, ∃ c, f.block? b = some c
  targets : ∀ b ∈ f.layout, ∀ inst ∈ f.codeOf b, ∀ t, inst.branchTarget = some t →
    t ∈ f.layout
  entered : f.entry ∈ f.layout

theorem nextAfterLast_eq (b : BlockId) (layout : List BlockId) :
    nextAfterLast b layout = (following b layout).head? := by
  induction layout with
  | nil => rfl
  | cons first rest ih =>
    simp only [nextAfterLast, following]
    split
    · rfl
    · exact ih

variable {layout : List BlockId} {b next o : BlockId}

theorem following_append (before : List BlockId) {after : List BlockId} (last : b ∉ after) :
    following b (before ++ b :: after) = after := by
  induction before with
  | nil => simp [following, last]
  | cons first rest ih => simp [following, ih]

theorem following_split {before after : List BlockId} (once : layout.Nodup) (split : layout = before ++ b :: after) :
    following b layout = after := by
  rw [split] at once ⊢
  exact following_append before (nodup_cons.mp (nodup_append.mp once).2.1).1

theorem layout_split (once : layout.Nodup) (inside : b ∈ layout) :
    ∃ before, layout = before ++ b :: following b layout := by
  obtain ⟨before, after, split⟩ := append_of_mem inside
  refine ⟨before, ?_⟩
  rw [following_split once split, ← split]

theorem following_next (once : layout.Nodup) (inside : b ∈ layout) {more : List BlockId}
    (follows : following b layout = next :: more) : next ∈ layout ∧ following next layout = more := by
  obtain ⟨before, split⟩ := layout_split once inside
  rw [follows] at split
  exact ⟨by simp [split], following_split once (split.trans (append_cons ..))⟩

theorem following_at (once : layout.Nodup) {i : Nat} (isBlock : layout[i]? = some b) :
    following b layout = layout.drop (i + 1) := by
  obtain ⟨inside, isAt⟩ := List.getElem?_eq_some_iff.mp isBlock
  have split : layout = layout.take i ++ b :: layout.drop (i + 1) := by
    rw [← isAt, ← drop_eq_getElem_cons inside, take_append_drop]
  exact following_split once split

theorem codeOf_eq {f : Func} {c : Block} (got : f.block? b = some c) : f.codeOf b = c.insts := by
  simp [codeOf, got]

/-- The targets of the branches in the code of a block. -/
def targetsOf (f : Func) (b : BlockId) : List BlockId := (f.codeOf b).filterMap Inst.branchTarget

theorem following_injective (once : layout.Nodup) {first second : BlockId} (firstInside : first ∈ layout)
    (secondInside : second ∈ layout) (firstNext : (following first layout).head? = some next)
    (secondNext : (following second layout).head? = some next) : first = second := by
  induction layout with
  | nil => simp at firstInside
  | cons head rest ih =>
    obtain ⟨headOnce, restOnce⟩ := nodup_cons.mp once
    have atHead : ∀ {b : BlockId}, b ∈ rest → following b (head :: rest) = following b rest := by
      intro b inRest
      have ne : head ≠ b := fun same => headOnce (same ▸ inRest)
      simp [following, ne]
    have headFollows : following head (head :: rest) = rest := by simp [following, headOnce]
    -- The first block of the rest follows no block of the rest.
    have notAgain : ∀ {b : BlockId}, b ∈ rest → rest.head? = some next → (following b rest).head? ≠ some next := by
      intro b inRest isNext follows
      obtain ⟨before, split⟩ := layout_split restOnce inRest
      obtain ⟨more, nextMore⟩ := head?_eq_some_iff.mp follows
      rw [nextMore] at split
      rw [split] at isNext restOnce
      cases before with
      | nil =>
        simp only [nil_append, head?_cons, Option.some.injEq] at isNext
        simp [isNext] at restOnce
      | cons earlier others =>
        simp only [cons_append, head?_cons, Option.some.injEq] at isNext
        simp [isNext] at restOnce
    obtain rfl | firstRest := mem_cons.mp firstInside <;> obtain rfl | secondRest := mem_cons.mp secondInside
    · rfl
    · rw [headFollows] at firstNext
      rw [atHead secondRest] at secondNext
      exact absurd secondNext (notAgain secondRest firstNext)
    · rw [headFollows] at secondNext
      rw [atHead firstRest] at firstNext
      exact absurd firstNext (notAgain firstRest secondNext)
    · rw [atHead firstRest] at firstNext
      rw [atHead secondRest] at secondNext
      exact ih restOnce firstRest secondRest firstNext secondNext

theorem following_filter (once : layout.Nodup) (inside : o ∈ layout) (ne : o ≠ b) :
    following o (layout.filter (· ≠ b)) = (following o layout).filter (· ≠ b) := by
  obtain ⟨before, split⟩ := layout_split once inside
  refine @following_split _ _ (before.filter (· ≠ b)) _ (once.filter _) ?_
  conv => lhs; rw [split]
  simp [ne]

theorem length_following_le (b : BlockId) (layout : List BlockId) : (following b layout).length ≤ layout.length := by
  fun_induction following b layout with
  | case1 => exact Nat.le_refl _
  | case2 => exact Nat.le_succ _
  | case3 first rest _ ih => exact Nat.le_succ_of_le ih

theorem following_subset (follows : o ∈ following b layout) : o ∈ layout := by
  induction layout with
  | nil => exact follows
  | cons first rest ih =>
    unfold following at follows
    split at follows
    · exact mem_cons_of_mem first follows
    · exact mem_cons_of_mem first (ih follows)

end Func

end SinglePath
