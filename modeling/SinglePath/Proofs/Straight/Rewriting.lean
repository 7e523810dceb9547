import SinglePath.Definition
import SinglePath.Predication
import SinglePath.Proofs.Func.Merged
import SinglePath.Proofs.ScopeTree.Walked

namespace SinglePath

open List Option

variable {work next : Work} {f last : Func} {b : BlockId} {plan : Plan} {body : Block}

namespace Work

variable {α : Type}

theorem await_eq_ok {answer : Outcome α} {v : α} : work.await answer = .ok v ↔ answer = .ok v := by
  cases answer <;> simp [await]

theorem expect_eq_ok {answer : Except Fault α} {v : α} : work.expect answer = .ok v ↔ answer = .ok v :=
  await_eq_ok.trans ofFault_eq_ok

end Work

namespace Func

variable {next : Func}

/-- The function with other instructions in one block. -/
def setCode (f : Func) (b : BlockId) (insts : List Inst) : Func :=
  f.modify b fun body => { body with insts := insts }

/-- The function without any instructions. -/
def clearCode (f : Func) : Func :=
  { f with blocks := f.blocks.map fun b => { b with insts := [] } }

/-- The functions differ in the instructions of their blocks only. -/
def SameButCode (f next : Func) : Prop := next.clearCode = f.clearCode

namespace SameButCode

theorem refl (f : Func) : SameButCode f f := rfl

theorem trans (first : SameButCode f next) (second : SameButCode next last) : SameButCode f last :=
  Eq.trans second first

variable (same : SameButCode f next)

include same

theorem layout : next.layout = f.layout := congrArg (·.layout) same

theorem entry : next.entry = f.entry := congrArg (·.entry) same

theorem length : next.blocks.length = f.blocks.length := by
  have mapped := congrArg (·.blocks.length) same
  simpa [clearCode] using mapped

theorem block? (b : BlockId) : (next.block? b).map (fun body => { body with insts := [] }) =
      (f.block? b).map fun body => { body with insts := [] } := by
  have mapped := congrArg (fun cleared : Func => cleared.blocks[b.index]?) same
  simp only [clearCode, getElem?_map] at mapped
  exact mapped

theorem succsOf (b : BlockId) : next.succsOf b = f.succsOf b := by
  have mapped := congrArg (Option.map (·.succs)) (same.block? b)
  simp only [Option.map_map, Function.comp_def] at mapped
  simp only [Func.succsOf, mapped]

theorem predsOf (b : BlockId) : next.predsOf b = f.predsOf b := by
  have mapped := congrArg (Option.map (·.preds)) (same.block? b)
  simp only [Option.map_map, Function.comp_def] at mapped
  simp only [Func.predsOf, mapped]

theorem standing (b : BlockId) : next.Standing b ↔ f.Standing b := by
  have mapped := congrArg (Option.map (·.erased)) (same.block? b)
  simp only [Option.map_map, Function.comp_def] at mapped
  rw [Standing, Standing, mapped]

theorem linked (linked : f.Linked) : next.Linked where
  ends u t := by rw [same.succsOf, same.predsOf, linked.ends]
  succsOnce b := same.succsOf b ▸ linked.succsOnce b
  predsOnce b := same.predsOf b ▸ linked.predsOnce b

end SameButCode

theorem sameButCode_modify (f : Func) (b : BlockId) {change : Block → Block}
    (keeps : ∀ body : Block, { change body with insts := [] } = { body with insts := [] }) :
    SameButCode f (f.modify b change) := by
  unfold SameButCode clearCode modify
  congr 1
  refine ext_getElem? fun i => ?_
  simp only [getElem?_map, getElem?_modify]
  split <;> cases f.blocks[i]? <;> simp [keeps]

theorem sameButCode_setCode (f : Func) (b : BlockId) (insts : List Inst) : SameButCode f (f.setCode b insts) :=
  f.sameButCode_modify b fun _ => rfl

theorem block?_setCode (f : Func) (b o : BlockId) (insts : List Inst) : (f.setCode b insts).block? o =
      if o = b then (f.block? o).map fun body => { body with insts := insts }
      else f.block? o :=
  block?_modify ..

theorem block?_setCode_self (found : f.block? b = some body)
    (insts : List Inst) : (f.setCode b insts).block? b = some { body with insts := insts } := by
  rw [block?_setCode, if_pos rfl, found]
  rfl

theorem setCode_setCode (f : Func) (b : BlockId) (first second : List Inst) :
    (f.setCode b first).setCode b second = f.setCode b second := by
  unfold setCode modify
  congr 1
  refine ext_getElem? fun i => ?_
  simp only [getElem?_modify]
  split <;> cases f.blocks[i]? <;> rfl

theorem setCode_self (found : f.block? b = some body) : f.setCode b body.insts = f := by
  unfold setCode modify
  have same : f.blocks.modify b.index (fun o => { o with insts := body.insts }) = f.blocks := by
    refine ext_getElem? fun i => ?_
    rw [getElem?_modify]
    split
    · rename_i isBlock
      rw [← isBlock]
      have isContent : f.blocks[b.index]? = some body := found
      rw [isContent]
      rfl
    · cases f.blocks[i]? <;> rfl
  rw [same]

end Func

/-- The instructions with others placed before the one at the position. -/
def insertedAt (i : Nat) (code insts : List Inst) : List Inst :=
  insts.take i ++ code ++ insts.drop i

namespace Work

variable {i : Block → Nat} {code : List Inst}

theorem insertCode_stats (res : work.insertCode b i code = .ok next) :
    next.stats = { work.stats with insertedInsts := work.stats.insertedInsts + code.length } := by
  obtain ⟨_, _, _, _, rfl⟩ := bind_bind_pure_inv res
  rfl

/-- Inserting changes the code of one block. -/
theorem insertCode_ok (res : work.insertCode b i code = .ok next) :
    ∃ body, work.func.block? b = some body ∧ i body ≤ body.insts.length ∧
      next.func = work.func.setCode b (insertedAt (i body) code body.insts) := by
  obtain ⟨body, got, f, inserted, rfl⟩ := bind_bind_pure_inv res
  have found := Func.get_eq_ok.mp (expect_eq_ok.mp got)
  simp only [Func.insert, Func.get, found, present_some, ok_bind] at inserted
  split at inserted
  · rename_i inside
    refine ⟨body, found, inside, ?_⟩
    obtain rfl := pure_inv inserted
    change work.func.modify b _ = work.func.modify b _
    unfold Func.modify
    congr 1
    refine ext_getElem? fun index => ?_
    rw [getElem?_modify, getElem?_modify]
    split
    · rename_i isBlock
      have isContent : work.func.blocks[index]? = some body := isBlock ▸ found
      rw [isContent]
      rfl
    · rfl
  · cases inserted

end Work

namespace Plan

/-- The new code of a block under its scope's header: what is loaded at its start, its predicated instructions, and at
the top of a region the guard that arrives in the temporary register. -/
def Predicates (plan : Plan) (s : ScopeId) (header b : BlockId) (body : Block) (new : List Inst) : Prop :=
  ∃ guard alloc use code isTop, plan.blockGuard s b = .ok guard ∧ plan.alloc s = .ok alloc ∧
    (plan.predication guard).blockCode b body = .ok code ∧
    (if b ≠ header && alloc.hasSpillOrLoad b then plan.useCode alloc b = .ok use else use = []) ∧
    plan.tree.isRegionTop s = .ok isTop ∧
    new = if b = header && isTop then
        insertedAt ({ body with insts := use ++ code } : Block).setupLength
          [.movePred .always guard (.holds plan.temporary)] (use ++ code)
      else use ++ code

/-- Predicating a block changes its code only. -/
theorem predicateBlock_ok {s : ScopeId} {header : BlockId} (res : plan.predicateBlock s header work b = .ok next) :
    ∃ body new, work.func.block? b = some body ∧ plan.Predicates s header b body new ∧
      next.func = work.func.setCode b new := by
  obtain ⟨guard, guarded, predicated, predicating, res⟩ := bind_bind_inv res
  obtain ⟨used, using_, res⟩ := bind_inv res
  have guarded := Work.await_eq_ok.mp guarded
  obtain ⟨body, got, code, coded, predicating⟩ := bind_bind_inv predicating
  have found := Func.get_eq_ok.mp (Work.expect_eq_ok.mp got)
  have coded := Work.await_eq_ok.mp coded
  have isPredicated : predicated.func = work.func.setCode b code := by rw [← pure_inv predicating]; rfl
  obtain ⟨alloc, isAlloc, using_⟩ := bind_inv using_
  have isAlloc := Work.expect_eq_ok.mp isAlloc
  have foundCode : predicated.func.block? b = some { body with insts := code } := by
    rw [isPredicated, Func.block?_setCode_self found]
  obtain ⟨use, isUse, isUsed⟩ : ∃ use, (if b ≠ header && alloc.hasSpillOrLoad b then
      plan.useCode alloc b = .ok use else use = []) ∧ used.func = work.func.setCode b (use ++ code) := by
    split at using_
    · rename_i isSpilled
      obtain ⟨use, isUse, using_⟩ := bind_inv using_
      obtain ⟨again, foundAgain, _, isUsed⟩ := Work.insertCode_ok using_
      obtain rfl := mem_unique foundCode foundAgain
      refine ⟨use, by rw [if_pos isSpilled]; exact Work.await_eq_ok.mp isUse, ?_⟩
      rw [isUsed, isPredicated, Func.setCode_setCode]
      simp [insertedAt]
    · rename_i notSpilled
      obtain rfl := pure_inv using_
      exact ⟨[], by rw [if_neg notSpilled], isPredicated⟩
  have foundUse : used.func.block? b = some { body with insts := use ++ code } := by
    rw [isUsed, Func.block?_setCode_self found]
  obtain ⟨isTop, gotTop, res⟩ := bind_inv res
  have gotTop := Work.expect_eq_ok.mp gotTop
  refine ⟨body, _, found, ⟨guard, alloc, use, code, isTop, guarded, isAlloc, coded, isUse, gotTop, rfl⟩, ?_⟩
  split at res
  · rename_i isEntry
    obtain ⟨again, foundAgain, _, isNext⟩ := Work.insertCode_ok res
    obtain rfl := mem_unique foundUse foundAgain
    rw [isNext, isUsed, Func.setCode_setCode, if_pos isEntry]
  · rename_i notEntry
    rw [← pure_inv res, isUsed, if_neg notEntry]

end Plan

section

variable {α : Type} {blockOf : α → BlockId} {Changes : α → Block → List Inst → Prop} {next : Func}

/-- The block of each item got new code that is related to the block before, and all else stayed. -/
structure Rewritten (blockOf : α → BlockId) (Changes : α → Block → List Inst → Prop) (items : List α) (f next : Func) :
    Prop where
  same : f.SameButCode next
  others : ∀ b, b ∉ items.map blockOf → next.block? b = f.block? b
  changed : ∀ x ∈ items, ∃ body new, f.block? (blockOf x) = some body ∧ Changes x body new ∧
    next.block? (blockOf x) = some { body with insts := new }

namespace Rewritten

theorem nil (f : Func) : Rewritten blockOf Changes [] f f := ⟨.refl f, fun _ _ => rfl, fun _ isItem => nomatch isItem⟩

theorem single {x : α} {new : List Inst} (found : f.block? (blockOf x) = some body)
    (changes : Changes x body new) : Rewritten blockOf Changes [x] f (f.setCode (blockOf x) new) where
  same := f.sameButCode_setCode _ _
  others b elsewhere := by
    rw [Func.block?_setCode, if_neg fun same => elsewhere (by simp [same])]
  changed o isItem := by
    obtain rfl := mem_singleton.mp isItem
    exact ⟨body, new, found, changes, Func.block?_setCode_self found new⟩

/-- Two series on different blocks make one. -/
theorem append {first second : List α} (once : ((first ++ second).map blockOf).Nodup)
    (one : Rewritten blockOf Changes first f next) (two : Rewritten blockOf Changes second next last) :
    Rewritten blockOf Changes (first ++ second) f last := by
  rw [map_append, nodup_append] at once
  obtain ⟨_, _, apart⟩ := once
  refine ⟨one.same.trans two.same, fun b elsewhere => ?_, fun x isItem => ?_⟩
  · rw [map_append, mem_append, not_or] at elsewhere
    rw [two.others b elsewhere.2, one.others b elsewhere.1]
  · rcases mem_append.mp isItem with isFirst | isSecond
    · obtain ⟨body, new, found, changes, foundNext⟩ := one.changed x isFirst
      refine ⟨body, new, found, changes, (two.others _ fun isSecond => ?_).trans foundNext⟩
      exact apart _ (mem_map_of_mem isFirst) _ isSecond rfl
    · obtain ⟨body, new, found, changes, foundLast⟩ := two.changed x isSecond
      refine ⟨body, new, ?_, changes, foundLast⟩
      rw [← one.others _ fun isFirst => apart _ isFirst _ (mem_map_of_mem isSecond) rfl]
      exact found

end Rewritten

/-- A series of steps that each give the block of an item new code. -/
theorem foldlM_rewritten (blockOf : α → BlockId) (Changes : α → Block → List Inst → Prop)
    {step : Work → α → Step Work} {items : List α} {final : Work}
    (each : ∀ work x next, step work x = .ok next → ∃ body new,
      work.func.block? (blockOf x) = some body ∧ Changes x body new ∧
        next.func = work.func.setCode (blockOf x) new)
    (once : (items.map blockOf).Nodup) (res : items.foldlM step work = .ok final) :
    Rewritten blockOf Changes items work.func final.func := by
  induction items generalizing work with
  | nil =>
    obtain rfl := pure_inv res
    exact .nil _
  | cons x rest ih =>
    obtain ⟨next, stepped, res⟩ := bind_inv res
    obtain ⟨body, new, found, changes, isNext⟩ := each work x next stepped
    have head : Rewritten blockOf Changes [x] work.func next.func := isNext ▸ .single found changes
    exact head.append once (ih (nodup_cons.mp once).2 res)

end

namespace Plan

/-- Predicating rewrites the members of the scopes. -/
theorem predicate_rewritten (once : ((plan.tree.membersOf plan.scopes).map (·.2.2)).Nodup)
    (res : plan.predicate work = .ok next) :
    Rewritten (·.2.2) (fun member => plan.Predicates member.1 member.2.1.header member.2.2)
      (plan.tree.membersOf plan.scopes) work.func next.func := by
  have folded : ∀ (scopes : List ScopeId) (work : Work), ((plan.tree.membersOf scopes).map (·.2.2)).Nodup →
      scopes.foldlM plan.predicateScope work = .ok next →
      Rewritten (·.2.2) (fun member => plan.Predicates member.1 member.2.1.header member.2.2)
        (plan.tree.membersOf scopes) work.func next.func := by
    intro scopes
    induction scopes with
    | nil =>
      intro work _ res
      obtain rfl := pure_inv res
      exact .nil _
    | cons s rest ih =>
      intro work once res
      obtain ⟨after, stepped, res⟩ := bind_inv res
      obtain ⟨body, got, stepped⟩ := bind_inv stepped
      have found : plan.tree.scope? s = some body := present_eq_ok.mp (Work.expect_eq_ok.mp got)
      have split : plan.tree.membersOf (s :: rest) =
          body.blocks.map (fun b => (s, body, b)) ++ plan.tree.membersOf rest := by
        simp only [ScopeTree.membersOf, flatMap_cons, found]
      rw [split] at once ⊢
      have parts := nodup_append.mp (map_append ▸ once)
      have head : Rewritten (·.2.2) (fun member => plan.Predicates member.1 member.2.1.header member.2.2)
          (body.blocks.map fun b => (s, body, b)) work.func after.func := by
        have stepped : (body.blocks.map fun b => (s, body, b)).foldlM
            (fun work member => plan.predicateBlock member.1 member.2.1.header work member.2.2) work = .ok after := by
          rw [foldlM_map]
          exact stepped
        exact foldlM_rewritten _ _ (fun _ _ _ => predicateBlock_ok) parts.1 stepped
      exact head.append once (ih after parts.2.1 res)
  exact folded plan.scopes work once res

end Plan

end SinglePath
