import SinglePath.Proofs.Func.Code
import SinglePath.Proofs.Func.Merged

namespace SinglePath

open List

namespace Func

variable {f next merged : Func} {base b : BlockId} {rest before : List BlockId}

/-- The code is the same, in fewer blocks; the blocks that are gone are empty, and edges lead no further than before. -/
structure Joined (f merged : Func) : Prop where
  code : merged.code = f.code
  layout : merged.layout.Sublist f.layout
  entry : merged.entry = f.entry
  length : merged.blocks.length = f.blocks.length
  found : ∀ b, (∃ body, f.block? b = some body) → ∃ body, merged.block? b = some body
  outside : ∀ b, b ∉ f.layout → merged.codeOf b = f.codeOf b
  empty : ∀ b ∈ f.layout, b ∉ merged.layout → merged.codeOf b = []
  closed : ∀ blocks, (∀ b ∈ f.layout, b ∈ blocks) → f.ClosedOn blocks → merged.ClosedOn blocks

namespace Joined

theorem refl (f : Func) : Joined f f :=
  ⟨rfl, .refl _, rfl, rfl, fun _ => id, fun _ _ => rfl, fun _ inside outside => absurd inside outside, fun _ _ => id⟩

theorem trans (first : Joined f next) (second : Joined next merged) : Joined f merged where
  code := second.code.trans first.code
  layout := second.layout.trans first.layout
  entry := second.entry.trans first.entry
  length := second.length.trans first.length
  found b exists_ := second.found b (first.found b exists_)
  outside b outside := by
    rw [second.outside b fun inside => outside (first.layout.subset inside), first.outside b outside]
  empty b inside gone := by
    by_cases kept : b ∈ next.layout
    · exact second.empty b kept gone
    · rw [second.outside b kept, first.empty b inside kept]
  closed blocks whole isClosed :=
    second.closed blocks (fun b inside => whole b (first.layout.subset inside)) (first.closed blocks whole isClosed)

end Joined

theorem SpliceStep.joined (step : SpliceStep f next before base b rest) : Joined f next where
  code := by
    have beforeKept : before.flatMap next.codeOf = before.flatMap f.codeOf := step.flatMap_kept fun _ => .inl
    have restKept : rest.flatMap next.codeOf = rest.flatMap f.codeOf := step.flatMap_kept fun _ => .inr
    rw [Func.code, Func.code, step.splitNext, step.split, flatMap_append, flatMap_append, beforeKept, flatMap_cons,
      flatMap_cons, flatMap_cons, restKept, step.codeOf_base, append_assoc]
  layout := by
    rw [step.layout]
    exact filter_sublist
  entry := step.entry
  length := step.length
  found := step.found
  outside o outside := by
    rw [step.split] at outside
    rw [step.codeOf, if_neg (by grind), if_neg (by grind)]
  empty o inside gone := by
    obtain rfl : o = b := by simpa [step.layout, inside] using gone
    rw [step.codeOf, if_pos rfl]
  closed blocks whole isClosed u inside o edge := by
    rcases step.within u o edge with own | moved
    · exact isClosed u inside o own
    · exact isClosed b (whole b (by simp [step.split])) o moved

/-- A merge joins blocks that stand next to each other. -/
theorem MergeRun.joined (run : MergeRun base rest f merged) (once : f.layout.Nodup)
    (split : f.layout = before ++ base :: rest) : Joined f merged :=
  run.preserves_split once split (.refl f) fun step _ joined => joined.trans step.joined

theorem merge_joined (strung : f.Strung) (res : f.merge = .ok merged) : Joined f merged := by
  obtain ⟨rest, split, run⟩ := merge_run strung res
  exact run.joined strung.once split

end Func

end SinglePath
