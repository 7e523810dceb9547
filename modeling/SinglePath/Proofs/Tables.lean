import SinglePath.Allocation.Location

namespace SinglePath

open List Option

namespace Table

variable {κ ν : Type} [DecidableEq κ]

theorem mem_of_find {key : κ} {v : ν} {entries : List (κ × ν)} (got : find key entries = some v) :
    (key, v) ∈ entries := by
  induction entries with
  | nil => simp [find] at got
  | cons e rest ih =>
    rw [find] at got
    split at got
    · next same =>
        have value_eq : e.2 = v := by simpa using got
        rw [← same, ← value_eq]
        exact .head _
    · exact mem_cons_of_mem e (ih got)

theorem find_eq_none_iff {key : κ} {entries : List (κ × ν)} : find key entries = none ↔ key ∉ entries.map (·.1) := by
  induction entries with
  | nil => simp [find]
  | cons e rest ih => grind [find]

theorem mem_keys_iff {table : Table κ ν} {key : κ} : key ∈ table.keys ↔ ∃ v, table.get? key = some v := by
  rw [← isSome_iff_exists, isSome_iff_ne_none, ne_eq, get?, find_eq_none_iff]
  simp [keys]

section

variable [LT κ] [DecidableLT κ]

theorem get?_foldl_insert_of_not_mem (items : List (κ × ν)) (table : Table κ ν) {key : κ}
    (unnamed : key ∉ items.map (·.1)) :
    (items.foldl (fun table e => table.insert e.1 e.2) table).get? key = table.get? key := by
  induction items generalizing table with
  | nil => rfl
  | cons first rest ih =>
    simp only [map_cons, mem_cons, not_or] at unnamed
    rw [foldl_cons, ih _ unnamed.2, get?_insert, if_neg unnamed.1]

theorem get?_ofList {entries : List (κ × ν)} (once : (entries.map (·.1)).Nodup) {key : κ} {v : ν}
    (isEntry : (key, v) ∈ entries) : (ofList entries).get? key = some v := by
  have folded : ∀ (items : List (κ × ν)) (table : Table κ ν), (items.map (·.1)).Nodup → (key, v) ∈ items →
      (items.foldl (fun table e => table.insert e.1 e.2) table).get? key = some v := by
    intro items
    induction items with
    | nil => exact fun _ _ isEntry => nomatch isEntry
    | cons first rest ih =>
      intro table once isEntry
      obtain ⟨unnamed, restOnce⟩ := nodup_cons.mp once
      rcases mem_cons.mp isEntry with rfl | isEntry
      · rw [foldl_cons, get?_foldl_insert_of_not_mem rest _ unnamed, get?_insert, if_pos rfl]
      · exact ih _ restOnce isEntry
  exact folded entries empty once isEntry

theorem get?_alter (table : Table κ ν) (key o : κ) (update : Option ν → ν) :
    (table.alter key update).get? o = if o = key then some (update (table.get? key)) else table.get? o :=
  get?_insert table key o _

theorem get?_insertNew (table : Table κ ν) (key o : κ) (v : ν) :
    (table.insertNew key v).get? o = (table.get? o).or (if o = key then some v else none) := by
  unfold insertNew contains
  split
  · next present =>
      obtain ⟨got, lookup⟩ := isSome_iff_exists.mp present
      by_cases same : o = key
      · simp [same, lookup]
      · simp [same]
  · next missing =>
      have lookup : table.get? key = none := by simpa using missing
      by_cases same : o = key
      · simp [same, lookup]
      · simp [same]

theorem get?_foldl_insertNew {α : Type} (keyOf : α → κ) (valueOf : α → ν) (items : List α)
    (table : Table κ ν) (key : κ) :
    (items.foldl (fun table x => table.insertNew (keyOf x) (valueOf x)) table).get? key =
      (table.get? key).or ((items.find? (keyOf · = key)).map valueOf) := by
  induction items generalizing table with
  | nil => simp
  | cons first rest ih =>
    rw [foldl_cons, ih, get?_insertNew, find?_cons]
    by_cases same : keyOf first = key
    · cases table.get? key <;> simp [same]
    · have ne : key ≠ keyOf first := fun reversed => same reversed.symm
      simp [same, ne]

theorem get?_foldl_collect (items : List (κ × ν)) (table : Table κ (List ν)) (key : κ) :
    ((items.foldl (fun table x => table.alter x.1 fun got => got.getD [] ++ [x.2]) table).get? key).getD
      [] = (table.get? key).getD [] ++ (items.filter (·.1 = key)).map (·.2) := by
  induction items generalizing table with
  | nil => simp
  | cons first rest ih =>
    rw [foldl_cons, ih, get?_alter]
    by_cases same : key = first.1
    · simp [same]
    · have ne : first.1 ≠ key := fun reversed => same reversed.symm
      simp [same, ne]

/-- A key of a collecting table has at least one item. -/
theorem get?_foldl_collect_ne_nil (items : List (κ × ν)) (table : Table κ (List ν))
    (filled : ∀ key values, table.get? key = some values → values ≠ []) (key : κ) (values : List ν)
    (got : (items.foldl (fun table x => table.alter x.1 fun got => got.getD [] ++ [x.2]) table).get? key =
      some values) : values ≠ [] := by
  induction items generalizing table with
  | nil => exact filled key values got
  | cons first rest ih =>
    refine ih _ ?_ got
    intro o held lookup
    rw [get?_alter] at lookup
    split at lookup
    · rw [some.injEq] at lookup
      simp [← lookup]
    · exact filled o held lookup

end

/-- The keys increase, measured by their rank. -/
def Increasing {κ ν : Type} (rank : κ → Nat) (entries : List (κ × ν)) : Prop :=
  entries.Pairwise fun first second => rank first.1 < rank second.1

theorem Increasing.nodup_keys {κ ν : Type} {rank : κ → Nat} {table : Table κ ν}
    (increasing : Increasing rank table.entries) : table.keys.Nodup := by
  refine Pairwise.map _ ?_ increasing
  intro first second below same
  have equalRanks : rank first.1 = rank second.1 := congrArg rank same
  omega

variable [LT κ] [DecidableLT κ] {rank : κ → Nat}

theorem mem_place {key : κ} {v : ν} {entries : List (κ × ν)} {e : κ × ν}
    (got : e ∈ place key v entries) : e = (key, v) ∨ e ∈ entries := by
  induction entries with
  | nil => simpa [place] using got
  | cons first rest ih => grind [place]

theorem place_increasing (ranked : ∀ first second : κ, first < second ↔ rank first < rank second)
    (injective : ∀ first second : κ, rank first = rank second → first = second) (key : κ) (v : ν)
    {entries : List (κ × ν)} (increasing : Increasing rank entries) : Increasing rank (place key v entries) := by
  induction entries with
  | nil => simp [place, Increasing]
  | cons first rest ih =>
    obtain ⟨smallest, ordered⟩ := pairwise_cons.mp increasing
    rw [place]
    split
    · next same =>
        refine pairwise_cons.mpr ⟨?_, ordered⟩
        intro e got
        simpa [← same] using smallest e got
    · next ne =>
        split
        · next below =>
            have before : rank key < rank first.1 := (ranked _ _).mp below
            refine pairwise_cons.mpr ⟨?_, increasing⟩
            intro e got
            rcases mem_cons.mp got with same | later
            · simpa [same] using before
            · exact Nat.lt_trans before (smallest e later)
        · next notBelow =>
            have notBefore : ¬ rank key < rank first.1 := fun before => notBelow ((ranked _ _).mpr before)
            have unequal : rank first.1 ≠ rank key := fun same => ne (injective _ _ same)
            refine pairwise_cons.mpr ⟨?_, ih ordered⟩
            intro e got
            rcases mem_place got with rfl | earlier
            · change rank first.1 < rank key
              omega
            · exact smallest e earlier

theorem get?_of_mem {κ ν : Type} [DecidableEq κ] {table : Table κ ν} (once : table.keys.Nodup) {key : κ} {v : ν}
    (isEntry : (key, v) ∈ table.entries) : table.get? key = some v := by
  obtain ⟨entries⟩ := table
  simp only [keys, get?] at once isEntry ⊢
  induction entries with
  | nil => cases isEntry
  | cons first rest ih =>
    obtain ⟨unnamed, restOnce⟩ := nodup_cons.mp once
    rw [find]
    rcases mem_cons.mp isEntry with rfl | isEntry
    · simp
    · have ne : first.1 ≠ key := fun same => unnamed (mem_map.mpr ⟨_, isEntry, same.symm⟩)
      rw [if_neg ne, ih restOnce isEntry]

/-- A table that collects items under their keys keeps the keys in order. -/
theorem foldl_collect_increasing (ranked : ∀ first second : κ, first < second ↔ rank first < rank second)
    (injective : ∀ first second : κ, rank first = rank second → first = second) (items : List (κ × ν))
    (table : Table κ (List ν)) (increasing : Increasing rank table.entries) :
    Increasing rank
      (items.foldl (fun table x => table.alter x.1 fun got => got.getD [] ++ [x.2]) table).entries := by
  induction items generalizing table with
  | nil => exact increasing
  | cons first rest ih =>
    exact ih _ (place_increasing ranked injective _ _ increasing)

end Table

namespace BlockLocs

theorem entriesAt_record (locs : BlockLocs) (b o : BlockId) (pred : PredId) (place : Nat) :
    (locs.record b pred place).entriesAt o =
      if o = b ∧ pred ∉ (locs.entriesAt b).map (·.1) then locs.entriesAt b ++ [(pred, place)]
      else locs.entriesAt o := by
  have mem : (locs.entriesAt b).any (·.1 == pred) = true ↔ pred ∈ (locs.entriesAt b).map (·.1) := by
    simp
  unfold record
  rw [entriesAt, Table.get?_alter]
  change (if o = b then
      some (if (locs.entriesAt b).any (·.1 == pred) then locs.entriesAt b
        else locs.entriesAt b ++ [(pred, place)])
    else locs.get? o).getD [] = _
  by_cases same : o = b
  · subst same
    by_cases known : pred ∈ (locs.entriesAt o).map (·.1)
    · simp only [mem.mpr known, known]
      simp
    · have unlisted : ¬ (locs.entriesAt o).any (·.1 == pred) = true := fun got => known (mem.mp got)
      simp only [unlisted, known]
      simp
  · simp [same, entriesAt]

variable {b o : BlockId}

theorem mem_of_mem_record {locs : BlockLocs} {pred : PredId} {place : Nat} {e : PredId × Nat}
    (mem : e ∈ (locs.record b pred place).entriesAt o) : e ∈ locs.entriesAt o ∨ o = b ∧ e = (pred, place) := by
  rw [entriesAt_record] at mem
  split at mem
  · next here =>
      rw [here.1]
      rcases mem_append.mp mem with old | new
      · exact .inl old
      · exact .inr ⟨rfl, mem_singleton.mp new⟩
  · exact .inl mem

theorem mem_keys_record (locs : BlockLocs) (b : BlockId) (pred : PredId) (place : Nat) :
    pred ∈ ((locs.record b pred place).entriesAt b).map (·.1) := by
  rw [entriesAt_record]
  split
  · simp
  · next known => exact Classical.not_not.mp fun unknown => known ⟨rfl, unknown⟩

theorem entriesAt_record_of_ne (locs : BlockLocs) (ne : o ≠ b) (pred : PredId) (place : Nat) :
    (locs.record b pred place).entriesAt o = locs.entriesAt o := by
  simp [entriesAt_record, ne]

theorem entriesAt_record_first (locs : BlockLocs) (unused : locs.entriesAt b = []) (pred : PredId) (place : Nat) :
    (locs.record b pred place).entriesAt b = [(pred, place)] := by
  simp [entriesAt_record, unused]

end BlockLocs

end SinglePath
