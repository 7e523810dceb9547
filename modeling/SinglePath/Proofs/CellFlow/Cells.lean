import SinglePath.CellSet

namespace SinglePath

open List Nat

namespace CellSet

variable (set o : CellSet) (c : CellId)

theorem word_extend (words : List CellWord) (n index : Nat) :
    (⟨extend words n⟩ : CellSet).word index = (⟨words⟩ : CellSet).word index := by
  by_cases inside : index < words.length
  · simp [word, extend, getElem?_append_left inside]
  · have beyond : words[index]? = none := getElem?_eq_none (Nat.not_lt.mp inside)
    simp only [word, extend, beyond, getElem?_append_right (Nat.not_lt.mp inside), getElem?_replicate]
    split <;> rfl

theorem getLsbD_twoPow_bitOf (first second : CellId) (sameWord : wordOf first = wordOf second) :
    (BitVec.twoPow 64 (bitOf first)).getLsbD (bitOf second) = decide (second = first) := by
  obtain ⟨firstIndex⟩ := first
  obtain ⟨secondIndex⟩ := second
  simp only [wordOf, bitOf] at sameWord ⊢
  rw [BitVec.getLsbD_twoPow, Bool.eq_iff_iff]
  simp only [Bool.and_eq_true, decide_eq_true_eq, CellId.mk.injEq]
  omega

theorem eq_of_wordOf_ne {first second : CellId} (ne : wordOf first ≠ wordOf second) : first ≠ second :=
  fun same => ne (congrArg wordOf same)

@[simp] theorem contains_empty : empty.contains c = false := by
  simp [contains, word, empty]

@[simp] theorem contains_insert (added : CellId) :
    (set.insert added).contains c = (decide (c = added) || set.contains c) := by
  have words : (set.insert added).word (wordOf c) =
      if wordOf added = wordOf c then set.word (wordOf c) ||| BitVec.twoPow 64 (bitOf added)
      else set.word (wordOf c) := by
    have long : wordOf added < (extend set.words (wordOf added + 1)).length := by
      simp only [extend, length_append, length_replicate]
      omega
    have grown := word_extend set.words (wordOf added + 1) (wordOf c)
    simp only [word] at grown
    simp only [insert, word, getElem?_modify]
    by_cases same : wordOf added = wordOf c
    · rw [← same] at grown ⊢
      rw [getElem?_eq_getElem long] at grown ⊢
      simp only [Option.getD_some] at grown
      simp [grown]
    · simpa [same] using grown
  rw [contains, words]
  split
  · rename_i same
    rw [BitVec.getLsbD_or, getLsbD_twoPow_bitOf added c same, Bool.or_comm]
    rfl
  · rename_i ne
    simp [Ne.symm (eq_of_wordOf_ne ne), contains]

@[simp] theorem contains_erase (gone : CellId) :
    (set.erase gone).contains c = (!decide (c = gone) && set.contains c) := by
  have words : (set.erase gone).word (wordOf c) =
      if wordOf gone = wordOf c then set.word (wordOf c) &&& ~~~ (BitVec.twoPow 64 (bitOf gone))
      else set.word (wordOf c) := by
    simp only [erase, word, getElem?_modify]
    split
    · cases set.words[wordOf c]? <;> simp
    · simp
  rw [contains, words]
  split
  · rename_i same
    have inside : bitOf c < 64 := mod_lt _ (by decide)
    rw [BitVec.getLsbD_and, BitVec.getLsbD_not, getLsbD_twoPow_bitOf gone c same, Bool.and_comm]
    simp [inside, contains]
  · rename_i ne
    simp [Ne.symm (eq_of_wordOf_ne ne), contains]

@[simp] theorem contains_unit (member : CellId) : (unit member).contains c = decide (c = member) := by
  simp [unit]

@[simp] theorem contains_inter : (set.inter o).contains c = (set.contains c && o.contains c) := by
  have words : (set.inter o).word (wordOf c) = set.word (wordOf c) &&& o.word (wordOf c) := by
    simp only [inter, word, getElem?_mapIdx]
    cases set.words[wordOf c]? <;> simp
  rw [contains, words, BitVec.getLsbD_and]
  rfl

@[simp] theorem contains_union : (set.union o).contains c = (set.contains c || o.contains c) := by
  have words : (set.union o).word (wordOf c) = set.word (wordOf c) ||| o.word (wordOf c) := by
    have grown := word_extend set.words o.words.length (wordOf c)
    simp only [union, word, getElem?_mapIdx] at grown ⊢
    rw [← grown]
    by_cases inside : wordOf c < (extend set.words o.words.length).length
    · simp [getElem?_eq_getElem inside]
    · have beyond : o.words.length ≤ wordOf c := by
        simp only [extend, length_append, length_replicate] at inside
        omega
      simp [getElem?_eq_none (Nat.not_lt.mp inside), getElem?_eq_none beyond]
  rw [contains, words, BitVec.getLsbD_or]
  rfl

@[simp] theorem contains_ofList (cells : List CellId) : (ofList cells).contains c = decide (c ∈ cells) := by
  have folded : ∀ set : CellSet, (cells.foldl insert set).contains c = (decide (c ∈ cells) || set.contains c) := by
    induction cells with
    | nil => simp
    | cons first rest ih =>
      intro set
      rw [foldl_cons, ih, contains_insert, Bool.eq_iff_iff]
      grind
  rw [ofList, folded]
  simp

theorem contains_at {index bit : Nat} (inside : bit < 64) :
    set.contains ⟨index * 64 + bit⟩ = (set.word index).getLsbD bit := by
  have isWord : wordOf ⟨index * 64 + bit⟩ = index := by
    simp only [wordOf]
    omega
  have isBit : bitOf ⟨index * 64 + bit⟩ = bit := by
    simp only [bitOf]
    omega
  rw [contains, isWord, isBit]

/-- Sets are equal if they have the same members. -/
theorem equals_iff : set.equals o = true ↔ ∀ c, set.contains c = o.contains c := by
  simp only [equals, all_eq_true, mem_range, beq_iff_eq]
  constructor
  · intro same c
    by_cases inside : wordOf c < max set.words.length o.words.length
    · rw [contains, contains, same _ inside]
    · have short : set.words.length ≤ wordOf c ∧ o.words.length ≤ wordOf c := by omega
      simp [contains, word, getElem?_eq_none short.1, getElem?_eq_none short.2]
  · intro same index _
    refine BitVec.eq_of_getLsbD_eq fun bit inside => ?_
    rw [← contains_at set inside, ← contains_at o inside, same]

theorem mem_toList : c ∈ set.toList ↔ set.contains c = true := by
  simp only [toList, mem_flatten, mem_mapIdx]
  constructor
  · rintro ⟨_, ⟨index, inside, rfl⟩, isMember⟩
    obtain ⟨bit, isBit, rfl⟩ := mem_map.mp isMember
    obtain ⟨below, isSet⟩ := mem_filter.mp isBit
    rw [contains_at set (mem_range.mp below)]
    simpa [word, getElem?_eq_getElem inside] using isSet
  · intro isMember
    have inside : wordOf c < set.words.length := by
      refine Decidable.byContradiction fun outside => ?_
      simp [contains, word, getElem?_eq_none (Nat.not_lt.mp outside)] at isMember
    refine ⟨_, ⟨wordOf c, inside, rfl⟩, mem_map.mpr ⟨bitOf c, ?_, ?_⟩⟩
    · refine mem_filter.mpr ⟨mem_range.mpr (mod_lt _ (by decide)), ?_⟩
      simpa [contains, word, getElem?_eq_getElem inside] using isMember
    · obtain ⟨index⟩ := c
      simp only [wordOf, bitOf, CellId.mk.injEq]
      omega

/-- The size counts the members. -/
theorem size_eq_length_toList : set.size = set.toList.length := by
  simp only [size, toList, length_flatten, length_flatMap]
  congr 1
  refine ext_getElem (by simp) fun index _ _ => ?_
  simp

end CellSet

end SinglePath
