import Mathlib.Data.Finset.Card
import SinglePath.Proofs.CellFlow.Cells

/-!
Dense sets stand for finite sets of cells: what a sequence of operations builds, and what is answered about it.
-/

namespace SinglePath

namespace CellSet

variable {σ : Type}

/-- The operations from which sets of cells are built. -/
structure Operations (σ : Type) where
  empty : σ
  unit : CellId → σ
  insert : σ → CellId → σ
  erase : σ → CellId → σ
  clear : σ → σ
  inter : σ → σ → σ
  union : σ → σ → σ

def dense : Operations CellSet := ⟨empty, unit, insert, erase, clear, inter, union⟩

def finite : Operations (Finset CellId) where
  empty := ∅
  unit c := {c}
  insert cells c := Insert.insert c cells
  erase cells c := cells.erase c
  clear _ := ∅
  inter cells others := cells ∩ others
  union cells others := cells ∪ others

/-- A change of one of several numbered sets. -/
inductive Edit where
  | empty (name : Nat)
  | unit (name : Nat) (c : CellId)
  | insert (name : Nat) (c : CellId)
  | erase (name : Nat) (c : CellId)
  | clear (name : Nat)
  | inter (name o : Nat)
  | union (name o : Nat)

def Edit.apply (ops : Operations σ) (sets : Nat → σ) : Edit → Nat → σ
  | .empty name => Function.update sets name ops.empty
  | .unit name c => Function.update sets name (ops.unit c)
  | .insert name c => Function.update sets name (ops.insert (sets name) c)
  | .erase name c => Function.update sets name (ops.erase (sets name) c)
  | .clear name => Function.update sets name (ops.clear (sets name))
  | .inter name o => Function.update sets name (ops.inter (sets name) (sets o))
  | .union name o => Function.update sets name (ops.union (sets name) (sets o))

/-- All sets are empty at first. -/
def Operations.build (ops : Operations σ) (edits : List Edit) : Nat → σ :=
  edits.foldl (Edit.apply ops) fun _ => ops.empty

/-- A cell is in the set if its word is there and has its bit. -/
def Represents (set : CellSet) (cells : Finset CellId) : Prop :=
  ∀ c, c ∈ cells ↔ ∃ word, set.words[c.index / 64]? = some word ∧ word.getLsbD (c.index % 64) = true

variable {set o : CellSet} {cells : Finset CellId}

theorem represents_iff : set.Represents cells ↔ ∀ c, set.contains c = true ↔ c ∈ cells := by
  refine forall_congr' fun c => ?_
  rw [contains, word, wordOf, bitOf]
  cases set.words[c.index / 64]? <;> simp [iff_comm]

/-- Corresponding operations keep the correspondence. -/
theorem represents_apply {sets : Nat → CellSet} {views : Nat → Finset CellId}
    (alike : ∀ name, (sets name).Represents (views name)) (edit : Edit) (name : Nat) :
    (edit.apply dense sets name).Represents (edit.apply finite views name) := by
  simp only [represents_iff] at alike ⊢
  cases edit <;> simp only [Edit.apply, Function.update_apply] <;> split <;>
    simp [dense, finite, clear, alike]

theorem represents_build (edits : List Edit) (name : Nat) :
    (dense.build edits name).Represents (finite.build edits name) := by
  have folded (sets : Nat → CellSet) (views : Nat → Finset CellId)
      (alike : ∀ name, (sets name).Represents (views name)) :
      ∀ name, (edits.foldl (Edit.apply dense) sets name).Represents (edits.foldl (Edit.apply finite) views name) := by
    induction edits generalizing sets views with
    | nil => exact alike
    | cons edit rest ih => exact ih _ _ (represents_apply alike edit)
  exact folded _ _ (fun _ => represents_iff.mpr (by simp [dense, finite])) name

theorem isEmpty_iff : set.isEmpty = true ↔ ∀ c, set.contains c = false := by
  have same : set.isEmpty = set.equals empty := by
    rw [Bool.eq_iff_iff]
    simp only [isEmpty, equals, empty, word, List.all_eq_true, List.mem_range, beq_iff_eq, List.forall_mem_iff_getElem]
    simp +contextual
  simp [same, equals_iff]

theorem toList_increasing (set : CellSet) : set.toList.Pairwise (· < ·) := by
  refine List.pairwise_flatten.mpr ⟨fun part isPart => ?_, List.pairwise_iff_getElem.mpr ?_⟩
  · obtain ⟨index, _, rfl⟩ := List.mem_mapIdx.mp isPart
    refine List.pairwise_map.mpr ((List.pairwise_lt_range.filter _).imp fun {first second} less => ?_)
    exact Nat.add_lt_add_left less _
  · intro earlier later _ _ less first isFirst second isSecond
    simp only [List.getElem_mapIdx, bitsOf, List.mem_map, List.mem_filter, List.mem_range] at isFirst isSecond
    obtain ⟨bit, ⟨below, _⟩, rfl⟩ := isFirst
    obtain ⟨o, _, rfl⟩ := isSecond
    show earlier * 64 + bit < later * 64 + o
    omega

theorem Represents.toList (represents : set.Represents cells) : set.toList.toFinset = cells := by
  ext c
  rw [List.mem_toFinset, mem_toList, represents_iff.mp represents]

theorem Represents.size (represents : set.Represents cells) : set.size = cells.card := by
  have once : set.toList.Nodup := set.toList_increasing.imp fun less same => Nat.ne_of_lt less (congrArg _ same)
  rw [size_eq_length_toList, ← represents.toList, List.toFinset_card_of_nodup once]

/-- What a sequence of operations builds is the set that the operations on finite sets give, whatever words it keeps,
and every question is answered for that set. -/
theorem build_represents (edits : List Edit) (name : Nat) :
    let set := dense.build edits name
    let cells := finite.build edits name
    set.Represents cells ∧ (∀ cell, set.contains cell = true ↔ cell ∈ cells) ∧ (set.isEmpty = true ↔ cells = ∅) ∧
      set.size = cells.card ∧ (∀ cell, set.isUnit cell = true ↔ cells = {cell}) ∧
      (∀ more other, set.equals (dense.build more other) = true ↔ cells = finite.build more other) ∧
      set.toList.Pairwise (· < ·) ∧ ∀ cell, cell ∈ set.toList ↔ cell ∈ cells := by
  intro set cells
  have represents : set.Represents cells := represents_build edits name
  have contains := represents_iff.mp represents
  refine ⟨represents, contains, ?_, represents.size, fun cell => ?_, fun more other => ?_, set.toList_increasing, ?_⟩
  · simp only [isEmpty_iff, ← Bool.not_eq_true, contains, Finset.eq_empty_iff_forall_notMem]
  · rw [isUnit, Bool.and_eq_true, beq_iff_eq, represents.size, contains, Finset.card_eq_one]
    constructor
    · rintro ⟨⟨only, isOnly⟩, inside⟩
      rw [isOnly, Finset.mem_singleton] at inside
      rw [isOnly, inside]
    · intro isUnit
      exact ⟨⟨cell, isUnit⟩, isUnit ▸ Finset.mem_singleton_self cell⟩
  · have other := represents_iff.mp (represents_build more other)
    rw [equals_iff, Finset.ext_iff]
    exact forall_congr' fun cell => by rw [Bool.eq_iff_iff, contains, other]
  · exact fun cell => (mem_toList set cell).trans (contains cell)

end CellSet

end SinglePath
