import SinglePath.Index

/-!
Dense sets of frame cells, one bit a cell, in words of 64 bits. A set grows when a cell beyond its last word
enters and does not shrink when cells leave, so equal sets may differ in their trailing zero words.
-/

namespace SinglePath

abbrev CellWord := BitVec 64

structure CellSet where
  words : List CellWord
deriving DecidableEq, Repr

namespace CellSet

def wordOf (cell : CellId) : Nat := cell.index / 64

def bitOf (cell : CellId) : Nat := cell.index % 64

def empty : CellSet := ⟨[]⟩

instance : Inhabited CellSet := ⟨empty⟩

/-- A word beyond the last one has no cells. -/
def word (set : CellSet) (index : Nat) : CellWord := (set.words[index]?).getD 0

/-- Zero words are appended until the set has at least the given number of words. -/
def extend (words : List CellWord) (count : Nat) : List CellWord :=
  words ++ List.replicate (count - words.length) 0

def insert (set : CellSet) (cell : CellId) : CellSet :=
  ⟨(extend set.words (wordOf cell + 1)).modify (wordOf cell) (· ||| BitVec.twoPow 64 (bitOf cell))⟩

def erase (set : CellSet) (cell : CellId) : CellSet :=
  ⟨set.words.modify (wordOf cell) (· &&& ~~~ (BitVec.twoPow 64 (bitOf cell)))⟩

def clear (_ : CellSet) : CellSet := empty

def unit (cell : CellId) : CellSet := empty.insert cell

def ofList (cells : List CellId) : CellSet := cells.foldl insert empty

def contains (set : CellSet) (cell : CellId) : Bool := (set.word (wordOf cell)).getLsbD (bitOf cell)

def isEmpty (set : CellSet) : Bool := set.words.all (· == 0)

/-- Words that only one of the sets has count as zero; the result has the words of the first. -/
def inter (set other : CellSet) : CellSet :=
  ⟨set.words.mapIdx fun index word => word &&& other.word index⟩

/-- The result has as many words as the longer of the two. -/
def union (set other : CellSet) : CellSet :=
  ⟨(extend set.words other.words.length).mapIdx fun index word => word ||| other.word index⟩

/-- Set equality does not see trailing zero words. -/
def equals (set other : CellSet) : Bool :=
  (List.range (max set.words.length other.words.length)).all fun index =>
    set.word index == other.word index

/-- The positions of the bits of a word, in increasing order. -/
def bitsOf (word : CellWord) : List Nat := (List.range 64).filter fun bit => word.getLsbD bit

def toList (set : CellSet) : List CellId :=
  (set.words.mapIdx fun index word => (bitsOf word).map fun bit => (⟨index * 64 + bit⟩ : CellId)).flatten

def size (set : CellSet) : Nat := (set.words.flatMap bitsOf).length

def isUnit (set : CellSet) (cell : CellId) : Bool := set.size == 1 && set.contains cell

def text (set : CellSet) : String := bracketed (set.toList.map CellId.text)

end CellSet

end SinglePath
