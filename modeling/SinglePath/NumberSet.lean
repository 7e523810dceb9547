import SinglePath.Index

/-!
Finite sets of numbers, kept as their members in increasing order. Two sets with the same members are equal.
-/

namespace SinglePath

/-- The members of a set stand in increasing order, each of them once. -/
structure NumberSet where
  members : List Nat
  increasing : members.Pairwise (· < ·)

namespace NumberSet

/-- A number goes before the first larger member, and a member is not repeated. -/
def place (number : Nat) : List Nat → List Nat
  | [] => [number]
  | first :: rest =>
    if number < first then number :: first :: rest
    else if number = first then first :: rest
    else first :: place number rest

theorem mem_place (number other : Nat) (members : List Nat) :
    other ∈ place number members ↔ other = number ∨ other ∈ members := by
  induction members with
  | nil => simp [place]
  | cons first rest ih => grind [place]

theorem place_increasing (number : Nat) (members : List Nat) (increasing : members.Pairwise (· < ·)) :
    (place number members).Pairwise (· < ·) := by
  induction members with
  | nil => simp [place]
  | cons first rest ih =>
    obtain ⟨smallest, ordered⟩ := List.pairwise_cons.mp increasing
    simp only [place]
    split
    · next below =>
        refine List.pairwise_cons.mpr ⟨?_, increasing⟩
        intro other found
        rcases List.mem_cons.mp found with same | later
        · exact same ▸ below
        · exact Nat.lt_trans below (smallest other later)
    · split
      · exact increasing
      · refine List.pairwise_cons.mpr ⟨?_, ih ordered⟩
        intro other found
        rcases (mem_place number other rest).mp found with same | later
        · omega
        · exact smallest other later

def empty : NumberSet := ⟨[], List.Pairwise.nil⟩

instance : Inhabited NumberSet := ⟨empty⟩

def insert (set : NumberSet) (number : Nat) : NumberSet :=
  ⟨place number set.members, place_increasing number set.members set.increasing⟩

def contains (set : NumberSet) (number : Nat) : Bool := set.members.contains number

def ofList (numbers : List Nat) : NumberSet := numbers.foldl insert empty

def union (set : NumberSet) (other : NumberSet) : NumberSet := other.members.foldl insert set

def text (set : NumberSet) : String := bracketed (set.members.map toString)

@[simp] theorem mem_insert (set : NumberSet) (number other : Nat) :
    other ∈ (set.insert number).members ↔ other = number ∨ other ∈ set.members :=
  mem_place number other set.members

theorem mem_foldl_insert (numbers : List Nat) (set : NumberSet) (number : Nat) :
    number ∈ (numbers.foldl insert set).members ↔ number ∈ numbers ∨ number ∈ set.members := by
  induction numbers generalizing set with
  | nil => simp
  | cons first rest ih =>
    simp only [List.foldl_cons, ih, mem_insert, List.mem_cons]
    grind

@[simp] theorem mem_ofList (numbers : List Nat) (number : Nat) :
    number ∈ (ofList numbers).members ↔ number ∈ numbers := by
  simp [ofList, mem_foldl_insert, empty]

@[simp] theorem mem_union (set other : NumberSet) (number : Nat) :
    number ∈ (set.union other).members ↔ number ∈ other.members ∨ number ∈ set.members :=
  mem_foldl_insert other.members set number

end NumberSet

end SinglePath
