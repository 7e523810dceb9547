/-!
Finite maps kept as lists of entries in the order of their keys. Looking up after an insertion gives the new
value at its key and the old value elsewhere.
-/

namespace SinglePath

/-- The entries of a table stand in the order of their keys. -/
structure Table (κ ν : Type) where
  entries : List (κ × ν)
deriving DecidableEq, Repr

namespace Table

variable {κ ν : Type}

def empty : Table κ ν := ⟨[]⟩

instance : Inhabited (Table κ ν) := ⟨empty⟩

section Lookup

variable [DecidableEq κ]

def find (key : κ) : List (κ × ν) → Option ν
  | [] => none
  | entry :: rest => if entry.1 = key then some entry.2 else find key rest

def get? (table : Table κ ν) (key : κ) : Option ν := find key table.entries

def contains (table : Table κ ν) (key : κ) : Bool := (table.get? key).isSome

def remove (key : κ) : List (κ × ν) → List (κ × ν)
  | [] => []
  | entry :: rest => if entry.1 = key then remove key rest else entry :: remove key rest

def erase (table : Table κ ν) (key : κ) : Table κ ν := ⟨remove key table.entries⟩

variable [LT κ] [DecidableLT κ]

/-- A new entry replaces the old one at its key, and otherwise goes before the first larger key. -/
def place (key : κ) (value : ν) : List (κ × ν) → List (κ × ν)
  | [] => [(key, value)]
  | entry :: rest =>
    if entry.1 = key then (key, value) :: rest
    else if key < entry.1 then (key, value) :: entry :: rest
    else entry :: place key value rest

def insert (table : Table κ ν) (key : κ) (value : ν) : Table κ ν := ⟨place key value table.entries⟩

/-- An entry that is already there stays as it is. -/
def insertNew (table : Table κ ν) (key : κ) (value : ν) : Table κ ν :=
  if table.contains key then table else table.insert key value

/-- The value at the key is recomputed from the value found there. -/
def alter (table : Table κ ν) (key : κ) (update : Option ν → ν) : Table κ ν :=
  table.insert key (update (table.get? key))

def ofList (entries : List (κ × ν)) : Table κ ν :=
  entries.foldl (fun table entry => table.insert entry.1 entry.2) empty

end Lookup

def keys (table : Table κ ν) : List κ := table.entries.map (·.1)

def values (table : Table κ ν) : List ν := table.entries.map (·.2)

section Laws

variable [DecidableEq κ]

@[simp] theorem get?_empty (key : κ) : (empty : Table κ ν).get? key = none := rfl

theorem find_remove (key other : κ) (entries : List (κ × ν)) :
    find other (remove key entries) = if other = key then none else find other entries := by
  induction entries with
  | nil => simp [remove, find]
  | cons entry rest ih => grind [remove, find]

theorem get?_erase (table : Table κ ν) (key other : κ) :
    (table.erase key).get? other = if other = key then none else table.get? other :=
  find_remove key other table.entries

variable [LT κ] [DecidableLT κ]

theorem find_place (key other : κ) (value : ν) (entries : List (κ × ν)) :
    find other (place key value entries) = if other = key then some value else find other entries := by
  induction entries with
  | nil => grind [place, find]
  | cons entry rest ih => grind [place, find]

@[simp] theorem get?_insert (table : Table κ ν) (key other : κ) (value : ν) :
    (table.insert key value).get? other = if other = key then some value else table.get? other :=
  find_place key other value table.entries

end Laws

end Table

end SinglePath
