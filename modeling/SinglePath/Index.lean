/-!
Blocks, scopes, predicates and frame cells are named by numbers. Each kind of name is a type of its own, is
ordered by its number, and is written as its number after a short tag.
-/

namespace SinglePath

/-- A block is named by its position in the function's arena. -/
structure BlockId where
  index : Nat
deriving DecidableEq, Repr

/-- A scope is named by its position in the scope tree. -/
structure ScopeId where
  index : Nat
deriving DecidableEq, Repr

/-- A predicate is named in the order of its creation. -/
structure PredId where
  index : Nat
deriving DecidableEq, Repr

/-- A frame cell is named by its word position in the stack frame. -/
structure CellId where
  index : Nat
deriving DecidableEq, Repr

instance : LT BlockId := ⟨fun first second => first.index < second.index⟩
instance : LT ScopeId := ⟨fun first second => first.index < second.index⟩
instance : LT PredId := ⟨fun first second => first.index < second.index⟩
instance : LT CellId := ⟨fun first second => first.index < second.index⟩

instance (first second : BlockId) : Decidable (first < second) :=
  inferInstanceAs (Decidable (first.index < second.index))
instance (first second : ScopeId) : Decidable (first < second) :=
  inferInstanceAs (Decidable (first.index < second.index))
instance (first second : PredId) : Decidable (first < second) :=
  inferInstanceAs (Decidable (first.index < second.index))
instance (first second : CellId) : Decidable (first < second) :=
  inferInstanceAs (Decidable (first.index < second.index))

def BlockId.text (block : BlockId) : String := "b" ++ toString block.index
def ScopeId.text (scope : ScopeId) : String := "s" ++ toString scope.index
def PredId.text (pred : PredId) : String := "pred" ++ toString pred.index
def CellId.text (cell : CellId) : String := "fi" ++ toString cell.index

/-- Items are written in brackets, a comma and a blank between them. -/
def bracketed (items : List String) : String := "[" ++ ", ".intercalate items ++ "]"

end SinglePath
