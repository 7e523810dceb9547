/-!
Stable sorting by a numeric key: items with the same key keep their order.
-/

namespace SinglePath

/-- An item goes before the first item whose key is not smaller. -/
def placeByKey {α : Type} (key : α → Nat) (item : α) : List α → List α
  | [] => [item]
  | first :: rest =>
    if key item ≤ key first then item :: first :: rest else first :: placeByKey key item rest

def sortByKey {α : Type} (key : α → Nat) : List α → List α
  | [] => []
  | first :: rest => placeByKey key first (sortByKey key rest)

theorem placeByKey_perm {α : Type} (key : α → Nat) (item : α) (items : List α) :
    (placeByKey key item items).Perm (item :: items) := by
  induction items with
  | nil => exact List.Perm.refl _
  | cons first rest ih =>
    simp only [placeByKey]
    split
    · exact List.Perm.refl _
    · exact (ih.cons first).trans (List.Perm.swap item first rest)

theorem sortByKey_perm {α : Type} (key : α → Nat) (items : List α) : (sortByKey key items).Perm items := by
  induction items with
  | nil => exact List.Perm.refl _
  | cons first rest ih =>
    exact (placeByKey_perm key first (sortByKey key rest)).trans (ih.cons first)

end SinglePath
