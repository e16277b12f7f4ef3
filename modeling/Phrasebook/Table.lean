import Phrasebook.Text

/-! Values under keys that are texts. -/
namespace Phrasebook

/-- Keys with their values, in the order in which they were put. -/
abbrev Table (α : Type) := List (Text × α)

namespace Table

/-- The value under a key. -/
def get? (t : Table α) (key : Text) : Option α := (t.find? (·.1 == key)).map (·.2)

/-- The table with a value put under a key, in place of any before it. -/
def put (t : Table α) (key : Text) (value : α) : Table α :=
  t.filter (·.1 != key) ++ [(key, value)]

/-- The keys with their values by the order of the keys. -/
def sorted (t : Table α) : List (Text × α) := t.mergeSort fun a b => Text.notAfter a.1 b.1

/-- The keys in order. -/
def sortedKeys (t : Table α) : List Text := t.sorted.map (·.1)

end Table

end Phrasebook
