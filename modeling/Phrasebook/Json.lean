import Phrasebook.Text

/-!
JSON values.

A number is kept as it is written. A string is `none` if it has half of a surrogate pair, which no
text can hold; such a string may be passed over but not used. The fields of an object keep their
order and may repeat.
-/
namespace Phrasebook

inductive Json where
  | null
  | bool (b : Bool)
  | number (literal : Text)
  | string (value : Option Text)
  | array (items : List Json)
  | object (fields : List (Option Text × Json))
deriving Repr, Inhabited

namespace Json

/-- The value of a text. -/
def text (t : Text) : Json := .string (some t)

/-- The value of a natural number. -/
def nat (n : Nat) : Json := .number (Text.ofNat n)

/-- The object with the given fields. -/
def record (fields : List (String × Json)) : Json :=
  .object (fields.map fun (key, value) => (some (Text.of key), value))

end Json

end Phrasebook
