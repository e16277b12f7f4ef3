import Phrasebook.Json
import Phrasebook.Table

/-! Taking data out of JSON values. -/
namespace Phrasebook

namespace Json

def text? : Json → Option Text
  | .string value => value
  | _ => none

/-- A text, or `null` for none. -/
def optionalText? : Json → Option (Option Text)
  | .null => some none
  | .string (some t) => some (some t)
  | _ => none

def bool? : Json → Option Bool
  | .bool b => some b
  | _ => none

/-- The number that decimal digits stand for. -/
def ofDigits (digits : Text) : Nat := digits.foldl (fun n c => 10 * n + (c.toNat - 48)) 0

/-- A 64-bit natural number, written without sign, point and exponent. -/
def word? : Json → Option UInt64
  | .number literal =>
    if literal.all Char.isDigit ∧ ofDigits literal < UInt64.size then
      some (UInt64.ofNat (ofDigits literal))
    else none
  | _ => none

def list? (decode : Json → Option α) : Json → Option (List α)
  | .array items => items.mapM decode
  | _ => none

/-- Keys with their values; of a repeated key the last counts. -/
def map? (decode : Json → Option α) : Json → Option (Table α)
  | .object fields =>
    fields.foldlM (fun table (key, value) => do return table.put (← key) (← decode value)) []
  | _ => none

/-- The values of the named members, each at most once. Other members do not matter. The members
may also come as an array in the order of their names, from which the last may be left out. -/
def members? (names : List String) : Json → Option (List (Option Json))
  | .object fields => do
    let fields ← fields.mapM fun (key, value) => key.map (·, value)
    names.mapM fun name =>
      match fields.filter (·.1 == Text.of name) with
      | [] => some none
      | [(_, value)] => some (some value)
      | _ => none
  | .array items =>
    if items.length ≤ names.length then
      some (items.map some ++ List.replicate (names.length - items.length) none)
    else none
  | _ => none

/-- The value of a member, or a default if it is missing. -/
def orElse (default : α) (decode : Json → Option α) : Option Json → Option α
  | none => some default
  | some value => decode value

end Json

end Phrasebook
