import Phrasebook.Json

/-! Writing JSON, on one line or indented. -/
namespace Phrasebook

namespace Json

/-- A character inside a string: quotes, backslashes and control characters are escaped. -/
def escape (c : Char) : Text :=
  if c = '"' then ['\\', '"']
  else if c = '\\' then ['\\', '\\']
  else if c = '\x08' then ['\\', 'b']
  else if c = '\x0c' then ['\\', 'f']
  else if c = '\n' then ['\\', 'n']
  else if c = '\r' then ['\\', 'r']
  else if c = '\t' then ['\\', 't']
  else if c.toNat < 0x20 then
    ['\\', 'u', '0', '0', Nat.digitChar (c.toNat / 16), Nat.digitChar (c.toNat % 16)]
  else [c]

def quote (t : Text) : Text := '"' :: t.flatMap escape ++ ['"']

/-- A string; one that no text can hold is written empty. -/
def quoteValue (value : Option Text) : Text := quote (value.getD [])

mutual

/-- The value on one line, without blanks. -/
def compact : Json → Text
  | .null => Text.of "null"
  | .bool b => Text.of (if b then "true" else "false")
  | .number literal => literal
  | .string value => quoteValue value
  | .array [] => ['[', ']']
  | .array (item :: items) => '[' :: item.compact ++ compactItems items ++ [']']
  | .object [] => ['\x7b', '\x7d']
  | .object ((key, value) :: fields) =>
    '\x7b' :: quoteValue key ++ ':' :: value.compact ++ compactFields fields ++ ['\x7d']

def compactItems : List Json → Text
  | [] => []
  | item :: items => ',' :: item.compact ++ compactItems items

def compactFields : List (Option Text × Json) → Text
  | [] => []
  | (key, value) :: fields =>
    ',' :: quoteValue key ++ ':' :: value.compact ++ compactFields fields

end

/-- A new line at a depth, two blanks for each level. -/
def newLine (depth : Nat) : Text := '\n' :: List.replicate (2 * depth) ' '

mutual

/-- The value with every item and field on a line of its own. -/
def pretty (depth : Nat) : Json → Text
  | .null => Text.of "null"
  | .bool b => Text.of (if b then "true" else "false")
  | .number literal => literal
  | .string value => quoteValue value
  | .array [] => ['[', ']']
  | .array (item :: items) =>
    '[' :: newLine (depth + 1) ++ item.pretty (depth + 1) ++ prettyItems (depth + 1) items ++
      newLine depth ++ [']']
  | .object [] => ['\x7b', '\x7d']
  | .object ((key, value) :: fields) =>
    '\x7b' :: newLine (depth + 1) ++ quoteValue key ++ ':' :: ' ' :: value.pretty (depth + 1) ++
      prettyFields (depth + 1) fields ++ newLine depth ++ ['\x7d']

def prettyItems (depth : Nat) : List Json → Text
  | [] => []
  | item :: items => ',' :: newLine depth ++ item.pretty depth ++ prettyItems depth items

def prettyFields (depth : Nat) : List (Option Text × Json) → Text
  | [] => []
  | (key, value) :: fields =>
    ',' :: newLine depth ++ quoteValue key ++ ':' :: ' ' :: value.pretty depth ++
      prettyFields depth fields

end

end Json

end Phrasebook
