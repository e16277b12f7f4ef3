import Phrasebook.Index

/-!
The texts of a scene.

A scene is read line by line. A line has a text if it gives a value in quotes to a property whose
name ends in `text` or `hint_tooltip`, in any case; the value runs to the last quote of the line.
-/
namespace Phrasebook

namespace Scene

/-- What follows a word in lower case at the start of a text in any case. -/
def afterWord? : Text → Text → Option Text
  | [], t => some t
  | _ :: _, [] => none
  | w :: ws, c :: cs => if c.toLower = w then afterWord? ws cs else none

/-- What follows the opening quote, if a property and its value begin here. -/
def opening? (t : Text) : Option Text := do
  let r ← (afterWord? (Text.of "text") t).or (afterWord? (Text.of "hint_tooltip") t)
  match Text.trimStart r with
  | '=' :: r =>
    match Text.trimStart r with
    | '"' :: r => if r.contains '"' then some r else none
    | _ => none
  | _ => none

/-- What follows the opening quote of the first property of a line. -/
def property? : Text → Option Text
  | [] => none
  | c :: r => (opening? (c :: r)).or (property? r)

/-- The part before the last quote. -/
def beforeLastQuote (t : Text) : Text := (t.reverse.dropWhile (· != '"')).tail.reverse

/-- The entry of a line, if it has a text: the line is the context, and the position is that of the
value. -/
def ofLine? (number : Nat) (line : Text) : Option Entry := do
  let rest ← property? line
  let value := beforeLastQuote rest
  let column := line.length - rest.length
  if value.isTranslatable then
    some { Entry.new value (some line) with
      positions := [⟨number, column, number, column + value.length⟩] }
  else none

/-- The entries of lines, of which the first has the given number. -/
def ofLines (number : Nat) : List Text → List Entry
  | [] => []
  | line :: more => (ofLine? number line.withoutBreak).toList ++ ofLines (number + 1) more

/-- The entries by fingerprint with one more, or with its positions at the one that is there. -/
def insert (entries : Table Entry) (e : Entry) : Table Entry :=
  let fingerprint := e.fingerprint
  if entries.any (·.1 == fingerprint) then
    entries.map fun (f, old) =>
      if f = fingerprint then (f, { old with positions := old.positions ++ e.positions })
      else (f, old)
  else entries ++ [(fingerprint, e)]

/-- The entries with keys from the index. -/
def assignKeys (stem : Text) (index : Index) : List Entry → Except Fault (List Entry × Index)
  | [] => .ok ([], index)
  | e :: more => do
    let (n, index) ← index.assignEntry e
    let (entries, index) ← assignKeys stem index more
    return (e.withKey stem n.toNat :: entries, index)

/-- The entries of a scene, in the order in which they are found. -/
def parse (stem content : Text) (index : Index) : Except Fault (List Entry × Index) :=
  let found := (ofLines 1 content.normalize.linesWithBreaks).foldl insert []
  assignKeys stem index (found.map (·.2))

end Scene

end Phrasebook
