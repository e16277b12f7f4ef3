import Phrasebook.Position
import Phrasebook.Text.Blank
import Phrasebook.Text.Letter

/-! Cutting a script at its functions by its lines alone. -/
namespace Phrasebook

/-- A part of a script: what stands before the first function, or a function by its name. -/
structure Chunk where
  name : Option Text
  range : Span
deriving DecidableEq, Repr

namespace Text

/-- The name of the function a line declares; it may be empty. -/
def functionName? (line : Text) : Option Text :=
  let line := trimStart line
  let rest := (afterLeading? (of "static func ") line).or (afterLeading? (of "func ") line)
  rest.map (·.takeWhile fun c => isLetterOrDigit c || c == '_')

end Text

namespace Chunk

/-- The offsets at which the lines of a text begin. None begins behind a line feed at the end. -/
def lineStarts (t : Text) : List Nat :=
  let starts := (LineIndex.ofText t).starts
  if starts.getLast? = some t.size then starts.dropLast else starts

/-- A line is put in front of what is read, which is not in a chunk yet before `stop`. A line that
declares a function begins a chunk. -/
def readLine (t : Text) (start : Nat) : Nat × List Chunk → Nat × List Chunk
  | (stop, chunks) =>
    match ((t.dropBytes start).linesWithBreaks.headD []).withoutBreak.functionName? with
    | some f => (start, ⟨some f, ⟨start, stop⟩⟩ :: chunks)
    | none => (stop, chunks)

/-- The chunks of a text, which is read from its last line to its first. -/
def ofText (t : Text) : List Chunk :=
  let (stop, chunks) := (lineStarts t).foldr (readLine t) (t.size, [])
  if 0 < stop then ⟨none, ⟨0, stop⟩⟩ :: chunks else chunks

/-- The name by which a chunk is discarded. -/
def title (c : Chunk) : Text := c.name.getD (Text.of "<head>")

end Chunk

end Phrasebook
