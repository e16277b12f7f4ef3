import Phrasebook.Text
import Phrasebook.Span

/-! Lines and columns for byte offsets: lines count from one, columns count characters from zero. -/
namespace Phrasebook

/-- A place in a text. -/
structure Place where
  line : Nat
  column : Nat
deriving DecidableEq, Repr, Inhabited

/-- The places of the two ends of a span. -/
structure Position where
  startLine : Nat
  startColumn : Nat
  endLine : Nat
  endColumn : Nat
deriving DecidableEq, Repr, Inhabited

/-- The text written for a position, such as `1:0-1:4`. -/
def Position.render (p : Position) : String :=
  s!"{p.startLine}:{p.startColumn}-{p.endLine}:{p.endColumn}"

/-- The offsets at which the lines of a text begin, in order. -/
structure LineIndex where
  starts : List Nat
  source : Text

namespace LineIndex

/-- The offsets behind the line feeds of a text that begins at `pos`. -/
def breaks (pos : Nat) : Text → List Nat
  | [] => []
  | c :: r => if c = '\n' then (pos + 1) :: breaks (pos + 1) r else breaks (pos + c.utf8Size) r

def ofText (t : Text) : LineIndex := ⟨0 :: breaks 0 t, t⟩

@[simp]
theorem ofText_source (t : Text) : (ofText t).source = t := rfl

/-- Halves the `size` offsets from rank `base` on until one is left, and gives its rank. The half
that begins with an offset that is not behind `x` is kept, whether or not `x` is met before. -/
def narrow (starts : List Nat) (x base size : Nat) : Nat :=
  if 1 < size then
    let half := size / 2
    let mid := base + half
    narrow starts x (if x < starts.getD mid 0 then base else mid) (size - half)
  else base
termination_by size

/-- The rank of `x` among the offsets, or else the rank at which it would have to be put in. -/
def search (starts : List Nat) (x : Nat) : Except Nat Nat :=
  if starts.isEmpty then .error 0
  else
    let base := narrow starts x 0 starts.length
    let start := starts.getD base 0
    if start = x then .ok base else .error (if start < x then base + 1 else base)

/-- The rank of the line of an offset. -/
def line (l : LineIndex) (offset : Nat) : Nat :=
  match search l.starts offset with
  | .ok line => line
  | .error next => next - 1

/-- The place of an offset. An offset past the end stands at the end, and an offset inside a
character has column zero. -/
def lineCol (l : LineIndex) (offset : Nat) : Place :=
  let line := l.line offset
  let start := l.starts.getD line 0
  let stop := min offset l.source.size
  ⟨line + 1, ((l.source.slice? start stop).map List.length).getD 0⟩

/-- The places of a span's ends. -/
def position (l : LineIndex) (s : Span) : Position :=
  let a := l.lineCol s.start
  let b := l.lineCol s.stop
  ⟨a.line, a.column, b.line, b.column⟩

end LineIndex

namespace Text

def place (t : Text) (offset : Nat) : Place := (LineIndex.ofText t).lineCol offset

def position (t : Text) (s : Span) : Position := (LineIndex.ofText t).position s

theorem position_eq (t : Text) (s : Span) : t.position s =
    ⟨(t.place s.start).line, (t.place s.start).column, (t.place s.stop).line,
      (t.place s.stop).column⟩ := rfl

end Text

end Phrasebook
