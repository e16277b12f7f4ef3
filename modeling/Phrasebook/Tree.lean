import Phrasebook.Fault
import Phrasebook.Lexeme.Scan
import Phrasebook.Grammar.Statement

/-! Parsed texts, and parsing again after a replacement. -/
namespace Phrasebook

/-- A range of a text with its syntax tree. -/
structure Tree where
  source : Text
  range : Span
  root : Node
deriving Repr, Inhabited

namespace Tree

/-- The tree of a range. Spans and places refer to the whole text. -/
def ofRange (source : Text) (range : Span) : Except ParseError Tree := do
  let lexemes ← source.lexemes range
  let (items, _) ← Cursor.statements ⟨lexemes, 0⟩
  return ⟨source, range, ⟨.script, range, items⟩⟩

/-- The tree of a whole text. -/
def ofScript (source : Text) : Except ParseError Tree := ofRange source ⟨0, source.size⟩

/-- The tree of a text that is one expression, which is the only child of the root. -/
def ofExpression (source : Text) : Except ParseError Tree := do
  let range : Span := ⟨0, source.size⟩
  let lexemes ← source.lexemes range
  let (expression, c) ← (Cursor.skipNewlines ⟨lexemes, 0⟩).expression
  let c := c.skipNewlines
  if c.kind = .eof ∨ c.kind = .dedent then
    return ⟨source, range, ⟨.script, range, [expression]⟩⟩
  else .error (c.unexpected .expressionEnd)

/-- The tree of a text that is one statement, which is the only child of the root. -/
def ofStatement (source : Text) : Except ParseError Tree := do
  let tree ← ofScript source
  match tree.root.children with
  | [_] => return tree
  | items => .error ⟨0, .statementCount items.length⟩

/-- The offset that a computation gives. Offsets are 64-bit words: one that lies outside the text
wraps around. -/
def offsetIn (source : Text) (x : Int) : Nat :=
  if 0 ≤ x ∧ x ≤ source.size then x.toNat else (x % UInt64.size).toNat

/-- The tree of the text after edits. The range keeps its start, and its end moves by the bytes
gained and lost. -/
def replaceSpans (t : Tree) (edits : List Edit) : Except Fault Tree :=
  match Edit.applyAll t.source edits with
  | .error conflict => .error (.edit conflict)
  | .ok source =>
    let stop := offsetIn source (t.range.stop + Edit.gain edits)
    (ofRange source ⟨t.range.start, stop⟩).mapError (Fault.ofParseError source)

/-- The tree of the text with one node replaced. -/
def replaceNode (t : Tree) (n : Node) (text : Text) : Except Fault Tree :=
  t.replaceSpans [⟨n.span, text⟩]

end Tree

end Phrasebook
