import Phrasebook.Grammar.Builder
import Phrasebook.Lexeme.Scan

/-! A range of a text with the table of its nodes. -/
namespace Phrasebook

/-- The nodes of a range of a text, and the place of the one that all others are below. -/
structure NodeTable where
  source : Text
  range : Span
  nodes : Arena
  root : Nat
deriving DecidableEq, Repr

namespace NodeTable

/-- The table that is made for a range. The root is added last. -/
def ofRange (source : Text) (range : Span) : Except ParseError NodeTable := do
  let lexemes ← source.lexemes range
  let build : Builder Nat := do
    let (items, _) ← Builder.statements ⟨lexemes, 0⟩
    Builder.add .script range items
  let (root, nodes) ← build.run []
  return ⟨source, range, nodes, root⟩

end NodeTable

end Phrasebook
