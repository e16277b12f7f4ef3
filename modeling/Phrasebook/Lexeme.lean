import Phrasebook.Text
import Phrasebook.Span

/-! The lexemes of a script. -/
namespace Phrasebook

/-- What surrounds the content of a string literal: a sigil (`r`, `&`, `^` or nothing) and the
delimiter on both sides. -/
structure Quoting where
  sigil : Text
  delimiter : Text
deriving DecidableEq, Repr, Inhabited

namespace Quoting

/-- The literal that holds `content`. -/
def wrap (q : Quoting) (content : Text) : Text :=
  q.sigil ++ q.delimiter ++ content ++ q.delimiter

/-- Whether a backslash stands for itself. -/
def isRaw (q : Quoting) : Bool := q.sigil == ['r']

end Quoting

namespace Lexeme

inductive Kind where
  | word
  | number
  | str (quoting : Quoting)
  | op
  | newline
  | indent
  | dedent
  | eof
deriving DecidableEq, Repr, Inhabited

/-- Whether lexemes of this kind carry text of their own, rather than mark the line structure. -/
def Kind.isSolid : Kind → Bool
  | .word | .number | .str _ | .op => true
  | .newline | .indent | .dedent | .eof => false

end Lexeme

structure Lexeme where
  kind : Lexeme.Kind
  span : Span
  text : Text
deriving DecidableEq, Repr, Inhabited

namespace Lexeme

/-- Whether this is the operator `op`. -/
def isOp (l : Lexeme) (op : String) : Bool := l.kind == .op && l.text == Text.of op

/-- Whether this is the word `w`. -/
def isWord (l : Lexeme) (w : String) : Bool := l.kind == .word && l.text == Text.of w

/-- Whether this is an operator that opens a bracket. -/
def opens (l : Lexeme) : Bool := l.isOp "(" || l.isOp "[" || l.isOp "\x7b"

/-- Whether this is an operator that closes a bracket. -/
def closes (l : Lexeme) : Bool := l.isOp ")" || l.isOp "]" || l.isOp "\x7d"

end Lexeme

end Phrasebook
