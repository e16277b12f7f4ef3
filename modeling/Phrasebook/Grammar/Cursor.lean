import Phrasebook.ParseError
import Phrasebook.Node

/-! A place in a list of lexemes, and the moves that need no grammar. -/
namespace Phrasebook

/-- The lexemes still to be read, and where the last one with text that was read ends. The list
ends with `eof`, which is never passed. -/
structure Cursor where
  rest : List Lexeme
  lastEnd : Nat
deriving Repr, Inhabited

namespace Cursor

open ParseError (Want)

/-- The next lexeme. -/
def peek (c : Cursor) : Lexeme := c.rest.headD ⟨.eof, ⟨0, 0⟩, []⟩

/-- The lexeme after the next one. -/
def peekNext (c : Cursor) : Lexeme :=
  match c.rest with
  | _ :: l :: _ => l
  | _ => c.peek

def kind (c : Cursor) : Lexeme.Kind := c.peek.kind

def isOp (c : Cursor) (op : String) : Bool := c.peek.isOp op

def isWord (c : Cursor) (w : String) : Bool := c.peek.isWord w

/-- Where the last lexeme with text ends, once `l` has been read after `last`. -/
def endAfter (last : Nat) (l : Lexeme) : Nat := if l.kind.isSolid then l.span.stop else last

/-- Reads a lexeme, unless at the end. -/
def advance (c : Cursor) : Cursor :=
  match c.rest with
  | [] => c
  | l :: r => if l.kind = .eof then c else ⟨r, endAfter c.lastEnd l⟩

/-- From `start` to the end of the last lexeme with text. -/
def spanFrom (c : Cursor) (start : Nat) : Span := ⟨start, max c.lastEnd start⟩

/-- The refusal of the next lexeme. -/
def unexpected (c : Cursor) (want : Want) : ParseError :=
  ⟨c.peek.span.start, .unexpected want c.peek⟩

def expectOp (c : Cursor) (op : String) : Except ParseError Cursor :=
  if c.isOp op then .ok c.advance else .error (c.unexpected (.exactly op))

def expectWord (c : Cursor) : Except ParseError (Text × Cursor) :=
  if c.kind = .word then .ok (c.peek.text, c.advance) else .error (c.unexpected .word)

/-- Passes the lexemes that satisfy `p`. -/
def passWhile (p : Lexeme → Bool) (last : Nat) : List Lexeme → Cursor
  | [] => ⟨[], last⟩
  | l :: r =>
    if l.kind != .eof && p l then passWhile p (endAfter last l) r else ⟨l :: r, last⟩

/-- Whether a lexeme ends a statement. -/
def endsStatement (l : Lexeme) : Bool :=
  l.kind == .newline || l.kind == .eof || l.kind == .dedent || l.isOp ";"

def atStatementEnd (c : Cursor) : Bool := endsStatement c.peek

def expectStatementEnd (c : Cursor) : Except ParseError Unit :=
  if c.atStatementEnd then .ok () else .error (c.unexpected .statementEnd)

/-- Passes line ends and semicolons. -/
def skipNewlines (c : Cursor) : Cursor :=
  passWhile (fun l => l.kind == .newline || l.isOp ";") c.lastEnd c.rest

/-- Passes everything up to the end of the statement. -/
def skipToStatementEnd (c : Cursor) : Cursor :=
  passWhile (fun l => !endsStatement l) c.lastEnd c.rest

/-- The place of the first colon outside brackets; it must come before the line ends. -/
def toColon (depth last : Nat) : List Lexeme → Except ParseError Cursor
  | [] => .error ((⟨[], last⟩ : Cursor).unexpected (.exactly ":"))
  | l :: r =>
    if l.kind = .newline ∨ l.kind = .eof then
      .error ((⟨l :: r, last⟩ : Cursor).unexpected (.exactly ":"))
    else if depth = 0 ∧ l.isOp ":" then .ok ⟨l :: r, last⟩
    else
      toColon (if l.opens then depth + 1 else if l.closes then depth - 1 else depth)
        (endAfter last l) r

def skipToColon (c : Cursor) : Except ParseError Cursor := toColon 0 c.lastEnd c.rest

/-- The place after the bracket that closes the outermost one opened, or the end. -/
def pastBrackets (depth last : Nat) : List Lexeme → Cursor
  | [] => ⟨[], last⟩
  | l :: r =>
    if l.kind = .eof then ⟨l :: r, last⟩
    else if l.opens then pastBrackets (depth + 1) (endAfter last l) r
    else if l.closes then
      if depth ≤ 1 then ⟨r, endAfter last l⟩ else pastBrackets (depth - 1) (endAfter last l) r
    else pastBrackets depth (endAfter last l) r

/-- Passes a bracketed part. -/
def skipBrackets (c : Cursor) : Cursor := pastBrackets 0 c.lastEnd c.rest

/-- The place after the `dedent` that closes the outermost `indent` read, or the end. -/
def pastBlock (depth last : Nat) : List Lexeme → Cursor
  | [] => ⟨[], last⟩
  | l :: r =>
    match l.kind with
    | .eof => ⟨l :: r, last⟩
    | .indent => pastBlock (depth + 1) last r
    | .dedent => if depth ≤ 1 then ⟨r, last⟩ else pastBlock (depth - 1) last r
    | _ => pastBlock depth (endAfter last l) r

/-- Passes the accessors of a property, which stand on the same line or in a block. -/
def skipAccessors (c : Cursor) : Cursor :=
  if c.kind = .newline then
    let c := c.advance
    if c.kind = .indent then pastBlock 0 c.lastEnd c.rest else c
  else c.skipToStatementEnd

/-- Passes the further parts of a node path: each is a slash and a name, without blanks between. -/
def pathTail (last : Nat) : List Lexeme → Cursor
  | slash :: name :: r =>
    if slash.isOp "/" && slash.span.start == last && name.span.start == slash.span.stop &&
        (name.kind == .word || name.kind == .number) then
      pathTail name.span.stop r
    else ⟨slash :: name :: r, last⟩
  | l => ⟨l, last⟩

end Cursor

end Phrasebook
