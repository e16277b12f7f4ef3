import Phrasebook.Grammar.Cursor

/-!
Expressions.

Binary operators bind by level and associate to the left; a ternary binds weakest and nests in its
last part. The rules call each other within a bound on their nesting that grows with the number of
lexemes left, so `Cursor.expression` never runs into it.
-/
namespace Phrasebook

namespace Grammar

/-- How tightly a binary operator binds, given the lexeme it consists of. -/
def binaryLevel? (l : Lexeme) : Option Nat :=
  match l.kind with
  | .word =>
    match String.ofList l.text with
    | "or" => some 1
    | "and" => some 2
    | "in" => some 4
    | "is" | "as" => some 13
    | _ => none
  | .op =>
    match String.ofList l.text with
    | "||" => some 1
    | "&&" => some 2
    | "==" | "!=" | "<" | ">" | "<=" | ">=" => some 4
    | "|" => some 5
    | "^" => some 6
    | "&" => some 7
    | "<<" | ">>" => some 8
    | "+" | "-" => some 9
    | "*" | "/" | "%" => some 10
    | "**" => some 12
    | _ => none
  | _ => none

/-- How tightly an operator before its operand binds. -/
def unaryLevel? (l : Lexeme) : Option Nat :=
  match l.kind with
  | .word => if l.isWord "not" then some 3 else none
  | .op =>
    if l.isOp "!" then some 3
    else if l.isOp "-" || l.isOp "+" || l.isOp "~" then some 11
    else none
  | _ => none

/-- Whether the right operand of a binary operator is a type, which takes no operators. -/
def takesType (op : Text) : Bool := op == Text.of "is" || op == Text.of "as"

/-- The words that cannot begin an expression. -/
def reserved : List Text :=
  ["if", "elif", "else", "for", "while", "match", "return", "var", "const", "pass", "break",
   "continue", "and", "or", "in", "class", "extends", "signal", "enum"].map Text.of

end Grammar

namespace Cursor

open Grammar

/-- The binary operator that comes next: its level, its text, and the place after it. -/
def binaryOp? (c : Cursor) : Option (Nat × Text × Cursor) :=
  if c.isWord "not" && c.peekNext.isWord "in" then
    some (4, Text.of "not in", c.advance.advance)
  else (binaryLevel? c.peek).map fun level => (level, c.peek.text, c.advance)

/-- A lexeme that is an expression by itself. -/
def leaf (c : Cursor) (kind : Node.Kind) : Node × Cursor := (⟨kind, c.peek.span, []⟩, c.advance)

/-- A node path: a name with further parts, or a string. -/
def nodePath (c : Cursor) : Except ParseError (Node × Cursor) :=
  let start := c.peek.span.start
  let c := c.advance
  match c.kind with
  | .str _ =>
    let c := c.advance
    .ok (⟨.nodePath, c.spanFrom start, []⟩, c)
  | .word =>
    let c := c.advance
    let c := pathTail c.lastEnd c.rest
    .ok (⟨.nodePath, c.spanFrom start, []⟩, c)
  | _ => .error (c.unexpected .nodePath)

/-- A member of the parent class, which a leading point asks for. -/
def parentMember (c : Cursor) : Except ParseError (Node × Cursor) := do
  let start := c.peek.span.start
  let (name, c) ← c.advance.expectWord
  return (⟨.member name, c.spanFrom start, []⟩, c)

/-- An expression of one word. -/
def wordExpression (c : Cursor) : Except ParseError (Node × Cursor) :=
  if c.isWord "true" || c.isWord "false" || c.isWord "null" then .ok (c.leaf .literal)
  else if c.isWord "func" then .error (c.unexpected .noLambda)
  else if reserved.contains c.peek.text then .error (c.unexpected .expressionPart)
  else .ok (c.leaf .identifier)

mutual

/-- An expression with its ternaries. -/
def expressionIn : Nat → Cursor → Except ParseError (Node × Cursor)
  | 0, c => .error ⟨c.peek.span.start, .exhausted⟩
  | fuel + 1, c => do
    let (value, c) ← binaryIn fuel 1 c
    if c.isWord "if" then
      let (condition, c) ← binaryIn fuel 1 c.advance
      if c.isWord "else" then
        let (other, c) ← expressionIn fuel c.advance
        return (⟨.ternary, value.span.hull other.span, [value, condition, other]⟩, c)
      else .error (c.unexpected .elseOfTernary)
    else return (value, c)

/-- An expression of binary operators of at least the given level. -/
def binaryIn : Nat → Nat → Cursor → Except ParseError (Node × Cursor)
  | 0, _, c => .error ⟨c.peek.span.start, .exhausted⟩
  | fuel + 1, level, c => do
    let (left, c) ← operandIn fuel c
    binaryTailIn fuel level left c

/-- Goes on after the left operand. -/
def binaryTailIn : Nat → Nat → Node → Cursor → Except ParseError (Node × Cursor)
  | 0, _, _, c => .error ⟨c.peek.span.start, .exhausted⟩
  | fuel + 1, level, left, c =>
    match c.binaryOp? with
    | none => .ok (left, c)
    | some (opLevel, op, after) =>
      if opLevel < level then .ok (left, c)
      else do
        let (right, c) ←
          if takesType op then chainIn fuel after else binaryIn fuel (opLevel + 1) after
        binaryTailIn fuel level ⟨.binary op, left.span.hull right.span, [left, right]⟩ c

/-- An operand with the operators before it. -/
def operandIn : Nat → Cursor → Except ParseError (Node × Cursor)
  | 0, c => .error ⟨c.peek.span.start, .exhausted⟩
  | fuel + 1, c =>
    let first := c.peek
    match unaryLevel? first with
    | some level => do
      let (operand, c) ← binaryIn fuel level c.advance
      return (⟨.unary first.text, first.span.hull operand.span, [operand]⟩, c)
    | none =>
      if c.isWord "await" then do
        let (operand, c) ← chainIn fuel c.advance
        return (⟨.await, first.span.hull operand.span, [operand]⟩, c)
      else chainIn fuel c

/-- An operand with the calls, members and subscripts after it. -/
def chainIn : Nat → Cursor → Except ParseError (Node × Cursor)
  | 0, c => .error ⟨c.peek.span.start, .exhausted⟩
  | fuel + 1, c => do
    let (head, c) ← primaryIn fuel c
    chainTailIn fuel head c

/-- Goes on after the operand. -/
def chainTailIn : Nat → Node → Cursor → Except ParseError (Node × Cursor)
  | 0, _, c => .error ⟨c.peek.span.start, .exhausted⟩
  | fuel + 1, head, c =>
    if c.isOp "(" then do
      let (arguments, c) ← sequenceIn fuel ")" c.advance
      chainTailIn fuel ⟨.call, ⟨head.span.start, c.lastEnd⟩, head :: arguments⟩ c
    else if c.isOp "." then do
      let (name, c) ← c.advance.expectWord
      chainTailIn fuel ⟨.member name, ⟨head.span.start, c.lastEnd⟩, [head]⟩ c
    else if c.isOp "[" then do
      let (index, c) ← expressionIn fuel c.advance
      let c ← c.expectOp "]"
      chainTailIn fuel ⟨.index, ⟨head.span.start, c.lastEnd⟩, [head, index]⟩ c
    else .ok (head, c)

/-- Expressions with commas between them and perhaps after the last, up to and with `close`. -/
def sequenceIn : Nat → String → Cursor → Except ParseError (List Node × Cursor)
  | 0, _, c => .error ⟨c.peek.span.start, .exhausted⟩
  | fuel + 1, close, c =>
    if c.isOp close then .ok ([], c.advance)
    else do
      let (item, c) ← expressionIn fuel c
      if c.isOp "," then
        let (items, c) ← sequenceIn fuel close c.advance
        return (item :: items, c)
      else
        let c ← c.expectOp close
        return ([item], c)

/-- The pairs of a dictionary, up to and with the closing brace. -/
def pairsIn : Nat → Cursor → Except ParseError (List Node × Cursor)
  | 0, c => .error ⟨c.peek.span.start, .exhausted⟩
  | fuel + 1, c =>
    if c.isOp "\x7d" then .ok ([], c.advance)
    else do
      let (key, c) ← expressionIn fuel c
      if c.isOp ":" || c.isOp "=" then
        let (value, c) ← expressionIn fuel c.advance
        let pair : Node := ⟨.pair, key.span.hull value.span, [key, value]⟩
        if c.isOp "," then
          let (pairs, c) ← pairsIn fuel c.advance
          return (pair :: pairs, c)
        else
          let c ← c.expectOp "\x7d"
          return ([pair], c)
      else .error (c.unexpected .pairMark)

/-- An operand without operators. -/
def primaryIn : Nat → Cursor → Except ParseError (Node × Cursor)
  | 0, c => .error ⟨c.peek.span.start, .exhausted⟩
  | fuel + 1, c =>
    let start := c.peek.span.start
    match c.kind with
    | .str q => .ok (c.leaf (.string q))
    | .number => .ok (c.leaf .number)
    | .word => c.wordExpression
    | .op =>
      if c.isOp "(" then do
        let (inner, c) ← expressionIn fuel c.advance
        let c ← c.expectOp ")"
        return (⟨.paren, c.spanFrom start, [inner]⟩, c)
      else if c.isOp "[" then do
        let (items, c) ← sequenceIn fuel "]" c.advance
        return (⟨.array, c.spanFrom start, items⟩, c)
      else if c.isOp "\x7b" then do
        let (pairs, c) ← pairsIn fuel c.advance
        return (⟨.dictionary, c.spanFrom start, pairs⟩, c)
      else if c.isOp "$" || c.isOp "%" then c.nodePath
      else if c.isOp "." then c.parentMember
      else .error (c.unexpected .expressionPart)
    | _ => .error (c.unexpected .expression)

end

/-- A complete expression. -/
def expression (c : Cursor) : Except ParseError (Node × Cursor) :=
  expressionIn (8 * c.rest.length + 8) c

end Cursor

end Phrasebook
