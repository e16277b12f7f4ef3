import Phrasebook.Arena
import Phrasebook.Grammar.Statement

/-!
The grammar with a table of nodes.

The rules read as those of expressions and statements do, but put every node in a table where it is
complete, and give the places of nodes in place of trees. A rule may read spans in the table, and nothing
is ever taken out of it.
-/
namespace Phrasebook

/-- A rule that adds nodes to a table. -/
abbrev Builder := StateT Arena (Except ParseError)

namespace Builder

open Grammar

/-- Adds a node whose children are in the table, and gives its place. -/
def add (kind : Node.Kind) (span : Span) (children : List Nat) : Builder Nat :=
  modifyGet fun a => (a.length, a.add kind span children)

/-- The span of a node in the table. -/
def spanOf (i : Nat) : Builder Span := do
  return (← get).spanOf i

/-- Adds a node without children. -/
def addLeaf (leaf : Except ParseError (Node × Cursor)) : Builder (Nat × Cursor) := do
  let (n, c) ← leaf
  return (← add n.kind n.span [], c)

mutual

/-- An expression with its ternaries. -/
def expressionIn : Nat → Cursor → Builder (Nat × Cursor)
  | 0, c => throw ⟨c.peek.span.start, .exhausted⟩
  | fuel + 1, c => do
    let (value, c) ← binaryIn fuel 1 c
    if c.isWord "if" then
      let (condition, c) ← binaryIn fuel 1 c.advance
      if c.isWord "else" then
        let (other, c) ← expressionIn fuel c.advance
        let span := (← spanOf value).hull (← spanOf other)
        return (← add .ternary span [value, condition, other], c)
      else throw (c.unexpected .elseOfTernary)
    else return (value, c)

/-- An expression of binary operators of at least the given level. -/
def binaryIn : Nat → Nat → Cursor → Builder (Nat × Cursor)
  | 0, _, c => throw ⟨c.peek.span.start, .exhausted⟩
  | fuel + 1, level, c => do
    let (left, c) ← operandIn fuel c
    binaryTailIn fuel level left c

/-- Goes on after the left operand. -/
def binaryTailIn : Nat → Nat → Nat → Cursor → Builder (Nat × Cursor)
  | 0, _, _, c => throw ⟨c.peek.span.start, .exhausted⟩
  | fuel + 1, level, left, c =>
    match c.binaryOp? with
    | none => return (left, c)
    | some (opLevel, op, after) =>
      if opLevel < level then return (left, c)
      else do
        let (right, c) ←
          if takesType op then chainIn fuel after else binaryIn fuel (opLevel + 1) after
        let span := (← spanOf left).hull (← spanOf right)
        binaryTailIn fuel level (← add (.binary op) span [left, right]) c

/-- An operand with the operators before it. -/
def operandIn : Nat → Cursor → Builder (Nat × Cursor)
  | 0, c => throw ⟨c.peek.span.start, .exhausted⟩
  | fuel + 1, c =>
    let first := c.peek
    match unaryLevel? first with
    | some level => do
      let (operand, c) ← binaryIn fuel level c.advance
      return (← add (.unary first.text) (first.span.hull (← spanOf operand)) [operand], c)
    | none =>
      if c.isWord "await" then do
        let (operand, c) ← chainIn fuel c.advance
        return (← add .await (first.span.hull (← spanOf operand)) [operand], c)
      else chainIn fuel c

/-- An operand with the calls, members and subscripts after it. -/
def chainIn : Nat → Cursor → Builder (Nat × Cursor)
  | 0, c => throw ⟨c.peek.span.start, .exhausted⟩
  | fuel + 1, c => do
    let (head, c) ← primaryIn fuel c
    chainTailIn fuel head c

/-- Goes on after the operand. -/
def chainTailIn : Nat → Nat → Cursor → Builder (Nat × Cursor)
  | 0, _, c => throw ⟨c.peek.span.start, .exhausted⟩
  | fuel + 1, head, c =>
    if c.isOp "(" then do
      let (arguments, c) ← sequenceIn fuel ")" c.advance
      let start := (← spanOf head).start
      chainTailIn fuel (← add .call ⟨start, c.lastEnd⟩ (head :: arguments)) c
    else if c.isOp "." then do
      let (name, c) ← c.advance.expectWord
      let start := (← spanOf head).start
      chainTailIn fuel (← add (.member name) ⟨start, c.lastEnd⟩ [head]) c
    else if c.isOp "[" then do
      let (index, c) ← expressionIn fuel c.advance
      let c ← c.expectOp "]"
      let start := (← spanOf head).start
      chainTailIn fuel (← add .index ⟨start, c.lastEnd⟩ [head, index]) c
    else return (head, c)

/-- Expressions with commas between them and perhaps after the last, up to and with `close`. -/
def sequenceIn : Nat → String → Cursor → Builder (List Nat × Cursor)
  | 0, _, c => throw ⟨c.peek.span.start, .exhausted⟩
  | fuel + 1, close, c =>
    if c.isOp close then return ([], c.advance)
    else do
      let (item, c) ← expressionIn fuel c
      if c.isOp "," then
        let (items, c) ← sequenceIn fuel close c.advance
        return (item :: items, c)
      else
        let c ← c.expectOp close
        return ([item], c)

/-- The pairs of a dictionary, up to and with the closing brace. -/
def pairsIn : Nat → Cursor → Builder (List Nat × Cursor)
  | 0, c => throw ⟨c.peek.span.start, .exhausted⟩
  | fuel + 1, c =>
    if c.isOp "\x7d" then return ([], c.advance)
    else do
      let (key, c) ← expressionIn fuel c
      if c.isOp ":" || c.isOp "=" then
        let (value, c) ← expressionIn fuel c.advance
        let span := (← spanOf key).hull (← spanOf value)
        let pair ← add .pair span [key, value]
        if c.isOp "," then
          let (pairs, c) ← pairsIn fuel c.advance
          return (pair :: pairs, c)
        else
          let c ← c.expectOp "\x7d"
          return ([pair], c)
      else throw (c.unexpected .pairMark)

/-- An operand without operators. -/
def primaryIn : Nat → Cursor → Builder (Nat × Cursor)
  | 0, c => throw ⟨c.peek.span.start, .exhausted⟩
  | fuel + 1, c =>
    let start := c.peek.span.start
    match c.kind with
    | .str q => addLeaf (.ok (c.leaf (.string q)))
    | .number => addLeaf (.ok (c.leaf .number))
    | .word => addLeaf c.wordExpression
    | .op =>
      if c.isOp "(" then do
        let (inner, c) ← expressionIn fuel c.advance
        let c ← c.expectOp ")"
        return (← add .paren (c.spanFrom start) [inner], c)
      else if c.isOp "[" then do
        let (items, c) ← sequenceIn fuel "]" c.advance
        return (← add .array (c.spanFrom start) items, c)
      else if c.isOp "\x7b" then do
        let (pairs, c) ← pairsIn fuel c.advance
        return (← add .dictionary (c.spanFrom start) pairs, c)
      else if c.isOp "$" || c.isOp "%" then addLeaf c.nodePath
      else if c.isOp "." then addLeaf c.parentMember
      else throw (c.unexpected .expressionPart)
    | _ => throw (c.unexpected .expression)

end

/-- A complete expression. -/
def expression (c : Cursor) : Builder (Nat × Cursor) := expressionIn (8 * c.rest.length + 8) c

/-- The initial value of a variable, if it has one. -/
def initializer (c : Cursor) : Builder (List Nat × Cursor) :=
  if c.isOp "=" || c.isOp ":=" then do
    let (value, c) ← expression c.advance
    return ([value], c)
  else return ([], c)

/-- A variable, from `var` on. It is added when its accessors have been passed. -/
def varStatement (start : Nat) (c : Cursor) : Builder (Nat × Cursor) := do
  let (name, c) ← c.advance.expectWord
  let c ← if c.isOp ":" && c.peekNext.kind != .newline then c.advance.typeHint else pure c
  let (value, c) ← initializer c
  let c := if c.isWord "setget" then c.skipToStatementEnd else c
  let span := c.spanFrom start
  if c.isOp ":" then
    let c := c.advance.skipAccessors
    return (← add (.varDecl name) span value, c)
  else
    c.expectStatementEnd
    return (← add (.varDecl name) span value, c)

/-- A return, from its word on. -/
def returnStatement (start : Nat) (c : Cursor) : Builder (Nat × Cursor) := do
  let c := c.advance
  let (value, c) ←
    if c.atStatementEnd then pure ([], c)
    else do
      let (value, c) ← expression c
      pure ([value], c)
  c.expectStatementEnd
  return (← add .returnStmt (c.spanFrom start) value, c)

/-- An expression or an assignment. -/
def expressionStatement (start : Nat) (c : Cursor) : Builder (Nat × Cursor) := do
  let (target, c) ← expression c
  let op := c.peek
  if op.kind = .op ∧ assignments.contains op.text then
    let (value, c) ← expression c.advance
    c.expectStatementEnd
    return (← add (.assign op.text) (c.spanFrom start) [target, value], c)
  else
    c.expectStatementEnd
    return (← add .exprStmt (c.spanFrom start) [target], c)

mutual

/-- Statements up to the end or, in a block, up to and with the `dedent` that closes it. -/
def blockIn : Nat → Bool → Cursor → Builder (List Nat × Cursor)
  | 0, _, c => throw ⟨c.peek.span.start, .exhausted⟩
  | fuel + 1, inBlock, c =>
    let c := c.skipNewlines
    match c.kind with
    | .eof => return ([], c)
    | .dedent => if inBlock then return ([], c.advance) else blockIn fuel inBlock c.advance
    | .indent => do
      let (nested, c) ← blockIn fuel true c.advance
      let (more, c) ← blockIn fuel inBlock c
      return (nested ++ more, c)
    | _ => do
      let (item, c) ← statementIn fuel c
      let (more, c) ← blockIn fuel inBlock c
      return (item :: more, c)

/-- What follows a colon. -/
def suiteIn : Nat → Cursor → Builder (List Nat × Cursor)
  | 0, c => throw ⟨c.peek.span.start, .exhausted⟩
  | fuel + 1, c =>
    if c.kind = .newline then
      let c := c.advance
      if c.kind = .indent then blockIn fuel true c.advance else return ([], c)
    else do
      let (items, c) ← lineIn fuel c
      return (items, if c.kind = .newline then c.advance else c)

/-- Statements on one line, with semicolons between them. -/
def lineIn : Nat → Cursor → Builder (List Nat × Cursor)
  | 0, c => throw ⟨c.peek.span.start, .exhausted⟩
  | fuel + 1, c => do
    let (item, c) ← statementIn fuel c
    if c.isOp ";" then
      let c := c.advance
      if c.atStatementEnd then return ([item], c)
      else
        let (items, c) ← lineIn fuel c
        return (item :: items, c)
    else return ([item], c)

def statementIn : Nat → Cursor → Builder (Nat × Cursor)
  | 0, c => throw ⟨c.peek.span.start, .exhausted⟩
  | fuel + 1, c => do
    let start := c.peek.span.start
    let (ended, c) ← c.annotations c.rest.length
    if ended then return (← add .keywordStmt (c.spanFrom start) [], c)
    else match opening c.peek with
      | .plain kind => addLeaf (.ok (c.plainDeclaration kind start))
      | .keyword =>
        let c := c.advance
        c.expectStatementEnd
        return (← add .keywordStmt (c.spanFrom start) [], c)
      | .modifier =>
        let c := c.skipModifiers c.rest.length
        if c.isWord "var" then varStatement start c
        else if c.isWord "func" then functionIn fuel start c
        else if c.isWord "const" then addLeaf (.ok (c.plainDeclaration .constDecl start))
        else throw (c.unexpected .declaration)
      | .varDecl => varStatement start c
      | .funcDecl => functionIn fuel start c
      | .classDecl => classIn fuel start c
      | .ifStmt => ifStatementIn fuel start c
      | .forStmt => forStatementIn fuel start c
      | .whileStmt => whileStatementIn fuel start c
      | .matchStmt => matchStatementIn fuel start c
      | .returnStmt => returnStatement start c
      | .orphan => throw (c.unexpected .matchingIf)
      | .expression => expressionStatement start c

/-- A function, from `func` on; only its name and its body are kept. -/
def functionIn : Nat → Nat → Cursor → Builder (Nat × Cursor)
  | 0, _, c => throw ⟨c.peek.span.start, .exhausted⟩
  | fuel + 1, start, c => do
    let c := c.advance
    let (name, c) := if c.kind = .word then (c.peek.text, c.advance) else ([], c)
    let c ← c.skipToColon
    let (body, c) ← suiteIn fuel c.advance
    return (← add (.funcDecl name) (c.spanFrom start) body, c)

/-- A class, from `class` on. -/
def classIn : Nat → Nat → Cursor → Builder (Nat × Cursor)
  | 0, _, c => throw ⟨c.peek.span.start, .exhausted⟩
  | fuel + 1, start, c => do
    let (name, c) ← c.advance.expectWord
    let c ← c.skipToColon
    let (body, c) ← suiteIn fuel c.advance
    return (← add (.classDecl name) (c.spanFrom start) body, c)

/-- A conditional with all its branches. -/
def ifStatementIn : Nat → Nat → Cursor → Builder (Nat × Cursor)
  | 0, _, c => throw ⟨c.peek.span.start, .exhausted⟩
  | fuel + 1, start, c => do
    let (first, c) ← branchIn fuel .ifBranch c
    let (others, c) ← branchesIn fuel c
    return (← add .ifStmt (c.spanFrom start) (first :: others), c)

/-- The branches after the first. -/
def branchesIn : Nat → Cursor → Builder (List Nat × Cursor)
  | 0, c => throw ⟨c.peek.span.start, .exhausted⟩
  | fuel + 1, c =>
    if c.isWord "elif" then do
      let (branch, c) ← branchIn fuel .elifBranch c
      let (others, c) ← branchesIn fuel c
      return (branch :: others, c)
    else if c.isWord "else" then do
      let (branch, c) ← branchIn fuel .elseBranch c
      return ([branch], c)
    else return ([], c)

/-- One branch, from its word on. -/
def branchIn : Nat → Node.Branch → Cursor → Builder (Nat × Cursor)
  | 0, _, c => throw ⟨c.peek.span.start, .exhausted⟩
  | fuel + 1, which, c => do
    let start := c.peek.span.start
    let c := c.advance
    let (condition, c) ←
      if which = .elseBranch then pure ([], c)
      else do
        let (condition, c) ← expression c
        pure ([condition], c)
    let c ← c.expectOp ":"
    let (body, c) ← suiteIn fuel c
    return (← add (.branch which) (c.spanFrom start) (condition ++ body), c)

def forStatementIn : Nat → Nat → Cursor → Builder (Nat × Cursor)
  | 0, _, c => throw ⟨c.peek.span.start, .exhausted⟩
  | fuel + 1, start, c => do
    let (_, c) ← c.advance.expectWord
    let c ← if c.isOp ":" then c.advance.typeHint else pure c
    if c.isWord "in" then
      let (iterable, c) ← expression c.advance
      let c ← c.expectOp ":"
      let (body, c) ← suiteIn fuel c
      return (← add .forStmt (c.spanFrom start) (iterable :: body), c)
    else throw (c.unexpected (.exactly "in"))

def whileStatementIn : Nat → Nat → Cursor → Builder (Nat × Cursor)
  | 0, _, c => throw ⟨c.peek.span.start, .exhausted⟩
  | fuel + 1, start, c => do
    let (condition, c) ← expression c.advance
    let c ← c.expectOp ":"
    let (body, c) ← suiteIn fuel c
    return (← add .whileStmt (c.spanFrom start) (condition :: body), c)

def matchStatementIn : Nat → Nat → Cursor → Builder (Nat × Cursor)
  | 0, _, c => throw ⟨c.peek.span.start, .exhausted⟩
  | fuel + 1, start, c => do
    let (subject, c) ← expression c.advance
    let c ← c.expectOp ":"
    if c.kind = .newline then
      let c := c.advance
      if c.kind = .indent then
        let (branches, c) ← matchBranchesIn fuel c.advance
        return (← add .matchStmt (c.spanFrom start) (subject :: branches), c)
      else return (← add .matchStmt (c.spanFrom start) [subject], c)
    else throw (c.unexpected .matchBlock)

/-- The branches of a match, up to and with the `dedent` that closes them. A pattern is added before
the suite behind it. -/
def matchBranchesIn : Nat → Cursor → Builder (List Nat × Cursor)
  | 0, c => throw ⟨c.peek.span.start, .exhausted⟩
  | fuel + 1, c =>
    let c := c.skipNewlines
    match c.kind with
    | .dedent => return ([], c.advance)
    | .eof => return ([], c)
    | _ => do
      let start := c.peek.span.start
      let c ← c.skipToColon
      let pattern ← add .pattern (c.spanFrom start) []
      let (body, c) ← suiteIn fuel c.advance
      let branch ← add .matchBranch (c.spanFrom start) (pattern :: body)
      let (more, c) ← matchBranchesIn fuel c
      return (branch :: more, c)

end

/-- All statements up to the end. -/
def statements (c : Cursor) : Builder (List Nat × Cursor) :=
  blockIn (8 * c.rest.length + 8) false c

end Builder

end Phrasebook
