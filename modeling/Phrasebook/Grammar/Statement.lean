import Phrasebook.Grammar.Expression

/-!
Statements.

A suite is what follows a colon: an indented block, or statements on the same line. As for
expressions, the rules call each other within a bound that grows with the number of lexemes left.
-/
namespace Phrasebook

namespace Grammar

/-- The words that may stand before `var`, `func` and `const`. -/
def modifiers : List Text :=
  ["export", "onready", "static", "remote", "master", "puppet", "slave", "sync", "remotesync",
   "mastersync", "puppetsync"].map Text.of

def assignments : List Text :=
  ["=", "+=", "-=", "*=", "/=", "%=", "**=", "&=", "|=", "^=", "<<=", ">>="].map Text.of

/-- The words that an annotation on its own line may stand before. -/
def annotated : List Text := ["var", "func", "onready", "static"].map Text.of

/-- The declarations of which only the extent is kept. -/
def plainDeclaration? (l : Lexeme) : Option Node.Kind :=
  if l.isWord "extends" then some .extendsDecl
  else if l.isWord "class_name" then some .classNameDecl
  else if l.isWord "signal" then some .signalDecl
  else if l.isWord "enum" then some .enumDecl
  else if l.isWord "const" then some .constDecl
  else none

/-- The statements of a single word. -/
def isKeyword (l : Lexeme) : Bool :=
  l.isWord "pass" || l.isWord "break" || l.isWord "continue" || l.isWord "tool" ||
    l.isWord "breakpoint"

def isModifier (l : Lexeme) : Bool := l.kind == .word && modifiers.contains l.text

/-- What the first lexeme of a statement makes of it. -/
inductive Opening where
  | plain (kind : Node.Kind)
  | keyword
  | modifier
  | varDecl
  | funcDecl
  | classDecl
  | ifStmt
  | forStmt
  | whileStmt
  | matchStmt
  | returnStmt
  /-- A branch without its conditional. -/
  | orphan
  | expression
deriving DecidableEq, Repr

/-- The words that open a statement of their own kind. -/
def openingWords : List (String × Opening) :=
  [("var", .varDecl), ("func", .funcDecl), ("class", .classDecl), ("if", .ifStmt),
   ("for", .forStmt), ("while", .whileStmt), ("match", .matchStmt), ("return", .returnStmt),
   ("elif", .orphan), ("else", .orphan)]

def opening (l : Lexeme) : Opening :=
  match plainDeclaration? l with
  | some kind => .plain kind
  | none =>
    if isKeyword l then .keyword
    else if isModifier l then .modifier
    else match openingWords.find? fun (w, _) => l.isWord w with
      | some (_, opening) => opening
      | none => .expression

end Grammar

namespace Cursor

open Grammar

/-- Passes a bracketed part, if there is one. -/
def skipOptionalBrackets (c : Cursor) : Cursor := if c.isOp "(" then c.skipBrackets else c

/-- Passes the line ends between an annotation and what it stands before. -/
def skipAnnotationBreaks (c : Cursor) : Cursor :=
  if c.kind = .newline ∧ c.peekNext.kind = .word ∧ annotated.contains c.peekNext.text then
    c.advance
  else c

/-- Passes annotations. The result tells whether the statement ends with them. -/
def annotations : Nat → Cursor → Except ParseError (Bool × Cursor)
  | 0, c => .ok (false, c)
  | fuel + 1, c =>
    if c.isOp "@" then do
      let (_, c) ← c.advance.expectWord
      let c := c.skipOptionalBrackets.skipAnnotationBreaks
      if c.atStatementEnd then return (true, c) else annotations fuel c
    else .ok (false, c)

/-- Passes modifiers and their arguments. -/
def skipModifiers : Nat → Cursor → Cursor
  | 0, c => c
  | fuel + 1, c =>
    if isModifier c.peek then skipModifiers fuel c.advance.skipOptionalBrackets else c

/-- Passes the further parts of a dotted name. -/
def dottedTail : Nat → Cursor → Except ParseError Cursor
  | 0, c => .ok c
  | fuel + 1, c =>
    if c.isOp "." then do
      let (_, c) ← c.advance.expectWord
      dottedTail fuel c
    else .ok c

/-- Passes a type. -/
def typeHint (c : Cursor) : Except ParseError Cursor := do
  let (_, c) ← c.expectWord
  let c ← dottedTail c.rest.length c
  return if c.isOp "[" then c.skipBrackets else c

/-- A declaration of which only the extent is kept. -/
def plainDeclaration (kind : Node.Kind) (start : Nat) (c : Cursor) : Node × Cursor :=
  let c := c.skipToStatementEnd
  (⟨kind, c.spanFrom start, []⟩, c)

/-- The initial value of a variable, if it has one. -/
def initializer (c : Cursor) : Except ParseError (List Node × Cursor) :=
  if c.isOp "=" || c.isOp ":=" then do
    let (value, c) ← c.advance.expression
    return ([value], c)
  else .ok ([], c)

/-- A variable, from `var` on. The accessors of a property are outside its span. -/
def varStatement (start : Nat) (c : Cursor) : Except ParseError (Node × Cursor) := do
  let (name, c) ← c.advance.expectWord
  let c ← if c.isOp ":" && c.peekNext.kind != .newline then c.advance.typeHint else .ok c
  let (value, c) ← c.initializer
  let c := if c.isWord "setget" then c.skipToStatementEnd else c
  let node : Node := ⟨.varDecl name, c.spanFrom start, value⟩
  if c.isOp ":" then return (node, c.advance.skipAccessors)
  else
    c.expectStatementEnd
    return (node, c)

/-- A return, from its word on. -/
def returnStatement (start : Nat) (c : Cursor) : Except ParseError (Node × Cursor) := do
  let c := c.advance
  let (value, c) ←
    if c.atStatementEnd then .ok ([], c)
    else do
      let (value, c) ← c.expression
      pure ([value], c)
  c.expectStatementEnd
  return (⟨.returnStmt, c.spanFrom start, value⟩, c)

/-- An expression or an assignment. -/
def expressionStatement (start : Nat) (c : Cursor) : Except ParseError (Node × Cursor) := do
  let (target, c) ← c.expression
  let op := c.peek
  if op.kind = .op ∧ assignments.contains op.text then
    let (value, c) ← c.advance.expression
    c.expectStatementEnd
    return (⟨.assign op.text, c.spanFrom start, [target, value]⟩, c)
  else
    c.expectStatementEnd
    return (⟨.exprStmt, c.spanFrom start, [target]⟩, c)

mutual

/-- Statements up to the end or, in a block, up to and with the `dedent` that closes it. An
`indent` where none is due opens a block whose statements join the others. -/
def blockIn : Nat → Bool → Cursor → Except ParseError (List Node × Cursor)
  | 0, _, c => .error ⟨c.peek.span.start, .exhausted⟩
  | fuel + 1, inBlock, c =>
    let c := c.skipNewlines
    match c.kind with
    | .eof => .ok ([], c)
    | .dedent => if inBlock then .ok ([], c.advance) else blockIn fuel inBlock c.advance
    | .indent => do
      let (nested, c) ← blockIn fuel true c.advance
      let (more, c) ← blockIn fuel inBlock c
      return (nested ++ more, c)
    | _ => do
      let (item, c) ← statementIn fuel c
      let (more, c) ← blockIn fuel inBlock c
      return (item :: more, c)

/-- What follows a colon. -/
def suiteIn : Nat → Cursor → Except ParseError (List Node × Cursor)
  | 0, c => .error ⟨c.peek.span.start, .exhausted⟩
  | fuel + 1, c =>
    if c.kind = .newline then
      let c := c.advance
      if c.kind = .indent then blockIn fuel true c.advance else .ok ([], c)
    else do
      let (items, c) ← lineIn fuel c
      return (items, if c.kind = .newline then c.advance else c)

/-- Statements on one line, with semicolons between them. -/
def lineIn : Nat → Cursor → Except ParseError (List Node × Cursor)
  | 0, c => .error ⟨c.peek.span.start, .exhausted⟩
  | fuel + 1, c => do
    let (item, c) ← statementIn fuel c
    if c.isOp ";" then
      let c := c.advance
      if c.atStatementEnd then return ([item], c)
      else
        let (items, c) ← lineIn fuel c
        return (item :: items, c)
    else return ([item], c)

def statementIn : Nat → Cursor → Except ParseError (Node × Cursor)
  | 0, c => .error ⟨c.peek.span.start, .exhausted⟩
  | fuel + 1, c => do
    let start := c.peek.span.start
    let (ended, c) ← annotations c.rest.length c
    if ended then return (⟨.keywordStmt, c.spanFrom start, []⟩, c)
    else match opening c.peek with
      | .plain kind => return c.plainDeclaration kind start
      | .keyword =>
        let c := c.advance
        c.expectStatementEnd
        return (⟨.keywordStmt, c.spanFrom start, []⟩, c)
      | .modifier =>
        let c := skipModifiers c.rest.length c
        if c.isWord "var" then c.varStatement start
        else if c.isWord "func" then functionIn fuel start c
        else if c.isWord "const" then return c.plainDeclaration .constDecl start
        else .error (c.unexpected .declaration)
      | .varDecl => c.varStatement start
      | .funcDecl => functionIn fuel start c
      | .classDecl => classIn fuel start c
      | .ifStmt => ifStatementIn fuel start c
      | .forStmt => forStatementIn fuel start c
      | .whileStmt => whileStatementIn fuel start c
      | .matchStmt => matchStatementIn fuel start c
      | .returnStmt => c.returnStatement start
      | .orphan => .error (c.unexpected .matchingIf)
      | .expression => c.expressionStatement start

/-- A function, from `func` on; only its name and its body are kept. -/
def functionIn : Nat → Nat → Cursor → Except ParseError (Node × Cursor)
  | 0, _, c => .error ⟨c.peek.span.start, .exhausted⟩
  | fuel + 1, start, c => do
    let c := c.advance
    let (name, c) := if c.kind = .word then (c.peek.text, c.advance) else ([], c)
    let c ← c.skipToColon
    let (body, c) ← suiteIn fuel c.advance
    return (⟨.funcDecl name, c.spanFrom start, body⟩, c)

/-- A class, from `class` on. -/
def classIn : Nat → Nat → Cursor → Except ParseError (Node × Cursor)
  | 0, _, c => .error ⟨c.peek.span.start, .exhausted⟩
  | fuel + 1, start, c => do
    let (name, c) ← c.advance.expectWord
    let c ← c.skipToColon
    let (body, c) ← suiteIn fuel c.advance
    return (⟨.classDecl name, c.spanFrom start, body⟩, c)

/-- A conditional with all its branches. -/
def ifStatementIn : Nat → Nat → Cursor → Except ParseError (Node × Cursor)
  | 0, _, c => .error ⟨c.peek.span.start, .exhausted⟩
  | fuel + 1, start, c => do
    let (first, c) ← branchIn fuel .ifBranch c
    let (others, c) ← branchesIn fuel c
    return (⟨.ifStmt, c.spanFrom start, first :: others⟩, c)

/-- The branches after the first. -/
def branchesIn : Nat → Cursor → Except ParseError (List Node × Cursor)
  | 0, c => .error ⟨c.peek.span.start, .exhausted⟩
  | fuel + 1, c =>
    if c.isWord "elif" then do
      let (branch, c) ← branchIn fuel .elifBranch c
      let (others, c) ← branchesIn fuel c
      return (branch :: others, c)
    else if c.isWord "else" then do
      let (branch, c) ← branchIn fuel .elseBranch c
      return ([branch], c)
    else .ok ([], c)

/-- One branch, from its word on. -/
def branchIn : Nat → Node.Branch → Cursor → Except ParseError (Node × Cursor)
  | 0, _, c => .error ⟨c.peek.span.start, .exhausted⟩
  | fuel + 1, which, c => do
    let start := c.peek.span.start
    let c := c.advance
    let (condition, c) ←
      if which = .elseBranch then .ok ([], c)
      else do
        let (condition, c) ← c.expression
        pure ([condition], c)
    let c ← c.expectOp ":"
    let (body, c) ← suiteIn fuel c
    return (⟨.branch which, c.spanFrom start, condition ++ body⟩, c)

def forStatementIn : Nat → Nat → Cursor → Except ParseError (Node × Cursor)
  | 0, _, c => .error ⟨c.peek.span.start, .exhausted⟩
  | fuel + 1, start, c => do
    let (_, c) ← c.advance.expectWord
    let c ← if c.isOp ":" then c.advance.typeHint else .ok c
    if c.isWord "in" then
      let (iterable, c) ← c.advance.expression
      let c ← c.expectOp ":"
      let (body, c) ← suiteIn fuel c
      return (⟨.forStmt, c.spanFrom start, iterable :: body⟩, c)
    else .error (c.unexpected (.exactly "in"))

def whileStatementIn : Nat → Nat → Cursor → Except ParseError (Node × Cursor)
  | 0, _, c => .error ⟨c.peek.span.start, .exhausted⟩
  | fuel + 1, start, c => do
    let (condition, c) ← c.advance.expression
    let c ← c.expectOp ":"
    let (body, c) ← suiteIn fuel c
    return (⟨.whileStmt, c.spanFrom start, condition :: body⟩, c)

def matchStatementIn : Nat → Nat → Cursor → Except ParseError (Node × Cursor)
  | 0, _, c => .error ⟨c.peek.span.start, .exhausted⟩
  | fuel + 1, start, c => do
    let (subject, c) ← c.advance.expression
    let c ← c.expectOp ":"
    if c.kind = .newline then
      let c := c.advance
      if c.kind = .indent then
        let (branches, c) ← matchBranchesIn fuel c.advance
        return (⟨.matchStmt, c.spanFrom start, subject :: branches⟩, c)
      else return (⟨.matchStmt, c.spanFrom start, [subject]⟩, c)
    else .error (c.unexpected .matchBlock)

/-- The branches of a match, up to and with the `dedent` that closes them. A pattern is all that
stands before the colon. -/
def matchBranchesIn : Nat → Cursor → Except ParseError (List Node × Cursor)
  | 0, c => .error ⟨c.peek.span.start, .exhausted⟩
  | fuel + 1, c =>
    let c := c.skipNewlines
    match c.kind with
    | .dedent => .ok ([], c.advance)
    | .eof => .ok ([], c)
    | _ => do
      let start := c.peek.span.start
      let c ← c.skipToColon
      let pattern : Node := ⟨.pattern, c.spanFrom start, []⟩
      let (body, c) ← suiteIn fuel c.advance
      let branch : Node := ⟨.matchBranch, c.spanFrom start, pattern :: body⟩
      let (more, c) ← matchBranchesIn fuel c
      return (branch :: more, c)

end

/-- All statements up to the end. -/
def statements (c : Cursor) : Except ParseError (List Node × Cursor) :=
  blockIn (8 * c.rest.length + 8) false c

end Cursor

end Phrasebook
