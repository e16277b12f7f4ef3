import Phrasebook.Lexeme

/-!
The syntax tree of a script.

A node has a kind, a span and its children in source order:

* a branch has its condition first, unless it is an `else`, then its statements;
* a declared variable has its initial value, if any; a return its value, if any;
* an assignment has target and value; an expression statement its expression;
* `for`, `while` and `match` have their head first, then their bodies; a match branch has its
  pattern, then its statements;
* a call has the callee, then the arguments; a member access its object, if any;
* a subscript has object and index; a pair key and value; a ternary the value, the condition and
  the other value.
-/
namespace Phrasebook

namespace Node

inductive Branch where
  | ifBranch
  | elifBranch
  | elseBranch
deriving DecidableEq, Repr

inductive Kind where
  | script
  | extendsDecl
  | classNameDecl
  | signalDecl
  | enumDecl
  | constDecl
  | varDecl (name : Text)
  | funcDecl (name : Text)
  | classDecl (name : Text)
  | ifStmt
  | branch (which : Branch)
  | forStmt
  | whileStmt
  | matchStmt
  | matchBranch
  | pattern
  | returnStmt
  | keywordStmt
  | assign (op : Text)
  | exprStmt
  | string (quoting : Quoting)
  | number
  | literal
  | identifier
  | nodePath
  | array
  | dictionary
  | pair
  | call
  | member (name : Text)
  | index
  | unary (op : Text)
  | binary (op : Text)
  | ternary
  | paren
  | await
deriving DecidableEq, Repr, Inhabited

namespace Kind

def isExpression : Kind → Bool
  | string _ | number | literal | identifier | nodePath | array | dictionary | pair | call
  | member _ | index | unary _ | binary _ | ternary | paren | await => true
  | _ => false

def isStatement (k : Kind) : Bool := !k.isExpression && k != script && k != pattern

def isString : Kind → Bool
  | string _ => true
  | _ => false

/-- The short name of a kind, which entries carry as their type. -/
def label : Kind → String
  | script => "script"
  | extendsDecl => "extends"
  | classNameDecl => "class_name"
  | signalDecl => "signal"
  | enumDecl => "enum"
  | constDecl => "const"
  | varDecl _ => "var"
  | funcDecl _ => "func"
  | classDecl _ => "class"
  | ifStmt => "if"
  | branch _ => "branch"
  | forStmt => "for"
  | whileStmt => "while"
  | matchStmt => "match"
  | matchBranch => "match_branch"
  | pattern => "pattern"
  | returnStmt => "return"
  | keywordStmt => "keyword"
  | assign _ => "assign"
  | exprStmt => "expression"
  | string _ => "string"
  | number => "number"
  | literal => "literal"
  | identifier => "identifier"
  | nodePath => "node_path"
  | array => "array"
  | dictionary => "dictionary"
  | pair => "pair"
  | call => "call"
  | member _ => "attribute"
  | index => "index"
  | unary _ => "unary"
  | binary _ => "binary"
  | ternary => "ternary"
  | paren => "paren"
  | await => "await"

end Kind

end Node

structure Node where
  kind : Node.Kind
  span : Span
  children : List Node
deriving Repr, Inhabited

namespace Node

/-- A node with its ancestors, innermost first; each comes with the place, among its children, of
the one that leads to the node. -/
structure Located where
  node : Node
  above : List (Node × Nat)
deriving Repr, Inhabited

mutual

/-- The number of nodes. -/
def count : Node → Nat
  | ⟨_, _, children⟩ => countAll children + 1

def countAll : List Node → Nat
  | [] => 0
  | n :: ns => n.count + countAll ns

end

mutual

/-- The nodes, each before its children. -/
def preorder : Node → List Node
  | ⟨kind, span, children⟩ => ⟨kind, span, children⟩ :: preorderAll children

def preorderAll : List Node → List Node
  | [] => []
  | n :: ns => n.preorder ++ preorderAll ns

end

mutual

/-- The nodes with their ancestors, each before its children. -/
def locate (above : List (Node × Nat)) : Node → List Located
  | ⟨kind, span, children⟩ =>
    ⟨⟨kind, span, children⟩, above⟩ :: locateAll ⟨kind, span, children⟩ above 0 children

/-- The same for the children of `parent` from the one in place `i` on. -/
def locateAll (parent : Node) (above : List (Node × Nat)) (i : Nat) : List Node → List Located
  | [] => []
  | n :: ns => n.locate ((parent, i) :: above) ++ locateAll parent above (i + 1) ns

end

/-- A line of a tree's outline: how deep the node is, and its rank in the order that puts
children before their parent. -/
structure Line where
  depth : Nat
  rank : Nat
  node : Node
deriving Repr, Inhabited

mutual

/-- The outline of a tree, each node before its children; `first` is the least rank. -/
def outline (depth first : Nat) : Node → List Line
  | ⟨kind, span, children⟩ =>
    ⟨depth, first + countAll children, ⟨kind, span, children⟩⟩ ::
      outlineAll (depth + 1) first children

def outlineAll (depth first : Nat) : List Node → List Line
  | [] => []
  | n :: ns => n.outline depth first ++ outlineAll depth (first + n.count) ns

end

/-- The string literals of the tree, in source order. -/
def strings (n : Node) : List Node := n.preorder.filter (·.kind.isString)

def hasString (n : Node) : Bool := n.preorder.any (·.kind.isString)

/-- The span between the quotes of a string literal. -/
def contentSpan? (n : Node) : Option Span :=
  match n.kind with
  | .string q =>
    let close := Text.size q.delimiter
    some ⟨n.span.start + (Text.size q.sigil + close), n.span.stop - close⟩
  | _ => none

/-- The condition of a branch. -/
def condition? (n : Node) : Option Node :=
  match n.kind with
  | .branch .ifBranch | .branch .elifBranch => n.children.head?
  | _ => none

/-- The expression a statement is about. -/
def value? (n : Node) : Option Node :=
  match n.kind with
  | .exprStmt | .returnStmt | .varDecl _ => n.children.head?
  | .assign _ => n.children[1]?
  | _ => none

/-- The text of a node. -/
def text (source : Text) (n : Node) : Text := source.slice n.span.start n.span.stop

/-- The text between the quotes of a string literal, escapes kept. -/
def content? (source : Text) (n : Node) : Option Text :=
  n.contentSpan?.map fun s => source.slice s.start s.stop

/-- The last part of the name a call goes to; also defined for other nodes that begin with a
name. -/
def calleeName? (source : Text) (n : Node) : Option Text :=
  match n.children.head? with
  | some callee =>
    match callee.kind with
    | .identifier => some (callee.text source)
    | .member name => some name
    | _ => none
  | none => none

/-- The arguments of a call. -/
def arguments (n : Node) : List Node :=
  if n.kind = .call then n.children.tail else []

end Node

end Phrasebook
