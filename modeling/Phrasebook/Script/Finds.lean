import Phrasebook.CallRules
import Phrasebook.Script.Site
import Phrasebook.Tree

/-!
The texts of a script.

Texts are looked for in the conditions of `if` and `elif`, in expression statements and returns, in
the initial values of variables, and in assignments whose target is not a member. A statement whose
text cannot be cut into literals is taken as a whole; other statements are passed over.
-/
namespace Phrasebook

namespace Finds

/-- Whether a node is a name by its place: the key of a pair or the index of a subscript. -/
def isName (n : Node.Located) : Bool :=
  match n.above with
  | (parent, i) :: _ => (parent.kind == .pair && i == 0) || (parent.kind == .index && i == 1)
  | [] => false

variable (rules : CallRules) (source : Text)

/-- The name a call goes to, empty if it has none. -/
def calleeOf (call : Node) : Text := (call.calleeName? source).getD []

/-- Whether a node lies in an argument that the rules skip, at any depth. -/
def isSkipped (n : Node.Located) : Bool :=
  n.above.any fun (parent, i) =>
    parent.kind == .call && 0 < i &&
      rules.skips (calleeOf source parent) (i - 1) parent.arguments.length

/-- Whether a node is a string literal with text for people. -/
def isText (n : Node.Located) : Bool :=
  match n.node.kind with
  | .string q =>
    q.sigil != ['&'] && q.sigil != ['^'] && (n.node.content? source).any Text.isTranslatable &&
      !isName n && !isSkipped rules source n
  | _ => false

/-- The string literals of a subtree. -/
def stringsOf (n : Node.Located) : List Node.Located :=
  (n.node.locate n.above).filter (·.node.kind.isString)

/-- The find of a node as a unit of its own. -/
def find (form : Site.Form) (phrase : Text) (context : Option Text) (n : Node) (at_ : Span) :
    Find :=
  { entry :=
      { Entry.new phrase context with
        type := some (Text.of n.kind.label)
        positions := [source.position at_] }
    site := ⟨n.span, form⟩ }

/-- A literal, if it is text. -/
def literal (context : Text) (n : Node.Located) : List Find :=
  if isText rules source n then
    match n.node.kind, n.node.contentSpan? with
    | .string q, some inner =>
      [find source (.literal q) (source.slice inner.start inner.stop) (some context) n.node inner]
    | _, _ => []
  else []

/-- The literals of a subtree that are text. -/
def literals (context : Text) (n : Node.Located) : List Find :=
  (stringsOf n).flatMap (literal rules source context)

/-- A whole node, if some literal in it is text. -/
def whole (form : Site.Form) (context : Option Text) (n : Node.Located) : List Find :=
  if (stringsOf n).any (isText rules source) then
    [find source form (n.node.text source) context n.node n.node.span]
  else []

mutual

/-- The texts of a call: those of the callee, and those of the arguments the rules do not skip. -/
def call (context : Text) (above : List (Node × Nat)) : Node → List Find
  | ⟨_, _, []⟩ => []
  | ⟨kind, span, callee :: args⟩ =>
    let n : Node := ⟨kind, span, callee :: args⟩
    if rules.denies (calleeOf source n) then []
    else literals rules source context ⟨callee, (n, 0) :: above⟩ ++ arguments context n above 0 args

/-- The texts of the arguments of `n` from the one in place `i` on. -/
def arguments (context : Text) (n : Node) (above : List (Node × Nat)) (i : Nat) :
    List Node → List Find
  | [] => []
  | arg :: more =>
    let here : Node.Located := ⟨arg, (n, i + 1) :: above⟩
    let finds :=
      if rules.skips (calleeOf source n) i n.arguments.length || !arg.hasString then []
      else match arg.kind with
        | .string _ => literal rules source context here
        | .binary _ => whole rules source .expression (some context) here
        | .call => call context here.above arg
        | _ => literals rules source context here
    finds ++ arguments context n above (i + 1) more

end

/-- The texts of an expression statement, a return or a variable. -/
def statement (n : Node.Located) : List Find :=
  match n.node.value? with
  | none => []
  | some value =>
    let inner : Node.Located := ⟨value, (n.node, 0) :: n.above⟩
    let context := n.node.text source
    match n.node.kind, value.kind with
    | .returnStmt, .dictionary | .returnStmt, .array => literals rules source context inner
    | .returnStmt, _ => whole rules source .statement none n
    | _, .call => call rules source context inner.above value
    | _, .binary _ => whole rules source .statement none n
    | .exprStmt, _ => whole rules source .statement none n
    | _, _ => literals rules source context inner

/-- The texts of a condition; their context is the branch up to the end of the condition. -/
def guard (branch : Node.Located) (condition : Node) : List Find :=
  let inner : Node.Located := ⟨condition, (branch.node, 0) :: branch.above⟩
  let header := source.slice branch.node.span.start condition.span.stop
  match condition.kind with
  | .binary _ => whole rules source .expression (some header) inner
  | .call => call rules source header inner.above condition
  | _ => literals rules source header inner

/-- The texts of the conditions among `branches`, the children of `n` from place `i` on. -/
def guards (n : Node.Located) (i : Nat) : List Node → List Find
  | [] => []
  | branch :: more =>
    let finds := match branch.condition? with
      | some condition =>
        if condition.hasString then guard rules source ⟨branch, (n.node, i) :: n.above⟩ condition
        else []
      | none => []
    finds ++ guards n (i + 1) more

/-- The texts that a node stands for itself, not those of the statements inside it. -/
def ofNode (n : Node.Located) : List Find :=
  match n.node.kind with
  | .ifStmt => guards rules source n 0 n.node.children
  | .exprStmt | .returnStmt | .varDecl _ =>
    if n.node.hasString then statement rules source n else []
  | .assign _ =>
    let toMember := n.node.children.head?.any fun target =>
      match target.kind with
      | .member _ => true
      | _ => false
    if !toMember && n.node.hasString then whole rules source .statement none n else []
  | _ => []

end Finds

/-- The texts of a tree, in source order of the statements they stand in. -/
def Tree.finds (rules : CallRules) (t : Tree) : List Find :=
  (t.root.locate []).flatMap (Finds.ofNode rules t.source)

end Phrasebook
