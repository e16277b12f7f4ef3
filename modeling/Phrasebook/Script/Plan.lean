import Phrasebook.Script

/-! Checking one rendition before it is written. -/
namespace Phrasebook

namespace Script

/-- Why a text keeps its place. -/
inductive Refusal where
  | outOfRange
  /-- The code no longer is what the entry was made of. -/
  | changed
  | notParsed (form : Site.Form) (fault : Fault)
  | notLiteral
  | otherStatement (expected actual : Node.Kind)
  /-- With the rendition in place the script would not be one. -/
  | breaksScript (fault : Fault)
  | notFound
deriving DecidableEq, Repr

def Refusal.message : Refusal → String
  | .outOfRange => "位置超出源码范围"
  | .changed => "源码与原文不一致"
  | .notParsed (.literal _) fault => "译文无法解析: " ++ fault.message
  | .notParsed .expression fault => "译文无法解析为表达式: " ++ fault.message
  | .notParsed .statement fault => "译文无法解析为语句: " ++ fault.message
  | .notLiteral => "译文不是单个字符串字面量"
  | .otherStatement expected actual =>
    "译文语句类型与原文不一致: " ++ expected.label ++ " -> " ++ actual.label
  | .breaksScript fault => "替换后源码无法解析: " ++ fault.message
  | .notFound => "源码中找不到原文"

/-- The content of a literal's text, empty if it is too short to have one. -/
def contentOf (q : Quoting) (literal : Text) : Text :=
  let close := q.delimiter.size
  (literal.slice? (q.sigil.size + close) (literal.size - close)).getD []

/-- A rendition as it is written in place of a literal: with the same quotes, and then it must
still be a literal. -/
def planLiteral (q : Quoting) (rendition : Text) : Except Refusal Text :=
  let text := q.wrap rendition
  match Tree.ofExpression text with
  | .error e => .error (.notParsed (.literal q) (.ofParseError text e))
  | .ok parsed =>
    if parsed.root.children.head?.any (·.kind.isString) then .ok text else .error .notLiteral

/-- A rendition as it is written in place of an expression, which it must be too. -/
def planExpression (rendition : Text) : Except Refusal Text :=
  match Tree.ofExpression rendition with
  | .error e => .error (.notParsed .expression (.ofParseError rendition e))
  | .ok _ => .ok rendition

/-- The kind of the outermost statement that has exactly this span. -/
def statementAt? (t : Tree) (span : Span) : Option Node.Kind :=
  (t.root.preorder.find? fun n => n.span = span ∧ n.kind.isStatement).map (·.kind)

/-- A rendition as it is written in place of a statement: it must be one statement of the same
kind. -/
def planStatement (t : Tree) (span : Span) (rendition : Text) : Except Refusal Text :=
  match Tree.ofStatement rendition with
  | .error e => .error (.notParsed .statement (.ofParseError rendition e))
  | .ok parsed =>
    match statementAt? t span, parsed.root.children.head? with
    | some expected, some actual =>
      if expected.label = actual.kind.label then .ok rendition
      else .error (.otherStatement expected actual.kind)
    | _, _ => .ok rendition

/-- The edit that writes a rendition at a site, or `none` if nothing would change. -/
def planEdit (t : Tree) (site : Site) (phrase rendition : Text) :
    Except Refusal (Option Edit) := do
  match t.source.slice? site.span.start site.span.stop with
  | none => .error .outOfRange
  | some current =>
    let found := match site.form with
      | .literal q => contentOf q current
      | _ => current
    if found ≠ phrase then .error .changed
    else
      let text ← match site.form with
        | .literal q => planLiteral q rendition
        | .expression => planExpression rendition
        | .statement => planStatement t site.span rendition
      return if text = current then none else some ⟨site.span, text⟩

end Script

end Phrasebook
