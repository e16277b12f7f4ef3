import Phrasebook.Lexeme
import Phrasebook.Position

/-! Why a text is refused, and the wording of each reason. -/
namespace Phrasebook

namespace ParseError

/-- What the grammar wanted where it met something else. -/
inductive Want where
  | exactly (text : String)
  | word
  | expression
  | expressionPart
  | expressionEnd
  | statementEnd
  | declaration
  | matchingIf
  | matchBlock
  | elseOfTernary
  | noLambda
  | pairMark
  | nodePath
deriving DecidableEq, Repr

inductive Cause where
  | unclosedString
  | strayCharacter
  | unexpected (want : Want) (found : Lexeme)
  | statementCount (count : Nat)
  /-- The bound on the nesting of grammar rules ran out. -/
  | exhausted
deriving DecidableEq, Repr

def Want.message : Want → String
  | .exactly text => "期望 `" ++ text ++ "`"
  | .word => "期望标识符"
  | .expression => "期望表达式"
  | .expressionPart => "表达式中"
  | .expressionEnd => "表达式之后"
  | .statementEnd => "语句之后"
  | .declaration => "修饰符之后"
  | .matchingIf => "缺少对应的 if"
  | .matchBlock => "match 之后"
  | .elseOfTernary => "三元表达式缺少 else"
  | .noLambda => "不支持的 lambda 表达式"
  | .pairMark => "字典键之后"
  | .nodePath => "节点路径"

/-- How a lexeme is named in a message: by its text, or by what it marks. -/
def foundText (l : Lexeme) : String :=
  match l.kind with
  | .newline => "换行"
  | .indent => "缩进"
  | .dedent => "反缩进"
  | .eof => "文件结尾"
  | _ => "`" ++ String.ofList l.text ++ "`"

def Cause.message : Cause → String
  | .unclosedString => "未闭合的字符串"
  | .strayCharacter => "无法识别的字符"
  | .unexpected want found => want.message ++ ": 意外的 " ++ foundText found
  | .statementCount count => "期望单条语句，实际为 " ++ toString count ++ " 条"
  | .exhausted => "嵌套过深"

end ParseError

/-- A refusal at a byte offset. -/
structure ParseError where
  offset : Nat
  cause : ParseError.Cause
deriving DecidableEq, Repr

end Phrasebook
