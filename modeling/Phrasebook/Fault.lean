import Phrasebook.ParseError
import Phrasebook.Edit

/-! What can go wrong, and how it is told. -/
namespace Phrasebook

/-- How settings can contradict themselves. -/
inductive SettingsError where
  | noIndexFile
  | inBothLists (script : Text)
deriving DecidableEq, Repr

inductive Fault where
  /-- A text is not a script. -/
  | parse (place : Place) (cause : ParseError.Cause)
  /-- Edits cannot be made together. -/
  | edit (conflict : Edit.Conflict)
  /-- Settings contradict themselves. -/
  | settings (cause : SettingsError)
  /-- An archive cannot be read. -/
  | archive
  /-- A file cannot be read or written. -/
  | file
  /-- A text is not the data it should be. -/
  | data
  /-- There is no next number. -/
  | overflow
deriving DecidableEq, Repr

def SettingsError.message : SettingsError → String
  | .noIndexFile => "index_file 不能为空"
  | .inBothLists script =>
    "脚本 " ++ String.ofList script ++ " 同时出现在 fallback_scripts 与 skipped_scripts 中"

def Edit.Conflict.message : Edit.Conflict → String
  | .overlap a b => s!"替换区间重叠: {a.start}..{a.stop} 与 {b.start}..{b.stop}"
  | .outOfRange => "替换区间越界"

namespace Fault

def message : Fault → String
  | .parse place cause =>
    s!"Parse error at {place.line}:{place.column}: " ++ cause.message
  | .edit conflict => "Translation error: " ++ conflict.message
  | .settings cause => "Config error: " ++ cause.message
  | .archive => "Zip error"
  | .file => "IO error"
  | .data => "JSON error"
  | .overflow => "attempt to add with overflow"

/-- Whether the program ends at once, whatever it is at work on. -/
def isFatal : Fault → Bool
  | .overflow => true
  | .parse _ _ | .edit _ | .settings _ | .archive | .file | .data => false

/-- A refusal, placed in the text it is about. -/
def ofParseError (source : Text) (e : ParseError) : Fault := .parse (source.place e.offset) e.cause

end Fault

end Phrasebook
