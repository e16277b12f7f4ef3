import Phrasebook.Text

/-! Blank characters, which are those with the Unicode property White_Space. -/
namespace Phrasebook

namespace Text

def isBlankChar (c : Char) : Bool :=
  let n := c.toNat
  (0x9 ≤ n && n ≤ 0xD) || n == 0x20 || n == 0x85 || n == 0xA0 || n == 0x1680 ||
    (0x2000 ≤ n && n ≤ 0x200A) || n == 0x2028 || n == 0x2029 || n == 0x202F || n == 0x205F ||
    n == 0x3000

/-- Whether there is nothing but blanks. -/
def isBlank (t : Text) : Bool := t.all isBlankChar

/-- The text without the blanks at its start. -/
def trimStart (t : Text) : Text := t.dropWhile isBlankChar

/-- Whether a text is shown to people: it is not blank and does not name a resource. -/
def isTranslatable (t : Text) : Bool :=
  !t.isBlank && !(of "res://").isPrefixOf t && !(of "user://").isPrefixOf t

/-- Line feeds in place of carriage return and line feed. -/
def unifyBreaks : Text → Text
  | [] => []
  | c :: r =>
    match c, r with
    | '\r', '\n' :: _ => unifyBreaks r
    | _, _ => c :: unifyBreaks r

/-- The text without a byte order mark at its start. -/
def dropMark : Text → Text
  | [] => []
  | c :: r => if c = '\ufeff' then r else c :: r

/-- The form in which scripts and scenes are read. -/
def normalize (t : Text) : Text := unifyBreaks (dropMark t)

end Text

end Phrasebook
