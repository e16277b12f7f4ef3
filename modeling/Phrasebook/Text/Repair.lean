import Phrasebook.Text

/-!
Texts from bytes that need not be well formed. Where the bytes do not begin a character, as many of
them as could begin one are replaced together.
-/
namespace Phrasebook

namespace Text

/-- The character that stands for bytes that are none. -/
def replacement : Char := '\ufffd'

/-- The number of bytes of a character that begins with the given byte, or zero. -/
def widthOf (b : UInt8) : Nat :=
  if b < 0x80 then 1
  else if b < 0xC2 then 0
  else if b < 0xE0 then 2
  else if b < 0xF0 then 3
  else if b < 0xF5 then 4
  else 0

/-- The least and the greatest byte that can follow the first byte of a character. -/
def secondRange (b : UInt8) : UInt8 × UInt8 :=
  if b = 0xE0 then (0xA0, 0xBF)
  else if b = 0xED then (0x80, 0x9F)
  else if b = 0xF0 then (0x90, 0xBF)
  else if b = 0xF4 then (0x80, 0x8F)
  else (0x80, 0xBF)

/-- The leading bytes, `n` at most, that can go on with a character; the first must be in a range
of its own. -/
def following : Nat → UInt8 × UInt8 → List UInt8 → List UInt8
  | n + 1, (lo, hi), b :: r =>
    if lo ≤ b ∧ b ≤ hi then b :: following n (0x80, 0xBF) r else []
  | _, _, _ => []

/-- The text of bytes, with a replacement for what is not well formed. -/
def repair : List UInt8 → Text
  | [] => []
  | b :: r =>
    let more := following (widthOf b - 1) (secondRange b) r
    let here := if more.length + 1 = widthOf b then ofBytes? (b :: more) else none
    here.getD [replacement] ++ repair (r.drop more.length)
termination_by bytes => bytes.length
decreasing_by simp only [List.length_drop, List.length_cons]; omega

end Text

end Phrasebook
