import Phrasebook.Archive.Checksum
import Phrasebook.Archive.EndRecord

/-!
Entries of an archive's directory, and the extra fields that add to them.

Each extra field has a kind and a length. One that ends early ends the reading and what was read
before counts; one that contradicts itself makes the directory unreadable.
-/
namespace Phrasebook

namespace Archive

/-- What the directory says about a member. The name is kept in bytes too, because a checksum of
them can stand beside a better name. -/
structure Listed where
  flags : Nat
  method : Nat
  checksum : Nat
  size : Nat
  fullSize : Nat
  start : Nat
  rawName : Bytes
  name : Text
  comment : Text
  /-- Whether a password is needed. -/
  isLocked : Bool
deriving Repr

namespace Extra

/-- Why reading extra fields ends. -/
inductive Stop where
  /-- There are fewer bytes than a field should have. -/
  | cutShort
  /-- A field contradicts itself. -/
  | refused
deriving DecidableEq, Repr

/-- The entry as far as it is known, and the bytes to come. -/
structure State where
  entry : Listed
  rest : Bytes
deriving Repr

abbrev Reader := ExceptT Stop (StateM State)

/-- The next `n` bytes. -/
def take (n : Nat) : Reader Bytes := do
  let s ← get
  if s.rest.length < n then throw .cutShort
  set { s with rest := s.rest.drop n }
  return s.rest.take n

/-- The next `n` bytes as a number. -/
def number (n : Nat) : Reader Nat := numberOf <$> take n

def require (condition : Prop) [Decidable condition] : Reader Unit :=
  if condition then pure () else throw .refused

def update (f : Listed → Listed) : Reader Unit := modify fun s => { s with entry := f s.entry }

/-- A wide number in place of one that is too great for four bytes, and the bytes that it has. A
field with all three of them gives them in any case. -/
def wideNumber (length : Nat) (old : Listed → Nat) (put : Nat → Listed → Listed) : Reader Nat := do
  if 24 ≤ length ∨ old (← get).entry = maxLong then
    let n ← number 8
    update (put n)
    return 8
  else return 0

/-- Wide numbers for the sizes and the place of a member. -/
def wideNumbers (length : Nat) : Reader Unit := do
  let a ← wideNumber length (·.fullSize) fun n e => { e with fullSize := n }
  let b ← wideNumber length (·.size) fun n e => { e with size := n }
  let c ← wideNumber length (·.start) fun n e => { e with start := n }
  require (a + b + c ≤ length)
  let _ ← take (length - (a + b + c))

/-- Times in one attribute of 24 bytes. -/
def fineTimes (length : Nat) : Reader Unit := do
  require (length = 32)
  let _ ← take 4
  require ((← number 2) = 1)
  require ((← number 2) = 24)
  let _ ← take 24

/-- Up to three times. A field for one time may have the flags of all of them. -/
def times (length : Nat) : Reader Unit := do
  let flags ← number 1
  let isSet := fun n => flags >>> n % 2 = 1
  let count := (List.range 8).countP isSet
  require (length = 5 ∨ length = 1 + 4 * count)
  require (flags < 8)
  let _ ← take (if length = 5 then 4 else 4 * count)

/-- How a member is encrypted. -/
def encryption (length : Nat) : Reader Unit := do
  require (length = 7)
  let version ← number 2
  let vendor ← number 2
  let strength ← number 1
  let method ← number 2
  require (vendor = 0x4541)
  require (version = 1 ∨ version = 2)
  require (1 ≤ strength ∧ strength ≤ 3)
  update fun e => { e with isLocked := true, method }

/-- A text in UTF-8 with the checksum of what it takes the place of. -/
def betterText (length : Nat) (old : Bytes) : Reader (Bytes × Text) := do
  let _ ← take 1
  let checksum ← number 4
  require (5 ≤ length)
  let bytes ← take (length - 5)
  require (checksum = (Checksum.ofBytes old).toNat)
  match Text.ofBytes? bytes with
  | some t => return (bytes, t)
  | none => throw .refused

/-- One field. -/
def field : Reader Unit := do
  let kind ← number 2
  let length ← number 2
  match kind with
  | 0x0001 => wideNumbers length
  | 0x000A => fineTimes length
  | 0x5455 => times length
  | 0x9901 => encryption length
  | 0x6375 =>
    let (_, comment) ← betterText length (← get).entry.comment.bytes
    update fun e => { e with comment }
  | 0x7075 =>
    let (rawName, name) ← betterText length (← get).entry.rawName
    update fun e => { e with rawName, name }
  | _ =>
    let _ ← take length

/-- At most `n` fields. -/
def fields : Nat → Reader Unit
  | 0 => return
  | n + 1 => do
    if !(← get).rest.isEmpty then
      field
      fields n

/-- The entry with what extra fields add to it. -/
def amend? (e : Listed) (bytes : Bytes) : Option Listed :=
  match (fields bytes.length).run.run ⟨e, bytes⟩ with
  | (.error .refused, _) => none
  | (_, s) => some s.entry

end Extra

end Archive

end Phrasebook
