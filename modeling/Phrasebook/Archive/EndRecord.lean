import Phrasebook.Archive.Layout

/-!
The record at the end of an archive, which says where the directory is.

Something may stand before the archive, so that its own offsets are too low by its length. The
record with wide numbers, if there is one, counts instead.
-/
namespace Phrasebook

namespace Archive

/-- By how much all offsets are too low, the place of the directory, and the number of its entries.
A record that is not whole describes no archive that can be read. -/
structure EndRecord where
  shift : Nat
  directory : Nat
  count : Nat
  isWhole : Bool
deriving Repr

/-- The record that tells where the one with wide numbers is. -/
structure Locator where
  place : Nat
  disk : Nat
  offset : Nat
  disks : Nat
deriving Repr

/-- The greatest number in two bytes. -/
def maxShort : Nat := 0xFFFF

/-- The greatest number in four bytes. -/
def maxLong : Nat := 0xFFFFFFFF

/-- The locator before a record at the end. -/
def Locator.before? (a : Array UInt8) (place : Nat) : Option Locator := do
  if place < 20 then none
  else
    let place := place - 20
    if (← numberAt? a place 4) ≠ locatorSignature then none
    else
      return ⟨place, ← numberAt? a (place + 4) 4, ← numberAt? a (place + 8) 8,
        ← numberAt? a (place + 16) 4⟩

/-- The least size of an entry of the directory. -/
def entrySize : Nat := 46

namespace EndRecord

/-- The record with wide numbers at a place. -/
def wideAt? (a : Array UInt8) (l : Locator) (place : Nat) : Option EndRecord := do
  let size ← numberAt? a (place + 4) 8
  let madeBy ← numberAt? a (place + 12) 2
  let needed ← numberAt? a (place + 14) 2
  let disk ← numberAt? a (place + 16) 4
  let directoryDisk ← numberAt? a (place + 20) 4
  let onDisk ← numberAt? a (place + 24) 8
  let count ← numberAt? a (place + 32) 8
  let offset ← numberAt? a (place + 48) 8
  if size < 44 ∨ place + size + 12 ≠ l.place ∨ directoryDisk ≠ l.disk ∨
      place < count * entrySize + offset then none
  else
    let shift := place - l.offset
    return ⟨shift, offset + shift, count,
      onDisk ≤ count && needed ≤ madeBy && disk == directoryDisk⟩

/-- The record that a locator leads to. It may stand later than the locator says. -/
def wide? (a : Array UInt8) (l : Locator) : Option EndRecord :=
  if l.place ≤ l.offset ∨ 1 < l.disks then none
  else (placesOf a wideSignature l.offset l.place).findSome? (wideAt? a l)

/-- The record at a place, whose comment must be there as a whole. The directory is where the first
signature of an entry follows. -/
def at? (a : Array UInt8) (place : Nat) : Option EndRecord := do
  if (← numberAt? a place 4) ≠ endSignature then none
  else
    let disk ← numberAt? a (place + 4) 2
    let directoryDisk ← numberAt? a (place + 6) 2
    let onDisk ← numberAt? a (place + 8) 2
    let count ← numberAt? a (place + 10) 2
    let offset ← numberAt? a (place + 16) 4
    let comment ← numberAt? a (place + 20) 2
    let locator := if count = maxShort ∨ offset = maxLong then Locator.before? a place else none
    if a.size < place + 22 + comment then none
    else match locator with
      | some l => wide? a l
      | none =>
        let shift ← if count = 0 then some (place - offset)
          else (placesOf a centralSignature offset place).head?.map (· - offset)
        return ⟨shift, offset + shift, onDisk, disk == directoryDisk⟩

end EndRecord

end Archive

end Phrasebook
