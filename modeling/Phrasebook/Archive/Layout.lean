import Phrasebook.FileTree

/-! The numbers of the zip format: how they stand in bytes, and those that mark its records. -/
namespace Phrasebook

namespace Archive

/-- A number in `n` bytes, lowest first. -/
def field : Nat → Nat → Bytes
  | 0, _ => []
  | n + 1, x => UInt8.ofNat x :: field n (x / 256)

/-- The number that bytes stand for, lowest first. -/
def numberOf (bytes : Bytes) : Nat := bytes.foldr (fun b x => b.toNat + 256 * x) 0

/-- The number in `n` bytes from `start` on. -/
def numberAt? (a : Array UInt8) (start n : Nat) : Option Nat :=
  if start + n ≤ a.size then some (numberOf (a.extract start (start + n)).toList) else none

/-- Begins a member. -/
def localSignature : Nat := 0x04034B50

/-- Begins an entry of the directory. -/
def centralSignature : Nat := 0x02014B50

/-- Begins the record at the end. -/
def endSignature : Nat := 0x06054B50

/-- Begins the record with wide numbers before it. -/
def wideSignature : Nat := 0x06064B50

/-- Begins the record that tells where that one is. -/
def locatorSignature : Nat := 0x07064B50

/-- The places from `start` on where a signature stands before `stop`. -/
def placesOf (a : Array UInt8) (signature start stop : Nat) : List Nat :=
  (List.range' start (stop - start)).filter fun n =>
    n + 4 ≤ stop && numberAt? a n 4 == some signature

end Archive

end Phrasebook
