import Phrasebook.Entry
import Phrasebook.Fault
import Phrasebook.Json.Read
import Phrasebook.Json.Write

/-!
The numbers given to fingerprints.

A fingerprint keeps its number for ever, and the counter only grows. Where a fingerprint was seen is
remembered for the length of a run and not saved.
-/
namespace Phrasebook

structure Index where
  counter : UInt64
  /-- The number of each fingerprint, in the order in which they were given. -/
  numbers : Table UInt64
  /-- Where each fingerprint was seen. -/
  seen : Table (List Position)
deriving DecidableEq, Repr, Inhabited

namespace Index

def empty : Index := ⟨0, [], []⟩

/-- The number of a fingerprint, if it has one. -/
def lookup (x : Index) (fingerprint : Text) : Option UInt64 := x.numbers.get? fingerprint

/-- The next number. -/
def succ (n : UInt64) : Except Fault UInt64 :=
  if n.toNat + 1 < UInt64.size then .ok (n + 1) else .error .overflow

/-- The number of a fingerprint, the next free one if it is new. Nothing is given out where the counter
cannot move on. -/
def assign (x : Index) (fingerprint : Text) : Except Fault (UInt64 × Index) :=
  match x.lookup fingerprint with
  | some n => .ok (n, x)
  | none => do
    let counter ← succ x.counter
    return (x.counter, { x with counter, numbers := x.numbers ++ [(fingerprint, x.counter)] })

/-- Where a fingerprint was seen. -/
def positions (x : Index) (fingerprint : Text) : List Position :=
  (x.seen.get? fingerprint).getD []

/-- Remembers where an entry was seen. -/
def note (x : Index) (fingerprint : Text) (positions : List Position) : Index :=
  { x with seen := x.seen.put fingerprint (x.positions fingerprint ++ positions) }

/-- The number of an entry, whose positions are remembered. -/
def assignEntry (x : Index) (e : Entry) : Except Fault (UInt64 × Index) :=
  let fingerprint := e.fingerprint
  (x.note fingerprint e.positions).assign fingerprint

/-- Forgets where fingerprints were seen. -/
def clearPositions (x : Index) : Index := { x with seen := [] }

def size (x : Index) : Nat := x.numbers.length

def toJson (x : Index) : Json :=
  .record [("counter", .nat x.counter.toNat),
    ("indexes", .object (x.numbers.sorted.map fun (key, n) => (some key, .nat n.toNat)))]

/-- The index that is written, as it is. -/
def stored? (j : Json) : Option Index := do
  match ← j.members? ["counter", "indexes"] with
  | [counter, numbers] =>
    let counter ← Json.orElse 0 Json.word? counter
    let numbers ← Json.orElse [] (Json.map? Json.word?) numbers
    return ⟨counter, numbers, []⟩
  | _ => none

/-- The counter is put above every number given, in case the text was damaged. -/
def repair (x : Index) : Except Fault Index := do
  let next ← match (x.numbers.map (·.2)).max? with
    | some n => succ n
    | none => pure 0
  return { x with counter := max x.counter next }

def ofJson (j : Json) : Except Fault Index :=
  match stored? j with
  | some x => x.repair
  | none => .error .data

/-- The text of an index. -/
def render (x : Index) : Text := x.toJson.compact

/-- The index that a text holds. It is repaired before what follows it is looked at. -/
def parse (t : Text) : Except Fault Index :=
  match Json.leading? t with
  | some (value, rest) => do
    let x ← ofJson value
    if (Json.skipGap rest).isEmpty then .ok x else .error .data
  | none => .error .data

end Index

end Phrasebook
