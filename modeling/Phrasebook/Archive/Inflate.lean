import Phrasebook.Archive.Huffman
import Phrasebook.FileTree

/-! Unpacking deflated bytes. -/
namespace Phrasebook

namespace Inflate

open Huffman

/-- Bits of bytes, lowest first. -/
def bitsOf (bytes : Bytes) : Bits := bytes.flatMap fun b => lowBits 8 b.toNat

/-- The next `n` bits as a number, lowest first. -/
def take : Nat → Bits → Option (Nat × Bits)
  | 0, bits => some (0, bits)
  | _ + 1, [] => none
  | n + 1, b :: bits => (take n bits).map fun (x, rest) => ((if b then 1 else 0) + 2 * x, rest)

/-- A code for reading: for each length from one on, the number of its words, and the symbols in the
order of their words. -/
structure Table where
  counts : List Nat
  symbols : List Nat

def tableOf (lengths : List Nat) : Table :=
  let used := lengths.zipIdx.filter fun (n, _) => 0 < n
  ⟨(List.range 15).map fun n => countOf lengths (n + 1),
    (used.mergeSort fun a b => a.1 ≤ b.1).map (·.2)⟩

/-- Whether every row of 15 bits begins with exactly one word of the code. -/
def isComplete (lengths : List Nat) : Bool :=
  lengths.foldl (fun rows n => if n = 0 then rows else rows + (32768 >>> n)) 0 == 32768

/-- The code with the given lengths, which must be complete or have one word at most. -/
def sparseTable? (lengths : List Nat) : Option Table :=
  if isComplete lengths || lengths.countP (0 < ·) ≤ 1 then some (tableOf lengths) else none

/-- Reads a word bit by bit: `code` is what was read, `first` the first word of this length, and
`index` the number of shorter words. -/
def symbol (symbols : List Nat) (code first index : Nat) : List Nat → Bits → Option (Nat × Bits)
  | count :: counts, b :: bits =>
    let code := 2 * code + (if b then 1 else 0)
    let first := 2 * first
    if code < first + count then symbols[index + (code - first)]?.map (·, bits)
    else symbol symbols code (first + count) (index + count) counts bits
  | _, _ => none

def Table.read (t : Table) (bits : Bits) : Option (Nat × Bits) :=
  symbol t.symbols 0 0 0 t.counts bits

/-- The value of a symbol with its extra bits. -/
def extended (symbols : List (Nat × Nat)) (s : Nat) (bits : Bits) : Option (Nat × Bits) := do
  let (extra, base) ← symbols[s]?
  let (x, bits) ← take extra bits
  return (base + x, bits)

/-- The output with `n` bytes copied from `distance` bytes before its end. Before its start there
are zeros. -/
def copy (distance : Nat) : Nat → Array UInt8 → Array UInt8
  | 0, out => out
  | n + 1, out =>
    let byte := if distance ≤ out.size then out.getD (out.size - distance) 0 else 0
    copy distance n (out.push byte)

/-- The rest of a block with the given codes. -/
def block (literals distances : Table) : Nat → Array UInt8 → Bits → Option (Array UInt8 × Bits)
  | 0, _, _ => none
  | fuel + 1, out, bits => do
    let (s, bits) ← literals.read bits
    if s < 256 then block literals distances fuel (out.push (UInt8.ofNat s)) bits
    else if s = 256 then return (out, bits)
    else
      let (length, bits) ← extended lengthSymbols (s - 257) bits
      let (d, bits) ← distances.read bits
      let (distance, bits) ← extended distanceSymbols d bits
      block literals distances fuel (copy distance length out) bits

/-- The lengths of code words, which are packed by a code themselves. -/
def lengths (t : Table) (total : Nat) : Nat → List Nat → Bits → Option (List Nat × Bits)
  | 0, _, _ => none
  | fuel + 1, done, bits =>
    if total ≤ done.length then if done.length = total then some (done, bits) else none
    else do
      let (s, bits) ← t.read bits
      if s < 16 then lengths t total fuel (done ++ [s]) bits
      else if s = 16 then
        let last ← done.getLast?
        let (n, bits) ← take 2 bits
        lengths t total fuel (done ++ List.replicate (n + 3) last) bits
      else if s = 17 then
        let (n, bits) ← take 3 bits
        lengths t total fuel (done ++ List.replicate (n + 3) 0) bits
      else
        let (n, bits) ← take 7 bits
        lengths t total fuel (done ++ List.replicate (n + 11) 0) bits

/-- `n` numbers of three bits each. -/
def triples : Nat → Bits → Option (List Nat × Bits)
  | 0, bits => some ([], bits)
  | n + 1, bits => do
    let (x, bits) ← take 3 bits
    let (xs, bits) ← triples n bits
    return (x :: xs, bits)

/-- The most symbols of a code for literals and lengths. -/
def maxLiterals : Nat := 286

/-- The most symbols of a code for distances. -/
def maxDistances : Nat := 30

/-- The codes that stand at the start of a block. -/
def codes (bits : Bits) : Option (Table × Table × Bits) := do
  let (n, bits) ← take 5 bits
  let (m, bits) ← take 5 bits
  let (count, bits) ← take 4 bits
  let (literals, distances) := (n + 257, m + 1)
  let (sizes, bits) ← triples (count + 4) bits
  let given := lengthOrder.zip sizes
  let order := (List.range 19).map fun s => (given.lookup s).getD 0
  if maxLiterals < literals ∨ maxDistances < distances ∨ !isComplete order then none
  else
    let total := literals + distances
    let (all, bits) ← lengths (tableOf order) total (total + 1) [] bits
    return (← sparseTable? (all.take literals), ← sparseTable? (all.drop literals), bits)

/-- Bytes as they stand. -/
def plain : Nat → Array UInt8 → Bits → Option (Array UInt8 × Bits)
  | 0, out, bits => some (out, bits)
  | n + 1, out, bits => do
    let (b, bits) ← take 8 bits
    plain n (out.push (UInt8.ofNat b)) bits

/-- A block without compression, which begins at a whole byte. -/
def stored (out : Array UInt8) (bits : Bits) : Option (Array UInt8 × Bits) := do
  let bits := bits.drop (bits.length % 8)
  let (n, bits) ← take 16 bits
  let (check, bits) ← take 16 bits
  if n + check = 0xFFFF then plain n out bits else none

/-- The blocks up to the one marked as the last. -/
def blocks : Nat → Array UInt8 → Bits → Option (Array UInt8)
  | 0, _, _ => none
  | fuel + 1, out, bits => do
    let (last, bits) ← take 1 bits
    let (kind, bits) ← take 2 bits
    let (out, bits) ← match kind with
      | 0 => stored out bits
      | 1 => block (tableOf fixedLiterals) (tableOf fixedDistances) bits.length out bits
      | 2 => do
        let (literals, distances, bits) ← codes bits
        block literals distances bits.length out bits
      | _ => none
    if last = 1 then return out else blocks fuel out bits

/-- The bytes that were deflated. -/
def bytes? (deflated : Bytes) : Option Bytes :=
  (blocks (8 * deflated.length) #[] (bitsOf deflated)).map (·.toList)

end Inflate

end Phrasebook
