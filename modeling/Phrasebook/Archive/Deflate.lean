import Phrasebook.Archive.Huffman
import Phrasebook.FileTree

/-!
Deflating bytes.

Repetitions are looked for along chains of places whose next three bytes have the same hash, and a
repetition is only taken if the next place has no longer one. Short blocks get the fixed codes,
longer ones codes of their own, and a block that would not become shorter is stored as it is.
-/
namespace Phrasebook

namespace Deflate

open Huffman

/-- What a place of the input becomes. -/
inductive Step where
  | literal (b : UInt8)
  | copy (length distance : Nat)
deriving DecidableEq, Repr

/-! ### Repetitions -/

def maxLength : Nat := 258

/-- How far back a repetition may lie, together with what is looked at ahead. -/
def window : Nat := 32768

/-- The hash of three bytes. -/
def hash (a b c : UInt8) : Nat :=
  (((a.toNat <<< 10) ^^^ (b.toNat <<< 5)) ^^^ c.toNat) % 32768

/-- For each place the last one before it with the same hash, modulo 2^16; zero means none. -/
def chains (input : Array UInt8) : Array Nat :=
  ((List.range (input.size - 2)).foldl (fun ((heads, links) : Array Nat × Array Nat) p =>
    let h := hash (input.getD p 0) (input.getD (p + 1) 0) (input.getD (p + 2) 0)
    (heads.setIfInBounds h (p % 65536), links.push (heads.getD h 0)))
    (Array.replicate 32768 0, #[])).2

/-- How many bytes agree at two places, `limit` at most. -/
def agreement (input : Array UInt8) (p q : Nat) : Nat → Nat
  | 0 => 0
  | limit + 1 =>
    if input.getD p 0 = input.getD q 0 then agreement input (p + 1) (q + 1) limit + 1 else 0

/-- A repetition, with distance zero for none. -/
structure Match where
  distance : Nat
  length : Nat
deriving DecidableEq, Repr

/-- Follows the chain at `place` for a repetition longer than `best` and of `limit` bytes at most.
The chain is followed in groups of three links, of which `groups` are left, `links` in this one. -/
def search (input : Array UInt8) (chain : Array Nat) (place reach limit : Nat) :
    Nat → Nat → Nat → Nat → Match → Match
  | 0, _, _, _, best => best
  | fuel + 1, groups, 0, probe, best =>
    if groups ≤ 1 then best else search input chain place reach limit fuel (groups - 1) 3 probe best
  | fuel + 1, groups, links + 1, probe, best =>
    let next := chain.getD probe 0
    let distance := (place + 65536 - next % 65536) % 65536
    if next = 0 ∨ reach < distance ∨ distance = 0 then best
    else
      let probe := place - distance
      let agrees := fun i => input.getD (probe + i) 0 == input.getD (place + i) 0
      if !(agrees (best.length - 1) && agrees best.length) then
        search input chain place reach limit fuel groups links probe best
      else
        let found := agreement input place probe limit
        if found ≤ best.length then search input chain place reach limit fuel groups 0 probe best
        else if found = limit then ⟨distance, found⟩
        else search input chain place reach limit fuel groups 0 probe ⟨distance, found⟩

/-- The best repetition at a place that is longer than `least`, if there is one. One of three bytes
is not worth a long distance, and one of the very start of the input is not used. -/
def matchAt (input : Array UInt8) (chain : Array Nat) (place reach limit least : Nat) : Match :=
  let groups := if 32 ≤ least then 12 else 44
  let found :=
    if limit ≤ least then ⟨0, least⟩
    else search input chain place reach limit (4 * groups) groups 0 place ⟨0, least⟩
  if (found.length = 3 ∧ 8192 ≤ found.distance) ∨ found.distance = place % window then ⟨0, 0⟩
  else found

/-! ### Codes -/

/-- A node of a code tree: how often it occurs, and how deep its leaves are. -/
structure Weighed where
  weight : Nat
  depths : List Nat

def Weighed.merge (a b : Weighed) : Weighed :=
  ⟨a.weight + b.weight, (a.depths ++ b.depths).map (· + 1)⟩

/-- The lighter of the first leaf and the first inner node, the leaf if they weigh the same, and
what is left of both lists. -/
def lightest : List Weighed → List Weighed → Option (Weighed × List Weighed × List Weighed)
  | leaf :: leaves, node :: nodes =>
    if node.weight < leaf.weight then some (node, leaf :: leaves, nodes)
    else some (leaf, leaves, node :: nodes)
  | leaf :: leaves, [] => some (leaf, leaves, [])
  | [], node :: nodes => some (node, [], nodes)
  | [], [] => none

/-- Joins the two lightest nodes until one is left, and gives the depths of its leaves. -/
def depths : Nat → List Weighed → List Weighed → List Nat
  | 0, _, _ => []
  | fuel + 1, leaves, nodes =>
    match lightest leaves nodes with
    | none => []
    | some (a, leaves, nodes) =>
      match lightest leaves nodes with
      | none => a.depths
      | some (b, leaves, nodes) => depths fuel leaves (nodes ++ [a.merge b])

/-- Takes one word of the greatest length and lengthens another, the longest that is shorter. -/
def shorten (limit : Nat) (counts : List Nat) : List Nat :=
  let counts := counts.modify limit (· - 1)
  match ((List.range limit).reverse.find? fun n => 0 < n ∧ 0 < counts.getD n 0) with
  | some n => (counts.modify n (· - 1)).modify (n + 1) (· + 2)
  | none => counts

/-- How many words there are of each length up to `limit`, given the depths of a best tree: deeper
leaves are brought up, and others pushed down until the words fit. -/
def lengthCounts (limit : Nat) (ds : List Nat) : List Nat :=
  let counts := (List.range (limit + 1)).map fun n =>
    if n = limit then ds.countP (limit ≤ ·) else countOf ds n
  if ds.length ≤ 1 then counts
  else
    let filled := (List.range limit).foldl
      (fun n i => n + counts.getD (i + 1) 0 <<< (limit - (i + 1))) 0
    Nat.repeat (shorten limit) (filled - 1 <<< limit) counts

/-- The lengths of the words of a best code with words of at most `limit` bits, given how often each
symbol occurs. -/
def codeLengths (limit : Nat) (occurrences : List Nat) : List Nat :=
  let used := (occurrences.zipIdx.filter fun (n, _) => 0 < n).mergeSort fun a b => a.1 ≤ b.1
  let ds := match used with
    | [_] => [1]
    | _ => depths used.length (used.map fun (n, _) => ⟨n, [0]⟩) []
  let counts := lengthCounts limit ds
  -- The shortest words go to the symbols that occur most.
  let sizes := (List.range (limit + 1)).flatMap fun n =>
    if n = 0 then [] else List.replicate (counts.getD n 0) n
  let given := (used.reverse.map (·.2)).zip sizes
  (List.range occurrences.length).map fun s => (given.lookup s).getD 0

/-! ### Blocks -/

/-- The last symbol whose least value is not above `x`, with its extra bits and that value. -/
def symbolOf (symbols : List (Nat × Nat)) (x : Nat) : Nat × Nat × Nat :=
  let i := symbols.countP (fun (_, least) => least ≤ x) - 1
  let (extra, least) := symbols.getD i (0, 0)
  (i, extra, least)

/-- How often each symbol occurs, among `total` symbols. -/
def occurrences (total : Nat) (symbols : List Nat) : List Nat :=
  (symbols.foldl (fun (a : Array Nat) s => a.modify s (· + 1)) (Array.replicate total 0)).toList

/-- The literal or length symbol of a step. -/
def literalSymbol : Step → Nat
  | .literal b => b.toNat
  | .copy length _ => 257 + (symbolOf lengthSymbols length).1

/-- The distance symbol of a step. -/
def distanceSymbol? : Step → Option Nat
  | .literal _ => none
  | .copy _ distance => some (symbolOf distanceSymbols distance).1

/-- The bits of a step under the given words. -/
def stepBits (literals distances : Array Bits) : Step → Bits
  | .literal b => literals.getD b.toNat []
  | .copy length distance =>
    let (l, extraL, leastL) := symbolOf lengthSymbols length
    let (d, extraD, leastD) := symbolOf distanceSymbols distance
    literals.getD (257 + l) [] ++ lowBits extraL (length - leastL) ++
      distances.getD d [] ++ lowBits extraD (distance - leastD)

/-- The bits of steps and of the end of the block. -/
def stepsBits (literals distances : List Nat) (steps : List Step) : Bits :=
  let l := (words literals 15).toArray
  let d := (words distances 15).toArray
  steps.flatMap (stepBits l d) ++ l.getD 256 []

/-- Runs of equal numbers as pairs of a number and how often it comes. -/
def runs : List Nat → List (Nat × Nat)
  | [] => []
  | x :: more =>
    match runs more with
    | (y, n) :: rest => if x = y then (y, n + 1) :: rest else (x, 1) :: (y, n) :: rest
    | [] => [(x, 1)]

/-- A run of zeros in symbols of the code for lengths, each with its extra bits. -/
def packZeros : Nat → Nat → List (Nat × Bits)
  | 0, _ => []
  | fuel + 1, n =>
    if n = 0 then []
    else if 138 ≤ n then (18, lowBits 7 127) :: packZeros fuel (n - 138)
    else if n < 3 then List.replicate n (0, [])
    else if n ≤ 10 then [(17, lowBits 3 (n - 3))]
    else [(18, lowBits 7 (n - 11))]

/-- Repetitions of a length that was written just before. -/
def packRepeats (length : Nat) : Nat → Nat → List (Nat × Bits)
  | 0, _ => []
  | fuel + 1, n =>
    if n = 0 then []
    else if 6 ≤ n then (16, lowBits 2 3) :: packRepeats length fuel (n - 6)
    else if n < 3 then List.replicate n (length, [])
    else [(16, lowBits 2 (n - 3))]

/-- The lengths of code words in symbols of the code for lengths. -/
def pack (lengths : List Nat) : List (Nat × Bits) :=
  (runs lengths).flatMap fun (length, n) =>
    if length = 0 then packZeros n n else (length, []) :: packRepeats length n (n - 1)

/-- The list without the zeros at its end, but no shorter than `least`. -/
def trimZeros (least : Nat) (l : List Nat) : List Nat :=
  let kept := (l.reverse.dropWhile (· == 0)).length
  l.take (max least kept)

/-- A block with codes of its own. -/
def dynamicBlock (steps : List Step) : Bits :=
  let literals := codeLengths 15 (occurrences 288 (256 :: steps.map literalSymbol))
  let distances := codeLengths 15 (occurrences 32 (steps.filterMap distanceSymbol?))
  let shownLiterals := trimZeros 257 (literals.take 286)
  let shownDistances := trimZeros 1 (distances.take 30)
  let packed := pack (shownLiterals ++ shownDistances)
  let sizes := codeLengths 7 (occurrences 19 (packed.map (·.1)))
  let shownSizes := trimZeros 4 (lengthOrder.map fun s => sizes.getD s 0)
  let sizeWords := words sizes 7
  [false, true] ++ lowBits 5 (shownLiterals.length - 257) ++
    lowBits 5 (shownDistances.length - 1) ++ lowBits 4 (shownSizes.length - 4) ++
    shownSizes.flatMap (lowBits 3) ++
    (packed.flatMap fun (s, extra) => sizeWords.getD s [] ++ extra) ++
    stepsBits literals distances steps

/-- A block with the fixed codes. -/
def fixedBlock (steps : List Step) : Bits :=
  [true, false] ++ stepsBits fixedLiterals fixedDistances steps

/-- The zeros that fill up a byte after `n` bits. -/
def fill (n : Nat) : Bits := List.replicate ((8 - n % 8) % 8) false

/-- The steps for a stretch of the input, from `start` to `stop`. `near` tells that the stretch is
still within reach. -/
structure Block where
  steps : List Step
  start : Nat
  stop : Nat
  near : Bool

/-- A block after `before` bits. -/
def blockBits (input : Array UInt8) (before : Nat) (last : Bool) (b : Block) : Bits :=
  let total := b.stop - b.start
  let body := if total < 48 then fixedBlock b.steps else dynamicBlock b.steps
  let bytes := ((before + 1) % 8 + body.length) / 8
  if 32 < total ∧ total ≤ bytes + 1 ∧ b.near then
    last :: false :: false :: fill (before + 3) ++ lowBits 16 total ++
      lowBits 16 (0xFFFF - total) ++
      (input.extract b.start b.stop).toList.flatMap fun x => lowBits 8 x.toNat
  else last :: body

/-! ### Taking steps -/

/-- A run over the input. `held` is the repetition at the place before, which is only taken if there
is no longer one here; `reach` is how far back repetitions may lie. The steps since `start` make the
current block, latest first; `room` is what they need until they are written. -/
structure Run where
  place : Nat
  reach : Nat
  held : Option (UInt8 × Match)
  steps : List Step
  start : Nat
  done : Nat
  room : Nat
  marks : Nat
  blocks : List Block

namespace Run

/-- The run with one more step. Eight steps share one mark. -/
def push (r : Run) (s : Step) : Run :=
  let (size, need) := match s with
    | .literal _ => (1, 1)
    | .copy length _ => (length, 3)
  let full := r.marks = 1
  { r with
    steps := s :: r.steps
    done := r.done + size
    room := r.room + need + (if full then 1 else 0)
    marks := if full then 8 else r.marks - 1 }

/-- Moves on by `n` bytes. -/
def move (r : Run) (n : Nat) : Run :=
  { r with place := r.place + n, reach := min (r.reach + n) window }

/-- Closes the current block. -/
def close (r : Run) : Run :=
  { r with
    blocks := ⟨r.steps.reverse, r.start, r.done, r.place - r.start ≤ r.reach⟩ :: r.blocks
    steps := []
    start := r.done
    room := 1
    marks := 8 }

/-- Closes the current block if it has become too large. -/
def closeIfFull (r : Run) : Run :=
  let total := r.done - r.start
  if 65536 - 8 < r.room ∨ (31 * 1024 < total ∧ total ≤ r.room * 115 / 128) then r.close else r

/-- Deals with the next place. -/
def step (input : Array UInt8) (chain : Array Nat) (r : Run) : Run :=
  let ahead := min maxLength (input.size - r.place)
  let r := { r with reach := min (window - ahead) r.reach }
  let here := input.getD r.place 0
  let r := match r.held with
    | some (before, old) =>
      let new := matchAt input chain r.place r.reach ahead old.length
      if old.length < new.length then
        let r := r.push (.literal before)
        if 128 ≤ new.length then
          ({ r.push (.copy new.length new.distance) with held := none }).move new.length
        else ({ r with held := some (here, new) }).move 1
      else ({ r.push (.copy old.length old.distance) with held := none }).move (old.length - 1)
    | none =>
      let new := matchAt input chain r.place r.reach ahead 2
      if new.distance = 0 then (r.push (.literal here)).move 1
      else if 128 ≤ new.length then (r.push (.copy new.length new.distance)).move new.length
      else ({ r with held := some (here, new) }).move 1
  r.closeIfFull

/-- Goes on to the end of the input. -/
def finish (input : Array UInt8) (chain : Array Nat) : Nat → Run → Run
  | 0, r => r
  | fuel + 1, r => if r.place < input.size then finish input chain fuel (r.step input chain) else r

end Run

/-- Blocks in order, the last one marked as such, after `before` bits. -/
def blocksBits (input : Array UInt8) (before : Nat) : List Block → Bits
  | [] => []
  | b :: more =>
    let bits := blockBits input before more.isEmpty b
    bits ++ blocksBits input (before + bits.length) more

/-- Eight bits at a time as bytes. -/
def toBytes : Bits → Bytes
  | a :: b :: c :: d :: e :: f :: g :: h :: r =>
    let bit := fun (x : Bool) => if x then (1 : UInt8) else 0
    (bit a + 2 * bit b + 4 * bit c + 8 * bit d + 16 * bit e + 32 * bit f + 64 * bit g +
      128 * bit h) :: toBytes r
  | _ => []

/-- The bytes deflated. -/
def bytes (input : Bytes) : Bytes :=
  let a := input.toArray
  let start : Run := ⟨0, 0, none, [], 0, 0, 1, 8, []⟩
  let r := (start.finish a (chains a) (a.size + 1)).close
  let bits := blocksBits a 0 r.blocks.reverse
  toBytes (bits ++ fill bits.length)

end Deflate

end Phrasebook
