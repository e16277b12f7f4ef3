/-!
Codes of bits, and the numbers of the deflate format that both directions need.

A code is given by the length of each symbol's code word, where zero means that the symbol does not
occur. Words of one length are numbered in the order of their symbols.
-/
namespace Phrasebook

abbrev Bits := List Bool

namespace Huffman

/-- The lowest `n` bits of a number, lowest first. -/
def lowBits : Nat → Nat → Bits
  | 0, _ => []
  | n + 1, x => (x % 2 == 1) :: lowBits n (x / 2)

/-- How many words have the given length. -/
def countOf (lengths : List Nat) (n : Nat) : Nat := lengths.countP (· == n)

/-- The first word of each length from one to `limit`, as a number. -/
def firstWords (lengths : List Nat) (limit : Nat) : List Nat :=
  ((List.range limit).foldl (fun (words, next) n =>
    let next := if n = 0 then 0 else 2 * (next + countOf lengths n)
    (words ++ [next], next)) ([], 0)).1

/-- The code words of all symbols, highest bit first. -/
def words (lengths : List Nat) (limit : Nat) : List Bits :=
  (lengths.foldl (fun (done, next) n =>
    match n with
    | 0 => (done ++ [[]], next)
    | n + 1 =>
      let word := next.getD n 0
      (done ++ [(lowBits (n + 1) word).reverse], next.set n (word + 1)))
    (([] : List Bits), firstWords lengths limit)).1

/-- The lengths of the words of the fixed code for literals and lengths. -/
def fixedLiterals : List Nat :=
  List.replicate 144 8 ++ List.replicate 112 9 ++ List.replicate 24 7 ++ List.replicate 8 8

/-- The lengths of the words of the fixed code for distances. -/
def fixedDistances : List Nat := List.replicate 32 5

/-- The number of extra bits of each length symbol, of which the first is 257, and the least length
it stands for. -/
def lengthSymbols : List (Nat × Nat) :=
  [(0, 3), (0, 4), (0, 5), (0, 6), (0, 7), (0, 8), (0, 9), (0, 10), (1, 11), (1, 13), (1, 15),
   (1, 17), (2, 19), (2, 23), (2, 27), (2, 31), (3, 35), (3, 43), (3, 51), (3, 59), (4, 67),
   (4, 83), (4, 99), (4, 115), (5, 131), (5, 163), (5, 195), (5, 227), (0, 258)]

/-- The same for the distance symbols. -/
def distanceSymbols : List (Nat × Nat) :=
  [(0, 1), (0, 2), (0, 3), (0, 4), (1, 5), (1, 7), (2, 9), (2, 13), (3, 17), (3, 25), (4, 33),
   (4, 49), (5, 65), (5, 97), (6, 129), (6, 193), (7, 257), (7, 385), (8, 513), (8, 769), (9, 1025),
   (9, 1537), (10, 2049), (10, 3073), (11, 4097), (11, 6145), (12, 8193), (12, 12289),
   (13, 16385), (13, 24577)]

/-- The order in which the lengths of the code for lengths are written. -/
def lengthOrder : List Nat := [16, 17, 18, 0, 8, 7, 9, 6, 10, 5, 11, 4, 12, 3, 13, 2, 14, 1, 15]

end Huffman

end Phrasebook
