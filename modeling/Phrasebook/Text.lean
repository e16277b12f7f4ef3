/-!
Text as a list of characters, addressed by UTF-8 byte offsets.

Every offset and length of the library counts bytes. `Text.takeBytes` and `Text.dropBytes` cut at a
byte offset and lose nothing between them: a cut inside a character puts that character on the left.
-/
namespace Phrasebook

abbrev Text := List Char

namespace Text

/-- The text of a string. -/
def of (s : String) : Text := s.toList

/-- The number of bytes of the UTF-8 form. -/
def size : Text → Nat
  | [] => 0
  | c :: r => c.utf8Size + size r

/-- The characters that begin before byte `n`. -/
def takeBytes (n : Nat) : Text → Text
  | [] => []
  | c :: r => if n = 0 then [] else c :: takeBytes (n - c.utf8Size) r

/-- The characters that begin at byte `n` or later. -/
def dropBytes (n : Nat) : Text → Text
  | [] => []
  | c :: r => if n = 0 then c :: r else dropBytes (n - c.utf8Size) r

/-- The characters that begin in bytes `start` to `stop`, the latter excluded. -/
def slice (t : Text) (start stop : Nat) : Text := takeBytes (stop - start) (dropBytes start t)

/-- Whether byte `n` begins a character or ends the text. -/
def isBoundary (n : Nat) : Text → Bool
  | [] => n == 0
  | c :: r => n == 0 || (c.utf8Size ≤ n && isBoundary (n - c.utf8Size) r)

/-- The bytes from `start` to `stop`, if they are whole characters of the text. -/
def slice? (t : Text) (start stop : Nat) : Option Text :=
  if start ≤ stop ∧ isBoundary start t ∧ isBoundary stop t then some (slice t start stop) else none

/-- The UTF-8 form. -/
def bytes (t : Text) : List UInt8 := t.flatMap String.utf8EncodeChar

/-- The text that bytes are the UTF-8 form of. -/
def ofBytes? (bytes : List UInt8) : Option Text :=
  (String.fromUTF8? ⟨bytes.toArray⟩).map String.toList

@[simp]
theorem size_append (s t : Text) : size (s ++ t) = size s + size t := by
  induction s with
  | nil => simp [size]
  | cons c r ih => simp [size, ih, Nat.add_assoc]

@[simp]
theorem takeBytes_append_dropBytes (n : Nat) (t : Text) :
    takeBytes n t ++ dropBytes n t = t := by
  induction t generalizing n with
  | nil => rfl
  | cons c r ih => by_cases h : n = 0 <;> simp [takeBytes, dropBytes, h, ih]

/-- What follows `p` when the text begins with it. -/
def afterLeading? : Text → Text → Option Text
  | [], t => some t
  | _ :: _, [] => none
  | p :: ps, c :: cs => if p = c then afterLeading? ps cs else none

theorem eq_append_of_afterLeading? {p t rest : Text} (h : afterLeading? p t = some rest) :
    t = p ++ rest := by
  induction p generalizing t with
  | nil => simpa [afterLeading?] using h
  | cons a p ih =>
    cases t with
    | nil => simp [afterLeading?] at h
    | cons c r =>
      by_cases hac : a = c
      · simp only [afterLeading?, hac, if_true] at h
        simp [hac, ih h]
      · simp [afterLeading?, hac] at h

/-- Whether `p` occurs somewhere in the text. -/
def occurs (t p : Text) : Bool :=
  match t with
  | [] => p.isEmpty
  | c :: r => p.isPrefixOf (c :: r) || occurs r p

/-- Replaces every occurrence of `p` by `q`, from the left and without overlap. `skip` counts the
characters of an occurrence still to be passed over. -/
def replaceFrom (p q : Text) (skip : Nat) : Text → Text
  | [] => []
  | c :: r =>
    if 0 < skip then replaceFrom p q (skip - 1) r
    else if p.isPrefixOf (c :: r) then q ++ replaceFrom p q (p.length - 1) r
    else c :: replaceFrom p q 0 r

/-- The text with every occurrence of a non-empty `p` replaced by `q`. -/
def replaceAll (t p q : Text) : Text := replaceFrom p q 0 t

/-- The lines of a text, each with its line feed. -/
def linesWithBreaks : Text → List Text
  | [] => []
  | c :: r =>
    if c = '\n' then [c] :: linesWithBreaks r
    else match linesWithBreaks r with
      | [] => [[c]]
      | line :: more => (c :: line) :: more

/-- A line without its end. -/
def withoutBreak (line : Text) : Text :=
  match line.reverse with
  | '\n' :: '\r' :: r => r.reverse
  | '\n' :: r => r.reverse
  | _ => line

/-- Cuts at every `sep`, which is dropped; there is always one piece. -/
def splitOn (sep : Char) : Text → List Text
  | [] => [[]]
  | c :: r =>
    if c = sep then [] :: splitOn sep r
    else match splitOn sep r with
      | [] => [[c]]
      | piece :: more => (c :: piece) :: more

/-- The pieces with `sep` between them. -/
def join (sep : Text) : List Text → Text
  | [] => []
  | [t] => t
  | t :: more => t ++ sep ++ join sep more

/-- Whether a text is not after another in the order of code points. -/
def notAfter : Text → Text → Bool
  | [], _ => true
  | _ :: _, [] => false
  | a :: s, b :: t => if a = b then notAfter s t else a.toNat < b.toNat

/-- The decimal digits of a number. -/
def ofNat (n : Nat) : Text := Nat.toDigits 10 n

/-- The longest leading part whose characters satisfy `p`, and the rest. -/
def spanOf (p : Char → Bool) (t : Text) : Text × Text := (t.takeWhile p, t.dropWhile p)

end Text

end Phrasebook
