import Phrasebook.Text

/-!
File paths.

A path is a text with slashes between its parts. Repeated slashes and single points between them
do not matter, and a single point counts only at the start of a relative path.
-/
namespace Phrasebook

abbrev Path := Text

namespace Path

inductive Part where
  | root
  | here
  | up
  | name (t : Text)
deriving DecidableEq, Repr

/-- The part that a piece between slashes is, if it matters. -/
def partOf? (t : Text) : Option Part :=
  if t = [] ∨ t = ['.'] then none else if t = ['.', '.'] then some .up else some (.name t)

/-- The parts that a path is made of. -/
def parts (p : Path) : List Part :=
  let pieces := Text.splitOn '/' p
  let head : List Part := match p with
    | '/' :: _ => [.root]
    | _ => if pieces.head? = some ['.'] then [.here] else []
  head ++ pieces.filterMap partOf?

/-- The path with the given names. -/
def ofNames (names : List Text) : Path := Text.join ['/'] names

/-- Whether names are not after others, where the first that differ decide. -/
def notAfter : List Text → List Text → Bool
  | [], _ => true
  | _ :: _, [] => false
  | a :: s, b :: t => if a = b then notAfter s t else Text.notAfter a b

/-- The last part, if it is a name. -/
def fileName? (p : Path) : Option Text :=
  match (parts p).getLast? with
  | some (.name t) => some t
  | _ => none

/-- A file name cut at its last point. A point at the very start does not count. -/
def splitName (name : Text) : Text × Option Text :=
  let after := (name.reverse.takeWhile (· != '.')).reverse
  let before := (name.reverse.dropWhile (· != '.')).tail.reverse
  if after.length = name.length ∨ before = [] then (name, none) else (before, some after)

/-- What follows the last point of the file name. -/
def extension? (p : Path) : Option Text := (fileName? p).bind fun name => (splitName name).2

/-- The file name up to its last point. -/
def stem? (p : Path) : Option Text := (fileName? p).map fun name => (splitName name).1

/-- Whether the extension is the given one, in any case. -/
def hasExtension (p : Path) (extension : String) : Bool :=
  (extension? p).any fun e => e.map Char.toLower == Text.of extension

/-- The extensions of the files that hold texts. -/
def isSupported (p : Path) : Bool := hasExtension p "gd" || hasExtension p "tscn"

/-- A path inside another; an absolute path stands for itself. -/
def join (base p : Path) : Path :=
  match p with
  | '/' :: _ => p
  | _ => if base = [] ∨ base.getLast? = some '/' then base ++ p else base ++ '/' :: p

/-- A reversed path without the slashes and points after its last name. -/
def dropTail : Text → Text
  | '/' :: r => dropTail r
  | '.' :: '/' :: r => dropTail r
  | t => t

/-- The path cut after the stem of its file name, with a new extension. A path without a file name
stays as it is. -/
def setExtension (p : Path) (extension : Text) : Path :=
  match fileName? p with
  | none => p
  | some name =>
    let old := name.length - (splitName name).1.length
    ((dropTail p.reverse).drop old).reverse ++ '.' :: extension

/-- The path with another extension: as many characters as the old one has are cut from the end, and
then the extension is set. -/
def withExtension (p : Path) (extension : Text) : Path :=
  let old := ((extension? p).getD []).length
  setExtension (List.take (p.length - old) p) extension

/-- The path of the file with the entries of a source file. -/
def entryFile (p : Path) : Path :=
  withExtension p (Text.of (if hasExtension p "tscn" then "tscn.json" else "json"))

/-- The path of the directory that a path is in. -/
def parent (p : Path) : Path :=
  (dropTail ((dropTail p.reverse).dropWhile (· != '/'))).reverse

/-- The most bytes of a name. -/
def nameLimit : Nat := 255

/-- The most bytes of a path. -/
def limit : Nat := 4095

/-- Whether a name is short enough for a file or directory. -/
def isName (name : Text) : Bool := name.size ≤ nameLimit

/-- Whether a path can lead to anything at all: it is not too long and does not end early. -/
def isUsable (p : Path) : Bool := p.size ≤ limit && !p.contains '\x00'

/-- Whether a path can only be a directory's. -/
def isOpen (p : Path) : Bool :=
  match p.reverse with
  | '/' :: _ => true
  | '.' :: '/' :: _ => true
  | _ => false

end Path

end Phrasebook
