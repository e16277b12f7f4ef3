import Phrasebook.Archive

/-!
Unpacking renditions.

The files that count are those below `utf8` in the archive. A member whose name could lead out of
the archive is passed over.
-/
namespace Phrasebook

namespace Unpack

/-- Whether parts never lead above where they start; `depth` is how far below it they are. -/
def staysInside (depth : Nat) : List Path.Part → Bool
  | [] => true
  | .root :: _ => false
  | .here :: more => staysInside depth more
  | .up :: more => 0 < depth && staysInside (depth - 1) more
  | .name _ :: more => staysInside (depth + 1) more

/-- Whether a name is that of a file inside the archive. -/
def isEnclosed (name : Text) : Bool := !name.contains '\x00' && staysInside 0 (Path.parts name)

/-- A path without the slashes and points before its first part. -/
def dropHead : Text → Text
  | '/' :: r => dropHead r
  | '.' :: '/' :: r => dropHead r
  | ['.'] => []
  | t => t

/-- The path below `utf8` that a name stands for. -/
def relative? (name : Text) : Option Path :=
  if (Path.parts name).head? = some (.name (Text.of "utf8")) then
    let rest := (Path.dropTail (dropHead (name.drop 4)).reverse).reverse
    if rest.isEmpty then none else some rest
  else none

/-- The path that a member is written to, below the destination. -/
def target? (m : Archive.Member) : Option Path :=
  if m.isDir || !isEnclosed m.name then none else relative? m.name

/-- Writes members below a destination and gives their paths from there. -/
def writeAll (dest : Path) : List (Except Fault Archive.Member) → FileTree.Action (List Path)
  | [] => return []
  | member :: more => do
    let m ← MonadExcept.ofExcept member
    match target? m with
    | none => writeAll dest more
    | some p =>
      FileTree.makeParent (dest.join p)
      FileTree.write (dest.join p) (← MonadExcept.ofExcept m.content)
      return p :: (← writeAll dest more)

/-- Unpacks an archive below a destination. -/
def unpack (dest : Path) (bytes : Bytes) : FileTree.Action (List Path) := do
  writeAll dest (← MonadExcept.ofExcept (Archive.parse bytes))

end Unpack

end Phrasebook
