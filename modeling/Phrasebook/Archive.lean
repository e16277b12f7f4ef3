import Phrasebook.Archive.Draft
import Phrasebook.Archive.Extra
import Phrasebook.Archive.Inflate
import Phrasebook.Table
import Phrasebook.Text.Repair

/-!
Archives of files, in the zip format.

Reading begins at the end. A record there whose directory cannot be read may be part of a comment or
of a member, and then an earlier one is tried.
-/
namespace Phrasebook

namespace Archive

/-! ### Reading -/

/-- A member of an archive; reading its content may fail. -/
structure Member where
  name : Text
  content : Except Fault Bytes
deriving Repr

/-- The characters of the bytes from 128 on where a name is not in UTF-8. -/
def highCharacters : List Char :=
  ("ÇüéâäàåçêëèïîìÄÅÉæÆôöòûùÿÖÜ¢£¥₧ƒáíóúñÑªº¿⌐¬½¼¡«»░▒▓│┤╡╢╖╕╣║╗╝╜╛┐└┴┬├─┼╞╟╚╔╩╦╠═╬╧╨╤╥╙╘╒╓╫╪┘┌" ++
    "█▄▌▐▀αßΓπΣσµτΦΘΩδ∞φε∩≡±≥≤⌠⌡÷≈°∙·√ⁿ²■\xa0").toList

/-- The text that bytes of the directory stand for. -/
def textOf (flags : Nat) (bytes : Bytes) : Text :=
  if flags / 0x800 % 2 = 1 then Text.repair bytes
  else bytes.map fun b =>
    if b < 0x80 then Char.ofNat b.toNat
    else highCharacters.getD (b.toNat - 0x80) Text.replacement

/-- The method of members that are encrypted. -/
def lockedMethod : Nat := 99

/-- An entry with its offset made a place in the bytes. One with the method of encrypted members has
to tell how they are encrypted. -/
def Listed.placed? (shift : Nat) (e : Listed) : Option Listed :=
  if e.method = lockedMethod ∧ !e.isLocked then none
  else if e.start + shift < 1 <<< 64 then some { e with start := e.start + shift }
  else none

/-- The entry of the directory at a place, and the place of the next one. Offsets are too low by
`shift`. -/
def Listed.at? (a : Array UInt8) (shift place : Nat) : Option (Listed × Nat) := do
  if (← numberAt? a place 4) ≠ centralSignature then none
  else
    let flags ← numberAt? a (place + 8) 2
    let nameStart := place + entrySize
    let extraStart := nameStart + (← numberAt? a (place + 28) 2)
    let commentStart := extraStart + (← numberAt? a (place + 30) 2)
    let stop := commentStart + (← numberAt? a (place + 32) 2)
    let rawName := (a.extract nameStart extraStart).toList
    let listed : Listed :=
      { flags, rawName
        method := ← numberAt? a (place + 10) 2
        checksum := ← numberAt? a (place + 16) 4
        size := ← numberAt? a (place + 20) 4
        fullSize := ← numberAt? a (place + 24) 4
        start := ← numberAt? a (place + 42) 4
        name := textOf flags rawName
        comment := textOf flags (a.extract commentStart stop).toList
        isLocked := false }
    if a.size < stop then none
    else
      let amended ← Extra.amend? listed (a.extract extraStart commentStart).toList
      return (← amended.placed? shift, stop)

/-- The place of a member's content. -/
def Listed.content? (a : Array UInt8) (e : Listed) : Option Nat := do
  if (← numberAt? a e.start 4) ≠ localSignature then none
  else
    return e.start + 30 + (← numberAt? a (e.start + 26) 2) + (← numberAt? a (e.start + 28) 2)

/-- The content of a member with the given method and checksum. Damaged content is only found out
when it is read. -/
def unpackContent (method checksum : Nat) (bytes : Bytes) : Except Fault Bytes :=
  match if method = 0 then some bytes else Inflate.bytes? bytes with
  | some content =>
    if (Checksum.ofBytes content).toNat = checksum then .ok content else .error .file
  | none => .error .file

/-- The member of an entry, or a fault if there is none at its place or it is of no known kind. -/
def Listed.member (a : Array UInt8) (e : Listed) : Except Fault Member :=
  match e.content? a with
  | some content =>
    if e.flags % 2 = 0 ∧ !e.isLocked ∧ (e.method = 0 ∨ e.method = 8) then
      let bytes := (a.extract content (content + e.size)).toList
      .ok ⟨e.name, unpackContent e.method e.checksum bytes⟩
    else .error .archive
  | none => .error .archive

/-- The table with a value put under a name. In place of one before it the value keeps its place. -/
def settle (t : Table α) (name : Text) (value : α) : Table α :=
  if t.any (·.1 == name) then
    t.map fun (other, old) => if other = name then (other, value) else (other, old)
  else t ++ [(name, value)]

/-- The entries of the directory from a place on; of a repeated name the last counts, in the
place of the first. -/
def entries? (a : Array UInt8) (shift : Nat) : Nat → Nat → Table Listed → Option (Table Listed)
  | 0, _, done => some done
  | n + 1, place, done => do
    let (e, next) ← Listed.at? a shift place
    entries? a shift n next (settle done e.name e)

/-- The entries of the directory that a record describes. -/
def EndRecord.entries? (a : Array UInt8) (r : EndRecord) : Option (Table Listed) :=
  if r.isWhole then Archive.entries? a r.shift r.count r.directory [] else none

/-- The entries of the last directory before place `n` that can be read. -/
def lastEntries? (a : Array UInt8) : Nat → Option (Table Listed)
  | 0 => none
  | n + 1 => (EndRecord.at? a n).bind (·.entries? a) <|> lastEntries? a n

/-- The members of an archive in their order. A member that is not where the directory says is only
found out when its turn comes. -/
def parse (bytes : Bytes) : Except Fault (List (Except Fault Member)) :=
  let a := bytes.toArray
  match lastEntries? a a.size with
  | some table => .ok (table.map fun (_, e) => e.member a)
  | none => .error .archive

/-- Whether a member is a directory. -/
def Member.isDir (m : Member) : Bool := m.name.getLast?.any fun c => c == '/' || c == '\\'

/-- The directory of a name. -/
def Member.ofDir (name : Text) : Member :=
  let named : Member := ⟨name, .ok []⟩
  if named.isDir then named else ⟨name ++ ['/'], .ok []⟩

/-! ### Packing -/

/-- The names of the files to be packed from a place. A file stands for itself. -/
def filesAt? (tree : FileTree) (top : List Text) : Option (List (List Text)) :=
  if tree.isDirAt top then some ((tree.below top).map (·.1))
  else (tree.fileAt? top).map fun _ => [[]]

/-- Packs files of a directory. The archive is written as it grows, so it holds what there is of it
if it is among the files; one that cannot be read is left empty and ends the packing. -/
def packAll (dir archive : Path) (d : Draft) : List Path → FileTree.Action Unit
  | [] => FileTree.write archive d.closed
  | name :: more => do
    FileTree.write archive (d.begun name)
    match (← get).read (dir.join name) with
    | .ok bytes => packAll dir archive (d.add name bytes) more
    | .error fault =>
      FileTree.write archive (d.add name []).closed
      throw fault

/-- Packs all files below a directory except the archive itself, and tells how many they are. -/
def package (dir archive : Path) : FileTree.Action Nat := do
  FileTree.makeParent archive
  let tree ← get
  match (tree.place? dir).bind (filesAt? tree) with
  | none => throw .file
  | some files =>
    let names := (files.map Path.ofNames).filter fun name =>
      Path.parts (dir.join name) != Path.parts archive
    FileTree.write archive []
    packAll dir archive .empty names
    return names.length

end Archive

end Phrasebook
