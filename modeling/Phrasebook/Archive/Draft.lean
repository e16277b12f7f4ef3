import Phrasebook.Archive.Checksum
import Phrasebook.Archive.Deflate
import Phrasebook.Archive.Layout

/-!
Archives that are being written.

An archive is a row of members, each behind a header of its own, and a directory of them at the end.
The directory is only written when the archive is closed.
-/
namespace Phrasebook

namespace Archive

/-- The members written so far, the entries for the directory, and how many they are. -/
structure Draft where
  row : Bytes
  directory : Bytes
  count : Nat
deriving Repr

namespace Draft

def empty : Draft := ⟨[], [], 0⟩

/-- What both headers of a member say: the version that is needed, the flag for names outside ASCII,
the method (8 for deflated), the earliest time that can be written, the checksum, the sizes and the
length of the name. -/
def common (name : Bytes) (checksum deflatedSize size : Nat) : Bytes :=
  let flags := if name.all (· < 0x80) then 0 else 0x800
  field 2 20 ++ field 2 flags ++ field 2 8 ++ field 2 0 ++ field 2 0x21 ++
    field 4 checksum ++ field 4 deflatedSize ++ field 4 size ++ field 2 name.length ++ field 2 0

/-- The archive once a member has been begun: its checksum and sizes are not known yet. -/
def begun (d : Draft) (name : Text) : Bytes :=
  d.row ++ field 4 localSignature ++ common name.bytes 0 0 0 ++ name.bytes

/-- The draft with one more member. -/
def add (d : Draft) (name : Text) (content : Bytes) : Draft :=
  let name := name.bytes
  let deflated := Deflate.bytes content
  let shared := common name (Checksum.ofBytes content).toNat deflated.length content.length
  -- Made on a system with permissions; everybody may read the file.
  let entry := field 4 centralSignature ++ field 2 0x0314 ++ shared ++ field 2 0 ++ field 2 0 ++
    field 2 0 ++ field 4 (0o100644 * 65536) ++ field 4 d.row.length ++ name
  ⟨d.row ++ field 4 localSignature ++ shared ++ name ++ deflated, d.directory ++ entry, d.count + 1⟩

/-- The whole archive. -/
def closed (d : Draft) : Bytes :=
  d.row ++ d.directory ++ field 4 endSignature ++ field 2 0 ++ field 2 0 ++ field 2 d.count ++
    field 2 d.count ++ field 4 d.directory.length ++ field 4 d.row.length ++ field 2 0

end Draft

/-- The archive of named files. -/
def render (files : List (Text × Bytes)) : Bytes :=
  (files.foldl (fun d (name, content) => d.add name content) Draft.empty).closed

end Archive

end Phrasebook
