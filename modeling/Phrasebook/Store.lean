import Phrasebook.FileTree
import Phrasebook.Index
import Phrasebook.Json.Read
import Phrasebook.Json.Write

/-! The numbers of fingerprints for every file of a project, which are kept from run to run. -/
namespace Phrasebook

/-- The index of each file. -/
structure Store where
  indexes : Table Index
deriving Repr, Inhabited

namespace Store

def empty : Store := ⟨[]⟩

/-- The key of a path: slashes take the place of backslashes. -/
def keyOf (p : Path) : Text := p.map fun c => if c = '\\' then '/' else c

/-- Whether a key is that of a source file inside the project. -/
def isValidKey (key : Text) : Bool :=
  let p : Path := key
  !key.isEmpty && p.isSupported && p.parts.all fun
    | .name _ | .here => true
    | .root | .up => false

/-- The store without the keys that are not valid. -/
def prune (s : Store) : Store := ⟨s.indexes.filter fun (key, _) => isValidKey key⟩

/-- The index of a file, empty if there is none. -/
def index (s : Store) (p : Path) : Index := (s.indexes.get? (keyOf p)).getD .empty

/-- The store with the index of a file put in. -/
def setIndex (s : Store) (p : Path) (x : Index) : Store := ⟨s.indexes.put (keyOf p) x⟩

/-- Forgets where fingerprints were seen. -/
def clearPositions (s : Store) : Store :=
  ⟨s.indexes.map fun (key, x) => (key, x.clearPositions)⟩

/-- The keys in order. -/
def keys (s : Store) : List Text := s.indexes.sortedKeys

def size (s : Store) : Nat := s.indexes.length

/-- The text of a file with this store. -/
def render (s : Store) : Text :=
  (Json.object (s.indexes.sorted.map fun (key, x) => (some key, x.toJson))).pretty 0

/-- The indexes with one more field. -/
def addField (indexes : Table Index) : Option Text × Json → Except Fault (Table Index)
  | (none, _) => .error .data
  | (some key, value) => do return indexes.put key (← Index.ofJson value)

/-- The store that a text holds, without keys that are not valid. Each index is repaired before what
follows it is looked at. -/
def parse (t : Text) : Except Fault Store :=
  if t.isBlank then .ok empty
  else
    let (fields, rest) := Json.soundFields t
    do
      let indexes ← fields.foldlM addField []
      if rest.any fun rest => (Json.skipGap rest).isEmpty then .ok (prune ⟨indexes⟩)
      else .error .data

/-- Reads a store; without a file it is empty. -/
def load (tree : FileTree) (p : Path) : Except Fault Store :=
  if tree.exists? p then do parse (← tree.readText p) else .ok empty

/-- Writes a store and makes its directory. -/
def save (s : Store) (p : Path) : FileTree.Action Unit := FileTree.writeDeep p s.render.bytes

end Store

end Phrasebook
