import Phrasebook.Entry
import Phrasebook.FileTree
import Phrasebook.Json.Read
import Phrasebook.Json.Write

/-! Files of entries, as people translate them. -/
namespace Phrasebook

namespace Entry

/-- The text of one entry. -/
def render (e : Entry) : Text := e.toJson.compact

/-- The entry that a text holds. -/
def parse (t : Text) : Except Fault Entry :=
  match (Json.read t).bind ofJson? with
  | some e => .ok e
  | none => .error .data

end Entry

namespace EntryFile

/-- The text of a file with these entries. -/
def render (entries : List Entry) : Text := (Json.array (entries.map (·.toJson))).pretty 0

/-- The entries that a text holds; a blank text holds none. -/
def parse (t : Text) : Except Fault (List Entry) :=
  let t := t.dropMark
  if t.isBlank then .ok []
  else match (Json.read t).bind (Json.list? Entry.ofJson?) with
    | some entries => .ok entries
    | none => .error .data

def read (tree : FileTree) (p : Path) : Except Fault (List Entry) := do parse (← tree.readText p)

/-- Writes a file and makes its directory. -/
def write (p : Path) (entries : List Entry) : FileTree.Action Unit :=
  FileTree.writeDeep p (render entries).bytes

end EntryFile

end Phrasebook
