import Phrasebook.Index
import Phrasebook.Script.Chunk
import Phrasebook.Script.Finds

/-!
A script and its texts.

Usually a script is parsed as a whole. A script that cannot be is cut at its functions, and each
part is parsed by itself; its text is then only known as a text.
-/
namespace Phrasebook

namespace Script

inductive Body where
  | tree (tree : Tree)
  | raw (text : Text)
deriving Repr, Inhabited

end Script

/-- A parsed script. `stem` begins the keys of its entries, and `chunkFaults` are those of the parts
that could not be parsed, with the names of the parts. -/
structure Script where
  stem : Text
  body : Script.Body
  items : List Item
  chunkFaults : List (Text × Fault)
deriving Repr, Inhabited

namespace Script

/-- The items with keys from the index, which gives a number to every new fingerprint. -/
def assignKeys (stem : Text) (index : Index) : List Item → Except Fault (List Item × Index)
  | [] => .ok ([], index)
  | item :: more => do
    let (n, index) ← index.assignEntry item.entry
    let (items, index) ← assignKeys stem index more
    return ({ item with entry := item.entry.withKey stem n.toNat } :: items, index)

/-- Parses a script as a whole. -/
def parse (rules : CallRules) (stem content : Text) (index : Index) :
    Except Fault (Script × Index) :=
  let source := content.normalize
  match Tree.ofScript source with
  | .error e => .error (.ofParseError source e)
  | .ok tree => do
    let (items, index) ← assignKeys stem index (Item.collect (tree.finds rules))
    return (⟨stem, .tree tree, items, []⟩, index)

/-- The trees of the chunks that are neither discarded nor blank, or why they have none. -/
def chunkTrees (discarded : List Text) (source : Text) : List (Except (Text × Fault) Tree) :=
  let kept := (Chunk.ofText source).filter fun c =>
    !discarded.contains c.title && !(source.slice c.range.start c.range.stop).isBlank
  kept.map fun c => (Tree.ofRange source c.range).mapError fun e =>
    (c.title, .ofParseError source e)

/-- Parses a script function by function; the functions named in `discarded` are left out. -/
def parseChunks (rules : CallRules) (discarded : List Text) (stem content : Text)
    (index : Index) : Except Fault (Script × Index) := do
  let source := content.normalize
  let trees := chunkTrees discarded source
  let finds := trees.flatMap fun
    | .ok tree => tree.finds rules
    | .error _ => []
  let faults := trees.filterMap fun
    | .ok _ => none
    | .error fault => some fault
  let (items, index) ← assignKeys stem index (Item.collect finds)
  return (⟨stem, .raw source, items, faults⟩, index)

/-- The entries, in the order in which they were found. -/
def entries (s : Script) : List Entry := s.items.map (·.entry)

/-- The text as it now is. -/
def render (s : Script) : Text :=
  match s.body with
  | .tree tree => tree.source
  | .raw text => text

/-- Whether the script was parsed function by function. -/
def isRaw (s : Script) : Bool :=
  match s.body with
  | .tree _ => false
  | .raw _ => true

end Script

end Phrasebook
