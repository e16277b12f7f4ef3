import Phrasebook.Command.Run
import Std.Time.Format

/-!
The program on the command line.

The files that an order is about are read first, and those that the run has changed are written at
the end.
-/
namespace Phrasebook

namespace Disk

/-- The name of a place for the system. -/
def nameOf (place : List Text) : String := "/" ++ String.ofList (Path.ofNames place)

/-- The place that parts lead to, after those on the way. -/
def stepsTo (place : List Text) : List Path.Part → List (List Text)
  | [] => [place]
  | .root :: more => place :: stepsTo [] more
  | .here :: more => stepsTo place more
  | .up :: more => place :: stepsTo place.dropLast more
  | .name n :: more => place :: stepsTo (place ++ [n]) more

/-- Puts what is at a place into the tree: a file that is wanted, or a directory with what is in
it down to `depth`. -/
def load (wanted : Path → Bool) (tree : FileTree) (place : List Text) : Nat → IO FileTree
  | 0 => return tree
  | depth + 1 => do
    match ← (IO.FS.realPath (nameOf place)).toBaseIO with
    | .error _ => return tree
    | .ok path =>
      if ← path.isDir then
        let tree := if tree.isDirAt place then tree else { tree with dirs := tree.dirs ++ [place] }
        if depth = 0 then return tree
        (← path.readDir).foldlM (fun tree entry => do
          if (← entry.path.symlinkMetadata).type == .symlink then return tree
          load wanted tree (place ++ [entry.fileName.toList]) depth) tree
      else if wanted (Path.ofNames place) then
        return tree.putAt place (← IO.FS.readBinFile path).toList
      else return tree

/-- The most names that a place has. -/
def maxDepth : Nat := 256

/-- Puts what is at a path, and the directories that lead there, into the tree. -/
def loadPath (wanted : Path → Bool) (tree : FileTree) (p : Path) : IO FileTree := do
  let steps := stepsTo tree.current (Path.parts p)
  let tree ← steps.foldlM (fun tree place => load (fun _ => true) tree place 1) tree
  match steps.getLast? with
  | some place => load wanted tree place maxDepth
  | none => return tree

/-- Whether a file can be read by an order in a directory that is not packed. -/
def isSource (p : Path) : Bool := p.isSupported || p.hasExtension "json"

/-- Reads the files that a request is about. -/
def read (current : List Text) (request : Command.Request) : IO FileTree := do
  let tree ← (stepsTo [] (current.map .name)).foldlM (fun tree place => load isSource tree place 1)
    ⟨current, [], []⟩
  match request with
  | .page _ | .misuse => return tree
  | .order o =>
    let tree ← o.settings.toList.foldlM (loadPath fun _ => true) tree
    let settings := (o.settings.map (Settings.load tree)).getD (.ok .default)
    let indexOf := fun (index : Option Path) => match index, settings with
      | some p, _ => [p]
      | none, .ok settings => [settings.indexFile]
      | none, .error _ => []
    match o.command with
    | .extract project output index _ =>
      let tree ← [project, output].foldlM (loadPath isSource) tree
      (indexOf index).foldlM (loadPath fun _ => true) tree
    | .translate project output renditions index archive _ =>
      let tree ← (project :: renditions.toList).foldlM (loadPath isSource) tree
      let tree ← output.toList.foldlM (loadPath fun p => archive.isSome || isSource p) tree
      (indexOf index ++ archive.toList).foldlM (loadPath fun _ => true) tree

/-- Writes the files that differ between two trees. -/
def write (before after : FileTree) : IO Unit := do
  for dir in after.dirs do
    if !before.isDirAt dir then IO.FS.createDirAll (nameOf dir)
  for (place, bytes) in after.files do
    if before.fileAt? place != some bytes then
      IO.FS.writeBinFile (nameOf place) ⟨bytes.toArray⟩

end Disk

end Phrasebook

open Phrasebook in
def main (args : List String) : IO UInt32 := do
  let args := args.map Text.of
  let current := ((← IO.currentDir).components.filter (· != "")).map Text.of
  let time ← Std.Time.PlainDateTime.now
  let before ← Disk.read current (Command.Request.ofArguments args)
  let outcome := Command.run args (Text.of (time.format "uuuu-MM-dd-HH-mm-ss")) before
  Disk.write before outcome.tree
  (← IO.getStdout).putStr outcome.output
  (← IO.getStderr).putStr outcome.errors
  return UInt32.ofNat outcome.exitCode
