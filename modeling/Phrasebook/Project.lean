import Phrasebook.Backup
import Phrasebook.EntryFile
import Phrasebook.Scene
import Phrasebook.Script.Translate
import Phrasebook.Settings
import Phrasebook.Store

/-!
A project: a directory of scripts and scenes.

All source files are worked through in order. One that cannot be read or parsed is reported and does
not stop the others.
-/
namespace Phrasebook

structure Project where
  root : Path
  settings : Settings
  rules : CallRules
deriving Repr, Inhabited

/-- The files and the store that a project is worked on with. -/
structure Workspace where
  tree : FileTree
  store : Store
deriving Repr, Inhabited

namespace Project

/-- What became of a source file. -/
inductive Outcome where
  | written
  | unchanged
  | skipped
deriving DecidableEq, Repr

/-- Something that is told about while source files are worked through. -/
inductive Note where
  /-- How many source files there are. -/
  | found (root : Path) (count : Nat)
  /-- A function cannot be parsed. -/
  | unparsed (file : Path) (function : Text) (fault : Fault)
  /-- Renditions cannot be written all at once. -/
  | oneByOne (file : Path) (fault : Fault)
  /-- A rendition is not written. -/
  | refused (file : Path) (key : Text) (refusal : Script.Refusal)
  /-- A source file is given up. -/
  | failed (file : Path) (fault : Fault)
deriving DecidableEq, Repr

namespace Note

/-- Whether something is not as it should be. -/
def isWarning : Note → Bool
  | .found _ _ => false
  | .unparsed _ _ _ | .oneByOne _ _ | .refused _ _ _ | .failed _ _ => true

def message : Note → String
  | .found root count => "在 " ++ String.ofList root ++ s!" 中找到 {count} 个源文件"
  | .unparsed file function fault =>
    String.ofList file ++ ": 函数 " ++ String.ofList function ++ " 解析失败: " ++ fault.message
  | .oneByOne file fault =>
    String.ofList file ++ ": 整体替换后无法解析，改为逐条替换: " ++ fault.message
  | .refused file key refusal =>
    String.ofList file ++ ": 未应用 " ++ String.ofList key ++ ": " ++ refusal.message
  | .failed file fault => String.ofList file ++ ": " ++ fault.message

end Note

/-- The source files with what became of them, and what was told about them. -/
structure Report where
  processed : Nat
  written : Nat
  skipped : List Path
  errors : List (Path × Fault)
  notes : List Note
deriving DecidableEq, Repr, Inhabited

namespace Report

def empty : Report := ⟨0, 0, [], [], []⟩

/-- The report with one more file. -/
def record (r : Report) (p : Path) : Except Fault Outcome → Report
  | .ok .written => { r with processed := r.processed + 1, written := r.written + 1 }
  | .ok .unchanged => { r with processed := r.processed + 1 }
  | .ok .skipped => { r with skipped := r.skipped ++ [p] }
  | .error fault => { r with errors := r.errors ++ [(p, fault)] }

/-- The report with more notes. -/
def tell (r : Report) (notes : List Note) : Report := { r with notes := r.notes ++ notes }

def hasErrors (r : Report) : Bool := !r.errors.isEmpty

def render (r : Report) : String :=
  let skipped := r.skipped.length
  let failed := r.errors.length
  s!"处理 {r.processed} 个文件，写出 {r.written} 个，跳过 {skipped} 个，失败 {failed} 个"

end Report

/-- The source files below the root by their names from there, in order. Files in excluded
directories are left out; the root itself may have any name. -/
def discover (p : Project) (tree : FileTree) : Except Fault (List (List Text)) :=
  match tree.place? p.root with
  | none => .error .file
  | some top =>
    if tree.isDirAt top then
      .ok (((tree.below top).map (·.1)).filter fun names =>
        (Path.ofNames names).isSupported && !names.dropLast.any p.settings.isExcluded)
    else if (tree.fileAt? top).isSome then .ok (if p.root.isSupported then [[]] else [])
    else .error .file

/-- The name of a source file without its extension, which begins the keys of its entries. -/
def stemOf (relative : Path) : Text := relative.stem?.getD []

/-- Parses a script as the settings say. -/
def parseScript (p : Project) (stem content : Text) (index : Index) :
    Except Fault (Script × Index) :=
  if p.settings.isFallback stem then
    Script.parseChunks p.rules p.settings.discardedFunctions stem content index
  else Script.parse p.rules stem content index

/-- The notes about the functions of a script that cannot be parsed. -/
def chunkNotes (relative : Path) (script : Script) : List Note :=
  script.chunkFaults.map fun (function, fault) => .unparsed relative function fault

/-- The entries of a source file, its index with them, and notes. -/
def entriesOf (p : Project) (relative : Path) (content : Text) (index : Index) :
    Except Fault (List Entry × Index × List Note) :=
  let stem := stemOf relative
  if relative.hasExtension "gd" then
    (p.parseScript stem content index).map fun (script, index) =>
      (script.entries, index, chunkNotes relative script)
  else (Scene.parse stem content index).map fun (entries, index) => (entries, index, [])

/-- The workspace with the index of a file, which is made if there is none. -/
def openIndex (w : Workspace) (relative : Path) : Index × Workspace :=
  let index := w.store.index relative
  (index, { w with store := w.store.setIndex relative index })

/-- What comes of working on a source file. -/
structure Handled where
  outcome : Except Fault Outcome
  notes : List Note
  workspace : Workspace
deriving Repr

/-- Writes the entries of a source file, if it has any, to a file of its own. -/
def extractFile (p : Project) (output : Path) (w : Workspace) (relative : Path) : Handled :=
  if relative.hasExtension "gd" && p.settings.isSkipped (stemOf relative) then ⟨.ok .skipped, [], w⟩
  else match w.tree.readText (p.root.join relative) with
    | .error fault => ⟨.error fault, [], w⟩
    | .ok content =>
      let (index, w) := openIndex w relative
      match p.entriesOf relative content index with
      | .error fault => ⟨.error fault, [], w⟩
      | .ok (entries, index, notes) =>
        let w := { w with store := w.store.setIndex relative index }
        if entries.isEmpty then ⟨.ok .unchanged, notes, w⟩
        else
          let file := output.join relative.entryFile
          let (outcome, tree) := (EntryFile.write file entries).on w.tree
          ⟨outcome.map fun _ => .written, notes, { w with tree }⟩

/-- Where translated scripts go. -/
inductive Target where
  /-- To a directory, by the same names. -/
  | dir (p : Path)
  /-- To their own place, after a copy has been made. -/
  | inPlace
deriving DecidableEq, Repr

/-- Writes a translated script. -/
def writeScript (p : Project) (target : Target) (time : Text) (relative : Path) (text : Text) :
    FileTree.Action Unit :=
  match target with
  | .dir dir => FileTree.writeDeep (dir.join relative) text.bytes
  | .inPlace => do
    let source := p.root.join relative
    let _ ← Backup.create source time
    FileTree.write source text.bytes

/-- The notes about renditions that could not be written as they are. -/
def translateNotes (relative : Path) (report : Script.Report) : List Note :=
  (report.conflict.toList.map fun fault => .oneByOne relative fault) ++
    report.skipped.map fun (key, refusal) => .refused relative key refusal

/-- Writes the renditions of a script into it, if there is a file of them. -/
def translateFile (p : Project) (renditions : Path) (target : Target) (time : Text)
    (w : Workspace) (relative : Path) : Handled :=
  let source := renditions.join relative.entryFile
  if p.settings.isSkipped (stemOf relative) then ⟨.ok .skipped, [], w⟩
  else if !w.tree.exists? source then ⟨.ok .unchanged, [], w⟩
  else
    let inputs := do
      let translated ← EntryFile.read w.tree source
      pure (translated, ← w.tree.readText (p.root.join relative))
    match inputs with
    | .error fault => ⟨.error fault, [], w⟩
    | .ok (translated, content) =>
      let (index, w) := openIndex w relative
      match p.parseScript (stemOf relative) content index with
      | .error fault => ⟨.error fault, [], w⟩
      | .ok (script, index) =>
        let w := { w with store := w.store.setIndex relative index }
        let (script, report) := script.translate translated
        let notes := chunkNotes relative script ++ translateNotes relative report
        if !report.changed then ⟨.ok .unchanged, notes, w⟩
        else
          let (outcome, tree) := (p.writeScript target time relative script.render).on w.tree
          ⟨outcome.map fun _ => .written, notes, { w with tree }⟩

/-- The fault that ends the program, if a file leads to one. -/
def Handled.fatal? (h : Handled) : Option Fault :=
  match h.outcome with
  | .error fault => if fault.isFatal then some fault else none
  | .ok _ => none

/-- Works through files in order. Those that are given up are told about at the end. -/
def runFiles (work : Workspace → Path → Handled) (r : Report) (w : Workspace) :
    List (List Text) → Except Fault Report × Workspace
  | [] => (.ok (r.tell (r.errors.map fun (file, fault) => .failed file fault)), w)
  | names :: more =>
    let relative := Path.ofNames names
    let handled := work w relative
    match handled.fatal? with
    | some fault => (.error fault, handled.workspace)
    | none =>
      runFiles work ((r.record relative handled.outcome).tell handled.notes) handled.workspace more

/-- Writes the entries of all source files below a directory. -/
def extract (p : Project) (output : Path) (w : Workspace) : Except Fault Report × Workspace :=
  match p.discover w.tree with
  | .error fault => (.error fault, w)
  | .ok files =>
    runFiles (p.extractFile output) (Report.empty.tell [.found p.root files.length])
      { w with store := w.store.clearPositions } files

/-- Writes renditions into all scripts. -/
def translate (p : Project) (renditions : Path) (target : Target) (time : Text) (w : Workspace) :
    Except Fault Report × Workspace :=
  match p.discover w.tree with
  | .error fault => (.error fault, w)
  | .ok files =>
    let scripts := files.filter fun names => (Path.ofNames names).hasExtension "gd"
    runFiles (p.translateFile renditions target time)
      (Report.empty.tell [.found p.root files.length])
      { w with store := w.store.clearPositions } scripts

end Project

end Phrasebook
