import Phrasebook.FileTree
import Phrasebook.Json.Decode
import Phrasebook.Json.Read
import Phrasebook.Json.Write

/-! How a project is to be read. -/
namespace Phrasebook

structure Settings where
  /-- The scripts that are parsed function by function. -/
  fallbackScripts : List Text
  /-- The scripts that are left out. -/
  skippedScripts : List Text
  /-- The functions that are left out where a script is parsed function by function. -/
  discardedFunctions : List Text
  /-- Where the numbers of fingerprints are kept. -/
  indexFile : Path
  /-- Whether files may be read at the same time. -/
  parallel : Bool
  /-- The names of the directories that are left out. -/
  excludedDirs : List Text
deriving DecidableEq, Repr, Inhabited

namespace Settings

def default : Settings where
  fallbackScripts := [Text.of "LoadGameScreen", Text.of "ModsMenu"]
  skippedScripts := []
  discardedFunctions := []
  indexFile := Text.of "hash_index.json"
  parallel := false
  excludedDirs := [Text.of ".godot", Text.of ".import", Text.of ".git"]

def toJson (s : Settings) : Json :=
  let texts := fun (l : List Text) => Json.array (l.map .text)
  .record [("fallback_scripts", texts s.fallbackScripts),
    ("skipped_scripts", texts s.skippedScripts),
    ("discarded_functions", texts s.discardedFunctions), ("index_file", .text s.indexFile),
    ("parallel", .bool s.parallel), ("exclude_dirs", texts s.excludedDirs)]

def ofJson? (j : Json) : Option Settings := do
  match ← j.members? ["fallback_scripts", "skipped_scripts", "discarded_functions", "index_file",
      "parallel", "exclude_dirs"] with
  | [fallback, skipped, discarded, index, parallel, excluded] =>
    let texts := Json.list? Json.text?
    return {
      fallbackScripts := ← Json.orElse default.fallbackScripts texts fallback
      skippedScripts := ← Json.orElse default.skippedScripts texts skipped
      discardedFunctions := ← Json.orElse default.discardedFunctions texts discarded
      indexFile := ← Json.orElse default.indexFile Json.text? index
      parallel := ← Json.orElse default.parallel Json.bool? parallel
      excludedDirs := ← Json.orElse default.excludedDirs texts excluded }
  | _ => none

/-- The settings that a text holds. -/
def parse (t : Text) : Except Fault Settings :=
  match (Json.read t).bind ofJson? with
  | some settings => .ok settings
  | none => .error .data

/-- The contradiction in settings, if there is one. -/
def error? (s : Settings) : Option SettingsError :=
  if s.indexFile.isEmpty then some .noIndexFile
  else (s.fallbackScripts.find? s.skippedScripts.contains).map .inBothLists

/-- Reads settings, which must not contradict themselves. -/
def load (tree : FileTree) (p : Path) : Except Fault Settings := do
  let settings ← parse (← tree.readText p)
  match settings.error? with
  | some e => .error (.settings e)
  | none => return settings

/-- The text of a file with these settings. -/
def render (s : Settings) : Text := s.toJson.pretty 0

def isFallback (s : Settings) (stem : Text) : Bool := s.fallbackScripts.contains stem

def isSkipped (s : Settings) (stem : Text) : Bool := s.skippedScripts.contains stem

def isExcluded (s : Settings) (dir : Text) : Bool := s.excludedDirs.contains dir

end Settings

end Phrasebook
