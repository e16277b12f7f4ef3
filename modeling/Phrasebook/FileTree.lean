import Phrasebook.Fault
import Phrasebook.Path

/-!
Files and directories.

A place is the list of names that leads to it from the top. Every operation that a file system could
refuse answers with a fault, and what it has done before that stays.
-/
namespace Phrasebook

abbrev Bytes := List UInt8

/-- Files with their contents, the directories other than the top, and the current directory. -/
structure FileTree where
  current : List Text
  dirs : List (List Text)
  files : List (List Text × Bytes)
deriving Repr, Inhabited

namespace FileTree

def isDirAt (t : FileTree) (place : List Text) : Bool := place.isEmpty || t.dirs.contains place

def fileAt? (t : FileTree) (place : List Text) : Option Bytes :=
  (t.files.find? (·.1 == place)).map (·.2)

/-- The place that parts lead to; every part is taken in a directory. -/
def walk (t : FileTree) (place : List Text) : List Path.Part → Option (List Text)
  | [] => some place
  | part :: more =>
    if t.isDirAt place then
      match part with
      | .root => t.walk [] more
      | .here => t.walk place more
      | .up => t.walk place.dropLast more
      | .name n => if Path.isName n then t.walk (place ++ [n]) more else none
    else none

/-- The place of a path. -/
def place? (t : FileTree) (p : Path) : Option (List Text) := do
  let place ← if p = [] ∨ !p.isUsable then none else t.walk t.current p.parts
  if p.isOpen && !t.isDirAt place then none else some place

def isDir (t : FileTree) (p : Path) : Bool := (t.place? p).any t.isDirAt

def exists? (t : FileTree) (p : Path) : Bool :=
  (t.place? p).any fun place => t.isDirAt place || (t.fileAt? place).isSome

/-- The content of a file. -/
def read (t : FileTree) (p : Path) : Except Fault Bytes :=
  match (t.place? p).bind t.fileAt? with
  | some bytes => .ok bytes
  | none => .error .file

/-- The content of a file that is a text. -/
def readText (t : FileTree) (p : Path) : Except Fault Text := do
  match Text.ofBytes? (← t.read p) with
  | some text => return text
  | none => .error .file

/-- Puts a file at a place. -/
def putAt (t : FileTree) (place : List Text) (bytes : Bytes) : FileTree :=
  { t with files := t.files.filter (·.1 != place) ++ [(place, bytes)] }

/-- The files below a place by their names from there, in order. -/
def below (t : FileTree) (place : List Text) : List (List Text × Bytes) :=
  let inside := t.files.filterMap fun (names, bytes) =>
    if place.isPrefixOf names && place != names then some (names.drop place.length, bytes) else none
  inside.mergeSort fun a b => Path.notAfter a.1 b.1

/-- Work on files. -/
abbrev Action := ExceptT Fault (StateM FileTree)

/-- What comes of work on the files of a tree. -/
def Action.on (action : Action α) (t : FileTree) : Except Fault α × FileTree := action.run.run t

/-- Writes a file; its directory must be there. -/
def write (p : Path) (bytes : Bytes) : Action Unit := do
  let t ← get
  match t.place? p with
  | some place => if t.isDirAt place then throw .file else set (t.putAt place bytes)
  | none => throw .file

/-- Makes the directories that parts lead through. -/
def makeDirs (place : List Text) : List Path.Part → Action Unit
  | [] => return
  | .root :: more => makeDirs [] more
  | .here :: more => makeDirs place more
  | .up :: more => makeDirs place.dropLast more
  | .name n :: more => do
    let next := place ++ [n]
    let t ← get
    if !t.isDirAt next then
      if (t.fileAt? next).isSome || !Path.isName n then throw .file
      set { t with dirs := t.dirs ++ [next] }
    makeDirs next more

/-- Makes the directory that a file is to be in. -/
def makeParent (p : Path) : Action Unit := do
  if !p.parent.isUsable then throw .file
  makeDirs (← get).current p.parts.dropLast

/-- Writes a file and makes its directory. -/
def writeDeep (p : Path) (bytes : Bytes) : Action Unit := do
  makeParent p
  write p bytes

end FileTree

end Phrasebook
