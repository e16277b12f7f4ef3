import Phrasebook.Archive
import Phrasebook.Command.Arguments
import Phrasebook.Project
import Phrasebook.Text.Quoted

/-!
Carrying out what was asked for on the command line.

A run writes lines, works on files and may fail. What it has written before it fails stays.
-/
namespace Phrasebook

namespace Command

/-- Why a run fails. -/
inductive Failure where
  | noProject (p : Path)
  | noRenditions (p : Path)
  | renditionsNotGiven
  | settings (p : Path) (cause : Fault)
  | store (p : Path) (cause : Fault)
  | saving (cause : Fault)
  | packing (p : Path) (cause : Fault)
  | other (fault : Fault)
  /-- The program ends at once. -/
  | fatal (fault : Fault)
deriving DecidableEq, Repr

namespace Failure

def message : Failure → String
  | .noProject p => "项目目录不存在: " ++ String.ofList (Text.quoted p)
  | .noRenditions p => "译文目录不存在: " ++ String.ofList (Text.quoted p)
  | .renditionsNotGiven => "需要 --translations"
  | .settings p _ => "无法加载配置文件: " ++ String.ofList p
  | .store p _ => "无法加载哈希索引: " ++ String.ofList p
  | .saving _ => "保存哈希索引失败"
  | .packing p _ => "打包失败: " ++ String.ofList p
  | .other fault | .fatal fault => fault.message

/-- The fault behind a failure that has a message of its own. -/
def cause? : Failure → Option Fault
  | .settings _ cause | .store _ cause | .saving cause | .packing _ cause => some cause
  | .noProject _ | .noRenditions _ | .renditionsNotGiven | .other _ | .fatal _ => none

def render (f : Failure) : String :=
  match f with
  | .fatal _ => f.message ++ "\n"
  | _ =>
    "Error: " ++ f.message ++ "\n" ++ match f.cause? with
      | some cause => "\nCaused by:\n    " ++ cause.message ++ "\n"
      | none => ""

def exitCode : Failure → Nat
  | .fatal _ => 101
  | _ => 1

end Failure

/-- What a run has written, and the files. -/
structure Progress where
  output : String
  errors : String
  tree : FileTree
deriving Repr

abbrev Work := ExceptT Failure (StateM Progress)

namespace Work

/-- Writes a line unless the run is quiet. -/
def tell (quiet : Bool) (line : String) : Work Unit :=
  if quiet then pure () else modify fun w => { w with output := w.output ++ line ++ "\n" }

/-- Writes a line about something that went wrong. -/
def complain (line : String) : Work Unit :=
  modify fun w => { w with errors := w.errors ++ line ++ "\n" }

/-- A line of the log. The lines of a message after the first are set in. -/
def logLine (isWarning : Bool) (message : String) : String :=
  (if isWarning then "[WARN] " else "[INFO] ") ++
    String.ofList ((Text.of message).replaceAll ['\n'] (Text.of "\n    "))

/-- Writes to the log; a quiet run writes warnings only. -/
def log (quiet isWarning : Bool) (message : String) : Work Unit :=
  if quiet && !isWarning then pure () else complain (logLine isWarning message)

/-- A result, or the failure that its fault leads to. -/
def expect (failure : Fault → Failure) : Except Fault α → Work α
  | .ok a => pure a
  | .error fault => throw (if fault.isFatal then .fatal fault else failure fault)

def tree : Work FileTree := return (← get).tree

def setTree (tree : FileTree) : Work Unit := modify fun w => { w with tree }

/-- Work on the files, or the failure that its fault leads to. -/
def perform (failure : Fault → Failure) (action : FileTree.Action α) : Work α := do
  let (outcome, after) := action.on (← tree)
  setTree after
  expect failure outcome

end Work

open Work

def quotedPath (p : Path) : String := String.ofList (Text.quoted p)

/-- The store of a run. -/
def loadStore (quiet : Bool) (index : Path) (failure : Fault → Failure) : Work Store := do
  if !(← tree).exists? index then
    log quiet false ("哈希索引文件不存在，将新建: " ++ String.ofList index)
  expect failure (Store.load (← tree) index)

/-- Writes to the log what was told about the files of a project. -/
def logReport (quiet : Bool) (done : String) (r : Project.Report) : Work Unit := do
  r.notes.forM fun n => log quiet n.isWarning n.message
  log quiet false (done ++ ": " ++ r.render)

/-- Writes what became of the files of a project. -/
def tellReport (quiet : Bool) (r : Project.Report) : Work Unit := do
  tell quiet r.render
  if !r.skipped.isEmpty then
    tell quiet "跳过的文件:"
    r.skipped.forM fun p => tell quiet ("  " ++ String.ofList p)
  if r.hasErrors then
    complain "处理失败的文件:"
    r.errors.forM fun (p, fault) => complain ("  " ++ String.ofList p ++ ": " ++ fault.message)

/-- The settings of a run. -/
def loadSettings : Option Path → Work Settings
  | some p => do expect (.settings p) (Settings.load (← tree) p)
  | none => pure .default

def requireProject (p : Path) : Work Unit := do
  if !(← tree).isDir p then throw (.noProject p)

/-- Writes the entries of a project. -/
def runExtract (settings : Settings) (quiet : Bool) (root output : Path) (index : Option Path)
    (parallel : Bool) : Work Unit := do
  requireProject root
  let project : Project :=
    ⟨root, { settings with parallel := settings.parallel || parallel }, .builtin⟩
  let index := index.getD settings.indexFile
  let store ← loadStore quiet index (.store index)
  tell quiet ("正在提取 " ++ quotedPath root ++ " 到 " ++ quotedPath output)
  let (outcome, w) := project.extract output ⟨← tree, store⟩
  setTree w.tree
  let report ← expect .other outcome
  logReport quiet "提取完成" report
  perform .saving (w.store.save index)
  tellReport quiet report
  tell quiet ("哈希索引已保存到: " ++ quotedPath index)

/-- Writes renditions into scripts, and packs the result. -/
def runTranslate (settings : Settings) (quiet : Bool) (time : Text) (root : Path)
    (output renditions index archive : Option Path) (parallel : Bool) : Work Unit := do
  let some renditions := renditions | throw .renditionsNotGiven
  requireProject root
  if !(← tree).isDir renditions then throw (.noRenditions renditions)
  let project : Project :=
    ⟨root, { settings with parallel := settings.parallel || parallel }, .builtin⟩
  let store ← loadStore quiet (index.getD settings.indexFile) .other
  let target : Project.Target ← match output with
    | some dir => do
      tell quiet ("正在写回译文到 " ++ quotedPath dir)
      pure (.dir dir)
    | none => do
      tell quiet ("正在覆盖 " ++ quotedPath root ++ " 中的脚本（已备份原文件）")
      pure .inPlace
  let (outcome, w) := project.translate renditions target time ⟨← tree, store⟩
  setTree w.tree
  let report ← expect .other outcome
  logReport quiet "写回完成" report
  tellReport quiet report
  match archive, output with
  | some archive, some dir =>
    let count ← perform (.packing archive) (Archive.package dir archive)
    log quiet false (s!"已打包 {count} 个文件到 " ++ String.ofList archive)
    tell quiet (s!"已打包 {count} 个文件到 " ++ quotedPath archive)
  | _, _ => pure ()

/-- Carries out an order at a time. -/
def runOrder (time : Text) (o : Order) : Work Unit := do
  let settings ← loadSettings o.settings
  match o.command with
  | .extract root output index parallel => runExtract settings o.quiet root output index parallel
  | .translate root output renditions index archive parallel =>
    runTranslate settings o.quiet time root output renditions index archive parallel

/-- What a run leaves behind. -/
structure Outcome where
  exitCode : Nat
  output : String
  errors : String
  tree : FileTree
deriving Repr

/-- Runs the program with arguments at a time. -/
def run (args : List Text) (time : Text) (tree : FileTree) : Outcome :=
  match Request.ofArguments args with
  | .misuse => ⟨2, "", Page.program.render, tree⟩
  | .page p => ⟨0, p.render, "", tree⟩
  | .order o =>
    match (runOrder time o).run.run ⟨"", "", tree⟩ with
    | (.ok (), w) => ⟨0, w.output, w.errors, w.tree⟩
    | (.error failure, w) => ⟨failure.exitCode, w.output, w.errors ++ failure.render, w.tree⟩

end Command

end Phrasebook
