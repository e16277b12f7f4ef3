import Phrasebook.Path

/-! What can be asked for on the command line. -/
namespace Phrasebook

inductive Command where
  /-- Write the entries of a project to files. -/
  | extract (project output : Path) (index : Option Path) (parallel : Bool)
  /-- Write renditions into the scripts of a project. -/
  | translate (project : Path) (output renditions index archive : Option Path) (parallel : Bool)
deriving DecidableEq, Repr

namespace Command

/-- A command with what holds for every command. -/
structure Order where
  settings : Option Path
  quiet : Bool
  command : Command
deriving DecidableEq, Repr

/-- The pages that explain the command line. -/
inductive Page where
  | program
  | extract
  | translate
  | help
  | version
deriving DecidableEq, Repr

inductive Request where
  | order (o : Order)
  | page (p : Page)
  /-- The arguments make no sense. -/
  | misuse
deriving DecidableEq, Repr

/-- The options of the command line. -/
inductive Switch where
  | config
  | quiet
  | path
  | output
  | renditions
  | index
  | parallel
  | archive
  | help
  | version
deriving DecidableEq, Repr

namespace Switch

def long : Switch → String
  | .config => "config"
  | .quiet => "quiet"
  | .path => "path"
  | .output => "output"
  | .renditions => "translations"
  | .index => "index"
  | .parallel => "parallel"
  | .archive => "archive"
  | .help => "help"
  | .version => "version"

def short? : Switch → Option Char
  | .config => some 'c'
  | .path => some 'p'
  | .output => some 'o'
  | .renditions => some 't'
  | .help => some 'h'
  | .version => some 'V'
  | .quiet | .index | .parallel | .archive => none

def takesValue : Switch → Bool
  | .config | .path | .output | .renditions | .index | .archive => true
  | .quiet | .parallel | .help | .version => false

end Switch

namespace Page

/-- The options that a page explains, in the order in which it does, with what they are for. -/
def switches : Page → List (Switch × String)
  | .program =>
    [(.config, "配置文件路径（JSON）"), (.quiet, "静默模式(仅输出警告和错误)"),
      (.help, "Print help"), (.version, "Print version")]
  | .extract =>
    [(.config, "配置文件路径（JSON）"), (.path, "Godot 项目目录"), (.output, "词条文件输出目录"),
      (.quiet, "静默模式(仅输出警告和错误)"), (.index, "哈希索引文件（覆盖配置）"),
      (.parallel, "按文件并行处理"), (.help, "Print help")]
  | .translate =>
    [(.config, "配置文件路径（JSON）"), (.path, "Godot 项目目录"),
      (.output, "输出目录；不指定时覆盖源文件（会先备份）"), (.quiet, "静默模式(仅输出警告和错误)"),
      (.renditions, "译文目录（与提取输出的目录结构相同）"), (.index, "哈希索引文件（覆盖配置）"),
      (.parallel, "按文件并行处理"), (.archive, "写回后把输出目录打包为 zip"), (.help, "Print help")]
  | .help | .version => []

/-- The commands that a page explains. -/
def commands : Page → List (String × Page)
  | .program => [("extract", .extract), ("translate", .translate), ("help", .help)]
  | .extract | .translate | .help | .version => []

def about : Page → String
  | .program => "从 Godot 项目（GDScript/TSCN）中提取可翻译字符串，并把译文写回"
  | .extract => "提取词条为 Paratranz JSON 文件"
  | .translate => "把译文写回脚本"
  | .help => "Print this message or the help of the given subcommand(s)"
  | .version => "gd_extractor 0.1.0"

def usage : Page → String
  | .program => "gd_extractor [OPTIONS] <COMMAND>"
  | .extract => "gd_extractor extract [OPTIONS] --path <PATH> --output <OUTPUT>"
  | .translate => "gd_extractor translate [OPTIONS] --path <PATH>"
  | .help => "gd_extractor help [COMMAND]..."
  | .version => "gd_extractor"

/-- Rows of two columns under a heading; nothing without rows. -/
def table (heading : String) (rows : List (String × String)) : String :=
  let width := rows.foldl (fun w (left, _) => max w left.length) 0
  let line := fun (left, right) =>
    let gap := String.ofList (List.replicate (width - left.length) ' ')
    "  " ++ left ++ gap ++ "  " ++ right ++ "\n"
  if rows.isEmpty then "" else "\n" ++ heading ++ ":\n" ++ String.join (rows.map line)

/-- How an option is written, with the name of its value. -/
def spelling (s : Switch) : String :=
  let short := match s.short? with
    | some c => String.ofList ['-', c, ',', ' ']
    | none => "    "
  short ++ "--" ++ s.long ++ if s.takesValue then " <" ++ s.long.toUpper ++ ">" else ""

def render (p : Page) : String :=
  if p = .version then p.about ++ "\n"
  else
    let words := if p = .help then [("[COMMAND]...", "Print help for the subcommand(s)")] else []
    p.about ++ "\n\nUsage: " ++ p.usage ++ "\n" ++ table "Arguments" words ++
      table "Commands" (p.commands.map fun (name, page) => (name, page.about)) ++
      table "Options" (p.switches.map fun (s, about) => (spelling s, about))

end Page

end Command

end Phrasebook
