import Phrasebook.Command

/-!
Reading the arguments of the command line.

Options stand in any order, before or after the command if they hold for every command. A value
follows its option, or is written to it with or without an equals sign. No option is given twice in
the same place, and a request for a page counts as soon as it is read.
-/
namespace Phrasebook

namespace Command

/-- Why reading arguments stops early. -/
inductive Stop where
  | page (p : Page)
  | misuse
deriving DecidableEq, Repr

/-- Options with their values; the value of an option without one is empty. -/
abbrev Given := List (Switch × Text)

/-- The options read so far. The last one waits for its value, or has it and is not yet checked. -/
structure Reading where
  given : Given
  pending : Option (Switch × Option Text)
deriving Repr

namespace Given

def has (g : Given) (s : Switch) : Bool := g.any (·.1 == s)

def value? (g : Given) (s : Switch) : Option Text := g.lookup s

/-- Adds an option, which must not be there and whose value must not be empty. -/
def add (g : Given) (s : Switch) (value : Text) : Except Stop Given :=
  if g.has s || (s.takesValue && value.isEmpty) then .error .misuse else .ok (g ++ [(s, value)])

end Given

namespace Reading

def empty : Reading := ⟨[], none⟩

def isWaiting (r : Reading) : Bool := r.pending.any (·.2.isNone)

/-- Checks and adds the last option. -/
def settle (r : Reading) : Except Stop Given :=
  match r.pending with
  | none => .ok r.given
  | some (_, none) => .error .misuse
  | some (s, some value) => r.given.add s value

/-- Reads an option of a page with the value that is written to it, if there is one. -/
def option (page : Page) (r : Reading) (s : Switch) (attached : Option Text) :
    Except Stop Reading := do
  let given ← r.settle
  match s, attached with
  | .help, none => .error (.page page)
  | .version, none => .error (.page .version)
  | s, some value => if s.takesValue then return ⟨← given.add s value, none⟩ else .error .misuse
  | s, none =>
    if s.takesValue then return ⟨given, some (s, none)⟩ else return ⟨← given.add s [], none⟩

/-- Reads `--name` or `--name=value`, without the hyphens. -/
def longOption (page : Page) (r : Reading) (t : Text) : Except Stop Reading :=
  let name := t.takeWhile (· != '=')
  let attached := if name.length < t.length then some (t.drop (name.length + 1)) else none
  match page.switches.find? fun (s, _) => s.long.toList == name with
  | some (s, _) => r.option page s attached
  | none => .error .misuse

/-- Reads `-n`, `-nvalue` or `-n=value`, without the hyphen. -/
def shortOption (page : Page) (r : Reading) (c : Char) (t : Text) : Except Stop Reading :=
  match page.switches.find? fun (s, _) => s.short? == some c with
  | some (s, _) =>
    let attached := match t with
      | [] => none
      | '=' :: value => some value
      | value => some value
    r.option page s (if s.takesValue then attached else none)
  | none => .error .misuse

end Reading

/-- Reads arguments up to the first word that is a command of the page, and gives the rest. -/
def readOptions (page : Page) (r : Reading) :
    List Text → Except Stop (Reading × Option (Page × List Text))
  | [] => .ok (r, none)
  | arg :: more =>
    match arg with
    | ['-', '-'] => if more.isEmpty then .ok (r, none) else .error .misuse
    | '-' :: '-' :: name => do readOptions page (← r.longOption page name) more
    | '-' :: c :: rest => do readOptions page (← r.shortOption page c rest) more
    | word =>
      match r.pending with
      | some (s, none) => readOptions page { r with pending := some (s, some word) } more
      | _ => match page.commands.find? fun (name, _) => name.toList == word with
        | some (_, command) => .ok (r, some (command, more))
        | none => .error .misuse

/-- The options of a command, which has no commands of its own. -/
def readCommand (page : Page) (args : List Text) : Except Stop Given := do
  let (r, _) ← readOptions page .empty args
  r.settle

/-- The command that options of a page describe. -/
def ofGiven (page : Page) (g : Given) : Except Stop Command :=
  match page, g.value? .path, g.value? .output with
  | .extract, some path, some output =>
    .ok (.extract path output (g.value? .index) (g.has .parallel))
  | .translate, some path, output =>
    if g.has .archive && output.isNone then .error .misuse
    else .ok (.translate path output (g.value? .renditions) (g.value? .index) (g.value? .archive)
      (g.has .parallel))
  | _, _, _ => .error .misuse

/-- The page that the words after `help` ask for. -/
def helpPage (page : Page) : List Text → Stop
  | [] => .page page
  | word :: more =>
    match page.commands.find? fun (name, _) => name.toList == word with
    | some (_, command) => helpPage command more
    | none => .misuse

/-- The order that arguments give. What holds for every command may be said twice, before and after
the command, and then the latter counts. -/
def orderOf (args : List Text) : Except Stop Order := do
  match ← readOptions .program .empty args with
  | (_, none) => .error .misuse
  | (_, some (.help, more)) => .error (helpPage .program more)
  | (r, some (page, more)) =>
    let own ← readCommand page more
    let command ← ofGiven page own
    let before ← r.settle
    return {
      settings := own.value? .config <|> before.value? .config
      quiet := own.has .quiet || before.has .quiet
      command }

/-- What arguments ask for. -/
def Request.ofArguments (args : List Text) : Request :=
  match orderOf args with
  | .ok o => .order o
  | .error (.page p) => .page p
  | .error .misuse => .misuse

end Command

end Phrasebook
