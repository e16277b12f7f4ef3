import Phrasebook.Json.Decode
import Phrasebook.Json.Read
import Phrasebook.Fault

/-! Which arguments of a call are names rather than text. -/
namespace Phrasebook

inductive Skip where
  /-- Nothing of the call is text. -/
  | all
  /-- The first `n` arguments are not text. -/
  | leading (n : Nat)
deriving DecidableEq, Repr

/-- What is known of a function. A call with fewer arguments than `minArgs` is some other
function's, and none of its arguments is text. -/
structure CallRule where
  skip : Skip
  minArgs : Nat
deriving DecidableEq, Repr

/-- The rules by name of the function. -/
abbrev CallRules := Table CallRule

namespace CallRules

def rule? (rules : CallRules) (callee : Text) : Option CallRule := Table.get? rules callee

/-- Whether nothing of a call is text. -/
def denies (rules : CallRules) (callee : Text) : Bool :=
  match rules.rule? callee with
  | some rule => rule.skip == .all
  | none => false

/-- Whether the argument in place `i` of `count` is not text. -/
def skips (rules : CallRules) (callee : Text) (i count : Nat) : Bool :=
  match rules.rule? callee with
  | none => false
  | some rule =>
    if count < rule.minArgs then true
    else match rule.skip with
      | .all => true
      | .leading n => i < n

/-- The rules for the engine's own functions. -/
def builtin : CallRules :=
  [("get_node", ⟨.all, 0⟩), ("get_node_or_null", ⟨.all, 0⟩), ("has", ⟨.all, 0⟩),
   ("preload", ⟨.all, 0⟩), ("load", ⟨.all, 0⟩), ("Color", ⟨.all, 0⟩),
   ("emit_signal", ⟨.leading 1, 1⟩), ("connect", ⟨.leading 3, 3⟩)].map
    fun (name, rule) => (Text.of name, rule)

/-- Written `"all"`, as an object of that one key, or as one with the number under `leading`. -/
def skipOfJson? : Json → Option Skip
  | .string (some t) => if t = Text.of "all" then some .all else none
  | .object [(some key, value)] =>
    if key = Text.of "all" then
      match value with
      | .null => some .all
      | _ => none
    else if key = Text.of "leading" then value.word?.map fun n => .leading n.toNat
    else none
  | _ => none

def ruleOfJson? (j : Json) : Option CallRule := do
  match ← j.members? ["skip", "min_args"] with
  | [some skip, minArgs] =>
    return ⟨← skipOfJson? skip, (← Json.orElse 0 Json.word? minArgs).toNat⟩
  | _ => none

/-- The table that a JSON text holds. -/
def read (t : Text) : Except Fault CallRules :=
  match (Json.read t).bind (Json.map? ruleOfJson?) with
  | some rules => .ok rules
  | none => .error .data

end CallRules

end Phrasebook
