import Phrasebook.Digest
import Phrasebook.Position
import Phrasebook.Text.Blank
import Phrasebook.Json.Decode

/-! A text to be translated. -/
namespace Phrasebook

/-- One text of a project: the phrase that is found there, and its rendition in another language.
It is known by its fingerprint; the key is only a name for people. `context` is the code around the
phrase, `type` the kind of code it was found as. -/
structure Entry where
  key : Text
  phrase : Text
  rendition : Text
  context : Option Text
  type : Option Text
  positions : List Position
deriving DecidableEq, Repr, Inhabited

namespace Entry

/-- An entry without key, rendition and type. -/
def new (phrase : Text) (context : Option Text) : Entry :=
  { key := [], phrase, rendition := [], context, type := none, positions := [] }

/-- The digest of the phrase and its context. -/
def fingerprint (e : Entry) : Text := Digest.ofText (e.phrase ++ e.context.getD [])

/-- The entry with a key made of a stem and a number. -/
def withKey (e : Entry) (stem : Text) (n : Nat) : Entry :=
  { e with key := stem ++ '_' :: Text.ofNat n }

/-- Whether there is a rendition to be written: it is not blank and differs from the phrase. -/
def isTranslated (e : Entry) : Bool := !e.rendition.isBlank && e.rendition != e.phrase

def toJson (e : Entry) : Json :=
  .record ([("key", .text e.key), ("original", .text e.phrase),
      ("translation", .text e.rendition)] ++
    (e.context.map fun c => ("context", Json.text c)).toList ++
    (e.type.map fun t => ("type", Json.text t)).toList)

def ofJson? (j : Json) : Option Entry := do
  match ← j.members? ["key", "original", "translation", "context", "type"] with
  | [key, phrase, rendition, context, type] =>
    return {
      key := ← Json.orElse [] Json.text? key
      phrase := ← Json.orElse [] Json.text? phrase
      rendition := ← Json.orElse [] Json.text? rendition
      context := ← Json.orElse none Json.optionalText? context
      type := ← Json.orElse none Json.optionalText? type
      positions := [] }
  | _ => none

end Entry

end Phrasebook
