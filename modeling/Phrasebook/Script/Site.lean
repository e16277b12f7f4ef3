import Phrasebook.Entry
import Phrasebook.Lexeme

/-! Where the texts of a script stand in its code. -/
namespace Phrasebook

namespace Site

/-- How much of the code is replaced by a rendition. -/
inductive Form where
  /-- The content of one string literal. -/
  | literal (quoting : Quoting)
  /-- A whole expression: a condition or an argument. -/
  | expression
  /-- A whole statement. -/
  | statement
deriving DecidableEq, Repr

end Site

/-- One occurrence of a text; the span of a literal includes its quotes. -/
structure Site where
  span : Span
  form : Site.Form
deriving DecidableEq, Repr

/-- A text found in a script, as an entry with one position. -/
structure Find where
  entry : Entry
  site : Site
deriving DecidableEq, Repr

/-- All occurrences of one fingerprint. -/
structure Item where
  fingerprint : Text
  entry : Entry
  sites : List Site
deriving DecidableEq, Repr

namespace Item

/-- The item of a find. -/
def ofFind (f : Find) : Item := ⟨f.entry.fingerprint, f.entry, [f.site]⟩

/-- The item with another occurrence. -/
def add (item : Item) (f : Find) : Item :=
  { item with
    entry := { item.entry with positions := item.entry.positions ++ f.entry.positions }
    sites := item.sites ++ [f.site] }

/-- The items with a find: at the item of its fingerprint, or as a new item at the end. -/
def insert (items : List Item) (f : Find) : List Item :=
  let new := ofFind f
  if items.any (·.fingerprint == new.fingerprint) then
    items.map fun item => if item.fingerprint = new.fingerprint then item.add f else item
  else items ++ [new]

/-- One item for each fingerprint, in the order in which they were first found. -/
def collect (finds : List Find) : List Item := finds.foldl insert []

end Item

end Phrasebook
