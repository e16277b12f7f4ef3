import Phrasebook.Script.Plan

/-!
Writing renditions into a script.

Renditions are matched by fingerprint. All edits are made at once if the result is a script;
otherwise they are made one by one from the end, and those that would break it are left out.
-/
namespace Phrasebook

namespace Script

/-- Code that was replaced, by the key of its entry. -/
structure Change where
  key : Text
  before : Text
  after : Text
  position : Option Position
deriving DecidableEq, Repr

/-- What became of the renditions, and why they could not be written all at once. -/
structure Report where
  applied : List Change
  skipped : List (Text × Refusal)
  conflict : Option Fault
deriving DecidableEq, Repr, Inhabited

/-- Whether anything was replaced. -/
def Report.changed (r : Report) : Bool := !r.applied.isEmpty

/-- An edit to be made for the item in place `item`. -/
structure Planned where
  item : Nat
  key : Text
  edit : Edit
  old : Text
  value : Text
  position : Position
deriving DecidableEq, Repr

/-- The renditions to be written, by fingerprint; the last of a fingerprint counts. -/
def usable (renditions : List Entry) : Table Text :=
  ((renditions.filter (·.isTranslated)).map fun e => (e.fingerprint, e.rendition)).reverse

/-- The edits for one item, and the refusals. -/
def planItem (t : Tree) (place : Nat) (item : Item) (rendition : Text) :
    List (Except (Text × Refusal) Planned) :=
  item.sites.filterMap fun site =>
    match planEdit t site item.entry.phrase rendition with
    | .error refusal => some (.error (item.entry.key, refusal))
    | .ok none => none
    | .ok (some edit) =>
      some (.ok {
        item := place
        key := item.entry.key
        edit
        old := t.source.slice site.span.start site.span.stop
        value := rendition
        position := t.source.position site.span })

/-- The edits for the items from place `i` on, and the refusals. -/
def planItems (t : Tree) (lookup : Table Text) (i : Nat) :
    List Item → List (Except (Text × Refusal) Planned)
  | [] => []
  | item :: more =>
    let here := match lookup.get? item.fingerprint with
      | some rendition => planItem t i item rendition
      | none => []
    here ++ planItems t lookup (i + 1) more

/-- How far an offset moves when edits are made. -/
def shift (edits : List Edit) (offset : Nat) : Int :=
  Edit.gain (edits.filter (·.span.stop ≤ offset))

/-- Where an offset is after edits. -/
def shifted (edits : List Edit) (offset : Nat) : Nat := (offset + shift edits offset).toNat

/-- Where a span is after edits, of which one may replace exactly this span. -/
def remap (edits : List Edit) (span : Span) : Span :=
  match edits.find? (·.span == span) with
  | some edit =>
    let start := shifted edits span.start
    ⟨start, start + edit.text.size⟩
  | none => ⟨shifted edits span.start, shifted edits span.stop⟩

/-- Makes edits one by one: the tree with those that leave it a script, their numbers, and the
refusals of the others. -/
def applyEach (t : Tree) : List (Planned × Nat) → Tree × List Nat × List (Text × Refusal)
  | [] => (t, [], [])
  | (p, i) :: more =>
    match t.replaceSpans [p.edit] with
    | .ok next =>
      let (t, accepted, refused) := applyEach next more
      (t, i :: accepted, refused)
    | .error fault =>
      let (t, accepted, refused) := applyEach t more
      (t, accepted, (p.key, .breaksScript fault) :: refused)

/-- The planned edits with their numbers, from the end of the script to its start. -/
def fromEnd (planned : List Planned) : List (Planned × Nat) :=
  planned.zipIdx.mergeSort fun a b => b.1.edit.span.start ≤ a.1.edit.span.start

/-- Makes as many of the edits as can be made, where `together` comes of making all of them: the new
tree, the edits made, and the refusals. -/
def applyPlanned (t : Tree) (planned : List Planned) (together : Except Fault Tree) :
    Tree × List Planned × List (Text × Refusal) :=
  match together with
  | .ok next => (next, planned, [])
  | .error _ =>
    let (next, accepted, refused) := applyEach t (fromEnd planned)
    (next, (planned.zipIdx.filter fun (_, i) => accepted.contains i).map (·.1), refused)

/-- The item after the edits made: its sites have moved, and it has the rendition written. -/
def updateItem (accepted : List Planned) (place : Nat) (item : Item) : Item :=
  let sites := item.sites.map fun s => { s with span := remap (accepted.map (·.edit)) s.span }
  match (accepted.filter (·.item == place)).getLast? with
  | some p => { item with entry := { item.entry with rendition := p.value }, sites }
  | none => { item with sites }

/-- Writes renditions into a tree. -/
def translateTree (s : Script) (t : Tree) (lookup : Table Text) : Script × Report :=
  let plans := planItems t lookup 0 s.items
  let planned := plans.filterMap Except.toOption
  let refused := plans.filterMap fun
    | .error refusal => some refusal
    | .ok _ => none
  if planned.isEmpty then (s, ⟨[], refused, none⟩)
  else
    let together := t.replaceSpans (planned.map (·.edit))
    let conflict := match together with
      | .ok _ => none
      | .error fault => some fault
    let (next, accepted, late) := applyPlanned t planned together
    let items := s.items.zipIdx.map fun (item, i) => updateItem accepted i item
    let applied := accepted.map fun p => ⟨p.key, p.old, p.edit.text, some p.position⟩
    ({ s with body := .tree next, items }, ⟨applied, refused ++ late, conflict⟩)

/-- What is looked for in the text for an item, and what is put there. -/
def rawPair (item : Item) (rendition : Text) : Option (Text × Text) :=
  item.sites.head?.map fun site =>
    match site.form with
    | .literal q => (q.wrap item.entry.phrase, q.wrap rendition)
    | _ => (item.entry.phrase, rendition)

/-- Replaces the texts of the items one after the other wherever they occur. -/
def translateRaw (lookup : Table Text) (text : Text) : List Item → Text × List Item × Report
  | [] => (text, [], ⟨[], [], none⟩)
  | item :: more =>
    let found := do
      let rendition ← lookup.get? item.fingerprint
      let (old, new) ← rawPair item rendition
      pure (rendition, old, new)
    match found with
    | none =>
      let (text, items, report) := translateRaw lookup text more
      (text, item :: items, report)
    | some (rendition, old, new) =>
      if text.occurs old then
        let (text, items, report) := translateRaw lookup (text.replaceAll old new) more
        let change : Change := ⟨item.entry.key, old, new, item.entry.positions.head?⟩
        (text, { item with entry := { item.entry with rendition } } :: items,
          { report with applied := change :: report.applied })
      else
        let (text, items, report) := translateRaw lookup text more
        (text, item :: items,
          { report with skipped := (item.entry.key, .notFound) :: report.skipped })

/-- Writes renditions into the script. -/
def translate (s : Script) (renditions : List Entry) : Script × Report :=
  let lookup := usable renditions
  if s.items.isEmpty || lookup.isEmpty then (s, ⟨[], [], none⟩)
  else match s.body with
    | .tree t => s.translateTree t lookup
    | .raw text =>
      let (text, items, report) := translateRaw lookup text s.items
      ({ s with body := .raw text, items }, report)

end Script

end Phrasebook
