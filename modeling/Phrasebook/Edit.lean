import Phrasebook.Text
import Phrasebook.Span

/-! Replacing spans of a text. -/
namespace Phrasebook

/-- The replacement of a span by a text. -/
structure Edit where
  span : Span
  text : Text
deriving DecidableEq, Repr, Inhabited

namespace Edit

/-- Why edits cannot be made together. -/
inductive Conflict where
  | overlap (a b : Span)
  | outOfRange
deriving DecidableEq, Repr

/-- The first two neighbours that overlap. -/
def overlap? : List Edit → Option Conflict
  | a :: b :: more =>
    if a.span.overlaps b.span || b.span.start < a.span.stop then some (.overlap a.span b.span)
    else overlap? (b :: more)
  | _ => none

/-- The text from byte `cursor` on, with edits in source order made. -/
def splice (source : Text) (cursor : Nat) : List Edit → Except Conflict Text
  | [] => .ok (source.dropBytes cursor)
  | e :: more =>
    if source.size < e.span.stop ∨ e.span.start < cursor then .error .outOfRange
    else do
      let rest ← splice source e.span.stop more
      return source.slice cursor e.span.start ++ e.text ++ rest

/-- How many bytes longer edits make a text. -/
def gain : List Edit → Int
  | [] => 0
  | e :: more => (e.text.size : Int) - (e.span.stop - e.span.start) + gain more

/-- The edits by where they start; those that start together keep their order. -/
def inOrder (edits : List Edit) : List Edit :=
  edits.mergeSort fun a b => a.span.start ≤ b.span.start

/-- The text with all edits made at once. -/
def applyAll (source : Text) (edits : List Edit) : Except Conflict Text :=
  let ordered := inOrder edits
  match overlap? ordered with
  | some conflict => .error conflict
  | none => splice source 0 ordered

theorem startsBy_trans (a b c : Edit) (hab : decide (a.span.start ≤ b.span.start) = true)
    (hbc : decide (b.span.start ≤ c.span.start) = true) :
    decide (a.span.start ≤ c.span.start) = true :=
  decide_eq_true (Nat.le_trans (of_decide_eq_true hab) (of_decide_eq_true hbc))

theorem startsBy_total (a b : Edit) :
    (decide (a.span.start ≤ b.span.start) || decide (b.span.start ≤ a.span.start)) = true := by
  simpa using Nat.le_total a.span.start b.span.start

theorem pairwise_inOrder (es : List Edit) :
    (inOrder es).Pairwise fun a b => a.span.start ≤ b.span.start :=
  (List.pairwise_mergeSort startsBy_trans startsBy_total es).imp fun h => of_decide_eq_true h

theorem mem_inOrder {e : Edit} {es : List Edit} : e ∈ inOrder es ↔ e ∈ es :=
  (List.mergeSort_perm _ _).mem_iff

end Edit

end Phrasebook
