import Phrasebook.Node

/-!
The table of nodes.

A parser puts every node in a table as soon as the node is complete, behind its children, and nodes are
known by their places there. The table can be walked from any node.
-/
namespace Phrasebook

/-- A node as an entry of a table, in which nodes are known by their places. -/
structure Cell where
  kind : Node.Kind
  span : Span
  parent : Option Nat
  children : List Nat
deriving DecidableEq, Repr

abbrev Arena := List Cell

namespace Arena

/-- Names `parent` in the cells of its children. -/
def adopt (parent : Nat) (children : List Nat) (a : Arena) : Arena :=
  children.foldl (fun a i => a.modify i fun c => { c with parent := some parent }) a

/-- Adds a node whose children are in the table already. -/
def add (kind : Node.Kind) (span : Span) (children : List Nat) (a : Arena) : Arena :=
  adopt a.length children a ++ [⟨kind, span, none, children⟩]

/-- The span of a node. -/
def spanOf (a : Arena) (i : Nat) : Span := a[i]?.elim ⟨0, 0⟩ (·.span)

/-- The nodes that the first steps of a walk visit. On the stack are the nodes still to visit; those
below a node are put in front of the others. -/
def walk (a : Arena) : Nat → List Nat → List Nat
  | 0, _ => []
  | _, [] => []
  | steps + 1, i :: stack => i :: walk a steps ((a[i]?.elim [] (·.children)) ++ stack)

end Arena

end Phrasebook
