import Phrasebook.Tree
import Phrasebook.Proofs.Grammar.Statement
import Phrasebook.Proofs.Pieces

/-!
The nodes of a tree with their ancestors.

Where nodes are laid out as they should be, two of them are apart, unless one is below the other.
-/
namespace Phrasebook

open Text (Stands)

namespace Node

/-- Induction on a tree: a node after its children. -/
@[elab_as_elim]
theorem childrenFirst {P : Node → Prop} (h : ∀ n, (∀ c ∈ n.children, P c) → P n) (n : Node) : P n :=
  h n fun c hc =>
    have := List.sizeOf_lt_of_mem hc
    childrenFirst h c
termination_by sizeOf n
decreasing_by
  cases n
  simp only [mk.sizeOf_spec] at this ⊢
  omega

variable {source : Text} {n c : Node} {ns : List Node} {m l : Located} {above : List (Node × Nat)}

theorem mem_locateAll {parent : Node} {k : Nat} : m ∈ locateAll parent above k ns ↔
    ∃ i, ∃ c : Node, ns[i]? = some c ∧ m ∈ c.locate ((parent, k + i) :: above) := by
  induction ns generalizing k with
  | nil => simp [locateAll]
  | cons n ns ih =>
    rw [locateAll, List.mem_append, ih]
    constructor
    · rintro (h | ⟨i, c, hc, h⟩)
      · exact ⟨0, n, rfl, h⟩
      · refine ⟨i + 1, c, hc, ?_⟩
        rwa [Nat.add_assoc, Nat.add_comm 1 i] at h
    · rintro ⟨i, c, hc, h⟩
      cases i with
      | zero =>
        cases hc
        exact .inl h
      | succ i =>
        refine .inr ⟨i, c, hc, ?_⟩
        rwa [Nat.add_assoc, Nat.add_comm 1 i]

theorem mem_locate : m ∈ n.locate above ↔
    m = ⟨n, above⟩ ∨ ∃ i, ∃ c : Node, n.children[i]? = some c ∧ m ∈ c.locate ((n, i) :: above) := by
  cases n
  rw [locate, List.mem_cons, mem_locateAll]
  simp

theorem locateAll_eq_flatMap {parent : Node} {k : Nat} : locateAll parent above k ns =
    (ns.zipIdx k).flatMap fun p => p.1.locate ((parent, p.2) :: above) := by
  induction ns generalizing k with
  | nil => rfl
  | cons n ns ih => rw [locateAll, ih, List.zipIdx_cons, List.flatMap_cons]

theorem self_mem_locate (n : Node) (above : List (Node × Nat)) : ⟨n, above⟩ ∈ n.locate above :=
  mem_locate.2 (.inl rfl)

/-- What holds of a node and passes from every node to its children holds of all below. -/
theorem forall_mem_locate {P : Node → Prop} (hstep : ∀ n c, P n → c ∈ n.children → P c)
    (hn : P n) : ∀ m ∈ n.locate above, P m.node := by
  induction n using childrenFirst generalizing above with
  | h n ih =>
    intro m hm
    rcases mem_locate.1 hm with rfl | ⟨i, c, hc, hm⟩
    · exact hn
    · have hmem := List.mem_of_getElem? hc
      exact ih c hmem (hstep n c hn hmem) m hm

/-- The ancestors of a node below another begin with those in between. -/
theorem suffix_of_mem_locate (hm : m ∈ n.locate above) : above <:+ m.above := by
  induction n using childrenFirst generalizing above with
  | h n ih =>
    rcases mem_locate.1 hm with rfl | ⟨i, c, hc, hm⟩
    · exact List.suffix_refl _
    · exact (List.suffix_cons _ _).trans (ih c (List.mem_of_getElem? hc) hm)

/-- A node below another has its parent there too. -/
theorem parent_of_mem_locate (hm : m ∈ n.locate above) : m = ⟨n, above⟩ ∨
    ∃ parent i rest, m.above = (parent, i) :: rest ∧ parent.children[i]? = some m.node ∧
      ⟨parent, rest⟩ ∈ n.locate above := by
  induction n using childrenFirst generalizing above with
  | h n ih =>
    rcases mem_locate.1 hm with rfl | ⟨i, c, hc, hm⟩
    · exact .inl rfl
    · rcases ih c (List.mem_of_getElem? hc) hm with rfl | ⟨parent, j, rest, habove, hchild, hmem⟩
      · exact .inr ⟨n, i, above, rfl, hc, self_mem_locate n above⟩
      · exact .inr ⟨parent, j, rest, habove, hchild, mem_locate.2 (.inr ⟨i, c, hc, hmem⟩)⟩

theorem locate_trans (hm : m ∈ n.locate above) (hl : l ∈ m.node.locate m.above) :
    l ∈ n.locate above := by
  induction n using childrenFirst generalizing above with
  | h n ih =>
    rcases mem_locate.1 hm with rfl | ⟨i, c, hc, hm⟩
    · exact hl
    · exact mem_locate.2 (.inr ⟨i, c, hc, ih c (List.mem_of_getElem? hc) hm⟩)

theorem Laid.of_mem_children (h : n.Laid source) (hc : c ∈ n.children) : c.Laid source :=
  (h.row.of_mem hc).1

theorem Laid.of_mem_locate (h : n.Laid source) (hm : m ∈ n.locate above) : m.node.Laid source :=
  forall_mem_locate (fun _ _ h hc => h.of_mem_children hc) h m hm

/-- What is below a node lies in it. -/
theorem Laid.contains (h : n.Laid source) (hm : m ∈ n.locate above) :
    n.span.start ≤ m.node.span.start ∧ m.node.span.stop ≤ n.span.stop := by
  induction n using childrenFirst generalizing above with
  | h n ih =>
    rcases mem_locate.1 hm with rfl | ⟨i, c, hc, hm⟩
    · exact ⟨Nat.le_refl _, Nat.le_refl _⟩
    · have hmem := List.mem_of_getElem? hc
      obtain ⟨hlaid, hstart, hstop⟩ := h.row.of_mem hmem
      obtain ⟨hstart', hstop'⟩ := ih c hmem hlaid hm
      omega

/-- Below an expression there are expressions only. -/
theorem Laid.isExpression_below (h : n.Laid source) (he : n.kind.isExpression = true) :
    ∀ m ∈ n.locate above, m.node.kind.isExpression = true := by
  intro m hm
  have hstep : ∀ n c : Node, n.Laid source ∧ n.kind.isExpression = true → c ∈ n.children →
      c.Laid source ∧ c.kind.isExpression = true := by
    intro n c ⟨h, he⟩ hc
    exact ⟨h.of_mem_children hc, h.fit.expressions (.inl he) c hc⟩
  exact (forall_mem_locate hstep ⟨h, he⟩ m hm).2

/-- Different places of a row are apart. -/
theorem Row.apart {lo hi i j : Nat} {a b : Node} (h : Row source lo hi ns) (ha : ns[i]? = some a)
    (hb : ns[j]? = some b) (hij : i < j) : a.span.stop ≤ b.span.start := by
  induction ns generalizing lo i j with
  | nil => simp at ha
  | cons n ns ih =>
    obtain ⟨-, -, hrow⟩ := row_cons.1 h
    cases j with
    | zero => omega
    | succ j =>
      cases i with
      | zero =>
        cases ha
        exact (hrow.of_mem (List.mem_of_getElem? hb)).2.1
      | succ i => exact ih hrow ha hb (by omega)

/-- Two nodes of a tree are apart, unless one is below the other. -/
theorem Laid.apart_or (h : n.Laid source) (hm : m ∈ n.locate above) (hl : l ∈ n.locate above) :
    m.node.span.Apart l.node.span ∨ m ∈ l.node.locate l.above ∨ l ∈ m.node.locate m.above := by
  induction n using childrenFirst generalizing above with
  | h n ih =>
    rcases mem_locate.1 hm with rfl | ⟨i, a, ha, hma⟩
    · exact .inr (.inr hl)
    · rcases mem_locate.1 hl with rfl | ⟨j, b, hb, hlb⟩
      · exact .inr (.inl hm)
      · have hlaid := h.of_mem_children (List.mem_of_getElem? ha)
        have hlaid' := h.of_mem_children (List.mem_of_getElem? hb)
        have hin := hlaid.contains hma
        have hin' := hlaid'.contains hlb
        rcases Nat.lt_trichotomy i j with hij | rfl | hij
        · have := h.row.apart ha hb hij
          exact .inl (.inl (by omega))
        · rw [ha] at hb
          cases hb
          exact ih a (List.mem_of_getElem? ha) hlaid hma hlb
        · have := h.row.apart hb ha hij
          exact .inl (.inr (by omega))

/-- A string literal has no node below it but itself. -/
theorem Laid.locate_string (h : n.Laid source) (hs : n.kind.isString = true) :
    n.locate above = [⟨n, above⟩] := by
  obtain ⟨kind, span, children⟩ := n
  cases kind with
  | string q =>
    obtain ⟨rfl, -⟩ := h.fit.quoted q rfl
    simp [locate, locateAll]
  | _ => simp [Kind.isString] at hs

theorem map_node_locateAll {parent : Node} {k : Nat}
    (h : ∀ c ∈ ns, ∀ above, (c.locate above).map (·.node) = c.preorder) :
    (locateAll parent above k ns).map (·.node) = preorderAll ns := by
  induction ns generalizing k with
  | nil => rfl
  | cons n ns ih =>
    rw [locateAll, preorderAll, List.map_append, h n List.mem_cons_self,
      ih fun c hc => h c (List.mem_cons_of_mem _ hc)]

theorem map_node_locate (n : Node) (above : List (Node × Nat)) :
    (n.locate above).map (·.node) = n.preorder := by
  induction n using childrenFirst generalizing above with
  | h n ih =>
    obtain ⟨kind, span, children⟩ := n
    rw [locate, preorder, List.map_cons, map_node_locateAll ih]

/-- A subtree has a string literal exactly if it locates one. -/
theorem hasString_iff : n.hasString = true ↔
    ∃ m ∈ n.locate above, m.node.kind.isString = true := by
  rw [hasString, ← map_node_locate n above, List.any_map, List.any_eq_true]
  simp

theorem nodup_locateAll {parent : Node} {k : Nat}
    (h : ∀ c ∈ ns, ∀ above, (c.locate above).Nodup) : (locateAll parent above k ns).Nodup := by
  induction ns generalizing k with
  | nil => simp [locateAll]
  | cons c ns ih =>
    rw [locateAll]
    refine List.nodup_append.2 ⟨h c List.mem_cons_self _,
      ih fun d hd => h d (List.mem_cons_of_mem _ hd), ?_⟩
    rintro m hm m' hm' rfl
    obtain ⟨i, d, -, hd⟩ := mem_locateAll.1 hm'
    -- The two places differ in the number that leads on from `parent`.
    have hsuffix := List.suffix_of_suffix_length_le (suffix_of_mem_locate hm)
      (suffix_of_mem_locate hd) (by simp)
    have heq := hsuffix.eq_of_length_le (by simp)
    simp only [List.cons.injEq, Prod.mk.injEq] at heq
    omega

/-- The places of a tree are all different. -/
theorem nodup_locate (n : Node) (above : List (Node × Nat)) : (n.locate above).Nodup := by
  induction n using childrenFirst generalizing above with
  | h n ih =>
    obtain ⟨kind, span, children⟩ := n
    rw [locate]
    refine List.nodup_cons.2 ⟨?_, nodup_locateAll ih⟩
    intro hmem
    obtain ⟨i, c, -, hc⟩ := mem_locateAll.1 hmem
    have := (suffix_of_mem_locate hc).length_le
    simp only [List.length_cons] at this
    omega

end Node

/-- A stream can be read from its beginning. -/
theorem Lexeme.Stream.ready {source : Text} {start : Nat} {ls : List Lexeme}
    (h : Stream source start ls) : Cursor.Ready source ⟨ls, 0⟩ := by
  obtain ⟨body, stop, hends, hopen⟩ := h.ends
  exact ⟨h.placed, h.order, fun l _ => Nat.zero_le _,
    Text.isBoundary_zero source, ⟨body, _, hends, rfl, hopen⟩, h.lined⟩

namespace Tree

variable {source : Text} {t : Tree}

/-- The tree of a whole text: its root covers the text, and all below it lie as they should. -/
theorem laid_of_ofScript (h : ofScript source = .ok t) :
    t.source = source ∧ t.range = ⟨0, Text.size source⟩ ∧ t.root.kind = .script ∧
      t.root.Laid source := by
  simp only [ofScript, ofRange, bind_ok_iff] at h
  obtain ⟨ls, hls, ⟨items, c⟩, hitems, h⟩ := h
  cases h
  obtain ⟨hon, hlaid⟩ := (Text.stream_of_lexemes_self hls).ready.statements hitems
  have hle : c.lastEnd ≤ Text.size source := by
    obtain ⟨a, b, rfl, hsize⟩ := Text.isBoundary_iff.1 hon.ready.reached
    simp only [Text.size_append]
    omega
  have hroot := Node.items_compound (k := .script) rfl rfl rfl (by simp)
    (hlaid.mono (Nat.zero_le _) hle)
  exact ⟨rfl, rfl, rfl, (Node.row_single.1 hroot.row).2.1⟩

end Tree

end Phrasebook
