import Phrasebook.Proofs.Rescan
import Phrasebook.Proofs.WellFormed
import Phrasebook.Proofs.Writing

/-!
Another content for string literals.

Where the literals of a script get other contents that need no escapes, between their old quotes, the
result is a script with the same tree, in which every place has moved by what was gained before it
(`Tree.replaceSpans_swaps`).
-/
namespace Phrasebook

open Text (Stands size Recast outside)

namespace Text

variable {f : Nat → Nat} {ls : List Lexeme} {pos pos' : Nat} {t t' : Text}

/-- A part in front that is the same on both sides. -/
theorem Recast.append (gap : Text) (h : Recast f ls (pos + size gap) (pos' + size gap) t t')
    (hf : ∀ x, pos ≤ x → x < pos + size gap → f x = pos' + (x - pos)) :
    Recast f ls pos pos' (gap ++ t) (gap ++ t') := by
  induction gap generalizing pos pos' with
  | nil => exact h
  | cons c gap ih =>
    have hsize (n : Nat) : n + c.utf8Size + size gap = n + size (c :: gap) := by
      rw [size, Nat.add_assoc]
    have hpos := c.utf8Size_pos
    have hplace : f pos = pos' := by
      rw [hf pos (Nat.le_refl _) (by rw [← hsize]; omega), Nat.sub_self, Nat.add_zero]
    refine .char hplace c (ih (by rwa [hsize, hsize]) ?_)
    intro x hle hlt
    rw [hsize] at hlt
    rw [hf x (by omega) hlt]
    omega

end Text

namespace Piece

variable {ps qs rs : List Piece} {p : Piece} {es : List Edit} {ls : List Lexeme}

/-- Where a place among pieces is when the edits before it are made. -/
theorem shifted_edits (hp : es.Perm (edits 0 (rs ++ qs))) {x : Nat}
    (hle : size (weave old [] rs) ≤ x)
    (hlt : ∀ e ∈ edits (size (weave old [] rs)) qs, x < e.span.stop) :
    Script.shifted es x = size (weave written [] rs) + (x - size (weave old [] rs)) := by
  have hshift := shift_edits x hp (by omega) (by simpa using hlt)
  rw [Script.shifted, hshift]
  omega

/-- A site with a string literal, for which one with another content is written. -/
def Quoted (ls : List Lexeme) (p : Piece) (span : Span) : Prop :=
  ∃ q content content', Quoting.Proper q ∧ (∀ more, q.Encloses content' more) ∧
    p.old = q.wrap content ∧ p.new = some (q.wrap content') ∧
    (⟨.str q, span, q.wrap content⟩ : Lexeme) ∈ ls

theorem Quoted.old_ne_nil {span : Span} (h : Quoted ls p span) : p.old ≠ [] := by
  obtain ⟨q, content, _, hproper, -, hold, -⟩ := h
  rw [hold]
  exact hproper.wrap_ne_nil content

theorem lt_stop_of_mem_edits {e : Edit} {pos : Nat} (ho : p.old ≠ [])
    (he : e ∈ edits pos (p :: qs)) : pos + size p.gap < e.span.stop := by
  have hold := Text.size_pos ho
  rcases List.mem_cons.1 (span_mem_of_mem_edits he) with h | h
  · rw [h]
    simp only
    omega
  · have := le_start_of_mem_spans h
    omega

/-- From between two pieces on, the text after the edits is the text before them with other contents
in literals. -/
theorem recast_weave (tail : Text) (hp : es.Perm (edits 0 (rs ++ qs)))
    (hq : List.Forall₂ (Quoted ls) qs (spans old (size (weave old [] rs)) qs)) :
    Recast (Script.shifted es) ls (size (weave old [] rs)) (size (weave written [] rs))
      (weave old tail qs) (weave written tail qs) := by
  induction qs generalizing rs with
  | nil =>
    have hf (x : Nat) (hle : size (weave old [] rs) ≤ x) := shifted_edits hp hle (by simp [edits])
    have hend : Recast (Script.shifted es) ls (size (weave old [] rs) + size tail)
        (size (weave written [] rs) + size tail) [] [] := by
      refine .nil ?_
      rw [hf _ (Nat.le_add_right _ _)]
      omega
    simpa [weave] using hend.append tail fun x hle _ => hf x hle
  | cons p qs ih =>
    rw [spans, List.forall₂_cons] at hq
    obtain ⟨hfirst, hq⟩ := hq
    have hlt {e : Edit} (he : e ∈ edits (size (weave old [] rs)) (p :: qs)) :=
      lt_stop_of_mem_edits hfirst.old_ne_nil he
    obtain ⟨q, content, content', hproper, hencloses, hold, hnew, hl⟩ := hfirst
    have hwritten : p.written = q.wrap content' := by rw [written, hnew, Option.getD_some]
    have hrest := @ih (rs ++ [p]) (by simpa using hp) (by rwa [size_weave_concat])
    rw [size_weave_concat, size_weave_concat, hold, hwritten] at hrest
    rw [hold] at hl
    rw [weave, weave, hold, hwritten, List.append_assoc, List.append_assoc]
    refine Recast.append p.gap (.literal ?_ hproper hencloses hl hrest) fun x hle hx => ?_
    · rw [shifted_edits hp (Nat.le_add_right _ _) fun e he => hlt he]
      omega
    · exact shifted_edits hp hle fun e he => Nat.lt_trans hx (hlt he)

/-- The sites of pieces move by what is gained before their ends. -/
theorem map_moved_spans (hp : es.Perm (edits 0 (rs ++ qs)))
    (hq : List.Forall₂ (Quoted ls) qs (spans old (size (weave old [] rs)) qs)) :
    (spans old (size (weave old [] rs)) qs).map (Span.moved (Script.shifted es)) =
      spans written (size (weave written [] rs)) qs := by
  induction qs generalizing rs with
  | nil => rfl
  | cons p qs ih =>
    rw [spans, List.forall₂_cons] at hq
    obtain ⟨hfirst, hq⟩ := hq
    have hp' : es.Perm (edits 0 ((rs ++ [p]) ++ qs)) := by simpa using hp
    rw [← size_weave_concat] at hq
    have hstart := shifted_edits hp (Nat.le_add_right _ (size p.gap)) fun e he =>
      lt_stop_of_mem_edits hfirst.old_ne_nil he
    have hstop := (recast_weave [] hp' hq).place
    have hrest := ih hp' hq
    rw [size_weave_concat, size_weave_concat] at hstop hrest
    simp only [spans, List.map_cons, hrest, Span.moved, hstop, hstart]
    simp

end Piece

/-- The cell with its span carried over. -/
def Cell.moved (f : Nat → Nat) (c : Cell) : Cell := { c with span := c.span.moved f }

namespace Node

variable {f : Nat → Nat} {ns : List Node} {parent : Option Nat}

theorem countAll_map_of (h : ∀ c ∈ ns, (c.moved f).count = c.count) :
    countAll (ns.map (moved f)) = countAll ns := by
  induction ns with
  | nil => rfl
  | cons n ns ih =>
    rw [List.map_cons, countAll, countAll, h n List.mem_cons_self,
      ih fun c hc => h c (List.mem_cons_of_mem _ hc)]

@[simp]
theorem count_moved (n : Node) : (n.moved f).count = n.count := by
  induction n using childrenFirst with
  | h n ih =>
    obtain ⟨kind, span, children⟩ := n
    rw [moved_mk, count, count, countAll_map_of ih]

theorem roots_map_moved (first : Nat) (ns : List Node) :
    roots first (ns.map (moved f)) = roots first ns := by
  induction ns generalizing first with
  | nil => rfl
  | cons n ns ih => rw [List.map_cons, roots, roots, count_moved, ih]

theorem cellsAll_map_of (first : Nat)
    (h : ∀ c ∈ ns, ∀ p first, (c.moved f).cells p first = (c.cells p first).map (Cell.moved f)) :
    cellsAll parent first (ns.map (moved f)) = (cellsAll parent first ns).map (Cell.moved f) := by
  induction ns generalizing first with
  | nil => rfl
  | cons n ns ih =>
    rw [List.map_cons, cellsAll, cellsAll, List.map_append, h n List.mem_cons_self, count_moved,
      ih _ fun c hc => h c (List.mem_cons_of_mem _ hc)]

/-- The cells of a tree that is carried over. -/
theorem cells_moved (n : Node) (parent : Option Nat) (first : Nat) :
    (n.moved f).cells parent first = (n.cells parent first).map (Cell.moved f) := by
  induction n using childrenFirst generalizing parent first with
  | h n ih =>
    obtain ⟨kind, span, children⟩ := n
    rw [moved_mk, cells, cells, List.map_append, cellsAll_map_of first ih, roots_map_moved,
      countAll_map_of fun c _ => count_moved c]
    rfl

theorem cellsAll_perm_of (first : Nat) (h : ∀ c ∈ ns, ∀ p first,
      ((c.cells p first).map fun x => (x.kind, x.span)).Perm
        (c.preorder.map fun m => (m.kind, m.span))) :
    ((cellsAll parent first ns).map fun x => (x.kind, x.span)).Perm
      ((preorderAll ns).map fun m => (m.kind, m.span)) := by
  induction ns generalizing first with
  | nil => exact .nil
  | cons n ns ih =>
    rw [cellsAll, preorderAll, List.map_append, List.map_append]
    exact (h n List.mem_cons_self _ _).append (ih _ fun c hc => h c (List.mem_cons_of_mem _ hc))

/-- The cells of a tree are those of its nodes. -/
theorem cells_perm (n : Node) (parent : Option Nat) (first : Nat) :
    ((n.cells parent first).map fun x => (x.kind, x.span)).Perm
      (n.preorder.map fun m => (m.kind, m.span)) := by
  induction n using childrenFirst generalizing parent first with
  | h n ih =>
    obtain ⟨kind, span, children⟩ := n
    rw [cells, preorder, List.map_append, List.map_cons]
    exact (List.perm_append_singleton _ _).trans ((cellsAll_perm_of first ih).cons _)

end Node

namespace Tree

open Node

variable {source : Text} {t : Tree}

theorem arena_moved {f : Nat → Nat} {t' : Tree} (h : t'.root = t.root.moved f) :
    t'.arena = t.arena.map (Cell.moved f) := by
  rw [arena_eq, arena_eq, h, cells_moved]

/-- Two string literals of a script are apart. -/
theorem strings_apart_arena (h : ofScript source = .ok t) {i j : Nat} {a b : Cell}
    (ha : t.arena[i]? = some a) (hb : t.arena[j]? = some b) (hij : i ≠ j)
    (hsa : a.kind.isString = true) (hsb : b.kind.isString = true) : a.span.Apart b.span := by
  obtain ⟨-, -, -, hlaid⟩ := laid_of_ofScript h
  have hlocated : (t.root.locate []).Pairwise fun m l =>
      m.node.kind.isString = true → l.node.kind.isString = true →
        m.node.span.Apart l.node.span := by
    refine (nodup_locate t.root []).imp_of_mem ?_
    intro m l hm hl hne hsm hsl
    exact Finds.strings_apart (n := ⟨t.root, []⟩) hlaid hm hsm hl hsl hne
  have hnodes : (t.root.preorder.map fun m => (m.kind, m.span)).Pairwise fun x y =>
      x.1.isString = true → y.1.isString = true → x.2.Apart y.2 := by
    rw [← map_node_locate t.root [], List.map_map]
    exact List.pairwise_map.2 hlocated
  have hcells := ((t.root.cells_perm none 0).pairwise_iff fun hxy hy hx => (hxy hx hy).symm).2 hnodes
  rw [← arena_eq, List.pairwise_map, List.pairwise_iff_getElem] at hcells
  obtain ⟨hi, rfl⟩ := List.getElem?_eq_some_iff.1 ha
  obtain ⟨hj, rfl⟩ := List.getElem?_eq_some_iff.1 hb
  rcases Nat.lt_or_gt_of_ne hij with hlt | hlt
  · exact hcells i j hi hj hlt hsa hsb
  · exact (hcells j i hj hi hlt hsb hsa).symm

/-- The spans and the quotes of the strings among lexemes. -/
def literalsOf (ls : List Lexeme) : Set (Span × Quoting) :=
  {x | ∃ l ∈ ls, l.span = x.1 ∧ l.kind = .str x.2}

/-- A literal stands at a span of the text and is among the lexemes. -/
structure IsLiteral (source : Text) (ls : List Lexeme) (span : Span) (q : Quoting)
    (content : Text) : Prop where
  proper : q.Proper
  encloses : ∃ rest, q.Encloses content rest
  stands : Stands source span (q.wrap content)
  mem : (⟨.str q, span, q.wrap content⟩ : Lexeme) ∈ ls

theorem exists_literal {s : Scanner} (hs : (Scanner.fresh source 0).run none = .ok s) {span : Span}
    {q : Quoting} (h : (span, q) ∈ literalsOf (s.finish s.pos)) :
    ∃ content, IsLiteral source s.out span q content := by
  obtain ⟨l, hl, rfl, hkind⟩ := h
  have hkind : l.kind = .str q := hkind
  have hsolid : l.kind.isSolid = true := by
    rw [hkind]
    rfl
  have hout := Scanner.mem_out_of_mem_finish hl hsolid
  have hplaced := ((Scanner.sound_fresh [] source []).run hs).1.placed l hout
  rcases (Scanner.adds_of_run hs).new l hout hsolid with hnil | ⟨-, text, rest, hread⟩
  · cases hnil
  · rw [hkind] at hread
    obtain ⟨hproper, content, htext, hencloses⟩ := Lexeme.encloses_of_read hread
    refine ⟨content, hproper, ⟨rest, hencloses⟩, ?_, ?_⟩
    · have hstands := (hplaced.stands hsolid).1
      rw [htext] at hstands
      simpa using hstands
    · rw [← hkind, ← htext]
      exact hout

/-- The string literals of a script are strings among its lexemes. -/
theorem literals_of_ofScript (h : ofScript source = .ok t) :
    ∃ s, (Scanner.fresh source 0).run none = .ok s ∧ ∀ n ∈ t.root.preorder, ∀ q,
      n.kind = .string q → ∃ content, IsLiteral source s.out n.span q content := by
  obtain ⟨ls, items, c, hls, hitems, ht⟩ := ofRange_eq_ok h
  obtain ⟨s, hs, -, rfl⟩ := Text.lexemes_self_eq_ok_iff.1 hls
  let φ : Shift := ⟨id, Set.univ, literalsOf (s.finish s.pos), strictMonoOn_id⟩
  have halike : List.Forall₂ (Lexeme.Alike φ) (s.finish s.pos) (s.finish s.pos) :=
    List.forall₂_same.2 fun l hl =>
      ⟨⟨rfl, rfl, fun _ => rfl⟩, trivial, trivial, fun q hq => ⟨l, hl, rfl, hq⟩⟩
  obtain ⟨items', -, -, hall⟩ := Cursor.exists_statements hitems halike
    (Text.stream_of_lexemes_self hls).closed rfl
  refine ⟨s, hs, fun n hn q hq => ?_⟩
  rw [ht, preorder] at hn
  rcases List.mem_cons.1 hn with rfl | hn
  · cases hq
  · exact exists_literal hs ((hall.formed n hn).literal q hq)

/-- A cell of the arena shows a node of the tree. -/
theorem exists_node_of_mem_arena {cell : Cell} (h : cell ∈ t.arena) :
    ∃ n ∈ t.root.preorder, cell.kind = n.kind ∧ cell.span = n.span := by
  obtain ⟨i, hi, rfl⟩ := List.mem_iff_getElem.1 h
  obtain ⟨n, hn, p, hp⟩ := t.exists_shows hi
  obtain ⟨hkind, hspan, -⟩ := of_shows hp (List.getElem?_eq_getElem hi)
  exact ⟨n, hn, hkind, hspan⟩

/-- A string among the lexemes of a text and any of them are the same or apart. -/
theorem eq_or_apart {start : Nat} {ls : List Lexeme} (h : Lexeme.Stream source start ls)
    {l m : Lexeme} (hl : l ∈ ls) (hm : m ∈ ls) (hsolid : m.kind.isSolid = true) :
    l = m ∨ l.span.Apart m.span := by
  obtain ⟨i, hi, rfl⟩ := List.mem_iff_getElem.1 hl
  obtain ⟨j, hj, rfl⟩ := List.mem_iff_getElem.1 hm
  have horder := List.pairwise_iff_getElem.1 h.order
  rcases Nat.lt_trichotomy i j with hij | rfl | hij
  · exact .inr (.inl (horder i j hi hj hij (.inr hsolid)))
  · exact .inl rfl
  · exact .inr (.inr (horder j i hj hi hij (.inl hsolid)))

/-- Lexemes begin and end outside of strings. -/
theorem mem_outside {s : Scanner} (hls : source.lexemes ⟨0, size source⟩ = .ok (s.finish s.pos))
    {l : Lexeme} (hl : l ∈ s.finish s.pos) :
    l.span.start ∈ outside s.out 0 source ∧ l.span.stop ∈ outside s.out 0 source := by
  have hstream := Text.stream_of_lexemes_self hls
  have hle := (hstream.placed l hl).le
  obtain ⟨⟨hstart, -⟩, ⟨hstop, -⟩⟩ := Text.edges_of_lexemes [] source []
    (by simpa [size] using hls) l hl
  simp only [List.nil_append, List.append_nil] at hstart hstop
  have hapart : ∀ m ∈ s.out, ∀ q, m.kind = .str q → l = m ∨ l.span.Apart m.span := by
    intro m hm q hq
    exact eq_or_apart hstream hl (Scanner.mem_finish hm) (by rw [hq]; rfl)
  refine ⟨⟨Nat.zero_le _, hstart, fun m hm q hq => ?_⟩, ⟨Nat.zero_le _, hstop, fun m hm q hq => ?_⟩⟩
  · rcases hapart m hm q hq with rfl | h | h
    · exact .inl (Nat.le_refl _)
    · exact .inl (Nat.le_trans hle h)
    · exact .inr h
  · rcases hapart m hm q hq with rfl | h | h
    · exact .inr (Nat.le_refl _)
    · exact .inl h
    · exact .inr (Nat.le_trans h hle)

/-- A script with other contents in literals has the same tree, in other places. -/
theorem exists_moved_of_recast {f : Nat → Nat} {source' : Text} {s : Scanner}
    (h : ofScript source = .ok t) (hs : (Scanner.fresh source 0).run none = .ok s)
    (hr : Recast f s.out 0 0 source source') :
    ∃ t', ofScript source' = .ok t' ∧ t'.source = source' ∧ t'.root = t.root.moved f := by
  obtain ⟨ls, items, c, hls, hitems, rfl⟩ := ofRange_eq_ok h
  obtain ⟨s₁, hs₁, -, rfl⟩ := Text.lexemes_self_eq_ok_iff.1 hls
  cases hs.symm.trans hs₁
  obtain ⟨ls', hls', hmoved⟩ := hr.lexemes hs
  have hzero : 0 ∈ outside s.out 0 source :=
    ⟨Nat.le_refl _, Text.isBoundary_zero source, fun _ _ _ _ => .inl (Nat.zero_le _)⟩
  let φ : Shift :=
    { carry := f
      places := outside s.out 0 source
      literals := literalsOf (s.finish s.pos)
      mono := by
        rw [Set.insert_eq_of_mem hzero]
        exact hr.strictMonoOn.1 }
  have halike : List.Forall₂ (Lexeme.Alike φ) (s.finish s.pos) ls' := by
    have hmem := (List.forall₂_and_left (p := (· ∈ s.finish s.pos)) _ _).2 ⟨fun _ hl => hl, hmoved⟩
    refine hmem.imp fun l l' ⟨hl, hm⟩ => ?_
    exact ⟨hm, (mem_outside hls hl).1, (mem_outside hls hl).2, fun q hq => ⟨l, hl, rfl, hq⟩⟩
  obtain ⟨items', c', hitems', hall⟩ := Cursor.exists_statements hitems halike
    (Text.stream_of_lexemes_self hls).closed hr.place
  have hspan : (⟨0, size source'⟩ : Span) = Span.moved f ⟨0, size source⟩ := by
    have hend := hr.place_end
    simp only [Nat.zero_add] at hend
    simp only [Span.moved, hr.place, hend]
  refine ⟨⟨source', ⟨0, size source'⟩, ⟨.script, ⟨0, size source'⟩, items'⟩⟩, ?_, rfl, ?_⟩
  · simp only [ofScript, ofRange, bind_ok_iff]
    exact ⟨ls', hls', (items', c'), hitems', rfl⟩
  · rw [moved_mk, hspan, hall.eq_map]

/-- An edit that leaves the quotes of a literal and puts another content between them, which they
enclose whatever comes next. -/
def Requotes (source : Text) (ls : List Lexeme) (e : Edit) : Prop :=
  ∃ q content content', IsLiteral source ls e.span q content ∧ e.text = q.wrap content' ∧
    ∀ more, q.Encloses content' more

section

variable {es : List Edit} {s : Scanner} (hes : ∀ e ∈ es, Requotes source s.out e)

include hes

theorem stands_of_requotes : ∀ x ∈ es.map (·.span), x.start < x.stop ∧ ∃ m, Stands source x m := by
  refine List.forall_mem_map.2 fun e he => ?_
  obtain ⟨q, content, -, hliteral, -⟩ := hes e he
  exact ⟨hliteral.stands.lt_iff.2 (hliteral.proper.wrap_ne_nil content), _, hliteral.stands⟩

theorem spans_ne_of_requotes (hapart : (es.map (·.span)).Pairwise Span.Apart) :
    es.Pairwise fun a b => a.span ≠ b.span :=
  Edit.pairwise_span_ne hapart fun _ he => (stands_of_requotes hes _ (List.mem_map_of_mem he)).1

/-- The pieces of the text at the literals that are edited have other contents. -/
theorem quoted_of_pieces {ps : List Piece} {tail : Text}
    (hapart : (es.map (·.span)).Pairwise Span.Apart)
    (hsource : source = Piece.weave Piece.old tail ps)
    (hspans : (Piece.spans Piece.old 0 ps).Perm (es.map (·.span)))
    (hnew : ps.map Piece.new = (Piece.spans Piece.old 0 ps).map fun x =>
      (es.find? (·.span == x)).map (·.text)) :
    List.Forall₂ (Piece.Quoted s.out) ps (Piece.spans Piece.old 0 ps) := by
  have hstands := Piece.stands_weave Piece.old [] ps tail
  rw [List.nil_append, ← hsource] at hstands
  rw [← List.forall₂_eq_eq_eq, List.forall₂_map_left_iff, List.forall₂_map_right_iff] at hnew
  refine List.forall₂_iff_get.2 ⟨hstands.length_eq, fun k hk hk' => ?_⟩
  have hp := (List.forall₂_iff_get.1 hstands).2 k hk hk'
  have hn := (List.forall₂_iff_get.1 hnew).2 k hk hk'
  obtain ⟨e, he, hspan⟩ := List.mem_map.1 (hspans.subset (List.get_mem _ ⟨k, hk'⟩))
  have hfind := Edit.find?_span_eq (spans_ne_of_requotes hes hapart) he
  obtain ⟨q, content, content', hliteral, htext, hencloses⟩ := hes e he
  rw [← hspan] at hn ⊢
  refine ⟨q, content, content', hliteral.proper, hencloses, ?_, ?_, hliteral.mem⟩
  · exact Text.Stands.unique hp (hspan ▸ hliteral.stands)
  · rw [hn, hfind, Option.map_some, htext]

/-- What edits of literals make of a script: it differs in the contents of literals only, and what was
written is found where the literals have moved. -/
theorem exists_recast (h : ofScript source = .ok t) (hapart : (es.map (·.span)).Pairwise Span.Apart) :
    ∃ x, Edit.applyAll source es = .ok x ∧
      Recast (Script.shifted es) s.out 0 0 source x ∧
      t.replaceSpans es = (ofScript x).mapError (Fault.ofParseError x) ∧
      ∀ e ∈ es, Stands x (e.span.moved (Script.shifted es)) e.text := by
  obtain ⟨rfl, -⟩ := laid_of_ofScript h
  have hstands := stands_of_requotes hes
  have hne := spans_ne_of_requotes hes hapart
  have hmem : ∀ e ∈ es, e.span ∈ es.map (·.span) := fun e he => List.mem_map_of_mem he
  obtain ⟨ps, tail, hsource, hold, hspans, hperm, hnew⟩ :=
    Edit.exists_pieces_of_edits hapart hstands hmem hne
  have hquoted := quoted_of_pieces hes hapart hsource hspans hnew
  have hperm₀ : es.Perm (Piece.edits 0 ([] ++ ps)) := hperm
  obtain ⟨x, hx, hreplace⟩ := replaceSpans_eq h hapart hstands hmem hne
  obtain ⟨y, hy, -, hafter, -⟩ := Edit.exists_applyAll hapart hstands hmem hne
  cases hx.symm.trans hy
  refine ⟨x, hx, ?_, hreplace, fun e he => ?_⟩
  · rw [Piece.applyAll_eq hsource hold hperm] at hx
    cases hx
    rw [hsource]
    exact Piece.recast_weave tail hperm₀ hquoted
  · have hmoved : Script.remap es e.span = e.span.moved (Script.shifted es) := by
      have hmaps := (Piece.map_remap_spans hold hperm).trans
        (Piece.map_moved_spans hperm₀ hquoted).symm
      exact List.map_inj_left.1 hmaps _ (hspans.symm.subset (hmem e he))
    obtain ⟨m, hm⟩ := (hstands e.span (hmem e he)).2
    have hthere := hafter e.span (hmem e he) m hm
    rwa [Edit.textAfter, Edit.find?_span_eq hne he, hmoved] at hthere

end

/-- A string literal of a tree, by its place in the table of nodes, and another content for it that
needs no escapes. -/
structure Swap (t : Tree) where
  id : Nat
  cell : Cell
  quoting : Quoting
  content : Text
  found : t.arena[id]? = some cell
  isLiteral : cell.kind = .string quoting
  holds : quoting.Holds content

/-- The replacement of the literal by one with the new content between the same quotes. -/
def Swap.edit (w : t.Swap) : Edit := ⟨w.cell.span, w.quoting.wrap w.content⟩

theorem swaps_apart (h : ofScript t.source = .ok t) {swaps : List t.Swap}
    (hone : swaps.Pairwise fun a b => a.id ≠ b.id) :
    ((swaps.map Swap.edit).map (·.span)).Pairwise Span.Apart := by
  rw [List.map_map]
  refine List.pairwise_map.2 (hone.imp fun {a b} hab => ?_)
  refine strings_apart_arena h a.found b.found hab ?_ ?_
  · rw [a.isLiteral]
    rfl
  · rw [b.isLiteral]
    rfl

/-- What the edits of swaps make of a script: it differs in the contents of literals only, and the new
contents are found where these have moved. -/
theorem exists_recast_of_swaps (h : ofScript t.source = .ok t) (swaps : List t.Swap)
    (hone : swaps.Pairwise fun a b => a.id ≠ b.id) {f : Nat → Nat}
    (hf : f = Script.shifted (swaps.map Swap.edit)) :
    ∃ s x, (Scanner.fresh t.source 0).run none = .ok s ∧ Recast f s.out 0 0 t.source x ∧
      t.replaceSpans (swaps.map Swap.edit) = (ofScript x).mapError (Fault.ofParseError x) ∧
      ∀ w ∈ swaps, Stands x (w.cell.span.moved f) (w.quoting.wrap w.content) := by
  subst hf
  obtain ⟨s, hs, hnodes⟩ := literals_of_ofScript h
  have hes : ∀ e ∈ swaps.map Swap.edit, Requotes t.source s.out e := by
    refine List.forall_mem_map.2 fun w _ => ?_
    obtain ⟨n, hn, hkind, hspan⟩ := exists_node_of_mem_arena (List.mem_of_getElem? w.found)
    obtain ⟨content, hliteral⟩ := hnodes n hn w.quoting (hkind.symm.trans w.isLiteral)
    rw [← hspan] at hliteral
    exact ⟨w.quoting, content, w.content, hliteral, rfl, w.holds.encloses hliteral.proper⟩
  obtain ⟨x, -, hrecast, hreplace, hthere⟩ := exists_recast hes h (swaps_apart h hone)
  exact ⟨s, x, hs, hrecast, hreplace, fun w hw => hthere w.edit (List.mem_map_of_mem hw)⟩

/-- Where literals get other contents between their quotes, the tree stays and its places move. -/
theorem replaceSpans_swaps (h : ofScript source = .ok t) (swaps : List t.Swap)
    (hone : swaps.Pairwise fun a b => a.id ≠ b.id) :
    ∃ t', t.replaceSpans (swaps.map Swap.edit) = .ok t' ∧
      t'.arena = t.arena.map (Cell.moved (Script.shifted (swaps.map Swap.edit))) ∧
      ∀ w ∈ swaps, ∃ cell, t'.arena[w.id]? = some cell ∧
        cell.node.content? t'.source = some w.content := by
  obtain ⟨rfl, -⟩ := laid_of_ofScript h
  obtain ⟨s, x, hs, hrecast, hreplace, hstands⟩ := exists_recast_of_swaps h swaps hone rfl
  obtain ⟨t', ht', rfl, hroot⟩ := exists_moved_of_recast h hs hrecast
  have harena := arena_moved hroot
  refine ⟨t', ?_, harena, fun w hw => ?_⟩
  · rw [hreplace, ht']
    rfl
  · refine ⟨w.cell.moved (Script.shifted (swaps.map Swap.edit)), ?_, ?_⟩
    · rw [harena, List.getElem?_map, w.found]
      rfl
    · exact Node.content?_eq w.isLiteral (hstands w hw)

/-- Two literals in one call, the later one first: a line break comes in, and a longer character. -/
theorem replaceSpans_swaps_call :
    ∃ t, ofScript (Text.of "if é:\n\tsay(\"a\" + r'b', \"\"\"c\"\"\")\n") = .ok t ∧
      ∃ swaps : List t.Swap, swaps.map (fun w => (w.id, w.content)) =
          [(5, Text.of "one\n'two'"), (2, Text.of "é")] ∧
        ∃ t', t.replaceSpans (swaps.map Swap.edit) = .ok t' ∧
          t'.arena = t.arena.map (Cell.moved (Script.shifted (swaps.map Swap.edit))) ∧
          ∀ w ∈ swaps, ∃ cell, t'.arena[w.id]? = some cell ∧
            cell.node.content? t'.source = some w.content := by
  have hok : (ofScript (Text.of "if é:\n\tsay(\"a\" + r'b', \"\"\"c\"\"\")\n")).toOption.any
      (fun t => decide (t.arena[2]? = some ⟨.string ⟨[], Text.of "\""⟩, ⟨12, 15⟩, some 4, []⟩ ∧
        t.arena[5]? = some ⟨.string ⟨[], Text.of "\"\"\""⟩, ⟨24, 31⟩, some 6, []⟩)) = true := by
    decide +kernel
  obtain ⟨t, h, hcells⟩ := exists_ok_of_any hok
  obtain ⟨hfirst, hsecond⟩ := of_decide_eq_true hcells
  let first : t.Swap := ⟨2, _, _, Text.of "é", hfirst, rfl, by decide, by simp [Text.of]⟩
  let second : t.Swap := ⟨5, _, _, Text.of "one\n'two'", hsecond, rfl, by decide,
    by simp [Text.of]⟩
  have hone : [second, first].Pairwise fun a b => a.id ≠ b.id := by simp [first, second]
  exact ⟨t, h, [second, first], rfl, replaceSpans_swaps h [second, first] hone⟩

end Tree

end Phrasebook
