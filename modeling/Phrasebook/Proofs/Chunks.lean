import Phrasebook.Proofs.FunctionLines
import Phrasebook.Proofs.Sites
import Phrasebook.Proofs.WellFormed

/-!
The sites of a script that is parsed function by function.

Chunks follow one another in the text, so the sites of all of them are apart, as those of one are. By
`Script.spread_of_parseChunks` the items of such a script have nothing in common.
-/
namespace Phrasebook

open Text (Stands size isBoundary)

theorem Text.flatten_linesWithBreaks (t : Text) : t.linesWithBreaks.flatten = t := by
  induction t with
  | nil => rfl
  | cons c r ih =>
    rw [linesWithBreaks]
    split
    · rw [List.flatten_cons, ih]
      rfl
    · split
      · next hlines =>
        rw [hlines] at ih
        rw [← ih]
        rfl
      · next line more hlines =>
        rw [hlines, List.flatten_cons] at ih
        rw [← ih]
        rfl

namespace Chunk

variable {source : Text} {name : Option Text} {start pos : Nat}

/-- Chunks one after the other, from a place on, that are cut between characters. -/
structure InOrder (source : Text) (start : Nat) (chunks : List Chunk) : Prop where
  order : chunks.Pairwise fun a b => a.range.stop ≤ b.range.start
  behind : ∀ c ∈ chunks, start ≤ c.range.start
  cut : ∀ c ∈ chunks, c.range.start ≤ c.range.stop ∧
    isBoundary c.range.start source = true ∧ isBoundary c.range.stop source = true

theorem inOrder_close (hstart : isBoundary start source = true)
    (hpos : isBoundary pos source = true) : InOrder source start (close name start pos) := by
  rw [close]
  split
  · next hlt =>
    refine ⟨List.pairwise_singleton _ _, ?_, ?_⟩ <;> intro c hc <;> cases List.mem_singleton.1 hc
    · exact Nat.le_refl _
    · exact ⟨Nat.le_of_lt hlt, hstart, hpos⟩
  · exact ⟨.nil, by simp, by simp⟩

theorem InOrder.append {cs ds : List Chunk} (h : InOrder source start cs)
    (hstop : ∀ c ∈ cs, c.range.stop ≤ pos) (hle : start ≤ pos) (h' : InOrder source pos ds) :
    InOrder source start (cs ++ ds) := by
  refine ⟨?_, ?_, ?_⟩
  · refine List.pairwise_append.2 ⟨h.order, h'.order, ?_⟩
    intro c hc d hd
    exact Nat.le_trans (hstop c hc) (h'.behind d hd)
  · intro c hc
    rcases List.mem_append.1 hc with hc | hc
    · exact h.behind c hc
    · exact Nat.le_trans hle (h'.behind c hc)
  · intro c hc
    rcases List.mem_append.1 hc with hc | hc
    · exact h.cut c hc
    · exact h'.cut c hc

theorem stop_le_of_mem_close {c : Chunk} (h : c ∈ close name start pos) : c.range.stop ≤ pos := by
  rw [close] at h
  split at h
  · cases List.mem_singleton.1 h
    exact Nat.le_refl _
  · cases h

/-- By induction on the lines, where a chunk has been open since `start`. -/
theorem inOrder_ofLines (before : Text) (lines : List Text)
    (hsource : source = before ++ lines.flatten) (hstart : isBoundary start source = true)
    (hle : start ≤ size before) :
    InOrder source start (ofLines name start (size before) lines) := by
  induction lines generalizing name start before with
  | nil =>
    exact inOrder_close hstart (Text.isBoundary_iff.2 ⟨before, [], hsource, rfl⟩)
  | cons line lines ih =>
    have hpos : isBoundary (size before) source = true :=
      Text.isBoundary_iff.2 ⟨before, _, hsource, rfl⟩
    have hrest : source = (before ++ line) ++ lines.flatten := by simp [hsource]
    rw [ofLines, ← Text.size_append]
    split
    · exact ih (before ++ line) hrest hstart (by simp; omega)
    · refine (inOrder_close hstart hpos).append ?_ hle (ih (before ++ line) hrest hpos (by simp))
      exact fun c hc => stop_le_of_mem_close hc

theorem inOrder_ofText (source : Text) : InOrder source 0 (ofText source) := by
  rw [ofText_eq]
  refine inOrder_ofLines [] source.linesWithBreaks ?_ ?_ (Nat.le_refl _)
  · rw [List.nil_append, Text.flatten_linesWithBreaks]
  · exact Text.isBoundary_zero source

end Chunk

/-- The tree of a range between characters. -/
theorem Tree.rooted_of_ofRange {source : Text} {range : Span} {t : Tree}
    (h : ofRange source range = .ok t) (hle : range.start ≤ range.stop)
    (hstart : isBoundary range.start source = true) (hstop : isBoundary range.stop source = true) :
    t.Rooted source ∧ t.root.span = range := by
  obtain ⟨before, after, hsource, hrange⟩ := Text.stands_slice hstart hstop hle
  generalize source.slice range.start range.stop = part at hsource hrange
  subst hsource
  have hrange : range = ⟨size before, size before + size part⟩ := hrange
  subst hrange
  obtain ⟨ls, items, c, -, -, ht⟩ := ofRange_eq_ok h
  have hsits := sits_of_ofRange before part after h t.root (Node.self_mem_preorder _)
  subst ht
  exact ⟨⟨rfl, rfl, hsits.laid⟩, rfl⟩

namespace Script

variable {rules : CallRules} {discarded : List Text} {source : Text} {c d : Chunk} {f g : Find}

/-- The finds of a chunk, if it can be parsed. -/
def chunkFinds (rules : CallRules) (source : Text) (c : Chunk) : List Find :=
  match Tree.ofRange source c.range with
  | .ok tree => tree.finds rules
  | .error _ => []

theorem exists_rooted (hc : c ∈ Chunk.ofText source) (hf : f ∈ chunkFinds rules source c) :
    ∃ t : Tree, chunkFinds rules source c = t.finds rules ∧ t.Rooted source ∧
      t.root.span = c.range := by
  rw [chunkFinds] at hf ⊢
  cases ht : Tree.ofRange source c.range with
  | error e => simp [ht] at hf
  | ok t =>
    obtain ⟨hle, hstart, hstop⟩ := (Chunk.inOrder_ofText source).cut c hc
    exact ⟨t, rfl, Tree.rooted_of_ofRange ht hle hstart hstop⟩

theorem chunkFinds_exact (hc : c ∈ Chunk.ofText source) (hf : f ∈ chunkFinds rules source c) :
    f.site.span.start < f.site.span.stop ∧
      Stands source f.site.span (f.site.form.write f.entry.phrase) := by
  obtain ⟨t, heq, ht, -⟩ := exists_rooted hc hf
  rw [heq] at hf
  exact ht.finds_exact hf

theorem chunkFinds_inside (hc : c ∈ Chunk.ofText source) (hf : f ∈ chunkFinds rules source c) :
    c.range.start ≤ f.site.span.start ∧ f.site.span.stop ≤ c.range.stop := by
  obtain ⟨t, heq, ht, hspan⟩ := exists_rooted hc hf
  rw [heq] at hf
  rw [← hspan]
  exact ht.finds_inside hf

theorem chunkFinds_apart (hc : c ∈ Chunk.ofText source) :
    (chunkFinds rules source c).Pairwise fun f g => f.site.span.Apart g.site.span := by
  cases hfinds : chunkFinds rules source c with
  | nil => exact .nil
  | cons f fs =>
    obtain ⟨t, heq, ht, -⟩ := exists_rooted hc (hfinds ▸ List.mem_cons_self)
    rw [← hfinds, heq]
    exact ht.finds_apart rules

/-- The chunks whose texts are recorded. -/
def keptChunks (discarded : List Text) (source : Text) : List Chunk :=
  (Chunk.ofText source).filter fun c =>
    !discarded.contains c.title && !(source.slice c.range.start c.range.stop).isBlank

theorem finds_apart_of_chunks (rules : CallRules) (discarded : List Text) (source : Text) :
    ((keptChunks discarded source).flatMap (chunkFinds rules source)).Pairwise fun f g =>
      f.site.span.Apart g.site.span := by
  have hkept {c : Chunk} (hc : c ∈ keptChunks discarded source) : c ∈ Chunk.ofText source :=
    (List.mem_filter.1 hc).1
  refine List.pairwise_flatMap.2 ⟨fun c hc => chunkFinds_apart (hkept hc), ?_⟩
  have horder : (keptChunks discarded source).Pairwise fun c d => c.range.stop ≤ d.range.start :=
    (Chunk.inOrder_ofText source).order.sublist List.filter_sublist
  refine List.Pairwise.imp_of_mem ?_ horder
  intro c d hc hd hcd f hf g hg
  have hfin := chunkFinds_inside (hkept hc) hf
  have hgin := chunkFinds_inside (hkept hd) hg
  exact .inl (by omega)

theorem flatMap_chunkTrees {finds : Except (Text × Fault) Tree → List Find}
    (hok : ∀ t, finds (.ok t) = t.finds rules) (herror : ∀ e, finds (.error e) = []) :
    (chunkTrees discarded source).flatMap finds =
      (keptChunks discarded source).flatMap (chunkFinds rules source) := by
  rw [chunkTrees, List.flatMap_map]
  refine List.flatMap_congr fun c _ => ?_
  rw [chunkFinds]
  cases Tree.ofRange source c.range with
  | ok t => exact hok t
  | error e => exact herror _

/-- What is found in the chunks. -/
def findsOfChunks (rules : CallRules) (discarded : List Text) (source : Text) : List Find :=
  (keptChunks discarded source).flatMap (chunkFinds rules source)

/-- The faults of the chunks that cannot be parsed. -/
def faultsOfChunks (discarded : List Text) (source : Text) : List (Text × Fault) :=
  (chunkTrees discarded source).filterMap fun
    | .ok _ => none
    | .error fault => some fault

variable {stem content : Text} {x x' : Index} {s : Script} {fault : Fault}

theorem parseChunks_eq (rules : CallRules) (discarded : List Text) (stem content : Text)
    (x : Index) :
    parseChunks rules discarded stem content x =
      (assignKeys stem x (Item.collect (findsOfChunks rules discarded content.normalize))).map
        fun (items, x') => (⟨stem, .raw content.normalize, items,
          faultsOfChunks discarded content.normalize⟩, x') := by
  simp only [parseChunks]
  rw [flatMap_chunkTrees (fun _ => rfl) fun _ => rfl, findsOfChunks]
  cases assignKeys stem x (Item.collect
    ((keptChunks discarded content.normalize).flatMap (chunkFinds rules content.normalize))) <;> rfl

theorem parseChunks_eq_ok_iff :
    parseChunks rules discarded stem content x = .ok (s, x') ↔
      ∃ items, assignKeys stem x
          (Item.collect (findsOfChunks rules discarded content.normalize)) = .ok (items, x') ∧
        s = ⟨stem, .raw content.normalize, items, faultsOfChunks discarded content.normalize⟩ := by
  rw [parseChunks_eq, map_ok_iff]
  simp [eq_comm]

theorem parseChunks_eq_error_iff :
    parseChunks rules discarded stem content x = .error fault ↔ fault = .overflow ∧
      x.RunsOut ((Item.collect (findsOfChunks rules discarded content.normalize)).map
        (·.entry.fingerprint)) := by
  rw [parseChunks_eq, map_error_iff, assignKeys_eq_error_iff]

/-- The sites of items: apart, and each holds some of the text. -/
structure Spread (source : Text) (items : List Item) : Prop where
  apart : (Item.sitesOf items).Pairwise fun a b => a.span.Apart b.span
  holds : ∀ site ∈ Item.sitesOf items,
    site.span.start < site.span.stop ∧ ∃ m, Stands source site.span m

/-- The sites of a script that was parsed function by function. -/
theorem spread_of_parseChunks (h : parseChunks rules discarded stem content x = .ok (s, x')) :
    Spread content.normalize s.items := by
  obtain ⟨items, hitems, rfl⟩ := parseChunks_eq_ok_iff.1 h
  have hsites : (Item.sitesOf items).Perm
      ((findsOfChunks rules discarded content.normalize).map (·.site)) := by
    rw [Item.sitesOf_assignKeys hitems]
    exact Item.sitesOf_collect _
  refine ⟨?_, ?_⟩
  · refine (hsites.pairwise_iff fun h => Span.Apart.symm h).2 ?_
    exact List.pairwise_map.2 (finds_apart_of_chunks rules discarded content.normalize)
  · intro site hsite
    obtain ⟨f, hf, rfl⟩ := List.mem_map.1 (hsites.subset hsite)
    obtain ⟨c, hc, hf⟩ := List.mem_flatMap.1 hf
    obtain ⟨hlt, hstands⟩ := chunkFinds_exact (List.mem_filter.1 hc).1 hf
    exact ⟨hlt, _, hstands⟩

end Script

end Phrasebook
