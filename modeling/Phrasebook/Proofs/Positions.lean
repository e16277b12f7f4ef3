import Phrasebook.Proofs.Merging
import Phrasebook.Proofs.Places
import Phrasebook.Proofs.Writing

/-!
The positions that are recorded for a script.

Every find has one position, that of its phrase (`Finds.positions_of_mem`). So the positions of an
item belong to its sites one by one, and each cuts its phrase out of the code (`Item.Cuts`).
-/
namespace Phrasebook

open Text (Stands size)

/-- The part of a site that its phrase takes up. -/
def Site.Form.inner : Form → Span → Span
  | .literal q, s => ⟨s.start + (size q.sigil + size q.delimiter), s.stop - size q.delimiter⟩
  | .expression, s | .statement, s => s

theorem Site.Form.stands_inner {source phrase : Text} {form : Form} {span : Span}
    (h : Stands source span (form.write phrase)) : Stands source (form.inner span) phrase := by
  cases form with
  | literal q =>
    obtain ⟨before, after, rfl, rfl⟩ := h
    refine ⟨before ++ q.sigil ++ q.delimiter, q.delimiter ++ after, ?_, ?_⟩
    · simp [write, Quoting.wrap]
    · simp only [inner, write, Quoting.wrap, Text.size_append, Span.mk.injEq]
      omega
  | expression => exact h
  | statement => exact h

namespace Finds

variable {rules : CallRules} {source context : Text} {n : Node.Located} {f : Find}

section

variable {P : Find → Prop}
  (hliteral : ∀ context n, ∀ f ∈ literal rules source context n, P f)
  (hwhole : ∀ form context n, (∀ q, form ≠ .literal q) →
    ∀ f ∈ whole rules source form context n, P f)

include hliteral

theorem forall_literals (context : Text) (n : Node.Located) :
    ∀ f ∈ literals rules source context n, P f := by
  intro f hf
  obtain ⟨lit, -, -, hf⟩ := mem_literals.1 hf
  exact hliteral context lit f hf

include hwhole

theorem forall_arguments (context : Text) (n : Node) (above : List (Node × Nat)) (i : Nat)
    (args : List Node)
    (hcalls : ∀ arg ∈ args, ∀ above, ∀ f ∈ call rules source context above arg, P f) :
    ∀ f ∈ arguments rules source context n above i args, P f := by
  induction args generalizing i with
  | nil => simp [arguments]
  | cons arg args ih =>
    obtain ⟨hhere, hcalls⟩ := List.forall_mem_cons.1 hcalls
    rw [arguments]
    refine List.forall_mem_append.2 ⟨?_, ih (i + 1) hcalls⟩
    split
    · simp
    · split
      · exact hliteral context _
      · exact hwhole .expression _ _ (by simp)
      · exact hhere _
      · exact forall_literals hliteral context _

/-- By induction on the calls in the arguments. -/
theorem forall_call (context : Text) (n : Node) (above : List (Node × Nat)) :
    ∀ f ∈ call rules source context above n, P f := by
  induction n using Node.childrenFirst generalizing above with
  | h n ih =>
    obtain ⟨kind, span, children⟩ := n
    cases children with
    | nil => simp [call]
    | cons callee args =>
      rw [call]
      split
      · simp
      · refine List.forall_mem_append.2 ⟨forall_literals hliteral context _, ?_⟩
        exact forall_arguments hliteral hwhole context _ _ 0 args
          fun arg harg => ih arg (List.mem_cons_of_mem callee harg)

theorem forall_guards (n : Node.Located) (i : Nat) (branches : List Node) :
    ∀ f ∈ guards rules source n i branches, P f := by
  induction branches generalizing i with
  | nil => simp [guards]
  | cons branch branches ih =>
    rw [guards]
    refine List.forall_mem_append.2 ⟨?_, ih (i + 1)⟩
    split
    · split
      · unfold guard
        simp only
        split
        · exact hwhole .expression _ _ (by simp)
        · exact forall_call hliteral hwhole _ _ _
        · exact forall_literals hliteral _ _
      · simp
    · simp

theorem forall_statement (n : Node.Located) : ∀ f ∈ statement rules source n, P f := by
  unfold statement
  split
  · simp
  · simp only
    split
    · exact forall_literals hliteral _ _
    · exact forall_literals hliteral _ _
    · exact hwhole .statement _ _ (by simp)
    · exact forall_call hliteral hwhole _ _ _
    · exact hwhole .statement _ _ (by simp)
    · exact hwhole .statement _ _ (by simp)
    · exact forall_literals hliteral _ _

/-- What holds of literals and of whole nodes as finds holds of all finds. -/
theorem forall_ofNode (n : Node.Located) : ∀ f ∈ ofNode rules source n, P f := by
  have hwritten : ∀ f ∈ (if n.node.hasString then statement rules source n else []), P f := by
    split
    · exact forall_statement hliteral hwhole n
    · simp
  unfold ofNode
  split
  · exact forall_guards hliteral hwhole n 0 _
  · exact hwritten
  · exact hwritten
  · exact hwritten
  · simp only
    split
    · exact hwhole .statement _ _ (by simp)
    · simp
  · simp

end

/-- The position of a find is that of its phrase. -/
theorem positions_of_mem (h : f ∈ ofNode rules source n) :
    f.entry.positions = [source.position (f.site.form.inner f.site.span)] := by
  refine forall_ofNode (P := fun f =>
    f.entry.positions = [source.position (f.site.form.inner f.site.span)]) ?_ ?_ n f h
  · intro context n f hf
    unfold literal at hf
    split at hf
    · split at hf
      · next q inner hq hinner =>
        rw [Node.contentSpan?, hq, Option.some.injEq] at hinner
        rw [List.mem_singleton.1 hf, ← hinner]
        rfl
      · cases hf
    · cases hf
  · intro form context n hform f hf
    unfold whole at hf
    split at hf
    · rw [List.mem_singleton.1 hf]
      cases form with
      | literal q => exact absurd rfl (hform q)
      | expression => rfl
      | statement => rfl
    · cases hf

end Finds

namespace Item

variable {source : Text} {items : List Item} {item : Item} {f : Find}

/-- Of the positions and the sites of an item, each pair cuts out of the text what is its phrase. -/
def Cuts (source : Text) (item : Item) : Prop :=
  List.Forall₂ (fun p site => ∃ phrase, Stands source site.span (site.form.write phrase) ∧
    source.cut? p = some phrase) item.entry.positions item.sites

/-- A find with one position, that of its phrase. -/
structure Cut (source : Text) (f : Find) : Prop where
  position : f.entry.positions = [source.position (f.site.form.inner f.site.span)]
  stands : Stands source f.site.span (f.site.form.write f.entry.phrase)

theorem Cut.forall₂ (h : Cut source f) :
    List.Forall₂ (fun p site => ∃ phrase, Stands source site.span (site.form.write phrase) ∧
      source.cut? p = some phrase) f.entry.positions [f.site] := by
  rw [h.position]
  exact .cons ⟨_, h.stands, Text.cut?_position (Site.Form.stands_inner h.stands)⟩ .nil

theorem cuts_insert (hitems : ∀ item ∈ items, item.Cuts source) (hf : Cut source f) :
    ∀ item ∈ insert items f, item.Cuts source := by
  intro item hitem
  rcases mem_insert hitem with ⟨hitem, -⟩ | ⟨old, hold, -, rfl⟩ | ⟨rfl, -⟩
  · exact hitems item hitem
  · exact List.rel_append (hitems old hold) hf.forall₂
  · exact hf.forall₂

theorem cuts_collect {finds : List Find} (h : ∀ f ∈ finds, Cut source f) :
    ∀ item ∈ collect finds, item.Cuts source := by
  induction finds using List.reverseRecOn with
  | nil => simp [collect]
  | append_singleton finds f ih =>
    obtain ⟨hfinds, hf⟩ := List.forall_mem_append.1 h
    rw [collect, List.foldl_append]
    exact cuts_insert (ih hfinds) (hf f List.mem_cons_self)

end Item

namespace Script

variable {rules : CallRules} {discarded : List Text} {content stem source : Text} {x x' : Index}
  {script : Script}

theorem cuts_assignKeys {items keyed : List Item} (h : ∀ item ∈ items, item.Cuts source)
    (hkeyed : assignKeys stem x items = .ok (keyed, x')) : ∀ item ∈ keyed, item.Cuts source := by
  have hpairs : keyed.map (fun item => (item.entry.positions, item.sites)) =
      items.map fun item => (item.entry.positions, item.sites) :=
    map_assignKeys (fun _ _ => rfl) hkeyed
  intro item hitem
  obtain ⟨old, hold, heq⟩ := List.mem_map.1 (hpairs ▸ List.mem_map_of_mem hitem)
  obtain ⟨hpositions, hsites⟩ := Prod.mk.inj heq
  rw [Item.Cuts, ← hpositions, ← hsites]
  exact h old hold

theorem cuts_of_parse (h : parse rules stem content x = .ok (script, x')) :
    ∀ item ∈ script.items, item.Cuts content.normalize := by
  obtain ⟨t, items, ht, hitems, rfl⟩ := parse_eq_ok_iff.1 h
  have hrooted := Tree.rooted_of_ofScript ht
  refine cuts_assignKeys (Item.cuts_collect fun f hf => ⟨?_, (hrooted.finds_exact hf).2⟩) hitems
  obtain ⟨n, -, hf⟩ := List.mem_flatMap.1 hf
  rw [hrooted.source_eq] at hf
  exact Finds.positions_of_mem hf

theorem cuts_of_parseChunks (h : parseChunks rules discarded stem content x = .ok (script, x')) :
    ∀ item ∈ script.items, item.Cuts content.normalize := by
  obtain ⟨items, hitems, rfl⟩ := parseChunks_eq_ok_iff.1 h
  refine cuts_assignKeys (Item.cuts_collect fun f hf => ?_) hitems
  obtain ⟨c, hc, hf⟩ := List.mem_flatMap.1 hf
  obtain ⟨t, hfinds, ht, -⟩ := exists_rooted (List.mem_filter.1 hc).1 hf
  rw [hfinds] at hf
  refine ⟨?_, (ht.finds_exact hf).2⟩
  obtain ⟨n, -, hf⟩ := List.mem_flatMap.1 hf
  rw [ht.source_eq] at hf
  exact Finds.positions_of_mem hf

/-- Places and offsets determine each other in every text, and the positions that are recorded for a
script, whichever way it is parsed, cut out of its code what stands at its sites. -/
theorem positions_exact (source : Text) (rules : CallRules) (discarded : List Text)
    (stem content : Text) (x : Index) :
    source.Charted ∧
      (∀ script x', parse rules stem content x = .ok (script, x') →
        ∀ item ∈ script.items, item.Cuts content.normalize) ∧
      ∀ script x', parseChunks rules discarded stem content x = .ok (script, x') →
        ∀ item ∈ script.items, item.Cuts content.normalize :=
  ⟨source.charted, fun _ _ => cuts_of_parse, fun _ _ => cuts_of_parseChunks⟩

/-- A literal of wide characters in the second line, and a condition in the third. -/
theorem positions_exact_wide :
    let content := Text.of "func f():\n\tsay(\"中文\")\n\tif a == \"é\": pass\n"
    content.Charted ∧ ∃ script x', parse .builtin ['T'] content .empty = .ok (script, x') ∧
      script.items.map (·.entry.positions) = [[⟨2, 6, 2, 8⟩], [⟨3, 4, 3, 12⟩]] ∧
      ∀ item ∈ script.items, item.Cuts content := by
  intro content
  have hruns : (parse .builtin ['T'] content .empty).toOption.any (fun r => decide
      (r.1.items.map (·.entry.positions) = [[⟨2, 6, 2, 8⟩], [⟨3, 4, 3, 12⟩]])) = true := by
    decide +kernel
  obtain ⟨⟨script, x'⟩, h, hplaces⟩ := exists_ok_of_any hruns
  obtain ⟨hcharted, hparse, -⟩ :=
    positions_exact content .builtin [] ['T'] content .empty
  have hnormal : content.normalize = content := by decide
  exact ⟨hcharted, script, x', h, of_decide_eq_true hplaces, hnormal ▸ hparse script x' h⟩

end Script

end Phrasebook
