import Phrasebook.Proofs.Writing

/-!
The sites of a script over many calls.

A site keeps its place among the items. What a call writes there does not read as the phrase any more,
so no later call will write there again: each site has what it had when the script was parsed, or what
the one edit of it wrote.
-/
namespace Phrasebook

open Text (Stands size)

namespace Script

variable {s : Script} {t : Tree} {i j : Nat} {item : Item} {site : Site} {m : Text}

/-- The site in place `j` of the item in place `i`. -/
def site? (s : Script) (i j : Nat) : Option Site := s.items[i]?.bind fun item => item.sites[j]?

/-- The edits that a call makes. -/
def edits (s : Script) (renditions : List Entry) : List Edit :=
  match s.body with
  | .tree t => (made t s.items (usable renditions)).2.1.map (·.edit)
  | .raw _ => []

/-- What a call writes at a site. -/
def writtenBy (s : Script) (renditions : List Entry) (i j : Nat) : List Text :=
  ((s.edits renditions).filter fun e => (s.site? i j).any (·.span == e.span)).map (·.text)

/-- What calls write at a site, one after the other. -/
def writtenAt (i j : Nat) : Script → List (List Entry) → List Text
  | _, [] => []
  | s, renditions :: more =>
    s.writtenBy renditions i j ++ writtenAt i j (s.translate renditions).1 more

theorem site?_eq_some : s.site? i j = some site ↔
    ∃ item, s.items[i]? = some item ∧ item.sites[j]? = some site := by
  simp [site?, Option.bind_eq_some_iff]

/-- An item keeps its phrase and its sites keep their places. -/
theorem getElem?_updated (accepted : List Planned) (items : List Item) (h : items[i]? = some item) :
    (items.zipIdx.map fun x => updateItem accepted x.2 x.1)[i]? = some (updateItem accepted i item) := by
  simp [List.getElem?_zipIdx, h]

theorem site?_updated (accepted : List Planned) (s : Script) (i j : Nat) (body : Body) :
    ({ s with body, items := s.items.zipIdx.map fun x => updateItem accepted x.2 x.1 } : Script).site?
      i j = (s.site? i j).map (moved (accepted.map (·.edit))) := by
  simp only [site?, List.getElem?_map, List.getElem?_zipIdx]
  cases s.items[i]? with
  | none => rfl
  | some item => simp

/-- At most one edit of a call is at a given span. -/
theorem filter_span {es : List Edit} {e : Edit} (hone : es.Pairwise fun a b => a.span ≠ b.span)
    (he : e ∈ es) : es.filter (fun f => e.span == f.span) = [e] := by
  induction es with
  | nil => simp at he
  | cons f es ih =>
    obtain ⟨hf, hone⟩ := List.pairwise_cons.1 hone
    rcases List.mem_cons.1 he with rfl | he'
    · have hnone : es.filter (fun f => e.span == f.span) = [] :=
        List.filter_eq_nil_iff.2 fun g hg => by simpa using hf g hg
      simp [hnone]
    · have hne : e.span ≠ f.span := (hf e he').symm
      simp [hne, ih hone he']

/-- One call leaves a site as it is, or finds the phrase there and writes what does not read as the
phrase. -/
theorem writtenBy_cases (hb : s.body = .tree t) (ht : Tracks t s.items) (renditions : List Entry)
    (hitem : s.items[i]? = some item) (hsite : item.sites[j]? = some site)
    (hm : Stands s.render site.span m) :
    ∃ site' item', (s.translate renditions).1.items[i]? = some item' ∧
      item'.sites[j]? = some site' ∧ item'.entry.phrase = item.entry.phrase ∧
      site'.form = site.form ∧
      (s.writtenBy renditions i j = [] ∧ Stands (s.translate renditions).1.render site'.span m ∨
        ∃ text, s.writtenBy renditions i j = [text] ∧ m = site.form.write item.entry.phrase ∧
          site.form.read text ≠ item.entry.phrase ∧
          Stands (s.translate renditions).1.render site'.span text) := by
  have hspec := applyPlanned_spec ht (usable renditions)
  let accepted := (made t s.items (usable renditions)).2.1
  obtain ⟨hes, hone⟩ := ht.fit_of_accepts hspec
  have hmem := List.mem_of_getElem? hitem
  have hsite' := List.mem_of_getElem? hsite
  have hrender : s.render = t.source := by simp only [render, hb]
  rw [hrender] at hm
  have hafter := ht.stands_after hspec hmem hsite' hm
  have hedits : s.edits renditions = accepted.map (·.edit) := by
    simp only [edits, hb]
    rfl
  have hspan : s.site? i j = some site := site?_eq_some.2 ⟨item, hitem, hsite⟩
  rw [(translate_eq hb ht renditions).1]
  refine ⟨moved (accepted.map (·.edit)) site, _, getElem?_updated accepted s.items hitem, ?_,
    phrase_updateItem _ _ _, rfl, ?_⟩
  · rw [sites_updateItem, List.getElem?_map, hsite]
    rfl
  · rcases textAfter_cases accepted site.span m with ⟨hnone, hkept⟩ | ⟨p, hp, hat, htext⟩
    · refine .inl ⟨?_, hkept ▸ hafter⟩
      rw [writtenBy, hedits, hspan, List.map_eq_nil_iff, List.filter_eq_nil_iff]
      refine List.forall_mem_map.2 fun p hp => ?_
      simpa using (hnone p hp).symm
    · obtain ⟨hphrase, -, hread⟩ :=
        ht.stands_of_planned (hspec.sublist.subset hp) hmem hsite' hat
      refine .inr ⟨p.edit.text, ?_, hm.unique hphrase, hread, htext ▸ hafter⟩
      have hfilter := filter_span hone (List.mem_map_of_mem hp)
      rw [hat] at hfilter
      rw [writtenBy, hedits, hspan]
      simp only [Option.any_some]
      exact congrArg (List.map (·.text)) hfilter

/-- Over any number of calls a site is written at most once, and never if what stands there does not
read as the phrase. -/
theorem writtenAt_spec (h : s.Tracked) (calls : List (List Entry)) (hitem : s.items[i]? = some item)
    (hsite : item.sites[j]? = some site) (hm : Stands s.render site.span m) :
    (writtenAt i j s calls).length ≤ 1 ∧
      (site.form.read m ≠ item.entry.phrase → writtenAt i j s calls = []) ∧
      ∃ site', (s.after calls).site? i j = some site' ∧
        Stands (s.after calls).render site'.span ((writtenAt i j s calls).head?.getD m) := by
  induction calls generalizing s item site m with
  | nil => exact ⟨Nat.zero_le _, fun _ => rfl, site, site?_eq_some.2 ⟨item, hitem, hsite⟩, hm⟩
  | cons renditions calls ih =>
    obtain ⟨t, hb, ht⟩ := id h
    obtain ⟨site', item', hitem', hsite', hphrase, hform, hcases⟩ :=
      writtenBy_cases hb ht renditions hitem hsite hm
    rw [writtenAt]
    rcases hcases with ⟨hnone, hm'⟩ | ⟨text, hone, rfl, hread, hm'⟩
    · have hrest := ih (h.translate renditions) hitem' hsite' hm'
      rw [hform, hphrase] at hrest
      rw [hnone, List.nil_append]
      exact hrest
    · obtain ⟨-, hnever, hrest⟩ := ih (h.translate renditions) hitem' hsite' hm'
      rw [hform, hphrase] at hnever
      rw [hnever hread] at hrest
      rw [hone, hnever hread]
      exact ⟨Nat.le_refl _, fun hother => absurd (Site.Form.read_write _ _) hother, hrest⟩

/-- No site comes or goes. -/
theorem isSome_site?_after (h : s.Tracked) (calls : List (List Entry)) (i j : Nat) :
    ((s.after calls).site? i j).isSome = (s.site? i j).isSome := by
  induction calls generalizing s with
  | nil => rfl
  | cons renditions calls ih =>
    obtain ⟨t, hb, ht⟩ := id h
    refine (ih (h.translate renditions)).trans ?_
    rw [(translate_eq hb ht renditions).1, site?_updated, Option.isSome_map]

/-- What is known of the sites of a script after calls. -/
structure SitesTracked (s : Script) (calls : List (List Entry)) : Prop where
  apart : (Item.sitesOf (s.after calls).items).Pairwise fun a b => a.span.Apart b.span
  inside : ∀ site ∈ Item.sitesOf (s.after calls).items,
    site.span.start < site.span.stop ∧ site.span.stop ≤ size (s.after calls).render
  kept : ∀ i j, ((s.after calls).site? i j).isSome = (s.site? i j).isSome
  /-- What stands at a site stood there at first, or is what the one edit of it wrote. -/
  once : ∀ i j site, s.site? i j = some site → (writtenAt i j s calls).length ≤ 1 ∧
    ∃ m site', Stands s.render site.span m ∧ (s.after calls).site? i j = some site' ∧
      Stands (s.after calls).render site'.span ((writtenAt i j s calls).head?.getD m)
  /-- The edits of the next call are at sites, and are those that it reports. -/
  reported : ∀ renditions,
    (∀ e ∈ (s.after calls).edits renditions,
      ∃ site ∈ Item.sitesOf (s.after calls).items, e.span = site.span) ∧
    List.Forall₂ (fun c e => c.after = e.text ∧ Stands (s.after calls).render e.span c.before ∧
        c.position = some ((s.after calls).render.position e.span))
      ((s.after calls).translate renditions).2.applied ((s.after calls).edits renditions)

theorem forall₂_edits (hb : s.body = .tree t) (ht : Tracks t s.items) (renditions : List Entry) :
    List.Forall₂ (fun c e => c.after = e.text ∧ Stands s.render e.span c.before ∧
        c.position = some (s.render.position e.span))
      (s.translate renditions).2.applied (s.edits renditions) := by
  have hspec := applyPlanned_spec ht (usable renditions)
  have hrender : s.render = t.source := by simp only [render, hb]
  rw [(translate_eq hb ht renditions).2.1, hrender]
  simp only [edits, hb]
  rw [List.forall₂_map_left_iff, List.forall₂_map_right_iff, List.forall₂_same]
  intro p hp
  obtain ⟨τ, -, hplan, hp⟩ := mem_plannedEdits (hspec.sublist.subset hp)
  obtain ⟨hedit, -, current, hcurrent, -⟩ := planEdit_eq_some hplan
  have hspan : p.edit.span = τ.site.span := congrArg Edit.span hedit
  have hold : p.change.before = current := by
    rw [hp]
    exact hcurrent.slice_eq
  have hposition : p.position = t.source.position τ.site.span := by
    rw [hp]
    rfl
  refine ⟨rfl, ?_, ?_⟩
  · rw [hspan, hold]
    exact hcurrent
  · rw [hspan]
    exact congrArg some hposition

theorem sitesTracked_of_parse {rules : CallRules} {stem content : Text} {index index' : Index}
    (h : parse rules stem content index = .ok (s, index')) (calls : List (List Entry)) :
    s.SitesTracked calls := by
  have hs := tracked_of_parse h
  obtain ⟨t, hb, ht⟩ := hs.after calls
  have hrender : (s.after calls).render = t.source := by simp only [render, hb]
  refine ⟨ht.apart, ?_, isSome_site?_after hs calls, ?_, fun renditions => ⟨?_, ?_⟩⟩
  · intro site hsite
    obtain ⟨hlt, m, hm⟩ := ht.stands site.span (List.mem_map_of_mem hsite)
    exact ⟨hlt, hrender ▸ hm.stop_le⟩
  · intro i j site hsite
    obtain ⟨item, hitem, hj⟩ := site?_eq_some.1 hsite
    obtain ⟨t₀, hb₀, ht₀⟩ := id hs
    obtain ⟨-, m, hm, -⟩ :=
      ht₀.held item (List.mem_of_getElem? hitem) site (List.mem_of_getElem? hj)
    have hrender₀ : s.render = t₀.source := by simp only [render, hb₀]
    rw [← hrender₀] at hm
    obtain ⟨hle, -, site', hsite', hafter⟩ := writtenAt_spec hs calls hitem hj hm
    exact ⟨hle, m, site', hm, hsite', hafter⟩
  · intro e he
    simp only [edits, hb] at he
    have hmem := (ht.fit_of_accepts (applyPlanned_spec ht (usable renditions))).1 e he
    obtain ⟨site, hsite, heq⟩ := List.mem_map.1 hmem
    exact ⟨site, hsite, heq.symm⟩
  · exact forall₂_edits hb ht renditions

/-- The first call writes the literal of the first statement, and that of the second one moves. A later
call writes the second literal where it is by then, and the first one not again. -/
theorem sitesTracked_of_parse_twice :
    let entry (call phrase rendition : String) : Entry :=
      { Entry.new (Text.of phrase) (some (Text.of call)) with rendition := Text.of rendition }
    let first := [entry "f(\"Hi\")" "Hi" "Hello"]
    let second := [entry "f(\"Hi\")" "Hi" "Hey", entry "f(\"Ho\")" "Ho" "Howdy"]
    ∃ s index', parse .builtin [] (Text.of "f(\"Hi\")\nf(\"Ho\")\n") .empty = .ok (s, index') ∧
      s.SitesTracked [first, second] ∧
      (s.after [first, second]).render = Text.of "f(\"Hello\")\nf(\"Howdy\")\n" ∧
      (Item.sitesOf s.items).map (·.span) = [⟨2, 6⟩, ⟨10, 14⟩] ∧
      (Item.sitesOf (s.after [first]).items).map (·.span) = [⟨2, 9⟩, ⟨13, 17⟩] ∧
      writtenAt 0 0 s [first, second] = [Text.of "\"Hello\""] ∧
      writtenAt 1 0 s [first, second] = [Text.of "\"Howdy\""] := by
  intro entry first second
  obtain ⟨s, index', h, hfacts⟩ := @exists_parse_of .builtin []
    (Text.of "f(\"Hi\")\nf(\"Ho\")\n") .empty
    (fun s => decide (
      (s.after [first, second]).render = Text.of "f(\"Hello\")\nf(\"Howdy\")\n" ∧
      (Item.sitesOf s.items).map (·.span) = [⟨2, 6⟩, ⟨10, 14⟩] ∧
      (Item.sitesOf (s.after [first]).items).map (·.span) = [⟨2, 9⟩, ⟨13, 17⟩] ∧
      writtenAt 0 0 s [first, second] = [Text.of "\"Hello\""] ∧
      writtenAt 1 0 s [first, second] = [Text.of "\"Howdy\""]))
    (by decide +kernel)
  exact ⟨s, index', h, sitesTracked_of_parse h _, of_decide_eq_true hfacts⟩

end Script

end Phrasebook
