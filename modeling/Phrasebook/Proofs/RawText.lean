import Phrasebook.Proofs.Chunks
import Phrasebook.Proofs.Planning
import Phrasebook.Proofs.Searching

/-!
Renditions in a script that is only known as a text.

The text of each item is replaced wherever it occurs, one item after the other. Where every search finds
the sites of its item and nothing else (`Script.FindsSites`), this comes to the same as edits at the
recorded sites. Every search has to be looked at in its turn: a rendition may bring in the text of a
later item.
-/
namespace Phrasebook

open Text (Stands)

theorem Edit.inOrder_of_pairwise {es : List Edit}
    (h : es.Pairwise fun a b => a.span.start ≤ b.span.start) : inOrder es = es :=
  List.mergeSort_of_pairwise (h.imp fun h => decide_eq_true h)

namespace Script

variable {lookup : Table Text} {source x rendition old new : Text} {before after items : List Item}
  {item : Item}

/-- The edits that write the rendition of an item at its sites, each in the form of the site. -/
def itemEdits (lookup : Table Text) (item : Item) : List Edit :=
  match lookup.get? item.fingerprint with
  | some rendition => item.sites.map fun site => ⟨site.span, site.form.write rendition⟩
  | none => []

/-- The edits at the sites of all items. -/
def siteEdits (lookup : Table Text) (items : List Item) : List Edit :=
  items.flatMap (itemEdits lookup)

/-- Searching for the text of an item finds its sites and nothing else: they all hold that text and
are written alike, and when the items `before` have had their turn, it occurs only where the sites are
by then. -/
structure FindsSites (lookup : Table Text) (source : Text) (before : List Item) (item : Item)
    (rendition old new : Text) : Prop where
  alike : ∀ site ∈ item.sites,
    site.span ∈ source.occurrences old ∧ site.form.write rendition = new
  only : ∀ span ∈ (translateRaw lookup source before).1.occurrences old,
    ∃ site ∈ item.sites, span = remap (siteEdits lookup before) site.span

instance : Decidable (FindsSites lookup source before item rendition old new) :=
  decidable_of_iff
    ((∀ site ∈ item.sites, site.span ∈ source.occurrences old ∧ site.form.write rendition = new) ∧
      ∀ span ∈ (translateRaw lookup source before).1.occurrences old,
        ∃ site ∈ item.sites, span = remap (siteEdits lookup before) site.span)
    ⟨fun h => ⟨h.1, h.2⟩, fun h => ⟨h.alike, h.only⟩⟩

/-! ### One item -/

/-- An item without a rendition or without sites is passed over. -/
theorem translateRaw_none (h : (lookup.get? item.fingerprint).bind (rawPair item) = none) :
    itemEdits lookup item = [] ∧ ∀ x, (translateRaw lookup x [item]).1 = x := by
  cases hlookup : lookup.get? item.fingerprint with
  | none => simp [itemEdits, translateRaw, hlookup]
  | some rendition =>
    rw [hlookup, Option.bind_some] at h
    have hsites : item.sites = [] := by
      rw [rawPair, Option.map_eq_none_iff, List.head?_eq_none_iff] at h
      exact h
    simp [itemEdits, translateRaw, hlookup, h, hsites]

theorem translateRaw_some (x : Text) (h : lookup.get? item.fingerprint = some rendition)
    (hpair : rawPair item rendition = some (old, new)) :
    (translateRaw lookup x [item]).1 = if x.occurs old then x.replaceAll old new else x := by
  simp only [translateRaw, h, hpair, Option.bind_eq_bind, Option.bind_some, Option.pure_def]
  split <;> rfl

theorem translateRaw_cons (x : Text) (item : Item) (items : List Item) :
    (translateRaw lookup x (item :: items)).1 =
      (translateRaw lookup (translateRaw lookup x [item]).1 items).1 := by
  simp only [translateRaw]
  split
  · rfl
  · split <;> rfl

theorem translateRaw_append (x : Text) (before after : List Item) :
    (translateRaw lookup x (before ++ after)).1 =
      (translateRaw lookup (translateRaw lookup x before).1 after).1 := by
  induction before generalizing x with
  | nil => rfl
  | cons item before ih =>
    rw [List.cons_append, translateRaw_cons, ih, ← translateRaw_cons]

theorem span_itemEdits_sublist (lookup : Table Text) (item : Item) :
    ((itemEdits lookup item).map (·.span)).Sublist (item.sites.map (·.span)) := by
  rw [itemEdits]
  split
  · rw [List.map_map]
    exact List.Sublist.refl _
  · exact List.nil_sublist _

theorem span_siteEdits_sublist (lookup : Table Text) (items : List Item) :
    ((siteEdits lookup items).map (·.span)).Sublist ((Item.sitesOf items).map (·.span)) := by
  induction items with
  | nil => exact List.Sublist.refl _
  | cons item items ih =>
    rw [siteEdits, List.flatMap_cons, Item.sitesOf, List.flatMap_cons, List.map_append, List.map_append]
    exact (span_itemEdits_sublist lookup item).append ih

theorem siteEdits_concat (lookup : Table Text) (before : List Item) (item : Item) :
    siteEdits lookup (before ++ [item]) = siteEdits lookup before ++ itemEdits lookup item := by
  rw [siteEdits, List.flatMap_append, List.flatMap_singleton]
  rfl

theorem text_ne_nil_of_mem_siteEdits (hne : ∀ f r, lookup.get? f = some r → r ≠ []) {e : Edit}
    (he : e ∈ siteEdits lookup items) : e.text ≠ [] := by
  obtain ⟨item, -, he⟩ := List.mem_flatMap.1 he
  rw [itemEdits] at he
  split at he
  · next rendition hr =>
    obtain ⟨site, -, rfl⟩ := List.mem_map.1 he
    have hrendition := hne _ _ hr
    cases site.form <;> simp [Site.Form.write, Quoting.wrap, hrendition]
  · cases he

theorem Spread.left (h : Spread source (before ++ after)) : Spread source before := by
  have hsites : Item.sitesOf (before ++ after) = Item.sitesOf before ++ Item.sitesOf after :=
    List.flatMap_append
  obtain ⟨hapart, hholds⟩ := h
  rw [hsites] at hapart hholds
  exact ⟨(List.pairwise_append.1 hapart).1, fun site hsite => hholds site (List.mem_append_left _ hsite)⟩

theorem Spread.holds_span (h : Spread source items) :
    ∀ s ∈ (Item.sitesOf items).map (·.span), s.start < s.stop ∧ ∃ m, Stands source s m :=
  List.forall_mem_map.2 h.holds

/-- No two of the edits are at one site. -/
theorem Spread.siteEdits_ne (h : Spread source items) (lookup : Table Text) :
    (siteEdits lookup items).Pairwise fun a b => a.span ≠ b.span := by
  have hsub := span_siteEdits_sublist lookup items
  have hapart := (List.pairwise_map.2 h.apart).sublist hsub
  refine List.Pairwise.imp_of_mem ?_ (List.pairwise_map.1 hapart)
  intro a b ha _ hab
  exact hab.ne (h.holds_span a.span (hsub.subset (List.mem_map_of_mem ha))).1

/-- What one search does, where it finds the sites of its item and nothing else. -/
theorem applyAll_of_findsSites (h : Spread source (before ++ [item]))
    (hne : ∀ f r, lookup.get? f = some r → r ≠ [])
    (hlookup : lookup.get? item.fingerprint = some rendition)
    (hpair : rawPair item rendition = some (old, new))
    (hfinds : FindsSites lookup source before item rendition old new)
    (hx : Edit.applyAll source (siteEdits lookup before) =
      .ok (translateRaw lookup source before).1) :
    Edit.applyAll source (siteEdits lookup (before ++ [item])) =
      .ok (translateRaw lookup source (before ++ [item])).1 := by
  have hapart := List.pairwise_map.2 h.apart
  have hone := h.siteEdits_ne lookup
  have hspan : ∀ e ∈ siteEdits lookup (before ++ [item]),
      e.span ∈ (Item.sitesOf (before ++ [item])).map (·.span) := fun e he =>
    (span_siteEdits_sublist lookup _).subset (List.mem_map_of_mem he)
  have hitem : itemEdits lookup item = item.sites.map fun site => ⟨site.span, new⟩ := by
    rw [itemEdits, hlookup]
    exact List.map_congr_left fun site hsite => by rw [(hfinds.alike site hsite).2]
  have hmem : ∀ site ∈ item.sites,
      site.span ∈ (Item.sitesOf (before ++ [item])).map (·.span) := by
    intro site hsite
    exact List.mem_map_of_mem (List.mem_flatMap.2 ⟨item, by simp, hsite⟩)
  rw [siteEdits_concat] at hone hspan ⊢
  rw [Edit.applyAll_append hapart h.holds_span hspan hone
    (fun e he => text_ne_nil_of_mem_siteEdits hne he) hx]
  -- The sites of the item have moved, and the text looked for still stands there.
  obtain ⟨y, hy, hmoved, hstands, -⟩ := Edit.exists_applyAll hapart h.holds_span
    (fun e he => hspan e (List.mem_append_left _ he)) (List.pairwise_append.1 hone).1
  rw [hx] at hy
  cases hy
  have hstill : ∀ site ∈ item.sites, Stands (translateRaw lookup source before).1
      (remap (siteEdits lookup before) site.span) old := by
    intro site hsite
    have hnone : (siteEdits lookup before).find? (·.span == site.span) = none := by
      refine List.find?_eq_none.2 fun e he heq => ?_
      refine (List.pairwise_append.1 hone).2.2 e he ⟨site.span, new⟩ ?_ (beq_iff_eq.1 heq)
      rw [hitem]
      exact List.mem_map_of_mem hsite
    have hthere := Text.mem_occurrences.1 (hfinds.alike site hsite).1
    have hafter := hstands site.span (hmem site hsite) old hthere
    rwa [Edit.textAfter, hnone] at hafter
  obtain ⟨first, hfirst⟩ : ∃ site, site ∈ item.sites := by
    rw [rawPair] at hpair
    obtain ⟨site, hsite, -⟩ := Option.map_eq_some_iff.1 hpair
    exact ⟨site, List.mem_of_mem_head? hsite⟩
  have hold : old ≠ [] :=
    (Text.mem_occurrences.1 (hfinds.alike first hfirst).1).lt_iff.1
      (h.holds_span first.span (hmem first hfirst)).1
  rw [translateRaw_append, translateRaw_some _ hlookup hpair, if_pos (hstill first hfirst).occurs,
    hitem, List.map_map]
  refine Edit.applyAll_eq_replaceAll hold ?_ ?_ ?_
  · rw [List.map_map]
    have hsub : item.sites.Sublist (Item.sitesOf (before ++ [item])) := by
      rw [Item.sitesOf, List.flatMap_append, List.flatMap_singleton]
      exact List.sublist_append_right _ _
    rw [List.map_map] at hmoved
    exact hmoved.sublist (hsub.map _)
  · exact List.forall_mem_map.2 fun site hsite => ⟨hstill site hsite, rfl⟩
  · intro span hspan
    obtain ⟨site, hsite, rfl⟩ := hfinds.only span (Text.mem_occurrences.2 hspan)
    exact ⟨_, List.mem_map_of_mem hsite, rfl⟩

/-! ### All items -/

/-- Where every search finds the sites of its item and nothing else, the items that have had their turn
are written at their sites. By induction on how many they are. -/
theorem applyAll_siteEdits (h : Spread source items)
    (hne : ∀ f r, lookup.get? f = some r → r ≠ [])
    (hfinds : ∀ k, ∀ item ∈ items[k]?, ∀ rendition ∈ lookup.get? item.fingerprint,
      ∀ pair ∈ rawPair item rendition,
        FindsSites lookup source (items.take k) item rendition pair.1 pair.2) :
    Edit.applyAll source (siteEdits lookup items) = .ok (translateRaw lookup source items).1 := by
  suffices hprefix : ∀ before after, items = before ++ after →
      Edit.applyAll source (siteEdits lookup before) = .ok (translateRaw lookup source before).1 by
    exact hprefix items [] (List.append_nil _).symm
  intro before
  induction before using List.reverseRecOn with
  | nil =>
    intro after _
    exact Edit.applyAll_nil source
  | append_singleton before item ih =>
    intro after hitems
    have hsplit : items = before ++ item :: after := by rw [hitems, List.append_assoc]; rfl
    have hx := ih (item :: after) hsplit
    have hturn : items[before.length]? = some item := by simp [hsplit]
    have hbefore : items.take before.length = before := by simp [hsplit]
    rw [hitems] at h
    cases hpair : (lookup.get? item.fingerprint).bind (rawPair item) with
    | none =>
      obtain ⟨hnothing, hsame⟩ := translateRaw_none hpair
      rw [siteEdits_concat, hnothing, List.append_nil, translateRaw_append, hsame]
      exact hx
    | some pair =>
      obtain ⟨rendition, hlookup, hpair⟩ := Option.bind_eq_some_iff.1 hpair
      have hitem := hfinds before.length item hturn rendition hlookup pair hpair
      rw [hbefore] at hitem
      exact applyAll_of_findsSites h.left hne hlookup hpair hitem hx

theorem translateRaw_nothing (x : Text) (items : List Item) : (translateRaw [] x items).1 = x := by
  induction items with
  | nil => rfl
  | cons item items ih =>
    rw [translateRaw_cons, (translateRaw_none rfl).2, ih]

/-- Replacing texts wherever they occur comes to the same as writing renditions at the recorded sites,
if every search finds the sites of its item and nothing else. -/
theorem translate_raw_eq {rules : CallRules} {discarded : List Text} {stem content : Text}
    {index index' : Index} {s : Script}
    (h : parseChunks rules discarded stem content index = .ok (s, index')) (renditions : List Entry)
    (hfinds : ∀ k, ∀ item ∈ s.items[k]?, ∀ rendition ∈ (usable renditions).get? item.fingerprint,
      ∀ pair ∈ rawPair item rendition,
        FindsSites (usable renditions) s.render (s.items.take k) item rendition pair.1 pair.2) :
    Edit.applyAll s.render (siteEdits (usable renditions) s.items) =
      .ok (s.translate renditions).1.render := by
  have hspread := spread_of_parseChunks h
  have hbody : s.body = .raw content.normalize := by
    obtain ⟨items, -, rfl⟩ := parseChunks_eq_ok_iff.1 h
    rfl
  have hrender : s.render = content.normalize := by rw [render, hbody]
  rw [← hrender] at hspread hbody
  rw [applyAll_siteEdits hspread (fun _ _ => ne_nil_of_usable) hfinds, translate]
  split
  · next hnone =>
    rcases Bool.or_eq_true_iff.1 hnone with hitems | hlookup
    · rw [List.isEmpty_iff.1 hitems]
      rfl
    · rw [List.isEmpty_iff.1 hlookup, translateRaw_nothing]
  · rw [hbody]
    rfl

/-- A text on two sites, and one whose rendition is the first text: by then that has had its turn. -/
theorem translate_raw_eq_thrice :
    let renditions : List Entry :=
      [{ Entry.new ['A'] (some (Text.of "f(\"A\",\"A\")")) with rendition := ['C'] },
        { Entry.new ['B'] (some (Text.of "f(\"B\")")) with rendition := ['A'] }]
    ∃ s index', parseChunks .builtin [] ['T'] (Text.of "f(\"A\",\"A\")\nf(\"B\")\n") .empty =
        .ok (s, index') ∧
      (∀ k, ∀ item ∈ s.items[k]?, ∀ rendition ∈ (usable renditions).get? item.fingerprint,
        ∀ pair ∈ rawPair item rendition,
          FindsSites (usable renditions) s.render (s.items.take k) item rendition pair.1 pair.2) ∧
      Edit.applyAll s.render (siteEdits (usable renditions) s.items) =
        .ok (s.translate renditions).1.render ∧
      (s.translate renditions).1.render = Text.of "f(\"C\",\"C\")\nf(\"A\")\n" := by
  intro renditions
  have hrun : ∃ r,
      parseChunks .builtin [] ['T'] (Text.of "f(\"A\",\"A\")\nf(\"B\")\n") .empty = .ok r ∧
      decide ((∀ k < r.1.items.length, ∀ item ∈ r.1.items[k]?,
        ∀ rendition ∈ (usable renditions).get? item.fingerprint, ∀ pair ∈ rawPair item rendition,
          FindsSites (usable renditions) r.1.render (r.1.items.take k) item rendition pair.1
            pair.2) ∧
        (r.1.translate renditions).1.render = Text.of "f(\"C\",\"C\")\nf(\"A\")\n") = true :=
    exists_ok_of_any (by decide +kernel)
  obtain ⟨⟨s, index'⟩, h, hfacts⟩ := hrun
  obtain ⟨hfinds, hrender⟩ := of_decide_eq_true hfacts
  have hfinds : ∀ k, ∀ item ∈ s.items[k]?,
      ∀ rendition ∈ (usable renditions).get? item.fingerprint, ∀ pair ∈ rawPair item rendition,
        FindsSites (usable renditions) s.render (s.items.take k) item rendition pair.1 pair.2 :=
    fun k item hitem => hfinds k (List.getElem?_eq_some_iff.1 hitem).1 item hitem
  exact ⟨s, index', h, hfinds, translate_raw_eq h renditions hfinds, hrender⟩

/-- The text of every item with a rendition occurs in the script only at sites of that item. -/
def OccursAtSites (s : Script) (lookup : Table Text) : Prop :=
  ∀ item ∈ s.items, ∀ rendition ∈ lookup.get? item.fingerprint, ∀ pair ∈ rawPair item rendition,
    ∀ span ∈ s.render.occurrences pair.1, ∃ site ∈ item.sites, span = site.span

instance (s : Script) (lookup : Table Text) : Decidable (s.OccursAtSites lookup) :=
  inferInstanceAs (Decidable (∀ item ∈ s.items, ∀ rendition ∈ lookup.get? item.fingerprint,
    ∀ pair ∈ rawPair item rendition, ∀ span ∈ s.render.occurrences pair.1,
      ∃ site ∈ item.sites, span = site.span))

/-- It is not enough that texts occur only at their sites in the script as it was parsed: a rendition
may bring in the text of a later item, and a site may be quoted in another way than the first one of
its item. -/
theorem translate_raw_ne :
    (let renditions : List Entry :=
        [{ Entry.new ['A'] (some (Text.of "f(\"A\")")) with rendition := ['B'] },
          { Entry.new ['B'] (some (Text.of "f(\"B\")")) with rendition := ['C'] }]
      ∃ s index', parseChunks .builtin [] ['T'] (Text.of "f(\"A\")\nf(\"B\")\n") .empty =
          .ok (s, index') ∧ s.OccursAtSites (usable renditions) ∧
        Edit.applyAll s.render (siteEdits (usable renditions) s.items) ≠
          .ok (s.translate renditions).1.render) ∧
    (let renditions : List Entry :=
        [{ Entry.new ['A'] (some (Text.of "f(\"A\",'A')")) with rendition := ['B'] }]
      ∃ s index', parseChunks .builtin [] ['T'] (Text.of "f(\"A\",'A')\n") .empty =
          .ok (s, index') ∧ s.OccursAtSites (usable renditions) ∧
        Edit.applyAll s.render (siteEdits (usable renditions) s.items) ≠
          .ok (s.translate renditions).1.render) := by
  constructor
  · intro renditions
    have hrun : ∃ r, parseChunks .builtin [] ['T'] (Text.of "f(\"A\")\nf(\"B\")\n") .empty = .ok r ∧
        decide (r.1.OccursAtSites (usable renditions) ∧
          r.1.render = Text.of "f(\"A\")\nf(\"B\")\n" ∧
          siteEdits (usable renditions) r.1.items =
            [⟨⟨2, 5⟩, Text.of "\"B\""⟩, ⟨⟨9, 12⟩, Text.of "\"C\""⟩] ∧
          (r.1.translate renditions).1.render = Text.of "f(\"C\")\nf(\"C\")\n") = true :=
      exists_ok_of_any (by decide +kernel)
    obtain ⟨⟨s, index'⟩, h, hfacts⟩ := hrun
    obtain ⟨hsites, hrender, hedits, hraw⟩ := of_decide_eq_true hfacts
    refine ⟨s, index', h, hsites, ?_⟩
    rw [hrender, hedits, hraw, Edit.applyAll, Edit.inOrder_of_pairwise (by simp)]
    decide +kernel
  · intro renditions
    have hrun : ∃ r, parseChunks .builtin [] ['T'] (Text.of "f(\"A\",'A')\n") .empty = .ok r ∧
        decide (r.1.OccursAtSites (usable renditions) ∧ r.1.render = Text.of "f(\"A\",'A')\n" ∧
          siteEdits (usable renditions) r.1.items =
            [⟨⟨2, 5⟩, Text.of "\"B\""⟩, ⟨⟨6, 9⟩, Text.of "'B'"⟩] ∧
          (r.1.translate renditions).1.render = Text.of "f(\"B\",'A')\n") = true :=
      exists_ok_of_any (by decide +kernel)
    obtain ⟨⟨s, index'⟩, h, hfacts⟩ := hrun
    obtain ⟨hsites, hrender, hedits, hraw⟩ := of_decide_eq_true hfacts
    refine ⟨s, index', h, hsites, ?_⟩
    rw [hrender, hedits, hraw, Edit.applyAll, Edit.inOrder_of_pairwise (by simp)]
    decide +kernel

end Script

end Phrasebook
