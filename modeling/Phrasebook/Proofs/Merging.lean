import Mathlib.Data.Set.Function
import Phrasebook.Proofs.Sites

/-!
Which finds become one item.

Items are told apart by their fingerprints, so an item `Gathers` the finds of one fingerprint: it has
their sites in order, and the phrase and context of the first. A fingerprint is taken of phrase and
context without a mark between them. Two finds of a script are therefore on one item exactly if these
together are the same text, even where the phrases differ (`Tree.merged_phrases`).
-/
namespace Phrasebook

namespace Item

variable {items : List Item} {fs : List Find} {f : Find} {item : Item}

/-- The items of finds: one for each fingerprint, with all sites of the finds that have it. -/
structure Gathers (fs : List Find) (items : List Item) : Prop where
  nodup : (items.map (·.fingerprint)).Nodup
  all : ∀ f ∈ fs, ∃ item ∈ items, item.fingerprint = f.entry.fingerprint
  sites : ∀ item ∈ items,
    item.sites = (fs.filter (·.entry.fingerprint == item.fingerprint)).map (·.site)
  first : ∀ item ∈ items, ∃ f, fs.find? (·.entry.fingerprint == item.fingerprint) = some f ∧
    f.entry.phrase = item.entry.phrase ∧ f.entry.context = item.entry.context

/-- The items after an insertion: those of other fingerprints, the one that the find has joined, or
the one that is made for it. -/
theorem mem_insert (h : item ∈ insert items f) :
    (item ∈ items ∧ item.fingerprint ≠ f.entry.fingerprint) ∨
      (∃ old ∈ items, old.fingerprint = f.entry.fingerprint ∧ item = old.add f) ∨
      (item = ofFind f ∧ ∀ old ∈ items, old.fingerprint ≠ f.entry.fingerprint) := by
  simp only [insert] at h
  split at h
  · obtain ⟨old, hold, rfl⟩ := List.mem_map.1 h
    by_cases heq : old.fingerprint = f.entry.fingerprint
    · exact .inr (.inl ⟨old, hold, heq, if_pos heq⟩)
    · rw [if_neg (show ¬ old.fingerprint = (ofFind f).fingerprint from heq)]
      exact .inl ⟨hold, heq⟩
  · next hany =>
    have hother : ∀ old ∈ items, old.fingerprint ≠ f.entry.fingerprint := by
      intro old hold heq
      exact hany (List.any_eq_true.2 ⟨old, hold, beq_iff_eq.2 heq⟩)
    rcases List.mem_append.1 h with h | h
    · exact .inl ⟨h, hother item h⟩
    · exact .inr (.inr ⟨List.mem_singleton.1 h, hother⟩)

theorem exists_mem_insert {x : Text}
    (h : (∃ item ∈ items, item.fingerprint = x) ∨ x = f.entry.fingerprint) :
    ∃ item ∈ insert items f, item.fingerprint = x := by
  simp only [insert]
  split
  · next hany =>
    obtain ⟨item, hitem, rfl⟩ : ∃ item ∈ items, item.fingerprint = x := by
      rcases h with h | rfl
      · exact h
      · simpa [ofFind] using hany
    refine ⟨_, List.mem_map_of_mem hitem, ?_⟩
    split <;> rfl
  · rcases h with ⟨item, hitem, rfl⟩ | rfl
    · exact ⟨item, List.mem_append_left _ hitem, rfl⟩
    · exact ⟨ofFind f, List.mem_append_right _ List.mem_cons_self, rfl⟩

theorem Gathers.insert (h : Gathers fs items) : Gathers (fs ++ [f]) (insert items f) := by
  -- No find so far has the fingerprint of an item that is made now.
  have hnone (hother : ∀ old ∈ items, old.fingerprint ≠ f.entry.fingerprint) :
      ∀ g ∈ fs, ¬ (g.entry.fingerprint == f.entry.fingerprint) = true := by
    intro g hg heq
    obtain ⟨old, hold, hfp⟩ := h.all g hg
    exact hother old hold (hfp.trans (beq_iff_eq.1 heq))
  refine ⟨(insert_spec h.nodup).1, ?_, ?_, ?_⟩
  · intro g hg
    rcases List.mem_append.1 hg with hg | hg
    · exact exists_mem_insert (.inl (h.all g hg))
    · exact exists_mem_insert (.inr (by rw [List.mem_singleton.1 hg]))
  · intro item hitem
    rw [List.filter_append, List.map_append]
    rcases mem_insert hitem with ⟨hitem, hne⟩ | ⟨old, hold, heq, rfl⟩ | ⟨rfl, hother⟩
    · simp [h.sites item hitem, hne.symm]
    · simp [Item.add, h.sites old hold, heq]
    · rw [ofFind, List.filter_eq_nil_iff.2 (hnone hother)]
      simp
  · intro item hitem
    rw [List.find?_append]
    rcases mem_insert hitem with ⟨hitem, -⟩ | ⟨old, hold, heq, rfl⟩ | ⟨rfl, hother⟩
    · obtain ⟨g, hg, hentry⟩ := h.first item hitem
      exact ⟨g, by rw [hg, Option.some_or], hentry⟩
    · obtain ⟨g, hg, hentry⟩ := h.first old hold
      exact ⟨g, by simp only [Item.add]; rw [hg, Option.some_or], hentry⟩
    · refine ⟨f, ?_, rfl, rfl⟩
      rw [ofFind, List.find?_eq_none.2 (hnone hother)]
      simp

/-- Collecting finds gathers them, by induction on the finds still to come. -/
theorem gathers_collect (fs : List Find) : Gathers fs (collect fs) := by
  suffices h : ∀ before items, Gathers before items →
      Gathers (before ++ fs) (fs.foldl Item.insert items) by
    exact h [] [] ⟨List.nodup_nil, by simp, by simp, by simp⟩
  induction fs with
  | nil => simp
  | cons f fs ih =>
    intro before items h
    simpa using ih (before ++ [f]) _ h.insert

end Item

namespace Tree

variable {source : Text} {t : Tree} {rules : CallRules} {f g : Find}

/-- A find is known by its site. -/
theorem find_unique (h : ofScript source = .ok t) (hf : f ∈ t.finds rules) (hg : g ∈ t.finds rules)
    (hsite : f.site = g.site) : f = g := by
  obtain ⟨hlt, -⟩ := finds_exact h hf
  obtain ⟨i, hi, rfl⟩ := List.mem_iff_getElem.1 hf
  obtain ⟨j, hj, rfl⟩ := List.mem_iff_getElem.1 hg
  have hapart := List.pairwise_iff_getElem.1 (finds_apart h rules)
  rw [hsite] at hlt
  rcases Nat.lt_trichotomy i j with hij | rfl | hij
  · have := hapart i j hi hj hij
    rw [hsite] at this
    rcases this with h | h <;> omega
  · rfl
  · have := hapart j i hj hi hij
    rw [hsite] at this
    rcases this with h | h <;> omega

theorem mem_sites_iff (h : ofScript source = .ok t) (hf : f ∈ t.finds rules) {item : Item}
    (hitem : item ∈ Item.collect (t.finds rules)) :
    f.site ∈ item.sites ↔ f.entry.fingerprint = item.fingerprint := by
  rw [(Item.gathers_collect _).sites item hitem, List.mem_map]
  constructor
  · rintro ⟨g, hg, hsite⟩
    obtain ⟨hg, hfp⟩ := List.mem_filter.1 hg
    rw [find_unique h hf hg hsite.symm]
    exact beq_iff_eq.1 hfp
  · intro hfp
    exact ⟨f, List.mem_filter.2 ⟨hf, beq_iff_eq.2 hfp⟩, rfl⟩

/-- Two finds of a script are on one item exactly if they have the same fingerprint. -/
theorem same_item_iff (h : ofScript source = .ok t) (hf : f ∈ t.finds rules)
    (hg : g ∈ t.finds rules) :
    (∃ item ∈ Item.collect (t.finds rules), f.site ∈ item.sites ∧ g.site ∈ item.sites) ↔
      f.entry.fingerprint = g.entry.fingerprint := by
  constructor
  · rintro ⟨item, hitem, hfs, hgs⟩
    exact ((mem_sites_iff h hf hitem).1 hfs).trans ((mem_sites_iff h hg hitem).1 hgs).symm
  · intro hfp
    obtain ⟨item, hitem, heq⟩ := (Item.gathers_collect _).all f hf
    exact ⟨item, hitem, (mem_sites_iff h hf hitem).2 heq.symm,
      (mem_sites_iff h hg hitem).2 (hfp.symm.trans heq.symm)⟩

/-- If digests tell texts apart, the finds of an item agree in phrase and context together. -/
theorem same_item_iff_of_injOn (h : ofScript source = .ok t)
    (hinj : Set.InjOn Digest.ofText
      {x | ∃ f ∈ t.finds rules, x = f.entry.phrase ++ f.entry.context.getD []})
    (hf : f ∈ t.finds rules) (hg : g ∈ t.finds rules) :
    (∃ item ∈ Item.collect (t.finds rules), f.site ∈ item.sites ∧ g.site ∈ item.sites) ↔
      f.entry.phrase ++ f.entry.context.getD [] = g.entry.phrase ++ g.entry.context.getD [] := by
  rw [same_item_iff h hf hg]
  exact hinj.eq_iff ⟨f, hf, rfl⟩ ⟨g, hg, rfl⟩

/-- A literal, and a statement which begins with the same word and goes on with the literal's
context. -/
def twoReturns : Text := Text.of "func f():\n\tsay(\"return \")\n\treturn say(\"return \")\n"

/-- Different phrases can be on one item, whatever the digest. -/
theorem merged_phrases : ∃ t, ofScript twoReturns = .ok t ∧ ∃ f ∈ t.finds .builtin,
    ∃ g ∈ t.finds .builtin, f.entry.phrase ≠ g.entry.phrase ∧
      ∃ item ∈ Item.collect (t.finds .builtin), f.site ∈ item.sites ∧ g.site ∈ item.sites := by
  have hok : (ofScript twoReturns).toOption.any (fun t => decide
      ((t.finds .builtin).map (fun f => (f.entry.phrase, f.entry.context)) =
        [(Text.of "return ", some (Text.of "say(\"return \")")),
          (Text.of "return say(\"return \")", none)])) = true := by
    decide +kernel
  obtain ⟨t, h, hpairs⟩ := exists_ok_of_any hok
  obtain ⟨f, _, hfinds, hf, hmore⟩ := List.map_eq_cons_iff.1 (of_decide_eq_true hpairs)
  obtain ⟨g, _, rfl, hg, -⟩ := List.map_eq_cons_iff.1 hmore
  obtain ⟨hfp, hfc⟩ := Prod.mk.inj hf
  obtain ⟨hgp, hgc⟩ := Prod.mk.inj hg
  have hfm : f ∈ t.finds .builtin := by simp [hfinds]
  have hgm : g ∈ t.finds .builtin := by simp [hfinds]
  refine ⟨t, h, f, hfm, g, hgm, by rw [hfp, hgp]; decide, ?_⟩
  refine (same_item_iff h hfm hgm).2 ?_
  simp only [Entry.fingerprint, hfp, hfc, hgp, hgc]
  rfl

end Tree

end Phrasebook
