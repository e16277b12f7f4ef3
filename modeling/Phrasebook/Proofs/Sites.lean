import Phrasebook.Proofs.Candidates
import Phrasebook.Proofs.Keys

/-!
The sites that are recorded for a script.

Finds with the same fingerprint become one item, and no site is lost or doubled on the way. So the
recorded sites cover the texts of the candidates exactly.
-/
namespace Phrasebook

namespace Item

/-- All sites of items. -/
def sitesOf (items : List Item) : List Site := items.flatMap (·.sites)

variable {items : List Item} {f : Find}

theorem map_add_eq_self (h : ∀ item ∈ items, item.fingerprint ≠ f.entry.fingerprint) :
    (items.map fun item => if item.fingerprint = f.entry.fingerprint then item.add f else item) =
      items := by
  have hid : ∀ item ∈ items,
      (if item.fingerprint = f.entry.fingerprint then item.add f else item) = item :=
    fun item hitem => if_neg (h item hitem)
  rw [List.map_congr_left hid, List.map_id']

/-- A find joins the item of its fingerprint or becomes an item of its own. -/
theorem insert_spec (h : (items.map (·.fingerprint)).Nodup) :
    ((insert items f).map (·.fingerprint)).Nodup ∧
      (sitesOf (insert items f)).Perm (sitesOf items ++ [f.site]) := by
  by_cases hany : (items.any (·.fingerprint == f.entry.fingerprint)) = true
  · have hinsert : insert items f = items.map fun item =>
        if item.fingerprint = f.entry.fingerprint then item.add f else item := if_pos hany
    rw [hinsert]
    obtain ⟨item, hitem, heq⟩ := List.any_eq_true.1 hany
    have heq : item.fingerprint = f.entry.fingerprint := by simpa using heq
    obtain ⟨before, after, rfl⟩ := List.append_of_mem hitem
    -- The fingerprint occurs only here, so the other items stay as they are.
    rw [List.map_append, List.map_cons, List.nodup_append, List.nodup_cons] at h
    obtain ⟨hbefore, ⟨hafter, hnodup⟩, hapart⟩ := h
    have hleft : ∀ other ∈ before, other.fingerprint ≠ f.entry.fingerprint := by
      intro other ho he
      exact hapart _ (List.mem_map_of_mem ho) _ List.mem_cons_self (he.trans heq.symm)
    have hright : ∀ other ∈ after, other.fingerprint ≠ f.entry.fingerprint := by
      intro other ho he
      exact hafter (List.mem_map.2 ⟨other, ho, he.trans heq.symm⟩)
    rw [List.map_append, List.map_cons, map_add_eq_self hleft, map_add_eq_self hright, if_pos heq]
    constructor
    · rw [List.map_append, List.map_cons, List.nodup_append, List.nodup_cons]
      exact ⟨hbefore, ⟨hafter, hnodup⟩, hapart⟩
    · simp only [sitesOf, List.flatMap_append, List.flatMap_cons, add, List.append_assoc]
      exact List.Perm.append_left _ (List.Perm.append_left _ List.perm_append_comm)
  · have hinsert : insert items f = items ++ [ofFind f] := if_neg hany
    rw [hinsert]
    constructor
    · rw [List.map_append, List.nodup_append]
      refine ⟨h, List.nodup_singleton _, ?_⟩
      rintro _ ha _ hb rfl
      obtain ⟨item, hitem, he⟩ := List.mem_map.1 ha
      rw [List.map_singleton, List.mem_singleton] at hb
      exact hany (List.any_eq_true.2 ⟨item, hitem, by simp [he, hb, ofFind]⟩)
    · simp [sitesOf, ofFind]

/-- Collecting finds keeps their sites. -/
theorem sitesOf_collect (finds : List Find) :
    (sitesOf (collect finds)).Perm (finds.map (·.site)) := by
  suffices h : ∀ items : List Item, (items.map (·.fingerprint)).Nodup →
      (sitesOf (finds.foldl insert items)).Perm (sitesOf items ++ finds.map (·.site)) by
    simpa [sitesOf, collect] using h [] List.nodup_nil
  induction finds with
  | nil => simp
  | cons f finds ih =>
    intro items hitems
    obtain ⟨hnodup, hperm⟩ := insert_spec (f := f) hitems
    refine (ih _ hnodup).trans ?_
    simpa using hperm.append_right (finds.map (·.site))

/-- Keys are only names. -/
theorem sitesOf_assignKeys {stem : Text} {x y : Index} {keyed : List Item}
    (h : Script.assignKeys stem x items = .ok (keyed, y)) : sitesOf keyed = sitesOf items := by
  have hsites : keyed.map (·.sites) = items.map (·.sites) :=
    Script.map_assignKeys (fun _ _ => rfl) h
  rw [sitesOf, sitesOf, List.flatMap_def, List.flatMap_def, hsites]

end Item

namespace Tree

open Finds

variable {source : Text} {t : Tree} {rules : CallRules}

/-- The sites recorded for a tree. -/
def sites (rules : CallRules) (t : Tree) : List Site := Item.sitesOf (Item.collect (t.finds rules))

theorem sites_perm (rules : CallRules) (t : Tree) :
    (t.sites rules).Perm ((t.finds rules).map (·.site)) :=
  Item.sitesOf_collect _

theorem mem_sites {s : Site} : s ∈ t.sites rules ↔ ∃ f ∈ t.finds rules, f.site = s := by
  rw [(sites_perm rules t).mem_iff, List.mem_map]

theorem sites_apart (h : ofScript source = .ok t) (rules : CallRules) :
    (t.sites rules).Pairwise fun a b => a.span.Apart b.span := by
  refine ((sites_perm rules t).pairwise_iff fun h => Span.Apart.symm h).2 ?_
  exact List.pairwise_map.2 (finds_apart h rules)

/-- Sites that are apart do not hold the same bytes. -/
theorem countP_contains_le {sites : List Site} {span : Span} (hlt : span.start < span.stop)
    (h : sites.Pairwise fun a b => a.span.Apart b.span) :
    sites.countP (fun s => s.span.contains span) ≤ 1 := by
  induction sites with
  | nil => simp
  | cons a sites ih =>
    obtain ⟨hfirst, hrest⟩ := List.pairwise_cons.1 h
    by_cases ha : a.span.contains span = true
    · have hnone : sites.countP (fun s => s.span.contains span) = 0 := by
        refine List.countP_eq_zero.2 fun b hb hc => ?_
        rw [Span.contains_iff] at ha hc
        rcases hfirst b hb with hab | hab <;> omega
      simp [ha, hnone]
    · simpa [List.countP_cons, ha] using ih hrest

/-- A site lies in the candidate it was found in, and holds a text of it. -/
theorem exists_candidate (h : ofScript source = .ok t) {s : Site} (hs : s ∈ t.sites rules) :
    ∃ n ∈ t.candidates, n.node.span.contains s.span = true ∧ s.span.start < s.span.stop ∧
      ∃ lit ∈ n.node.locate n.above, isText rules source lit = true ∧
        s.span.contains lit.node.span = true := by
  obtain ⟨f, hf, rfl⟩ := mem_sites.1 hs
  obtain ⟨n, hn, hf'⟩ := (mem_finds h).1 hf
  have hyields := candidate_yields h rules hn
  exact ⟨n, hn, Span.contains_iff.2 (hyields.inside f hf'), (hyields.exact_ f hf').1,
    hyields.sound f hf'⟩

/-- Every text of a candidate that no denied call surrounds lies in a site. -/
theorem exists_site (h : ofScript source = .ok t) {n lit : Node.Located} (hn : n ∈ t.candidates)
    (hlit : lit ∈ n.node.locate n.above) (ht : isText rules source lit = true)
    (ha : Admitted rules source lit) :
    ∃ s ∈ t.sites rules, s.span.contains lit.node.span = true := by
  obtain ⟨f, hf, hc⟩ := (candidate_yields h rules hn).complete lit hlit ht ha
  exact ⟨f.site, mem_sites.2 ⟨f, (mem_finds h).2 ⟨n, hn, hf⟩, rfl⟩, hc⟩

/-- A node that neither holds a candidate nor lies in one is apart from every site. -/
theorem apart_of_outside (h : ofScript source = .ok t) {m : Node.Located}
    (hm : m ∈ t.root.locate [])
    (hout : ∀ n ∈ t.candidates, m ∉ n.node.locate n.above ∧ n ∉ m.node.locate m.above) {s : Site}
    (hs : s ∈ t.sites rules) : s.span.Apart m.node.span := by
  obtain ⟨-, -, -, hl⟩ := laid_of_ofScript h
  obtain ⟨n, hn, hin, -⟩ := exists_candidate h hs
  obtain ⟨hnm, hmn⟩ := hout n hn
  rw [Span.contains_iff] at hin
  rcases hl.apart_or (List.mem_filter.1 hn).1 hm with (hap | hap) | hap | hap
  · exact .inl (by omega)
  · exact .inr (by omega)
  · exact absurd hap hmn
  · exact absurd hap hnm

/-- Only one candidate holds a span with bytes in it. -/
theorem candidate_unique (h : ofScript source = .ok t) {a b : Node.Located} {span : Span}
    (ha : a ∈ t.candidates) (hb : b ∈ t.candidates) (hlt : span.start < span.stop)
    (hca : a.node.span.contains span = true) (hcb : b.node.span.contains span = true) : a = b := by
  obtain ⟨-, -, -, hl⟩ := laid_of_ofScript h
  obtain ⟨ha, hca'⟩ := List.mem_filter.1 ha
  obtain ⟨hb, hcb'⟩ := List.mem_filter.1 hb
  by_contra hne
  rw [Span.contains_iff] at hca hcb
  rcases candidates_apart hl ha hb hca' hcb' hne with hab | hab <;> omega

/-- The sites of a tree cover its texts exactly. -/
structure SitesCover (rules : CallRules) (t : Tree) : Prop where
  /-- A text of a candidate lies in one site, unless a denied call surrounds it. -/
  once : ∀ n ∈ t.candidates, ∀ lit ∈ n.node.locate n.above, isText rules t.source lit = true →
    Admitted rules t.source lit →
      (t.sites rules).countP (fun s => s.span.contains lit.node.span) = 1
  /-- A site lies in one candidate and holds a text of it. -/
  held : ∀ s ∈ t.sites rules, ∃ n ∈ t.candidates, n.node.span.contains s.span = true ∧
    (∀ n' ∈ t.candidates, n'.node.span.contains s.span = true → n' = n) ∧
    ∃ lit ∈ n.node.locate n.above, isText rules t.source lit = true ∧
      s.span.contains lit.node.span = true
  /-- What neither lies in a candidate nor holds one is apart from every site. -/
  outside : ∀ m ∈ t.root.locate [],
    (∀ n ∈ t.candidates, m ∉ n.node.locate n.above ∧ n ∉ m.node.locate m.above) →
      ∀ s ∈ t.sites rules, s.span.Apart m.node.span

theorem sites_cover_texts (h : ofScript source = .ok t) (rules : CallRules) :
    t.SitesCover rules := by
  obtain ⟨rfl, -, -, hl⟩ := laid_of_ofScript h
  refine ⟨?_, ?_, fun m hm hout s hs => apart_of_outside h hm hout hs⟩
  · intro n hn lit hlit ht ha
    have hlaid := (hl.of_mem_locate (List.mem_filter.1 hn).1).of_mem_locate hlit
    have hstring := isString_of_isText ht
    have hlt := (hlaid.fit.bounds (.inl (Node.Kind.isExpression_of_isString hstring))).1
    have hle := countP_contains_le hlt (sites_apart h rules)
    obtain ⟨s, hs, hc⟩ := exists_site h hn hlit ht ha
    have hpos : 0 < (t.sites rules).countP (fun s => s.span.contains lit.node.span) :=
      List.countP_pos_iff.2 ⟨s, hs, hc⟩
    omega
  · intro s hs
    obtain ⟨n, hn, hin, hlt, hlit⟩ := exists_candidate h hs
    exact ⟨n, hn, hin, fun n' hn' hin' => candidate_unique h hn' hn hlt hin' hin, hlit⟩

/-- A script in which a condition, a call and an assignment to a member stand side by side. -/
theorem sites_cover_texts_conditional :
    ∃ t, ofScript (Text.of "if a == \"Yes\":\n\tshow(\"Hi\", has(\"No\"))\n\tb.c = \"Low\"\n") = .ok t ∧
      t.candidates.length = 2 ∧ t.SitesCover CallRules.builtin := by
  have hok : ((ofScript (Text.of
      "if a == \"Yes\":\n\tshow(\"Hi\", has(\"No\"))\n\tb.c = \"Low\"\n")).toOption.map
        (·.candidates.length)) = some 2 := by decide +kernel
  cases h : ofScript (Text.of
      "if a == \"Yes\":\n\tshow(\"Hi\", has(\"No\"))\n\tb.c = \"Low\"\n") with
  | error e => simp [h, Except.toOption] at hok
  | ok t =>
    refine ⟨t, rfl, ?_, sites_cover_texts h CallRules.builtin⟩
    simpa [h, Except.toOption] using hok

end Tree

end Phrasebook
