import Mathlib.Data.List.Pairwise
import Phrasebook.Proofs.Planning

/-!
What becomes of a script when renditions are written into it.

Whether the planned edits are made all at once or one by one from the end, the new text is the old one
with the accepted edits made at once (`Accepts`), and it is a script.
-/
namespace Phrasebook

open Text (Stands size)

namespace Tree

variable {t : Tree} {sites : List Span} {es : List Edit}

/-- Edits at sites that are apart can be made in a whole script; what they make is parsed as a whole
again, since the end of its range moves with the end of the text. -/
theorem replaceSpans_eq (hw : ofScript t.source = .ok t) (hapart : sites.Pairwise Span.Apart)
    (hs : ∀ s ∈ sites, s.start < s.stop ∧ ∃ m, Stands t.source s m)
    (hes : ∀ e ∈ es, e.span ∈ sites) (hone : es.Pairwise fun a b => a.span ≠ b.span) :
    ∃ x, Edit.applyAll t.source es = .ok x ∧
      t.replaceSpans es = (ofScript x).mapError (Fault.ofParseError x) := by
  obtain ⟨x, hx, -, -, hsize⟩ := Edit.exists_applyAll hapart hs hes hone
  refine ⟨x, hx, ?_⟩
  obtain ⟨-, hrange, -⟩ := laid_of_ofScript hw
  have hstop : offsetIn x ((size t.source : Int) + Edit.gain es) = size x := by
    rw [← hsize, offsetIn, if_pos ⟨by omega, by omega⟩]
    omega
  simp only [replaceSpans, hx, hrange, hstop, ofScript]

theorem whole_of_replaceSpans {next : Tree} {x : Text}
    (h : (ofScript x).mapError (Fault.ofParseError x) = .ok next) :
    next.source = x ∧ ofScript next.source = .ok next := by
  cases hx : ofScript x with
  | error e => simp [hx, Except.mapError] at h
  | ok t =>
    simp only [hx, Except.mapError, Except.ok.injEq] at h
    subst h
    have hsource := (laid_of_ofScript hx).1
    exact ⟨hsource, hsource ▸ hx⟩

end Tree

namespace Script

variable {t : Tree} {items : List Item} {sites : List Span}

/-- What is left of planned edits: those accepted make the new tree, those lost each have a refusal. -/
structure Accepts (source : Text) (planned : List Planned) (next : Tree) (accepted : List Planned)
    (late : List (Text × Refusal)) : Prop where
  whole : Tree.ofScript next.source = .ok next
  made : Edit.applyAll source (accepted.map (·.edit)) = .ok next.source
  sublist : accepted.Sublist planned
  lost : ∃ lost : List (Planned × Fault), planned.Perm (accepted ++ lost.map (·.1)) ∧
    late = lost.map fun x => (x.1.key, .breaksScript x.2)

/-- Making edits one by one from the end: those accepted so far, `done`, stand behind those to come,
so that each of these finds its site where it was in the source. -/
theorem applyEach_spec {source : Text} (hapart : sites.Pairwise Span.Apart)
    (hs : ∀ s ∈ sites, s.start < s.stop ∧ ∃ m, Stands source s m) (xs : List (Planned × Nat))
    (hxs : ∀ x ∈ xs, x.1.edit.span ∈ sites)
    (hsorted : xs.Pairwise fun x y => y.1.edit.span.stop ≤ x.1.edit.span.start)
    {done : List Edit} {t : Tree} (hw : Tree.ofScript t.source = .ok t)
    (hdone : ∀ e ∈ done, e.span ∈ sites) (hone : done.Pairwise fun a b => a.span ≠ b.span)
    (hbefore : ∀ x ∈ xs, ∀ e ∈ done, x.1.edit.span.stop ≤ e.span.start)
    (ht : Edit.applyAll source done = .ok t.source) :
    ∃ (kept : List (Planned × Nat)) (lost : List ((Planned × Nat) × Fault)),
      xs.Perm (kept ++ lost.map (·.1)) ∧ (applyEach t xs).2.1 = kept.map (·.2) ∧
      (applyEach t xs).2.2 = lost.map (fun y => (y.1.1.key, .breaksScript y.2)) ∧
      Tree.ofScript (applyEach t xs).1.source = .ok (applyEach t xs).1 ∧
      Edit.applyAll source ((kept.map (·.1.edit)).reverse ++ done) =
        .ok (applyEach t xs).1.source := by
  induction xs generalizing done t with
  | nil => exact ⟨[], [], List.Perm.refl _, rfl, rfl, hw, ht⟩
  | cons x xs ih =>
    obtain ⟨p, i⟩ := x
    obtain ⟨hfirst, hsorted⟩ := List.pairwise_cons.1 hsorted
    have hp : p.edit.span ∈ sites := hxs _ List.mem_cons_self
    obtain ⟨hlt, m, hm⟩ := hs _ hp
    have hpdone : ∀ e ∈ done, p.edit.span.stop ≤ e.span.start := hbefore _ List.mem_cons_self
    obtain ⟨hstep, hstands⟩ := Edit.applyAll_cons hapart hs hp hm hdone hone hpdone ht
    obtain ⟨x, hx, hreplace⟩ := @Tree.replaceSpans_eq t [p.edit.span] [p.edit] hw
      (List.pairwise_singleton _ _) (by simpa using ⟨hlt, m, hstands⟩) (by simp)
      (List.pairwise_singleton _ _)
    have hxs' : ∀ x ∈ xs, x.1.edit.span ∈ sites := fun y hy => hxs y (List.mem_cons_of_mem _ hy)
    cases hnext : t.replaceSpans [p.edit] with
    | ok next =>
      obtain ⟨hsource, hwhole⟩ := Tree.whole_of_replaceSpans (hreplace.symm.trans hnext)
      have hmade : Edit.applyAll source (p.edit :: done) = .ok next.source := by
        rw [← hstep, hx, hsource]
      obtain ⟨kept, lost, hperm, hacc, hlate, hw', happly⟩ := ih hxs' hsorted hwhole
        (List.forall_mem_cons.2 ⟨hp, hdone⟩)
        (List.pairwise_cons.2 ⟨fun e he heq => by
          have := hpdone e he
          rw [← heq] at this
          omega, hone⟩)
        (fun y hy => List.forall_mem_cons.2
          ⟨hfirst y hy, hbefore y (List.mem_cons_of_mem _ hy)⟩) hmade
      refine ⟨(p, i) :: kept, lost, hperm.cons _, ?_, ?_, ?_, ?_⟩
      · simp [applyEach, hnext, hacc]
      · simpa [applyEach, hnext] using hlate
      · simpa [applyEach, hnext] using hw'
      · simpa [applyEach, hnext] using happly
    | error fault =>
      obtain ⟨kept, lost, hperm, hacc, hlate, hw', happly⟩ := ih hxs' hsorted hw hdone hone
        (fun y hy => hbefore y (List.mem_cons_of_mem _ hy)) ht
      refine ⟨kept, ((p, i), fault) :: lost, ?_, ?_, ?_, ?_, ?_⟩
      · exact (hperm.cons _).trans List.perm_middle.symm
      · simpa [applyEach, hnext] using hacc
      · simp [applyEach, hnext, hlate]
      · simpa [applyEach, hnext] using hw'
      · simpa [applyEach, hnext] using happly

/-- From the end to the start, every edit ends before those already made. -/
theorem pairwise_fromEnd {planned : List Planned} (hapart : sites.Pairwise Span.Apart)
    (hs : ∀ s ∈ sites, s.start < s.stop) (hmem : ∀ p ∈ planned, p.edit.span ∈ sites)
    (hone : planned.Pairwise fun a b => a.edit.span ≠ b.edit.span) :
    (fromEnd planned).Pairwise fun x y => y.1.edit.span.stop ≤ x.1.edit.span.start := by
  let le (a b : Planned × Nat) : Bool := b.1.edit.span.start ≤ a.1.edit.span.start
  have hperm : (fromEnd planned).Perm planned.zipIdx := List.mergeSort_perm _ _
  have hle : (fromEnd planned).Pairwise fun a b => le a b = true :=
    List.pairwise_mergeSort (fun a b c hab hbc => by simp only [le, decide_eq_true_eq] at *; omega)
      (fun a b => by simp only [le, Bool.or_eq_true, decide_eq_true_eq]; omega) planned.zipIdx
  have hzip : planned.zipIdx.Pairwise fun x y => x.1.edit.span ≠ y.1.edit.span := by
    rw [← List.zipIdx_map_fst 0 planned] at hone
    exact (List.pairwise_map (f := Prod.fst)).1 hone
  have hne := (hperm.pairwise_iff fun h => Ne.symm h).2 hzip
  have hsite {x : Planned × Nat} (hx : x ∈ fromEnd planned) : x.1.edit.span ∈ sites :=
    hmem _ (List.fst_mem_of_mem_zipIdx (hperm.subset hx))
  have hsymm : Std.Symm Span.Apart := ⟨fun _ _ h => h.symm⟩
  refine List.Pairwise.imp_of_mem ?_ (hne.and hle)
  intro x y hx hy ⟨hxy, hge⟩
  have hx' := hs _ (hsite hx)
  have hy' := hs _ (hsite hy)
  simp only [le, decide_eq_true_eq] at hge
  rcases hapart.forall (hsite hx) (hsite hy) hxy with hap | hap <;> omega

/-- Elements of a list are found again by their numbers. -/
theorem filter_zipIdx_perm {planned : List Planned} {kept rest : List (Planned × Nat)}
    (h : planned.zipIdx.Perm (kept ++ rest)) :
    (planned.zipIdx.filter fun x => (kept.map (·.2)).contains x.2).Perm kept := by
  have hnodup : ((kept ++ rest).map (·.2)).Nodup := by
    refine (h.map _).nodup_iff.1 ?_
    rw [List.zipIdx_map_snd]
    exact List.nodup_range'
  rw [List.map_append, List.nodup_append] at hnodup
  refine (h.filter _).trans ?_
  rw [List.filter_append]
  have hkept : kept.filter (fun x => (kept.map (·.2)).contains x.2) = kept := by
    refine List.filter_eq_self.2 fun x hx => ?_
    exact List.contains_iff_mem.2 (List.mem_map_of_mem hx)
  have hrest : rest.filter (fun x => (kept.map (·.2)).contains x.2) = [] := by
    refine List.filter_eq_nil_iff.2 fun x hx hc => ?_
    exact hnodup.2.2 _ (List.contains_iff_mem.1 hc) _ (List.mem_map_of_mem hx) rfl
  rw [hkept, hrest, List.append_nil]

/-- Whether planned edits are made at once or one by one, the accepted ones make the new script. -/
theorem applyPlanned_spec (h : Tracks t items) (lookup : Table Text) :
    let planned := plannedEdits t lookup items
    let made := applyPlanned t planned (t.replaceSpans (planned.map (·.edit)))
    Accepts t.source planned made.1 made.2.1 made.2.2 := by
  intro planned
  have hmem : ∀ p ∈ planned, p.edit.span ∈ (Item.sitesOf items).map (·.span) :=
    fun p hp => span_mem_of_mem_plannedEdits hp
  have hone : planned.Pairwise fun a b => a.edit.span ≠ b.edit.span :=
    pairwise_plannedEdits h lookup
  obtain ⟨x, hx, hreplace⟩ := Tree.replaceSpans_eq h.whole h.apart_spans h.stands
    (List.forall_mem_map.2 hmem) (List.pairwise_map.2 hone)
  cases hnext : t.replaceSpans (planned.map (·.edit)) with
  | ok next =>
    obtain ⟨hsource, hwhole⟩ := Tree.whole_of_replaceSpans (hreplace.symm.trans hnext)
    refine ⟨hwhole, by rw [applyPlanned, hx, hsource], List.Sublist.refl _, [], ?_, rfl⟩
    simp [applyPlanned]
  | error fault =>
    have hperm : (fromEnd planned).Perm planned.zipIdx := List.mergeSort_perm _ _
    have hsorted := pairwise_fromEnd h.apart_spans (fun s hs => (h.stands s hs).1) hmem hone
    obtain ⟨kept, lost, hkept, hacc, hlate, hwhole, hmade⟩ := applyEach_spec h.apart_spans h.stands
      (fromEnd planned) (fun x hx => hmem _ (List.fst_mem_of_mem_zipIdx (hperm.subset hx))) hsorted
      h.whole (by simp) List.Pairwise.nil (by simp) (Edit.applyAll_nil t.source)
    let accepted := planned.zipIdx.filter fun x => (kept.map (·.2)).contains x.2
    have hmade' : applyPlanned t planned (.error fault) =
        ((applyEach t (fromEnd planned)).1, accepted.map (·.1),
          (applyEach t (fromEnd planned)).2.2) := by
      simp only [applyPlanned, hacc, accepted]
    have haccepted : accepted.Perm kept := filter_zipIdx_perm (hperm.symm.trans hkept)
    have hsub : (accepted.map (·.1)).Sublist planned := by
      have := (List.filter_sublist (l := planned.zipIdx)
        (p := fun x => (kept.map (·.2)).contains x.2)).map Prod.fst
      rwa [List.zipIdx_map_fst] at this
    rw [hmade']
    refine ⟨hwhole, ?_, hsub, lost.map fun y => (y.1.1, y.2), ?_, ?_⟩
    · rw [List.append_nil] at hmade
      rw [← hmade]
      refine (Edit.applyAll_perm h.apart_spans h.stands ?_ ?_ ?_).symm
      · exact List.forall_mem_map.2 fun p hp => hmem p (hsub.subset hp)
      · exact List.pairwise_map.2 (hone.sublist hsub)
      · rw [List.map_map]
        exact (List.reverse_perm _).trans (haccepted.symm.map _)
    · have hfst := (hperm.symm.trans hkept).map Prod.fst
      rw [List.zipIdx_map_fst, List.map_append] at hfst
      refine hfst.trans ?_
      rw [List.map_map, List.map_map]
      exact (haccepted.symm.map _).append_right _
    · rw [hlate, List.map_map]
      rfl

/-- What comes of writing renditions into a tree: the new tree, the edits made, and the refusals of
those that were planned but not made. -/
def made (t : Tree) (items : List Item) (lookup : Table Text) :
    Tree × List Planned × List (Text × Refusal) :=
  let planned := plannedEdits t lookup items
  applyPlanned t planned (t.replaceSpans (planned.map (·.edit)))

/-- The refusals of what was not planned. -/
def refusals (t : Tree) (lookup : Table Text) (items : List Item) : List (Text × Refusal) :=
  (planItems t lookup 0 items).filterMap fun
    | .error refusal => some refusal
    | .ok _ => none

/-- An edit as it is reported. -/
def Planned.change (p : Planned) : Change := ⟨p.key, p.old, p.edit.text, some p.position⟩

theorem remap_nil (span : Span) : remap [] span = span := by
  simp [remap, shifted, shift, Edit.gain]

theorem updateItem_nil (i : Nat) (item : Item) : updateItem [] i item = item := by
  simp [updateItem, remap_nil]

theorem made_of_nil (h : Tracks t items) {lookup : Table Text}
    (hnil : plannedEdits t lookup items = []) : made t items lookup = (t, [], []) := by
  obtain ⟨x, hx, hreplace⟩ := @Tree.replaceSpans_eq t [] [] h.whole List.Pairwise.nil (by simp)
    (by simp) List.Pairwise.nil
  rw [Edit.applyAll_nil, Except.ok.injEq] at hx
  subst hx
  rw [made, hnil, List.map_nil, hreplace, h.whole]
  rfl

theorem tasks_nil (i : Nat) (items : List Item) : tasks [] i items = [] := by
  induction items generalizing i with
  | nil => rfl
  | cons item more ih => simp [tasks, Table.get?, ih]

/-- Writing renditions, without the cases in which there is nothing to do. -/
theorem translate_eq {s : Script} (hb : s.body = .tree t) (h : Tracks t s.items)
    (renditions : List Entry) :
    let lookup := usable renditions
    let result := made t s.items lookup
    (s.translate renditions).1 = { s with
      body := .tree result.1
      items := s.items.zipIdx.map fun x => updateItem result.2.1 x.2 x.1 } ∧
    (s.translate renditions).2.applied = result.2.1.map Planned.change ∧
    (s.translate renditions).2.skipped = refusals t lookup s.items ++ result.2.2 := by
  intro lookup result
  have hsame : s.items.zipIdx.map (fun x => updateItem [] x.2 x.1) = s.items := by
    simp only [updateItem_nil]
    exact List.zipIdx_map_fst 0 s.items
  have hself : ({ s with body := .tree t, items := s.items } : Script) = s := by
    rw [← hb]
  by_cases hnone : (s.items.isEmpty || lookup.isEmpty) = true
  · have hplans : planItems t lookup 0 s.items = [] := by
      rw [planItems_eq]
      rcases Bool.or_eq_true_iff.1 hnone with h | h
      · rw [List.isEmpty_iff.1 h]
        rfl
      · rw [List.isEmpty_iff.1 h, tasks_nil]
        rfl
    have hresult : result = (t, [], []) := made_of_nil h (by rw [plannedEdits, hplans]; rfl)
    have htranslate : s.translate renditions = (s, ⟨[], [], none⟩) := if_pos hnone
    rw [htranslate, hresult, hsame, hself, refusals, hplans]
    exact ⟨rfl, rfl, rfl⟩
  · have htranslate : s.translate renditions = s.translateTree t lookup := by
      rw [translate, if_neg hnone, hb]
    rw [htranslate]
    by_cases hempty : (plannedEdits t lookup s.items).isEmpty = true
    · have hresult : result = (t, [], []) := made_of_nil h (List.isEmpty_iff.1 hempty)
      have htree : s.translateTree t lookup = (s, ⟨[], refusals t lookup s.items, none⟩) :=
        if_pos hempty
      rw [htree, hresult, hsame, hself, List.append_nil]
      exact ⟨rfl, rfl, rfl⟩
    · rw [translateTree]
      simp only [plannedEdits] at hempty
      rw [if_neg hempty]
      exact ⟨rfl, rfl, rfl⟩

/-- A site of an item is known by its span. -/
theorem item_unique (hapart : (Item.sitesOf items).Pairwise fun a b => a.span.Apart b.span)
    {i j : Nat} {a b : Item} {x y : Site} (ha : items[i]? = some a) (hb : items[j]? = some b)
    (hx : x ∈ a.sites) (hy : y ∈ b.sites) (hlt : x.span.start < x.span.stop)
    (hspan : x.span = y.span) : i = j ∧ x = y := by
  rw [Item.sitesOf, List.pairwise_flatMap] at hapart
  obtain ⟨hwithin, hbetween⟩ := hapart
  have hnot {x y : Site} (hlt : x.span.start < x.span.stop) (hspan : x.span = y.span) :
      ¬ x.span.Apart y.span := by
    rw [← hspan]
    rintro (h | h) <;> omega
  obtain ⟨hi, rfl⟩ := List.getElem?_eq_some_iff.1 ha
  obtain ⟨hj, rfl⟩ := List.getElem?_eq_some_iff.1 hb
  rw [List.pairwise_iff_getElem] at hbetween
  rcases Nat.lt_trichotomy i j with hij | rfl | hij
  · exact absurd (hbetween i j hi hj hij x hx y hy) (hnot hlt hspan)
  · refine ⟨rfl, ?_⟩
    by_contra hne
    have hsymm : Std.Symm fun a b : Site => a.span.Apart b.span := ⟨fun _ _ h => h.symm⟩
    exact hnot hlt hspan ((hwithin _ (List.getElem_mem hi)).forall hx hy hne)
  · exact absurd (hbetween j i hj hi hij y hy x hx) (hnot (hspan ▸ hlt) hspan.symm)

/-- Where an edit is planned the phrase stands as it was found, and the edit writes something that
will not be taken for it. -/
theorem Tracks.stands_of_planned (h : Tracks t items) {lookup : Table Text} {p : Planned}
    (hp : p ∈ plannedEdits t lookup items) {item : Item} {site : Site} (hitem : item ∈ items)
    (hsite : site ∈ item.sites) (hspan : p.edit.span = site.span) :
    Stands t.source site.span (site.form.write item.entry.phrase) ∧ p.edit.text ≠ [] ∧
      site.form.read p.edit.text ≠ item.entry.phrase := by
  obtain ⟨τ, hτ, hplan, -⟩ := mem_plannedEdits hp
  obtain ⟨k, -, hk, hτsite, -⟩ := mem_tasks hτ
  obtain ⟨hedit, hne, current, hcurrent, hread, hother⟩ := planEdit_eq_some hplan
  have hτspan : p.edit.span = τ.site.span := congrArg Edit.span hedit
  have htext : p.edit.text = τ.site.form.write τ.rendition := congrArg Edit.text hedit
  obtain ⟨i, hi⟩ := List.mem_iff_getElem?.1 hitem
  obtain ⟨hlt, m, hm, hm'⟩ := h.held _ hitem site hsite
  obtain ⟨rfl, rfl⟩ := item_unique h.apart hi hk hsite hτsite hlt (hspan.symm.trans hτspan)
  obtain rfl : item = τ.item := Option.some.inj (hi.symm.trans hk)
  obtain rfl := hm.unique hcurrent
  rcases hm' with rfl | hm'
  · refine ⟨hm, hne, ?_⟩
    rw [htext, Site.Form.read_write]
    rintro hsame
    exact hother (by rw [htext, hsame])
  · exact absurd hread hm'

/-- A site after edits. -/
def moved (es : List Edit) (site : Site) : Site := { site with span := remap es site.span }

@[simp] theorem sites_updateItem (accepted : List Planned) (i : Nat) (item : Item) :
    (updateItem accepted i item).sites = item.sites.map (moved (accepted.map (·.edit))) := by
  unfold updateItem
  split <;> rfl

@[simp] theorem phrase_updateItem (accepted : List Planned) (i : Nat) (item : Item) :
    (updateItem accepted i item).entry.phrase = item.entry.phrase := by
  unfold updateItem
  split <;> rfl

theorem sitesOf_updateItem (accepted : List Planned) (items : List Item) :
    Item.sitesOf (items.zipIdx.map fun x => updateItem accepted x.2 x.1) =
      (Item.sitesOf items).map (moved (accepted.map (·.edit))) := by
  have hfst : items.zipIdx.flatMap (fun x => x.1.sites.map (moved (accepted.map (·.edit)))) =
      items.flatMap fun item => item.sites.map (moved (accepted.map (·.edit))) := by
    conv_rhs => rw [← List.zipIdx_map_fst 0 items]
    rw [List.flatMap_map]
  simp [Item.sitesOf, List.flatMap_map, List.map_flatMap, hfst]

/-- The edits a call makes are edits at sites, no two at one. -/
theorem Tracks.fit_of_accepts (h : Tracks t items) {lookup : Table Text} {next : Tree}
    {accepted : List Planned} {late : List (Text × Refusal)}
    (ha : Accepts t.source (plannedEdits t lookup items) next accepted late) :
    (∀ e ∈ accepted.map (·.edit), e.span ∈ (Item.sitesOf items).map (·.span)) ∧
      (accepted.map (·.edit)).Pairwise fun a b => a.span ≠ b.span := by
  refine ⟨List.forall_mem_map.2 fun p hp => ?_, List.pairwise_map.2 ?_⟩
  · exact span_mem_of_mem_plannedEdits (ha.sublist.subset hp)
  · exact (pairwise_plannedEdits h lookup).sublist ha.sublist

/-- What stands at a site once the accepted edits are made. -/
theorem Tracks.stands_after (h : Tracks t items) {lookup : Table Text} {next : Tree}
    {accepted : List Planned} {late : List (Text × Refusal)}
    (ha : Accepts t.source (plannedEdits t lookup items) next accepted late) {item : Item}
    {site : Site} {m : Text} (hitem : item ∈ items) (hsite : site ∈ item.sites)
    (hm : Stands t.source site.span m) :
    Stands next.source (moved (accepted.map (·.edit)) site).span
      (Edit.textAfter (accepted.map (·.edit)) site.span m) := by
  obtain ⟨hes, hone⟩ := h.fit_of_accepts ha
  obtain ⟨x, hx, -, hstands, -⟩ := Edit.exists_applyAll h.apart_spans h.stands hes hone
  obtain rfl : next.source = x := Except.ok.inj (ha.made.symm.trans hx)
  have hmem : site ∈ Item.sitesOf items := List.mem_flatMap.2 ⟨item, hitem, hsite⟩
  exact hstands _ (List.mem_map_of_mem hmem) m hm

/-- What stands at a span after edits was there before, or is the text of an edit of this span. -/
theorem textAfter_cases (accepted : List Planned) (span : Span) (m : Text) :
    (∀ p ∈ accepted, p.edit.span ≠ span) ∧ Edit.textAfter (accepted.map (·.edit)) span m = m ∨
      ∃ p ∈ accepted, p.edit.span = span ∧
        Edit.textAfter (accepted.map (·.edit)) span m = p.edit.text := by
  cases hf : (accepted.map (·.edit)).find? (·.span == span) with
  | none =>
    refine .inl ⟨?_, by simp [Edit.textAfter, hf]⟩
    simpa using hf
  | some e =>
    obtain ⟨p, hp, rfl⟩ := List.mem_map.1 (List.mem_of_find?_eq_some hf)
    exact .inr ⟨p, hp, by simpa using List.find?_some hf, by simp [Edit.textAfter, hf]⟩

/-- Writing keeps the sites apart and each with its phrase or with what will not be taken for it. -/
theorem Tracks.of_accepts (h : Tracks t items) {lookup : Table Text} {next : Tree}
    {accepted : List Planned} {late : List (Text × Refusal)}
    (ha : Accepts t.source (plannedEdits t lookup items) next accepted late) :
    Tracks next (items.zipIdx.map fun x => updateItem accepted x.2 x.1) := by
  obtain ⟨hes, hone⟩ := h.fit_of_accepts ha
  refine ⟨ha.whole, ?_, ?_⟩
  · obtain ⟨x, -, hapart, -⟩ := Edit.exists_applyAll h.apart_spans h.stands hes hone
    rw [sitesOf_updateItem, List.pairwise_map]
    rw [List.map_map, List.pairwise_map] at hapart
    exact hapart
  · intro item' hitem' site' hsite'
    obtain ⟨⟨item, i⟩, hx, rfl⟩ := List.mem_map.1 hitem'
    have hitem := List.fst_mem_of_mem_zipIdx hx
    rw [sites_updateItem] at hsite'
    obtain ⟨site, hsite, rfl⟩ := List.mem_map.1 hsite'
    rw [phrase_updateItem]
    obtain ⟨hlt, m, hm, hm'⟩ := h.held item hitem site hsite
    have hafter := h.stands_after ha hitem hsite hm
    rcases textAfter_cases accepted site.span m with ⟨-, hkept⟩ | ⟨p, hp, hspan, htext⟩
    · rw [hkept] at hafter
      exact ⟨hafter.lt_iff.2 (hm.lt_iff.1 hlt), m, hafter, hm'⟩
    · rw [htext] at hafter
      obtain ⟨-, hne, hread⟩ := h.stands_of_planned (ha.sublist.subset hp) hitem hsite hspan
      exact ⟨hafter.lt_iff.2 hne, _, hafter, .inr hread⟩

/-- A script whose sites are tracked. -/
def Tracked (s : Script) : Prop := ∃ t, s.body = .tree t ∧ Tracks t s.items

theorem Tracked.translate {s : Script} (h : s.Tracked) (renditions : List Entry) :
    (s.translate renditions).1.Tracked := by
  obtain ⟨t, hb, ht⟩ := h
  rw [(translate_eq hb ht renditions).1]
  exact ⟨_, rfl, ht.of_accepts (applyPlanned_spec ht _)⟩

/-- The script after calls, each with its renditions. -/
def after (s : Script) (calls : List (List Entry)) : Script :=
  calls.foldl (fun s renditions => (s.translate renditions).1) s

theorem Tracked.after {s : Script} (h : s.Tracked) (calls : List (List Entry)) :
    (s.after calls).Tracked := by
  induction calls generalizing s with
  | nil => exact h
  | cons renditions calls ih => exact ih (h.translate renditions)

/-- The sites of a script that was parsed as a whole are those recorded for its tree. -/
theorem sitesOf_of_parse {rules : CallRules} {stem content : Text} {index index' : Index}
    {s : Script} (h : parse rules stem content index = .ok (s, index')) :
    ∃ t, s.body = .tree t ∧ Tree.ofScript t.source = .ok t ∧
      Item.sitesOf s.items = t.sites rules := by
  obtain ⟨t, items, ht, hitems, rfl⟩ := parse_eq_ok_iff.1 h
  obtain ⟨hsource, -⟩ := Tree.laid_of_ofScript ht
  exact ⟨t, rfl, hsource ▸ ht, Item.sitesOf_assignKeys hitems⟩

/-- A script that was parsed as a whole is tracked. -/
theorem tracked_of_parse {rules : CallRules} {stem content : Text} {index index' : Index}
    {s : Script} (h : parse rules stem content index = .ok (s, index')) : s.Tracked := by
  obtain ⟨t, hb, ht, hsites⟩ := sitesOf_of_parse h
  refine ⟨t, hb, ht, hsites ▸ Tree.sites_apart ht rules, fun item hitem site hsite => ?_⟩
  obtain ⟨f, hf, rfl⟩ : ∃ f ∈ t.finds rules, f.site = site :=
    Tree.mem_sites.1 (hsites ▸ List.mem_flatMap.2 ⟨item, hitem, hsite⟩)
  obtain ⟨hlt, hstands⟩ := Tree.finds_exact ht hf
  refine ⟨hlt, _, hstands, ?_⟩
  -- Finds of one fingerprint are one item, whatever their phrases are.
  by_cases hphrase : f.entry.phrase = item.entry.phrase
  · exact .inl (by rw [hphrase])
  · exact .inr (by rwa [Site.Form.read_write])

/-- The script of a text that can be parsed. -/
theorem exists_parse_of {rules : CallRules} {stem content : Text} {index : Index}
    {p : Script → Bool} (h : (parse rules stem content index).toOption.any (fun x => p x.1) = true) :
    ∃ s index', parse rules stem content index = .ok (s, index') ∧ p s = true := by
  obtain ⟨⟨s, index'⟩, hparse, hs⟩ := exists_ok_of_any h
  exact ⟨s, index', hparse, hs⟩

/-- The tasks that are refused at once. -/
def unwilled (t : Tree) (ts : List Task) : List (Task × (Text × Refusal)) :=
  ts.filterMap fun τ => match τ.plan t with
    | .error refusal => some (τ, (τ.item.entry.key, refusal))
    | .ok _ => none

/-- The tasks for which there is nothing to do. -/
def unmoved (t : Tree) (ts : List Task) : List Task :=
  ts.filter fun τ => match τ.plan t with
    | .ok none => true
    | _ => false

theorem refusals_eq (t : Tree) (lookup : Table Text) (items : List Item) :
    refusals t lookup items = (unwilled t (tasks lookup 0 items)).map (·.2) := by
  rw [refusals, planItems_eq, unwilled, List.filterMap_filterMap, List.map_filterMap]
  refine List.filterMap_congr fun τ _ => ?_
  unfold Task.result
  split <;> simp_all

/-- Every task is planned, refused or idle. -/
theorem tasks_perm (t : Tree) (ts : List Task) :
    ts.Perm ((willed t ts).map (·.1) ++ (unwilled t ts).map (·.1) ++ unmoved t ts) := by
  induction ts with
  | nil => exact List.Perm.refl _
  | cons τ ts ih =>
    simp only [willed, unwilled, unmoved] at ih ⊢
    cases hplan : τ.plan t with
    | error refusal =>
      simp only [List.filterMap_cons, List.filter_cons, hplan]
      refine (ih.cons τ).trans ?_
      simpa using List.perm_middle.symm
    | ok planned =>
      cases planned with
      | none =>
        simp only [List.filterMap_cons, List.filter_cons, hplan]
        exact (ih.cons τ).trans List.perm_middle.symm
      | some edit =>
        simp only [List.filterMap_cons, List.filter_cons, hplan]
        exact ih.cons τ

/-- Lists whose elements agree can be read side by side. -/
theorem exists_pairs {α β γ : Type} {f : α → γ} {g : β → γ} {as : List α} {bs : List β}
    (h : as.map f = bs.map g) : ∃ xs : List (α × β), xs.map (·.1) = as ∧ xs.map (·.2) = bs ∧
      ∀ x ∈ xs, f x.1 = g x.2 := by
  induction as generalizing bs with
  | nil =>
    rw [List.map_nil, eq_comm, List.map_eq_nil_iff] at h
    exact ⟨[], rfl, h.symm, by simp⟩
  | cons a as ih =>
    obtain ⟨b, bs, rfl, hb, hbs⟩ := List.map_eq_cons_iff.1 h.symm
    obtain ⟨xs, rfl, rfl, hxs⟩ := ih hbs.symm
    exact ⟨(a, b) :: xs, rfl, rfl, List.forall_mem_cons.2 ⟨hb.symm, hxs⟩⟩

/-- The edit that a task asks for. -/
def Task.edit (τ : Task) : Edit := ⟨τ.site.span, τ.site.form.write τ.rendition⟩

/-- How a report accounts for tasks: each is done, skipped, or idle because what it asks for stands
there already. -/
structure Accounts (source : Text) (ts : List Task) (report : Report) (done : List (Task × Change))
    (skipped : List (Task × (Text × Refusal))) (idle : List Task) : Prop where
  once : ts.Perm (done.map (·.1) ++ skipped.map (·.1) ++ idle)
  applied : done.map (·.2) = report.applied
  refused : skipped.map (·.2) = report.skipped
  recorded : ∀ x ∈ done, x.2.key = x.1.item.entry.key ∧ Stands source x.1.site.span x.2.before ∧
    x.2.after = x.1.edit.text ∧ x.2.position = some (source.position x.1.site.span)
  named : ∀ x ∈ skipped, x.2.1 = x.1.item.entry.key
  idled : ∀ τ ∈ idle, Stands source τ.site.span τ.edit.text

theorem exists_accounts {s : Script} (hb : s.body = .tree t) (ht : Tracks t s.items)
    (renditions : List Entry) : ∃ done skipped idle,
      Accounts t.source (tasks (usable renditions) 0 s.items) (s.translate renditions).2
        done skipped idle ∧
      done.map (·.1.edit) = (made t s.items (usable renditions)).2.1.map (·.edit) := by
  obtain ⟨-, happlied, hskipped⟩ := translate_eq hb ht renditions
  obtain ⟨lost, hperm, hlate⟩ := (applyPlanned_spec ht (usable renditions)).lost
  let ts := tasks (usable renditions) 0 s.items
  -- The tasks behind the planned edits, in the order in which these were accepted or lost.
  obtain ⟨ws, hws, hwilled⟩ : ∃ ws : List (Task × Planned),
      (made t s.items (usable renditions)).2.1 ++ lost.map (·.1) = ws.map (·.2) ∧
        ws.Perm (willed t ts) := by
    have hperm' : ((made t s.items (usable renditions)).2.1 ++ lost.map (·.1)).Perm
        ((willed t ts).map Prod.snd) := by
      rw [← plannedEdits_eq]
      exact hperm.symm
    exact (congrFun (congrFun (List.eq_map_comp_perm Prod.snd) _) _).mpr hperm'
  obtain ⟨kept, dropped, rfl, hkept, hdropped⟩ := List.map_eq_append_iff.1 hws.symm
  obtain ⟨pairs, rfl, rfl, hpairs⟩ := exists_pairs hdropped
  have hplanned {x : Task × Planned} (hx : x ∈ kept ++ pairs.map (·.1)) :
      x.1 ∈ ts ∧ ∃ edit, x.1.plan t = .ok (some edit) ∧ x.2 = x.1.planned t edit :=
    mem_willed.1 (hwilled.subset hx)
  refine ⟨kept.map fun x => (x.1, x.2.change),
    unwilled t ts ++ pairs.map fun x => (x.1.1, (x.2.1.key, .breaksScript x.2.2)),
    unmoved t ts, ⟨?_, ?_, ?_, ?_, ?_, ?_⟩, ?_⟩
  · have hts := tasks_perm t ts
    refine hts.trans (List.Perm.append_right _ ?_)
    have hfst := (hwilled.symm.map Prod.fst).append_right ((unwilled t ts).map (·.1))
    refine hfst.trans ?_
    simp only [List.map_append, List.map_map, List.append_assoc]
    refine List.Perm.append_left _ ?_
    exact List.perm_append_comm
  · rw [happlied, List.map_map, ← hkept, List.map_map]
    rfl
  · rw [hskipped, refusals_eq, List.map_append, List.map_map]
    rw [List.map_map] at hlate
    exact congrArg _ hlate.symm
  · refine List.forall_mem_map.2 fun x hx => ?_
    obtain ⟨-, edit, hplan, hx⟩ := hplanned (List.mem_append_left _ hx)
    obtain ⟨hedit, -, current, hcurrent, -⟩ := planEdit_eq_some hplan
    rw [hx]
    refine ⟨rfl, ?_, congrArg Edit.text hedit, rfl⟩
    simpa [Planned.change, Task.planned, hcurrent.slice_eq] using hcurrent
  · refine List.forall_mem_append.2 ⟨fun x hx => ?_, List.forall_mem_map.2 fun x hx => ?_⟩
    · obtain ⟨τ, -, hτ⟩ := List.mem_filterMap.1 hx
      split at hτ <;> cases hτ
      rfl
    · obtain ⟨-, edit, -, hplan⟩ := hplanned (List.mem_append_right _ (List.mem_map_of_mem hx))
      have hkey := congrArg Planned.key (hpairs x hx)
      rw [hplan] at hkey
      exact hkey.symm
  · intro τ hτ
    have hplan := (List.mem_filter.1 hτ).2
    split at hplan
    · next hnone => exact planEdit_eq_none hnone
    · cases hplan
  · rw [← hkept, List.map_map, List.map_map]
    refine List.map_congr_left fun x hx => ?_
    obtain ⟨-, edit, hplan, hx⟩ := hplanned (List.mem_append_left _ hx)
    simp only [Function.comp, hx]
    exact (planEdit_eq_some hplan).1.symm

/-- What a call writes: the edits it reports, made at once, and nothing else; and then the text is
again a script. -/
structure Writes (s : Script) (renditions : List Entry) : Prop where
  edited : ∃ done skipped idle,
    Accounts s.render (tasks (usable renditions) 0 s.items) (s.translate renditions).2
      done skipped idle ∧
    Edit.applyAll s.render (done.map (·.1.edit)) = .ok (s.translate renditions).1.render ∧
    ∃ ps tail, s.render = Piece.weave Piece.old tail ps ∧
      (s.translate renditions).1.render = Piece.weave Piece.written tail ps ∧
      (done.map (·.1.edit)).Perm (Piece.edits 0 ps) ∧ ∀ p ∈ ps, p.new.isSome = true
  parsed : ∃ t, (s.translate renditions).1.body = .tree t ∧
    Tree.ofScript (s.translate renditions).1.render = .ok t

/-- A text is cut at the spans of edits that are apart. -/
theorem exists_cut {source : Text} {es : List Edit} (hapart : sites.Pairwise Span.Apart)
    (hs : ∀ s ∈ sites, s.start < s.stop ∧ ∃ m, Stands source s m)
    (hes : ∀ e ∈ es, e.span ∈ sites) (hone : es.Pairwise fun a b => a.span ≠ b.span) :
    ∃ ps tail, source = Piece.weave Piece.old tail ps ∧
      Edit.applyAll source es = .ok (Piece.weave Piece.written tail ps) ∧
      es.Perm (Piece.edits 0 ps) ∧ ∀ p ∈ ps, p.new.isSome = true := by
  obtain ⟨ps, tail, hsource, hold, hspans, hperm, hnew⟩ :=
    Edit.exists_pieces_of_edits (Edit.pairwise_apart hapart hes hone)
      (List.forall_mem_map.2 fun e he => hs _ (hes e he)) (fun e he => List.mem_map_of_mem he) hone
  refine ⟨ps, tail, hsource, Piece.applyAll_eq hsource hold hperm, hperm, fun p hp => ?_⟩
  have hmem : p.new ∈ ps.map Piece.new := List.mem_map_of_mem hp
  rw [hnew] at hmem
  obtain ⟨span, hspan, hp⟩ := List.mem_map.1 hmem
  obtain ⟨e, he, rfl⟩ := List.mem_map.1 (hspans.subset hspan)
  rw [← hp, Edit.find?_span_eq hone he]
  rfl

theorem Tracked.writes {s : Script} (h : s.Tracked) (renditions : List Entry) :
    s.Writes renditions := by
  obtain ⟨t, hb, ht⟩ := h
  have hspec := applyPlanned_spec ht (usable renditions)
  obtain ⟨hnext, -, -⟩ := translate_eq hb ht renditions
  obtain ⟨done, skipped, idle, haccounts, hdone⟩ := exists_accounts hb ht renditions
  have hrender : s.render = t.source := by simp only [render, hb]
  have hrender' : (s.translate renditions).1.render =
      (made t s.items (usable renditions)).1.source := by
    rw [hnext]
    rfl
  obtain ⟨hes, hone⟩ := ht.fit_of_accepts hspec
  obtain ⟨ps, tail, hsource, happly, hperm, hsome⟩ := exists_cut ht.apart_spans ht.stands hes hone
  have hwritten := Except.ok.inj (hspec.made.symm.trans happly)
  refine ⟨⟨done, skipped, idle, ?_, ?_, ps, tail, ?_, ?_, ?_, hsome⟩, ?_⟩
  · rw [hrender]
    exact haccounts
  · rw [hrender, hrender', hdone]
    exact hspec.made
  · rw [hrender, hsource]
  · rw [hrender']
    exact hwritten
  · rw [hdone]
    exact hperm
  · rw [hrender', hnext]
    exact ⟨_, rfl, hspec.whole⟩

theorem writes_after_parse {rules : CallRules} {stem content : Text} {index index' : Index}
    {s : Script} (h : parse rules stem content index = .ok (s, index'))
    (calls : List (List Entry)) (renditions : List Entry) : (s.after calls).Writes renditions :=
  ((tracked_of_parse h).after calls).writes renditions

/-- A call writes one literal. The next call comes too late for it and writes another one. Then the last
literal is planned, but with it there would be no script, so it is refused in its turn. -/
theorem writes_after_parse_thrice :
    let entry (call phrase rendition : String) : Entry :=
      { Entry.new (Text.of phrase) (some (Text.of call)) with rendition := Text.of rendition }
    let first := [entry "f(\"Hi\")" "Hi" "Hello"]
    let second := [entry "f(\"Hi\")" "Hi" "Hey", entry "f(\"Ho\")" "Ho" "Howdy"]
    let third := [entry "f(\"Yo\")" "Yo" "a\" #"]
    ∃ s index', parse .builtin [] (Text.of "f(\"Hi\")\nf(\"Ho\")\nf(\"Yo\")\n") .empty =
        .ok (s, index') ∧
      (s.after [first]).Writes second ∧ (s.after [first, second]).Writes third ∧
      (s.after [first]).render = Text.of "f(\"Hello\")\nf(\"Ho\")\nf(\"Yo\")\n" ∧
      (s.after [first, second]).render = Text.of "f(\"Hello\")\nf(\"Howdy\")\nf(\"Yo\")\n" ∧
      ((s.after [first]).translate second).2.applied.map (·.after) = [Text.of "\"Howdy\""] ∧
      ((s.after [first]).translate second).2.skipped = [(Text.of "_0", .changed)] ∧
      ((s.after [first, second]).translate third).2.applied = [] ∧
      ((s.after [first, second]).translate third).2.skipped.map (·.1) = [Text.of "_2"] := by
  intro entry first second third
  obtain ⟨s, index', h, hfacts⟩ := @exists_parse_of .builtin []
    (Text.of "f(\"Hi\")\nf(\"Ho\")\nf(\"Yo\")\n") .empty
    (fun s => decide (
      (s.after [first]).render = Text.of "f(\"Hello\")\nf(\"Ho\")\nf(\"Yo\")\n" ∧
      (s.after [first, second]).render = Text.of "f(\"Hello\")\nf(\"Howdy\")\nf(\"Yo\")\n" ∧
      ((s.after [first]).translate second).2.applied.map (·.after) = [Text.of "\"Howdy\""] ∧
      ((s.after [first]).translate second).2.skipped = [(Text.of "_0", .changed)] ∧
      ((s.after [first, second]).translate third).2.applied = [] ∧
      ((s.after [first, second]).translate third).2.skipped.map (·.1) = [Text.of "_2"]))
    (by decide +kernel)
  exact ⟨s, index', h, writes_after_parse h _ _, writes_after_parse h _ _, of_decide_eq_true hfacts⟩

end Script

end Phrasebook
