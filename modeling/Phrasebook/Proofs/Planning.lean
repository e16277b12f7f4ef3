import Mathlib.Data.List.Perm.Basic
import Phrasebook.Script.Translate
import Phrasebook.Proofs.Sites
import Phrasebook.Proofs.Tables

/-!
What is planned for the sites of a script.

A task is a site with the rendition that is to be written there. `Script.Tracks` is what all writing
keeps up: the tree is that of its text, the sites are apart, and at each stands the phrase of its
item or something that will not be taken for it. So at most one edit is planned for each site, and
edits that are planned together can be made together.
-/
namespace Phrasebook

open Text (Stands size)

namespace Script

/-- A site of the item in place `place`, and what is to be written there. -/
structure Task where
  place : Nat
  item : Item
  site : Site
  rendition : Text

/-- The sites for which there are renditions. -/
def tasks (lookup : Table Text) (i : Nat) : List Item → List Task
  | [] => []
  | item :: more =>
    let here := match lookup.get? item.fingerprint with
      | some rendition => item.sites.map fun site => ⟨i, item, site, rendition⟩
      | none => []
    here ++ tasks lookup (i + 1) more

namespace Task

/-- What is planned for a task. -/
def plan (t : Tree) (τ : Task) : Except Refusal (Option Edit) :=
  planEdit t τ.site τ.item.entry.phrase τ.rendition

/-- A planned edit, as it is noted. -/
def planned (t : Tree) (τ : Task) (edit : Edit) : Planned where
  item := τ.place
  key := τ.item.entry.key
  edit
  old := t.source.slice τ.site.span.start τ.site.span.stop
  value := τ.rendition
  position := t.source.position τ.site.span

/-- The edit or the refusal of a task; nothing if nothing would change. -/
def result (t : Tree) (τ : Task) : Option (Except (Text × Refusal) Planned) :=
  match τ.plan t with
  | .error refusal => some (.error (τ.item.entry.key, refusal))
  | .ok none => none
  | .ok (some edit) => some (.ok (τ.planned t edit))

end Task

variable {t : Tree} {lookup : Table Text} {items : List Item} {i : Nat}

theorem planItems_eq (t : Tree) (lookup : Table Text) (i : Nat) (items : List Item) :
    planItems t lookup i items = (tasks lookup i items).filterMap (Task.result t) := by
  induction items generalizing i with
  | nil => rfl
  | cons item more ih =>
    rw [planItems, tasks, List.filterMap_append, ih]
    congr 1
    cases lookup.get? item.fingerprint with
    | none => rfl
    | some rendition =>
      simp only [planItem, List.filterMap_map]
      rfl

/-- What is to be written is the rendition of an entry that is translated. -/
theorem exists_entry_of_usable {renditions : List Entry} {f r : Text}
    (h : (usable renditions).get? f = some r) :
    ∃ e ∈ renditions, e.isTranslated = true ∧ e.rendition = r := by
  have hmem := Table.mem_of_get? h
  rw [usable, List.mem_reverse] at hmem
  obtain ⟨e, he, heq⟩ := List.mem_map.1 hmem
  obtain ⟨hin, htranslated⟩ := List.mem_filter.1 he
  exact ⟨e, hin, htranslated, congrArg Prod.snd heq⟩

/-- What is to be written is never empty. -/
theorem ne_nil_of_usable {renditions : List Entry} {f r : Text}
    (h : (usable renditions).get? f = some r) : r ≠ [] := by
  obtain ⟨e, -, htranslated, rfl⟩ := exists_entry_of_usable h
  intro hnil
  rw [Entry.isTranslated, hnil] at htranslated
  cases htranslated

/-- Tasks are sites of their items, and renditions of their fingerprints. -/
theorem mem_tasks {τ : Task} (h : τ ∈ tasks lookup i items) :
    ∃ k, τ.place = i + k ∧ items[k]? = some τ.item ∧ τ.site ∈ τ.item.sites ∧
      lookup.get? τ.item.fingerprint = some τ.rendition := by
  induction items generalizing i with
  | nil => simp [tasks] at h
  | cons item more ih =>
    rw [tasks, List.mem_append] at h
    rcases h with h | h
    · cases hl : lookup.get? item.fingerprint with
      | none => simp [hl] at h
      | some rendition =>
        simp only [hl, List.mem_map] at h
        obtain ⟨site, hsite, rfl⟩ := h
        exact ⟨0, rfl, rfl, hsite, hl⟩
    · obtain ⟨k, hplace, hitem, hrest⟩ := ih h
      exact ⟨k + 1, by omega, hitem, hrest⟩

/-- The sites of tasks are sites of the items, each at most once. -/
theorem sites_tasks_sublist (lookup : Table Text) (i : Nat) (items : List Item) :
    ((tasks lookup i items).map (·.site)).Sublist (Item.sitesOf items) := by
  induction items generalizing i with
  | nil => exact List.Sublist.refl _
  | cons item more ih =>
    rw [tasks, List.map_append, Item.sitesOf, List.flatMap_cons]
    refine List.Sublist.append ?_ (ih _)
    cases lookup.get? item.fingerprint with
    | none => exact List.nil_sublist _
    | some rendition => simp [Function.comp_def]

/-- What is planned for a site of a form. -/
def planForm (t : Tree) (span : Span) (rendition : Text) : Site.Form → Except Refusal Text
  | .literal q => planLiteral q rendition
  | .expression => planExpression rendition
  | .statement => planStatement t span rendition

theorem planEdit_eq (t : Tree) (site : Site) (phrase rendition : Text) :
    planEdit t site phrase rendition =
      match t.source.slice? site.span.start site.span.stop with
      | none => .error .outOfRange
      | some current =>
        if site.form.read current ≠ phrase then .error .changed
        else (planForm t site.span rendition site.form).map fun text =>
          if text = current then none else some ⟨site.span, text⟩ := by
  obtain ⟨span, form⟩ := site
  cases form <;> rfl

/-- The empty text is no expression. -/
theorem ofExpression_nil (parsed : Tree) : Tree.ofExpression [] ≠ .ok parsed := by
  have hno : (Tree.ofExpression []).toBool = false := by decide +kernel
  intro h
  simp [h, Except.toBool] at hno

/-- The empty text is no statement. -/
theorem ofStatement_nil (parsed : Tree) : Tree.ofStatement [] ≠ .ok parsed := by
  have hno : (Tree.ofStatement []).toBool = false := by decide +kernel
  intro h
  simp [h, Except.toBool] at hno

/-- What passes the check of a form is the rendition as the form writes it, and is not empty. -/
theorem planForm_eq_ok {span : Span} {rendition text : Text} {form : Site.Form}
    (h : planForm t span rendition form = .ok text) :
    text = form.write rendition ∧ text ≠ [] := by
  cases form with
  | literal q =>
    simp only [planForm, planLiteral] at h
    split at h
    · cases h
    · next parsed hok =>
      split at h <;> cases h
      exact ⟨rfl, fun hnil => ofExpression_nil parsed (hnil ▸ hok)⟩
  | expression =>
    simp only [planForm, planExpression] at h
    split at h <;> cases h
    next parsed hok => exact ⟨rfl, fun hnil => ofExpression_nil parsed (hnil ▸ hok)⟩
  | statement =>
    simp only [planForm, planStatement] at h
    split at h
    · cases h
    · next parsed hok =>
      have hne : rendition ≠ [] := fun hnil => ofStatement_nil parsed (hnil ▸ hok)
      split at h
      · split at h <;> cases h
        exact ⟨rfl, hne⟩
      · cases h
        exact ⟨rfl, hne⟩

/-- An edit replaces the phrase, as the form of the site writes it, by something else. -/
theorem planEdit_eq_some {site : Site} {phrase rendition : Text} {e : Edit}
    (h : planEdit t site phrase rendition = .ok (some e)) :
    e = ⟨site.span, site.form.write rendition⟩ ∧ e.text ≠ [] ∧
      ∃ current, Stands t.source site.span current ∧ site.form.read current = phrase ∧
        e.text ≠ current := by
  rw [planEdit_eq] at h
  split at h
  · cases h
  · next current hcurrent =>
    split at h
    · cases h
    · next hphrase =>
      cases htext : planForm t site.span rendition site.form with
      | error refusal => simp [htext, Except.map] at h
      | ok text =>
        obtain ⟨rfl, hne⟩ := planForm_eq_ok htext
        simp only [htext, Except.map, Except.ok.injEq] at h
        split at h
        · cases h
        · next hother =>
          cases h
          exact ⟨rfl, hne, current, Text.stands_of_slice? hcurrent,
            Decidable.not_not.1 hphrase, hother⟩

/-- Only what is there already is written without an edit. -/
theorem planEdit_eq_none {site : Site} {phrase rendition : Text}
    (h : planEdit t site phrase rendition = .ok none) :
    Stands t.source site.span (site.form.write rendition) := by
  rw [planEdit_eq] at h
  split at h
  · cases h
  · next current hcurrent =>
    split at h
    · cases h
    · cases htext : planForm t site.span rendition site.form with
      | error refusal => simp [htext, Except.map] at h
      | ok text =>
        obtain ⟨rfl, -⟩ := planForm_eq_ok htext
        simp only [htext, Except.map, Except.ok.injEq] at h
        split at h
        · next hsame =>
          rw [hsame]
          exact Text.stands_of_slice? hcurrent
        · cases h

/-- What writing keeps up. What stands at a site is the phrase of its item, or reads as something
else; then nothing will be written there any more. -/
structure Tracks (t : Tree) (items : List Item) : Prop where
  whole : Tree.ofScript t.source = .ok t
  apart : (Item.sitesOf items).Pairwise fun a b => a.span.Apart b.span
  held : ∀ item ∈ items, ∀ site ∈ item.sites, site.span.start < site.span.stop ∧
    ∃ m, Stands t.source site.span m ∧
      (m = site.form.write item.entry.phrase ∨ site.form.read m ≠ item.entry.phrase)

theorem Tracks.apart_spans (h : Tracks t items) :
    ((Item.sitesOf items).map (·.span)).Pairwise Span.Apart :=
  List.pairwise_map.2 h.apart

theorem Tracks.stands (h : Tracks t items) :
    ∀ s ∈ (Item.sitesOf items).map (·.span), s.start < s.stop ∧ ∃ m, Stands t.source s m := by
  simp only [List.mem_map, Item.sitesOf, List.mem_flatMap]
  rintro _ ⟨site, ⟨item, hitem, hsite⟩, rfl⟩
  obtain ⟨hlt, m, hm, -⟩ := h.held item hitem site hsite
  exact ⟨hlt, m, hm⟩

/-- The edits that are planned. -/
def plannedEdits (t : Tree) (lookup : Table Text) (items : List Item) : List Planned :=
  (planItems t lookup 0 items).filterMap Except.toOption

/-- The tasks for which edits are planned, with these edits. -/
def willed (t : Tree) (ts : List Task) : List (Task × Planned) :=
  ts.filterMap fun τ => match τ.plan t with
    | .ok (some edit) => some (τ, τ.planned t edit)
    | _ => none

theorem plannedEdits_eq (t : Tree) (lookup : Table Text) (items : List Item) :
    plannedEdits t lookup items = (willed t (tasks lookup 0 items)).map (·.2) := by
  rw [plannedEdits, planItems_eq, willed, List.filterMap_filterMap, List.map_filterMap]
  refine List.filterMap_congr fun τ _ => ?_
  unfold Task.result
  split <;> simp_all [Except.toOption]

theorem mem_willed {ts : List Task} {x : Task × Planned} :
    x ∈ willed t ts ↔ x.1 ∈ ts ∧ ∃ edit, x.1.plan t = .ok (some edit) ∧
      x.2 = x.1.planned t edit := by
  simp only [willed, List.mem_filterMap]
  constructor
  · rintro ⟨τ, hτ, h⟩
    split at h
    · next edit hplan =>
      cases h
      exact ⟨hτ, edit, hplan, rfl⟩
    · cases h
  · rintro ⟨hτ, edit, hplan, hx⟩
    exact ⟨x.1, hτ, by simp [hplan, ← hx]⟩

/-- A planned edit belongs to a site, where it writes a rendition in place of the phrase. -/
theorem mem_plannedEdits {p : Planned} (hp : p ∈ plannedEdits t lookup items) :
    ∃ τ ∈ tasks lookup 0 items, τ.plan t = .ok (some p.edit) ∧ p = τ.planned t p.edit := by
  rw [plannedEdits_eq] at hp
  obtain ⟨⟨τ, q⟩, hx, rfl⟩ := List.mem_map.1 hp
  obtain ⟨hτ, edit, hplan, hq⟩ := mem_willed.1 hx
  simp only at hplan hq
  subst hq
  exact ⟨τ, hτ, hplan, rfl⟩

theorem span_mem_of_mem_plannedEdits {p : Planned} (hp : p ∈ plannedEdits t lookup items) :
    p.edit.span ∈ (Item.sitesOf items).map (·.span) := by
  obtain ⟨τ, hτ, hplan, -⟩ := mem_plannedEdits hp
  have hspan := congrArg Edit.span (planEdit_eq_some hplan).1
  rw [hspan]
  have hsite := (sites_tasks_sublist lookup 0 items).subset (List.mem_map_of_mem hτ)
  exact List.mem_map_of_mem hsite

/-- No two edits are planned for one site. -/
theorem pairwise_plannedEdits (h : Tracks t items) (lookup : Table Text) :
    (plannedEdits t lookup items).Pairwise fun a b => a.edit.span ≠ b.edit.span := by
  rw [plannedEdits_eq, List.pairwise_map, willed, List.pairwise_filterMap]
  have hsites := h.apart.sublist (sites_tasks_sublist lookup 0 items)
  refine List.Pairwise.imp_of_mem ?_ (List.pairwise_map.1 hsites)
  intro σ τ hσ _ hap x hx y hy
  have hspan {τ : Task} {x : Task × Planned} (hx : (match τ.plan t with
      | .ok (some edit) => some (τ, τ.planned t edit)
      | _ => none) = some x) : x.2.edit.span = τ.site.span := by
    split at hx
    · next edit hplan =>
      cases hx
      exact congrArg Edit.span (planEdit_eq_some hplan).1
    · cases hx
  rw [hspan hx, hspan hy]
  intro heq
  have hmem := (sites_tasks_sublist lookup 0 items).subset (List.mem_map_of_mem hσ)
  have hlt := (h.stands _ (List.mem_map_of_mem hmem)).1
  rw [heq] at hap hlt
  rcases hap with hap | hap <;> omega

end Script

end Phrasebook
