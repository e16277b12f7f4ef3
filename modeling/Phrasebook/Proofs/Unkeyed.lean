import Phrasebook.Proofs.Chunks
import Phrasebook.Proofs.Tables
import Phrasebook.Proofs.Writing

/-!
What keys have no part in.

A rendition finds its places by the fingerprint. Whether the keys are taken out of a script before a
call or after it is the same (`Script.translate_unkeyed`), and of the renditions a call reads the
last usable one of each fingerprint and nothing else (`Script.translate_congr`). So scripts made of
one text, whatever their keys, answer the same calls in the same way (`Script.outcomes_of_agree`).
-/
namespace Phrasebook

namespace Item

/-- The item without its key. -/
def unkeyed (item : Item) : Item := { item with entry := { item.entry with key := [] } }

end Item

/-- The script without keys and what they begin with. -/
def Script.unkeyed (s : Script) : Script := { s with stem := [], items := s.items.map Item.unkeyed }

namespace Script

variable {lookup lookup' : Table Text} {renditions renditions' : List Entry}

def Planned.unkeyed (p : Planned) : Planned := { p with key := [] }

def Change.unkeyed (c : Change) : Change := { c with key := [] }

/-- A refusal without the key it is reported under. -/
def unnamed (refused : Text × Refusal) : Text × Refusal := ([], refused.2)

def Report.unkeyed (r : Report) : Report :=
  { r with applied := r.applied.map Change.unkeyed, skipped := r.skipped.map unnamed }

/-- The plan for a site without the key of its item. -/
def unkeyedPlan : Except (Text × Refusal) Planned → Except (Text × Refusal) Planned
  | .error refused => .error (unnamed refused)
  | .ok p => .ok p.unkeyed

/-! Planning, making and recording edits without keys. -/

theorem planItem_unkeyed (t : Tree) (place : Nat) (item : Item) (rendition : Text) :
    planItem t place item.unkeyed rendition =
      (planItem t place item rendition).map unkeyedPlan := by
  unfold planItem
  rw [List.map_filterMap]
  refine List.filterMap_congr fun site _ => ?_
  have hphrase : item.unkeyed.entry.phrase = item.entry.phrase := rfl
  rw [hphrase]
  cases planEdit t site item.entry.phrase rendition with
  | error refusal => rfl
  | ok edit => cases edit <;> rfl

theorem planItems_unkeyed (t : Tree) (lookup : Table Text) (i : Nat) (items : List Item) :
    planItems t lookup i (items.map Item.unkeyed) =
      (planItems t lookup i items).map unkeyedPlan := by
  induction items generalizing i with
  | nil => rfl
  | cons item items ih =>
    have hfingerprint : item.unkeyed.fingerprint = item.fingerprint := rfl
    rw [List.map_cons, planItems, planItems, ih, List.map_append, hfingerprint]
    cases lookup.get? item.fingerprint with
    | none => rfl
    | some rendition => simp only [planItem_unkeyed]

/-- Edits are made by their spans and texts. -/
theorem applyEach_unkeyed (t : Tree) (ps : List (Planned × Nat)) :
    applyEach t (ps.map (Prod.map Planned.unkeyed id)) =
      ((applyEach t ps).1, (applyEach t ps).2.1, (applyEach t ps).2.2.map unnamed) := by
  induction ps generalizing t with
  | nil => rfl
  | cons x ps ih =>
    obtain ⟨p, i⟩ := x
    have hedit : p.unkeyed.edit = p.edit := rfl
    simp only [List.map_cons, Prod.map_apply, id, applyEach, hedit]
    cases t.replaceSpans [p.edit] with
    | ok next => simp only [ih]
    | error fault =>
      simp only [ih, List.map_cons]
      rfl

theorem zipIdx_unkeyed (planned : List Planned) :
    (planned.map Planned.unkeyed).zipIdx = planned.zipIdx.map (Prod.map Planned.unkeyed id) :=
  List.zipIdx_map

theorem fromEnd_unkeyed (planned : List Planned) :
    fromEnd (planned.map Planned.unkeyed) =
      (fromEnd planned).map (Prod.map Planned.unkeyed id) := by
  unfold fromEnd
  rw [zipIdx_unkeyed]
  exact (List.map_mergeSort (f := Prod.map Planned.unkeyed id) fun _ _ _ _ => rfl).symm

theorem applyPlanned_unkeyed (t : Tree) (planned : List Planned) (together : Except Fault Tree) :
    applyPlanned t (planned.map Planned.unkeyed) together =
      ((applyPlanned t planned together).1,
        (applyPlanned t planned together).2.1.map Planned.unkeyed,
        (applyPlanned t planned together).2.2.map unnamed) := by
  cases together with
  | ok next => rfl
  | error fault =>
    simp only [applyPlanned, fromEnd_unkeyed, applyEach_unkeyed, zipIdx_unkeyed,
      List.filter_map, List.map_map]
    rfl

theorem updateItem_unkeyed (accepted : List Planned) (place : Nat) (item : Item) :
    updateItem (accepted.map Planned.unkeyed) place item.unkeyed =
      (updateItem accepted place item).unkeyed := by
  have hedits : (accepted.map Planned.unkeyed).map (·.edit) = accepted.map (·.edit) :=
    List.map_map
  have hhere : (accepted.map Planned.unkeyed).filter (·.item == place) =
      (accepted.filter (·.item == place)).map Planned.unkeyed := List.filter_map
  simp only [updateItem, hedits, hhere, List.getLast?_map]
  cases (accepted.filter (·.item == place)).getLast? <;> rfl

theorem plannedEdits_unkeyed (t : Tree) (lookup : Table Text) (items : List Item) :
    plannedEdits t lookup (items.map Item.unkeyed) =
      (plannedEdits t lookup items).map Planned.unkeyed := by
  unfold plannedEdits
  rw [planItems_unkeyed, List.filterMap_map, List.map_filterMap]
  refine List.filterMap_congr fun plan _ => ?_
  cases plan <;> rfl

theorem refusals_unkeyed (t : Tree) (lookup : Table Text) (items : List Item) :
    refusals t lookup (items.map Item.unkeyed) = (refusals t lookup items).map unnamed := by
  unfold refusals
  rw [planItems_unkeyed, List.filterMap_map, List.map_filterMap]
  refine List.filterMap_congr fun plan _ => ?_
  cases plan <;> rfl

theorem map_edit_unkeyed (planned : List Planned) :
    (planned.map Planned.unkeyed).map (·.edit) = planned.map (·.edit) := List.map_map

theorem made_unkeyed (t : Tree) (items : List Item) (lookup : Table Text) :
    made t (items.map Item.unkeyed) lookup =
      ((made t items lookup).1, (made t items lookup).2.1.map Planned.unkeyed,
        (made t items lookup).2.2.map unnamed) := by
  simp only [made, plannedEdits_unkeyed, map_edit_unkeyed, applyPlanned_unkeyed]

/-- What is reported when the edits cannot be made together. -/
def conflict (t : Tree) (planned : List Planned) : Option Fault :=
  match t.replaceSpans (planned.map (·.edit)) with
  | .ok _ => none
  | .error fault => some fault

theorem translateTree_eq (s : Script) (t : Tree) (lookup : Table Text) :
    s.translateTree t lookup =
      if (plannedEdits t lookup s.items).isEmpty then (s, ⟨[], refusals t lookup s.items, none⟩)
      else ({ s with
          body := .tree (made t s.items lookup).1
          items := s.items.zipIdx.map fun x => updateItem (made t s.items lookup).2.1 x.2 x.1 },
        { applied := (made t s.items lookup).2.1.map Planned.change
          skipped := refusals t lookup s.items ++ (made t s.items lookup).2.2
          conflict := conflict t (plannedEdits t lookup s.items) }) := rfl

theorem translateTree_unkeyed (s : Script) (t : Tree) (lookup : Table Text) :
    s.unkeyed.translateTree t lookup =
      ((s.translateTree t lookup).1.unkeyed, (s.translateTree t lookup).2.unkeyed) := by
  have hitems : s.unkeyed.items = s.items.map Item.unkeyed := rfl
  rw [translateTree_eq, translateTree_eq, hitems]
  simp only [plannedEdits_unkeyed, refusals_unkeyed, made_unkeyed, conflict, map_edit_unkeyed,
    List.isEmpty_map]
  by_cases hnone : (plannedEdits t lookup s.items).isEmpty = true
  · rw [if_pos hnone, if_pos hnone]
    rfl
  · rw [if_neg hnone, if_neg hnone]
    simp only [Script.unkeyed, Report.unkeyed, List.zipIdx_map, List.map_map, List.map_append,
      Function.comp_def, Prod.map_fst, Prod.map_snd, id, updateItem_unkeyed]
    rfl

theorem translateRaw_unkeyed (lookup : Table Text) (text : Text) (items : List Item) :
    translateRaw lookup text (items.map Item.unkeyed) =
      ((translateRaw lookup text items).1, (translateRaw lookup text items).2.1.map Item.unkeyed,
        (translateRaw lookup text items).2.2.unkeyed) := by
  induction items generalizing text with
  | nil => rfl
  | cons item items ih =>
    have hfingerprint : item.unkeyed.fingerprint = item.fingerprint := rfl
    have hpair : rawPair item.unkeyed = rawPair item := rfl
    simp only [List.map_cons, translateRaw, hfingerprint, hpair]
    cases lookup.get? item.fingerprint with
    | none =>
      simp only [Option.bind_eq_bind, Option.bind_none, ih, List.map_cons]
    | some rendition =>
      cases h : rawPair item rendition with
      | none =>
        simp only [Option.bind_eq_bind, Option.bind_some, h, Option.bind_none, ih, List.map_cons]
      | some pair =>
        simp only [Option.bind_eq_bind, Option.bind_some, h, Option.pure_def]
        by_cases hoccurs : text.occurs pair.1 = true
        · rw [if_pos hoccurs, if_pos hoccurs]
          simp only [ih]
          rfl
        · rw [if_neg hoccurs, if_neg hoccurs]
          simp only [ih]
          rfl

/-- A call does not read keys. -/
theorem translate_unkeyed (s : Script) (renditions : List Entry) :
    s.unkeyed.translate renditions =
      ((s.translate renditions).1.unkeyed, (s.translate renditions).2.unkeyed) := by
  have hnone : s.unkeyed.items.isEmpty = s.items.isEmpty := List.isEmpty_map
  have hbody : s.unkeyed.body = s.body := rfl
  unfold translate
  simp only [hnone, hbody]
  by_cases hidle : (s.items.isEmpty || (usable renditions).isEmpty) = true
  · rw [if_pos hidle, if_pos hidle]
    rfl
  · rw [if_neg hidle, if_neg hidle]
    cases s.body with
    | tree t => exact translateTree_unkeyed s t _
    | raw text =>
      have hraw := translateRaw_unkeyed (usable renditions) text s.items
      simp only [Script.unkeyed, hraw]

/-! What is read of renditions. -/

/-- The rendition in the last entry of a fingerprint that has one to be written. -/
def lastRendition (renditions : List Entry) (fingerprint : Text) : Option Text :=
  (renditions.filter fun e => e.isTranslated && e.fingerprint == fingerprint).getLast?.map
    (·.rendition)

/-- Two lists of entries with the same rendition for every fingerprint. -/
def Agree (renditions renditions' : List Entry) : Prop :=
  ∀ fingerprint, lastRendition renditions fingerprint = lastRendition renditions' fingerprint

theorem get?_usable (renditions : List Entry) (fingerprint : Text) :
    (usable renditions).get? fingerprint = lastRendition renditions fingerprint := by
  have hp : ∀ e : Entry, decide (e.isTranslated = true ∧ (e.fingerprint == fingerprint) = true) =
      (e.isTranslated && e.fingerprint == fingerprint) := by
    intro e
    rw [Bool.decide_and, Bool.decide_eq_true, Bool.decide_eq_true]
  unfold usable lastRendition Table.get?
  rw [List.getLast?_eq_head?_reverse, ← List.filter_reverse, List.head?_filter, ← List.map_reverse,
    ← List.filter_reverse, List.find?_map, List.find?_filter, Option.map_map]
  simp only [Function.comp_def, hp]

/-- Keys, types and positions of renditions are not read. -/
theorem agree_of_forall₂ (h : List.Forall₂ (fun a b : Entry => a.phrase = b.phrase ∧
      a.context = b.context ∧ a.rendition = b.rendition) renditions renditions') :
    Agree renditions renditions' := by
  intro fingerprint
  let p (e : Entry) : Bool := e.isTranslated && e.fingerprint == fingerprint
  have hsame : (renditions.filter p).map (·.rendition) = (renditions'.filter p).map (·.rendition) := by
    induction h with
    | nil => rfl
    | @cons a b more more' hab _ ih =>
      obtain ⟨hphrase, hcontext, hrendition⟩ := hab
      have hp : p a = p b := by
        simp only [p, Entry.isTranslated, Entry.fingerprint, hphrase, hcontext, hrendition]
      by_cases hb : p b = true
      · rw [List.filter_cons_of_pos (hp.trans hb), List.filter_cons_of_pos hb, List.map_cons,
          List.map_cons, hrendition, ih]
      · rw [List.filter_cons_of_neg (hp ▸ hb), List.filter_cons_of_neg hb, ih]
  unfold lastRendition
  rw [← List.getLast?_map, ← List.getLast?_map]
  exact congrArg List.getLast? hsame

/-- The order of entries with different fingerprints does not matter. -/
theorem agree_of_perm (h : renditions.Perm renditions')
    (hone : renditions.Pairwise fun a b => a.fingerprint ≠ b.fingerprint) :
    Agree renditions renditions' := by
  intro fingerprint
  let p (e : Entry) : Bool := e.isTranslated && e.fingerprint == fingerprint
  have hperm : (renditions.filter p).Perm (renditions'.filter p) := h.filter p
  have hsame : renditions.filter p = renditions'.filter p := by
    rcases hs : renditions.filter p with _ | ⟨a, _ | ⟨b, more⟩⟩
    · rw [hs] at hperm
      exact hperm.nil_eq
    · rw [hs] at hperm
      exact (List.perm_singleton.1 hperm.symm).symm
    · have hpair := hone.filter p
      rw [hs] at hpair
      have hp : ∀ e ∈ renditions.filter p, e.fingerprint = fingerprint := by
        intro e he
        have hkept := (List.mem_filter.1 he).2
        simp only [p, Bool.and_eq_true, beq_iff_eq] at hkept
        exact hkept.2
      rw [hs] at hp
      have hne := (List.pairwise_cons.1 hpair).1 b List.mem_cons_self
      rw [hp a List.mem_cons_self, hp b (by simp)] at hne
      exact absurd rfl hne
  change ((renditions.filter p).getLast?.map _) = ((renditions'.filter p).getLast?.map _)
  rw [hsame]

theorem planItems_congr (h : ∀ key, lookup.get? key = lookup'.get? key) (t : Tree) (i : Nat)
    (items : List Item) : planItems t lookup i items = planItems t lookup' i items := by
  induction items generalizing i with
  | nil => rfl
  | cons item items ih => simp only [planItems, h, ih]

theorem translateRaw_congr (h : ∀ key, lookup.get? key = lookup'.get? key) (text : Text)
    (items : List Item) : translateRaw lookup text items = translateRaw lookup' text items := by
  induction items generalizing text with
  | nil => rfl
  | cons item items ih => simp only [translateRaw, h, ih]

/-- A call reads the last rendition of each fingerprint only. -/
theorem translate_congr (s : Script) (h : Agree renditions renditions') :
    s.translate renditions = s.translate renditions' := by
  have hget : ∀ key, (usable renditions).get? key = (usable renditions').get? key := by
    intro key
    rw [get?_usable, get?_usable, h key]
  have hempty := Table.isEmpty_congr hget
  simp only [translate, hempty, translateTree, planItems_congr hget, translateRaw_congr hget]

/-! Outcomes. -/

/-- What a call shows apart from keys: the text after it, whether anything was replaced, what was
replaced by what and where, and why other renditions were refused. -/
structure Outcome where
  text : Text
  changed : Bool
  replaced : List (Text × Text × Option Position)
  refusals : List Refusal
deriving DecidableEq

def outcome (result : Script × Report) : Outcome where
  text := result.1.render
  changed := result.2.changed
  replaced := result.2.applied.map fun c => (c.before, c.after, c.position)
  refusals := result.2.skipped.map (·.2)

/-- The outcomes of calls, one after the other. -/
def outcomes : Script → List (List Entry) → List Outcome
  | _, [] => []
  | s, renditions :: more =>
    outcome (s.translate renditions) :: outcomes (s.translate renditions).1 more

theorem outcome_unkeyed (s : Script) (report : Report) :
    outcome (s.unkeyed, report.unkeyed) = outcome (s, report) := by
  simp only [outcome, Report.unkeyed, Report.changed, List.isEmpty_map, List.map_map]
  rfl

theorem outcomes_unkeyed (s : Script) (calls : List (List Entry)) :
    s.unkeyed.outcomes calls = s.outcomes calls := by
  induction calls generalizing s with
  | nil => rfl
  | cons renditions calls ih => simp only [outcomes, translate_unkeyed, outcome_unkeyed, ih]

theorem outcomes_congr {calls calls' : List (List Entry)} (h : List.Forall₂ Agree calls calls')
    (s : Script) : s.outcomes calls = s.outcomes calls' := by
  induction h generalizing s with
  | nil => rfl
  | cons hagree _ ih => simp only [outcomes, translate_congr s hagree, ih]

/-- Neither the keys a script was given nor those of the renditions play a part. -/
theorem outcomes_eq {s s' : Script} {calls calls' : List (List Entry)}
    (hs : s.unkeyed = s'.unkeyed) (h : List.Forall₂ Agree calls calls') :
    s.outcomes calls = s'.outcomes calls' := by
  rw [← outcomes_unkeyed s, hs, outcomes_unkeyed, outcomes_congr h]

section

variable {rules : CallRules} {discarded : List Text} {content stem stem' : Text} {x x' y y' : Index}
  {s s' : Script}

/-- Scripts made of one text differ in their keys only. -/
theorem parse_unkeyed (h : parse rules stem content x = .ok (s, y))
    (h' : parse rules stem' content x' = .ok (s', y')) : s.unkeyed = s'.unkeyed := by
  obtain ⟨t, items, ht, hitems, rfl⟩ := parse_eq_ok_iff.1 h
  obtain ⟨t', items', ht', hitems', rfl⟩ := parse_eq_ok_iff.1 h'
  cases ht.symm.trans ht'
  simp only [unkeyed, map_assignKeys (f := Item.unkeyed) (fun _ _ => rfl) hitems,
    map_assignKeys (f := Item.unkeyed) (fun _ _ => rfl) hitems']

theorem parseChunks_unkeyed (h : parseChunks rules discarded stem content x = .ok (s, y))
    (h' : parseChunks rules discarded stem' content x' = .ok (s', y')) :
    s.unkeyed = s'.unkeyed := by
  obtain ⟨items, hitems, rfl⟩ := parseChunks_eq_ok_iff.1 h
  obtain ⟨items', hitems', rfl⟩ := parseChunks_eq_ok_iff.1 h'
  simp only [unkeyed, map_assignKeys (f := Item.unkeyed) (fun _ _ => rfl) hitems,
    map_assignKeys (f := Item.unkeyed) (fun _ _ => rfl) hitems']

end

/-- Scripts made of one text answer calls alike, whatever their keys begin with and whatever index
numbers them, and whichever of two lists that agree on the renditions each call brings. If the text
cannot be parsed as a whole, the fault is the same too; nothing else fails, unless an index has not
enough numbers for the texts. -/
theorem outcomes_of_agree (rules : CallRules) (discarded : List Text) (content stem stem' : Text)
    (x x' : Index) {calls calls' : List (List Entry)} (h : List.Forall₂ Agree calls calls') :
    (∀ s y s' y', parse rules stem content x = .ok (s, y) →
      parse rules stem' content x' = .ok (s', y') → s.outcomes calls = s'.outcomes calls') ∧
    (∀ s y s' y', parseChunks rules discarded stem content x = .ok (s, y) →
      parseChunks rules discarded stem' content x' = .ok (s', y') →
        s.outcomes calls = s'.outcomes calls') ∧
    (∀ fault, parse rules stem content x = .error fault →
      parse rules stem' content x' = .error fault ∨
      fault = .overflow ∧ ∃ t, Tree.ofScript content.normalize = .ok t ∧
        x.RunsOut ((Item.collect (t.finds rules)).map (·.entry.fingerprint))) ∧
    ∀ fault, parseChunks rules discarded stem content x = .error fault →
      fault = .overflow ∧ x.RunsOut
        ((Item.collect (findsOfChunks rules discarded content.normalize)).map
          (·.entry.fingerprint)) := by
  refine ⟨fun s y s' y' hs hs' => outcomes_eq (parse_unkeyed hs hs') h,
    fun s y s' y' hs hs' => outcomes_eq (parseChunks_unkeyed hs hs') h, fun fault hfault => ?_,
    fun fault hfault => parseChunks_eq_error_iff.1 hfault⟩
  rcases parse_eq_error_iff.1 hfault with ⟨e, he, rfl⟩ | ⟨t, ht, rfl, hout⟩
  · exact .inl (parse_eq_error_iff.2 (.inl ⟨e, he, rfl⟩))
  · exact .inr ⟨rfl, t, ht, hout⟩

/-- Two entries in one order and, with other keys and types, in the other. -/
theorem outcomes_of_agree_swapped :
    let content := Text.of "func f():\n\tsay(\"A\")\n\tsay(\"B\")\n"
    let a := { Entry.new (Text.of "A") (some (Text.of "say(\"A\")")) with rendition := Text.of "B" }
    let b := { Entry.new (Text.of "B") (some (Text.of "say(\"B\")")) with rendition := Text.of "C" }
    let a' := { a with key := Text.of "s_0", type := some (Text.of "string") }
    let x := { Index.empty with counter := 7, numbers := [(a.fingerprint, 3)] }
    List.Forall₂ Agree [[a, b]] [[b, a']] ∧
    (∃ s y s' y', parse .builtin ['s'] content .empty = .ok (s, y) ∧
      parse .builtin ['t'] content x = .ok (s', y') ∧
      s.outcomes [[a, b]] = s'.outcomes [[b, a']]) ∧
    ∃ s y s' y', parseChunks .builtin [] ['s'] content .empty = .ok (s, y) ∧
      parseChunks .builtin [] ['t'] content x = .ok (s', y') ∧
      s.outcomes [[a, b]] = s'.outcomes [[b, a']] ∧
      (s.translate [a, b]).1.render = Text.of "func f():\n\tsay(\"C\")\n\tsay(\"C\")\n" := by
  intro content a b a' x
  have hagree : List.Forall₂ Agree [[a, b]] [[b, a']] := by
    refine .cons (fun fingerprint => ?_) .nil
    have hkeys : Agree [a, b] [a', b] :=
      agree_of_forall₂ (.cons ⟨rfl, rfl, rfl⟩ (.cons ⟨rfl, rfl, rfl⟩ .nil))
    have hne : a'.fingerprint ≠ b.fingerprint := by decide +kernel
    have hswap : Agree [a', b] [b, a'] := agree_of_perm (.swap b a' []) (by simpa using hne)
    rw [hkeys, hswap]
  obtain ⟨hparse, hchunks, -, -⟩ :=
    outcomes_of_agree .builtin [] content ['s'] ['t'] .empty x hagree
  have hruns : (parse .builtin ['s'] content .empty).toOption.isSome = true ∧
      (parse .builtin ['t'] content x).toOption.isSome = true ∧
      ((parseChunks .builtin [] ['s'] content .empty).toOption.any fun r =>
        decide ((r.1.translate [a, b]).1.render =
          Text.of "func f():\n\tsay(\"C\")\n\tsay(\"C\")\n")) = true ∧
      (parseChunks .builtin [] ['t'] content x).toOption.isSome = true := by
    decide +kernel
  obtain ⟨hs, hs', hc, hc'⟩ := hruns
  obtain ⟨⟨s, y⟩, hs⟩ := exists_ok_of_isSome hs
  obtain ⟨⟨s', y'⟩, hs'⟩ := exists_ok_of_isSome hs'
  obtain ⟨⟨c, z⟩, hc, hrender⟩ := exists_ok_of_any hc
  obtain ⟨⟨c', z'⟩, hc'⟩ := exists_ok_of_isSome hc'
  exact ⟨hagree, ⟨s, y, s', y', hs, hs', hparse s y s' y' hs hs'⟩,
    ⟨c, z, c', z', hc, hc', hchunks c z c' z' hc hc', of_decide_eq_true hrender⟩⟩

end Script

end Phrasebook
