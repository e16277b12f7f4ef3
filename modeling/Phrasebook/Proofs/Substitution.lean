import Phrasebook.Proofs.Regions

/-!
Edits made together as one substitution.

Edits that start at different places have one order. In this order neighbours that do not overlap
are apart from all others too, so the text falls into the pieces between the edits, and making them
all is writing the new texts into the pieces (`Edit.Substitutes`). The same comes of making them one
after the other from the last one on (`Edit.applyInTurn`), since each leaves what stands before it.
-/
namespace Phrasebook

open Text (Stands size isBoundary)

namespace Edit

open Piece

variable {source text : Text} {es row : List Edit} {e : Edit} {cursor : Nat}

/-- The ends of the edit come in order, and those that lie in the text lie between characters. -/
structure Whole (source : Text) (e : Edit) : Prop where
  le : e.span.start ≤ e.span.stop
  start : e.span.start ≤ size source → isBoundary e.span.start source = true
  stop : e.span.stop ≤ size source → isBoundary e.span.stop source = true

/-- What edits make of a text: both are made of the same pieces, and each edit replaces what stands
between two of them. -/
def Substitutes (source : Text) (es : List Edit) (text : Text) : Prop :=
  ∃ ps tail, source = weave old tail ps ∧ es.Perm (edits 0 ps) ∧ text = weave written tail ps

/-- The text with edits made one after the other, each in what those before it have left. -/
def applyInTurn (source : Text) (es : List Edit) : Except Conflict Text :=
  es.foldlM (fun text e => applyAll text [e]) source

/-! ### The order of edits -/

theorem pairwise_lt_inOrder (hone : es.Pairwise fun a b => a.span.start ≠ b.span.start) :
    (inOrder es).Pairwise fun a b => a.span.start < b.span.start := by
  have hne : (inOrder es).Pairwise fun a b => a.span.start ≠ b.span.start :=
    ((List.mergeSort_perm _ _).pairwise_iff fun h => h.symm).2 hone
  exact ((pairwise_inOrder es).and hne).imp fun h => Nat.lt_of_le_of_ne h.1 h.2

/-- Edits that start one behind the other are in their order. -/
theorem inOrder_eq_of_pairwise (hp : row.Perm es)
    (hrow : row.Pairwise fun a b => a.span.start < b.span.start) : inOrder es = row := by
  have hperm : (inOrder es).Perm row := (List.mergeSort_perm _ _).trans hp.symm
  have hlt : (inOrder es).Pairwise fun a b => a.span.start < b.span.start :=
    pairwise_lt_inOrder <| (hp.pairwise_iff fun h => h.symm).1 <| hrow.imp fun h => Nat.ne_of_lt h
  refine hperm.eq_of_pairwise (fun a b _ _ hab hba => ?_) hlt hrow
  exact absurd hab (Nat.lt_asymm hba)

theorem overlaps_eq_false_iff {a b : Span} (hlt : a.start < b.start) (hb : b.start ≤ b.stop) :
    a.overlaps b = false ↔ a.stop ≤ b.start := by
  rw [← Bool.not_eq_true, Span.overlaps_iff]
  omega

/-- Of edits that start at different places no two overlap exactly if in order each ends before the
next one. -/
theorem pairwise_overlaps_iff (hle : ∀ e ∈ es, e.span.start ≤ e.span.stop)
    (hone : es.Pairwise fun a b => a.span.start ≠ b.span.start) :
    (es.Pairwise fun a b => a.span.overlaps b.span = false) ↔
      (inOrder es).Pairwise fun a b => a.span.stop ≤ b.span.start := by
  have hsymm {a b : Edit} (h : a.span.overlaps b.span = false) :
      b.span.overlaps a.span = false := by
    rwa [Span.overlaps, Bool.and_comm]
  rw [← (List.mergeSort_perm es _).pairwise_iff hsymm]
  have hlt := pairwise_lt_inOrder hone
  constructor
  · intro h
    refine List.Pairwise.imp_of_mem (fun _ hb hab => ?_) (h.and hlt)
    exact (overlaps_eq_false_iff hab.2 (hle _ (mem_inOrder.1 hb))).1 hab.1
  · intro h
    refine List.Pairwise.imp_of_mem (fun _ hb hab => ?_) (h.and hlt)
    exact (overlaps_eq_false_iff hab.2 (hle _ (mem_inOrder.1 hb))).2 hab.1

/-! ### Edits in a row -/

/-- Where every edit replaces something that stands in the text, the text is made of pieces that the
edits are written into. -/
theorem exists_pieces_of_row (hrow : row.Pairwise fun a b => a.span.stop ≤ b.span.start)
    (hone : row.Pairwise fun a b => a.span.start ≠ b.span.start)
    (hs : ∀ e ∈ row, ∃ m, Stands source e.span m) :
    ∃ ps tail, source = weave old tail ps ∧ edits 0 ps = row := by
  let new (s : Span) : Option Text := (row.find? (·.span == s)).map (·.text)
  have hnew : ∀ e ∈ row, new e.span = some e.text := by
    intro e he
    have hspans : row.Pairwise fun a b => a.span ≠ b.span :=
      hone.imp fun h hspan => h (congrArg Span.start hspan)
    simp only [new, find?_span_eq hspans he, Option.map_some]
  obtain ⟨ps, tail, hsource, hspans, hps⟩ :=
    exists_pieces [] source new (row.map Edit.span) (List.pairwise_map.2 hrow) (by
      intro s h
      obtain ⟨e, he, rfl⟩ := List.mem_map.1 h
      exact ⟨Nat.zero_le _, hs e he⟩)
  have hspans : spans old 0 ps = row.map Edit.span := hspans
  refine ⟨ps, tail, hsource, ?_⟩
  rw [edits_eq_filterMap new (by rw [hps, hspans]), hspans, List.filterMap_map]
  rw [List.filterMap_congr (g := some) fun e he => by simp [hnew e he]]
  exact List.filterMap_some

theorem stop_le_of_splice (h : splice source cursor es = .ok text) :
    ∀ e ∈ es, e.span.stop ≤ size source := by
  induction es generalizing cursor text with
  | nil => simp
  | cons e es ih =>
    rw [splice] at h
    split at h
    · cases h
    next hno =>
      cases hrest : splice source e.span.stop es with
      | error => rw [hrest] at h; cases h
      | ok rest =>
        have hstop : e.span.stop ≤ size source := by omega
        exact List.forall_mem_cons.2 ⟨hstop, ih hrest⟩

theorem Whole.exists_stands (h : Whole source e) (hin : e.span.stop ≤ size source) :
    ∃ m, Stands source e.span m :=
  ⟨_, Text.stands_slice (h.start (Nat.le_trans h.le hin)) (h.stop hin) h.le⟩

/-- Edits that end inside the text, each before the next one, can be made. -/
theorem exists_substitutes (hes : ∀ e ∈ es, Whole source e)
    (hone : es.Pairwise fun a b => a.span.start ≠ b.span.start)
    (hin : ∀ e ∈ es, e.span.stop ≤ size source)
    (hrow : (inOrder es).Pairwise fun a b => a.span.stop ≤ b.span.start) :
    ∃ ps tail, source = weave old tail ps ∧ edits 0 ps = inOrder es ∧
      applyAll source es = .ok (weave written tail ps) := by
  have hone' : (inOrder es).Pairwise fun a b => a.span.start ≠ b.span.start :=
    (pairwise_lt_inOrder hone).imp fun h => Nat.ne_of_lt h
  obtain ⟨ps, tail, hsource, hps⟩ := exists_pieces_of_row hrow hone' fun e he =>
    (hes e (mem_inOrder.1 he)).exists_stands (hin e (mem_inOrder.1 he))
  refine ⟨ps, tail, hsource, hps, ?_⟩
  have hsplice := splice_edits [] [] ps (by simpa using hsource)
  rw [applyAll_eq_splice hrow, ← hps]
  simpa [size] using hsplice

/-! ### Edits one after the other -/

theorem applyAll_single (source : Text) (e : Edit) :
    applyAll source [e] = splice source 0 [e] := by
  simp [applyAll, inOrder, overlap?]

/-- From the last piece to the first one. By induction on the pieces from the end: what the last edit
leaves is made of the pieces before it, with a new tail. -/
theorem applyInTurn_reverse (ps : List Piece) (tail : Text) :
    applyInTurn (weave old tail ps) (edits 0 ps).reverse = .ok (weave written tail ps) := by
  induction ps using List.reverseRecOn generalizing tail with
  | nil => rfl
  | append_singleton ps p ih =>
    have hwritten : weave written tail (ps ++ [p]) =
        weave written (p.gap ++ p.written ++ tail) ps := by
      rw [weave_append]
      rfl
    rw [hwritten, edits_append, List.reverse_append]
    cases hn : p.new with
    | none =>
      have hold : weave old tail (ps ++ [p]) = weave old (p.gap ++ p.written ++ tail) ps := by
        rw [weave_append, written, hn]
        rfl
      rw [hold]
      simpa [edits, hn] using ih (p.gap ++ p.written ++ tail)
    | some new =>
      have hpieces : weave old tail (ps ++ [p]) =
          [] ++ [] ++ weave old tail [⟨weave old [] ps ++ p.gap, p.old, some new⟩] := by
        rw [weave_append, weave_eq_append]
        simp [weave]
      have hkept : weave old (p.gap ++ p.written ++ tail) ps =
          weave written tail [⟨weave old [] ps ++ p.gap, p.old, some new⟩] := by
        rw [weave_eq_append]
        simp [weave, written, hn]
      have hstep : applyAll (weave old tail (ps ++ [p]))
          [⟨⟨0 + size (weave old [] ps) + size p.gap,
            0 + size (weave old [] ps) + size p.gap + size p.old⟩, new⟩] =
          .ok (weave old (p.gap ++ p.written ++ tail) ps) := by
        rw [applyAll_single, hkept]
        simpa [edits, size, Nat.add_assoc] using splice_edits [] [] _ hpieces
      have hrest := ih (p.gap ++ p.written ++ tail)
      simp only [edits, hn, Option.map_some, Option.toList_some, List.append_nil,
        List.reverse_cons, List.reverse_nil, List.nil_append, List.singleton_append, applyInTurn,
        List.foldlM_cons, hstep] at hrest ⊢
      exact hrest

/-- Edits of whole characters that start at different places can be made together exactly if all end
inside the text and no two overlap. They are then made as one substitution, in whatever order they
are given, and from the last to the first one after the other they make the same text. -/
theorem applyAll_iff_apart (hes : ∀ e ∈ es, Whole source e)
    (hone : es.Pairwise fun a b => a.span.start ≠ b.span.start) :
    ((∃ text, applyAll source es = .ok text) ↔
      (∀ e ∈ es, e.span.stop ≤ size source) ∧
        es.Pairwise fun a b => a.span.overlaps b.span = false) ∧
    ∀ text, applyAll source es = .ok text →
      Substitutes source es text ∧
      (∀ es', es'.Perm es → applyAll source es' = .ok text) ∧
      ∀ es', es'.Perm es → (es'.Pairwise fun a b => b.span.start < a.span.start) →
        applyInTurn source es' = .ok text := by
  have hle : ∀ e ∈ es, e.span.start ≤ e.span.stop := fun e he => (hes e he).le
  have hspec : ∀ text, applyAll source es = .ok text →
      (∀ e ∈ es, e.span.stop ≤ size source) ∧
        (inOrder es).Pairwise fun a b => a.span.stop ≤ b.span.start := by
    intro text h
    obtain ⟨hrow, hsplice⟩ := pairwise_of_applyAll hle h
    exact ⟨fun e he => stop_le_of_splice hsplice e (mem_inOrder.2 he), hrow⟩
  refine ⟨⟨?_, ?_⟩, ?_⟩
  · rintro ⟨text, h⟩
    obtain ⟨hin, hrow⟩ := hspec text h
    exact ⟨hin, (pairwise_overlaps_iff hle hone).2 hrow⟩
  · rintro ⟨hin, hapart⟩
    obtain ⟨ps, tail, -, -, h⟩ :=
      exists_substitutes hes hone hin ((pairwise_overlaps_iff hle hone).1 hapart)
    exact ⟨_, h⟩
  · intro text h
    obtain ⟨hin, hrow⟩ := hspec text h
    obtain ⟨ps, tail, hsource, hps, hall⟩ := exists_substitutes hes hone hin hrow
    rw [h] at hall
    cases hall
    refine ⟨⟨ps, tail, hsource, ?_, rfl⟩, fun es' hp => ?_, fun es' hp hdown => ?_⟩
    · rw [hps]
      exact (List.mergeSort_perm _ _).symm
    · have horder : inOrder es' = inOrder es :=
        inOrder_eq_of_pairwise ((List.mergeSort_perm _ _).trans hp.symm) (pairwise_lt_inOrder hone)
      rw [applyAll, horder]
      exact h
    · have horder : inOrder es = es'.reverse :=
        inOrder_eq_of_pairwise ((List.reverse_perm _).trans hp) (List.pairwise_reverse.2 hdown)
      rw [← List.reverse_reverse es', ← horder, ← hps, hsource]
      exact applyInTurn_reverse ps tail

/-- Two calls, with three edits out of order: two write other texts, and one puts in a sign. -/
def twoCalls : Text := Text.of "say(\"a\") + say(\"b\")"

def lastCall : Edit := ⟨⟨15, 18⟩, Text.of "\"乙\""⟩

def firstCall : Edit := ⟨⟨4, 7⟩, Text.of "\"甲\""⟩

def sign : Edit := ⟨⟨11, 11⟩, Text.of "-"⟩

theorem applyAll_iff_apart_three :
    (∀ e ∈ [lastCall, firstCall, sign], Whole twoCalls e) ∧
      ([lastCall, firstCall, sign].Pairwise fun a b => a.span.start ≠ b.span.start) ∧
      Substitutes twoCalls [lastCall, firstCall, sign] (Text.of "say(\"甲\") + -say(\"乙\")") ∧
      applyAll twoCalls [sign, lastCall, firstCall] = .ok (Text.of "say(\"甲\") + -say(\"乙\")") ∧
      applyInTurn twoCalls [lastCall, sign, firstCall] =
        .ok (Text.of "say(\"甲\") + -say(\"乙\")") := by
  have hwhole : ∀ e ∈ [lastCall, firstCall, sign], Whole twoCalls e := by
    simp only [List.forall_mem_cons]
    refine ⟨⟨?_, ?_, ?_⟩, ⟨?_, ?_, ?_⟩, ⟨?_, ?_, ?_⟩, by simp⟩ <;> decide
  have hone : [lastCall, firstCall, sign].Pairwise fun a b => a.span.start ≠ b.span.start := by
    decide
  have hmade : applyAll twoCalls [lastCall, firstCall, sign] =
      .ok (Text.of "say(\"甲\") + -say(\"乙\")") := by
    have horder : inOrder [lastCall, firstCall, sign] = [firstCall, sign, lastCall] :=
      inOrder_eq_of_pairwise (by decide) (by decide)
    rw [applyAll, horder]
    decide +kernel
  obtain ⟨hsub, hperm, hturn⟩ := (applyAll_iff_apart hwhole hone).2 _ hmade
  exact ⟨hwhole, hone, hsub, hperm _ (by decide), hturn _ (by decide) (by decide)⟩

end Edit

end Phrasebook
