import Mathlib.Data.List.Forall2
import Mathlib.Data.List.Pairwise
import Phrasebook.Proofs.Standing
import Phrasebook.Script.Translate

/-!
A text as pieces, each with a site where something else may be written.

Whatever edits are made at sites that do not overlap, the result is the text of the same pieces with
what was written in place of what stood there (`Piece.applyAll_eq`), and every site, written or not,
is found again where `Script.remap` says (`Piece.map_remap_spans`).
-/
namespace Phrasebook

open Text (Stands size)

/-- What is kept before a site, what stands there, and what is written there, if anything. -/
structure Piece where
  gap : Text
  old : Text
  new : Option Text

namespace Piece

/-- What stands at the site in the end. -/
def written (p : Piece) : Text := p.new.getD p.old

variable {pick : Piece → Text} {p : Piece} {ps qs : List Piece} {pos : Nat} {tail : Text}
  {e : Edit} {span : Span}

/-- The text of pieces with a tail, where `pick` says what stands at the sites. -/
def weave (pick : Piece → Text) (tail : Text) : List Piece → Text
  | [] => tail
  | p :: more => p.gap ++ pick p ++ weave pick tail more

/-- The spans of the sites from byte `pos` on. -/
def spans (pick : Piece → Text) (pos : Nat) : List Piece → List Span
  | [] => []
  | p :: more =>
    ⟨pos + size p.gap, pos + size p.gap + size (pick p)⟩ ::
      spans pick (pos + size p.gap + size (pick p)) more

/-- The edits that write the new texts. -/
def edits (pos : Nat) : List Piece → List Edit
  | [] => []
  | p :: more =>
    let stop := pos + size p.gap + size p.old
    (p.new.map fun text => (⟨⟨pos + size p.gap, stop⟩, text⟩ : Edit)).toList ++ edits stop more

theorem weave_append (ps qs : List Piece) :
    weave pick tail (ps ++ qs) = weave pick (weave pick tail qs) ps := by
  induction ps with
  | nil => rfl
  | cons p ps ih => simp [weave, ih]

theorem weave_eq_append (ps : List Piece) : weave pick tail ps = weave pick [] ps ++ tail := by
  induction ps with
  | nil => rfl
  | cons p ps ih => simp [weave, ih]

theorem size_weave (ps : List Piece) :
    size (weave pick tail ps) = size (weave pick [] ps) + size tail := by
  induction ps with
  | nil => simp [weave, size]
  | cons p ps ih => simp [weave, ih, Nat.add_assoc]

theorem size_weave_concat (ps : List Piece) (p : Piece) :
    size (weave pick [] (ps ++ [p])) = size (weave pick [] ps) + size p.gap + size (pick p) := by
  rw [weave_append, size_weave]
  simp [weave, Nat.add_assoc]

theorem edits_append (ps qs : List Piece) (pos : Nat) :
    edits pos (ps ++ qs) = edits pos ps ++ edits (pos + size (weave old [] ps)) qs := by
  induction ps generalizing pos with
  | nil => simp [edits, weave, size]
  | cons p ps ih => simp [edits, weave, ih, Nat.add_assoc]

theorem le_start_of_mem_spans (h : span ∈ spans pick pos ps) :
    pos ≤ span.start ∧ span.start ≤ span.stop := by
  induction ps generalizing pos with
  | nil => simp [spans] at h
  | cons p ps ih =>
    rcases List.mem_cons.1 h with rfl | h
    · exact ⟨Nat.le_add_right _ _, Nat.le_add_right _ _⟩
    · have := ih h
      omega

theorem pairwise_spans (ps : List Piece) (pos : Nat) :
    (spans pick pos ps).Pairwise fun a b => a.stop ≤ b.start := by
  induction ps generalizing pos with
  | nil => exact List.Pairwise.nil
  | cons p ps ih => exact List.Pairwise.cons (fun b hb => (le_start_of_mem_spans hb).1) (ih _)

/-- Edits are made at sites. -/
theorem span_mem_of_mem_edits (h : e ∈ edits pos ps) : e.span ∈ spans old pos ps := by
  induction ps generalizing pos with
  | nil => simp [edits] at h
  | cons p ps ih =>
    simp only [edits, List.mem_append, Option.mem_toList, Option.map_eq_some_iff] at h
    rcases h with ⟨text, _, rfl⟩ | h
    · exact List.mem_cons_self
    · exact List.mem_cons_of_mem _ (ih h)

theorem stop_le_of_mem_spans (h : span ∈ spans pick pos ps) :
    span.stop ≤ pos + size (weave pick [] ps) := by
  induction ps generalizing pos with
  | nil => simp [spans] at h
  | cons p ps ih =>
    simp only [weave, Text.size_append]
    rcases List.mem_cons.1 h with rfl | h
    · simp only
      omega
    · have := ih h
      omega

theorem pairwise_edits (ps : List Piece) (pos : Nat) :
    (edits pos ps).Pairwise fun a b => a.span.stop ≤ b.span.start := by
  induction ps generalizing pos with
  | nil => exact List.Pairwise.nil
  | cons p ps ih =>
    refine List.pairwise_append.2 ⟨?_, ih _, ?_⟩
    · cases p.new <;> simp
    · intro a ha b hb
      obtain ⟨text, _, rfl⟩ : ∃ text, p.new = some text ∧ _ = a := by simpa using ha
      exact (le_start_of_mem_spans (span_mem_of_mem_edits hb)).1

/-- The pieces gain what their sites gain. -/
theorem gain_edits (ps : List Piece) (pos : Nat) :
    Edit.gain (edits pos ps) = (size (weave written [] ps) : Int) - size (weave old [] ps) := by
  induction ps generalizing pos with
  | nil => simp [edits, Edit.gain, weave]
  | cons p ps ih =>
    cases hn : p.new with
    | none =>
      simp only [edits, hn, Option.map_none, Option.toList_none, List.nil_append, ih, weave,
        written, Option.getD_none, Text.size_append, Int.natCast_add]
      omega
    | some text =>
      simp only [edits, hn, Option.map_some, Option.toList_some, List.cons_append, List.nil_append,
        Edit.gain, ih, weave, written, Option.getD_some, Text.size_append, Int.natCast_add]
      omega

theorem splice_edits {source : Text} (before middle : Text) (ps : List Piece)
    (h : source = before ++ middle ++ weave old tail ps) :
    Edit.splice source (size before) (edits (size before + size middle) ps) =
      .ok (middle ++ weave written tail ps) := by
  induction ps generalizing before middle with
  | nil => simp [edits, Edit.splice, weave, h]
  | cons p ps ih =>
    cases hn : p.new with
    | none =>
      have hsum : size before + size middle + size p.gap + size p.old =
          size before + size (middle ++ p.gap ++ p.old) := by simp [Nat.add_assoc]
      have := ih before (middle ++ p.gap ++ p.old)
        (by simpa [weave] using h)
      simpa [edits, hn, hsum, weave, written] using this
    | some text =>
      have hstop : size before + size middle + size p.gap + size p.old ≤ size source := by
        simp only [h, weave, Text.size_append]
        omega
      have hsum : size before + size middle + size p.gap + size p.old =
          size (before ++ middle ++ p.gap ++ p.old) := by simp [Nat.add_assoc]
      have hrest := ih (before ++ middle ++ p.gap ++ p.old) []
        (by simpa [weave] using h)
      have hcut : source.slice (size before) (size before + size middle + size p.gap) =
          middle ++ p.gap := by
        have hs := Text.stands_append before (middle ++ p.gap) (p.old ++ weave old tail ps)
        have := hs.slice_eq
        simpa [h, weave, Nat.add_assoc] using this
      have hno : ¬ (size source < size before + size middle + size p.gap + size p.old ∨
          size before + size middle + size p.gap < size before) := by omega
      simp only [edits, hn, Option.map_some, Option.toList_some, List.singleton_append,
        Edit.splice, if_neg hno, hcut]
      simp only [size, Nat.add_zero, List.nil_append] at hrest
      rw [hsum, hrest]
      simp [weave, written, hn, bind, Except.bind, pure, Except.pure]

theorem overlap?_eq_none {es : List Edit}
    (h : es.Pairwise fun a b => a.span.stop ≤ b.span.start) : Edit.overlap? es = none := by
  fun_induction Edit.overlap? es with
  | case1 a b more hc =>
    have := (List.pairwise_cons.1 h).1 b List.mem_cons_self
    simp [Span.overlaps] at hc
    omega
  | case2 a b more _ ih => exact ih (List.pairwise_cons.1 h).2
  | case3 => rfl

/-- A site of pieces with something at every site is not empty. -/
theorem lt_of_mem_spans (ho : ∀ p ∈ ps, pick p ≠ []) (h : span ∈ spans pick pos ps) :
    span.start < span.stop := by
  induction ps generalizing pos with
  | nil => simp [spans] at h
  | cons p ps ih =>
    rcases List.mem_cons.1 h with rfl | h
    · have := Text.size_pos (ho p List.mem_cons_self)
      exact Nat.lt_add_of_pos_right this
    · exact ih (fun q hq => ho q (List.mem_cons_of_mem _ hq)) h

theorem pick_ne_nil (h : ∀ s ∈ spans pick pos ps, s.start < s.stop) : ∀ p ∈ ps, pick p ≠ [] := by
  induction ps generalizing pos with
  | nil => simp
  | cons p ps ih =>
    intro q hq hnil
    rcases List.mem_cons.1 hq with rfl | hq
    · have := h _ List.mem_cons_self
      simp [hnil, size] at this
    · exact ih (fun s hs => h s (List.mem_cons_of_mem _ hs)) q hq hnil

/-- Edits at disjoint sites that start together are the same edit. -/
theorem eq_of_start_eq {es : List Edit} (h : es.Pairwise fun a b => a.span.stop ≤ b.span.start)
    (hlt : ∀ e ∈ es, e.span.start < e.span.stop) {a b : Edit} (ha : a ∈ es) (hb : b ∈ es)
    (hab : a.span.start = b.span.start) : a = b := by
  induction es with
  | nil => simp at ha
  | cons e es ih =>
    obtain ⟨he, hes⟩ := List.pairwise_cons.1 h
    have hlt' : ∀ e ∈ es, e.span.start < e.span.stop :=
      fun e he => hlt e (List.mem_cons_of_mem _ he)
    have hfirst := hlt e List.mem_cons_self
    rcases List.mem_cons.1 ha with hae | ha' <;> rcases List.mem_cons.1 hb with hbe | hb'
    · exact hae.trans hbe.symm
    · have := he b hb'
      subst hae
      omega
    · have := he a ha'
      subst hbe
      omega
    · exact ih hes hlt' ha' hb'

/-- Putting edits in order finds the order of their sites. -/
theorem inOrder_eq {es : List Edit} (ho : ∀ p ∈ ps, p.old ≠ []) (hp : es.Perm (edits 0 ps)) :
    Edit.inOrder es = edits 0 ps := by
  have hsorted := pairwise_edits ps 0
  have hlt : ∀ e ∈ edits 0 ps, e.span.start < e.span.stop :=
    fun e he => lt_of_mem_spans ho (span_mem_of_mem_edits he)
  have hperm : (Edit.inOrder es).Perm (edits 0 ps) := (List.mergeSort_perm _ _).trans hp
  have hone : ∀ a b, a ∈ Edit.inOrder es → b ∈ edits 0 ps → a.span.start ≤ b.span.start →
      b.span.start ≤ a.span.start → a = b := by
    intro a b ha hb hab hba
    exact eq_of_start_eq hsorted hlt (hperm.subset ha) hb (Nat.le_antisymm hab hba)
  refine hperm.eq_of_pairwise hone (Edit.pairwise_inOrder es) (List.Pairwise.imp_of_mem ?_ hsorted)
  intro a b ha _ hab
  have := hlt a ha
  omega

/-- Edits in any order at the sites of pieces: the result has what they write. -/
theorem applyAll_eq {source : Text} {es : List Edit} (hs : source = weave old tail ps)
    (ho : ∀ p ∈ ps, p.old ≠ []) (hp : es.Perm (edits 0 ps)) :
    Edit.applyAll source es = .ok (weave written tail ps) := by
  have := splice_edits [] [] ps (by simpa using hs)
  simpa [Edit.applyAll, inOrder_eq ho hp, overlap?_eq_none (pairwise_edits ps 0), size] using this

/-- The text at a site of pieces is what was picked there. -/
theorem stands_weave (pick : Piece → Text) (before : Text) (ps : List Piece) (tail : Text) :
    List.Forall₂ (fun p span => Stands (before ++ weave pick tail ps) span (pick p)) ps
      (spans pick (size before) ps) := by
  induction ps generalizing before with
  | nil => exact List.Forall₂.nil
  | cons p ps ih =>
    refine List.Forall₂.cons ?_ ?_
    · have := Text.stands_append (before ++ p.gap) (pick p) (weave pick tail ps)
      simpa [weave] using this
    · have := ih (before ++ p.gap ++ pick p)
      simpa [weave, Nat.add_assoc] using this

theorem gain_perm {a b : List Edit} (h : a.Perm b) : Edit.gain a = Edit.gain b := by
  induction h with
  | nil => rfl
  | cons e _ ih => simp only [Edit.gain, ih]
  | swap e f l => simp only [Edit.gain]; omega
  | trans _ _ iha ihb => exact iha.trans ihb

/-- An offset moves by what the pieces before it gain. -/
theorem shift_edits {es : List Edit} (offset : Nat) (hp : es.Perm (edits pos (ps ++ qs)))
    (hps : pos + size (weave old [] ps) ≤ offset)
    (hqs : ∀ e ∈ edits (pos + size (weave old [] ps)) qs, offset < e.span.stop) :
    Script.shift es offset = (size (weave written [] ps) : Int) - size (weave old [] ps) := by
  rw [edits_append] at hp
  have hfilter := hp.filter fun e => decide (e.span.stop ≤ offset)
  have hleft : (edits pos ps).filter (fun e => decide (e.span.stop ≤ offset)) = edits pos ps := by
    refine List.filter_eq_self.2 fun e he => ?_
    have := stop_le_of_mem_spans (span_mem_of_mem_edits he)
    exact decide_eq_true (by omega)
  have hright : (edits (pos + size (weave old [] ps)) qs).filter
      (fun e => decide (e.span.stop ≤ offset)) = [] := by
    refine List.filter_eq_nil_iff.2 fun e he => ?_
    have := hqs e he
    simp only [decide_eq_true_eq]
    omega
  rw [List.filter_append, hleft, hright, List.append_nil] at hfilter
  rw [Script.shift, gain_perm hfilter, gain_edits]

/-- Among edits at disjoint sites, the one at a given site is the one its piece asks for. -/
theorem find?_edits {es : List Edit} (ho : ∀ q ∈ ps ++ p :: qs, q.old ≠ [])
    (hp : es.Perm (edits pos (ps ++ p :: qs))) (hs : span =
      ⟨pos + size (weave old [] ps) + size p.gap,
        pos + size (weave old [] ps) + size p.gap + size p.old⟩) :
    es.find? (·.span == span) = p.new.map fun text => ⟨span, text⟩ := by
  have hmem : ∀ e, e ∈ es ↔ e ∈ edits pos (ps ++ p :: qs) := fun e => hp.mem_iff
  have hsplit : edits pos (ps ++ p :: qs) = edits pos ps ++
      ((p.new.map fun text => (⟨span, text⟩ : Edit)).toList ++ edits span.stop qs) := by
    rw [edits_append, hs]
    rfl
  have hne : span.start < span.stop := by
    have := Text.size_pos (ho p (by simp))
    rw [hs]
    exact Nat.lt_add_of_pos_right this
  -- No edit of another piece has this span: it ends before the site or starts after it.
  have honly : ∀ e ∈ es, e.span = span → p.new.map (fun text => ⟨span, text⟩) = some e := by
    intro e he hes
    rw [hmem, hsplit] at he
    simp only [List.mem_append, Option.mem_toList] at he
    rcases he with he | he | he
    · have := stop_le_of_mem_spans (span_mem_of_mem_edits he)
      rw [hes, hs] at this
      rw [hs] at hne
      simp only at this hne
      omega
    · exact he
    · have := (le_start_of_mem_spans (span_mem_of_mem_edits he)).1
      rw [hes] at this
      omega
  cases hf : es.find? (·.span == span) with
  | some e =>
    have hspan : e.span = span := by simpa using List.find?_some hf
    exact (honly e (List.mem_of_find?_eq_some hf) hspan).symm
  | none =>
    cases hn : p.new with
    | none => rfl
    | some text =>
      have he : (⟨span, text⟩ : Edit) ∈ es := by simp [hmem, hsplit, hn]
      simpa using List.find?_eq_none.1 hf _ he

/-- A site is found again behind what the pieces before it have become. -/
theorem remap_edits {es : List Edit} (ho : ∀ q ∈ ps ++ p :: qs, q.old ≠ [])
    (hp : es.Perm (edits 0 (ps ++ p :: qs))) :
    Script.remap es ⟨size (weave old [] ps) + size p.gap,
        size (weave old [] ps) + size p.gap + size p.old⟩ =
      ⟨size (weave written [] ps) + size p.gap,
        size (weave written [] ps) + size p.gap + size p.written⟩ := by
  have hold := Text.size_pos (ho p (by simp))
  have hfind := find?_edits ho hp (by rw [Nat.zero_add])
  have hafter : ∀ e ∈ edits (0 + size (weave old [] ps)) (p :: qs),
      size (weave old [] ps) + size p.gap < e.span.stop := by
    intro e he
    have hspan := span_mem_of_mem_edits he
    have hlt := lt_of_mem_spans (fun q hq => ho q (List.mem_append_right _ hq)) hspan
    rcases List.mem_cons.1 hspan with h | h
    · rw [h]
      simp only
      omega
    · have := (le_start_of_mem_spans h).1
      omega
  have hstart : Script.shifted es (size (weave old [] ps) + size p.gap) =
      size (weave written [] ps) + size p.gap := by
    have hshift := shift_edits (size (weave old [] ps) + size p.gap) hp (by omega) hafter
    rw [Script.shifted, hshift]
    omega
  cases hn : p.new with
  | some text => simp [Script.remap, hfind, hn, hstart, written]
  | none =>
    -- Nothing is written at this site, so its end moves as its start does.
    have hstop : Script.shifted es (size (weave old [] ps) + size p.gap + size p.old) =
        size (weave written [] ps) + size p.gap + size p.old := by
      have hp' : es.Perm (edits 0 ((ps ++ [p]) ++ qs)) := by simpa using hp
      have hshift := shift_edits (size (weave old [] ps) + size p.gap + size p.old) hp'
        (by rw [size_weave_concat]; omega) ?_
      · rw [Script.shifted, hshift, size_weave_concat, size_weave_concat]
        simp only [written, hn, Option.getD_none]
        omega
      · intro e he
        have hspan := span_mem_of_mem_edits he
        have hlt := lt_of_mem_spans (fun q hq => ho q (by simp [hq])) hspan
        have := (le_start_of_mem_spans hspan).1
        rw [size_weave_concat] at this
        omega
    simp [Script.remap, hfind, hn, hstart, hstop, written]

/-- Every site is found again, with what is written there or what stood there before. -/
theorem map_remap_spans {es : List Edit} (ho : ∀ q ∈ ps, q.old ≠ [])
    (hp : es.Perm (edits 0 ps)) :
    (spans old 0 ps).map (Script.remap es) = spans written 0 ps := by
  suffices h : ∀ rs qs, ps = rs ++ qs →
      (spans old (size (weave old [] rs)) qs).map (Script.remap es) =
        spans written (size (weave written [] rs)) qs by
    exact h [] ps rfl
  intro rs qs
  induction qs generalizing rs with
  | nil => intro _; rfl
  | cons p qs ih =>
    rintro rfl
    have hrest := ih (rs ++ [p]) (by simp)
    rw [size_weave_concat, size_weave_concat] at hrest
    simp only [spans, List.map_cons, hrest, remap_edits ho hp]

theorem edits_eq_filterMap (new : Span → Option Text)
    (h : ps.map Piece.new = (spans old pos ps).map new) :
    edits pos ps = (spans old pos ps).filterMap fun s => (new s).map fun text => ⟨s, text⟩ := by
  induction ps generalizing pos with
  | nil => rfl
  | cons p ps ih =>
    simp only [spans, List.map_cons, List.cons.injEq] at h
    simp only [edits, spans, ih h.2, List.filterMap_cons, ← h.1]
    cases p.new <;> rfl

theorem exists_of_mem_spans (h : span ∈ spans pick pos ps) : ∃ rs p qs, ps = rs ++ p :: qs ∧
    span = ⟨pos + size (weave pick [] rs) + size p.gap,
      pos + size (weave pick [] rs) + size p.gap + size (pick p)⟩ := by
  induction ps generalizing pos with
  | nil => simp [spans] at h
  | cons p ps ih =>
    rcases List.mem_cons.1 h with rfl | h
    · exact ⟨[], p, ps, rfl, rfl⟩
    · obtain ⟨rs, q, qs, rfl, hspan⟩ := ih h
      refine ⟨p :: rs, q, qs, rfl, ?_⟩
      simpa [weave, Nat.add_assoc] using hspan

/-- Where nothing is edited, nothing changes. -/
theorem weave_written_eq (h : edits pos ps = []) : weave written tail ps = weave old tail ps := by
  induction ps generalizing pos with
  | nil => rfl
  | cons p ps ih =>
    simp only [edits, List.append_eq_nil_iff, Option.toList_eq_nil_iff, Option.map_eq_none_iff] at h
    simp [weave, written, h.1, ih h.2]

/-- A text in which something stands at every one of a row of spans is made of pieces. -/
theorem exists_pieces (before rest : Text) (new : Span → Option Text) (sites : List Span)
    (hsorted : sites.Pairwise fun a b => a.stop ≤ b.start)
    (hs : ∀ s ∈ sites, size before ≤ s.start ∧ ∃ m, Stands (before ++ rest) s m) :
    ∃ ps tail, rest = weave old tail ps ∧ spans old (size before) ps = sites ∧
      ps.map Piece.new = sites.map new := by
  induction sites generalizing before rest with
  | nil => exact ⟨[], rest, rfl, rfl, rfl⟩
  | cons s sites ih =>
    obtain ⟨hlater, hsorted⟩ := List.pairwise_cons.1 hsorted
    obtain ⟨hstart, m, a, c, hwhole, hspan⟩ := hs s List.mem_cons_self
    -- What comes before the site begins with what is already cut off.
    obtain ⟨gap, rfl⟩ : ∃ gap, a = before ++ gap := by
      have hle : size before ≤ size a := by simpa [hspan] using hstart
      refine ⟨Text.takeBytes (size a - size before) rest, ?_⟩
      have hcut := congrArg (Text.takeBytes (size a)) hwhole
      have hsum : size a = size before + (size a - size before) := by omega
      rw [List.append_assoc, Text.takeBytes_size_append, hsum, Text.takeBytes_size_add] at hcut
      exact hcut.symm
    have hrest : rest = gap ++ m ++ c := by simpa using hwhole
    subst hrest
    have hstop : s.stop = size (before ++ gap ++ m) := by simp [hspan, Nat.add_assoc]
    obtain ⟨ps, tail, hc, hspans, hnew⟩ := ih (before ++ gap ++ m) c
      hsorted (fun b hb => ⟨by rw [← hstop]; exact hlater b hb, by
        simpa using (hs b (List.mem_cons_of_mem _ hb)).2⟩)
    refine ⟨⟨gap, m, new s⟩ :: ps, tail, ?_, ?_, ?_⟩
    · rw [weave, ← hc]
    · simp only [spans, hspan, Text.size_append] at hspans ⊢
      rw [hspans]
    · simp only [List.map_cons, hnew]

/-- One more edit, at a site before which there is none. -/
theorem applyAll_before {source x : Text} {es : List Edit}
    (hold : ∀ q ∈ ps ++ p :: qs, q.old ≠ []) (hs : source = weave old tail (ps ++ p :: qs))
    (hps : edits 0 ps = []) (hp : p.new = none)
    (hspan : e.span = ⟨0 + size (weave old [] ps) + size p.gap,
      0 + size (weave old [] ps) + size p.gap + size p.old⟩)
    (hperm : es.Perm (edits 0 (ps ++ p :: qs))) (hx : Edit.applyAll source es = .ok x) :
    Edit.applyAll x [e] = Edit.applyAll source (e :: es) ∧ Stands x e.span p.old := by
  have hxe : x = weave old [] ps ++ p.gap ++ p.old ++ weave written tail qs := by
    rw [applyAll_eq hs hold hperm] at hx
    cases hx
    rw [weave_append, weave_written_eq hps, weave_eq_append ps]
    simp [weave, written, hp]
  have hone : [e].Perm (edits 0 [⟨weave old [] ps ++ p.gap, p.old, some e.text⟩]) := by
    simp only [edits, Option.map_some, Option.toList_some, List.append_nil, Text.size_append,
      ← Nat.add_assoc, ← hspan]
    exact List.Perm.refl _
  have hall : (e :: es).Perm (edits 0 (ps ++ ⟨p.gap, p.old, some e.text⟩ :: qs)) := by
    rw [edits_append, hps] at hperm ⊢
    simp only [edits, hp, Option.map_none, Option.toList_none, List.nil_append, Option.map_some,
      Option.toList_some, List.singleton_append, ← hspan] at hperm ⊢
    exact hperm.cons e
  have hx' : x = weave old (weave written tail qs) [⟨weave old [] ps ++ p.gap, p.old, some e.text⟩] := by
    simpa [weave] using hxe
  have hs' : source = weave old tail (ps ++ ⟨p.gap, p.old, some e.text⟩ :: qs) := by
    rw [hs, weave_append, weave_append]
    rfl
  have hold' : ∀ q ∈ ps ++ ⟨p.gap, p.old, some e.text⟩ :: qs, q.old ≠ [] := by
    intro q hq
    rcases List.mem_append.1 hq with hq | hq
    · exact hold q (List.mem_append_left _ hq)
    · rcases List.mem_cons.1 hq with rfl | hq
      · exact hold p (List.mem_append_right _ List.mem_cons_self)
      · exact hold q (List.mem_append_right _ (List.mem_cons_of_mem _ hq))
  constructor
  · rw [applyAll_eq hs' hold' hall, applyAll_eq hx' (by simpa using hold p (by simp)) hone,
      weave_append, weave_written_eq hps]
    simp only [weave, written, Option.getD_some, List.append_assoc]
    rw [← weave_eq_append ps]
  · have hstands := Text.stands_append (weave old [] ps ++ p.gap) p.old (weave written tail qs)
    rw [← hxe] at hstands
    rw [hspan]
    simpa using hstands

end Piece

/-- Two spans without a common byte. -/
def Span.Apart (a b : Span) : Prop := a.stop ≤ b.start ∨ b.stop ≤ a.start

theorem Span.Apart.symm {a b : Span} (h : a.Apart b) : b.Apart a := Or.symm h

theorem Span.Apart.ne {a b : Span} (h : a.Apart b) (hlt : a.start < a.stop) : a ≠ b := by
  rintro rfl
  rcases h with h | h <;> omega

namespace Edit

open Piece

variable {source : Text} {sites : List Span} {es : List Edit}

theorem applyAll_nil (source : Text) : applyAll source [] = .ok source := by
  simp [applyAll, inOrder, overlap?, splice, Text.dropBytes_zero]

/-- Spans that are apart, by where they start. -/
theorem exists_row (hapart : sites.Pairwise Span.Apart) (hlt : ∀ s ∈ sites, s.start < s.stop) :
    ∃ row : List Span, row.Perm sites ∧ row.Pairwise fun a b => a.stop ≤ b.start := by
  let le (a b : Span) : Bool := a.start ≤ b.start
  refine ⟨sites.mergeSort le, List.mergeSort_perm _ _, ?_⟩
  have hperm := List.mergeSort_perm sites le
  have hle : (sites.mergeSort le).Pairwise fun a b => le a b = true :=
    List.pairwise_mergeSort (fun a b c hab hbc => by simp only [le, decide_eq_true_eq] at *; omega)
      (fun a b => by simp only [le, Bool.or_eq_true, decide_eq_true_eq]; omega) sites
  have hap := (hperm.pairwise_iff fun h => Span.Apart.symm h).2 hapart
  refine List.Pairwise.imp_of_mem ?_ (hap.and hle)
  intro a b ha hb hab
  have := hlt a (hperm.subset ha)
  have := hlt b (hperm.subset hb)
  simp only [le, decide_eq_true_eq] at hab
  rcases hab.1 with h | h <;> omega

/-- The edit at a span, where no two edits have the same span. -/
theorem find?_span_eq {e : Edit} (hone : es.Pairwise fun a b => a.span ≠ b.span) (he : e ∈ es) :
    es.find? (·.span == e.span) = some e := by
  induction es with
  | nil => simp at he
  | cons f es ih =>
    obtain ⟨hf, hone⟩ := List.pairwise_cons.1 hone
    rcases List.mem_cons.1 he with rfl | he'
    · simp
    · simp [hf e he', ih hone he']

/-- Edits at different sites are apart. -/
theorem pairwise_apart (hapart : sites.Pairwise Span.Apart) (hes : ∀ e ∈ es, e.span ∈ sites)
    (hone : es.Pairwise fun a b => a.span ≠ b.span) : (es.map (·.span)).Pairwise Span.Apart := by
  have hsymm : Std.Symm Span.Apart := ⟨fun _ _ h => h.symm⟩
  rw [List.pairwise_map]
  exact hone.imp_of_mem fun {a b} ha hb hab => hapart.forall (hes a ha) (hes b hb) hab

theorem pairwise_span_ne (hapart : (es.map (·.span)).Pairwise Span.Apart)
    (hlt : ∀ e ∈ es, e.span.start < e.span.stop) : es.Pairwise fun a b => a.span ≠ b.span :=
  (List.pairwise_map.1 hapart).imp_of_mem fun {a _} ha _ hab => hab.ne (hlt a ha)

/-- The pieces of a text at sites that are apart, with what edits write there. -/
theorem exists_pieces_of_edits (hapart : sites.Pairwise Span.Apart)
    (hs : ∀ s ∈ sites, s.start < s.stop ∧ ∃ m, Stands source s m) (hes : ∀ e ∈ es, e.span ∈ sites)
    (hone : es.Pairwise fun a b => a.span ≠ b.span) :
    ∃ ps tail, source = weave old tail ps ∧ (∀ p ∈ ps, p.old ≠ []) ∧
      (spans old 0 ps).Perm sites ∧ es.Perm (edits 0 ps) ∧
      ps.map Piece.new = (spans old 0 ps).map fun s =>
        (es.find? (·.span == s)).map (·.text) := by
  obtain ⟨row, hrow, hsorted⟩ := exists_row hapart fun s h => (hs s h).1
  obtain ⟨ps, tail, hsource, hspans, hnew⟩ := exists_pieces [] source
    (fun s => (es.find? (·.span == s)).map (·.text)) row hsorted
    (fun s h => ⟨Nat.zero_le _, (hs s (hrow.subset h)).2⟩)
  have hspans : spans old 0 ps = row := hspans
  have hold : ∀ p ∈ ps, p.old ≠ [] := by
    have hlt : ∀ s ∈ spans old 0 ps, s.start < s.stop := by
      intro s h
      rw [hspans] at h
      exact (hs s (hrow.subset h)).1
    exact pick_ne_nil hlt
  have hmem : ∀ e, e ∈ edits 0 ps ↔ e ∈ es := by
    intro e
    rw [edits_eq_filterMap _ (hnew.trans (by rw [hspans])), hspans]
    simp only [List.mem_filterMap, Option.map_map, Option.map_eq_some_iff, Function.comp]
    constructor
    · rintro ⟨s, _, f, hf, rfl⟩
      have hspan : f.span = s := by simpa using List.find?_some hf
      rw [← hspan]
      exact List.mem_of_find?_eq_some hf
    · intro he
      exact ⟨e.span, hrow.symm.subset (hes e he), e, find?_span_eq hone he, rfl⟩
  have hnodup : (edits 0 ps).Nodup := by
    refine List.Pairwise.imp_of_mem ?_ (pairwise_edits ps 0)
    rintro a b ha - hab rfl
    have := lt_of_mem_spans hold (span_mem_of_mem_edits ha)
    omega
  have hnodup' : es.Nodup := hone.imp fun h he => h (congrArg Edit.span he)
  refine ⟨ps, tail, hsource, hold, hspans ▸ hrow, ?_, hspans ▸ hnew⟩
  exact (List.perm_ext_iff_of_nodup hnodup' hnodup).2 fun e => (hmem e).symm

/-- What stands at a span after edits of which one may replace exactly this span. -/
def textAfter (es : List Edit) (span : Span) (m : Text) : Text :=
  ((es.find? (·.span == span)).map (·.text)).getD m

/-- Edits at sites that are apart can be made; afterwards the sites, written or not, are apart, and
at each stands what was written there or else what stood there before. -/
theorem exists_applyAll (hapart : sites.Pairwise Span.Apart)
    (hs : ∀ s ∈ sites, s.start < s.stop ∧ ∃ m, Stands source s m) (hes : ∀ e ∈ es, e.span ∈ sites)
    (hone : es.Pairwise fun a b => a.span ≠ b.span) :
    ∃ after, applyAll source es = .ok after ∧
      (sites.map (Script.remap es)).Pairwise Span.Apart ∧
      (∀ s ∈ sites, ∀ m, Stands source s m →
        Stands after (Script.remap es s) (textAfter es s m)) ∧
      (size after : Int) = size source + gain es := by
  obtain ⟨ps, tail, hsource, hold, hspans, hperm, hnew⟩ :=
    exists_pieces_of_edits hapart hs hes hone
  have hremap := map_remap_spans hold hperm
  refine ⟨weave written tail ps, applyAll_eq hsource hold hperm, ?_, ?_, ?_⟩
  · have hrow : ((spans old 0 ps).map (Script.remap es)).Pairwise Span.Apart := by
      rw [hremap]
      exact (pairwise_spans ps 0).imp Or.inl
    exact ((hspans.map _).pairwise_iff fun h => Span.Apart.symm h).1 hrow
  · intro s hmem m hm
    obtain ⟨k, hk, rfl⟩ := List.mem_iff_getElem.1 (hspans.symm.subset hmem)
    have hbefore := (List.forall₂_iff_get.1 (stands_weave old [] ps tail)).2
    have hafter := stands_weave written [] ps tail
    rw [show size ([] : Text) = 0 from rfl, ← hremap] at hafter
    have hlen : k < ps.length := by
      have := congrArg List.length hnew
      simp only [List.length_map] at this
      omega
    have hat := (List.forall₂_iff_get.1 hafter).2 k hlen (by simpa using hk)
    have hwas := hbefore k hlen (by simpa [size] using hk)
    have hk' : (ps.map Piece.new)[k]? = ((spans old 0 ps).map fun s =>
        (es.find? (·.span == s)).map (·.text))[k]? := by rw [hnew]
    simp only [List.getElem?_map, List.getElem?_eq_getElem hlen, List.getElem?_eq_getElem hk,
      Option.map_some, Option.some.injEq] at hk'
    have heq : (ps[k]).old = m := by
      have hwas : Stands source (spans old 0 ps)[k] (ps[k]).old := by
        rw [hsource]
        exact hwas
      exact hwas.unique hm
    have htext : textAfter es (spans old 0 ps)[k] m = (ps[k]).written := by
      rw [textAfter, written, hk', heq]
    rw [htext]
    simpa using hat
  · rw [gain_perm hperm, gain_edits, hsource, @size_weave written tail, @size_weave old tail]
    push_cast
    omega

/-- The order in which edits are given does not matter. -/
theorem applyAll_perm (hapart : sites.Pairwise Span.Apart)
    (hs : ∀ s ∈ sites, s.start < s.stop ∧ ∃ m, Stands source s m) (hes : ∀ e ∈ es, e.span ∈ sites)
    (hone : es.Pairwise fun a b => a.span ≠ b.span) {es' : List Edit} (hp : es'.Perm es) :
    applyAll source es' = applyAll source es := by
  obtain ⟨ps, tail, hsource, hold, -, hperm, -⟩ := exists_pieces_of_edits hapart hs hes hone
  rw [applyAll_eq hsource hold hperm, applyAll_eq hsource hold (hp.trans hperm)]

/-- An edit before all others may be made after them. -/
theorem applyAll_cons {e : Edit} {x m : Text} (hapart : sites.Pairwise Span.Apart)
    (hs : ∀ s ∈ sites, s.start < s.stop ∧ ∃ m, Stands source s m) (he : e.span ∈ sites)
    (hm : Stands source e.span m) (hes : ∀ f ∈ es, f.span ∈ sites)
    (hone : es.Pairwise fun a b => a.span ≠ b.span)
    (hbefore : ∀ f ∈ es, e.span.stop ≤ f.span.start) (hx : applyAll source es = .ok x) :
    applyAll x [e] = applyAll source (e :: es) ∧ Stands x e.span m := by
  obtain ⟨ps, tail, hsource, hold, hspans, hperm, -⟩ := exists_pieces_of_edits hapart hs hes hone
  obtain ⟨rs, p, qs, rfl, hspan⟩ := exists_of_mem_spans (hspans.symm.subset he)
  have hlt := (hs _ he).1
  have hmem {f : Edit} (hf : f ∈ edits 0 rs ++ edits (0 + size (weave old [] rs)) (p :: qs)) :
      e.span.stop ≤ f.span.start := by
    rw [← edits_append] at hf
    exact hbefore f (hperm.symm.subset hf)
  rw [hspan] at hmem hlt
  simp only at hmem hlt
  -- Nothing is edited before the site of `e`, nor there.
  have hrs : edits 0 rs = [] := by
    refine List.eq_nil_iff_forall_not_mem.2 fun f hf => ?_
    have hle := hmem (List.mem_append_left _ hf)
    have hin := span_mem_of_mem_edits hf
    have hstop := stop_le_of_mem_spans hin
    have hstart := (le_start_of_mem_spans hin).2
    omega
  have hp : p.new = none := by
    cases hn : p.new with
    | none => rfl
    | some text =>
      have hle := hmem (List.mem_append_right _ (show (⟨_, text⟩ : Edit) ∈ edits _ (p :: qs) by
        simp only [edits, hn, Option.map_some, Option.toList_some, List.singleton_append]
        exact List.mem_cons_self))
      simp only at hle
      omega
  obtain ⟨happly, hstands⟩ := applyAll_before hold hsource hrs hp hspan hperm hx
  have hpm : p.old = m := by
    have hwas := Text.stands_append (weave old [] rs ++ p.gap) p.old (weave old tail qs)
    have htext : weave old [] rs ++ p.gap ++ p.old ++ weave old tail qs = source := by
      rw [hsource, weave_append, weave]
      simp only [List.append_assoc]
      rw [← weave_eq_append rs]
    rw [htext] at hwas
    refine Text.Stands.unique ?_ hm
    rw [hspan]
    simpa using hwas
  exact ⟨happly, hpm ▸ hstands⟩

end Edit

end Phrasebook
