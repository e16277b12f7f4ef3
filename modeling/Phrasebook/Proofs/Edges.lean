import Mathlib.Data.Set.Defs
import Phrasebook.Proofs.Stream

/-!
Where lexemes begin and end.

A scan marks only places that it has come to. What holds of every place that a sound scan of a range
comes to, such as being the boundary of a character inside the range, holds of both ends of every
lexeme.
-/
namespace Phrasebook

open Text (size isBoundary)

namespace Scanner

open Lexeme

variable {source after : Text} {start : Nat} {s t : Scanner} {beyond : Option Char}
  {P : Nat → Prop}

/-- The lexemes so far begin and end at places of a given sort, and the scan has come to one. -/
structure Edged (P : Nat → Prop) (s : Scanner) : Prop where
  here : P s.pos
  ends : ∀ l ∈ s.out, P l.span.start ∧ P l.span.stop

theorem Edged.congr (h : Edged P s) (hpos : t.pos = s.pos) (hout : t.out = s.out) : Edged P t :=
  ⟨hpos ▸ h.here, hout ▸ h.ends⟩

theorem Edged.push {l : Lexeme} (h : Edged P s) (hl : P l.span.start ∧ P l.span.stop) :
    Edged P { s with out := l :: s.out } :=
  ⟨h.here, List.forall_mem_cons.2 ⟨hl, h.ends⟩⟩

theorem Edged.newline {n : Nat} (h : Edged P s) (hn : P n) : Edged P (s.newline n) := by
  unfold Scanner.newline
  split
  · exact h.push ⟨hn, hn⟩
  · exact h

theorem Edged.dedents (h : Edged P s) (count : Nat) :
    Edged P { s with out := List.replicate count ⟨.dedent, ⟨s.pos, s.pos⟩, []⟩ ++ s.out } := by
  refine ⟨h.here, List.forall_mem_append.2 ⟨fun l hl => ?_, h.ends⟩⟩
  rw [List.eq_of_mem_replicate hl]
  exact ⟨h.here, h.here⟩

theorem Edged.settle {w : Nat} {gap : Text} (h : Edged P s) (hgap : P (s.pos - size gap)) :
    Edged P (s.settle w gap) := by
  unfold Scanner.settle
  split
  · exact h.congr rfl rfl
  · have hd := h.dedents (s.indents.length - (unwind w s.indents).length)
    simp only
    split
    · exact (hd.push (l := ⟨.indent, ⟨s.pos - size gap, s.pos⟩, gap⟩) ⟨hgap, h.here⟩).congr rfl rfl
    · exact hd.congr rfl rfl

section

variable (hP : ∀ {s}, Sound source after start s → P s.pos)

include hP

theorem Edged.pass (h : Edged P s) (hs : Sound source after start s) {gap rest : Text}
    (hr : s.rest = gap ++ rest) : Edged P (s.pass gap rest) :=
  ⟨hP (hs.pass hr), h.ends⟩

theorem Edged.indentation (h : Edged P s) (hs : Sound source after start s) :
    Edged P s.indentation := by
  have hp := h.pass hP hs (List.takeWhile_append_dropWhile (p := isGap)).symm
  unfold Scanner.indentation
  simp only
  split
  · exact hp
  · split
    · exact hp
    · refine hp.settle ?_
      simpa [Scanner.pass] using h.here

theorem Edged.lexeme (h : Edged P s) (hs : Sound source after start s)
    (ht : s.lexeme beyond = .ok t) : Edged P t := by
  simp only [Scanner.lexeme] at ht
  split at ht
  · cases ht
  · next kind text rest hr =>
    cases ht
    have hp := h.pass hP hs (eq_append_of_read hr).1
    exact (hp.push (l := ⟨kind, ⟨s.pos, s.pos + size text⟩, text⟩) ⟨h.here, hp.here⟩).congr rfl rfl

theorem Edged.token (h : Edged P s) (hs : Sound source after start s)
    (ht : s.token beyond = .ok t) : Edged P t := by
  unfold Scanner.token at ht
  split at ht
  · cases ht
    exact h
  · next c r hr =>
    have hp := h.pass hP hs (show s.rest = [c] ++ r from hr)
    split at ht
    · cases ht
      exact hp
    · split at ht
      · cases ht
        split
        · exact (hp.newline h.here).congr rfl rfl
        · exact hp
      · split at ht
        · cases ht
          exact h.pass hP hs (List.takeWhile_append_dropWhile ..).symm
        · split at ht
          · next gap rest hc =>
            cases ht
            exact h.pass hP hs (append_of_continuation? hc)
          · exact h.lexeme hP hs ht

theorem Edged.step (h : Edged P s) (hs : Sound source after start s)
    (ht : s.step beyond = .ok t) : Edged P t := by
  unfold Scanner.step at ht
  split at ht
  · exact (h.indentation hP hs).token hP hs.indentation ht
  · exact h.token hP hs ht

theorem Edged.run (h : Edged P s) (hs : Sound source after start s)
    (ht : s.run beyond = .ok t) : Edged P t := by
  fun_induction Scanner.run beyond s with
  | case1 s hs =>
    cases ht
    exact h
  | case2 => cases ht
  | case3 s _ u hu ih => exact ih (h.step hP hs hu) (hs.step hu) ht

end

theorem Edged.finish (h : Edged P s) : ∀ l ∈ s.finish s.pos, P l.span.start ∧ P l.span.stop := by
  have hn := h.newline h.here
  unfold Scanner.finish
  simp only [List.mem_append, List.mem_reverse, List.mem_singleton]
  rintro l ((hl | hl) | rfl)
  · exact hn.ends l hl
  · rw [List.eq_of_mem_replicate hl]
    exact ⟨h.here, h.here⟩
  · exact ⟨h.here, h.here⟩

end Scanner

namespace Text

/-- The places between the characters of a range, its ends included. -/
def places (source : Text) (range : Span) : Set Nat :=
  {x | isBoundary x source = true ∧ range.start ≤ x ∧ x ≤ range.stop}

theorem pos_mem_places {before part after : Text} {s : Scanner}
    (h : s.Sound (before ++ part ++ after) after (size before)) :
    s.pos ∈ places (before ++ part ++ after) ⟨size before, size before + size part⟩ := by
  obtain ⟨done, hdone, hpos⟩ := h.split
  have hsize := congrArg size hdone
  simp only [size_append] at hsize
  have hbound : isBoundary s.pos (before ++ part ++ after) = true :=
    isBoundary_iff.2 ⟨done, s.rest ++ after, by simpa using hdone, hpos.symm⟩
  have hle : s.pos ≤ size before + size part := by omega
  exact ⟨hbound, h.started, hle⟩

/-- The lexemes of a part of a text begin and end between characters of that part. -/
theorem edges_of_lexemes (before part after : Text) {ls : List Lexeme}
    (h : (before ++ part ++ after).lexemes ⟨size before, size before + size part⟩ = .ok ls) :
    ∀ l ∈ ls,
      l.span.start ∈ places (before ++ part ++ after) ⟨size before, size before + size part⟩ ∧
      l.span.stop ∈ places (before ++ part ++ after) ⟨size before, size before + size part⟩ := by
  obtain ⟨s, hs, -, rfl⟩ := (lexemes_eq_ok_iff before part after).1 h
  have hfresh := Scanner.sound_fresh before part after
  have hedged := Scanner.Edged.run pos_mem_places
    ⟨pos_mem_places hfresh, by simp [Scanner.fresh]⟩ hfresh hs
  exact hedged.finish

end Text

end Phrasebook
