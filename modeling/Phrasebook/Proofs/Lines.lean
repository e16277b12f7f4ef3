import Mathlib.Data.List.TakeWhile
import Phrasebook.Proofs.Lookahead

/-!
The lines of a text.

A text that ends with a line keeps its lines whatever is put behind it
(`Text.linesWithBreaks_append`), and so does what is cut off it at a line feed
(`Text.cutWhile_append`). `Text.lead` is how far the first line with code is indented.
-/
namespace Phrasebook

namespace Text

open Lexeme (isGap)

variable {f : Char → Bool} {t u tail : Text}

/-- What is cut off a text that has the place to cut at is cut off every longer one. -/
theorem cutWhile_append (h : ∃ c ∈ t, f c = false) (tail : Text) :
    (t ++ tail).takeWhile f = t.takeWhile f ∧
      (t ++ tail).dropWhile f = t.dropWhile f ++ tail ∧ t.dropWhile f ≠ [] := by
  induction t with
  | nil =>
    obtain ⟨c, hc, -⟩ := h
    cases hc
  | cons a t ih =>
    by_cases ha : f a = true
    · have htail : ∃ c ∈ t, f c = false := by
        obtain ⟨c, hc, hfc⟩ := h
        rcases List.mem_cons.1 hc with rfl | hc
        · rw [ha] at hfc
          cases hfc
        · exact ⟨c, hc, hfc⟩
      simp [ha, ih htail]
    · simp [ha]

/-- The text ends with a line feed. -/
def EndsLine (t : Text) : Prop := t.getLast? = some '\n'

theorem EndsLine.mem (h : EndsLine t) : '\n' ∈ t := List.mem_of_getLast? h

theorem EndsLine.of_suffix (h : EndsLine t) (hu : u <:+ t) (hne : u ≠ []) : EndsLine u := by
  obtain ⟨v, rfl⟩ := hu
  rwa [EndsLine, List.getLast?_append_of_ne_nil _ hne] at h

theorem EndsLine.append (h : EndsLine t) (u : Text) : EndsLine (u ++ t) := by
  rw [EndsLine, List.getLast?_append, h, Option.some_or]

theorem akin_append (h : '\n' ∈ t) (tail : Text) : Akin (t ++ tail) t := by
  induction t with
  | nil => cases h
  | cons c t ih =>
    by_cases hc : c = '\n'
    · subst hc
      exact .stop rfl _ _
    · exact .cons c (ih ((List.mem_cons.1 h).resolve_left fun he => hc he.symm))

/-- Whether the first line of a text has more than blanks and a comment. -/
def hasCode (t : Text) : Bool := (t.dropWhile isGap).head?.any fun c => c != '\n' && c != '#'

/-- The width of the indentation of the first line that has code. -/
def lead (t : Text) : Nat :=
  match t.linesWithBreaks.find? hasCode with
  | some line => Scanner.width (line.takeWhile isGap)
  | none => 0

theorem linesWithBreaks_line (hu : '\n' ∉ u) (t : Text) :
    linesWithBreaks (u ++ '\n' :: t) = (u ++ ['\n']) :: linesWithBreaks t := by
  induction u with
  | nil => rfl
  | cons c u ih =>
    obtain ⟨hc, hu⟩ := not_or.1 (List.mem_cons.not.1 hu)
    rw [List.cons_append, linesWithBreaks, if_neg fun he => hc he.symm, ih hu]
    rfl

theorem linesWithBreaks_last (hu : '\n' ∉ u) (hne : u ≠ []) : linesWithBreaks u = [u] := by
  induction u with
  | nil => exact absurd rfl hne
  | cons c u ih =>
    obtain ⟨hc, hu⟩ := not_or.1 (List.mem_cons.not.1 hu)
    rw [linesWithBreaks, if_neg fun he => hc he.symm]
    cases u with
    | nil => rfl
    | cons d u => rw [ih hu (List.cons_ne_nil d u)]

/-- A text is a line and what follows, or a last line without a line feed. -/
theorem line_or_last (t : Text) : '\n' ∉ t ∨ ∃ u r, '\n' ∉ u ∧ t = u ++ '\n' :: r := by
  by_cases h : '\n' ∈ t
  · obtain ⟨u, r, ht, hu⟩ := List.eq_append_cons_of_mem h
    exact .inr ⟨u, r, hu, ht⟩
  · exact .inl h

/-- A text begins with its first line, and its other lines are those of the rest. -/
theorem exists_line (h : t ≠ []) : ∃ line r, t = line ++ r ∧ line ≠ [] ∧
    t.linesWithBreaks = line :: r.linesWithBreaks ∧ (line.EndsLine ∨ r = []) := by
  rcases line_or_last t with hno | ⟨u, r, hu, rfl⟩
  · exact ⟨t, [], by simp, h, by rw [linesWithBreaks_last hno h]; rfl, .inr rfl⟩
  · exact ⟨u ++ ['\n'], r, by simp, by simp, linesWithBreaks_line hu r, .inl (by simp [EndsLine])⟩

/-- The lines of a text that ends with a line are followed by those of the text after it. -/
theorem linesWithBreaks_append (ht : t = [] ∨ t.EndsLine) (tail : Text) :
    linesWithBreaks (t ++ tail) = linesWithBreaks t ++ linesWithBreaks tail := by
  induction hlen : t.length using Nat.strong_induction_on generalizing t with
  | _ n ih =>
    subst hlen
    rcases line_or_last t with hno | ⟨u, r, hu, rfl⟩
    · rcases ht with rfl | ht
      · rfl
      · exact absurd ht.mem hno
    · have hr : r = [] ∨ EndsLine r := by
        by_cases hr : r = []
        · exact .inl hr
        · refine .inr ((ht.resolve_left (by simp)).of_suffix ?_ hr)
          exact (List.suffix_cons _ r).trans (List.suffix_append u _)
      have hlt : r.length < (u ++ '\n' :: r).length := by simp; omega
      rw [List.append_assoc, List.cons_append, linesWithBreaks_line hu, linesWithBreaks_line hu,
        ih _ hlt hr rfl]
      rfl

/-- The first line with code is the first line, or the first such after it. -/
theorem lead_eq (t : Text) : lead t =
    if hasCode t then Scanner.width (t.takeWhile isGap)
    else lead (t.dropWhile (· != '\n')).tail := by
  rcases line_or_last t with hno | ⟨u, r, hu, rfl⟩
  · have hdrop : t.dropWhile (· != '\n') = [] := by
      rw [List.dropWhile_eq_nil_iff]
      intro c hc
      rw [bne_iff_ne]
      rintro rfl
      exact hno hc
    rw [hdrop]
    by_cases ht : t = []
    · subst ht
      rfl
    · rw [lead, linesWithBreaks_last hno ht, List.find?_cons]
      cases hasCode t <;> rfl
  · have hdrop : (u ++ '\n' :: r).dropWhile (· != '\n') = '\n' :: r := by
      rw [List.dropWhile_append_of_pos]
      · rfl
      · intro c hc
        rw [bne_iff_ne]
        rintro rfl
        exact hu hc
    obtain ⟨htake, hcut, hne⟩ :=
      cutWhile_append (t := u ++ ['\n']) (f := isGap) ⟨'\n', by simp, rfl⟩ r
    rw [List.append_assoc, List.singleton_append] at htake hcut
    have hcode : hasCode (u ++ '\n' :: r) = hasCode (u ++ ['\n']) := by
      rw [hasCode, hasCode, hcut, List.head?_append_of_ne_nil _ hne]
    rw [lead, linesWithBreaks_line hu, List.find?_cons, hdrop, hcode, htake, List.tail_cons]
    cases hasCode (u ++ ['\n']) <;> rfl

theorem lead_tail (h : ∀ c ∈ t.head?, c = '\n') : lead t = lead t.tail := by
  cases t with
  | nil => rfl
  | cons c r =>
    cases h c rfl
    rw [lead_eq]
    rfl

theorem lead_append (ht : t = [] ∨ t.EndsLine) (h : lead (t ++ tail) = 0) : lead t = 0 := by
  rw [lead, linesWithBreaks_append ht, List.find?_append] at h
  rw [lead]
  cases hfind : t.linesWithBreaks.find? hasCode with
  | none => rfl
  | some line =>
    rw [hfind] at h
    exact h

end Text

end Phrasebook
