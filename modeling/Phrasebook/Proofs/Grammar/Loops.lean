import Phrasebook.Proofs.Grammar.StatementAdvances

/-!
The loops of the grammar stop.

Those that only pass lexemes end by their own recursion; here is where. Those that may be refused on
the way run within a bound, and the number of lexemes left is always enough for them.
-/
namespace Phrasebook

namespace Cursor

open Grammar

variable {c c₁ : Cursor} {fuel : Nat} {ended : Bool}

theorem skipNewlines_stops (c : Cursor) :
    c.skipNewlines.kind ≠ .newline ∧ c.skipNewlines.isOp ";" = false := by
  rcases passWhile_stops (fun l => l.kind == .newline || l.isOp ";") c.lastEnd c.rest with hk | hp
  · have hkind : c.skipNewlines.kind = .eof := hk
    refine ⟨by simp [hkind], Bool.eq_false_iff.2 fun hop => ?_⟩
    cases hkind.symm.trans (kind_of_isOp hop)
  · simpa [kind, isOp, skipNewlines] using hp

theorem skipToStatementEnd_stops (c : Cursor) : c.skipToStatementEnd.atStatementEnd = true := by
  rcases passWhile_stops (fun l => !endsStatement l) c.lastEnd c.rest with hk | hp
  · have hkind : c.skipToStatementEnd.peek.kind = .eof := hk
    simp [atStatementEnd, endsStatement, hkind]
  · simpa [atStatementEnd, skipToStatementEnd] using hp

/-- The lexeme after the next one comes next once that is passed. -/
theorem peek_advance (h : c.kind ≠ .eof) (hnext : c.peekNext ≠ c.peek) :
    c.advance.peek = c.peekNext := by
  obtain ⟨rest, last⟩ := c
  match rest with
  | [] => exact absurd rfl h
  | [l] => exact absurd rfl hnext
  | l :: l' :: r =>
    have hl : l.kind ≠ .eof := h
    simp [advance, hl, peek, peekNext]

/-- Where an annotation may go on after a line end. -/
def goesOnAfterBreak (c : Cursor) : Prop :=
  c.kind = .newline ∧ c.peekNext.kind = .word ∧ annotated.contains c.peekNext.text

/-- A line end is passed only before a word, so there is no second one to pass. -/
theorem skipAnnotationBreaks_stops (c : Cursor) : ¬ c.skipAnnotationBreaks.goesOnAfterBreak := by
  unfold skipAnnotationBreaks
  split
  · next h =>
    obtain ⟨hnewline, hword, -⟩ := h
    have hpeek : c.advance.peek = c.peekNext := by
      refine peek_advance (by simp [hnewline]) fun heq => ?_
      rw [heq] at hword
      cases hnewline.symm.trans hword
    rintro ⟨hk, -⟩
    rw [kind, hpeek, hword] at hk
    cases hk
  · next h => exact h

/-- Annotations are passed until none comes next, or the statement ends with one. -/
theorem annotations_stops (hfuel : c.rest.length ≤ fuel)
    (h : annotations fuel c = .ok (ended, c₁)) :
    if ended then c₁.atStatementEnd = true else c₁.isOp "@" = false := by
  induction fuel generalizing c with
  | zero =>
    cases h
    refine Bool.eq_false_iff.2 fun hop => ?_
    have hpos := length_pos_of_isOp hop
    omega
  | succ fuel ih =>
    simp only [annotations] at h
    split at h
    · next hop =>
      obtain ⟨⟨name, c₂⟩, hname, h⟩ := bind_ok_iff.1 h
      have hlen := length_advance_isOp hop
      have hlen₂ := length_expectWord hname
      have hlen₃ := length_skipOptionalBrackets_le c₂
      have hlen₄ := length_skipAnnotationBreaks_le c₂.skipOptionalBrackets
      simp only at h
      split at h
      · next hend =>
        cases h
        exact hend
      · exact ih (by omega) h
    · next hop =>
      cases h
      simpa using hop

theorem skipModifiers_stops (hfuel : c.rest.length ≤ fuel) :
    isModifier (skipModifiers fuel c).peek = false := by
  induction fuel generalizing c with
  | zero =>
    refine Bool.eq_false_iff.2 fun hm => ?_
    have hlen : c.advance.rest.length < c.rest.length := length_advance_isModifier hm
    omega
  | succ fuel ih =>
    simp only [skipModifiers]
    split
    · next hm =>
      have hlen := length_advance_isModifier hm
      have hlen₂ := length_skipOptionalBrackets_le c.advance
      exact ih (by omega)
    · next hm => simpa using hm

theorem dottedTail_stops (hfuel : c.rest.length ≤ fuel) (h : dottedTail fuel c = .ok c₁) :
    c₁.isOp "." = false := by
  induction fuel generalizing c with
  | zero =>
    cases h
    refine Bool.eq_false_iff.2 fun hop => ?_
    have hpos := length_pos_of_isOp hop
    omega
  | succ fuel ih =>
    simp only [dottedTail] at h
    split at h
    · next hop =>
      obtain ⟨⟨name, c₂⟩, hname, h⟩ := bind_ok_iff.1 h
      have hlen := length_advance_isOp hop
      have hlen₂ : c₂.rest.length < c.advance.rest.length := length_expectWord hname
      exact @ih c₂ (by omega) h
    · next hop =>
      cases h
      simpa using hop

/-- Each loop that passes lexemes comes to its exit. -/
structure LoopsEnd (c : Cursor) : Prop where
  newlines : Reaches c c.skipNewlines ∧
    c.skipNewlines.kind ≠ .newline ∧ c.skipNewlines.isOp ";" = false
  statementEnd : Reaches c c.skipToStatementEnd ∧ c.skipToStatementEnd.atStatementEnd = true
  /-- A colon, or the refusal where the line or the text ends. -/
  colon : ∃ c₁, Reaches c c₁ ∧ (c.skipToColon = .ok c₁ ∧ c₁.isOp ":" = true ∨
    c.skipToColon = .error (c₁.unexpected (.exactly ":")) ∧ (c₁.kind = .newline ∨ c₁.kind = .eof))
  /-- The end, or the place behind a closing bracket. -/
  brackets : ∃ c₁, Reaches c c₁ ∧ (c.skipBrackets = c₁ ∧ c₁.kind = .eof ∨
    c.skipBrackets = c₁.advance ∧ c₁.peek.closes = true)
  /-- The count of open blocks starts with the `indent` that comes next. -/
  block : c.kind = .indent → ∃ ls, Closes 1 c.advance ls (pastBlock 0 c.lastEnd c.rest)
  accessors : Reaches c c.skipAccessors
  breaks : Reaches c c.skipAnnotationBreaks ∧ ¬ c.skipAnnotationBreaks.goesOnAfterBreak
  annotations : Advances c c.rest.length (c.rest.length + 1) Prod.snd
    fun fuel => Cursor.annotations fuel c
  annotationsEnd (ended : Bool) (c₁ : Cursor)
    (h : Cursor.annotations c.rest.length c = .ok (ended, c₁)) :
    if ended then c₁.atStatementEnd = true else c₁.isOp "@" = false
  modifiers : Advances c c.rest.length (c.rest.length + 1) id
    fun fuel => .ok (skipModifiers fuel c)
  modifiersEnd : isModifier (skipModifiers c.rest.length c).peek = false
  dotted : Advances c c.rest.length (c.rest.length + 1) id fun fuel => dottedTail fuel c
  dottedEnd (c₁ : Cursor) (h : dottedTail c.rest.length c = .ok c₁) : c₁.isOp "." = false
  path : Reaches c (pathTail c.lastEnd c.rest)

theorem loopsEnd (c : Cursor) : LoopsEnd c where
  newlines := ⟨reaches_skipNewlines c, skipNewlines_stops c⟩
  statementEnd := ⟨reaches_skipToStatementEnd c, skipToStatementEnd_stops c⟩
  colon := skipToColon_cases c
  brackets := skipBrackets_cases c
  block := closes_block
  accessors := reaches_skipAccessors c
  breaks := ⟨reaches_skipAnnotationBreaks c, skipAnnotationBreaks_stops c⟩
  annotations := annotations_advances c
  annotationsEnd _ _ := annotations_stops (Nat.le_refl _)
  modifiers := skipModifiers_advances c
  modifiersEnd := skipModifiers_stops (Nat.le_refl _)
  dotted := dottedTail_advances c
  dottedEnd _ := dottedTail_stops (Nat.le_refl _)
  path := reaches_pathTail c.lastEnd c.rest

end Cursor

end Phrasebook
