import Phrasebook.Proofs.Grammar.Reaches

/-!
How many lexemes a move leaves.

A move from one place to another leaves no more; one that passes a lexeme known to be there leaves
fewer. This is the measure of every induction over the grammar.
-/
namespace Phrasebook

namespace Cursor

open Grammar

variable {c c₁ after : Cursor} {p : Lexeme → Bool} {depth last fuel : Nat} {ls : List Lexeme}

theorem length_advance_le (c : Cursor) : c.advance.rest.length ≤ c.rest.length :=
  (reaches_advance c).length_le

theorem length_advance_lt (h : c.kind ≠ .eof) : c.advance.rest.length < c.rest.length := by
  obtain ⟨rest, last⟩ := c
  cases rest with
  | nil => exact absurd rfl h
  | cons l r =>
    have hl : l.kind ≠ .eof := h
    simp [advance, hl]

theorem kind_of_isWord {w : String} (h : c.isWord w = true) : c.kind = .word := by
  simp only [isWord, Lexeme.isWord, Bool.and_eq_true, beq_iff_eq] at h
  exact h.1

theorem solid_of_unaryLevel? {level : Nat} (h : unaryLevel? c.peek = some level) :
    c.kind.isSolid = true := by
  unfold unaryLevel? at h
  split at h
  · next hk => simp [kind, hk, Lexeme.Kind.isSolid]
  · next hk => simp [kind, hk, Lexeme.Kind.isSolid]
  · cases h

theorem length_advance_isOp {op : String} (h : c.isOp op = true) :
    c.advance.rest.length < c.rest.length :=
  length_advance_lt (by rw [kind_of_isOp h]; decide)

theorem length_advance_isWord {w : String} (h : c.isWord w = true) :
    c.advance.rest.length < c.rest.length :=
  length_advance_lt (by rw [kind_of_isWord h]; decide)

theorem kind_of_binaryLevel? {level : Nat} (h : binaryLevel? c.peek = some level) :
    c.kind = .word ∨ c.kind = .op := by
  unfold binaryLevel? at h
  unfold kind
  split at h
  · exact .inl ‹_›
  · exact .inr ‹_›
  · cases h

theorem length_of_binaryOp? {level : Nat} {op : Text} (h : c.binaryOp? = some (level, op, after)) :
    after.rest.length < c.rest.length := by
  unfold binaryOp? at h
  split at h
  · next hnot =>
    cases h
    rw [Bool.and_eq_true] at hnot
    exact Nat.lt_of_le_of_lt (length_advance_le _) (length_advance_isWord hnot.1)
  · obtain ⟨level', hlevel, he⟩ := Option.map_eq_some_iff.1 h
    cases he
    refine length_advance_lt ?_
    rcases kind_of_binaryLevel? hlevel with hk | hk <;> simp [hk]

theorem length_advance_unary {level : Nat} (h : unaryLevel? c.peek = some level) :
    c.advance.rest.length < c.rest.length := by
  refine length_advance_lt fun heof => ?_
  have hsolid := solid_of_unaryLevel? h
  rw [heof] at hsolid
  cases hsolid

theorem length_pathTail_le (last : Nat) (ls : List Lexeme) :
    (pathTail last ls).rest.length ≤ ls.length :=
  (reaches_pathTail last ls).length_le

theorem length_passWhile_le : (passWhile p last ls).rest.length ≤ ls.length :=
  (reaches_passWhile p last ls).length_le

theorem length_skipNewlines_le (c : Cursor) : c.skipNewlines.rest.length ≤ c.rest.length :=
  (reaches_skipNewlines c).length_le

theorem length_skipToStatementEnd_le (c : Cursor) :
    c.skipToStatementEnd.rest.length ≤ c.rest.length :=
  (reaches_skipToStatementEnd c).length_le

theorem length_skipToStatementEnd_lt (hk : c.kind = .word) :
    c.skipToStatementEnd.rest.length < c.rest.length := by
  obtain ⟨rest, last⟩ := c
  cases rest with
  | nil => cases hk
  | cons l r =>
    have hl : l.kind = .word := hk
    have hpass : (l.kind != .eof && !endsStatement l) = true := by
      simp [hl, endsStatement, Lexeme.isOp]
    rw [skipToStatementEnd, passWhile, if_pos hpass]
    exact Nat.lt_succ_of_le length_passWhile_le

theorem length_toColon_le (h : toColon depth last ls = .ok c₁) :
    c₁.rest.length ≤ ls.length := by
  obtain ⟨c₂, hreach, ⟨hok, -⟩ | ⟨herr, -⟩⟩ := toColon_cases depth last ls
  · cases hok.symm.trans h
    exact hreach.length_le
  · cases herr.symm.trans h

theorem isOp_of_toColon (h : toColon depth last ls = .ok c₁) : c₁.isOp ":" = true := by
  obtain ⟨c₂, -, ⟨hok, hcolon⟩ | ⟨herr, -⟩⟩ := toColon_cases depth last ls
  · cases hok.symm.trans h
    exact hcolon
  · cases herr.symm.trans h

theorem length_pastBrackets_le : (pastBrackets depth last ls).rest.length ≤ ls.length :=
  (reaches_pastBrackets depth last ls).length_le

theorem length_pastBlock_le : (pastBlock depth last ls).rest.length ≤ ls.length := by
  fun_induction pastBlock depth last ls with
  | case1 => exact Nat.le_refl _
  | case2 => exact Nat.le_refl _
  | case3 depth last l r hk ih | case5 depth last l r hk hd ih
  | case6 depth last l r hk _ _ ih => exact Nat.le_succ_of_le ih
  | case4 => exact Nat.le_succ _

theorem length_skipAccessors_le (c : Cursor) : c.skipAccessors.rest.length ≤ c.rest.length :=
  (reaches_skipAccessors c).length_le

theorem length_skipOptionalBrackets_le (c : Cursor) :
    c.skipOptionalBrackets.rest.length ≤ c.rest.length :=
  (reaches_skipOptionalBrackets c).length_le

theorem skipAnnotationBreaks_eq_or_lt (c : Cursor) : c.skipAnnotationBreaks = c ∨
    c.skipAnnotationBreaks.rest.length < c.rest.length := by
  unfold skipAnnotationBreaks
  split
  · next hbreak => exact .inr (length_advance_lt (by simp [hbreak.1]))
  · exact .inl rfl

theorem length_skipAnnotationBreaks_le (c : Cursor) :
    c.skipAnnotationBreaks.rest.length ≤ c.rest.length :=
  (reaches_skipAnnotationBreaks c).length_le

theorem length_expectWord {name : Text} (h : c.expectWord = .ok (name, c₁)) :
    c₁.rest.length < c.rest.length := by
  obtain ⟨hk, -, rfl⟩ := expectWord_eq_ok.1 h
  exact length_advance_lt (by simp [hk])

/-- Annotations that are there are read, and the statement may end with them. -/
theorem annotations_eq_or_lt {ended : Bool} (h : annotations fuel c = .ok (ended, c₁)) :
    (c₁ = c ∧ ended = false) ∨
      c₁.rest.length < c.rest.length ∧ (ended = true → c₁.atStatementEnd = true) := by
  induction fuel generalizing c with
  | zero =>
    cases h
    exact .inl ⟨rfl, rfl⟩
  | succ fuel ih =>
    simp only [annotations] at h
    split at h
    · next hop =>
      obtain ⟨⟨name, c₂⟩, hname, h⟩ := bind_ok_iff.1 h
      have hlen := length_advance_isOp hop
      have hlen₂ := length_expectWord hname
      have hlen₃ := length_skipOptionalBrackets_le c₂
      have hlen₄ := length_skipAnnotationBreaks_le c₂.skipOptionalBrackets
      simp only at h
      split at h
      · next hend =>
        cases h
        exact .inr ⟨by omega, fun _ => hend⟩
      · rcases ih h with ⟨rfl, rfl⟩ | ⟨hlt, hend⟩
        · exact .inr ⟨by omega, fun hended => absurd hended Bool.false_ne_true⟩
        · exact .inr ⟨by omega, hend⟩
    · cases h
      exact .inl ⟨rfl, rfl⟩

theorem length_annotations_le {ended : Bool} (h : annotations fuel c = .ok (ended, c₁)) :
    c₁.rest.length ≤ c.rest.length := by
  rcases annotations_eq_or_lt h with ⟨rfl, -⟩ | ⟨hlt, -⟩
  · exact Nat.le_refl _
  · exact Nat.le_of_lt hlt

theorem length_skipModifiers_le (fuel : Nat) (c : Cursor) :
    (skipModifiers fuel c).rest.length ≤ c.rest.length :=
  (reaches_skipModifiers fuel c).length_le

theorem kind_of_isModifier (h : isModifier c.peek = true) : c.kind = .word := by
  simp only [isModifier, Bool.and_eq_true, beq_iff_eq] at h
  exact h.1

theorem length_advance_isModifier (h : isModifier c.peek = true) :
    c.advance.rest.length < c.rest.length :=
  length_advance_lt (by simp [kind_of_isModifier h])

theorem length_skipModifiers_lt (hfuel : c.rest.length ≤ fuel) (hm : isModifier c.peek = true) :
    (skipModifiers fuel c).rest.length < c.rest.length := by
  have hlen := length_advance_isModifier hm
  cases fuel with
  | zero => omega
  | succ fuel =>
    rw [skipModifiers, if_pos hm]
    have hlen₂ := length_skipOptionalBrackets_le c.advance
    have hmore := length_skipModifiers_le fuel c.advance.skipOptionalBrackets
    omega

end Cursor

end Phrasebook
