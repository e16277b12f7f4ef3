import Phrasebook.Proofs.Grammar.ExpressionAdvances

/-!
What stands on one line advances.

It needs no bound of its own: its expressions take one that grows with the lexemes left, which is
always enough.
-/
namespace Phrasebook

namespace Cursor

open Grammar

variable {c : Cursor} {bound start : Nat}

theorem expression_advances (bound : Nat) (c : Cursor) :
    Advances c bound c.rest.length Prod.snd fun _ => c.expression :=
  ((expressionsAdvance c).expression.fixed (by omega)).within (Nat.zero_le _)

/-- What follows where the statement has to end. -/
theorem Advances.ended {β : Type} {limit : Nat} {place : β → Cursor} {f : Nat → Except ParseError β}
    (h : Advances c bound limit place f) :
    Advances c bound limit place fun fuel => c.expectStatementEnd >>= fun _ => f fuel := by
  unfold expectStatementEnd
  split
  · exact h
  · exact .unexpected _ _

theorem length_pos_of_isOp {op : String} (h : c.isOp op = true) : 0 < c.rest.length :=
  Nat.zero_lt_of_lt (length_advance_isOp h)

/-- Each further part of a dotted name takes two lexemes. -/
theorem dottedTail_advances (c : Cursor) : Advances c c.rest.length (c.rest.length + 1) id
    fun fuel => dottedTail fuel c := by
  refine .loop (fun c => c.isOp "." = true) dottedTail id (fun _ => rfl)
    (fun _ => length_pos_of_isOp) (fun _ => rfl) (fun fuel c hop => if_neg hop) ?_ c
  intro c hop ih
  have hlt := length_advance_isOp hop
  simp only [dottedTail, if_pos hop]
  refine .after (reaches_advance c) ?_
  refine .part (expectWord_advances _ c.advance) fun name c₁ hlen => ?_
  exact (ih c₁ (Nat.lt_trans hlen hlt)).mono (by omega) (by omega)

theorem typeHint_advances (bound : Nat) (c : Cursor) :
    Advances c bound c.rest.length id fun _ => c.typeHint := by
  unfold typeHint
  refine .part (expectWord_advances bound c) fun name c₁ hlen => ?_
  have htail := (dottedTail_advances c₁).fixed (Nat.le_refl _)
  refine .move (htail.within (Nat.zero_le _)) fun c₂ hlen₂ => ?_
  have hbrackets := (reaches_skipBrackets c₂).length_le
  split
  · exact .done (reaches_skipBrackets c₂) (Nat.lt_of_le_of_lt hbrackets (by omega))
  · exact .done (.refl c₂) (Nat.lt_of_lt_of_le hlen₂ hlen)

/-- Each annotation begins with a mark. -/
theorem annotations_advances (c : Cursor) : Advances c c.rest.length (c.rest.length + 1) Prod.snd
    fun fuel => annotations fuel c := by
  refine .loop (fun c => c.isOp "@" = true) annotations (fun c => (false, c)) (fun _ => rfl)
    (fun _ => length_pos_of_isOp) (fun _ => rfl) (fun fuel c hop => if_neg hop) ?_ c
  intro c hop ih
  have hlt := length_advance_isOp hop
  simp only [annotations, if_pos hop]
  refine .after (reaches_advance c) ?_
  refine .part (expectWord_advances _ c.advance) fun name c₁ hlen => ?_
  have hreach := (reaches_skipOptionalBrackets c₁).trans (reaches_skipAnnotationBreaks _)
  have hlen₂ := hreach.length_le
  refine .after hreach (.ite (fun _ => .here (by omega)) fun _ => ?_)
  exact (ih _ (by omega)).mono (by omega) (by omega)

/-- Each modifier is a word. -/
theorem skipModifiers_advances (c : Cursor) : Advances c c.rest.length (c.rest.length + 1) id
    fun fuel => .ok (skipModifiers fuel c) := by
  refine .loop (fun c => isModifier c.peek = true) (fun fuel c => .ok (skipModifiers fuel c)) id
    (fun _ => rfl) (fun _ hm => Nat.zero_lt_of_lt (length_advance_isModifier hm)) (fun _ => rfl)
    (fun fuel c hm => congrArg Except.ok (if_neg hm)) ?_ c
  intro c hm ih
  have hlt := length_advance_isModifier hm
  simp only [skipModifiers, if_pos hm]
  have hlen := length_skipOptionalBrackets_le c.advance
  refine .after ((reaches_advance c).trans (reaches_skipOptionalBrackets _)) ?_
  exact (ih _ (by omega)).mono (by omega) (by omega)

theorem initializer_advances (bound : Nat) (c : Cursor) :
    Advances c bound (c.rest.length + 1) Prod.snd fun _ => c.initializer := by
  unfold initializer
  refine .ite (fun _ => ?_) fun _ => .here (Nat.lt_succ_self _)
  refine .after (reaches_advance c) ?_
  refine .part (expression_advances bound c.advance) fun value c₁ hlen => ?_
  exact .here (Nat.lt_succ_of_lt (Nat.lt_of_lt_of_le hlen (length_advance_le c)))

/-- The variable behind its name and type. -/
theorem variable_advances (bound start : Nat) (name : Text) (c : Cursor) :
    Advances c bound (c.rest.length + 1) Prod.snd fun _ => do
      let (value, c) ← c.initializer
      let c := if c.isWord "setget" then c.skipToStatementEnd else c
      let node : Node := ⟨.varDecl name, c.spanFrom start, value⟩
      if c.isOp ":" then return (node, c.advance.skipAccessors)
      else
        c.expectStatementEnd
        return (node, c) := by
  refine .part (initializer_advances bound c) fun value c₁ hlen => ?_
  have hset : Reaches c₁ (if c₁.isWord "setget" then c₁.skipToStatementEnd else c₁) := by
    split
    · exact reaches_skipToStatementEnd c₁
    · exact .refl c₁
  have hlen₂ := Nat.lt_of_le_of_lt hset.length_le hlen
  refine .after hset (.ite (fun _ => ?_) fun _ => .ended (.here hlen₂))
  generalize (if c₁.isWord "setget" then c₁.skipToStatementEnd else c₁) = c₂ at hlen₂
  have haccessors := (reaches_advance c₂).trans (reaches_skipAccessors c₂.advance)
  exact .done haccessors (Nat.lt_of_le_of_lt haccessors.length_le hlen₂)

theorem varStatement_advances (bound start : Nat) (c : Cursor) :
    Advances c bound c.rest.length Prod.snd fun _ => c.varStatement start := by
  have hle := length_advance_le c
  unfold varStatement
  refine .after (reaches_advance c) ?_
  refine .part (expectWord_advances bound c.advance) fun name c₁ hlen => ?_
  refine .ite (fun _ => ?_) fun _ => ?_
  · refine .after (reaches_advance c₁) ?_
    have hle₁ := length_advance_le c₁
    refine .move (typeHint_advances bound c₁.advance) fun c₂ hlen₂ => ?_
    exact (variable_advances bound start name c₂).mono (Nat.le_refl _) (by omega)
  · exact (variable_advances bound start name c₁).mono (Nat.le_refl _) (by omega)

theorem returnStatement_advances (hk : c.kind = .word) (bound start : Nat) :
    Advances c bound c.rest.length Prod.snd fun _ => c.returnStatement start := by
  have hlt := length_advance_lt (c := c) (by simp [hk])
  unfold returnStatement
  refine .after (reaches_advance c) (.ite (fun _ => ?_) fun _ => ?_)
  · exact .ended (.here hlt)
  · refine .part (expression_advances bound c.advance) fun value c₁ hlen => ?_
    exact .ended (.here (Nat.lt_trans hlen hlt))

theorem expressionStatement_advances (bound start : Nat) (c : Cursor) :
    Advances c bound c.rest.length Prod.snd fun _ => c.expressionStatement start := by
  unfold expressionStatement
  refine .part (expression_advances bound c) fun target c₁ hlen => ?_
  simp only
  refine .ite (fun _ => ?_) fun _ => .ended (.here hlen)
  refine .after (reaches_advance c₁) ?_
  refine .part (expression_advances bound c₁.advance) fun value c₂ hlen₂ => ?_
  have hle := length_advance_le c₁
  exact .ended (.here (by omega))

end Cursor

end Phrasebook
