import Phrasebook.Proofs.Grammar.Advances

/-!
The rules of expressions advance.

By induction on the number of lexemes left: where a rule has read something, all rules advance from
there. At the same place a rule enters only some of the others, so their order there is fixed.
-/
namespace Phrasebook

namespace Cursor

open Grammar

/-- Every rule of expressions advances. All but those that go on after a left part read something;
the bounds differ by how many rules may be entered one in the other before something is read. -/
structure ExpressionsAdvance (c : Cursor) : Prop where
  primary : Advances c (8 * c.rest.length + 1) c.rest.length Prod.snd fun fuel => primaryIn fuel c
  chainTail (head : Node) : Advances c (8 * c.rest.length + 1) (c.rest.length + 1) Prod.snd
    fun fuel => chainTailIn fuel head c
  binaryTail (level : Nat) (left : Node) : Advances c (8 * c.rest.length + 1) (c.rest.length + 1)
    Prod.snd fun fuel => binaryTailIn fuel level left c
  chain : Advances c (8 * c.rest.length + 2) c.rest.length Prod.snd fun fuel => chainIn fuel c
  operand : Advances c (8 * c.rest.length + 3) c.rest.length Prod.snd fun fuel => operandIn fuel c
  binary (level : Nat) : Advances c (8 * c.rest.length + 4) c.rest.length Prod.snd
    fun fuel => binaryIn fuel level c
  expression : Advances c (8 * c.rest.length + 5) c.rest.length Prod.snd
    fun fuel => expressionIn fuel c
  sequence (close : String) : Advances c (8 * c.rest.length + 6) c.rest.length Prod.snd
    fun fuel => sequenceIn fuel close c
  pairs : Advances c (8 * c.rest.length + 6) c.rest.length Prod.snd fun fuel => pairsIn fuel c

variable {c : Cursor}

theorem nodePath_advances (hk : c.kind = .op) (bound : Nat) :
    Advances c bound c.rest.length Prod.snd fun _ => c.nodePath := by
  have hlt := length_advance_lt (c := c) (by simp [hk])
  have hle := length_advance_le c.advance
  unfold nodePath
  simp only
  split
  · exact .done (.of_advance (reaches_advance _)) (Nat.lt_of_le_of_lt hle hlt)
  · have hreach := reaches_pathTail c.advance.advance.lastEnd c.advance.advance.rest
    refine .done (.of_advance (.of_advance hreach)) ?_
    exact Nat.lt_of_le_of_lt (Nat.le_trans hreach.length_le hle) hlt
  · exact .unexpected _ _

theorem wordExpression_advances (hk : c.kind = .word) (bound : Nat) :
    Advances c bound c.rest.length Prod.snd fun _ => c.wordExpression := by
  have hlt := length_advance_lt (c := c) (by simp [hk])
  unfold wordExpression leaf
  refine .ite (fun _ => .done (reaches_advance c) hlt) fun _ => ?_
  refine .ite (fun _ => .unexpected _ _) fun _ => ?_
  exact .ite (fun _ => .unexpected _ _) fun _ => .done (reaches_advance c) hlt

theorem parentMember_advances (hk : c.kind = .op) (bound : Nat) :
    Advances c bound c.rest.length Prod.snd fun _ => c.parentMember := by
  have hlt := length_advance_lt (c := c) (by simp [hk])
  unfold parentMember
  refine .after (reaches_advance c) ?_
  refine .part (expectWord_advances bound c.advance) fun name c₁ hlen => ?_
  exact .here (Nat.lt_trans hlen hlt)

section Rules

variable (ih : ∀ c', c'.rest.length < c.rest.length → ExpressionsAdvance c')
include ih

theorem primaryIn_advances :
    Advances c (8 * c.rest.length + 1) c.rest.length Prod.snd fun fuel => primaryIn fuel c := by
  refine .enter (by simp [primaryIn]) ?_
  simp only [primaryIn]
  split
  · next hk => exact .done (reaches_advance c) (length_advance_lt (by simp [hk]))
  · next hk => exact .done (reaches_advance c) (length_advance_lt (by simp [hk]))
  · next hk => exact wordExpression_advances hk _
  · next hk =>
    have hlt := length_advance_lt (c := c) (by simp [hk])
    refine .ite (fun hop => ?_) fun _ => .ite (fun hop => ?_) fun _ => .ite (fun hop => ?_)
      fun _ => .ite (fun hop => nodePath_advances hk _) fun _ =>
      .ite (fun hop => parentMember_advances hk _) fun _ => .unexpected _ _
    · refine .after (reaches_advance c) ?_
      refine .part ((ih _ hlt).expression.within (by omega)) fun inner c₁ hlen => ?_
      refine .move (expectOp_advances _ ")" c₁) fun c₂ hlen₂ => ?_
      exact .here (Nat.lt_trans hlen₂ (Nat.lt_trans hlen hlt))
    · refine .after (reaches_advance c) ?_
      refine .part (((ih _ hlt).sequence "]").within (by omega)) fun items c₁ hlen => ?_
      exact .here (Nat.lt_trans hlen hlt)
    · refine .after (reaches_advance c) ?_
      refine .part ((ih _ hlt).pairs.within (by omega)) fun pairs c₁ hlen => ?_
      exact .here (Nat.lt_trans hlen hlt)
  · exact .unexpected _ _

theorem chainTailIn_advances (head : Node) : Advances c (8 * c.rest.length + 1)
    (c.rest.length + 1) Prod.snd fun fuel => chainTailIn fuel head c := by
  refine .enter (by simp [chainTailIn]) ?_
  simp only [chainTailIn]
  -- Each way on passes a mark and then a part, and goes on behind them.
  refine .ite (fun hop => ?call) fun _ => .ite (fun hop => ?member) fun _ =>
    .ite (fun hop => ?subscript) fun _ => .here (Nat.lt_succ_self _)
  case call =>
    have hlt := length_advance_isOp hop
    refine .after (reaches_advance c) ?_
    refine .part (((ih _ hlt).sequence ")").within (by omega)) fun arguments c₁ hlen => ?_
    exact ((ih _ (Nat.lt_trans hlen hlt)).chainTail _).mono (by omega) (by omega)
  case member =>
    have hlt := length_advance_isOp hop
    refine .after (reaches_advance c) ?_
    refine .part (expectWord_advances _ c.advance) fun name c₁ hlen => ?_
    exact ((ih _ (Nat.lt_trans hlen hlt)).chainTail _).mono (by omega) (by omega)
  case subscript =>
    have hlt := length_advance_isOp hop
    refine .after (reaches_advance c) ?_
    refine .part ((ih _ hlt).expression.within (by omega)) fun index c₁ hlen => ?_
    refine .move (expectOp_advances _ "]" c₁) fun c₂ hlen₂ => ?_
    have hlt₂ := Nat.lt_trans hlen₂ (Nat.lt_trans hlen hlt)
    exact ((ih c₂ hlt₂).chainTail _).mono (by omega) (by omega)

theorem binaryTailIn_advances (level : Nat) (left : Node) : Advances c (8 * c.rest.length + 1)
    (c.rest.length + 1) Prod.snd fun fuel => binaryTailIn fuel level left c := by
  refine .enter (by simp [binaryTailIn]) ?_
  simp only [binaryTailIn]
  split
  · exact .here (Nat.lt_succ_self _)
  · next opLevel op after hop =>
    have hlt := length_of_binaryOp? hop
    refine .ite (fun _ => .here (Nat.lt_succ_self _)) fun _ => ?_
    refine .after (reaches_binaryOp? hop) ?_
    refine .ite (fun _ => ?_) fun _ => ?_
    · refine .part ((ih _ hlt).chain.within (by omega)) fun right c₁ hlen => ?_
      exact ((ih c₁ (Nat.lt_trans hlen hlt)).binaryTail level _).mono (by omega) (by omega)
    · refine .part (((ih _ hlt).binary _).within (by omega)) fun right c₁ hlen => ?_
      exact ((ih c₁ (Nat.lt_trans hlen hlt)).binaryTail level _).mono (by omega) (by omega)

theorem chainIn_advances :
    Advances c (8 * c.rest.length + 2) c.rest.length Prod.snd fun fuel => chainIn fuel c := by
  refine .enter (by simp [chainIn]) ?_
  simp only [chainIn]
  refine .part (primaryIn_advances ih) fun head c₁ hlen => ?_
  exact ((ih c₁ hlen).chainTail head).mono (by omega) hlen

theorem operandIn_advances :
    Advances c (8 * c.rest.length + 3) c.rest.length Prod.snd fun fuel => operandIn fuel c := by
  refine .enter (by simp [operandIn]) ?_
  simp only [operandIn]
  split
  · next level hlevel =>
    have hlt := length_advance_unary hlevel
    refine .after (reaches_advance c) ?_
    refine .part (((ih _ hlt).binary level).within (by omega)) fun operand c₁ hlen => ?_
    exact .here (Nat.lt_trans hlen hlt)
  · refine .ite (fun hawait => ?_) fun _ => chainIn_advances ih
    have hlt := length_advance_isWord hawait
    refine .after (reaches_advance c) ?_
    refine .part ((ih _ hlt).chain.within (by omega)) fun operand c₁ hlen => ?_
    exact .here (Nat.lt_trans hlen hlt)

theorem binaryIn_advances (level : Nat) : Advances c (8 * c.rest.length + 4) c.rest.length
    Prod.snd fun fuel => binaryIn fuel level c := by
  refine .enter (by simp [binaryIn]) ?_
  simp only [binaryIn]
  refine .part (operandIn_advances ih) fun left c₁ hlen => ?_
  exact ((ih c₁ hlen).binaryTail level left).mono (by omega) hlen

theorem expressionIn_advances :
    Advances c (8 * c.rest.length + 5) c.rest.length Prod.snd fun fuel => expressionIn fuel c := by
  refine .enter (by simp [expressionIn]) ?_
  simp only [expressionIn]
  refine .part (binaryIn_advances ih 1) fun value c₁ hlen => ?_
  refine .ite (fun hif => ?_) fun _ => .here hlen
  have hlt := Nat.lt_trans (length_advance_isWord hif) hlen
  refine .after (reaches_advance c₁) ?_
  refine .part (((ih _ hlt).binary 1).within (by omega)) fun condition c₂ hlen₂ => ?_
  refine .ite (fun helse => ?_) fun _ => .unexpected _ _
  have hlt₂ := Nat.lt_trans (length_advance_isWord helse) (Nat.lt_trans hlen₂ hlt)
  refine .after (reaches_advance c₂) ?_
  refine .part ((ih _ hlt₂).expression.within (by omega)) fun other c₃ hlen₃ => ?_
  exact .here (Nat.lt_trans hlen₃ hlt₂)

theorem sequenceIn_advances (close : String) : Advances c (8 * c.rest.length + 6) c.rest.length
    Prod.snd fun fuel => sequenceIn fuel close c := by
  refine .enter (by simp [sequenceIn]) ?_
  simp only [sequenceIn]
  refine .ite (fun hclose => .done (reaches_advance c) (length_advance_isOp hclose)) fun _ => ?_
  refine .part (expressionIn_advances ih) fun item c₁ hlen => ?_
  refine .ite (fun hcomma => ?_) fun _ => ?_
  · have hlt := Nat.lt_trans (length_advance_isOp hcomma) hlen
    refine .after (reaches_advance c₁) ?_
    refine .part (((ih _ hlt).sequence close).within (by omega)) fun items c₂ hlen₂ => ?_
    exact .here (Nat.lt_trans hlen₂ hlt)
  · refine .move (expectOp_advances _ close c₁) fun c₂ hlen₂ => ?_
    exact .here (Nat.lt_trans hlen₂ hlen)

theorem pairsIn_advances :
    Advances c (8 * c.rest.length + 6) c.rest.length Prod.snd fun fuel => pairsIn fuel c := by
  refine .enter (by simp [pairsIn]) ?_
  simp only [pairsIn]
  refine .ite (fun hclose => .done (reaches_advance c) (length_advance_isOp hclose)) fun _ => ?_
  refine .part (expressionIn_advances ih) fun key c₁ hlen => ?_
  refine .ite (fun hmark => ?_) fun _ => .unexpected _ _
  have hlt := Nat.lt_of_le_of_lt (length_advance_le c₁) hlen
  refine .after (reaches_advance c₁) ?_
  refine .part ((ih _ hlt).expression.within (by omega)) fun value c₂ hlen₂ => ?_
  have hlt₂ := Nat.lt_trans hlen₂ hlt
  refine .ite (fun hcomma => ?_) fun _ => ?_
  · have hlt₃ := Nat.lt_trans (length_advance_isOp hcomma) hlt₂
    refine .after (reaches_advance c₂) ?_
    refine .part ((ih _ hlt₃).pairs.within (by omega)) fun pairs c₃ hlen₃ => ?_
    exact .here (Nat.lt_trans hlen₃ hlt₃)
  · refine .move (expectOp_advances _ "\x7d" c₂) fun c₃ hlen₃ => ?_
    exact .here (Nat.lt_trans hlen₃ hlt₂)

end Rules

/-- A rule only enters others at the same place down to an operand, and at later places any. -/
theorem expressionsAdvance (c : Cursor) : ExpressionsAdvance c := by
  induction hn : c.rest.length using Nat.strongRecOn generalizing c with
  | ind n ih =>
    have later : ∀ c', c'.rest.length < c.rest.length → ExpressionsAdvance c' :=
      fun c' hlt => ih _ (hn ▸ hlt) c' rfl
    exact {
      primary := primaryIn_advances later
      chainTail := chainTailIn_advances later
      binaryTail := binaryTailIn_advances later
      chain := chainIn_advances later
      operand := operandIn_advances later
      binary := binaryIn_advances later
      expression := expressionIn_advances later
      sequence := sequenceIn_advances later
      pairs := pairsIn_advances later }

end Cursor

end Phrasebook
