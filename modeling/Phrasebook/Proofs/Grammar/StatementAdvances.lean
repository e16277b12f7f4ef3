import Phrasebook.Proofs.Grammar.LineAdvances
import Phrasebook.Proofs.Grammar.Statement

/-!
The rules of statements advance.

The same induction as for expressions: at the same place a rule enters others only down to a
statement and what that opens with.
-/
namespace Phrasebook

namespace Cursor

open Grammar

variable {c : Cursor}

/-- Every rule of statements advances. A block, the branches after the first and the branches of a
match may be empty; all others read something. -/
structure StatementsAdvance (c : Cursor) : Prop where
  function (start : Nat) : Advances c (8 * c.rest.length + 1) c.rest.length Prod.snd
    fun fuel => functionIn fuel start c
  class_ (start : Nat) : Advances c (8 * c.rest.length + 1) c.rest.length Prod.snd
    fun fuel => classIn fuel start c
  forStatement (start : Nat) : Advances c (8 * c.rest.length + 1) c.rest.length Prod.snd
    fun fuel => forStatementIn fuel start c
  whileStatement (start : Nat) : Advances c (8 * c.rest.length + 1) c.rest.length Prod.snd
    fun fuel => whileStatementIn fuel start c
  matchStatement (start : Nat) : Advances c (8 * c.rest.length + 1) c.rest.length Prod.snd
    fun fuel => matchStatementIn fuel start c
  matchBranches : Advances c (8 * c.rest.length + 1) (c.rest.length + 1) Prod.snd
    fun fuel => matchBranchesIn fuel c
  branch (which : Node.Branch) : Advances c (8 * c.rest.length + 1) c.rest.length Prod.snd
    fun fuel => branchIn fuel which c
  branches : Advances c (8 * c.rest.length + 2) (c.rest.length + 1) Prod.snd
    fun fuel => branchesIn fuel c
  ifStatement (start : Nat) : Advances c (8 * c.rest.length + 2) c.rest.length Prod.snd
    fun fuel => ifStatementIn fuel start c
  statement : Advances c (8 * c.rest.length + 3) c.rest.length Prod.snd
    fun fuel => statementIn fuel c
  line : Advances c (8 * c.rest.length + 4) c.rest.length Prod.snd fun fuel => lineIn fuel c
  block (inBlock : Bool) : Advances c (8 * c.rest.length + 4) (c.rest.length + 1) Prod.snd
    fun fuel => blockIn fuel inBlock c
  suite : Advances c (8 * c.rest.length + 5) c.rest.length Prod.snd fun fuel => suiteIn fuel c

section Rules

variable (ih : ∀ c', c'.rest.length < c.rest.length → StatementsAdvance c')
include ih

/-- The body behind the head of a statement. -/
theorem body_advances {c₁ : Cursor} (hlen : c₁.rest.length ≤ c.rest.length)
    (whole : List Node × Cursor → Node) :
    Advances c₁ (8 * c.rest.length) c.rest.length Prod.snd fun fuel => do
      let c₂ ← c₁.expectOp ":"
      let x ← suiteIn fuel c₂
      return (whole x, x.2) := by
  refine .move (expectOp_advances _ ":" c₁) fun c₂ hlen₂ => ?_
  refine .part ((ih c₂ (by omega)).suite.within (by omega)) fun body c₃ hlen₃ => ?_
  exact .here (by omega)

/-- The same where the head is passed without a look at it. -/
theorem passed_advances {c₁ : Cursor} (hlen : c₁.rest.length ≤ c.rest.length)
    (whole : List Node × Cursor → Node) :
    Advances c₁ (8 * c.rest.length) c.rest.length Prod.snd fun fuel => do
      let c₂ ← c₁.skipToColon
      let x ← suiteIn fuel c₂.advance
      return (whole x, x.2) := by
  refine .colon fun c₂ hlen₂ hcolon => ?_
  have hlt := length_advance_isOp hcolon
  refine .after (reaches_advance c₂) ?_
  refine .part ((ih _ (by omega)).suite.within (by omega)) fun body c₃ hlen₃ => ?_
  exact .here (by omega)

theorem functionIn_advances (start : Nat) : Advances c (8 * c.rest.length + 1) c.rest.length
    Prod.snd fun fuel => functionIn fuel start c := by
  refine .enter (by simp [functionIn]) ?_
  simp only [functionIn]
  have hle := length_advance_le c
  have hle₂ := length_advance_le c.advance
  refine .after (reaches_advance c) ?_
  split
  · exact .after (reaches_advance _) (passed_advances ih (by omega) _)
  · exact passed_advances ih hle _

theorem classIn_advances (start : Nat) : Advances c (8 * c.rest.length + 1) c.rest.length
    Prod.snd fun fuel => classIn fuel start c := by
  refine .enter (by simp [classIn]) ?_
  simp only [classIn]
  have hle := length_advance_le c
  refine .after (reaches_advance c) ?_
  refine .part (expectWord_advances _ c.advance) fun name c₁ hlen => ?_
  exact passed_advances ih (by omega) _

theorem whileStatementIn_advances (start : Nat) : Advances c (8 * c.rest.length + 1) c.rest.length
    Prod.snd fun fuel => whileStatementIn fuel start c := by
  refine .enter (by simp [whileStatementIn]) ?_
  simp only [whileStatementIn]
  have hle := length_advance_le c
  refine .after (reaches_advance c) ?_
  refine .part (expression_advances _ c.advance) fun condition c₁ hlen => ?_
  exact body_advances ih (by omega) _

/-- A loop behind its variable and the type of that. -/
theorem iterated_advances (start : Nat) {c₁ : Cursor} (hlen : c₁.rest.length ≤ c.rest.length) :
    Advances c₁ (8 * c.rest.length) c.rest.length Prod.snd fun fuel =>
      if c₁.isWord "in" then do
        let x ← c₁.advance.expression
        let c₂ ← x.2.expectOp ":"
        let y ← suiteIn fuel c₂
        return ((⟨.forStmt, y.2.spanFrom start, x.1 :: y.1⟩ : Node), y.2)
      else .error (c₁.unexpected (.exactly "in")) := by
  have hle := length_advance_le c₁
  refine .ite (fun _ => .after (reaches_advance c₁) ?_) fun _ => .unexpected _ _
  refine .part (expression_advances _ c₁.advance) fun iterable c₂ hlen₂ => ?_
  exact body_advances ih (by omega) _

theorem forStatementIn_advances (start : Nat) : Advances c (8 * c.rest.length + 1) c.rest.length
    Prod.snd fun fuel => forStatementIn fuel start c := by
  refine .enter (by simp [forStatementIn]) ?_
  simp only [forStatementIn]
  have hle := length_advance_le c
  refine .after (reaches_advance c) ?_
  refine .part (expectWord_advances _ c.advance) fun name c₁ hlen => ?_
  have hle₁ := length_advance_le c₁
  refine .ite (fun _ => .after (reaches_advance c₁) ?_) fun _ =>
    iterated_advances ih start (by omega)
  exact .move (typeHint_advances _ c₁.advance) fun c₂ hlen₂ => iterated_advances ih start (by omega)

theorem matchBranchesIn_advances : Advances c (8 * c.rest.length + 1) (c.rest.length + 1) Prod.snd
    fun fuel => matchBranchesIn fuel c := by
  refine .enter (by simp [matchBranchesIn]) ?_
  simp only [matchBranchesIn]
  have hle := length_skipNewlines_le c
  refine .after (reaches_skipNewlines c) ?_
  generalize c.skipNewlines = c₁ at hle
  split
  · exact .done (reaches_advance c₁) (Nat.lt_succ_of_le (Nat.le_trans (length_advance_le c₁) hle))
  · exact .here (Nat.lt_succ_of_le hle)
  · refine .colon fun c₂ hlen₂ hcolon => ?_
    have hlt := length_advance_isOp hcolon
    refine .after (reaches_advance c₂) ?_
    refine .part ((ih _ (by omega)).suite.within (by omega)) fun body c₃ hlen₃ => ?_
    refine .part ((ih c₃ (by omega)).matchBranches.within (by omega)) fun more c₄ hlen₄ => ?_
    exact .here (by omega)

theorem matchStatementIn_advances (start : Nat) : Advances c (8 * c.rest.length + 1) c.rest.length
    Prod.snd fun fuel => matchStatementIn fuel start c := by
  refine .enter (by simp [matchStatementIn]) ?_
  simp only [matchStatementIn]
  have hle := length_advance_le c
  refine .after (reaches_advance c) ?_
  refine .part (expression_advances _ c.advance) fun subject c₁ hlen => ?_
  refine .move (expectOp_advances _ ":" c₁) fun c₂ hlen₂ => ?_
  refine .ite (fun hnewline => ?_) fun _ => .unexpected _ _
  have hle₂ := length_advance_le c₂
  refine .after (reaches_advance c₂) (.ite (fun hindent => ?_) fun _ => .here ?_)
  · have hle₃ := length_advance_le c₂.advance
    refine .after (reaches_advance _) ?_
    refine .part ((ih _ (by omega)).matchBranches.within (by omega)) fun branches c₃ hlen₃ => ?_
    exact .here (by omega)
  · omega

theorem branchIn_advances (which : Node.Branch) : Advances c (8 * c.rest.length + 1) c.rest.length
    Prod.snd fun fuel => branchIn fuel which c := by
  refine .enter (by simp [branchIn]) ?_
  simp only [branchIn]
  have hle := length_advance_le c
  refine .after (reaches_advance c) (.ite (fun _ => body_advances ih hle _) fun _ => ?_)
  refine .part (expression_advances _ c.advance) fun condition c₁ hlen => ?_
  exact body_advances ih (by omega) _

theorem branchesIn_advances : Advances c (8 * c.rest.length + 2) (c.rest.length + 1) Prod.snd
    fun fuel => branchesIn fuel c := by
  refine .enter (by simp [branchesIn]) ?_
  simp only [branchesIn]
  refine .ite (fun _ => ?_) fun _ =>
    .ite (fun _ => ?_) fun _ => .here (Nat.lt_succ_self _)
  · refine .part (branchIn_advances ih _) fun branch c₁ hlen => ?_
    refine .part ((ih c₁ hlen).branches.within (by omega)) fun others c₂ hlen₂ => ?_
    exact .here (by omega)
  · refine .part (branchIn_advances ih _) fun branch c₁ hlen => ?_
    exact .here (Nat.lt_succ_of_lt hlen)

theorem ifStatementIn_advances (start : Nat) : Advances c (8 * c.rest.length + 2) c.rest.length
    Prod.snd fun fuel => ifStatementIn fuel start c := by
  refine .enter (by simp [ifStatementIn]) ?_
  simp only [ifStatementIn]
  refine .part (branchIn_advances ih _) fun first c₁ hlen => ?_
  refine .part ((ih c₁ hlen).branches.within (by omega)) fun others c₂ hlen₂ => ?_
  exact .here (by omega)

/-- A statement by its first lexeme, once the annotations before it are passed. -/
theorem opened_advances (start : Nat) : Advances c (8 * c.rest.length + 2) c.rest.length Prod.snd
    fun fuel => match opening c.peek with
      | .plain kind => pure (c.plainDeclaration kind start)
      | .keyword => do
        c.advance.expectStatementEnd
        return (⟨.keywordStmt, c.advance.spanFrom start, []⟩, c.advance)
      | .modifier =>
        if (skipModifiers c.rest.length c).isWord "var" then
          (skipModifiers c.rest.length c).varStatement start
        else if (skipModifiers c.rest.length c).isWord "func" then
          functionIn fuel start (skipModifiers c.rest.length c)
        else if (skipModifiers c.rest.length c).isWord "const" then
          pure ((skipModifiers c.rest.length c).plainDeclaration .constDecl start)
        else .error ((skipModifiers c.rest.length c).unexpected .declaration)
      | .varDecl => c.varStatement start
      | .funcDecl => functionIn fuel start c
      | .classDecl => classIn fuel start c
      | .ifStmt => ifStatementIn fuel start c
      | .forStmt => forStatementIn fuel start c
      | .whileStmt => whileStatementIn fuel start c
      | .matchStmt => matchStatementIn fuel start c
      | .returnStmt => c.returnStatement start
      | .orphan => .error (c.unexpected .matchingIf)
      | .expression => c.expressionStatement start := by
  cases ho : opening c.peek with
  | plain kind =>
    have hk := word_of_opening ho nofun
    exact .done (reaches_skipToStatementEnd c) (length_skipToStatementEnd_lt hk)
  | keyword =>
    have hk := word_of_opening ho nofun
    refine .after (reaches_advance c) (.ended (.here ?_))
    exact length_advance_lt (by simp [hk])
  | modifier =>
    have hlt : (skipModifiers c.rest.length c).rest.length < c.rest.length :=
      length_skipModifiers_lt (Nat.le_refl _) (isModifier_of_opening ho)
    refine .after (reaches_skipModifiers c.rest.length c) ?_
    generalize skipModifiers c.rest.length c = c₁ at hlt
    refine .ite (fun _ => ?_) fun _ => .ite (fun _ => ?_) fun _ => .ite (fun _ => ?_) fun _ =>
      .unexpected _ _
    · exact (varStatement_advances _ start c₁).mono (Nat.le_refl _) (Nat.le_of_lt hlt)
    · exact ((ih c₁ hlt).function start).mono (by omega) (Nat.le_of_lt hlt)
    · exact .done (reaches_skipToStatementEnd c₁)
        (Nat.lt_of_le_of_lt (length_skipToStatementEnd_le c₁) hlt)
  | varDecl => exact varStatement_advances _ start c
  | funcDecl => exact (functionIn_advances ih start).within (by omega)
  | classDecl => exact (classIn_advances ih start).within (by omega)
  | ifStmt => exact ifStatementIn_advances ih start
  | forStmt => exact (forStatementIn_advances ih start).within (by omega)
  | whileStmt => exact (whileStatementIn_advances ih start).within (by omega)
  | matchStmt => exact (matchStatementIn_advances ih start).within (by omega)
  | returnStmt => exact returnStatement_advances (word_of_opening ho nofun) _ start
  | orphan => exact .unexpected _ _
  | expression => exact expressionStatement_advances _ start c

theorem statementIn_advances : Advances c (8 * c.rest.length + 3) c.rest.length Prod.snd
    fun fuel => statementIn fuel c := by
  refine .enter (by simp [statementIn]) ?_
  simp only [statementIn]
  have hann := (annotations_advances c).fixed (Nat.le_refl _)
  refine .bind (hann.within (Nat.zero_le _)) ?_
  rintro ⟨ended, c₁⟩ ⟨_, hok⟩ hlen
  refine .ite (fun hended => ?_) fun _ => ?_
  · rcases annotations_eq_or_lt hok with ⟨-, hnot⟩ | ⟨hlt, -⟩
    · cases hnot.symm.trans hended
    · exact .here hlt
  · have hle : c₁.rest.length ≤ c.rest.length := Nat.le_of_lt_succ hlen
    have later : ∀ c', c'.rest.length < c₁.rest.length → StatementsAdvance c' :=
      fun c' hlt => ih c' (Nat.lt_of_lt_of_le hlt hle)
    exact (opened_advances later _).mono (by omega) hle

theorem lineIn_advances : Advances c (8 * c.rest.length + 4) c.rest.length Prod.snd
    fun fuel => lineIn fuel c := by
  refine .enter (by simp [lineIn]) ?_
  simp only [lineIn]
  refine .part (statementIn_advances ih) fun item c₁ hlen => ?_
  refine .ite (fun hop => ?_) fun _ => .here hlen
  have hlt := Nat.lt_trans (length_advance_isOp hop) hlen
  refine .after (reaches_advance c₁) (.ite (fun _ => .here hlt) fun _ => ?_)
  refine .part ((ih _ hlt).line.within (by omega)) fun items c₂ hlen₂ => ?_
  exact .here (Nat.lt_trans hlen₂ hlt)

theorem blockIn_advances (inBlock : Bool) : Advances c (8 * c.rest.length + 4) (c.rest.length + 1)
    Prod.snd fun fuel => blockIn fuel inBlock c := by
  refine .enter (by simp [blockIn]) ?_
  simp only [blockIn]
  have hle := length_skipNewlines_le c
  refine .after (reaches_skipNewlines c) ?_
  generalize c.skipNewlines = c₁ at hle
  have later : ∀ c', c'.rest.length < c₁.rest.length → StatementsAdvance c' :=
    fun c' hlt => ih c' (Nat.lt_of_lt_of_le hlt hle)
  split
  · exact .here (Nat.lt_succ_of_le hle)
  · next hk =>
    have hlt := length_advance_lt (c := c₁) (by simp [hk])
    refine .after (reaches_advance c₁) (.ite (fun _ => .here (by omega)) fun _ => ?_)
    exact ((later _ hlt).block inBlock).mono (by omega) (by omega)
  · next hk =>
    have hlt := length_advance_lt (c := c₁) (by simp [hk])
    refine .after (reaches_advance c₁) ?_
    refine .part (((later _ hlt).block true).within (by omega)) fun nested c₂ hlen₂ => ?_
    refine .part (((ih c₂ (by omega)).block inBlock).within (by omega)) fun more c₃ hlen₃ => ?_
    exact .here (by omega)
  · refine .part ((statementIn_advances later).within (by omega)) fun item c₂ hlen₂ => ?_
    refine .part (((later c₂ hlen₂).block inBlock).within (by omega)) fun more c₃ hlen₃ => ?_
    exact .here (by omega)

theorem suiteIn_advances : Advances c (8 * c.rest.length + 5) c.rest.length Prod.snd
    fun fuel => suiteIn fuel c := by
  refine .enter (by simp [suiteIn]) ?_
  simp only [suiteIn]
  refine .ite (fun hnewline => ?_) fun _ => ?_
  · have hlt := length_advance_lt (c := c) (by simp [hnewline])
    refine .after (reaches_advance c) (.ite (fun hindent => ?_) fun _ => .here hlt)
    have hlt₂ := Nat.lt_of_le_of_lt (length_advance_le c.advance) hlt
    refine .after (reaches_advance _) ?_
    exact ((ih _ hlt₂).block true).mono (by omega) (by omega)
  · refine .part (lineIn_advances ih) fun items c₁ hlen => ?_
    split
    · exact .done (reaches_advance c₁) (Nat.lt_of_le_of_lt (length_advance_le c₁) hlen)
    · exact .here hlen

end Rules

/-- A rule only enters others at the same place down to a statement, and at later places any. -/
theorem statementsAdvance (c : Cursor) : StatementsAdvance c := by
  induction hn : c.rest.length using Nat.strongRecOn generalizing c with
  | ind n ih =>
    have later : ∀ c', c'.rest.length < c.rest.length → StatementsAdvance c' :=
      fun c' hlt => ih _ (hn ▸ hlt) c' rfl
    exact {
      function := functionIn_advances later
      class_ := classIn_advances later
      forStatement := forStatementIn_advances later
      whileStatement := whileStatementIn_advances later
      matchStatement := matchStatementIn_advances later
      matchBranches := matchBranchesIn_advances later
      branch := branchIn_advances later
      branches := branchesIn_advances later
      ifStatement := ifStatementIn_advances later
      statement := statementIn_advances later
      line := lineIn_advances later
      block := blockIn_advances later
      suite := suiteIn_advances later }

end Cursor

end Phrasebook
