import Phrasebook.Proofs.Grammar.Alike
import Phrasebook.Proofs.Grammar.Statement

/-!
Reading statements from alike lexemes.

Whatever a rule passes over, it passes the same lexemes on both sides; so statements that are read from
alike lexemes are alike, and so are whole scripts (`Cursor.Alike.statements`).
-/
namespace Phrasebook

namespace Cursor

open Grammar Node

variable {φ : Shift} {c c' : Cursor} {l l' : Lexeme} {r r' : List Lexeme} {last depth : Nat}

theorem Alike.passWhile {p : Lexeme → Bool} (hp : ∀ {l l'}, Lexeme.Alike φ l l' → p l' = p l)
    (h : Alike φ ⟨r, last⟩ ⟨r', φ.carry last⟩) :
    Alike φ (passWhile p last r) (passWhile p (φ.carry last) r') := by
  induction r generalizing r' last with
  | nil =>
    cases h.rest
    exact h
  | cons l r ih =>
    obtain ⟨l', r', hl, -, rfl⟩ := List.forall₂_cons_left_iff.1 h.rest
    simp only [Cursor.passWhile, hl.kind, hp hl]
    split
    · next hpass =>
      rw [endAfter_alike hl]
      exact ih (h.pass (by simp at hpass; exact hpass.1))
    · exact h

/-- A cursor with its last end written out. -/
theorem Alike.opened (h : Alike φ c c') :
    Alike φ ⟨c.rest, c.lastEnd⟩ ⟨c'.rest, φ.carry c.lastEnd⟩ :=
  ⟨h.rest, h.closed, rfl, h.reached⟩

theorem Alike.skipNewlines (h : Alike φ c c') : Alike φ c.skipNewlines c'.skipNewlines := by
  unfold Cursor.skipNewlines
  rw [h.lastEnd]
  exact Alike.passWhile (fun hl => by rw [hl.kind, hl.isOp]) h.opened

theorem endsStatement_alike (hl : Lexeme.Alike φ l l') : endsStatement l' = endsStatement l := by
  simp only [endsStatement, hl.kind, hl.isOp]

theorem Alike.atStatementEnd (h : Alike φ c c') : c'.atStatementEnd = c.atStatementEnd :=
  endsStatement_alike h.peek

theorem Alike.expectStatementEnd (h : Alike φ c c') :
    Agree Eq c.expectStatementEnd c'.expectStatementEnd := by
  unfold Cursor.expectStatementEnd
  rw [h.atStatementEnd]
  split
  · exact .ok rfl
  · exact .error

theorem Alike.skipToStatementEnd (h : Alike φ c c') :
    Alike φ c.skipToStatementEnd c'.skipToStatementEnd := by
  unfold Cursor.skipToStatementEnd
  rw [h.lastEnd]
  exact Alike.passWhile (fun hl => by rw [endsStatement_alike hl]) h.opened

theorem Alike.toColon (h : Alike φ ⟨r, last⟩ ⟨r', φ.carry last⟩) :
    Agree (Alike φ) (toColon depth last r) (toColon depth (φ.carry last) r') := by
  induction r generalizing r' last depth with
  | nil =>
    cases h.rest
    exact .error
  | cons l r ih =>
    obtain ⟨l', r', hl, -, rfl⟩ := List.forall₂_cons_left_iff.1 h.rest
    simp only [Cursor.toColon, hl.kind, hl.isOp, hl.opens, hl.closes]
    split
    · exact .error
    · next hend =>
      split
      · exact .ok h
      · rw [endAfter_alike hl]
        exact ih (h.pass fun heof => hend (.inr heof))

theorem Alike.skipToColon (h : Alike φ c c') :
    Agree (Alike φ) c.skipToColon c'.skipToColon := by
  unfold Cursor.skipToColon
  rw [h.lastEnd]
  exact h.opened.toColon

theorem Alike.pastBrackets (h : Alike φ ⟨r, last⟩ ⟨r', φ.carry last⟩) :
    Alike φ (pastBrackets depth last r) (pastBrackets depth (φ.carry last) r') := by
  induction r generalizing r' last depth with
  | nil =>
    cases h.rest
    exact h
  | cons l r ih =>
    obtain ⟨l', r', hl, -, rfl⟩ := List.forall₂_cons_left_iff.1 h.rest
    simp only [Cursor.pastBrackets, hl.kind, hl.opens, hl.closes, endAfter_alike hl]
    split
    · exact h
    · next heof =>
      have hnext := h.pass heof
      split
      · exact ih hnext
      · split
        · split
          · exact hnext
          · exact ih hnext
        · exact ih hnext

theorem Alike.skipBrackets (h : Alike φ c c') : Alike φ c.skipBrackets c'.skipBrackets := by
  unfold Cursor.skipBrackets
  rw [h.lastEnd]
  exact h.opened.pastBrackets

theorem Alike.pastBlock (h : Alike φ ⟨r, last⟩ ⟨r', φ.carry last⟩) :
    Alike φ (pastBlock depth last r) (pastBlock depth (φ.carry last) r') := by
  induction r generalizing r' last depth with
  | nil =>
    cases h.rest
    exact h
  | cons l r ih =>
    obtain ⟨l', r', hl, -, rfl⟩ := List.forall₂_cons_left_iff.1 h.rest
    simp only [Cursor.pastBlock, hl.kind, endAfter_alike hl]
    cases hk : l.kind with
    | eof => exact h
    | indent =>
      have hnext := h.pass (by simp [hk])
      simp only [endAfter, hk, Lexeme.Kind.isSolid] at hnext
      exact ih hnext
    | dedent =>
      have hnext := h.pass (by simp [hk])
      simp only [endAfter, hk, Lexeme.Kind.isSolid] at hnext
      simp only
      split
      · exact hnext
      · exact ih hnext
    | word | number | str q | op | newline => exact ih (h.pass (by simp [hk]))

theorem Alike.skipAccessors (h : Alike φ c c') : Alike φ c.skipAccessors c'.skipAccessors := by
  have ha := h.advance
  unfold Cursor.skipAccessors
  simp only [h.kind, ha.kind]
  split
  · split
    · rw [ha.lastEnd]
      exact ha.opened.pastBlock
    · exact ha
  · exact h.skipToStatementEnd

theorem Alike.skipOptionalBrackets (h : Alike φ c c') :
    Alike φ c.skipOptionalBrackets c'.skipOptionalBrackets := by
  unfold Cursor.skipOptionalBrackets
  rw [h.isOp]
  split
  · exact h.skipBrackets
  · exact h

theorem Alike.skipAnnotationBreaks (h : Alike φ c c') :
    Alike φ c.skipAnnotationBreaks c'.skipAnnotationBreaks := by
  have hcond : (c'.kind = .newline ∧ c'.peekNext.kind = .word ∧
        annotated.contains c'.peekNext.text = true) ↔
      (c.kind = .newline ∧ c.peekNext.kind = .word ∧
        annotated.contains c.peekNext.text = true) := by
    rw [h.kind, h.peekNext.kind]
    refine and_congr_right fun _ => and_congr_right fun hk => ?_
    rw [h.peekNext.text (by simp [hk])]
  unfold Cursor.skipAnnotationBreaks
  simp only [hcond]
  split
  · exact h.advance
  · exact h

theorem Alike.annotations {fuel : Nat} (h : Alike φ c c') :
    Agree (Found φ Eq) (annotations fuel c) (annotations fuel c') := by
  induction fuel generalizing c c' with
  | zero => exact .ok ⟨rfl, h⟩
  | succ fuel ih =>
    simp only [Cursor.annotations, h.isOp]
    split
    · refine h.advance.expectWord.bind ?_
      rintro ⟨name, c₁⟩ ⟨name', c₁'⟩ ⟨-, h₁⟩
      have h₂ := h₁.skipOptionalBrackets.skipAnnotationBreaks
      simp only [h₂.atStatementEnd]
      split
      · exact .ok ⟨rfl, h₂⟩
      · exact ih h₂
    · exact .ok ⟨rfl, h⟩

theorem isModifier_alike (hl : Lexeme.Alike φ l l') : isModifier l' = isModifier l := by
  unfold isModifier
  rw [hl.kind]
  by_cases hk : l.kind = .word
  · rw [hl.text (by simp [hk])]
  · rw [beq_eq_false_iff_ne.2 hk]
    rfl

theorem Alike.skipModifiers (h : Alike φ c c') (fuel : Nat) :
    Alike φ (skipModifiers fuel c) (skipModifiers fuel c') := by
  induction fuel generalizing c c' with
  | zero => exact h
  | succ fuel ih =>
    simp only [Cursor.skipModifiers, isModifier_alike h.peek]
    split
    · exact ih h.advance.skipOptionalBrackets
    · exact h

theorem Alike.dottedTail {fuel : Nat} (h : Alike φ c c') :
    Agree (Alike φ) (dottedTail fuel c) (dottedTail fuel c') := by
  induction fuel generalizing c c' with
  | zero => exact .ok h
  | succ fuel ih =>
    simp only [Cursor.dottedTail, h.isOp]
    split
    · refine h.advance.expectWord.bind ?_
      rintro ⟨name, c₁⟩ ⟨name', c₁'⟩ ⟨-, h₁⟩
      exact ih h₁
    · exact .ok h

theorem Alike.typeHint (h : Alike φ c c') : Agree (Alike φ) c.typeHint c'.typeHint := by
  unfold Cursor.typeHint
  refine h.expectWord.bind ?_
  rintro ⟨name, c₁⟩ ⟨name', c₁'⟩ ⟨-, h₁⟩
  simp only [h₁.rest.length_eq]
  refine h₁.dottedTail.bind ?_
  intro c₂ c₂' h₂
  simp only [h₂.isOp]
  split
  · exact .ok h₂.skipBrackets
  · exact .ok h₂

theorem Alike.plainDeclaration {kind : Node.Kind} {start : Nat} (h : Alike φ c c')
    (hs : start ∈ φ.places) (hsort : kind.isItem = true) (htakes : kind.takes [] = true) :
    Found φ (Node.Alike φ Kind.isItem) (c.plainDeclaration kind start)
      (c'.plainDeclaration kind (φ.carry start)) := by
  refine ⟨h.skipToStatementEnd.leaf_from hs hsort htakes ?_, h.skipToStatementEnd⟩
  cases kind <;> first | rfl | cases hsort

/-- At most one operand. -/
def AlikeOptional (φ : Shift) (ns ns' : List Node) : Prop :=
  AlikeAll φ Kind.isOperand ns ns' ∧ ns.length ≤ 1

theorem AlikeOptional.takes {ns ns' : List Node} {kind : Node.Kind} (h : AlikeOptional φ ns ns')
    (hk : ∀ ks, kind.takes ks = (decide (ks.length ≤ 1) && ks.all Kind.isOperand)) :
    kind.takes (ns.map (·.kind)) = true := by
  rw [hk, h.1.all_sort]
  simpa using h.2

theorem Alike.initializer (h : Alike φ c c') :
    Agree (Found φ (AlikeOptional φ)) c.initializer c'.initializer := by
  unfold Cursor.initializer
  simp only [h.isOp]
  split
  · refine h.advance.expression.bind ?_
    rintro ⟨value, c₁⟩ ⟨value', c₁'⟩ ⟨hvalue, h₁⟩
    exact .ok ⟨⟨.cons hvalue .nil, Nat.le_refl _⟩, h₁⟩
  · exact .ok ⟨⟨.nil, Nat.zero_le _⟩, h⟩

theorem Alike.varStatement {start : Nat} (h : Alike φ c c') (hs : start ∈ φ.places) :
    AgreeOn φ Kind.isItem (c.varStatement start) (c'.varStatement (φ.carry start)) := by
  unfold Cursor.varStatement
  refine h.advance.expectWord.bind ?_
  rintro ⟨name, c₁⟩ ⟨name', c₁'⟩ ⟨rfl, h₁⟩
  -- What follows the type, if there is one.
  have hgoOn : ∀ c₂ c₂', Alike φ c₂ c₂' → AgreeOn φ Kind.isItem
      (do
        let r ← c₂.initializer
        let c := if r.2.isWord "setget" then r.2.skipToStatementEnd else r.2
        let node : Node := ⟨.varDecl name, c.spanFrom start, r.1⟩
        if c.isOp ":" then return (node, c.advance.skipAccessors)
        else
          c.expectStatementEnd
          return (node, c))
      (do
        let r ← c₂'.initializer
        let c := if r.2.isWord "setget" then r.2.skipToStatementEnd else r.2
        let node : Node := ⟨.varDecl name, c.spanFrom (φ.carry start), r.1⟩
        if c.isOp ":" then return (node, c.advance.skipAccessors)
        else
          c.expectStatementEnd
          return (node, c)) := by
    intro c₂ c₂' h₂
    refine h₂.initializer.bind ?_
    rintro ⟨value, c₃⟩ ⟨value', c₃'⟩ ⟨hvalue, h₃⟩
    have h₄ : Alike φ (if c₃.isWord "setget" then c₃.skipToStatementEnd else c₃)
        (if c₃'.isWord "setget" then c₃'.skipToStatementEnd else c₃') := by
      rw [h₃.isWord]
      split
      · exact h₃.skipToStatementEnd
      · exact h₃
    simp only
    generalize (if c₃.isWord "setget" then c₃.skipToStatementEnd else c₃) = c₄ at h₄ ⊢
    generalize (if c₃'.isWord "setget" then c₃'.skipToStatementEnd else c₃') = c₄' at h₄ ⊢
    have hnode : Node.Alike φ Kind.isItem ⟨.varDecl name, c₄.spanFrom start, value⟩
        ⟨.varDecl name, c₄'.spanFrom (φ.carry start), value'⟩ :=
      h₄.node_from hs rfl hvalue.1 (hvalue.takes fun _ => rfl) rfl
    rw [h₄.isOp]
    split
    · exact .ok ⟨hnode, h₄.advance.skipAccessors⟩
    · refine h₄.expectStatementEnd.bind ?_
      rintro ⟨⟩ ⟨⟩ -
      exact .ok ⟨hnode, h₄⟩
  simp only [h₁.isOp, h₁.peekNext.kind]
  split
  · exact h₁.advance.typeHint.bind hgoOn
  · exact hgoOn _ _ h₁

theorem Alike.returnStatement {start : Nat} (h : Alike φ c c') (hs : start ∈ φ.places) :
    AgreeOn φ Kind.isItem (c.returnStatement start) (c'.returnStatement (φ.carry start)) := by
  have ha := h.advance
  have hend : ∀ a a' : List Node × Cursor, Found φ (AlikeOptional φ) a a' →
      AgreeOn φ Kind.isItem
        (do
          a.2.expectStatementEnd
          return (⟨.returnStmt, a.2.spanFrom start, a.1⟩, a.2))
        (do
          a'.2.expectStatementEnd
          return (⟨.returnStmt, a'.2.spanFrom (φ.carry start), a'.1⟩, a'.2)) := by
    rintro ⟨value, c₁⟩ ⟨value', c₁'⟩ ⟨hvalue, h₁⟩
    refine h₁.expectStatementEnd.bind ?_
    rintro ⟨⟩ ⟨⟩ -
    exact .ok ⟨h₁.node_from hs rfl hvalue.1 (hvalue.takes fun _ => rfl) rfl, h₁⟩
  unfold Cursor.returnStatement
  simp only [ha.atStatementEnd]
  split
  · exact hend ([], c.advance) ([], c'.advance) ⟨⟨.nil, Nat.zero_le _⟩, ha⟩
  · refine ha.expression.bind ?_
    rintro ⟨value, c₁⟩ ⟨value', c₁'⟩ ⟨hvalue, h₁⟩
    exact hend ([value], c₁) ([value'], c₁') ⟨⟨.cons hvalue .nil, Nat.le_refl _⟩, h₁⟩

theorem Alike.expressionStatement {start : Nat} (h : Alike φ c c') (hs : start ∈ φ.places) :
    AgreeOn φ Kind.isItem (c.expressionStatement start)
      (c'.expressionStatement (φ.carry start)) := by
  unfold Cursor.expressionStatement
  refine h.expression.bind ?_
  rintro ⟨target, c₁⟩ ⟨target', c₁'⟩ ⟨htarget, h₁⟩
  simp only [h₁.peek.kind]
  by_cases hk : c₁.peek.kind = .op
  · simp only [h₁.peek.text (by simp [hk])]
    split
    · refine h₁.advance.expression.bind ?_
      rintro ⟨value, c₂⟩ ⟨value', c₂'⟩ ⟨hvalue, h₂⟩
      refine h₂.expectStatementEnd.bind ?_
      rintro ⟨⟩ ⟨⟩ -
      exact .ok ⟨h₂.node_from hs rfl (.cons htarget (.cons hvalue .nil))
        (by simp [Kind.takes, htarget.sort, hvalue.sort]) rfl, h₂⟩
    · refine h₁.expectStatementEnd.bind ?_
      rintro ⟨⟩ ⟨⟩ -
      exact .ok ⟨h₁.node_from hs rfl (.cons htarget .nil) (by simp [Kind.takes, htarget.sort]) rfl, h₁⟩
  · simp only [hk, false_and, if_false]
    refine h₁.expectStatementEnd.bind ?_
    rintro ⟨⟩ ⟨⟩ -
    exact .ok ⟨h₁.node_from hs rfl (.cons htarget .nil) (by simp [Kind.takes, htarget.sort]) rfl, h₁⟩

theorem opening_alike (hl : Lexeme.Alike φ l l') : opening l' = opening l := by
  simp only [opening, plainDeclaration?, isKeyword, isModifier_alike hl, hl.isWord]

theorem isItem_of_plainDeclaration? {kind : Node.Kind} (h : plainDeclaration? l = some kind) :
    kind.isItem = true ∧ kind.takes [] = true := by
  unfold plainDeclaration? at h
  repeat' split at h
  all_goals cases h
  all_goals exact ⟨rfl, rfl⟩

/-- The branches of a conditional after the first. -/
def AlikeElse (φ : Shift) (ns ns' : List Node) : Prop :=
  AlikeAll φ Kind.isBranch ns ns' ∧ Kind.isElseRow (ns.map (·.kind)) = true

theorem alike_branch {which : Branch} {n n' : Node}
    (h : Node.Alike φ (· == .branch which) n n') :
    Node.Alike φ Kind.isBranch n n' ∧ n.kind = .branch which := by
  have hkind : n.kind = .branch which := by simpa using h.sort
  exact ⟨⟨h.eq, h.formed, by simp [hkind, Kind.isBranch]⟩, hkind⟩

/-- Within a bound, the rules of statements go the same way on alike lexemes. -/
structure StatementsAlikeWithin (φ : Shift) (fuel : Nat) : Prop where
  block : ∀ {c c'} inBlock, Alike φ c c' →
    AgreeAll φ Kind.isItem (blockIn fuel inBlock c) (blockIn fuel inBlock c')
  suite : ∀ {c c'}, Alike φ c c' → AgreeAll φ Kind.isItem (suiteIn fuel c) (suiteIn fuel c')
  line : ∀ {c c'}, Alike φ c c' → AgreeAll φ Kind.isItem (lineIn fuel c) (lineIn fuel c')
  statement : ∀ {c c'}, Alike φ c c' →
    AgreeOn φ Kind.isItem (statementIn fuel c) (statementIn fuel c')
  function : ∀ {c c' start}, Alike φ c c' → start ∈ φ.places →
    AgreeOn φ Kind.isItem (functionIn fuel start c) (functionIn fuel (φ.carry start) c')
  class_ : ∀ {c c' start}, Alike φ c c' → start ∈ φ.places →
    AgreeOn φ Kind.isItem (classIn fuel start c) (classIn fuel (φ.carry start) c')
  ifStatement : ∀ {c c' start}, Alike φ c c' → start ∈ φ.places →
    AgreeOn φ Kind.isItem (ifStatementIn fuel start c) (ifStatementIn fuel (φ.carry start) c')
  branches : ∀ {c c'}, Alike φ c c' →
    Agree (Found φ (AlikeElse φ)) (branchesIn fuel c) (branchesIn fuel c')
  branch : ∀ {c c'} which, Alike φ c c' →
    AgreeOn φ (· == .branch which) (branchIn fuel which c) (branchIn fuel which c')
  forStatement : ∀ {c c' start}, Alike φ c c' → start ∈ φ.places →
    AgreeOn φ Kind.isItem (forStatementIn fuel start c) (forStatementIn fuel (φ.carry start) c')
  whileStatement : ∀ {c c' start}, Alike φ c c' → start ∈ φ.places →
    AgreeOn φ Kind.isItem (whileStatementIn fuel start c)
      (whileStatementIn fuel (φ.carry start) c')
  matchStatement : ∀ {c c' start}, Alike φ c c' → start ∈ φ.places →
    AgreeOn φ Kind.isItem (matchStatementIn fuel start c)
      (matchStatementIn fuel (φ.carry start) c')
  matchBranches : ∀ {c c'}, Alike φ c c' →
    AgreeAll φ (· == .matchBranch) (matchBranchesIn fuel c) (matchBranchesIn fuel c')

variable {fuel start : Nat}

theorem StatementsAlikeWithin.blockIn_succ (ih : StatementsAlikeWithin φ fuel) (inBlock : Bool)
    (h : Alike φ c c') :
    AgreeAll φ Kind.isItem (blockIn (fuel + 1) inBlock c) (blockIn (fuel + 1) inBlock c') := by
  have hskip := h.skipNewlines
  rw [blockIn, blockIn]
  simp only [hskip.kind]
  cases hk : c.skipNewlines.kind with
  | eof => exact .ok ⟨.nil, hskip⟩
  | dedent =>
    simp only
    split
    · exact .ok ⟨.nil, hskip.advance⟩
    · exact ih.block inBlock hskip.advance
  | indent =>
    refine (ih.block true hskip.advance).bind ?_
    rintro ⟨nested, c₁⟩ ⟨nested', c₁'⟩ ⟨hnested, h₁⟩
    refine (ih.block inBlock h₁).bind ?_
    rintro ⟨more, c₂⟩ ⟨more', c₂'⟩ ⟨hmore, h₂⟩
    exact .ok ⟨hnested.append hmore, h₂⟩
  | word | number | str q | op | newline =>
    refine (ih.statement hskip).bind ?_
    rintro ⟨item, c₁⟩ ⟨item', c₁'⟩ ⟨hitem, h₁⟩
    refine (ih.block inBlock h₁).bind ?_
    rintro ⟨more, c₂⟩ ⟨more', c₂'⟩ ⟨hmore, h₂⟩
    exact .ok ⟨.cons hitem hmore, h₂⟩

theorem StatementsAlikeWithin.suiteIn_succ (ih : StatementsAlikeWithin φ fuel)
    (h : Alike φ c c') :
    AgreeAll φ Kind.isItem (suiteIn (fuel + 1) c) (suiteIn (fuel + 1) c') := by
  have ha := h.advance
  rw [suiteIn, suiteIn]
  simp only [h.kind, ha.kind]
  split
  · split
    · exact ih.block true ha.advance
    · exact .ok ⟨.nil, ha⟩
  · refine (ih.line h).bind ?_
    rintro ⟨items, c₁⟩ ⟨items', c₁'⟩ ⟨hitems, h₁⟩
    simp only [h₁.kind]
    split
    · exact .ok ⟨hitems, h₁.advance⟩
    · exact .ok ⟨hitems, h₁⟩

theorem StatementsAlikeWithin.lineIn_succ (ih : StatementsAlikeWithin φ fuel)
    (h : Alike φ c c') :
    AgreeAll φ Kind.isItem (lineIn (fuel + 1) c) (lineIn (fuel + 1) c') := by
  rw [lineIn, lineIn]
  refine (ih.statement h).bind ?_
  rintro ⟨item, c₁⟩ ⟨item', c₁'⟩ ⟨hitem, h₁⟩
  have ha := h₁.advance
  simp only [h₁.isOp, ha.atStatementEnd]
  split
  · split
    · exact .ok ⟨.cons hitem .nil, ha⟩
    · refine (ih.line ha).bind ?_
      rintro ⟨items, c₂⟩ ⟨items', c₂'⟩ ⟨hitems, h₂⟩
      exact .ok ⟨.cons hitem hitems, h₂⟩
  · exact .ok ⟨.cons hitem .nil, h₁⟩

theorem StatementsAlikeWithin.functionIn_succ (ih : StatementsAlikeWithin φ fuel)
    (h : Alike φ c c') (hs : start ∈ φ.places) :
    AgreeOn φ Kind.isItem (functionIn (fuel + 1) start c)
      (functionIn (fuel + 1) (φ.carry start) c') := by
  have ha := h.advance
  have hname : Found φ Eq
      (if c.advance.kind = .word then (c.advance.peek.text, c.advance.advance) else ([], c.advance))
      (if c'.advance.kind = .word then (c'.advance.peek.text, c'.advance.advance)
        else ([], c'.advance)) := by
    rw [ha.kind]
    split
    · next hk =>
      have hk : c.advance.peek.kind = .word := hk
      rw [ha.peek.text (by simp [hk])]
      exact ⟨rfl, ha.advance⟩
    · exact ⟨rfl, ha⟩
  rw [functionIn, functionIn]
  generalize (if c.advance.kind = .word then (c.advance.peek.text, c.advance.advance)
    else ([], c.advance)) = a at hname ⊢
  generalize (if c'.advance.kind = .word then (c'.advance.peek.text, c'.advance.advance)
    else ([], c'.advance)) = a' at hname ⊢
  obtain ⟨rfl, h₁⟩ := hname
  refine h₁.skipToColon.bind ?_
  intro c₂ c₂' h₂
  refine (ih.suite h₂.advance).bind ?_
  rintro ⟨body, c₃⟩ ⟨body', c₃'⟩ ⟨hbody, h₃⟩
  exact .ok ⟨h₃.node_from hs rfl hbody hbody.all_sort rfl, h₃⟩

theorem StatementsAlikeWithin.classIn_succ (ih : StatementsAlikeWithin φ fuel)
    (h : Alike φ c c') (hs : start ∈ φ.places) :
    AgreeOn φ Kind.isItem (classIn (fuel + 1) start c)
      (classIn (fuel + 1) (φ.carry start) c') := by
  rw [classIn, classIn]
  refine h.advance.expectWord.bind ?_
  rintro ⟨name, c₁⟩ ⟨name', c₁'⟩ ⟨rfl, h₁⟩
  refine h₁.skipToColon.bind ?_
  intro c₂ c₂' h₂
  refine (ih.suite h₂.advance).bind ?_
  rintro ⟨body, c₃⟩ ⟨body', c₃'⟩ ⟨hbody, h₃⟩
  exact .ok ⟨h₃.node_from hs rfl hbody hbody.all_sort rfl, h₃⟩

theorem StatementsAlikeWithin.ifStatementIn_succ (ih : StatementsAlikeWithin φ fuel)
    (h : Alike φ c c') (hs : start ∈ φ.places) :
    AgreeOn φ Kind.isItem (ifStatementIn (fuel + 1) start c)
      (ifStatementIn (fuel + 1) (φ.carry start) c') := by
  rw [ifStatementIn, ifStatementIn]
  refine (ih.branch .ifBranch h).bind ?_
  rintro ⟨first, c₁⟩ ⟨first', c₁'⟩ ⟨hfirst, h₁⟩
  refine (ih.branches h₁).bind ?_
  rintro ⟨others, c₂⟩ ⟨others', c₂'⟩ ⟨hothers, h₂⟩
  obtain ⟨hbranch, hkind⟩ := alike_branch hfirst
  refine .ok ⟨h₂.node_from hs rfl (.cons hbranch hothers.1) ?_ rfl, h₂⟩
  simp [Kind.takes, hkind, hothers.2]

theorem StatementsAlikeWithin.branchesIn_succ (ih : StatementsAlikeWithin φ fuel)
    (h : Alike φ c c') :
    Agree (Found φ (AlikeElse φ)) (branchesIn (fuel + 1) c) (branchesIn (fuel + 1) c') := by
  rw [branchesIn, branchesIn]
  simp only [h.isWord]
  split
  · refine (ih.branch .elifBranch h).bind ?_
    rintro ⟨n, c₁⟩ ⟨n', c₁'⟩ ⟨hn, h₁⟩
    refine (ih.branches h₁).bind ?_
    rintro ⟨others, c₂⟩ ⟨others', c₂'⟩ ⟨hothers, h₂⟩
    obtain ⟨hn, hkind⟩ := alike_branch hn
    exact .ok ⟨⟨.cons hn hothers.1, by simp [hkind, Kind.isElseRow, hothers.2]⟩, h₂⟩
  · split
    · refine (ih.branch .elseBranch h).bind ?_
      rintro ⟨n, c₁⟩ ⟨n', c₁'⟩ ⟨hn, h₁⟩
      obtain ⟨hn, hkind⟩ := alike_branch hn
      exact .ok ⟨⟨.cons hn .nil, by simp [hkind, Kind.isElseRow]⟩, h₁⟩
    · exact .ok ⟨⟨.nil, rfl⟩, h⟩

theorem StatementsAlikeWithin.branchIn_succ (ih : StatementsAlikeWithin φ fuel) (which : Branch)
    (h : Alike φ c c') :
    AgreeOn φ (· == .branch which) (branchIn (fuel + 1) which c)
      (branchIn (fuel + 1) which c') := by
  have hs := h.peek.start
  rw [branchIn, branchIn]
  simp only [h.start]
  split
  · next hwhich =>
    subst hwhich
    refine (h.advance.expectOp ":").bind ?_
    intro c₁ c₁' h₁
    refine (ih.suite h₁).bind ?_
    rintro ⟨body, c₂⟩ ⟨body', c₂'⟩ ⟨hbody, h₂⟩
    exact .ok ⟨h₂.node_from hs rfl hbody hbody.all_sort rfl, h₂⟩
  · next hwhich =>
    refine h.advance.expression.bind ?_
    rintro ⟨condition, c₁⟩ ⟨condition', c₁'⟩ ⟨hcondition, h₁⟩
    refine (h₁.expectOp ":").bind ?_
    intro c₂ c₂' h₂
    refine (ih.suite h₂).bind ?_
    rintro ⟨body, c₃⟩ ⟨body', c₃'⟩ ⟨hbody, h₃⟩
    refine .ok ⟨h₃.node_headed hs (by simp) hcondition hbody ?_ rfl, h₃⟩
    cases which with
    | elseBranch => exact absurd rfl hwhich
    | ifBranch | elifBranch => exact fun _ => rfl

theorem StatementsAlikeWithin.forStatementIn_succ (ih : StatementsAlikeWithin φ fuel)
    (h : Alike φ c c') (hs : start ∈ φ.places) :
    AgreeOn φ Kind.isItem (forStatementIn (fuel + 1) start c)
      (forStatementIn (fuel + 1) (φ.carry start) c') := by
  rw [forStatementIn, forStatementIn]
  refine h.advance.expectWord.bind ?_
  rintro ⟨name, c₁⟩ ⟨name', c₁'⟩ ⟨-, h₁⟩
  have hgoOn : ∀ c₂ c₂', Alike φ c₂ c₂' → AgreeOn φ Kind.isItem
      (if c₂.isWord "in" then do
        let r ← c₂.advance.expression
        let c ← r.2.expectOp ":"
        let s ← suiteIn fuel c
        return (⟨.forStmt, s.2.spanFrom start, r.1 :: s.1⟩, s.2)
      else .error (c₂.unexpected (.exactly "in")))
      (if c₂'.isWord "in" then do
        let r ← c₂'.advance.expression
        let c ← r.2.expectOp ":"
        let s ← suiteIn fuel c
        return (⟨.forStmt, s.2.spanFrom (φ.carry start), r.1 :: s.1⟩, s.2)
      else .error (c₂'.unexpected (.exactly "in"))) := by
    intro c₂ c₂' h₂
    rw [h₂.isWord]
    split
    · refine h₂.advance.expression.bind ?_
      rintro ⟨iterable, c₃⟩ ⟨iterable', c₃'⟩ ⟨hiterable, h₃⟩
      refine (h₃.expectOp ":").bind ?_
      intro c₄ c₄' h₄
      refine (ih.suite h₄).bind ?_
      rintro ⟨body, c₅⟩ ⟨body', c₅'⟩ ⟨hbody, h₅⟩
      exact .ok ⟨h₅.node_headed hs rfl hiterable hbody (fun _ => rfl) rfl, h₅⟩
    · exact .error
  simp only [h₁.isOp]
  split
  · exact h₁.advance.typeHint.bind hgoOn
  · exact hgoOn _ _ h₁

theorem StatementsAlikeWithin.whileStatementIn_succ (ih : StatementsAlikeWithin φ fuel)
    (h : Alike φ c c') (hs : start ∈ φ.places) :
    AgreeOn φ Kind.isItem (whileStatementIn (fuel + 1) start c)
      (whileStatementIn (fuel + 1) (φ.carry start) c') := by
  rw [whileStatementIn, whileStatementIn]
  refine h.advance.expression.bind ?_
  rintro ⟨condition, c₁⟩ ⟨condition', c₁'⟩ ⟨hcondition, h₁⟩
  refine (h₁.expectOp ":").bind ?_
  intro c₂ c₂' h₂
  refine (ih.suite h₂).bind ?_
  rintro ⟨body, c₃⟩ ⟨body', c₃'⟩ ⟨hbody, h₃⟩
  exact .ok ⟨h₃.node_headed hs rfl hcondition hbody (fun _ => rfl) rfl, h₃⟩

theorem StatementsAlikeWithin.matchStatementIn_succ (ih : StatementsAlikeWithin φ fuel)
    (h : Alike φ c c') (hs : start ∈ φ.places) :
    AgreeOn φ Kind.isItem (matchStatementIn (fuel + 1) start c)
      (matchStatementIn (fuel + 1) (φ.carry start) c') := by
  rw [matchStatementIn, matchStatementIn]
  refine h.advance.expression.bind ?_
  rintro ⟨subject, c₁⟩ ⟨subject', c₁'⟩ ⟨hsubject, h₁⟩
  refine (h₁.expectOp ":").bind ?_
  intro c₂ c₂' h₂
  have ha := h₂.advance
  simp only [h₂.kind, ha.kind]
  split
  · split
    · refine (ih.matchBranches ha.advance).bind ?_
      rintro ⟨branches, c₃⟩ ⟨branches', c₃'⟩ ⟨hbranches, h₃⟩
      exact .ok ⟨h₃.node_headed hs rfl hsubject hbranches (fun _ => rfl) rfl, h₃⟩
    · refine .ok ⟨ha.node_headed hs rfl hsubject ?_ (fun _ => rfl) rfl, ha⟩
      exact .nil
  · exact .error

theorem StatementsAlikeWithin.matchBranchesIn_succ (ih : StatementsAlikeWithin φ fuel)
    (h : Alike φ c c') :
    AgreeAll φ (· == .matchBranch) (matchBranchesIn (fuel + 1) c)
      (matchBranchesIn (fuel + 1) c') := by
  have hskip := h.skipNewlines
  have hs := hskip.peek.start
  rw [matchBranchesIn, matchBranchesIn]
  simp only [hskip.kind]
  cases hk : c.skipNewlines.kind with
  | dedent => exact .ok ⟨.nil, hskip.advance⟩
  | eof => exact .ok ⟨.nil, hskip⟩
  | word | number | str q | op | newline | indent =>
    simp only [hskip.start]
    refine hskip.skipToColon.bind ?_
    intro c₁ c₁' h₁
    have hpattern : Node.Alike φ (· == .pattern)
        ⟨.pattern, c₁.spanFrom c.skipNewlines.peek.span.start, []⟩
        ⟨.pattern, c₁'.spanFrom (φ.carry c.skipNewlines.peek.span.start), []⟩ :=
      h₁.leaf_from hs rfl rfl rfl
    refine (ih.suite h₁.advance).bind ?_
    rintro ⟨body, c₂⟩ ⟨body', c₂'⟩ ⟨hbody, h₂⟩
    refine (ih.matchBranches h₂).bind ?_
    rintro ⟨more, c₃⟩ ⟨more', c₃'⟩ ⟨hmore, h₃⟩
    exact .ok ⟨.cons (h₂.node_headed hs rfl hpattern hbody (fun _ => rfl) rfl) hmore, h₃⟩

theorem StatementsAlikeWithin.statementIn_succ (ih : StatementsAlikeWithin φ fuel)
    (h : Alike φ c c') :
    AgreeOn φ Kind.isItem (statementIn (fuel + 1) c) (statementIn (fuel + 1) c') := by
  have hs := h.peek.start
  rw [statementIn, statementIn]
  simp only [h.start, h.rest.length_eq]
  refine h.annotations.bind ?_
  rintro ⟨ended, c₁⟩ ⟨ended', c₁'⟩ ⟨rfl, h₁⟩
  simp only [opening_alike h₁.peek]
  split
  · exact .ok ⟨h₁.leaf_from hs rfl rfl rfl, h₁⟩
  · cases ho : opening c₁.peek with
    | plain kind =>
      obtain ⟨hsort, htakes⟩ := isItem_of_plainDeclaration? (plain_of_opening ho)
      exact .ok (h₁.plainDeclaration hs hsort htakes)
    | keyword =>
      have ha := h₁.advance
      refine ha.expectStatementEnd.bind ?_
      rintro ⟨⟩ ⟨⟩ -
      exact .ok ⟨ha.leaf_from hs rfl rfl rfl, ha⟩
    | modifier =>
      have hskip := h₁.skipModifiers c₁'.rest.length
      simp only [h₁.rest.length_eq, hskip.isWord]
      split
      · exact hskip.varStatement hs
      · split
        · exact ih.function hskip hs
        · split
          · exact .ok (hskip.plainDeclaration hs rfl rfl)
          · exact .error
    | varDecl => exact h₁.varStatement hs
    | funcDecl => exact ih.function h₁ hs
    | classDecl => exact ih.class_ h₁ hs
    | ifStmt => exact ih.ifStatement h₁ hs
    | forStmt => exact ih.forStatement h₁ hs
    | whileStmt => exact ih.whileStatement h₁ hs
    | matchStmt => exact ih.matchStatement h₁ hs
    | returnStmt => exact h₁.returnStatement hs
    | orphan => exact .error
    | expression => exact h₁.expressionStatement hs

/-- By induction on the bound, which every rule hands on one less. -/
theorem statementsAlikeWithin (φ : Shift) (fuel : Nat) : StatementsAlikeWithin φ fuel := by
  induction fuel with
  | zero =>
    constructor <;> intros <;>
      simp only [blockIn, suiteIn, lineIn, statementIn, functionIn, classIn, ifStatementIn,
        branchesIn, branchIn, forStatementIn, whileStatementIn, matchStatementIn,
        matchBranchesIn] <;>
      exact .error
  | succ fuel ih =>
    exact ⟨fun inBlock h => ih.blockIn_succ inBlock h, ih.suiteIn_succ, ih.lineIn_succ,
      ih.statementIn_succ, ih.functionIn_succ, ih.classIn_succ, ih.ifStatementIn_succ,
      ih.branchesIn_succ, fun which h => ih.branchIn_succ which h, ih.forStatementIn_succ,
      ih.whileStatementIn_succ, ih.matchStatementIn_succ, ih.matchBranchesIn_succ⟩

/-- Scripts of alike lexemes have alike statements, or neither is a script. -/
theorem Alike.statements (h : Alike φ c c') :
    AgreeAll φ Kind.isItem c.statements c'.statements := by
  unfold Cursor.statements
  rw [h.rest.length_eq]
  exact (statementsAlikeWithin φ _).block false h

/-- A script of alike lexemes is a script, and its statements are alike. -/
theorem exists_statements {ls ls' : List Lexeme} {items : List Node}
    (hitems : Cursor.statements ⟨ls, 0⟩ = .ok (items, c))
    (hls : List.Forall₂ (Lexeme.Alike φ) ls ls') (hclosed : Lexeme.Closed ls)
    (hzero : φ.carry 0 = 0) :
    ∃ items' c', Cursor.statements ⟨ls', 0⟩ = .ok (items', c') ∧
      AlikeAll φ Kind.isItem items items' := by
  have halike : Alike φ ⟨ls, 0⟩ ⟨ls', 0⟩ := ⟨hls, hclosed, hzero.symm, .inl rfl⟩
  have hagree := halike.statements
  rw [hitems] at hagree
  generalize Cursor.statements ⟨ls', 0⟩ = result at hagree
  cases hagree with
  | ok hfound => cases hfound with
    | mk hitems _ => exact ⟨_, _, rfl, hitems⟩

end Cursor

end Phrasebook
