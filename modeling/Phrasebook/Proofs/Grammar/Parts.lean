import Phrasebook.Proofs.Grammar.CuttingStatement

/-!
A script read in parts.

`Cursor.Run` forgets how the blocks of a script nest: statements are read one after the other, with line
ends and changes of indentation between them. It does not depend on what was read before, so a run can
be cut where a statement begins (`Run.split`), and both parts are scripts by themselves.
-/
namespace Phrasebook

/-- Whether a lexeme may stand between statements. -/
def Lexeme.isBreak (l : Lexeme) : Bool :=
  l.kind == .newline || l.kind == .indent || l.kind == .dedent || l.isOp ";"

namespace Cutting

open Cursor

variable {c c' : Cursor} {ls ls' : List Lexeme}

theorem splits_whole_iff : whole.Splits ls ls' ↔ ls' = ls := by
  constructor
  · intro h
    cases h with
    | ahead xs => rfl
    | front htail => exact absurd rfl htail
  · rintro rfl
    exact splits_whole ls'

theorem cut_whole_iff : whole.Cut c c' ↔ c' = c := by
  constructor
  · rintro ⟨hrest, hlast⟩
    obtain ⟨rest, last⟩ := c
    obtain ⟨rest', last'⟩ := c'
    cases splits_whole_iff.1 hrest
    cases hlast
    rfl
  · rintro rfl
    exact ⟨splits_whole _, rfl⟩

end Cutting

namespace Cursor

open Grammar Cutting

variable {c d c₁ : Cursor} {fuel start : Nat} {n : Node} {ns : List Node}

theorem advance_congr (hrest : d.rest = c.rest) (hs : c.kind.isSolid = true) :
    d.advance = c.advance := by
  obtain ⟨rest, last⟩ := c
  obtain ⟨rest', last'⟩ := d
  cases hrest
  cases rest with
  | nil => cases hs
  | cons l r =>
    have hl : l.kind.isSolid = true := hs
    simp only [advance, endAfter_solid hl]
    split
    · next heof =>
      rw [heof] at hl
      cases hl
    · rfl

theorem peek_congr (hrest : d.rest = c.rest) : d.peek = c.peek := by
  rw [peek, hrest, peek]

/-- An expression does not depend on what was read before. -/
theorem expression_congr (hrest : d.rest = c.rest) (h : c.expression = .ok (n, c₁)) :
    d.expression = .ok (n, c₁) := by
  obtain ⟨-, c₁', h', hcut⟩ := expression_cut h (Nat.zero_le _) (splits_whole_iff.2 hrest)
  rw [h', cut_whole_iff.1 hcut]

theorem annotations_congr (hrest : d.rest = c.rest) (hop : c.isOp "@" = true) :
    annotations (fuel + 1) d = annotations (fuel + 1) c := by
  rw [annotations, annotations, isOp, peek_congr hrest, ← isOp, if_pos hop, if_pos hop,
    advance_congr hrest (solid_of_isOp hop)]

theorem annotations_eq_ok_false (fuel : Nat) (hop : c.isOp "@" = false) :
    annotations fuel c = .ok (false, c) := by
  cases fuel with
  | zero => rfl
  | succ fuel => rw [annotations, hop, if_neg Bool.false_ne_true]

theorem skipToStatementEnd_of_word (hk : c.kind = .word) :
    c.skipToStatementEnd = c.advance.skipToStatementEnd := by
  obtain ⟨rest, last⟩ := c
  cases rest with
  | nil => rfl
  | cons l r =>
    have hl : l.kind = .word := hk
    simp [skipToStatementEnd, advance, passWhile, hl, endsStatement, Lexeme.isOp]

theorem expressionStatement_congr (hrest : d.rest = c.rest)
    (h : c.expressionStatement start = .ok (n, c₁)) :
    d.expressionStatement start = .ok (n, c₁) := by
  obtain ⟨-, target, c₂, htarget, -⟩ := expressionStatement_eq_ok h
  rw [expressionStatement, htarget] at h
  rw [expressionStatement, expression_congr hrest htarget]
  exact h

/-- A statement does not depend on what was read before: it begins with a lexeme that has text. -/
theorem statementIn_congr (hrest : d.rest = c.rest) (h : statementIn fuel c = .ok (n, c₁)) :
    statementIn fuel d = .ok (n, c₁) := by
  cases fuel with
  | zero => simp [statementIn] at h
  | succ fuel =>
    by_cases hop : c.isOp "@" = true
    · have hpos : c.rest ≠ [] := by
        intro hnil
        rw [isOp, peek, hnil] at hop
        cases hop
      obtain ⟨m, hm⟩ := Nat.exists_eq_add_one.2 (List.length_pos_iff.2 hpos)
      rw [statementIn, hm] at h
      rw [statementIn, hrest, hm, annotations_congr hrest hop, peek_congr hrest]
      exact h
    · rw [Bool.not_eq_true] at hop
      have hop' : d.isOp "@" = false := by rw [isOp, peek_congr hrest, ← isOp, hop]
      simp only [statementIn, annotations_eq_ok_false _ hop, annotations_eq_ok_false _ hop', bind,
        Except.bind, Bool.false_eq_true, if_false, peek_congr hrest] at h ⊢
      have hadvance (ho : opening c.peek ≠ .expression) : d.advance = c.advance :=
        advance_congr hrest (by rw [word_of_opening rfl ho]; rfl)
      cases ho : opening c.peek with
      | expression =>
        simp only [ho] at h ⊢
        exact expressionStatement_congr hrest h
      | plain which =>
        have hk := word_of_opening ho (by simp)
        have hk' : d.kind = .word := by rw [kind, peek_congr hrest, ← kind, hk]
        simp only [ho, plainDeclaration, skipToStatementEnd_of_word hk,
          skipToStatementEnd_of_word hk', hadvance (by simp [ho])] at h ⊢
        exact h
      | modifier =>
        have hm := isModifier_of_opening ho
        have hpos : c.rest ≠ [] := by
          intro hnil
          have hk := kind_of_isModifier hm
          rw [kind, peek, hnil] at hk
          cases hk
        obtain ⟨m, hlen⟩ := Nat.exists_eq_add_one.2 (List.length_pos_iff.2 hpos)
        simp only [ho, hrest, hlen, skipModifiers, peek_congr hrest, hm, if_true,
          hadvance (by simp [ho])] at h ⊢
        exact h
      | funcDecl =>
        cases fuel with
        | zero => simp [ho, functionIn] at h
        | succ fuel =>
          simp only [ho, functionIn, hadvance (by simp [ho])] at h ⊢
          exact h
      | classDecl =>
        cases fuel with
        | zero => simp [ho, classIn] at h
        | succ fuel =>
          simp only [ho, classIn, hadvance (by simp [ho])] at h ⊢
          exact h
      | forStmt =>
        cases fuel with
        | zero => simp [ho, forStatementIn] at h
        | succ fuel =>
          simp only [ho, forStatementIn, hadvance (by simp [ho])] at h ⊢
          exact h
      | whileStmt =>
        cases fuel with
        | zero => simp [ho, whileStatementIn] at h
        | succ fuel =>
          simp only [ho, whileStatementIn, hadvance (by simp [ho])] at h ⊢
          exact h
      | matchStmt =>
        cases fuel with
        | zero => simp [ho, matchStatementIn] at h
        | succ fuel =>
          simp only [ho, matchStatementIn, hadvance (by simp [ho])] at h ⊢
          exact h
      | ifStmt =>
        rcases fuel with _ | _ | fuel
        · simp [ho, ifStatementIn] at h
        · simp [ho, ifStatementIn, branchIn, bind, Except.bind] at h
        · simp only [ho, ifStatementIn, branchIn, hadvance (by simp [ho]), peek_congr hrest] at h ⊢
          exact h
      | orphan => simp [ho] at h
      | keyword | varDecl | returnStmt =>
        simp only [ho, varStatement, returnStatement, hadvance (by simp [ho])] at h ⊢
        exact h

/-- Within any bound that is large enough a statement is read as within the bound given. -/
theorem statementIn_bound (h : statementIn fuel c = .ok (n, c₁)) (hrest : d.rest = c.rest)
    {fuel' : Nat} (hfuel : 8 * c.rest.length + 3 ≤ fuel') : statementIn fuel' d = .ok (n, c₁) := by
  obtain ⟨c₁', hcut, h₁⟩ :=
    ((keptWithin whole fuel).statement h).2 (Nat.zero_le _) c (cut_whole_iff.2 rfl)
  rw [cut_whole_iff.1 hcut] at h₁
  exact statementIn_congr hrest (h₁ fuel' hfuel)

/-- Neither a mark of the line structure nor a semicolon begins an expression. -/
theorem Derives.begins {r : Rule} (h : Derives r c ns c₁) (hr : r.begins = true) :
    c.kind.isSolid = true ∧ c.isOp ";" = false := by
  have hop {c : Cursor} {op : String} (h : c.isOp op = true) (hne : ";" ≠ op) :
      c.kind.isSolid = true ∧ c.isOp ";" = false :=
    ⟨solid_of_isOp h, isOp_eq_false_of_isOp h hne⟩
  have hkind {c : Cursor} (h : c.kind.isSolid = true) (hne : c.kind ≠ .op) :
      c.kind.isSolid = true ∧ c.isOp ";" = false :=
    ⟨h, isOp_eq_false hne ";"⟩
  induction h with
  | value first _ ih | ternary first _ _ _ _ ih _ _ | binary first _ ih _ | plain _ _ first ih
  | chain first _ ih _ => exact ih rfl
  | @unary c c₁ level operand hlevel inner ih =>
    refine ⟨solid_of_unaryLevel? hlevel, Bool.eq_false_iff.2 fun hsemi => ?_⟩
    have hother {op : String} (hne : op ≠ ";") : c.peek.isOp op = false :=
      isOp_eq_false_of_isOp hsemi hne
    rw [unaryLevel?, show c.peek.kind = .op from kind_of_isOp hsemi] at hlevel
    simp [hother] at hlevel
  | await hlevel hawait inner ih => exact hkind (solid_of_isWord hawait) (by simp [kind_of_isWord hawait])
  | string hk | number hk | word hk => exact hkind (by rw [hk]; rfl) (by simp [hk])
  | paren hopen | array hopen | dictionary hopen | parentMember hopen => exact hop hopen (by decide)
  | nodePath hopen =>
    rcases Bool.or_eq_true_iff.1 hopen with hopen | hopen <;> exact hop hopen (by decide)
  | binaryEnd | typeOperator | operator | chainEnd | call | member | subscript | sequenceEnd
  | sequenceMore | sequenceLast | pairsEnd | pairsMore | pairsLast => cases hr

/-- Neither a mark of the line structure nor a semicolon begins a statement. -/
theorem solid_of_statementIn (h : statementIn fuel c = .ok (n, c₁)) :
    c.kind.isSolid = true ∧ c.isOp ";" = false := by
  cases fuel with
  | zero => simp [statementIn] at h
  | succ fuel =>
    by_cases hop : c.isOp "@" = true
    · exact ⟨solid_of_isOp hop, isOp_eq_false_of_isOp hop (by decide)⟩
    · rw [Bool.not_eq_true] at hop
      simp only [statementIn, annotations_eq_ok_false _ hop, bind, Except.bind,
        Bool.false_eq_true, if_false] at h
      by_cases ho : opening c.peek = .expression
      · simp only [ho] at h
        obtain ⟨-, target, c₂, htarget, -⟩ := expressionStatement_eq_ok h
        exact (derives_of_expression htarget).begins rfl
      · have hk := word_of_opening rfl ho
        exact ⟨by rw [hk]; rfl, isOp_eq_false (by simp [hk]) ";"⟩

theorem start_of_varStatement (h : c.varStatement start = .ok (n, c₁)) : n.span.start = start := by
  obtain ⟨name, c₂, c₃, value, c₄, c₅, -, -, -, -, rfl, -⟩ := varStatement_eq_ok h
  rfl

theorem start_of_functionIn (h : functionIn fuel start c = .ok (n, c₁)) : n.span.start = start := by
  cases fuel with
  | zero => simp [functionIn] at h
  | succ fuel =>
    simp only [functionIn, bind_ok_iff] at h
    obtain ⟨c₃, -, ⟨body, c₄⟩, -, h⟩ := h
    cases h
    rfl

/-- A statement begins where it is read. -/
theorem start_of_statementIn (h : statementIn fuel c = .ok (n, c₁)) :
    n.span.start = c.peek.span.start := by
  -- Within a larger bound every rule that is entered can be opened.
  replace h : statementIn (8 * c.rest.length + 1 + 2) c = .ok (n, c₁) :=
    statementIn_bound h rfl (Nat.le_refl _)
  generalize hstart : c.peek.span.start = start
  simp only [statementIn, bind_ok_iff, hstart] at h
  obtain ⟨⟨ended, c₂⟩, -, h⟩ := h
  simp only at h
  split at h
  · cases h
    rfl
  · cases ho : opening c₂.peek with
    | plain kind =>
      simp only [ho] at h
      cases h
      rfl
    | keyword =>
      simp only [ho, bind_ok_iff] at h
      obtain ⟨u, -, h⟩ := h
      cases h
      rfl
    | modifier =>
      simp only [ho] at h
      split at h
      · exact start_of_varStatement h
      · split at h
        · exact start_of_functionIn h
        · split at h
          · cases h
            rfl
          · cases h
    | varDecl =>
      simp only [ho] at h
      exact start_of_varStatement h
    | funcDecl =>
      simp only [ho] at h
      exact start_of_functionIn h
    | classDecl =>
      simp only [ho, classIn, bind_ok_iff] at h
      obtain ⟨a, -, c₃, -, s, -, h⟩ := h
      cases h
      rfl
    | ifStmt =>
      simp only [ho, ifStatementIn, bind_ok_iff] at h
      obtain ⟨a, -, s, -, h⟩ := h
      cases h
      rfl
    | forStmt =>
      simp only [ho] at h
      obtain ⟨name, c₂, c₃, iterable, c₄, body, -, -, -, -, -, -, rfl⟩ := forStatementIn_eq_ok h
      rfl
    | whileStmt =>
      simp only [ho, whileStatementIn, bind_ok_iff] at h
      obtain ⟨a, -, c₃, -, s, -, h⟩ := h
      cases h
      rfl
    | matchStmt =>
      simp only [ho, matchStatementIn, bind_ok_iff] at h
      obtain ⟨a, -, c₃, -, h⟩ := h
      split at h
      · split at h
        · obtain ⟨s, -, h⟩ := bind_ok_iff.1 h
          cases h
          rfl
        · cases h
          rfl
      · cases h
    | returnStmt =>
      simp only [ho] at h
      obtain ⟨value, rfl, -⟩ := returnStatement_eq_ok h
      rfl
    | orphan => simp [ho] at h
    | expression =>
      simp only [ho] at h
      obtain ⟨-, target, c₃, -, ⟨-, -, value, -, rfl⟩ | ⟨-, -, rfl⟩⟩ := expressionStatement_eq_ok h
      · rfl
      · rfl

/-- Statements read one after the other, and what is left. -/
inductive Run : List Lexeme → List Node → List Lexeme → Prop
  | done (ls : List Lexeme) : Run ls [] ls
  | skip {l : Lexeme} {r rest : List Lexeme} {ns : List Node} (hl : l.isBreak = true)
      (more : Run r ns rest) : Run (l :: r) ns rest
  | item {ls rest : List Lexeme} {n : Node} {ns : List Node} {fuel : Nat} {c₁ : Cursor}
      (first : statementIn fuel ⟨ls, 0⟩ = .ok (n, c₁)) (more : Run c₁.rest ns rest) :
      Run ls (n :: ns) rest

section Run

variable {ls ls' rest rest' : List Lexeme} {ms : List Node} {l : Lexeme} {source : Text}

theorem Run.append (h : Run ls ns rest) (h' : Run rest ms rest') : Run ls (ns ++ ms) rest' := by
  induction h with
  | done => exact h'
  | skip hl _ ih => exact .skip hl (ih h')
  | item first _ ih => exact .item first (ih h')

theorem run_advance (h : c.peek.isBreak = true) : Run c.rest [] c.advance.rest := by
  obtain ⟨rest, last⟩ := c
  cases rest with
  | nil => exact .done []
  | cons l r =>
    simp only [advance]
    split
    · exact .done _
    · exact .skip h (.done r)

theorem run_skipNewlines (c : Cursor) : Run c.rest [] c.skipNewlines.rest := by
  have hrun (last : Nat) (ls : List Lexeme) :
      Run ls [] (passWhile (fun l => l.kind == .newline || l.isOp ";") last ls).rest := by
    fun_induction passWhile (fun l => l.kind == .newline || l.isOp ";") last ls with
    | case1 => exact .done _
    | case2 last l r hp ih =>
      refine .skip ?_ ih
      simp only [Bool.and_eq_true, Bool.or_eq_true] at hp
      simp only [Lexeme.isBreak, Bool.or_eq_true]
      exact hp.2.imp (fun h => .inl (.inl h)) id
    | case3 => exact .done _
  exact hrun c.lastEnd c.rest

/-- What a block reads is a run; outside of a block it goes up to the end. -/
theorem run_of_blockIn {inBlock : Bool} (h : blockIn fuel inBlock c = .ok (ns, c₁)) :
    Run c.rest ns c₁.rest ∧ (inBlock = false → c₁.kind = .eof) := by
  induction fuel generalizing c c₁ ns inBlock with
  | zero => simp [blockIn] at h
  | succ fuel ih =>
    have hskip := run_skipNewlines c
    have hbreak (hk : c.skipNewlines.kind = .indent ∨ c.skipNewlines.kind = .dedent) :
        Run c.rest [] c.skipNewlines.advance.rest := by
      refine hskip.append (run_advance ?_)
      rcases hk with hk | hk <;> simp [Lexeme.isBreak, show c.skipNewlines.peek.kind = _ from hk]
    rw [blockIn] at h
    cases hk : c.skipNewlines.kind with
    | eof =>
      simp only [hk] at h
      cases h
      exact ⟨hskip, fun _ => hk⟩
    | dedent =>
      simp only [hk] at h
      split at h
      · next hin =>
        cases h
        exact ⟨hbreak (.inr hk), fun hout => by rw [hin] at hout; cases hout⟩
      · obtain ⟨hrun, hend⟩ := ih h
        exact ⟨(hbreak (.inr hk)).append hrun, hend⟩
    | indent =>
      simp only [hk] at h
      obtain ⟨⟨nested, c₂⟩, hnested, h⟩ := bind_ok_iff.1 h
      obtain ⟨⟨more, c₃⟩, hmore, h⟩ := bind_ok_iff.1 h
      cases h
      obtain ⟨hrun, -⟩ := ih hnested
      obtain ⟨hrun', hend⟩ := ih hmore
      exact ⟨((hbreak (.inl hk)).append hrun).append hrun', hend⟩
    | word | number | str q | op | newline =>
      simp only [hk] at h
      obtain ⟨⟨item, c₂⟩, hitem, h⟩ := bind_ok_iff.1 h
      obtain ⟨⟨more, c₃⟩, hmore, h⟩ := bind_ok_iff.1 h
      cases h
      obtain ⟨hrun, hend⟩ := ih hmore
      have hfirst := statementIn_congr (c := c.skipNewlines) (d := ⟨_, 0⟩) rfl hitem
      exact ⟨hskip.append (.item hfirst hrun), hend⟩

/-- A run before the cut. -/
theorem Run.cut {κ : Cutting} (h : Run ls ns rest) (hkeep : κ.tail.length ≤ rest.length)
    (hs : κ.Splits ls ls') : ∃ rest', Run ls' ns rest' ∧ κ.Splits rest rest' := by
  have hlen {ls rest : List Lexeme} {ns : List Node} (h : Run ls ns rest) :
      rest.length ≤ ls.length := by
    induction h with
    | done => exact Nat.le_refl _
    | skip _ _ ih => exact Nat.le_succ_of_le ih
    | item first _ ih =>
      have hlt := ((keptWithin κ _).statement first).1
      simp only at hlt
      omega
  induction h generalizing ls' with
  | done => exact ⟨ls', .done ls', hs⟩
  | @skip l r rest ns hl more ih =>
    obtain ⟨r', rfl, hr⟩ := hs.cons (Nat.le_trans hkeep (hlen more))
    obtain ⟨rest', hrun, hrest⟩ := ih hkeep hr
    exact ⟨rest', .skip hl hrun, hrest⟩
  | @item ls rest n ns fuel c₁ first more ih =>
    obtain ⟨c₁', hcut, h₁⟩ := ((keptWithin κ fuel).statement first).2
      (Nat.le_trans hkeep (hlen more)) ⟨ls', 0⟩ ⟨hs, rfl⟩
    obtain ⟨rest', hrun, hrest⟩ := ih hkeep hcut.rest
    exact ⟨rest', .item (h₁ _ (Nat.le_refl _)) hrun, hrest⟩

/-- Line ends and semicolons before a block make no difference. -/
theorem blockIn_skip {last : Nat} {r : List Lexeme} {inBlock : Bool}
    (hl : (l.kind == .newline || l.isOp ";") = true) :
    blockIn (fuel + 1) inBlock ⟨l :: r, last⟩ = blockIn (fuel + 1) inBlock ⟨r, endAfter last l⟩ := by
  have heof : (l.kind != .eof) = true := by
    rcases Bool.or_eq_true_iff.1 hl with h | h
    · rw [beq_iff_eq.1 h]
      rfl
    · simp only [Lexeme.isOp, Bool.and_eq_true, beq_iff_eq] at h
      rw [h.1]
      rfl
  rw [blockIn, blockIn, skipNewlines, passWhile, if_pos (by rw [heof, hl]; rfl), skipNewlines]

/-- Nothing is left where a run begins at the end. -/
theorem Run.eq_nil (h : Run ls ns rest) {last : Nat} (hend : (⟨ls, last⟩ : Cursor).kind = .eof) :
    ns = [] := by
  cases h with
  | done => rfl
  | @skip l r rest ns hl more =>
    have hk : l.kind = .eof := hend
    simp [Lexeme.isBreak, hk, Lexeme.isOp] at hl
  | item first more =>
    have hsolid := (solid_of_statementIn first).1
    rw [show (⟨ls, 0⟩ : Cursor).kind = .eof from hend] at hsolid
    cases hsolid

theorem skipNewlines_eq_self (hk : c.kind ≠ .newline) (hop : c.isOp ";" = false) :
    c.skipNewlines = c := by
  obtain ⟨rest, last⟩ := c
  cases rest with
  | nil => rfl
  | cons l r =>
    have hno : (l.kind == .newline || l.isOp ";") = false := by
      rw [show l.isOp ";" = false from hop, Bool.or_false, beq_eq_false_iff_ne]
      exact hk
    rw [skipNewlines, passWhile, hno, Bool.and_false, if_neg Bool.false_ne_true]

/-- A run up to the end is read as a block, or goes on where the block is closed. -/
theorem Run.block (h : Run ls ns rest) (hend : (⟨rest, 0⟩ : Cursor).kind = .eof) (inBlock : Bool)
    (last : Nat) : ∃ ns₁ ns₂ c₁, ns = ns₁ ++ ns₂ ∧ c₁.rest.length ≤ ls.length ∧
      Run c₁.rest ns₂ rest ∧ (inBlock = false → ns₂ = []) ∧
      ∀ fuel, 8 * ls.length + 4 ≤ fuel → blockIn fuel inBlock ⟨ls, last⟩ = .ok (ns₁, c₁) := by
  induction hlen : ls.length using Nat.strong_induction_on generalizing ls ns last inBlock with
  | _ m ih =>
    subst hlen
    have hself (hk : (⟨ls, last⟩ : Cursor).kind ≠ .newline ∧ (⟨ls, last⟩ : Cursor).kind ≠ .op) :
        skipNewlines ⟨ls, last⟩ = ⟨ls, last⟩ :=
      skipNewlines_eq_self hk.1 (isOp_eq_false hk.2 _)
    cases h with
    | done =>
      have hk : (⟨rest, last⟩ : Cursor).kind = .eof := hend
      refine ⟨[], [], ⟨rest, last⟩, rfl, Nat.le_refl _, .done rest, fun _ => rfl,
        enters (by omega) fun fuel _ => ?_⟩
      simp only [blockIn, hself (by simp [hk]), hk]
    | @skip l r _ _ hl more =>
      have hadvance (hk : l.kind = .indent ∨ l.kind = .dedent) :
          advance ⟨l :: r, last⟩ = ⟨r, last⟩ := by
        rcases hk with hk | hk <;> simp [advance, endAfter, hk, Lexeme.Kind.isSolid]
      simp only [Lexeme.isBreak, Bool.or_eq_true, beq_iff_eq] at hl
      have hlt : r.length < (l :: r).length := Nat.lt_succ_self _
      rcases hl with ((hl | hl) | hl) | hl
      · obtain ⟨ns₁, ns₂, c₁, hns, hle, hrun, hout, h₁⟩ :=
          ih r.length hlt more inBlock (endAfter last l) rfl
        refine ⟨ns₁, ns₂, c₁, hns, by omega, hrun, hout, enters (by omega) fun fuel hfuel => ?_⟩
        rw [blockIn_skip (by simp [hl])]
        exact h₁ _ (by omega)
      · have hk : (⟨l :: r, last⟩ : Cursor).kind = .indent := hl
        obtain ⟨ns₁, ns₂, c₁, hns, hle, hrun, -, h₁⟩ := ih r.length hlt more true last rfl
        obtain ⟨ms₁, ms₂, c₂, hms, hle₂, hrun₂, hout, h₂⟩ :=
          ih c₁.rest.length (by omega) hrun inBlock c₁.lastEnd rfl
        refine ⟨ns₁ ++ ms₁, ms₂, c₂, by rw [hns, hms, List.append_assoc], by omega, hrun₂, hout,
          enters (by omega) fun fuel hfuel => ?_⟩
        simp only [List.length_cons] at hfuel
        simp only [blockIn, hself (by simp [hk]), hk, hadvance (.inl hl), h₁ fuel (by omega),
          h₂ fuel (by omega), bind, Except.bind]
        rfl
      · have hk : (⟨l :: r, last⟩ : Cursor).kind = .dedent := hl
        cases inBlock with
        | true =>
          refine ⟨[], ns, ⟨r, last⟩, rfl, Nat.le_of_lt hlt, more,
            fun hout => absurd hout.symm Bool.false_ne_true, enters (by omega) fun fuel hfuel => ?_⟩
          simp only [blockIn, hself (by simp [hk]), hk, hadvance (.inr hl), if_true]
        | false =>
          obtain ⟨ns₁, ns₂, c₁, hns, hle, hrun, hout, h₁⟩ := ih r.length hlt more false last rfl
          refine ⟨ns₁, ns₂, c₁, hns, by omega, hrun, hout, enters (by omega) fun fuel hfuel => ?_⟩
          simp only [List.length_cons] at hfuel
          simp only [blockIn, hself (by simp [hk]), hk, hadvance (.inr hl), Bool.false_eq_true,
            if_false]
          exact h₁ fuel (by omega)
      · obtain ⟨ns₁, ns₂, c₁, hns, hle, hrun, hout, h₁⟩ :=
          ih r.length hlt more inBlock (endAfter last l) rfl
        refine ⟨ns₁, ns₂, c₁, hns, by omega, hrun, hout, enters (by omega) fun fuel hfuel => ?_⟩
        rw [blockIn_skip (by simp [hl])]
        exact h₁ _ (by omega)
    | @item _ _ n ns fuel c₁ first more =>
      have hlt : c₁.rest.length < ls.length := ((keptWithin whole fuel).statement first).1
      obtain ⟨hsolid, hsemi⟩ := solid_of_statementIn first
      obtain ⟨ns₁, ns₂, c₂, hns, hle, hrun, hout, h₁⟩ :=
        ih c₁.rest.length hlt more inBlock c₁.lastEnd rfl
      refine ⟨n :: ns₁, ns₂, c₂, by rw [hns, List.cons_append], by omega, hrun, hout,
        enters (by omega) fun fuel' hfuel => ?_⟩
      have hsolid : (⟨ls, last⟩ : Cursor).kind.isSolid = true := hsolid
      have hstays : skipNewlines ⟨ls, last⟩ = ⟨ls, last⟩ := by
        refine skipNewlines_eq_self (fun hk => ?_) hsemi
        rw [hk] at hsolid
        cases hsolid
      have hfirst : statementIn fuel' ⟨ls, last⟩ = .ok (n, c₁) :=
        statementIn_bound (d := ⟨ls, last⟩) first rfl (by simp only; omega)
      rw [blockIn]
      simp only [hstays, hfirst, h₁ fuel' (by omega), bind, Except.bind]
      cases hk : (⟨ls, last⟩ : Cursor).kind with
      | eof | dedent | indent | newline =>
        rw [hk] at hsolid
        cases hsolid
      | word | number | str q | op => rfl

/-- A run up to the end is a script. -/
theorem Run.statements (h : Run ls ns rest) (hend : (⟨rest, 0⟩ : Cursor).kind = .eof) (last : Nat) :
    ∃ c, Cursor.statements ⟨ls, last⟩ = .ok (ns, c) := by
  obtain ⟨ns₁, ns₂, c₁, rfl, -, -, hout, h₁⟩ := h.block hend false last
  refine ⟨c₁, ?_⟩
  rw [hout rfl, List.append_nil]
  exact h₁ _ (by simp only; omega)

theorem Ready.anew (h : Ready source c) : Ready source ⟨c.rest, 0⟩ :=
  ⟨h.placed, h.order, fun _ _ => Nat.zero_le _, Text.isBoundary_zero source,
    h.closed, h.lined⟩

/-- The lexemes of a statement are read from the list, and the others are left. -/
theorem Ready.statement (h : Ready source ⟨ls, 0⟩) (hok : statementIn fuel ⟨ls, 0⟩ = .ok (n, c₁)) :
    Ready source ⟨c₁.rest, 0⟩ ∧ ∃ xs, ls = xs ++ c₁.rest := by
  obtain ⟨hon, -⟩ := (laidWithin source fuel).statement h n c₁ hok
  obtain ⟨xs, hxs, -⟩ := hon.read
  exact ⟨hon.ready.anew, xs, hxs⟩

/-- The statements of a run begin with lexemes that have text. -/
theorem Run.starts (h : Run ls ns rest) (hready : Ready source ⟨ls, 0⟩) (hn : n ∈ ns) :
    ∃ x ∈ ls, x.kind.isSolid = true ∧ n.span.start = x.span.start := by
  induction h with
  | done => cases hn
  | @skip l r rest ns hl more ih =>
    have heof : l.kind ≠ .eof := by
      intro hk
      simp [Lexeme.isBreak, hk, Lexeme.isOp] at hl
    obtain ⟨x, hx, hsolid, hstart⟩ := ih (hready.pass heof).ready.anew hn
    exact ⟨x, List.mem_cons_of_mem _ hx, hsolid, hstart⟩
  | @item ls rest m ns fuel c₁ first more ih =>
    obtain ⟨hready₁, xs, hxs⟩ := hready.statement first
    rcases List.mem_cons.1 hn with rfl | hn
    · exact ⟨_, hready.peek_mem, (solid_of_statementIn first).1, start_of_statementIn first⟩
    · obtain ⟨x, hx, hsolid, hstart⟩ := ih hready₁ hn
      exact ⟨x, by rw [hxs]; exact List.mem_append_right _ hx, hsolid, hstart⟩

/-- A lexeme with text begins before all behind it that have text. -/
theorem Ready.start_lt (h : Ready source ⟨ls, 0⟩) (xs : List Lexeme) {ys : List Lexeme}
    {x y : Lexeme} (hls : ls = xs ++ x :: ys) (hx : x.kind.isSolid = true) (hy : y ∈ ys) :
    x.span.start < y.span.start := by
  subst hls
  have hbefore := (List.pairwise_cons.1 (List.pairwise_append.1 h.order).2.1).1 y hy (.inl hx)
  have hlt := (h.placed x (by simp)).lt hx
  omega

/-- A run can be cut before a word with which one of its statements begins. -/
theorem Run.split (h : Run ls ns rest) (hready : Ready source ⟨ls, 0⟩) {xs ys : List Lexeme}
    (hls : ls = xs ++ l :: ys) (hl : l.kind = .word)
    (hstarts : ∃ n ∈ ns, n.span.start = l.span.start) :
    ∃ ns₁ ns₂, ns = ns₁ ++ ns₂ ∧ Run ls ns₁ (l :: ys) ∧ Run (l :: ys) ns₂ rest := by
  have hsolid : l.kind.isSolid = true := by
    rw [hl]
    rfl
  induction h generalizing xs with
  | done =>
    obtain ⟨n, hn, -⟩ := hstarts
    cases hn
  | @skip x r rest ns hx more ih =>
    cases xs with
    | nil =>
      cases hls
      simp [Lexeme.isBreak, hl, Lexeme.isOp] at hx
    | cons x' xs =>
      cases hls
      have heof : x.kind ≠ .eof := by
        intro hk
        simp [Lexeme.isBreak, hk, Lexeme.isOp] at hx
      obtain ⟨ns₁, ns₂, hns, hrun₁, hrun₂⟩ := ih (hready.pass heof).ready.anew rfl hstarts
      exact ⟨ns₁, ns₂, hns, .skip hx hrun₁, hrun₂⟩
  | @item ls rest m ns fuel c₁ first more ih =>
    cases xs with
    | nil =>
      rw [List.nil_append] at hls
      exact ⟨[], m :: ns, rfl, by rw [hls]; exact .done _, by rw [← hls]; exact .item first more⟩
    | cons x xs =>
      obtain ⟨hready₁, zs, hzs⟩ := hready.statement first
      -- The first statement begins before the word, so another one begins with it.
      obtain ⟨n, hn, hstart⟩ := hstarts
      have hmem : n ∈ ns := by
        rcases List.mem_cons.1 hn with rfl | hn
        · have hx : x.kind.isSolid = true := by
            have hx := (solid_of_statementIn first).1
            rwa [hls] at hx
          have hlt := hready.start_lt [] (y := l) hls hx (by simp)
          have hfirst := start_of_statementIn first
          rw [hls, hstart] at hfirst
          simp only [peek, List.cons_append, List.headD_cons] at hfirst
          omega
        · exact hn
      obtain ⟨y, hy, hysolid, hystart⟩ := more.starts hready₁ hmem
      rcases List.append_eq_append_iff.1 (hzs.symm.trans hls) with
        ⟨us, hxs, hrest⟩ | ⟨us, hzs', hrest⟩
      · obtain ⟨ns₁, ns₂, hns, hrun₁, hrun₂⟩ := ih hready₁ hrest ⟨n, hmem, hstart⟩
        exact ⟨m :: ns₁, ns₂, by rw [hns, List.cons_append], .item first hrun₁, hrun₂⟩
      · cases us with
        | nil =>
          rw [List.nil_append] at hrest
          obtain ⟨ns₁, ns₂, hns, hrun₁, hrun₂⟩ :=
            ih hready₁ (List.nil_append (l :: ys) ▸ hrest.symm) ⟨n, hmem, hstart⟩
          exact ⟨m :: ns₁, ns₂, by rw [hns, List.cons_append], .item first hrun₁, hrun₂⟩
        | cons u us =>
          -- The word was read with the first statement, and no later one begins with it.
          cases hrest
          have hlt := hready.start_lt (x :: xs) (y := y) hls hsolid (List.mem_append_right _ hy)
          omega

/-- A script cut before a function that is a statement of it: both parts are scripts, and their
statements are those of the whole. -/
theorem statements_split {xs ys stop : List Lexeme} (hready : Ready source ⟨xs ++ l :: ys, 0⟩)
    (hok : Cursor.statements ⟨xs ++ l :: ys, 0⟩ = .ok (ns, c)) (hl : l.beginsFunction = true)
    (hstarts : ∃ n ∈ ns, n.span.start = l.span.start) (hstop : Lexeme.Closing stop) :
    ∃ ns₁ ns₂ c₁ c₂, ns = ns₁ ++ ns₂ ∧ Cursor.statements ⟨xs ++ stop, 0⟩ = .ok (ns₁, c₁) ∧
      Cursor.statements ⟨l :: ys, 0⟩ = .ok (ns₂, c₂) := by
  obtain ⟨hrun, hend⟩ := run_of_blockIn hok
  obtain ⟨ns₁, ns₂, hns, hrun₁, hrun₂⟩ :=
    hrun.split hready rfl (Lexeme.beginsFunction_iff.1 hl).1 hstarts
  let κ : Cutting := ⟨l :: ys, stop, .inr ⟨⟨l, ys, rfl, hl⟩, hstop⟩⟩
  obtain ⟨rest', hrun₁', hrest'⟩ := hrun₁.cut (Nat.le_refl κ.tail.length) (splits_append κ xs)
  have hclosing : Lexeme.Closing rest' := hrest'.closing nofun
  obtain ⟨e, he, hrun'⟩ : ∃ e : Lexeme, e.kind = .eof ∧ Run rest' [] [e] := by
    cases hclosing with
    | @eof e he => exact ⟨e, he, .done _⟩
    | @newline n e hn he => exact ⟨e, he, .skip (by simp [Lexeme.isBreak, hn]) (.done _)⟩
  obtain ⟨c₁, h₁⟩ := (hrun₁'.append hrun').statements he 0
  obtain ⟨c₂, h₂⟩ := hrun₂.statements (hend rfl) 0
  rw [List.append_nil] at h₁
  exact ⟨ns₁, ns₂, c₁, c₂, hns, h₁, h₂⟩

end Run

end Cursor

end Phrasebook
