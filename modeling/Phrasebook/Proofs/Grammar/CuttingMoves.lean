import Phrasebook.Proofs.Grammar.CuttingExpression
import Phrasebook.Proofs.Grammar.Statement

/-!
What a statement passes over before the cut.

The moves that need no other statement, and the statements of a single line. Where they stop before the
cut, they stop there as well where the rest is cut off. A rule that comes to the cut itself sees a
function on the one side and the end on the other; all that do not read it take both alike.
-/
namespace Phrasebook

namespace Cursor

open Grammar

variable {c c₁ : Cursor} {p : Lexeme → Bool} {depth last fuel start : Nat} {ls : List Lexeme}
  {n : Node}

theorem length_dottedTail_le (h : dottedTail fuel c = .ok c₁) :
    c₁.rest.length ≤ c.rest.length :=
  Nat.le_of_lt_succ ((dottedTail_advances c).reads fuel c₁ h).2

theorem length_typeHint (h : c.typeHint = .ok c₁) : c₁.rest.length < c.rest.length :=
  ((typeHint_advances 0 c).reads 0 c₁ h).2

/-- Where a type may stand, it is passed, or nothing is. -/
theorem length_optionalType_le {p : Prop} [Decidable p]
    (h : (if p then c.advance.typeHint else .ok c) = .ok c₁) : c₁.rest.length ≤ c.rest.length := by
  split at h
  · have hlen := length_advance_le c
    have hlen₁ := length_typeHint h
    omega
  · cases h
    exact Nat.le_refl _

theorem length_expression (h : c.expression = .ok (n, c₁)) :
    c₁.rest.length < c.rest.length :=
  ((expression_advances 0 c).reads 0 _ h).2

theorem length_initializer_le {ns : List Node} (h : c.initializer = .ok (ns, c₁)) :
    c₁.rest.length ≤ c.rest.length :=
  Nat.le_of_lt_succ ((initializer_advances 0 c).reads 0 _ h).2

/-- The ways of `varStatement_eq_ok` are ways a variable is read. -/
theorem varStatement_ok (start : Nat) {c₂ c₃ c₄ c₅ : Cursor} {name : Text} {value : List Node}
    (hname : c.advance.expectWord = .ok (name, c₂))
    (htype : (if c₂.isOp ":" && c₂.peekNext.kind != .newline then c₂.advance.typeHint else .ok c₂) =
      .ok c₃)
    (hvalue : c₃.initializer = .ok (value, c₄))
    (hc₅ : c₅ = (if c₄.isWord "setget" then c₄.skipToStatementEnd else c₄)) (c₁ : Cursor)
    (hend : c₅.isOp ":" = true ∧ c₁ = c₅.advance.skipAccessors ∨
      c₅.isOp ":" = false ∧ c₅.atStatementEnd = true ∧ c₁ = c₅) :
    c.varStatement start = .ok (⟨.varDecl name, c₅.spanFrom start, value⟩, c₁) := by
  have htail : (if c₅.isOp ":" then
        pure ((⟨.varDecl name, c₅.spanFrom start, value⟩ : Node), c₅.advance.skipAccessors)
      else do
        c₅.expectStatementEnd
        return (⟨.varDecl name, c₅.spanFrom start, value⟩, c₅)) =
      (.ok (⟨.varDecl name, c₅.spanFrom start, value⟩, c₁) : Except ParseError (Node × Cursor)) := by
    rcases hend with ⟨hcolon, rfl⟩ | ⟨hcolon, hend, rfl⟩
    · rw [if_pos hcolon]
      rfl
    · rw [hcolon, if_neg Bool.false_ne_true, expectStatementEnd_eq_ok (u := ()).2 hend]
      rfl
  simp only [varStatement, hname, bind, Except.bind] at htail ⊢
  split at htype
  · next hcolon =>
    rw [if_pos hcolon]
    simp only [htype, hvalue, ← hc₅]
    exact htail
  · next hcolon =>
    cases htype
    rw [if_neg hcolon]
    simp only [hvalue, ← hc₅]
    exact htail

theorem length_varStatement (h : c.varStatement start = .ok (n, c₁)) :
    c₁.rest.length < c.rest.length :=
  ((varStatement_advances 0 start c).reads 0 _ h).2

theorem length_returnStatement (hk : c.kind = .word) (h : c.returnStatement start = .ok (n, c₁)) :
    c₁.rest.length < c.rest.length :=
  ((returnStatement_advances hk 0 start).reads 0 _ h).2

theorem length_expressionStatement (h : c.expressionStatement start = .ok (n, c₁)) :
    c₁.rest.length < c.rest.length :=
  ((expressionStatement_advances 0 start c).reads 0 _ h).2

end Cursor

namespace Cutting

open Cursor Lexeme Grammar

variable {κ : Cutting} {c c' c₁ : Cursor} {p : Lexeme → Bool} {depth last fuel fuel' start : Nat}
  {ls ls' : List Lexeme} {n : Node}

theorem closing_passWhile (p : Lexeme → Bool) (last : Nat) (h : Closing ls) :
    Closing (passWhile p last ls).rest ∧ (passWhile p last ls).rest.length ≤ ls.length ∧
      (passWhile p last ls).lastEnd = last := by
  cases h with
  | @eof e he =>
    have hstop : passWhile p last [e] = ⟨[e], last⟩ := by simp [passWhile, he]
    rw [hstop]
    exact ⟨.eof he, Nat.le_refl _, rfl⟩
  | @newline n e hn he =>
    have hstop : passWhile p last [e] = ⟨[e], last⟩ := by simp [passWhile, he]
    rw [passWhile]
    split
    · rw [show endAfter last n = last by simp [endAfter, hn, Kind.isSolid], hstop]
      exact ⟨.eof he, by simp, rfl⟩
    · exact ⟨.newline hn he, Nat.le_refl _, rfl⟩

theorem Splits.passWhile (h : κ.Splits ls ls')
    (hkeep : κ.tail.length ≤ (passWhile p last ls).rest.length) :
    κ.Cut (passWhile p last ls) (passWhile p last ls') := by
  induction ls generalizing ls' last with
  | nil =>
    obtain rfl := h.nil rfl
    exact ⟨h, rfl⟩
  | cons l r ih =>
    rcases h.cons_or_front with ⟨r', rfl, hr⟩ | ⟨hl, hword, hclosing, hle⟩
    · rw [Cursor.passWhile, Cursor.passWhile]
      rw [Cursor.passWhile] at hkeep
      split at hkeep
      · next hp =>
        rw [if_pos hp, if_pos hp]
        exact ih hr hkeep
      · next hp =>
        rw [if_neg hp, if_neg hp]
        exact ⟨h, rfl⟩
    · rw [Cursor.passWhile] at hkeep ⊢
      split at hkeep
      · have hlen : (Cursor.passWhile p (endAfter last l) r).rest.length ≤ r.length :=
          length_passWhile_le
        rw [← hl, List.length_cons] at hkeep
        omega
      · next hp =>
        obtain ⟨hclosing', hle', hlast⟩ := closing_passWhile p last hclosing
        rw [if_neg hp, hl]
        exact ⟨.front (by rw [← hl]; simp) hclosing' (by omega), hlast⟩

theorem Cut.skipNewlines (h : κ.Cut c c') (hkeep : κ.tail.length ≤ c.skipNewlines.rest.length) :
    κ.Cut c.skipNewlines c'.skipNewlines := by
  unfold Cursor.skipNewlines
  rw [h.lastEnd]
  exact h.rest.passWhile hkeep

theorem Cut.skipToStatementEnd (h : κ.Cut c c')
    (hkeep : κ.tail.length ≤ c.skipToStatementEnd.rest.length) :
    κ.Cut c.skipToStatementEnd c'.skipToStatementEnd := by
  unfold Cursor.skipToStatementEnd
  rw [h.lastEnd]
  exact h.rest.passWhile hkeep

/-- A function does not begin with a mark of the line structure, nor with an operator. -/
theorem kind_of_beginsFunction {l : Lexeme} (h : l.beginsFunction = true) :
    l.kind = .word ∧ l.opens = false ∧ l.closes = false ∧ l.isOp ":" = false := by
  have hk := (beginsFunction_iff.1 h).1
  simp [hk, Lexeme.opens, Lexeme.closes, Lexeme.isOp]

theorem Splits.toColon (h : κ.Splits ls ls') (hok : toColon depth last ls = .ok c₁)
    (hkeep : κ.tail.length ≤ c₁.rest.length) :
    ∃ c₁', toColon depth last ls' = .ok c₁' ∧ κ.Cut c₁ c₁' := by
  induction ls generalizing ls' last depth with
  | nil => cases hok
  | cons l r ih =>
    rcases h.cons_or_front with ⟨r', rfl, hr⟩ | ⟨hl, hword, -⟩
    · rw [Cursor.toColon] at hok ⊢
      split at hok
      · cases hok
      · next hend =>
        rw [if_neg hend]
        split at hok
        · next hcolon =>
          cases hok
          rw [if_pos hcolon]
          exact ⟨_, rfl, h, rfl⟩
        · next hcolon =>
          rw [if_neg hcolon]
          exact ih hr hok
    · obtain ⟨hk, hopens, hcloses, hcolon⟩ := kind_of_beginsFunction hword
      simp only [Cursor.toColon, hk, hcolon, reduceCtorEq, or_self, if_false, Bool.false_eq_true,
        and_false] at hok
      have hlen := length_toColon_le hok
      rw [← hl, List.length_cons] at hkeep
      omega

theorem Cut.skipToColon (h : κ.Cut c c') (hok : c.skipToColon = .ok c₁)
    (hkeep : κ.tail.length ≤ c₁.rest.length) :
    ∃ c₁', c'.skipToColon = .ok c₁' ∧ κ.Cut c₁ c₁' := by
  unfold Cursor.skipToColon
  rw [h.lastEnd]
  exact h.rest.toColon hok hkeep

theorem Splits.pastBrackets (h : κ.Splits ls ls')
    (hkeep : κ.tail.length ≤ (pastBrackets depth last ls).rest.length) :
    κ.Cut (pastBrackets depth last ls) (pastBrackets depth last ls') := by
  induction ls generalizing ls' last depth with
  | nil =>
    obtain rfl := h.nil rfl
    exact ⟨h, rfl⟩
  | cons l r ih =>
    rcases h.cons_or_front with ⟨r', rfl, hr⟩ | ⟨hl, hword, -⟩
    · simp only [Cursor.pastBrackets] at hkeep ⊢
      split at hkeep
      · next heof =>
        rw [if_pos heof, if_pos heof]
        exact ⟨h, rfl⟩
      · next heof =>
        rw [if_neg heof, if_neg heof]
        split at hkeep
        · next hopens =>
          rw [if_pos hopens, if_pos hopens]
          exact ih hr hkeep
        · next hopens =>
          rw [if_neg hopens, if_neg hopens]
          split at hkeep
          · next hcloses =>
            rw [if_pos hcloses, if_pos hcloses]
            split at hkeep
            · next hd =>
              rw [if_pos hd, if_pos hd]
              exact ⟨hr, rfl⟩
            · next hd =>
              rw [if_neg hd, if_neg hd]
              exact ih hr hkeep
          · next hcloses =>
            rw [if_neg hcloses, if_neg hcloses]
            exact ih hr hkeep
    · obtain ⟨hk, hopens, hcloses, -⟩ := kind_of_beginsFunction hword
      simp only [Cursor.pastBrackets, hk, hopens, hcloses, reduceCtorEq, if_false,
        Bool.false_eq_true] at hkeep
      have hlen : (Cursor.pastBrackets depth (endAfter last l) r).rest.length ≤ r.length :=
        length_pastBrackets_le
      rw [← hl, List.length_cons] at hkeep
      omega

theorem Cut.skipBrackets (h : κ.Cut c c') (hkeep : κ.tail.length ≤ c.skipBrackets.rest.length) :
    κ.Cut c.skipBrackets c'.skipBrackets := by
  unfold Cursor.skipBrackets
  rw [h.lastEnd]
  exact h.rest.pastBrackets hkeep

theorem Splits.pastBlock (h : κ.Splits ls ls')
    (hkeep : κ.tail.length ≤ (pastBlock depth last ls).rest.length) :
    κ.Cut (pastBlock depth last ls) (pastBlock depth last ls') := by
  induction ls generalizing ls' last depth with
  | nil =>
    obtain rfl := h.nil rfl
    exact ⟨h, rfl⟩
  | cons l r ih =>
    rcases h.cons_or_front with ⟨r', rfl, hr⟩ | ⟨hl, hword, -⟩
    · simp only [Cursor.pastBlock] at hkeep ⊢
      cases hk : l.kind with
      | eof => exact ⟨h, rfl⟩
      | indent =>
        simp only [hk] at hkeep
        exact ih hr hkeep
      | dedent =>
        simp only [hk] at hkeep ⊢
        split at hkeep
        · next hd =>
          rw [if_pos hd, if_pos hd]
          exact ⟨hr, rfl⟩
        · next hd =>
          rw [if_neg hd, if_neg hd]
          exact ih hr hkeep
      | word | number | str q | op | newline =>
        simp only [hk] at hkeep
        exact ih hr hkeep
    · simp only [Cursor.pastBlock, (kind_of_beginsFunction hword).1] at hkeep
      have hlen : (Cursor.pastBlock depth (endAfter last l) r).rest.length ≤ r.length :=
        length_pastBlock_le
      rw [← hl, List.length_cons] at hkeep
      omega

theorem Splits.level_of_kind (h : κ.Splits c.rest c'.rest) (hk : c.kind ≠ .word) : κ.Level c c' :=
  h.level_or_front.resolve_right fun hfront => hk hfront.kind

/-- Only line ends and the end of all lexemes come anew. -/
theorem Splits.kind_ne (h : κ.Splits c.rest c'.rest) {k : Kind} (hk : c.kind ≠ k)
    (hne : k ≠ .newline ∧ k ≠ .eof) : c'.kind ≠ k := by
  rcases h.level_or_front with h | h
  · rwa [h.kind]
  · rcases h.kind' with hk' | hk' <;> rw [hk']
    · exact hne.1.symm
    · exact hne.2.symm

theorem Cut.skipAccessors (h : κ.Cut c c')
    (hkeep : κ.tail.length ≤ c.skipAccessors.rest.length) :
    κ.Cut c.skipAccessors c'.skipAccessors := by
  unfold Cursor.skipAccessors at hkeep ⊢
  simp only at hkeep ⊢
  split at hkeep
  · next hnewline =>
    have hlevel := h.rest.level_of_kind (by simp [hnewline])
    have hnext := h.level hlevel
    rw [if_pos hnewline, if_pos (hlevel.kind.trans hnewline)]
    split at hkeep
    · next hindent =>
      have hlevel' := hnext.rest.level_of_kind (by simp [hindent])
      rw [if_pos hindent, if_pos (hlevel'.kind.trans hindent), hnext.lastEnd]
      exact hnext.rest.pastBlock hkeep
    · next hindent =>
      rw [if_neg hindent, if_neg (hnext.rest.kind_ne hindent (by decide))]
      exact hnext
  · next hnewline =>
    have hlevel : κ.Level c c' := by
      refine h.rest.level_or_front.resolve_right fun hfront => ?_
      have hlt := length_skipToStatementEnd_lt hfront.kind
      rw [hfront.rest] at hlt
      omega
    rw [if_neg hnewline, if_neg (by rwa [hlevel.kind])]
    exact h.skipToStatementEnd hkeep

theorem Cut.skipOptionalBrackets (h : κ.Cut c c')
    (hkeep : κ.tail.length ≤ c.skipOptionalBrackets.rest.length) :
    κ.Cut c.skipOptionalBrackets c'.skipOptionalBrackets := by
  unfold Cursor.skipOptionalBrackets at hkeep ⊢
  rw [h.rest.isOp]
  split at hkeep
  · next hopen =>
    rw [if_pos hopen, if_pos hopen]
    exact h.skipBrackets hkeep
  · next hopen =>
    rw [if_neg hopen, if_neg hopen]
    exact h

/-- The lexeme after the next one, unless it is the first of those taken away. -/
theorem Splits.peekNext (h : κ.Splits c.rest c'.rest) (hc : c.kind ≠ .word ∧ c.kind ≠ .eof) :
    c'.peekNext = c.peekNext ∨
      c.advance.rest = κ.tail ∧ c.peekNext = c.advance.peek ∧ c.peekNext.beginsFunction = true := by
  obtain ⟨rest, last⟩ := c
  obtain ⟨rest', last'⟩ := c'
  simp only at h
  cases rest with
  | nil =>
    rw [h.nil rfl]
    exact .inl rfl
  | cons l r =>
    obtain ⟨hk, heof⟩ : l.kind ≠ .word ∧ l.kind ≠ .eof := hc
    rcases h.cons_or_front with ⟨r', rfl, hr⟩ | ⟨-, hword, -⟩
    · cases r with
      | nil =>
        rw [hr.nil rfl]
        exact .inl rfl
      | cons x r =>
        rcases hr.cons_or_front with ⟨r', rfl, -⟩ | ⟨htail, hword, -⟩
        · exact .inl rfl
        · have hadvance : Cursor.advance ⟨l :: x :: r, last⟩ = ⟨x :: r, endAfter last l⟩ := by
            simp only [Cursor.advance, if_neg heof]
          rw [hadvance]
          exact .inr ⟨htail, rfl, hword⟩
    · exact absurd (beginsFunction_iff.1 hword).1 hk

/-- The cut has not been passed, and what comes next is not taken away. -/
def Before (κ : Cutting) (c : Cursor) : Prop :=
  κ.tail.length < c.rest.length ∨
    κ.tail.length ≤ c.rest.length ∧ c.peek.beginsFunction = false

theorem Before.kept (h : κ.Before c) : κ.tail.length ≤ c.rest.length := by
  rcases h with h | h
  · omega
  · exact h.1

theorem Before.of_eq_or_lt (h : κ.Before c₁) (hc : c₁ = c ∨ c₁.rest.length < c.rest.length) :
    κ.Before c := by
  rcases hc with rfl | hlt
  · exact h
  · have hkept := h.kept
    exact .inl (by omega)

theorem before_of_end (hkeep : κ.tail.length ≤ c.rest.length) (hend : c.atStatementEnd = true) :
    κ.Before c := by
  refine .inr ⟨hkeep, Bool.eq_false_iff.2 fun hword => ?_⟩
  simp [atStatementEnd, endsStatement, (beginsFunction_iff.1 hword).1, Lexeme.isOp] at hend

theorem Splits.level_of_before (h : κ.Splits c.rest c'.rest) (hb : κ.Before c) : κ.Level c c' := by
  refine h.level_or_front.resolve_right fun hfront => ?_
  rcases hb with hlt | ⟨-, hword⟩
  · rw [hfront.rest] at hlt
    omega
  · rw [hfront.word] at hword
    cases hword

/-- A function goes on the line of an annotation before it. -/
theorem annotated_of_beginsFunction {l : Lexeme} (h : l.beginsFunction = true) :
    l.kind = .word ∧ annotated.contains l.text = true := by
  obtain ⟨hk, htext | htext⟩ := beginsFunction_iff.1 h <;> rw [htext] <;> exact ⟨hk, by decide⟩

theorem Cut.skipAnnotationBreaks (h : κ.Cut c c') (hb : κ.Before c.skipAnnotationBreaks) :
    κ.Cut c.skipAnnotationBreaks c'.skipAnnotationBreaks := by
  have hlevel := h.rest.level_of_before (hb.of_eq_or_lt (skipAnnotationBreaks_eq_or_lt c))
  unfold Cursor.skipAnnotationBreaks at hb ⊢
  rw [hlevel.kind]
  by_cases hnewline : c.kind = .newline
  · have hnext := h.rest.peekNext ⟨by simp [hnewline], by simp [hnewline]⟩
    split at hb
    · next hbreak =>
      obtain hsame | ⟨hfront, hpeek, hword⟩ := hnext
      · rw [hsame, if_pos hbreak, if_pos hbreak]
        exact h.level hlevel
      · rcases hb with hlt | ⟨-, hword'⟩
        · rw [hfront] at hlt
          omega
        · rw [← hpeek, hword] at hword'
          cases hword'
    · next hbreak =>
      obtain hsame | ⟨-, -, hword⟩ := hnext
      · rw [hsame, if_neg hbreak, if_neg hbreak]
        exact h
      · exact absurd ⟨hnewline, annotated_of_beginsFunction hword⟩ hbreak
  · rw [if_neg fun hbreak => hnewline hbreak.1, if_neg fun hbreak => hnewline hbreak.1]
    exact h

theorem Splits.level_of_end (h : κ.Splits c.rest c'.rest) (hend : c.atStatementEnd = true) :
    κ.Level c c' := by
  refine h.level_or_front.resolve_right fun hfront => ?_
  have hk : c.peek.kind = .word := hfront.kind
  simp [Cursor.atStatementEnd, endsStatement, hk, Lexeme.isOp] at hend

theorem Level.atStatementEnd (h : κ.Level c c') : c'.atStatementEnd = c.atStatementEnd := by
  rw [Cursor.atStatementEnd, h.peek, Cursor.atStatementEnd]

theorem Level.expectWord (h : κ.Level c c') (hk : c.kind = .word) :
    c'.expectWord = .ok (c.peek.text, c'.advance) :=
  expectWord_eq_ok.2 ⟨h.kind.trans hk, by rw [h.peek], rfl⟩

/-- A name before the cut. -/
theorem Cut.expectWord (h : κ.Splits c.rest c'.rest) {name : Text}
    (hok : c.expectWord = .ok (name, c₁)) (hkeep : κ.tail.length ≤ c₁.rest.length) :
    ∃ c₁', c'.expectWord = .ok (name, c₁') ∧ κ.Cut c₁ c₁' := by
  have hlevel := h.level_of_lt hkeep (length_expectWord hok)
  obtain ⟨hk, rfl, rfl⟩ := expectWord_eq_ok.1 hok
  exact ⟨c'.advance, hlevel.expectWord hk, hlevel.solid (by rw [hk]; rfl)⟩

/-- Within a bound that cannot run out, annotations before the cut are passed. -/
theorem Cut.annotations {ended : Bool} (h : κ.Cut c c') (hok : annotations fuel c = .ok (ended, c₁))
    (hb : κ.Before c₁) (hfuel : c.rest.length ≤ fuel) (hfuel' : c'.rest.length ≤ fuel') :
    ∃ c₁', annotations fuel' c' = .ok (ended, c₁') ∧ κ.Cut c₁ c₁' := by
  induction fuel generalizing c c' fuel' with
  | zero =>
    have hop : c.isOp "@" = false := by
      rw [Cursor.isOp, Cursor.peek, List.length_eq_zero_iff.1 (Nat.le_zero.1 hfuel)]
      rfl
    cases hok
    refine ⟨c', ?_, h⟩
    cases fuel' with
    | zero => rfl
    | succ fuel' => rw [Cursor.annotations, h.rest.isOp, hop, if_neg Bool.false_ne_true]
  | succ fuel ih =>
    simp only [Cursor.annotations] at hok
    split at hok
    · next hop =>
      obtain ⟨⟨name, c₂⟩, hname, hok⟩ := bind_ok_iff.1 hok
      have hlen := length_advance_isOp hop
      have hlen₂ := length_expectWord hname
      have hlen₃ := length_skipOptionalBrackets_le c₂
      have hlen₄ := length_skipAnnotationBreaks_le c₂.skipOptionalBrackets
      have hb₃ : κ.Before c₂.skipOptionalBrackets.skipAnnotationBreaks := by
        simp only at hok
        split at hok
        · cases hok
          exact hb
        · exact hb.of_eq_or_lt ((annotations_eq_or_lt hok).imp And.left And.left)
      have hkeep₃ := hb₃.kept
      have hlevel := h.rest.level_of_isOp hop
      have hnext := hlevel.solid (solid_of_isOp hop)
      obtain ⟨c₂', hname', hcut₂⟩ := Cut.expectWord hnext.rest hname (by omega)
      have hcut₃ := (hcut₂.skipOptionalBrackets (by omega)).skipAnnotationBreaks hb₃
      have hlevel₃ := hcut₃.rest.level_of_before hb₃
      have hlt := h.rest.length_lt hcut₂.rest (by omega) (by omega)
      cases fuel' with
      | zero => omega
      | succ fuel' =>
        have hlen₃' := length_skipOptionalBrackets_le c₂'
        have hlen₄' := length_skipAnnotationBreaks_le c₂'.skipOptionalBrackets
        simp only [Cursor.annotations, h.rest.isOp, hop, if_true, hname', bind, Except.bind,
          hlevel₃.atStatementEnd]
        simp only at hok
        split at hok
        · next hend =>
          cases hok
          rw [if_pos hend]
          exact ⟨_, rfl, hcut₃⟩
        · next hend =>
          rw [if_neg hend]
          exact ih hcut₃ hok (by omega) (by omega)
    · next hop =>
      cases hok
      refine ⟨c', ?_, h⟩
      cases fuel' with
      | zero => rfl
      | succ fuel' => rw [Cursor.annotations, h.rest.isOp, if_neg hop]

theorem Cut.skipModifiers (h : κ.Cut c c') (hfuel : c.rest.length ≤ fuel)
    (hfuel' : c'.rest.length ≤ fuel')
    (hkeep : κ.tail.length ≤ (skipModifiers fuel c).rest.length) :
    κ.Cut (skipModifiers fuel c) (skipModifiers fuel' c') := by
  induction fuel generalizing c c' fuel' with
  | zero =>
    have hrest := List.length_eq_zero_iff.1 (Nat.le_zero.1 hfuel)
    have hrest' := h.rest.nil hrest
    have hm : Grammar.isModifier c'.peek = false := by
      rw [Cursor.peek, hrest']
      rfl
    have hstays : Cursor.skipModifiers fuel' c' = c' := by
      cases fuel' with
      | zero => rfl
      | succ fuel' => rw [Cursor.skipModifiers, hm, if_neg Bool.false_ne_true]
    rw [hstays]
    exact h
  | succ fuel ih =>
    by_cases hm : Grammar.isModifier c.peek = true
    · have hlt := length_skipModifiers_lt hfuel hm
      have hlevel := h.rest.level_of_lt hkeep hlt
      have hk := kind_of_isModifier hm
      have hnext := hlevel.solid (by rw [hk]; rfl)
      have hlen := length_advance_lt (c := c) (by simp [hk])
      rw [Cursor.skipModifiers, if_pos hm] at hkeep ⊢
      have hlen₂ := length_skipOptionalBrackets_le c.advance
      have hmore := length_skipModifiers_le fuel c.advance.skipOptionalBrackets
      have hlt' := h.rest.length_lt hnext.rest (by omega) hlen
      have hlen₂' := length_skipOptionalBrackets_le c'.advance
      cases fuel' with
      | zero => omega
      | succ fuel' =>
        rw [Cursor.skipModifiers, hlevel.peek, if_pos hm]
        exact ih (hnext.skipOptionalBrackets (by omega)) (by omega) (by omega) hkeep
    · have hm' : ¬ Grammar.isModifier c'.peek = true := by
        rcases h.rest.level_or_front with hlevel | hfront
        · rwa [hlevel.peek]
        · rcases hfront.kind' with hk | hk <;>
            simp [Grammar.isModifier, show c'.peek.kind = _ from hk]
      rw [Cursor.skipModifiers, if_neg hm]
      cases fuel' with
      | zero => exact h
      | succ fuel' =>
        rw [Cursor.skipModifiers, if_neg hm']
        exact h

theorem Cut.dottedTail (h : κ.Cut c c') (hok : dottedTail fuel c = .ok c₁)
    (hkeep : κ.tail.length ≤ c₁.rest.length) (hfuel : c.rest.length ≤ fuel)
    (hfuel' : c'.rest.length ≤ fuel') :
    ∃ c₁', dottedTail fuel' c' = .ok c₁' ∧ κ.Cut c₁ c₁' := by
  induction fuel generalizing c c' fuel' with
  | zero =>
    have hop : c.isOp "." = false := by
      rw [Cursor.isOp, Cursor.peek, List.length_eq_zero_iff.1 (Nat.le_zero.1 hfuel)]
      rfl
    cases hok
    refine ⟨c', ?_, h⟩
    cases fuel' with
    | zero => rfl
    | succ fuel' => rw [Cursor.dottedTail, h.rest.isOp, hop, if_neg Bool.false_ne_true]
  | succ fuel ih =>
    simp only [Cursor.dottedTail] at hok
    split at hok
    · next hop =>
      obtain ⟨⟨name, c₂⟩, hname, hok⟩ := bind_ok_iff.1 hok
      have hlen := length_advance_isOp hop
      have hlen₂ := length_expectWord hname
      have hlen₃ : c₁.rest.length ≤ c₂.rest.length := length_dottedTail_le hok
      have hnext := (h.rest.level_of_isOp hop).solid (solid_of_isOp hop)
      obtain ⟨c₂', hname', hcut₂⟩ := Cut.expectWord hnext.rest hname (by omega)
      have hlt' := h.rest.length_lt hcut₂.rest (by omega) (by omega)
      cases fuel' with
      | zero => omega
      | succ fuel' =>
        simp only [Cursor.dottedTail, h.rest.isOp, hop, if_true, hname', bind, Except.bind]
        exact ih hcut₂ hok (by omega) (by omega)
    · next hop =>
      cases hok
      refine ⟨c', ?_, h⟩
      cases fuel' with
      | zero => rfl
      | succ fuel' => rw [Cursor.dottedTail, h.rest.isOp, if_neg hop]

theorem Cut.typeHint (h : κ.Splits c.rest c'.rest) (hok : c.typeHint = .ok c₁)
    (hkeep : κ.tail.length ≤ c₁.rest.length) :
    ∃ c₁', c'.typeHint = .ok c₁' ∧ κ.Cut c₁ c₁' := by
  simp only [Cursor.typeHint, bind_ok_iff] at hok
  obtain ⟨⟨name, c₂⟩, hname, c₃, htail, hok⟩ := hok
  have hlen₂ := length_expectWord hname
  have hlen₃ : c₃.rest.length ≤ c₂.rest.length := length_dottedTail_le htail
  have hbrackets : c₃.skipBrackets.rest.length ≤ c₃.rest.length := length_pastBrackets_le
  have hkeep₃ : κ.tail.length ≤ c₃.rest.length := by
    cases hok
    split at hkeep <;> omega
  obtain ⟨c₂', hname', hcut₂⟩ := Cut.expectWord h hname (by omega)
  obtain ⟨c₃', htail', hcut₃⟩ := hcut₂.dottedTail htail hkeep₃ (Nat.le_refl _) (Nat.le_refl _)
  simp only [Cursor.typeHint, hname', htail', bind, Except.bind, hcut₃.rest.isOp]
  cases hok
  split at hkeep
  · next hopen =>
    rw [if_pos hopen, if_pos hopen]
    exact ⟨_, rfl, hcut₃.skipBrackets hkeep⟩
  · next hopen =>
    rw [if_neg hopen, if_neg hopen]
    exact ⟨_, rfl, hcut₃⟩

theorem Cut.initializer (h : κ.Cut c c') {ns : List Node} (hok : c.initializer = .ok (ns, c₁))
    (hkeep : κ.tail.length ≤ c₁.rest.length) :
    ∃ c₁', c'.initializer = .ok (ns, c₁') ∧ κ.Cut c₁ c₁' := by
  unfold Cursor.initializer at hok ⊢
  rw [h.rest.isOp, h.rest.isOp]
  split at hok
  · next hmark =>
    obtain ⟨⟨value, c₂⟩, hvalue, hok⟩ := bind_ok_iff.1 hok
    cases hok
    have hlevel := (Bool.or_eq_true_iff.1 hmark).elim h.rest.level_of_isOp h.rest.level_of_isOp
    obtain ⟨-, c₂', hvalue', hcut⟩ := expression_cut hvalue hkeep hlevel.advance
    rw [if_pos hmark, hvalue']
    exact ⟨c₂', rfl, hcut⟩
  · next hmark =>
    cases hok
    rw [if_neg hmark]
    exact ⟨c', rfl, h⟩

theorem Cut.setget (h : κ.Cut c c')
    (hkeep : κ.tail.length ≤
      (if c.isWord "setget" then c.skipToStatementEnd else c).rest.length) :
    κ.Cut (if c.isWord "setget" then c.skipToStatementEnd else c)
      (if c'.isWord "setget" then c'.skipToStatementEnd else c') := by
  rw [h.rest.isWord "setget" (by decide)]
  split at hkeep
  · next hword =>
    rw [if_pos hword, if_pos hword]
    exact h.skipToStatementEnd hkeep
  · next hword =>
    rw [if_neg hword, if_neg hword]
    exact h

/-- The type of a variable before the cut. -/
theorem Cut.varType (h : κ.Cut c c')
    (hok : (if c.isOp ":" && c.peekNext.kind != .newline then c.advance.typeHint else .ok c) =
      .ok c₁) (hkeep : κ.tail.length ≤ c₁.rest.length) :
    ∃ c₁', (if c'.isOp ":" && c'.peekNext.kind != .newline then c'.advance.typeHint else .ok c') =
      .ok c₁' ∧ κ.Cut c₁ c₁' := by
  rw [h.rest.isOp]
  by_cases hcolon : c.isOp ":" = true
  · have hlevel := h.rest.level_of_isOp hcolon
    have hk := kind_of_isOp hcolon
    rcases h.rest.peekNext ⟨by simp [hk], by simp [hk]⟩ with hsame | ⟨hfront, -, hword⟩
    · rw [hsame]
      split at hok
      · next htype =>
        rw [if_pos htype]
        exact Cut.typeHint hlevel.advance hok hkeep
      · next htype =>
        cases hok
        rw [if_neg htype]
        exact ⟨c', rfl, h⟩
    · -- The type would be the function behind the cut.
      have hkind : c.peekNext.kind = .word := (beginsFunction_iff.1 hword).1
      rw [hcolon, hkind, if_pos (by decide)] at hok
      have hlen := length_typeHint hok
      rw [hfront] at hlen
      omega
  · rw [Bool.not_eq_true] at hcolon
    rw [hcolon, Bool.false_and, if_neg Bool.false_ne_true] at hok ⊢
    cases hok
    exact ⟨c', rfl, h⟩

theorem Cut.varStatement (h : κ.Cut c c') (hok : c.varStatement start = .ok (n, c₁))
    (hkeep : κ.tail.length ≤ c₁.rest.length) :
    ∃ c₁', c'.varStatement start = .ok (n, c₁') ∧ κ.Cut c₁ c₁' := by
  have hlevel := h.rest.level_of_lt hkeep (length_varStatement hok)
  obtain ⟨name, c₂, c₃, value, c₄, c₅, hname, htype, hvalue, hc₅, rfl, hend⟩ :=
    varStatement_eq_ok hok
  have hkeep₅ : κ.tail.length ≤ c₅.rest.length := by
    rcases hend with ⟨-, rfl⟩ | ⟨-, -, rfl⟩
    · have hlen₆ := length_advance_le c₅
      have hlen₇ := length_skipAccessors_le c₅.advance
      omega
    · exact hkeep
  have hlen₅ : c₅.rest.length ≤ c₄.rest.length := by
    rw [hc₅]
    split
    · exact length_skipToStatementEnd_le c₄
    · exact Nat.le_refl _
  have hlen₄ := length_initializer_le hvalue
  have hlen₃ := length_optionalType_le htype
  obtain ⟨c₂', hname', hcut₂⟩ := Cut.expectWord hlevel.advance hname (by omega)
  obtain ⟨c₃', htype', hcut₃⟩ := hcut₂.varType htype (by omega)
  obtain ⟨c₄', hvalue', hcut₄⟩ := hcut₃.initializer hvalue (by omega)
  have hcut₅ := hcut₄.setget (by rw [← hc₅]; exact hkeep₅)
  rw [← hc₅] at hcut₅
  have hend' := varStatement_ok start hname' htype' hvalue' rfl
  generalize (if c₄'.isWord "setget" then c₄'.skipToStatementEnd else c₄') = c₅' at hcut₅ hend'
  simp only [hcut₅.spanFrom, hcut₅.rest.isOp] at hend'
  rcases hend with ⟨hcolon, rfl⟩ | ⟨hcolon, hend, rfl⟩
  · have hnext := (hcut₅.rest.level_of_isOp hcolon).solid (solid_of_isOp hcolon)
    exact ⟨_, hend' _ (.inl ⟨hcolon, rfl⟩), hnext.skipAccessors hkeep⟩
  · have hlevel₅ := hcut₅.rest.level_of_end hend
    exact ⟨_, hend' _ (.inr ⟨hcolon, hlevel₅.atStatementEnd.trans hend, rfl⟩), hcut₅⟩

theorem Cut.returnStatement (h : κ.Cut c c') (hk : c.kind = .word)
    (hok : c.returnStatement start = .ok (n, c₁)) (hkeep : κ.tail.length ≤ c₁.rest.length) :
    ∃ c₁', c'.returnStatement start = .ok (n, c₁') ∧ κ.Cut c₁ c₁' := by
  have hlevel := h.rest.level_of_lt hkeep (length_returnStatement hk hok)
  have hnext := hlevel.solid (by rw [hk]; rfl)
  obtain ⟨value, rfl, hend, hvalue⟩ := returnStatement_eq_ok hok
  simp only [Cursor.returnStatement]
  rcases hvalue with ⟨-, rfl, rfl⟩ | ⟨hopen, v, rfl, hv⟩
  · have hlevel₁ := hnext.rest.level_of_end hend
    have hend' := hlevel₁.atStatementEnd.trans hend
    refine ⟨c'.advance, ?_, hnext⟩
    rw [if_pos hend']
    simp only [expectStatementEnd_eq_ok (u := ()).2 hend', hnext.spanFrom, bind, Except.bind]
    rfl
  · have hlevel₁ := hnext.rest.level_of_lt hkeep (length_expression hv)
    obtain ⟨-, c₁', hv', hcut⟩ := expression_cut hv hkeep hnext.rest
    have hend' := (hcut.rest.level_of_end hend).atStatementEnd.trans hend
    refine ⟨c₁', ?_, hcut⟩
    rw [hlevel₁.atStatementEnd, hopen, if_neg Bool.false_ne_true]
    simp only [hv', expectStatementEnd_eq_ok (u := ()).2 hend', hcut.spanFrom, bind, Except.bind,
      pure, Except.pure]

theorem Cut.expressionStatement (h : κ.Cut c c') (hok : c.expressionStatement start = .ok (n, c₁))
    (hkeep : κ.tail.length ≤ c₁.rest.length) :
    ∃ c₁', c'.expressionStatement start = .ok (n, c₁') ∧ κ.Cut c₁ c₁' := by
  obtain ⟨hend, target, c₂, htarget, hrest⟩ := expressionStatement_eq_ok hok
  rcases hrest with ⟨hk, hassign, value, hvalue, rfl⟩ | ⟨hassign, rfl, rfl⟩
  · have hlen₂ := length_advance_le c₂
    have hlen := length_expression hvalue
    obtain ⟨-, c₂', htarget', hcut₂⟩ := expression_cut htarget (by omega) h.rest
    have hlevel := hcut₂.rest.level_of_kind (by simp [hk])
    obtain ⟨-, c₁', hvalue', hcut⟩ := expression_cut hvalue hkeep hlevel.advance
    have hend' := (hcut.rest.level_of_end hend).atStatementEnd.trans hend
    refine ⟨c₁', ?_, hcut⟩
    simp only [Cursor.expressionStatement, htarget', bind, Except.bind, hlevel.peek]
    rw [if_pos ⟨hk, hassign⟩]
    simp only [hvalue', expectStatementEnd_eq_ok (u := ()).2 hend', hcut.spanFrom]
    rfl
  · obtain ⟨-, c₁', htarget', hcut⟩ := expression_cut htarget hkeep h.rest
    have hlevel := hcut.rest.level_of_end hend
    have hend' := hlevel.atStatementEnd.trans hend
    refine ⟨c₁', ?_, hcut⟩
    simp only [Cursor.expressionStatement, htarget', bind, Except.bind, hlevel.peek]
    rw [if_neg (show ¬ (c₁.peek.kind = .op ∧ _) from hassign),
      expectStatementEnd_eq_ok (u := ()).2 hend', hcut.spanFrom]
    rfl

theorem Cut.plainDeclaration (h : κ.Cut c c') {kind : Node.Kind}
    (hok : c.plainDeclaration kind start = (n, c₁)) (hkeep : κ.tail.length ≤ c₁.rest.length) :
    ∃ c₁', c'.plainDeclaration kind start = (n, c₁') ∧ κ.Cut c₁ c₁' := by
  cases hok
  have hcut := h.skipToStatementEnd hkeep
  refine ⟨c'.skipToStatementEnd, ?_, hcut⟩
  simp only [Cursor.plainDeclaration, hcut.spanFrom]

end Cutting

end Phrasebook
