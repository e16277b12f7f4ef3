import Phrasebook.Grammar.Statement
import Phrasebook.Proofs.Shape

/-!
Reading alike lexemes.

Lexemes are `Lexeme.Alike` if one is the other carried over by a shift, where a string may have another
content. The grammar does not see the difference: on alike lexemes every rule of expressions
goes the same way, fails on both or gives alike nodes, and stops before alike lexemes. The rules of
statements follow in `Proofs.Grammar.AlikeStatement`.
-/
namespace Phrasebook

namespace Lexeme

/-- One lexeme is the other carried over, from places of the shift. -/
structure Alike (φ : Shift) (l l' : Lexeme) : Prop extends Moved φ.carry l l' where
  start : l.span.start ∈ φ.places
  stop : l.span.stop ∈ φ.places
  literal : ∀ q, l.kind = .str q → (l.span, q) ∈ φ.literals

variable {φ : Shift} {l l' : Lexeme} {ls : List Lexeme}

theorem Alike.within (h : Alike φ l l') : l.span.Within φ := ⟨h.start, .inr h.stop⟩

/-- The lexemes end with the mark of the end. -/
def Closed (ls : List Lexeme) : Prop := ∃ body e, ls = body ++ [e] ∧ e.kind = .eof

theorem Closed.tail (h : Closed (l :: ls)) (hl : l.kind ≠ .eof) : Closed ls := by
  obtain ⟨body, e, hbody, he⟩ := h
  cases body with
  | nil =>
    cases hbody
    exact absurd he hl
  | cons b body =>
    cases hbody
    exact ⟨body, e, rfl, he⟩

end Lexeme

/-- Both parses fail, or both succeed with related results. -/
inductive Agree {α : Type} (R : α → α → Prop) : Except ParseError α → Except ParseError α → Prop
  | ok {a a' : α} (h : R a a') : Agree R (.ok a) (.ok a')
  | error {e e' : ParseError} : Agree R (.error e) (.error e')

theorem Agree.bind {α β : Type} {R : α → α → Prop} {Q : β → β → Prop}
    {x x' : Except ParseError α} {k k' : α → Except ParseError β} (h : Agree R x x')
    (hk : ∀ a a', R a a' → Agree Q (k a) (k' a')) : Agree Q (x >>= k) (x' >>= k') := by
  cases h with
  | ok h => exact hk _ _ h
  | error => exact .error

namespace Cursor

open Grammar Node

/-- Cursors before alike lexemes that have come to the same place. -/
structure Alike (φ : Shift) (c c' : Cursor) : Prop where
  rest : List.Forall₂ (Lexeme.Alike φ) c.rest c'.rest
  closed : Lexeme.Closed c.rest
  lastEnd : c'.lastEnd = φ.carry c.lastEnd
  reached : c.lastEnd ∈ insert 0 φ.places

/-- Related results with what is left to be read. -/
inductive Found {α : Type} (φ : Shift) (R : α → α → Prop) : α × Cursor → α × Cursor → Prop
  | mk {a a' : α} {c c' : Cursor} (what : R a a') (next : Alike φ c c') :
      Found φ R (a, c) (a', c')

variable {φ : Shift} {c c' : Cursor} {l l' : Lexeme} {r r' : List Lexeme} {last : Nat}

theorem Alike.peek (h : Alike φ c c') : Lexeme.Alike φ c.peek c'.peek := by
  obtain ⟨body, e, hbody, -⟩ := h.closed
  have hrest := h.rest
  unfold Cursor.peek
  cases hr : c.rest with
  | nil => simp [hr] at hbody
  | cons l r =>
    rw [hr] at hrest
    obtain ⟨l', r', hl, -, hr'⟩ := List.forall₂_cons_left_iff.1 hrest
    rw [hr']
    exact hl

theorem Alike.peekNext (h : Alike φ c c') : Lexeme.Alike φ c.peekNext c'.peekNext := by
  have hrest := h.rest
  have hpeek := h.peek
  unfold Cursor.peekNext
  cases hr : c.rest with
  | nil =>
    rw [hr, List.forall₂_nil_left_iff] at hrest
    rw [hrest]
    exact hpeek
  | cons a r =>
    rw [hr] at hrest
    obtain ⟨a', r', ha, htail, hr'⟩ := List.forall₂_cons_left_iff.1 hrest
    rw [hr']
    cases htail with
    | nil => exact hpeek
    | cons hb _ => exact hb

theorem Alike.kind (h : Alike φ c c') : c'.kind = c.kind := h.peek.kind

theorem Alike.isOp (h : Alike φ c c') (op : String) : c'.isOp op = c.isOp op := h.peek.isOp op

theorem Alike.isWord (h : Alike φ c c') (w : String) : c'.isWord w = c.isWord w := h.peek.isWord w

theorem Alike.start (h : Alike φ c c') : c'.peek.span.start = φ.carry c.peek.span.start := by
  rw [h.peek.span, Span.moved_start]

theorem endAfter_alike (hl : Lexeme.Alike φ l l') :
    endAfter (φ.carry last) l' = φ.carry (endAfter last l) := by
  unfold endAfter
  rw [hl.kind, hl.span]
  split <;> rfl

theorem endAfter_mem (hl : Lexeme.Alike φ l l') (h : last ∈ insert 0 φ.places) :
    endAfter last l ∈ insert 0 φ.places := by
  unfold endAfter
  split
  · exact .inr hl.stop
  · exact h

/-- Passing one lexeme. -/
theorem Alike.pass (h : Alike φ ⟨l :: r, last⟩ ⟨l' :: r', φ.carry last⟩) (hl : l.kind ≠ .eof) :
    Alike φ ⟨r, endAfter last l⟩ ⟨r', φ.carry (endAfter last l)⟩ := by
  cases h.rest with
  | cons ha hr => exact ⟨hr, h.closed.tail hl, rfl, endAfter_mem ha h.reached⟩

theorem Alike.advance (h : Alike φ c c') : Alike φ c.advance c'.advance := by
  obtain ⟨rest, last⟩ := c
  obtain ⟨rest', last'⟩ := c'
  cases h.lastEnd
  cases h.rest with
  | nil => exact h
  | cons hl hr =>
    simp only [Cursor.advance, hl.kind, endAfter_alike hl]
    split
    · exact h
    · next heof => exact h.pass heof

theorem Alike.expectOp (h : Alike φ c c') (op : String) :
    Agree (Alike φ) (c.expectOp op) (c'.expectOp op) := by
  unfold Cursor.expectOp
  rw [h.isOp]
  split
  · exact .ok h.advance
  · exact .error

theorem Alike.expectWord (h : Alike φ c c') :
    Agree (Found φ Eq) c.expectWord c'.expectWord := by
  unfold Cursor.expectWord
  rw [h.kind]
  split
  · next hk =>
    have hk : c.peek.kind = .word := hk
    exact .ok ⟨(h.peek.text (by simp [hk])).symm, h.advance⟩
  · exact .error

theorem Alike.within_spanFrom (h : Alike φ c c') {start : Nat} (hs : start ∈ φ.places) :
    (c.spanFrom start).Within φ :=
  ⟨hs, Shift.max_mem h.reached (.inr hs)⟩

theorem Alike.spanFrom (h : Alike φ c c') {start : Nat} (hs : start ∈ φ.places) :
    c'.spanFrom (φ.carry start) = (c.spanFrom start).moved φ.carry := by
  simp only [Cursor.spanFrom, Span.moved, h.lastEnd, Span.mk.injEq, true_and]
  exact (Shift.carry_max h.reached (.inr hs)).symm

/-- A node from a place passed up to the place reached. -/
theorem Alike.node_from (h : Alike φ c c') {start : Nat} (hs : start ∈ φ.places)
    {kind : Node.Kind} {sort sort' : Node.Kind → Bool} {ns ns' : List Node}
    (hsort : sort kind = true) (hns : AlikeAll φ sort' ns ns')
    (htakes : kind.takes (ns.map (·.kind)) = true) (hq : kind.isString = false) :
    Node.Alike φ sort ⟨kind, c.spanFrom start, ns⟩ ⟨kind, c'.spanFrom (φ.carry start), ns'⟩ :=
  alike_mk hsort (h.within_spanFrom hs) (h.spanFrom hs) hns htakes hq

theorem Alike.leaf_from (h : Alike φ c c') {start : Nat} (hs : start ∈ φ.places)
    {kind : Node.Kind} {sort : Node.Kind → Bool} (hsort : sort kind = true)
    (htakes : kind.takes [] = true) (hq : kind.isString = false) :
    Node.Alike φ sort ⟨kind, c.spanFrom start, []⟩ ⟨kind, c'.spanFrom (φ.carry start), []⟩ :=
  alike_leaf hsort (h.within_spanFrom hs) (h.spanFrom hs) htakes hq

/-- The same where the first child is of another sort than the others. -/
theorem Alike.node_headed (h : Alike φ c c') {start : Nat} (hs : start ∈ φ.places)
    {kind : Node.Kind} {sort first more : Node.Kind → Bool} {n n' : Node} {ns ns' : List Node}
    (hsort : sort kind = true) (hn : Node.Alike φ first n n') (hns : AlikeAll φ more ns ns')
    (htakes : ∀ ks, kind.takes ks = Kind.isHeaded first more ks)
    (hq : kind.isString = false) :
    Node.Alike φ sort ⟨kind, c.spanFrom start, n :: ns⟩
      ⟨kind, c'.spanFrom (φ.carry start), n' :: ns'⟩ :=
  alike_headed hsort (h.within_spanFrom hs) (h.spanFrom hs) hn hns htakes hq

/-- An operand behind a first part. -/
theorem Alike.node_behind (h : Alike φ c c') {kind : Node.Kind} {head head' : Node}
    {ns ns' : List Node} (hhead : Node.Alike φ Kind.isOperand head head')
    (hsort : kind.isOperand = true) (hns : AlikeAll φ Kind.isOperand ns ns')
    (htakes : kind.takes ((head :: ns).map (·.kind)) = true)
    (hq : kind.isString = false) :
    Node.Alike φ Kind.isOperand ⟨kind, ⟨head.span.start, c.lastEnd⟩, head :: ns⟩
      ⟨kind, ⟨head'.span.start, c'.lastEnd⟩, head' :: ns'⟩ := by
  refine alike_mk hsort ⟨hhead.within.start, h.reached⟩ ?_ (.cons hhead hns) htakes hq
  rw [h.lastEnd, hhead.span]
  rfl

theorem Alike.leaf (h : Alike φ c c') {kind : Node.Kind} (hsort : kind.isOperand = true)
    (htakes : kind.takes [] = true) (hq : kind.isString = false) :
    Found φ (Node.Alike φ Kind.isOperand) (c.leaf kind) (c'.leaf kind) :=
  ⟨alike_leaf hsort h.peek.within h.peek.span htakes hq, h.advance⟩

theorem Alike.pathTail (h : Alike φ ⟨r, last⟩ ⟨r', φ.carry last⟩) :
    Alike φ (pathTail last r) (pathTail (φ.carry last) r') := by
  fun_induction Cursor.pathTail last r generalizing r' with
  | case1 last slash name r hp ih =>
    obtain ⟨slash', t', hslash, htail, rfl⟩ := List.forall₂_cons_left_iff.1 h.rest
    obtain ⟨name', r', hname, hr, rfl⟩ := List.forall₂_cons_left_iff.1 htail
    have hsame : (slash'.isOp "/" && slash'.span.start == φ.carry last &&
        name'.span.start == slash'.span.stop && (name'.kind == .word || name'.kind == .number)) =
        true := by
      rw [hslash.isOp, hname.kind, hslash.span, hname.span]
      simp only [Bool.and_eq_true, beq_iff_eq, Span.moved] at hp ⊢
      rw [hp.1.1.2, hp.1.2]
      exact ⟨⟨⟨hp.1.1.1, rfl⟩, rfl⟩, hp.2⟩
    have hkind : slash.kind ≠ .eof ∧ name.kind ≠ .eof := by
      simp only [Bool.and_eq_true, Bool.or_eq_true, beq_iff_eq, Lexeme.isOp] at hp
      refine ⟨by simp [hp.1.1.1.1], ?_⟩
      rcases hp.2 with hk | hk <;> simp [hk]
    have hsolid : name.kind.isSolid = true := by
      simp only [Bool.and_eq_true, Bool.or_eq_true, beq_iff_eq] at hp
      rcases hp.2 with hk | hk <;> rw [hk] <;> rfl
    have hnext := (h.pass hkind.1).pass hkind.2
    rw [endAfter_solid hsolid] at hnext
    rw [Cursor.pathTail, if_pos hsame, hname.span]
    exact ih hnext
  | case2 last slash name r hp =>
    obtain ⟨slash', t', hslash, htail, rfl⟩ := List.forall₂_cons_left_iff.1 h.rest
    obtain ⟨name', r', hname, hr, rfl⟩ := List.forall₂_cons_left_iff.1 htail
    -- Places that differ are still different when carried over.
    have hsame : ¬ (slash'.isOp "/" && slash'.span.start == φ.carry last &&
        name'.span.start == slash'.span.stop && (name'.kind == .word || name'.kind == .number)) =
        true := by
      rw [hslash.isOp, hname.kind, hslash.span, hname.span]
      simp only [Bool.and_eq_true, beq_iff_eq, Span.moved,
        Shift.carry_eq_iff (.inr hslash.start) h.reached,
        Shift.carry_eq_iff (.inr hname.start) (.inr hslash.stop)] at hp ⊢
      exact hp
    rw [Cursor.pathTail, if_neg hsame]
    exact h
  | case3 r last hr =>
    have hrest := h.rest
    have hr' : pathTail (φ.carry last) r' = ⟨r', φ.carry last⟩ := by
      cases hrest with
      | nil => rfl
      | cons ha htail =>
        cases htail with
        | nil => rfl
        | cons hb _ => exact absurd rfl (hr _ _ _)
    rw [hr']
    exact h

theorem Alike.nodePath (h : Alike φ c c') :
    Agree (Found φ (Node.Alike φ Kind.isOperand)) c.nodePath c'.nodePath := by
  have ha := h.advance
  have hstart := h.peek.start
  unfold Cursor.nodePath
  simp only [ha.kind, h.start]
  split
  · exact .ok ⟨ha.advance.leaf_from hstart rfl rfl rfl, ha.advance⟩
  · have htail : Alike φ (Cursor.pathTail c.advance.advance.lastEnd c.advance.advance.rest)
        (Cursor.pathTail c'.advance.advance.lastEnd c'.advance.advance.rest) := by
      have haa := ha.advance
      rw [haa.lastEnd]
      exact Alike.pathTail ⟨haa.rest, haa.closed, rfl, haa.reached⟩
    exact .ok ⟨htail.leaf_from hstart rfl rfl rfl, htail⟩
  · exact .error

theorem Alike.parentMember (h : Alike φ c c') :
    Agree (Found φ (Node.Alike φ Kind.isOperand)) c.parentMember c'.parentMember := by
  unfold Cursor.parentMember
  rw [h.start]
  refine h.advance.expectWord.bind ?_
  rintro ⟨name, c₁⟩ ⟨name', c₁'⟩ ⟨rfl, h₁⟩
  exact .ok ⟨h₁.leaf_from h.peek.start rfl rfl rfl, h₁⟩

theorem Alike.wordExpression (h : Alike φ c c') (hk : c.kind = .word) :
    Agree (Found φ (Node.Alike φ Kind.isOperand)) c.wordExpression c'.wordExpression := by
  have hk : c.peek.kind = .word := hk
  unfold Cursor.wordExpression
  simp only [h.isWord, h.peek.text (by simp [hk])]
  split
  · exact .ok (h.leaf rfl rfl rfl)
  · split
    · exact .error
    · split
      · exact .error
      · exact .ok (h.leaf rfl rfl rfl)

theorem binaryLevel?_alike (h : Lexeme.Alike φ l l') : binaryLevel? l' = binaryLevel? l := by
  unfold binaryLevel?
  rw [h.kind]
  cases hk : l.kind with
  | word | op => simp only [h.text (by simp [hk])]
  | _ => rfl

theorem unaryLevel?_alike (h : Lexeme.Alike φ l l') : unaryLevel? l' = unaryLevel? l := by
  simp only [unaryLevel?, h.kind, h.isWord, h.isOp]

/-- The same binary operator comes next, or none does. -/
theorem Alike.binaryOp? (h : Alike φ c c') :
    (c.binaryOp? = none ∧ c'.binaryOp? = none) ∨
    ∃ level op after after', c.binaryOp? = some (level, op, after) ∧
      c'.binaryOp? = some (level, op, after') ∧ Alike φ after after' := by
  unfold Cursor.binaryOp?
  rw [h.isWord, h.peekNext.isWord, binaryLevel?_alike h.peek]
  split
  · exact .inr ⟨_, _, _, _, rfl, rfl, h.advance.advance⟩
  · cases hlevel : binaryLevel? c.peek with
    | none => exact .inl ⟨rfl, rfl⟩
    | some level =>
      have htext : c'.peek.text = c.peek.text := by
        refine h.peek.text fun q hq => ?_
        simp [binaryLevel?, hq] at hlevel
      refine .inr ⟨level, c.peek.text, _, _, rfl, ?_, h.advance⟩
      rw [htext]
      rfl

/-- Both parses fail, or both give alike nodes of a sort and stop before alike lexemes. -/
abbrev AgreeOn (φ : Shift) (sort : Node.Kind → Bool) :
    Except ParseError (Node × Cursor) → Except ParseError (Node × Cursor) → Prop :=
  Agree (Found φ (Node.Alike φ sort))

/-- The same for lists of nodes. -/
abbrev AgreeAll (φ : Shift) (sort : Node.Kind → Bool) :
    Except ParseError (List Node × Cursor) → Except ParseError (List Node × Cursor) → Prop :=
  Agree (Found φ (AlikeAll φ sort))

/-- Within a bound, the rules of expressions go the same way on alike lexemes. -/
structure AlikeWithin (φ : Shift) (fuel : Nat) : Prop where
  expression : ∀ {c c'}, Alike φ c c' →
    AgreeOn φ Kind.isOperand (expressionIn fuel c) (expressionIn fuel c')
  binary : ∀ {c c'} level, Alike φ c c' →
    AgreeOn φ Kind.isOperand (binaryIn fuel level c) (binaryIn fuel level c')
  binaryTail : ∀ {c c'} level {left left'}, Node.Alike φ Kind.isOperand left left' → Alike φ c c' →
    AgreeOn φ Kind.isOperand (binaryTailIn fuel level left c) (binaryTailIn fuel level left' c')
  operand : ∀ {c c'}, Alike φ c c' →
    AgreeOn φ Kind.isOperand (operandIn fuel c) (operandIn fuel c')
  chain : ∀ {c c'}, Alike φ c c' → AgreeOn φ Kind.isOperand (chainIn fuel c) (chainIn fuel c')
  chainTail : ∀ {c c' head head'}, Node.Alike φ Kind.isOperand head head' → Alike φ c c' →
    AgreeOn φ Kind.isOperand (chainTailIn fuel head c) (chainTailIn fuel head' c')
  sequence : ∀ {c c'} close, Alike φ c c' →
    AgreeAll φ Kind.isOperand (sequenceIn fuel close c) (sequenceIn fuel close c')
  pairs : ∀ {c c'}, Alike φ c c' → AgreeAll φ (· == .pair) (pairsIn fuel c) (pairsIn fuel c')
  primary : ∀ {c c'}, Alike φ c c' →
    AgreeOn φ Kind.isOperand (primaryIn fuel c) (primaryIn fuel c')

variable {fuel : Nat}

/-- An operand of two parts, from the beginning of one to the end of the other. -/
theorem alike_hull {left left' right right' : Node} {kind : Node.Kind} {sort : Node.Kind → Bool}
    {ns ns' : List Node} (hl : Node.Alike φ Kind.isOperand left left')
    (hr : Node.Alike φ Kind.isOperand right right') (hsort : sort kind = true)
    (hns : AlikeAll φ Kind.isOperand ns ns') (htakes : kind.takes (ns.map (·.kind)) = true)
    (hq : kind.isString = false) :
    Node.Alike φ sort ⟨kind, left.span.hull right.span, ns⟩
      ⟨kind, left'.span.hull right'.span, ns'⟩ := by
  refine alike_mk hsort (hl.within.hull hr.within) ?_ hns htakes hq
  rw [hl.span, hr.span, hl.within.moved_hull hr.within]

theorem AlikeWithin.expressionIn_succ (ih : AlikeWithin φ fuel) (h : Alike φ c c') :
    AgreeOn φ Kind.isOperand (expressionIn (fuel + 1) c) (expressionIn (fuel + 1) c') := by
  rw [expressionIn, expressionIn]
  refine (ih.binary 1 h).bind ?_
  rintro ⟨value, c₁⟩ ⟨value', c₁'⟩ ⟨hvalue, h₁⟩
  simp only [h₁.isWord]
  split
  · refine (ih.binary 1 h₁.advance).bind ?_
    rintro ⟨condition, c₂⟩ ⟨condition', c₂'⟩ ⟨hcondition, h₂⟩
    simp only [h₂.isWord]
    split
    · refine (ih.expression h₂.advance).bind ?_
      rintro ⟨other, c₃⟩ ⟨other', c₃'⟩ ⟨hother, h₃⟩
      have hall := List.Forall₂.cons hvalue (.cons hcondition (.cons hother .nil))
      exact .ok ⟨alike_hull hvalue hother rfl hall
        (by simp [Kind.takes, hvalue.sort, hcondition.sort, hother.sort]) rfl, h₃⟩
    · exact .error
  · exact .ok ⟨hvalue, h₁⟩

theorem AlikeWithin.binaryIn_succ (ih : AlikeWithin φ fuel) (level : Nat) (h : Alike φ c c') :
    AgreeOn φ Kind.isOperand (binaryIn (fuel + 1) level c) (binaryIn (fuel + 1) level c') := by
  rw [binaryIn, binaryIn]
  refine (ih.operand h).bind ?_
  rintro ⟨left, c₁⟩ ⟨left', c₁'⟩ ⟨hleft, h₁⟩
  exact ih.binaryTail level hleft h₁

theorem AlikeWithin.binaryTailIn_succ (ih : AlikeWithin φ fuel) (level : Nat) {left left' : Node}
    (hl : Node.Alike φ Kind.isOperand left left') (h : Alike φ c c') :
    AgreeOn φ Kind.isOperand (binaryTailIn (fuel + 1) level left c)
      (binaryTailIn (fuel + 1) level left' c') := by
  rw [binaryTailIn, binaryTailIn]
  rcases h.binaryOp? with ⟨hop, hop'⟩ | ⟨opLevel, op, after, after', hop, hop', hafter⟩
  · simp only [hop, hop']
    exact .ok ⟨hl, h⟩
  · have hgoOn : ∀ a a' : Node × Cursor, Found φ (Node.Alike φ Kind.isOperand) a a' →
        AgreeOn φ Kind.isOperand
          (binaryTailIn fuel level ⟨.binary op, left.span.hull a.1.span, [left, a.1]⟩ a.2)
          (binaryTailIn fuel level ⟨.binary op, left'.span.hull a'.1.span, [left', a'.1]⟩ a'.2) := by
      rintro ⟨right, c₁⟩ ⟨right', c₁'⟩ ⟨hr, h₁⟩
      exact ih.binaryTail level (alike_hull hl hr rfl (.cons hl (.cons hr .nil))
        (by simp [Kind.takes, hl.sort, hr.sort]) rfl) h₁
    simp only [hop, hop']
    split
    · exact .ok ⟨hl, h⟩
    · split
      · exact (ih.chain hafter).bind hgoOn
      · exact (ih.binary _ hafter).bind hgoOn

/-- An operand with an operator before it. -/
theorem Alike.node_before (h : Alike φ c c') {kind : Node.Kind} {n n' : Node}
    (hn : Node.Alike φ Kind.isOperand n n') (hsort : kind.isOperand = true)
    (htakes : ∀ ks, kind.takes ks = (ks.length == 1 && ks.all Kind.isOperand))
    (hq : kind.isString = false) :
    Node.Alike φ Kind.isOperand ⟨kind, c.peek.span.hull n.span, [n]⟩
      ⟨kind, c'.peek.span.hull n'.span, [n']⟩ := by
  refine alike_mk hsort (h.peek.within.hull hn.within) ?_ (.cons hn .nil) ?_ hq
  · rw [h.peek.span, hn.span, h.peek.within.moved_hull hn.within]
  · simp [htakes, hn.sort]

theorem AlikeWithin.operandIn_succ (ih : AlikeWithin φ fuel) (h : Alike φ c c') :
    AgreeOn φ Kind.isOperand (operandIn (fuel + 1) c) (operandIn (fuel + 1) c') := by
  rw [operandIn, operandIn]
  simp only [unaryLevel?_alike h.peek, h.isWord]
  cases hlevel : unaryLevel? c.peek with
  | some level =>
    have htext : c'.peek.text = c.peek.text := by
      refine h.peek.text fun q hq => ?_
      simp [unaryLevel?, hq] at hlevel
    refine (ih.binary level h.advance).bind ?_
    rintro ⟨n, c₁⟩ ⟨n', c₁'⟩ ⟨hn, h₁⟩
    rw [htext]
    exact .ok ⟨h.node_before hn rfl (fun _ => rfl) rfl, h₁⟩
  | none =>
    simp only
    split
    · refine (ih.chain h.advance).bind ?_
      rintro ⟨n, c₁⟩ ⟨n', c₁'⟩ ⟨hn, h₁⟩
      exact .ok ⟨h.node_before hn rfl (fun _ => rfl) rfl, h₁⟩
    · exact ih.chain h

theorem AlikeWithin.chainIn_succ (ih : AlikeWithin φ fuel) (h : Alike φ c c') :
    AgreeOn φ Kind.isOperand (chainIn (fuel + 1) c) (chainIn (fuel + 1) c') := by
  rw [chainIn, chainIn]
  refine (ih.primary h).bind ?_
  rintro ⟨head, c₁⟩ ⟨head', c₁'⟩ ⟨hhead, h₁⟩
  exact ih.chainTail hhead h₁

theorem AlikeWithin.chainTailIn_succ (ih : AlikeWithin φ fuel) {head head' : Node}
    (hhead : Node.Alike φ Kind.isOperand head head') (h : Alike φ c c') :
    AgreeOn φ Kind.isOperand (chainTailIn (fuel + 1) head c) (chainTailIn (fuel + 1) head' c') := by
  rw [chainTailIn, chainTailIn]
  simp only [h.isOp]
  split
  · refine (ih.sequence ")" h.advance).bind ?_
    rintro ⟨arguments, c₁⟩ ⟨arguments', c₁'⟩ ⟨hargs, h₁⟩
    refine ih.chainTail (h₁.node_behind hhead rfl hargs ?_ rfl) h₁
    rw [List.map_cons, Kind.takes, Kind.isHeaded, hhead.sort, hargs.all_sort]
    rfl
  · split
    · refine h.advance.expectWord.bind ?_
      rintro ⟨name, c₁⟩ ⟨name', c₁'⟩ ⟨rfl, h₁⟩
      exact ih.chainTail (h₁.node_behind hhead rfl .nil (by simp [Kind.takes, hhead.sort]) rfl) h₁
    · split
      · refine (ih.expression h.advance).bind ?_
        rintro ⟨index, c₁⟩ ⟨index', c₁'⟩ ⟨hindex, h₁⟩
        refine (h₁.expectOp "]").bind ?_
        intro c₂ c₂' h₂
        exact ih.chainTail (h₂.node_behind hhead rfl (.cons hindex .nil)
          (by simp [Kind.takes, hhead.sort, hindex.sort]) rfl) h₂
      · exact .ok ⟨hhead, h⟩

theorem AlikeWithin.sequenceIn_succ (ih : AlikeWithin φ fuel) (close : String)
    (h : Alike φ c c') :
    AgreeAll φ Kind.isOperand (sequenceIn (fuel + 1) close c) (sequenceIn (fuel + 1) close c') := by
  rw [sequenceIn, sequenceIn, h.isOp]
  split
  · exact .ok ⟨.nil, h.advance⟩
  · refine (ih.expression h).bind ?_
    rintro ⟨item, c₁⟩ ⟨item', c₁'⟩ ⟨hitem, h₁⟩
    simp only [h₁.isOp]
    split
    · refine (ih.sequence close h₁.advance).bind ?_
      rintro ⟨items, c₂⟩ ⟨items', c₂'⟩ ⟨hitems, h₂⟩
      exact .ok ⟨.cons hitem hitems, h₂⟩
    · refine (h₁.expectOp close).bind ?_
      intro c₂ c₂' h₂
      exact .ok ⟨.cons hitem .nil, h₂⟩

theorem AlikeWithin.pairsIn_succ (ih : AlikeWithin φ fuel) (h : Alike φ c c') :
    AgreeAll φ (· == .pair) (pairsIn (fuel + 1) c) (pairsIn (fuel + 1) c') := by
  rw [pairsIn, pairsIn, h.isOp]
  split
  · exact .ok ⟨.nil, h.advance⟩
  · refine (ih.expression h).bind ?_
    rintro ⟨key, c₁⟩ ⟨key', c₁'⟩ ⟨hkey, h₁⟩
    simp only [h₁.isOp]
    split
    · refine (ih.expression h₁.advance).bind ?_
      rintro ⟨value, c₂⟩ ⟨value', c₂'⟩ ⟨hvalue, h₂⟩
      have hpair : Node.Alike φ (· == .pair) ⟨.pair, key.span.hull value.span, [key, value]⟩
          ⟨.pair, key'.span.hull value'.span, [key', value']⟩ :=
        alike_hull hkey hvalue rfl (.cons hkey (.cons hvalue .nil))
          (by simp [Kind.takes, hkey.sort, hvalue.sort]) rfl
      simp only [h₂.isOp]
      split
      · refine (ih.pairs h₂.advance).bind ?_
        rintro ⟨pairs, c₃⟩ ⟨pairs', c₃'⟩ ⟨hpairs, h₃⟩
        exact .ok ⟨.cons hpair hpairs, h₃⟩
      · refine (h₂.expectOp "\x7d").bind ?_
        intro c₃ c₃' h₃
        exact .ok ⟨.cons hpair .nil, h₃⟩
    · exact .error

theorem AlikeWithin.primaryIn_succ (ih : AlikeWithin φ fuel) (h : Alike φ c c') :
    AgreeOn φ Kind.isOperand (primaryIn (fuel + 1) c) (primaryIn (fuel + 1) c') := by
  have hstart := h.peek.start
  rw [primaryIn, primaryIn]
  simp only [h.kind, h.isOp, h.start]
  cases hk : c.kind with
  | str q => exact .ok ⟨alike_string rfl h.peek.within h.peek.span (h.peek.literal q hk), h.advance⟩
  | number => exact .ok (h.leaf rfl rfl rfl)
  | word => exact h.wordExpression hk
  | op =>
    simp only
    split
    · refine (ih.expression h.advance).bind ?_
      rintro ⟨inner, c₁⟩ ⟨inner', c₁'⟩ ⟨hinner, h₁⟩
      refine (h₁.expectOp ")").bind ?_
      intro c₂ c₂' h₂
      exact .ok ⟨h₂.node_from hstart rfl (.cons hinner .nil)
        (by simp [Kind.takes, hinner.sort]) rfl, h₂⟩
    · split
      · refine (ih.sequence "]" h.advance).bind ?_
        rintro ⟨items, c₁⟩ ⟨items', c₁'⟩ ⟨hitems, h₁⟩
        exact .ok ⟨h₁.node_from hstart rfl hitems hitems.all_sort rfl, h₁⟩
      · split
        · refine (ih.pairs h.advance).bind ?_
          rintro ⟨pairs, c₁⟩ ⟨pairs', c₁'⟩ ⟨hpairs, h₁⟩
          exact .ok ⟨h₁.node_from hstart rfl hpairs hpairs.all_sort rfl, h₁⟩
        · split
          · exact h.nodePath
          · split
            · exact h.parentMember
            · exact .error
  | newline | indent | dedent | eof => exact .error

/-- By induction on the bound, which every rule hands on one less. -/
theorem alikeWithin (φ : Shift) (fuel : Nat) : AlikeWithin φ fuel := by
  induction fuel with
  | zero =>
    constructor <;> intros <;>
      simp only [expressionIn, binaryIn, binaryTailIn, operandIn, chainIn, chainTailIn, sequenceIn,
        pairsIn, primaryIn] <;>
      exact .error
  | succ fuel ih =>
    exact ⟨ih.expressionIn_succ, fun level h => ih.binaryIn_succ level h,
      fun level _ _ hl h => ih.binaryTailIn_succ level hl h, ih.operandIn_succ, ih.chainIn_succ,
      ih.chainTailIn_succ, fun close h => ih.sequenceIn_succ close h, ih.pairsIn_succ,
      ih.primaryIn_succ⟩

/-- An expression is read from alike lexemes in the same way. -/
theorem Alike.expression (h : Alike φ c c') :
    AgreeOn φ Kind.isOperand c.expression c'.expression := by
  unfold Cursor.expression
  rw [h.rest.length_eq]
  exact (alikeWithin φ _).expression h

end Cursor

end Phrasebook
