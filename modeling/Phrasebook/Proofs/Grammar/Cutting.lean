import Phrasebook.Proofs.Layout

/-!
Reading lexemes of which the end is cut off.

A parser looks one lexeme ahead, so a rule that stops before the cut goes through in the same way when
all lexemes behind are taken away. A `Cutting` says which lexemes are taken away, a function first, and
how the others are ended; it may also take nothing away. By `Cursor.Derives.carried` an expression is
still read, within any bound that grows with the number of lexemes left.
-/
namespace Phrasebook

namespace Lexeme

/-- Whether a function may begin here. -/
def beginsFunction (l : Lexeme) : Bool := l.isWord "func" || l.isWord "static"

/-- The marks that end a list of lexemes. -/
inductive Closing : List Lexeme → Prop
  | eof {e : Lexeme} (he : e.kind = .eof) : Closing [e]
  | newline {n e : Lexeme} (hn : n.kind = .newline) (he : e.kind = .eof) : Closing [n, e]

theorem beginsFunction_iff {l : Lexeme} : l.beginsFunction = true ↔
    l.kind = .word ∧ (l.text = Text.of "func" ∨ l.text = Text.of "static") := by
  simp only [beginsFunction, Bool.or_eq_true, isWord, Bool.and_eq_true, beq_iff_eq, and_or_left]

theorem isWord_of_beginsFunction {l : Lexeme} (h : l.beginsFunction = true) {w : String}
    (hw : w ≠ "func" ∧ w ≠ "static") : l.isWord w = false := by
  refine Bool.eq_false_iff.2 fun hword => ?_
  rw [isWord, Bool.and_eq_true, beq_iff_eq, beq_iff_eq] at hword
  rcases (beginsFunction_iff.1 h).2 with htext | htext <;> rw [hword.2] at htext
  · exact hw.1 (String.toList_injective htext)
  · exact hw.2 (String.toList_injective htext)

end Lexeme

/-- The lexemes `tail` are taken away and `stop` is put in their place. -/
structure Cutting where
  tail : List Lexeme
  stop : List Lexeme
  fits : tail = [] ∧ stop = [] ∨
    (∃ l r, tail = l :: r ∧ l.beginsFunction = true) ∧ Lexeme.Closing stop

namespace Cutting

open Cursor Lexeme

/-- Nothing is taken away. -/
def whole : Cutting := ⟨[], [], .inl ⟨rfl, rfl⟩⟩

/-- The lexemes left to be read before and after the cutting. At the cut itself some of `stop` may have
been passed already. -/
inductive Splits (κ : Cutting) : List Lexeme → List Lexeme → Prop
  | ahead (xs : List Lexeme) (h : xs ≠ [] ∨ κ.tail = []) : Splits κ (xs ++ κ.tail) (xs ++ κ.stop)
  | front {r : List Lexeme} (htail : κ.tail ≠ []) (hr : Closing r)
      (hle : r.length ≤ κ.stop.length) : Splits κ κ.tail r

variable {κ : Cutting} {c c' c₁ c₁' : Cursor} {ls ls' ls₁ ls₁' rest : List Lexeme} {l : Lexeme}

theorem splits_append (κ : Cutting) (xs : List Lexeme) : κ.Splits (xs ++ κ.tail) (xs ++ κ.stop) := by
  by_cases h : xs ≠ [] ∨ κ.tail = []
  · exact .ahead xs h
  · obtain ⟨hxs, htail⟩ := not_or.1 h
    obtain rfl : xs = [] := not_not.1 hxs
    rcases κ.fits with ⟨hnil, -⟩ | ⟨-, hstop⟩
    · exact absurd hnil htail
    · exact .front htail hstop (Nat.le_refl _)

theorem splits_whole (ls : List Lexeme) : whole.Splits ls ls := by
  have h := splits_append whole ls
  rwa [whole, List.append_nil] at h

/-- The first lexeme is kept, or it is the first of those taken away. -/
theorem Splits.cons_or_front (h : κ.Splits (l :: rest) ls') :
    (∃ rest', ls' = l :: rest' ∧ κ.Splits rest rest') ∨
      (l :: rest = κ.tail ∧ l.beginsFunction = true ∧ Closing ls' ∧ ls'.length ≤ κ.stop.length) := by
  generalize hl : l :: rest = ls at h
  cases h with
  | ahead xs hxs =>
    cases xs with
    | nil =>
      rw [hxs.resolve_left fun h => h rfl] at hl
      cases hl
    | cons x xs =>
      cases hl
      exact .inl ⟨xs ++ κ.stop, rfl, splits_append κ xs⟩
  | front htail hr hle =>
    rcases κ.fits with ⟨hnil, -⟩ | ⟨⟨x, r, htail, hx⟩, -⟩
    · exact absurd hnil htail
    · rw [← hl] at htail
      cases htail
      exact .inr ⟨rfl, hx, hr, hle⟩

/-- A lexeme that both lists keep. -/
theorem Splits.cons (h : κ.Splits (l :: rest) ls') (hkeep : κ.tail.length ≤ rest.length) :
    ∃ rest', ls' = l :: rest' ∧ κ.Splits rest rest' := by
  refine h.cons_or_front.resolve_right fun hfront => ?_
  rw [← hfront.1, List.length_cons] at hkeep
  omega

/-- Where nothing is left of the one list, nothing is left of the other. -/
theorem Splits.nil (h : κ.Splits ls ls') (hls : ls = []) : ls' = [] := by
  cases h with
  | ahead xs hxs =>
    obtain ⟨rfl, htail⟩ := List.append_eq_nil_iff.1 hls
    rcases κ.fits with ⟨-, hstop⟩ | ⟨⟨x, r, hr, -⟩, -⟩
    · rw [hstop, List.nil_append]
    · rw [htail] at hr
      cases hr
  | front htail => exact absurd hls htail

/-- Where all that is left is taken away, only the end is left. -/
theorem Splits.closing (h : κ.Splits κ.tail ls') (htail : κ.tail ≠ []) : Closing ls' := by
  generalize hls : κ.tail = ls at h
  cases h with
  | ahead xs hxs =>
    have hlen := congrArg List.length hls
    rw [List.length_append, Nat.right_eq_add, List.length_eq_zero_iff] at hlen
    exact absurd hlen (hxs.resolve_right htail)
  | front _ hr => exact hr

/-- What is read of the one list is read of the other, as long as the cut is not passed. -/
theorem Splits.length_lt (h : κ.Splits ls ls') (h₁ : κ.Splits ls₁ ls₁')
    (hkeep : κ.tail.length ≤ ls₁.length) (hlt : ls₁.length < ls.length) :
    ls₁'.length < ls'.length := by
  cases h with
  | ahead xs hxs =>
    cases h₁ with
    | ahead ys _ =>
      simp only [List.length_append] at hlt ⊢
      omega
    | front htail hr hle =>
      have hpos := List.length_pos_iff.2 (hxs.resolve_right htail)
      simp only [List.length_append]
      omega
  | front => omega

/-- Both lists go on with the same lexeme. -/
structure Level (κ : Cutting) (c c' : Cursor) : Prop where
  peek : c'.peek = c.peek
  advance : κ.Splits c.advance.rest c'.advance.rest

/-- The one list goes on with what is taken away, the other is at its end. -/
structure Front (κ : Cutting) (c c' : Cursor) : Prop where
  rest : c.rest = κ.tail
  word : c.peek.beginsFunction = true
  closing : Closing c'.rest
  le : c'.rest.length ≤ κ.stop.length

theorem Splits.level_or_front (h : κ.Splits c.rest c'.rest) : κ.Level c c' ∨ κ.Front c c' := by
  obtain ⟨rest, last⟩ := c
  obtain ⟨rest', last'⟩ := c'
  simp only at h
  cases h with
  | ahead xs hxs =>
    left
    cases xs with
    | nil =>
      have htail : κ.tail = [] := hxs.resolve_left fun h => h rfl
      rcases κ.fits with ⟨-, hstop⟩ | ⟨⟨l, r, hr, -⟩, -⟩
      · refine ⟨by simp [peek, htail, hstop], ?_⟩
        simp only [Cursor.advance, List.nil_append, htail, hstop]
        have hnil := splits_append κ []
        rwa [htail, hstop] at hnil
      · rw [htail] at hr
        cases hr
    | cons l xs =>
      refine ⟨rfl, ?_⟩
      simp only [Cursor.advance, List.cons_append]
      split
      · exact splits_append κ (l :: xs)
      · exact splits_append κ xs
  | front htail hr hle =>
    right
    rcases κ.fits with ⟨hnil, -⟩ | ⟨⟨l, r, htail, hl⟩, -⟩
    · exact absurd hnil htail
    · exact ⟨rfl, by simpa [peek, htail] using hl, hr, hle⟩

theorem Level.kind (h : κ.Level c c') : c'.kind = c.kind := congrArg Lexeme.kind h.peek

theorem Front.kind (h : κ.Front c c') : c.kind = .word := (beginsFunction_iff.1 h.word).1

theorem Front.kind' (h : κ.Front c c') : c'.kind = .newline ∨ c'.kind = .eof := by
  obtain ⟨rest', last'⟩ := c'
  cases h.closing with
  | eof he => exact .inr he
  | newline hn _ => exact .inl hn

theorem isOp_eq_false (hk : c.kind ≠ .op) (op : String) : c.isOp op = false :=
  Bool.eq_false_iff.2 fun h => hk (kind_of_isOp h)

theorem isWord_eq_false (hk : c.kind ≠ .word) (w : String) : c.isWord w = false :=
  Bool.eq_false_iff.2 fun h => hk (kind_of_isWord h)

theorem Splits.isOp (h : κ.Splits c.rest c'.rest) (op : String) : c'.isOp op = c.isOp op := by
  rcases h.level_or_front with h | h
  · rw [Cursor.isOp, h.peek, Cursor.isOp]
  · have hk : c'.kind ≠ .op := by rcases h.kind' with hk | hk <;> simp [hk]
    rw [isOp_eq_false hk, isOp_eq_false (by simp [h.kind])]

theorem Splits.isWord (h : κ.Splits c.rest c'.rest) (w : String)
    (hw : w ≠ "func" ∧ w ≠ "static") : c'.isWord w = c.isWord w := by
  rcases h.level_or_front with h | h
  · rw [Cursor.isWord, h.peek, Cursor.isWord]
  · have hk : c'.kind ≠ .word := by rcases h.kind' with hk | hk <;> simp [hk]
    rw [isWord_eq_false hk]
    exact (isWord_of_beginsFunction h.word hw).symm

theorem Splits.level_of_isOp (h : κ.Splits c.rest c'.rest) {op : String} (hop : c.isOp op = true) :
    κ.Level c c' := by
  refine h.level_or_front.resolve_right fun hfront => ?_
  have hk := hfront.kind
  rw [kind_of_isOp hop] at hk
  cases hk

theorem Splits.level_of_isWord (h : κ.Splits c.rest c'.rest) {w : String}
    (hword : c.isWord w = true) (hw : w ≠ "func" ∧ w ≠ "static") : κ.Level c c' := by
  refine h.level_or_front.resolve_right fun hfront => ?_
  have hno := isWord_of_beginsFunction hfront.word hw
  rw [← Cursor.isWord, hword] at hno
  cases hno

/-- Cursors before lexemes that split, which have come to the same place. -/
structure Cut (κ : Cutting) (c c' : Cursor) : Prop where
  rest : κ.Splits c.rest c'.rest
  lastEnd : c'.lastEnd = c.lastEnd

end Cutting

namespace Cursor

variable {c c₁ : Cursor}

theorem lastEnd_advance (c : Cursor) :
    c.advance.lastEnd = if c.kind = .eof then c.lastEnd else endAfter c.lastEnd c.peek := by
  obtain ⟨rest, last⟩ := c
  cases rest with
  | nil => rfl
  | cons l r =>
    simp only [advance, kind, peek, List.headD_cons]
    split <;> simp_all

theorem lastEnd_advance_solid (h : c.kind.isSolid = true) : c.advance.lastEnd = c.peek.span.stop := by
  have heof : c.kind ≠ .eof := by
    intro he
    rw [he] at h
    cases h
  rw [lastEnd_advance, if_neg heof, endAfter_solid h]

end Cursor

namespace Cutting

open Cursor Lexeme Grammar

variable {κ : Cutting} {c c' c₁ c₁' : Cursor} {ls ls' : List Lexeme} {l : Lexeme}

theorem Level.solid (h : κ.Level c c') (hs : c.kind.isSolid = true) : κ.Cut c.advance c'.advance := by
  have hs' : c'.kind.isSolid = true := by rw [h.kind, hs]
  exact ⟨h.advance, by rw [lastEnd_advance_solid hs, lastEnd_advance_solid hs', h.peek]⟩

theorem Cut.level (h : κ.Cut c c') (hl : κ.Level c c') : κ.Cut c.advance c'.advance :=
  ⟨hl.advance, by rw [lastEnd_advance, lastEnd_advance, hl.kind, hl.peek, h.lastEnd]⟩

/-- A line end that stands at the cut may be passed. -/
theorem Cut.pastNewline (h : κ.Cut c c') (hfront : κ.Front c c') :
    κ.Cut c (if c'.kind = .newline then c'.advance else c') := by
  split
  · next hk =>
    obtain ⟨rest', last'⟩ := c'
    have htail : κ.tail ≠ [] := by
      intro hnil
      have hword := hfront.kind
      rw [Cursor.kind, Cursor.peek, hfront.rest, hnil] at hword
      cases hword
    have hle := hfront.le
    cases hfront.closing with
    | @eof e he => rw [show e.kind = _ from hk] at he; cases he
    | @newline n e hn he =>
      have hadvance : Cursor.advance ⟨[n, e], last'⟩ = ⟨[e], last'⟩ := by
        simp [Cursor.advance, hn, endAfter, Kind.isSolid]
      rw [hadvance]
      refine ⟨?_, h.lastEnd⟩
      rw [hfront.rest]
      exact .front htail (.eof he) (Nat.le_of_succ_le hle)
  · exact h

theorem Cut.spanFrom (h : κ.Cut c c') (start : Nat) : c'.spanFrom start = c.spanFrom start := by
  rw [Cursor.spanFrom, h.lastEnd, Cursor.spanFrom]

end Cutting

end Phrasebook
