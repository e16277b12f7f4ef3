import Phrasebook.Proofs.Grammar.Loops
import Phrasebook.Tree

/-!
Parsing goes on and comes to an end.

The lexemes of a range have their only `eof` at the end, so a place in them is the number of
lexemes read. From each place all rules advance and all loops stop; a text is therefore parsed or
refused, and never for want of a bound on the nesting.
-/
namespace Phrasebook

namespace Scanner

open Lexeme

variable {beyond : Option Char} {s t : Scanner}

/-- The end is not among the lexemes so far. -/
def Unended (s : Scanner) : Prop := ∀ l ∈ s.out, l.kind ≠ .eof

theorem Unended.newline (h : Unended s) (n : Nat) : Unended (s.newline n) := by
  unfold Scanner.newline
  split
  · exact List.forall_mem_cons.2 ⟨by simp, h⟩
  · exact h

theorem Unended.settle (h : Unended s) (w : Nat) (gap : Text) : Unended (s.settle w gap) := by
  have hdedents {n : Nat} {at_ : Span} :
      ∀ l ∈ List.replicate n ⟨.dedent, at_, []⟩ ++ s.out, l.kind ≠ .eof := by
    refine List.forall_mem_append.2 ⟨fun l hl => ?_, h⟩
    rw [List.eq_of_mem_replicate hl]
    simp
  unfold Scanner.settle
  split
  · exact h
  · simp only
    split
    · exact List.forall_mem_cons.2 ⟨by simp, hdedents⟩
    · exact hdedents

theorem Unended.indentation (h : Unended s) : Unended s.indentation := by
  unfold Scanner.indentation
  simp only
  split
  · exact h
  · split
    · exact h
    · exact settle (s := s.pass _ _) h _ _

theorem Unended.lexeme (h : Unended s) (ht : s.lexeme beyond = .ok t) : Unended t := by
  simp only [Scanner.lexeme] at ht
  split at ht
  · cases ht
  · next kind text rest hr =>
    cases ht
    refine List.forall_mem_cons.2 ⟨fun hk => ?_, h⟩
    have hsolid := (solid_of_read hr).1
    rw [show kind = .eof from hk] at hsolid
    cases hsolid

theorem Unended.token (h : Unended s) (ht : s.token beyond = .ok t) : Unended t := by
  unfold Scanner.token at ht
  split at ht
  · cases ht
    exact h
  · next c r hr =>
    split at ht
    · cases ht
      exact h
    · split at ht
      · cases ht
        split
        · exact newline (s := s.pass [c] r) h s.pos
        · exact h
      · split at ht
        · cases ht
          exact h
        · split at ht
          · cases ht
            exact h
          · exact h.lexeme ht

theorem Unended.step (h : Unended s) (ht : s.step beyond = .ok t) : Unended t := by
  unfold Scanner.step at ht
  split at ht
  · exact h.indentation.token ht
  · exact h.token ht

theorem Unended.run (h : Unended s) (ht : s.run beyond = .ok t) : Unended t := by
  fun_induction Scanner.run beyond s with
  | case1 =>
    cases ht
    exact h
  | case2 => cases ht
  | case3 s _ u hu ih => exact ih (h.step hu) ht

/-- A text that cannot be read is refused for what stands in it. -/
theorem cause_of_read {t : Text} {cause : ParseError.Cause} (h : read beyond t = .error cause) :
    cause = .unclosedString ∨ cause = .strayCharacter := by
  have hstring {sigil t' : Text} (h : readString sigil t' = .error cause) :
      cause = .unclosedString := by
    simp only [readString] at h
    split at h <;> cases h
    rfl
  unfold Lexeme.read at h
  split at h
  · cases h
    exact .inr rfl
  · split at h
    · exact .inl (hstring h)
    · split at h
      · exact .inl (hstring h)
      · split at h
        · cases h
        · split at h
          · cases h
          · unfold readOperator at h
            split at h <;> cases h
            exact .inr rfl

theorem decided_token (s : Scanner) : Decided (s.token beyond) := by
  unfold token
  split
  · exact decided_ok _
  · split
    · exact decided_ok _
    · split
      · exact decided_ok _
      · split
        · exact decided_ok _
        · split
          · exact decided_ok _
          · unfold lexeme
            split
            · next cause hr =>
              refine decided_error ?_
              rcases cause_of_read hr with rfl | rfl <;> simp
            · exact decided_ok _

theorem decided_run (s : Scanner) : Decided (s.run beyond) := by
  fun_induction Scanner.run beyond s with
  | case1 => exact decided_ok _
  | case2 s _ e he =>
    have hstep : Decided (s.step beyond) := by
      unfold step
      exact decided_token _
    exact decided_error (hstep e he)
  | case3 s _ u hu ih => exact ih

end Scanner

namespace Text

variable {source : Text} {range : Span} {ls : List Lexeme}

theorem decided_lexemes (source : Text) (range : Span) : Decided (source.lexemes range) := by
  unfold lexemes
  simp only
  split
  · next e he => exact decided_error (Scanner.decided_run _ e he)
  · exact decided_ok _

/-- The end comes last in every list of lexemes, and only there. -/
theorem closed_of_lexemes (h : source.lexemes range = .ok ls) :
    ∃ body e, ls = body ++ [e] ∧ e.kind = .eof ∧ ∀ l ∈ body, l.kind ≠ .eof := by
  unfold lexemes at h
  simp only at h
  split at h
  · cases h
  · next s hs =>
    cases h
    have hout : s.Unended := Scanner.Unended.run (fun _ hl => absurd hl List.not_mem_nil) hs
    refine ⟨_, _, rfl, rfl, List.forall_mem_append.2 ⟨fun l hl => ?_, fun l hl => ?_⟩⟩
    · exact hout.newline _ l (List.mem_reverse.1 hl)
    · rw [List.eq_of_mem_replicate hl]
      simp

end Text

namespace Cursor

open Text

variable {ls body : List Lexeme} {e : Lexeme} {c : Cursor} {k : Nat}

/-- The place behind the first `k` lexemes. -/
def behind (ls : List Lexeme) (k : Nat) : Cursor := ⟨ls.drop k, (ls.take k).foldl endAfter 0⟩

theorem length_behind (ls : List Lexeme) (k : Nat) : (behind ls k).rest.length = ls.length - k :=
  List.length_drop

/-- What is reached from a place stands behind as many lexemes or more, and never behind the end. -/
theorem Reaches.behind (hls : ls = body ++ [e]) (he : e.kind = .eof) (hk : k < ls.length)
    (h : Reaches (behind ls k) c) : ∃ k₁, k ≤ k₁ ∧ k₁ < ls.length ∧ c = Cursor.behind ls k₁ := by
  obtain ⟨ms, hrest, hlast, hinside⟩ := h
  have hsplit : ls = ls.take k ++ ms ++ c.rest := by
    rw [List.append_assoc, ← hrest]
    exact (List.take_append_drop k ls).symm
  have hlen : (ls.take k ++ ms).length = k + ms.length := by
    rw [List.length_append, List.length_take, Nat.min_eq_left (Nat.le_of_lt hk)]
  have hdrop : ls.drop (k + ms.length) = c.rest := by
    conv_lhs => rw [hsplit]
    exact List.drop_left' hlen
  have htake : ls.take (k + ms.length) = ls.take k ++ ms := by
    conv_lhs => rw [hsplit]
    exact List.take_left' hlen
  -- The end is among the lexemes left, as it is not among those passed.
  have hend : e ∈ c.rest := by
    have hmem : e ∈ ls.drop k := by
      rw [hls, List.length_append] at *
      rw [List.drop_append_of_le_length (Nat.le_of_lt_succ hk)]
      exact List.mem_append_right _ List.mem_cons_self
    rw [show ls.drop k = ms ++ c.rest from hrest] at hmem
    exact (List.mem_append.1 hmem).resolve_left fun hms => hinside e hms he
  refine ⟨k + ms.length, Nat.le_add_right _ _, ?_, ?_⟩
  · have hpos := List.length_pos_of_mem hend
    rw [← hdrop, List.length_drop] at hpos
    omega
  · obtain ⟨rest, last⟩ := c
    rw [Cursor.behind, hdrop, htake, List.foldl_append]
    exact congrArg (Cursor.mk rest) hlast

theorem decided_statements (c : Cursor) : Decided c.statements :=
  ((statementsAdvance c).block false).decided (by omega)

theorem decided_expression (c : Cursor) : Decided c.expression :=
  (expressionsAdvance c).expression.decided (by omega)

end Cursor

namespace Tree

open Cursor

variable {source : Text}

theorem decided_ofRange (source : Text) (range : Span) : Decided (ofRange source range) := by
  refine (Text.decided_lexemes source range).bind fun ls _ => ?_
  exact (decided_statements _).bind fun items _ => decided_ok _

theorem decided_ofExpression (source : Text) : Decided (ofExpression source) := by
  refine (Text.decided_lexemes source _).bind fun ls _ => ?_
  refine (decided_expression _).bind fun a _ => ?_
  simp only
  split
  · exact decided_ok _
  · exact decided_error (by simp [unexpected])

theorem decided_ofStatement (source : Text) : Decided (ofStatement source) := by
  refine (decided_ofRange source _).bind fun tree _ => ?_
  split
  · exact decided_ok _
  · exact decided_error (by simp)

/-- From every place in the lexemes of a text, each rule comes to a result that a larger bound on
the nesting does not change, and where it succeeds it has gone on, never back and never beyond the
end; each loop comes to its exit. The text is therefore parsed or refused, and not for want of a
bound. -/
theorem parsing_progresses (source : Text) :
    (∀ (range : Span) (ls : List Lexeme), source.lexemes range = .ok ls → ∀ k < ls.length,
      (behind ls k).ExpressionsAdvance ∧ (behind ls k).StatementsAdvance ∧ (behind ls k).LoopsEnd ∧
      ∀ c, (behind ls k).Reaches c → ∃ k₁, k ≤ k₁ ∧ k₁ < ls.length ∧ c = behind ls k₁ ∧
        (c.rest.length < (behind ls k).rest.length → k < k₁)) ∧
    (∀ range, Decided (ofRange source range)) ∧ Decided (ofScript source) ∧
    Decided (ofExpression source) ∧ Decided (ofStatement source) := by
  refine ⟨fun range ls hls k hk => ?_, decided_ofRange source, decided_ofRange source _,
    decided_ofExpression source, decided_ofStatement source⟩
  obtain ⟨body, e, hbody, he, -⟩ := Text.closed_of_lexemes hls
  refine ⟨expressionsAdvance _, statementsAdvance _, loopsEnd _, fun c hc => ?_⟩
  obtain ⟨k₁, hle, hlt, rfl⟩ := hc.behind hbody he hk
  refine ⟨k₁, hle, hlt, rfl, fun hfewer => ?_⟩
  rw [length_behind, length_behind] at hfewer
  omega

/-- Before an indentation where none is due. -/
theorem parsing_progresses_indented : ∃ ls, (Text.of "a\n  b").lexemes ⟨0, 5⟩ = .ok ls ∧
    2 < ls.length ∧ (behind ls 2).kind = .indent ∧ (behind ls 2).StatementsAdvance ∧
    (∃ passed, Closes 1 (behind ls 2).advance passed
      (pastBlock 0 (behind ls 2).lastEnd (behind ls 2).rest)) ∧
    Decided (ofScript (Text.of "a\n  b")) := by
  have hls : (Text.of "a\n  b").lexemes ⟨0, 5⟩ = .ok
      [⟨.word, ⟨0, 1⟩, Text.of "a"⟩, ⟨.newline, ⟨1, 1⟩, []⟩, ⟨.indent, ⟨2, 4⟩, Text.of "  "⟩,
        ⟨.word, ⟨4, 5⟩, Text.of "b"⟩, ⟨.newline, ⟨5, 5⟩, []⟩, ⟨.dedent, ⟨5, 5⟩, []⟩,
        ⟨.eof, ⟨5, 5⟩, []⟩] := by
    decide +kernel
  obtain ⟨hplaces, -, hscript, -⟩ := parsing_progresses (Text.of "a\n  b")
  obtain ⟨-, hstatements, hloops, -⟩ := hplaces _ _ hls 2 (by simp)
  exact ⟨_, hls, by simp, rfl, hstatements, hloops.block rfl, hscript⟩

end Tree

end Phrasebook
