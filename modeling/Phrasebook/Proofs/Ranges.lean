import Phrasebook.Proofs.Grammar.Parts
import Phrasebook.Proofs.Grammar.AlikeStatement
import Phrasebook.Proofs.Rescan
import Phrasebook.Tree

/-!
A range of a text read by itself.

What stands before the range does not matter to a scan: put behind other lexemes and further on in the
text (`Scanner.behind`), a scan goes on as it did (`Scanner.run_behind`). What stands after the range
matters in one place only: whether the point that ends the range belongs to a number depends on the
letter after it (`Scanner.run_beyond`). So a range that does not end that way has the lexemes and the
tree of its own text, with all places moved.
-/
namespace Phrasebook

open Text (size)

namespace Lexeme

/-- The lexeme `a` bytes further on. -/
def later (a : Nat) (l : Lexeme) : Lexeme := { l with span := l.span.moved (· + a) }

@[simp] theorem later_kind (a : Nat) (l : Lexeme) : (l.later a).kind = l.kind := rfl

@[simp] theorem later_opens (a : Nat) (l : Lexeme) : (l.later a).opens = l.opens := rfl

@[simp] theorem later_closes (a : Nat) (l : Lexeme) : (l.later a).closes = l.closes := rfl

theorem later_mk (a : Nat) (kind : Kind) (i j : Nat) (text : Text) :
    later a ⟨kind, ⟨i, j⟩, text⟩ = ⟨kind, ⟨i + a, j + a⟩, text⟩ := rfl

@[simp] theorem later_zero (l : Lexeme) : l.later 0 = l := rfl

theorem moved_later (a : Nat) (l : Lexeme) : Moved (· + a) l (l.later a) :=
  ⟨rfl, rfl, fun _ => rfl⟩

/-- Whether a letter stands there, before which a point is not taken into a number. -/
def isLed (beyond : Option Char) : Bool := beyond.any fun d => d.isAlpha || d == '_'

/-- What stands behind a text does not tell apart how a number at its end is read. -/
def SameEnd (beyond beyond' : Option Char) (t : Text) : Prop :=
  t.getLast? = some '.' → isLed beyond' = isLed beyond

variable {beyond beyond' : Option Char} {t u : Text}

theorem SameEnd.of_suffix (h : SameEnd beyond beyond' t) (hu : u <:+ t) :
    SameEnd beyond beyond' u := by
  obtain ⟨v, rfl⟩ := hu
  intro hlast
  exact h (by rw [List.getLast?_append, hlast, Option.some_or])

theorem goesOnNumber_beyond {c : Char} {r : Text} (h : SameEnd beyond beyond' (c :: r))
    (seen : Text) : goesOnNumber beyond' seen c r = goesOnNumber beyond seen c r := by
  cases r with
  | cons d r => rfl
  | nil =>
    by_cases hc : c = '.'
    · have hled : isLed beyond' = isLed beyond := h (by rw [hc]; rfl)
      simp only [isLed] at hled
      simp only [goesOnNumber, List.head?_nil, Option.none_or, hled]
    · simp only [goesOnNumber, beq_eq_false_iff_ne.2 hc, Bool.false_and]

theorem numberTail_beyond (h : SameEnd beyond beyond' t) (seen : Text) :
    numberTail beyond' seen t = numberTail beyond seen t := by
  induction t generalizing seen with
  | nil => rfl
  | cons c r ih =>
    rw [numberTail, numberTail, goesOnNumber_beyond h, ih (h.of_suffix (List.suffix_cons c r))]

theorem read_beyond (h : SameEnd beyond beyond' t) : read beyond' t = read beyond t := by
  cases t with
  | nil => rfl
  | cons c r => simp only [read, numberTail_beyond h]

end Lexeme

/-- The refusal `a` bytes further on. -/
def ParseError.later (a : Nat) (e : ParseError) : ParseError := { e with offset := e.offset + a }

namespace Scanner

open Lexeme

section Onward

variable {s t u : Scanner} {beyond : Option Char}

/-- A scan goes on in what was left to it, and keeps its lexemes. -/
structure Onward (s t : Scanner) : Prop where
  rest : t.rest <:+ s.rest
  out : s.out <:+ t.out
  place : t.pos + size t.rest = s.pos + size s.rest

theorem Onward.refl (s : Scanner) : Onward s s := ⟨List.suffix_refl _, List.suffix_refl _, rfl⟩

theorem Onward.trans (h : Onward s t) (h' : Onward t u) : Onward s u :=
  ⟨h'.rest.trans h.rest, h.out.trans h'.out, h'.place.trans h.place⟩

theorem onward_pass {gap rest : Text} (h : s.rest = gap ++ rest) : Onward s (s.pass gap rest) := by
  refine ⟨⟨gap, h.symm⟩, List.suffix_refl _, ?_⟩
  simp only [pass, h, Text.size_append, Nat.add_assoc]

theorem onward_newline (n : Nat) (s : Scanner) : Onward s (s.newline n) := by
  unfold newline
  split
  · exact ⟨List.suffix_refl _, List.suffix_cons _ _, rfl⟩
  · exact .refl s

theorem onward_settle (w : Nat) (gap : Text) (s : Scanner) : Onward s (s.settle w gap) := by
  unfold settle
  split
  · exact ⟨List.suffix_refl _, List.suffix_refl _, rfl⟩
  · simp only
    split
    · exact ⟨List.suffix_refl _, (List.suffix_append _ _).trans (List.suffix_cons _ _), rfl⟩
    · exact ⟨List.suffix_refl _, List.suffix_append _ _, rfl⟩

theorem onward_indentation (s : Scanner) : Onward s s.indentation := by
  have hpass : Onward s (s.pass (s.rest.takeWhile isGap) (s.rest.dropWhile isGap)) :=
    onward_pass List.takeWhile_append_dropWhile.symm
  unfold indentation
  simp only
  split
  · exact hpass
  · split
    · exact hpass
    · exact hpass.trans (onward_settle ..)

theorem onward_of_lexeme (h : s.lexeme beyond = .ok t) : Onward s t := by
  unfold lexeme at h
  split at h
  · cases h
  · next kind text rest hr =>
    cases h
    have hpass := onward_pass (eq_append_of_read hr).1
    exact ⟨hpass.rest, List.suffix_cons _ _, hpass.place⟩

theorem onward_of_token (h : s.token beyond = .ok t) : Onward s t := by
  unfold token at h
  split at h
  · cases h
    exact .refl s
  · next c r hr =>
    have hpass : Onward s (s.pass [c] r) := onward_pass hr
    split at h
    · cases h
      exact hpass
    · split at h
      · cases h
        split
        · have hline := hpass.trans (onward_newline s.pos _)
          exact ⟨hline.rest, hline.out, hline.place⟩
        · exact hpass
      · split at h
        · cases h
          exact onward_pass (List.takeWhile_append_dropWhile ..).symm
        · split at h
          · next hc =>
            cases h
            exact onward_pass (append_of_continuation? hc)
          · exact onward_of_lexeme h

theorem onward_of_step (h : s.step beyond = .ok t) : Onward s t := by
  unfold step at h
  split at h
  · exact (onward_indentation s).trans (onward_of_token h)
  · exact onward_of_token h

theorem onward_of_run (h : s.run beyond = .ok t) : Onward s t := by
  fun_induction run beyond s with
  | case1 s hs =>
    cases h
    exact .refl _
  | case2 => cases h
  | case3 s hs u hu ih => exact (onward_of_step hu).trans (ih h)

theorem run_of_step_error {e : ParseError} (hne : s.rest ≠ []) (h : s.step beyond = .error e) :
    s.run beyond = .error e := by
  rw [run, dif_neg hne]
  split
  · next e' he =>
    rw [h] at he
    exact he.symm
  · next u hu =>
    rw [h] at hu
    cases hu

end Onward

/-- The scan `a` bytes further on, behind the lexemes `old`. -/
def behind (a : Nat) (old : List Lexeme) (s : Scanner) : Scanner :=
  { s with pos := s.pos + a, out := s.out.map (·.later a) ++ old }

/-- The lexemes before those of the scan do not end with one of the same line. -/
def Apart (old : List Lexeme) (s : Scanner) : Prop :=
  s.out ≠ [] ∨ old.head?.any (·.kind.isSolid) = false

section Behind

variable {s t : Scanner} {beyond : Option Char} {old : List Lexeme} (a : Nat)

theorem Apart.head? (h : Apart old s) :
    (s.behind a old).out.head?.any (·.kind.isSolid) = s.out.head?.any (·.kind.isSolid) := by
  unfold Apart at h
  simp only [behind]
  cases hout : s.out with
  | nil => simpa [hout] using h
  | cons l r => simp

theorem Apart.onward (h : Apart old s) (ht : Onward s t) : Apart old t := by
  refine h.imp_left fun hne hnil => hne ?_
  have hout := ht.out
  rwa [hnil, List.suffix_nil] at hout

theorem pass_behind (gap rest : Text) (s : Scanner) :
    (s.behind a old).pass gap rest = (s.pass gap rest).behind a old := by
  simp only [behind, pass, mk.injEq, true_and, and_true]
  omega

theorem newline_behind (h : Apart old s) (n : Nat) :
    (s.behind a old).newline (n + a) = (s.newline n).behind a old := by
  unfold newline
  rw [h.head?]
  split <;> rfl

theorem settle_behind (w : Nat) {gap : Text} (hgap : size gap ≤ s.pos) :
    (s.behind a old).settle w gap = (s.settle w gap).behind a old := by
  have hplace : s.pos + a - size gap = s.pos - size gap + a := by omega
  unfold settle
  cases hi : s.indents with
  | nil => simp [behind, hi]
  | cons i is =>
    simp only [behind, hi, hplace]
    split <;> simp [later_mk]

theorem indentation_behind (s : Scanner) :
    (s.behind a old).indentation = s.indentation.behind a old := by
  have hrest : (s.behind a old).rest = s.rest := rfl
  unfold indentation
  simp only [hrest, pass_behind]
  have hrest' (t : Scanner) : (t.behind a old).rest = t.rest := rfl
  simp only [hrest']
  split
  · rfl
  · split
    · rfl
    · exact settle_behind a _ (by simp [pass])

theorem lexeme_behind (beyond : Option Char) (s : Scanner) : (s.behind a old).lexeme beyond =
    ((s.lexeme beyond).map (·.behind a old)).mapError (·.later a) := by
  have hrest : (s.behind a old).rest = s.rest := rfl
  unfold lexeme
  rw [hrest]
  split
  · rfl
  · next kind text rest _ =>
    have hl : (⟨kind, ⟨s.pos + a, s.pos + a + size text⟩, text⟩ : Lexeme) =
        later a ⟨kind, ⟨s.pos, s.pos + size text⟩, text⟩ := by
      rw [later_mk, Nat.add_right_comm]
    simp only [pass_behind, Except.map, Except.mapError, Except.ok.injEq]
    simp only [behind, hl, later_opens, later_closes, List.map_cons, List.cons_append, pass]

theorem token_behind (h : Apart old s) (beyond : Option Char) : (s.behind a old).token beyond =
    ((s.token beyond).map (·.behind a old)).mapError (·.later a) := by
  have hrest : (s.behind a old).rest = s.rest := rfl
  unfold token
  simp only [hrest, pass_behind, lexeme_behind]
  split
  · rfl
  · next c r hr =>
    split
    · rfl
    · split
      · have hline : Apart old (s.pass [c] r) := h
        have hdepth : (s.behind a old).depth = s.depth := rfl
        have hpos : (s.behind a old).pos = s.pos + a := rfl
        simp only [hdepth, hpos, newline_behind a hline, Except.map, Except.mapError]
        split <;> rfl
      · split
        · rfl
        · split <;> rfl

theorem step_behind (h : Apart old s) (beyond : Option Char) : (s.behind a old).step beyond =
    ((s.step beyond).map (·.behind a old)).mapError (·.later a) := by
  have hline : (s.behind a old).lineStart = s.lineStart := rfl
  have hdepth : (s.behind a old).depth = s.depth := rfl
  unfold step
  rw [hline, hdepth]
  split
  · rw [indentation_behind]
    exact token_behind a (h.onward (onward_indentation s)) beyond
  · exact token_behind a h beyond

theorem run_behind (h : Apart old s) (beyond : Option Char) : (s.behind a old).run beyond =
    ((s.run beyond).map (·.behind a old)).mapError (·.later a) := by
  fun_induction run beyond s with
  | case1 s hs =>
    have hs : (s.behind a old).rest = [] := hs
    rw [run, dif_pos hs]
    rfl
  | case2 s hs e he =>
    have hstep := step_behind a h beyond
    rw [he] at hstep
    exact run_of_step_error hs hstep
  | case3 s hs t ht ih =>
    have hstep := step_behind a h beyond
    rw [ht] at hstep
    rw [run_of_step (s := s.behind a old) hs hstep]
    exact ih (h.onward (onward_of_step ht))

theorem finish_behind (h : Apart old s) (stop : Nat) :
    (s.behind a old).finish (stop + a) = old.reverse ++ (s.finish stop).map (·.later a) := by
  unfold finish
  rw [newline_behind a h]
  simp [behind, later_mk]

end Behind

section Beyond

variable {s t : Scanner} {beyond beyond' : Option Char}

theorem token_beyond (h : SameEnd beyond beyond' s.rest) : s.token beyond' = s.token beyond := by
  unfold token lexeme
  rw [read_beyond h]

theorem step_beyond (h : SameEnd beyond beyond' s.rest) : s.step beyond' = s.step beyond := by
  unfold step
  split
  · exact token_beyond (h.of_suffix (onward_indentation s).rest)
  · exact token_beyond h

/-- What stands after a range matters only to a point that ends the range. -/
theorem run_beyond (h : SameEnd beyond beyond' s.rest) : s.run beyond' = s.run beyond := by
  fun_induction run beyond s with
  | case1 s hs => rw [run, dif_pos hs]
  | case2 s hs e he => exact run_of_step_error hs ((step_beyond h).trans he)
  | case3 s hs t ht ih =>
    rw [run_of_step hs ((step_beyond h).trans ht)]
    exact ih (h.of_suffix (onward_of_step ht).rest)

end Beyond

end Scanner

namespace Text

open Lexeme

variable {source part : Text} {a b : Nat}

/-- The lexemes of a range are those of the text that stands there, with all places moved, unless the
text ends with a point and a letter comes after it. -/
theorem lexemes_of_slice? (h : source.slice? a b = some part)
    (hend : part.getLast? = some '.' → isLed (source.dropBytes b).head? = false) :
    source.lexemes ⟨a, b⟩ =
      ((part.lexemes ⟨0, size part⟩).map (·.map (·.later a))).mapError (·.later a) := by
  obtain ⟨before, after, rfl, hspan⟩ := stands_of_slice? h
  cases hspan
  have hafter : (before ++ part ++ after).dropBytes (size before + size part) = after := by
    have := dropBytes_size_append (before ++ part) after
    rwa [size_append] at this
  rw [hafter] at hend
  have hwhole := lexemes_eq [] part []
  simp only [List.nil_append, List.append_nil, size, Nat.zero_add, List.head?_nil] at hwhole
  have hfresh :
      Scanner.fresh part (size before) = (Scanner.fresh part 0).behind (size before) [] := by
    simp [Scanner.fresh, Scanner.behind]
  have hsame : SameEnd none after.head? (Scanner.fresh part 0).rest := hend
  rw [lexemes_eq, hwhole, hfresh, Scanner.run_behind _ (.inr rfl), Scanner.run_beyond hsame]
  cases (Scanner.fresh part 0).run none with
  | error e => rfl
  | ok s =>
    simp only [Except.map, Except.mapError, Except.ok.injEq]
    rw [Nat.add_comm, Scanner.finish_behind _ (.inr rfl), List.reverse_nil, List.nil_append]

/-- Before a letter the point that ends a range is an operator, though the text that stands there is a
number with its point. -/
theorem lexemes_point_before_letter :
    (of "1.a").lexemes ⟨0, 2⟩ = .ok [⟨.number, ⟨0, 1⟩, of "1"⟩, ⟨.op, ⟨1, 2⟩, of "."⟩,
      ⟨.newline, ⟨2, 2⟩, []⟩, ⟨.eof, ⟨2, 2⟩, []⟩] ∧
    (of "1.a").slice? 0 2 = some (of "1.") ∧
    (of "1.").lexemes ⟨0, 2⟩ = .ok [⟨.number, ⟨0, 2⟩, of "1."⟩, ⟨.newline, ⟨2, 2⟩, []⟩,
      ⟨.eof, ⟨2, 2⟩, []⟩] := by
  decide +kernel

end Text

namespace Cursor

variable {ls : List Lexeme} {items : List Node} {c : Cursor}

/-- A script does not depend on what was read before. -/
theorem statements_congr (ls : List Lexeme) (last last' : Nat) :
    (statements ⟨ls, last⟩).toOption.map (·.1) = (statements ⟨ls, last'⟩).toOption.map (·.1) := by
  have hok {last : Nat} (last' : Nat) {items : List Node} {c : Cursor}
      (h : statements ⟨ls, last⟩ = .ok (items, c)) :
      ∃ c', statements ⟨ls, last'⟩ = .ok (items, c') := by
    obtain ⟨hrun, hend⟩ := run_of_blockIn h
    exact hrun.statements (hend rfl) last'
  cases h : statements ⟨ls, last⟩ with
  | ok found =>
    obtain ⟨c', h'⟩ := hok last' h
    rw [h']
    rfl
  | error e =>
    cases h' : statements ⟨ls, last'⟩ with
    | ok found =>
      obtain ⟨c', h''⟩ := hok last h'
      rw [h] at h''
      cases h''
    | error e' => rfl

/-- Alike lexemes make up alike statements, wherever the text before them ends. -/
theorem statements_alike {φ : Shift} {ls' : List Lexeme}
    (hls : List.Forall₂ (Lexeme.Alike φ) ls ls') (hclosed : Lexeme.Closed ls) :
    (statements ⟨ls', 0⟩).toOption.map (·.1) =
      (statements ⟨ls, 0⟩).toOption.map fun found => found.1.map (·.moved φ.carry) := by
  have halike : Alike φ ⟨ls, 0⟩ ⟨ls', φ.carry 0⟩ := ⟨hls, hclosed, rfl, .inl rfl⟩
  have hagree := halike.statements
  rw [statements_congr _ 0 (φ.carry 0)]
  generalize statements ⟨ls, 0⟩ = found, statements ⟨ls', φ.carry 0⟩ = found' at hagree
  cases hagree with
  | error => rfl
  | ok hfound => cases hfound with
    | mk hitems _ => exact congrArg some hitems.eq_map

/-- Lexemes further on in a text make up the same statements there. -/
theorem statements_later (a : Nat) (hclosed : Lexeme.Closed ls) :
    (statements ⟨ls.map (·.later a), 0⟩).toOption.map (·.1) =
      (statements ⟨ls, 0⟩).toOption.map fun found => found.1.map (·.moved (· + a)) := by
  let φ : Shift := ⟨(· + a), Set.univ, Set.univ, fun _ _ _ _ h => Nat.add_lt_add_right h a⟩
  have hls : List.Forall₂ (Lexeme.Alike φ) ls (ls.map (·.later a)) := by
    rw [List.forall₂_map_right_iff, List.forall₂_same]
    exact fun l _ => ⟨Lexeme.moved_later a l, trivial, trivial, fun _ _ => trivial⟩
  exact statements_alike hls hclosed

end Cursor

namespace Tree

variable {source part : Text} {a b : Nat}

theorem ofRange_root (source : Text) (range : Span) :
    (ofRange source range).toOption.map (·.root) = (source.lexemes range).toOption.bind fun ls =>
      ((Cursor.statements ⟨ls, 0⟩).toOption.map (·.1)).map fun items => ⟨.script, range, items⟩ := by
  unfold ofRange
  cases source.lexemes range with
  | error e => rfl
  | ok ls =>
    cases h : Cursor.statements ⟨ls, 0⟩ with
    | error e => simp [h, bind, Except.bind, Except.toOption]
    | ok found => simp [h, bind, Except.bind, pure, Except.pure, Except.toOption]

/-- A range is a script exactly if the text that stands there is one, and its tree is then that of the
text, with all places moved, unless the text ends with a point and a letter comes after it. -/
theorem ofRange_of_slice? (h : source.slice? a b = some part)
    (hend : part.getLast? = some '.' → Lexeme.isLed (source.dropBytes b).head? = false) :
    (ofRange source ⟨a, b⟩).toOption.map (·.root) =
      (ofScript part).toOption.map (·.root.moved (· + a)) := by
  have hb : b = size part + a := by
    have := (Text.stands_of_slice? h).size_eq
    simp only at this
    omega
  have hroot : (ofScript part).toOption.map (·.root.moved (· + a)) =
      ((ofScript part).toOption.map (·.root)).map (·.moved (· + a)) := by
    rw [Option.map_map]
    rfl
  rw [hroot, ofScript, ofRange_root, ofRange_root, Text.lexemes_of_slice? h hend]
  cases hls : part.lexemes ⟨0, size part⟩ with
  | error e => rfl
  | ok ls =>
    obtain ⟨body, stop, hbody, -⟩ := (Text.stream_of_lexemes_self hls).ends
    have hlater := Cursor.statements_later a ⟨body, _, hbody, rfl⟩
    simp only [Except.map, Except.mapError, Except.toOption, Option.bind_some] at hlater ⊢
    rw [hlater, Option.map_map, Option.map_map, Option.map_map]
    congr 1
    funext found
    simp only [Function.comp, Node.moved_mk, Span.moved, Nat.zero_add, hb]

end Tree

end Phrasebook
