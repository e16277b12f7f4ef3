import Phrasebook.ParseError

/-!
Cutting a range of a script into lexemes.

The scanner is a transition system: `Scanner.step` reads at least one character, and `Scanner.run`
repeats it until nothing is left. Line breaks inside brackets and after a closing backslash do not
count; changes of indentation at the start of a logical line become `indent` and `dedent`.
-/
namespace Phrasebook

namespace Lexeme

/-- The operators, longest first. -/
def operators : List Text :=
  ["**=", "<<=", ">>=", "**", "==", "!=", "<=", ">=", "&&", "||", "+=", "-=", "*=", "/=", "%=",
   "&=", "|=", "^=", "<<", ">>", "->", ":=", "..", "+", "-", "*", "/", "%", "<", ">", "=", "!",
   "&", "|", "^", "~", "(", ")", "[", "]", "\x7b", "\x7d", ",", ":", ".", ";", "$", "@", "?"].map
    Text.of

/-- Blanks inside a line. -/
def isGap (c : Char) : Bool := c == ' ' || c == '\t' || c == '\r'

def isQuote (c : Char) : Bool := c == '"' || c == '\''

/-- A letter or underscore; every character outside ASCII counts as a letter. -/
def isLetter (c : Char) : Bool := c == '_' || c.isAlpha || 0x80 ≤ c.toNat

def isWordChar (c : Char) : Bool := isLetter c || c.isDigit

/-- The delimiter of the literal whose text from the opening quote on is given. -/
def delimiterOf : Text → Text
  | a :: b :: c :: _ => if a = b ∧ b = c then [a, b, c] else [a]
  | a :: _ => [a]
  | [] => []

/-- The content up to the first closing delimiter, and what follows the delimiter. Unless the
literal is raw, a backslash takes the character after it into the content: `held` tells that the
character before was such a backslash. -/
def contentOf (raw : Bool) (delimiter : Text) (held : Bool) : Text → Option (Text × Text)
  | [] => none
  | c :: r =>
    if held then (contentOf raw delimiter false r).map fun (content, rest) => (c :: content, rest)
    else if c = '\\' ∧ raw = false then
      (contentOf raw delimiter true r).map fun (content, rest) => (c :: content, rest)
    else match Text.afterLeading? delimiter (c :: r) with
      | some rest => some ([], rest)
      | none =>
        (contentOf raw delimiter false r).map fun (content, rest) => (c :: content, rest)

/-- Whether `c` goes on a number whose characters so far, latest first, are `seen`. `rest` follows
`c` in the range and `beyond` is the character after the range: a single point is taken unless a
letter comes next, so that `1.floor()` keeps its call. -/
def goesOnNumber (beyond : Option Char) (seen : Text) (c : Char) (rest : Text) : Bool :=
  let sign := (c == '-' || c == '+') && (seen.head? == some 'e' || seen.head? == some 'E') &&
    !(Text.of "0x").isPrefixOf seen.reverse
  let beforeDigit := rest.head?.any Char.isDigit
  let beforeLetter := (rest.head?.or beyond).any fun d => d.isAlpha || d == '_'
  c.isAlphanum || c == '_' || sign ||
    (c == '.' && (beforeDigit || (!seen.contains '.' && !beforeLetter)))

/-- The rest of a number and what follows it. -/
def numberTail (beyond : Option Char) (seen : Text) : Text → Text × Text
  | [] => ([], [])
  | c :: r =>
    if goesOnNumber beyond seen c r then
      let (more, rest) := numberTail beyond (c :: seen) r
      (c :: more, rest)
    else ([], c :: r)

/-- A string literal with the given sigil, from its opening quote on. -/
def readString (sigil t : Text) : Except ParseError.Cause (Kind × Text × Text) :=
  let q : Quoting := ⟨sigil, delimiterOf t⟩
  match contentOf q.isRaw q.delimiter false (List.drop q.delimiter.length t) with
  | some (content, rest) => .ok (.str q, q.wrap content, rest)
  | none => .error .unclosedString

/-- An operator, the longest that fits. -/
def readOperator (t : Text) : Except ParseError.Cause (Kind × Text × Text) :=
  match operators.find? (·.isPrefixOf t) with
  | some op => .ok (.op, op, List.drop op.length t)
  | none => .error .strayCharacter

/-- Whether a string literal with a sigil begins here. -/
def beginsSigil : Text → Bool
  | c :: d :: _ => (c == 'r' || c == '&' || c == '^') && isQuote d
  | _ => false

/-- Whether a number begins here. -/
def beginsNumber : Text → Bool
  | c :: r => c.isDigit || (c == '.' && r.head?.any Char.isDigit)
  | [] => false

/-- The lexeme that begins `t`, its text, and what follows. -/
def read (beyond : Option Char) (t : Text) : Except ParseError.Cause (Kind × Text × Text) :=
  match t with
  | [] => .error .strayCharacter
  | c :: r =>
    if isQuote c then readString [] t
    else if beginsSigil t then readString [c] r
    else if beginsNumber t then
      let (text, rest) := numberTail beyond [] t
      .ok (.number, text, rest)
    else if isLetter c then .ok (.word, t.takeWhile isWordChar, t.dropWhile isWordChar)
    else readOperator t

theorem eq_append_of_contentOf {raw held : Bool} {delimiter t content rest : Text}
    (h : contentOf raw delimiter held t = some (content, rest)) :
    t = content ++ delimiter ++ rest := by
  fun_induction contentOf raw delimiter held t generalizing content rest with
  | case1 => simp at h
  | case2 c r ih | case3 _ c r _ _ ih | case5 _ c r _ _ _ ih =>
    obtain ⟨⟨content', rest'⟩, hr, he⟩ := Option.map_eq_some_iff.1 h
    cases he
    simp [ih hr]
  | case4 _ c r _ _ rest' hd =>
    cases h
    simpa using Text.eq_append_of_afterLeading? hd

theorem delimiterOf_append (t : Text) :
    delimiterOf t ++ List.drop (delimiterOf t).length t = t := by
  unfold delimiterOf
  split
  · split <;> simp_all
  · simp
  · simp

theorem eq_append_of_readString {sigil t text rest : Text} {kind : Kind}
    (h : readString sigil t = .ok (kind, text, rest)) : sigil ++ t = text ++ rest := by
  simp only [readString] at h
  split at h
  · next content rest' hc =>
    cases h
    have := eq_append_of_contentOf hc
    simp only [Quoting.wrap, List.append_assoc, List.append_cancel_left_eq] at this ⊢
    rw [← this, delimiterOf_append]
  · cases h

theorem eq_append_of_readOperator {t text rest : Text} {kind : Kind}
    (h : readOperator t = .ok (kind, text, rest)) : t = text ++ rest ∧ text ≠ [] := by
  unfold readOperator at h
  split at h
  · next op hop =>
    cases h
    have hp := List.find?_some hop
    have hm := List.mem_of_find?_eq_some hop
    refine ⟨?_, ?_⟩
    · obtain ⟨r, rfl⟩ := List.isPrefixOf_iff_prefix.1 hp
      simp
    · intro he
      subst he
      revert hm
      decide
  · cases h

theorem numberTail_append (beyond : Option Char) (seen t : Text) :
    (numberTail beyond seen t).1 ++ (numberTail beyond seen t).2 = t := by
  fun_induction numberTail beyond seen t with
  | case1 => rfl
  | case2 seen c r hc more rest hr ih => simp_all
  | case3 => rfl

theorem numberTail_ne_nil {beyond : Option Char} {t : Text} (h : beginsNumber t = true) :
    (numberTail beyond [] t).1 ≠ [] := by
  cases t with
  | nil => simp [beginsNumber] at h
  | cons c r =>
    have hc : goesOnNumber beyond [] c r = true := by
      simp only [beginsNumber, Bool.or_eq_true, Bool.and_eq_true] at h
      rcases h with h | ⟨h, hd⟩
      · simp [goesOnNumber, Char.isAlphanum, h]
      · simp [goesOnNumber, h, hd]
    simp [numberTail, hc]

theorem delimiterOf_ne_nil {t : Text} (h : t ≠ []) : delimiterOf t ≠ [] := by
  unfold delimiterOf
  split
  · split <;> simp
  · simp
  · exact absurd rfl h

/-- A string literal is never empty. -/
theorem readString_ne_nil {sigil t text rest : Text} {kind : Kind} (ht : t ≠ [])
    (h : readString sigil t = .ok (kind, text, rest)) : text ≠ [] := by
  simp only [readString] at h
  split at h
  · cases h
    simp [Quoting.wrap, delimiterOf_ne_nil ht]
  · cases h

/-- A lexeme is a non-empty beginning of the text. -/
theorem eq_append_of_read {beyond : Option Char} {t text rest : Text} {kind : Kind}
    (h : read beyond t = .ok (kind, text, rest)) : t = text ++ rest ∧ text ≠ [] := by
  cases t with
  | nil => simp [read] at h
  | cons c r =>
    simp only [read] at h
    split at h
    · exact ⟨by simpa using eq_append_of_readString h, readString_ne_nil (by simp) h⟩
    · split at h
      · next hs =>
        have hr : r ≠ [] := by rintro rfl; simp [beginsSigil] at hs
        exact ⟨by simpa using eq_append_of_readString h, readString_ne_nil hr h⟩
      · split at h
        · next hn =>
          cases h
          exact ⟨(numberTail_append ..).symm, numberTail_ne_nil hn⟩
        · split at h
          · next hl =>
            cases h
            exact ⟨(List.takeWhile_append_dropWhile ..).symm, by simp [isWordChar, hl]⟩
          · exact eq_append_of_readOperator h

end Lexeme

/-- The state of a scan. `indents` holds the open indentation widths, innermost first, and `out`
the lexemes so far, latest first. -/
structure Scanner where
  rest : Text
  pos : Nat
  depth : Nat
  indents : List Nat
  lineStart : Bool
  out : List Lexeme
deriving DecidableEq, Repr

namespace Scanner

open Lexeme

/-- Adds a lexeme without text. -/
def mark (kind : Kind) (at_ : Nat) (s : Scanner) : Scanner :=
  { s with out := ⟨kind, ⟨at_, at_⟩, []⟩ :: s.out }

/-- Adds a `newline` at an offset, if the lexeme before it carries text. -/
def newline (at_ : Nat) (s : Scanner) : Scanner :=
  if s.out.head?.any (·.kind.isSolid) then s.mark .newline at_ else s

/-- Passes over `gap`, after which `rest` is left. -/
def pass (gap rest : Text) (s : Scanner) : Scanner :=
  { s with rest, pos := s.pos + Text.size gap }

/-- The width of an indentation: a tab counts four, a carriage return nothing. -/
def width : Text → Nat
  | [] => 0
  | c :: more => (if c = ' ' then 1 else if c = '\t' then 4 else 0) + width more

/-- The widths left open after every inner one wider than `w` has been closed. The outermost is
never closed. -/
def unwind (w : Nat) : List Nat → List Nat
  | a :: b :: r => if w < a then unwind w (b :: r) else a :: b :: r
  | s => s

/-- Accounts for an indentation of width `w` whose text is `gap`. A width between two open ones
opens a level of its own. -/
def settle (w : Nat) (gap : Text) (s : Scanner) : Scanner :=
  match s.indents with
  | [] => { s with indents := [w], lineStart := false }
  | open_ =>
    let left := unwind w open_
    let dedents := List.replicate (open_.length - left.length) ⟨.dedent, ⟨s.pos, s.pos⟩, []⟩
    let s := { s with indents := left, lineStart := false, out := dedents ++ s.out }
    if left.head?.any (· < w) then
      { s with
        indents := w :: left
        out := ⟨.indent, ⟨s.pos - Text.size gap, s.pos⟩, gap⟩ :: s.out }
    else s

/-- Reads the blanks at the start of a logical line. Empty lines and lines with only a comment do
not count. -/
def indentation (s : Scanner) : Scanner :=
  let gap := s.rest.takeWhile isGap
  let s := s.pass gap (s.rest.dropWhile isGap)
  match s.rest with
  | [] => s
  | c :: _ => if c = '\n' ∨ c = '#' then s else s.settle (width gap) gap

/-- What follows a backslash, blanks and a line break, with the text passed over. -/
def continuation? : Text → Option (Text × Text)
  | '\\' :: r =>
    match r.dropWhile isGap with
    | '\n' :: rest => some ('\\' :: r.takeWhile isGap ++ ['\n'], rest)
    | _ => none
  | _ => none

/-- Reads one lexeme and follows the brackets. -/
def lexeme (beyond : Option Char) (s : Scanner) : Except ParseError Scanner :=
  match read beyond s.rest with
  | .error cause => .error ⟨s.pos, cause⟩
  | .ok (kind, text, rest) =>
    let l : Lexeme := ⟨kind, ⟨s.pos, s.pos + Text.size text⟩, text⟩
    let s := s.pass text rest
    .ok { s with
      depth := if l.opens then s.depth + 1 else if l.closes then s.depth - 1 else s.depth
      out := l :: s.out }

/-- Reads a blank, a line break, a comment, a continuation or a lexeme. -/
def token (beyond : Option Char) (s : Scanner) : Except ParseError Scanner :=
  match s.rest with
  | [] => .ok s
  | c :: r =>
    if isGap c then .ok (s.pass [c] r)
    else if c = '\n' then
      let t := s.pass [c] r
      .ok (if s.depth = 0 then { t.newline s.pos with lineStart := true } else t)
    else if c = '#' then
      .ok (s.pass (s.rest.takeWhile (· != '\n')) (s.rest.dropWhile (· != '\n')))
    else match continuation? s.rest with
      | some (gap, rest) => .ok (s.pass gap rest)
      | none => s.lexeme beyond

/-- One transition: the indentation first, where a logical line starts. -/
def step (beyond : Option Char) (s : Scanner) : Except ParseError Scanner :=
  (if s.lineStart ∧ s.depth = 0 then s.indentation else s).token beyond

theorem length_indentation_le (s : Scanner) :
    s.indentation.rest.length ≤ s.rest.length := by
  have h : (s.rest.dropWhile isGap).length ≤ s.rest.length :=
    (List.dropWhile_suffix _).length_le
  unfold indentation settle
  grind [pass]

theorem length_lt_of_continuation? {t gap rest : Text} (h : continuation? t = some (gap, rest)) :
    rest.length < t.length := by
  unfold continuation? at h
  split at h
  · next r =>
    split at h
    · next rest' hr =>
      cases h
      have : (r.dropWhile isGap).length ≤ r.length := (List.dropWhile_suffix _).length_le
      simp [hr] at this ⊢
      omega
    · cases h
  · cases h

theorem length_lt_of_lexeme {beyond : Option Char} {s t : Scanner}
    (h : s.lexeme beyond = .ok t) : t.rest.length < s.rest.length := by
  simp only [lexeme] at h
  split at h
  · cases h
  · next kind text rest hr =>
    cases h
    obtain ⟨he, hn⟩ := eq_append_of_read hr
    have := List.length_pos_iff.2 hn
    simp [pass, he]
    omega

theorem length_lt_of_token {beyond : Option Char} {s t : Scanner} (hs : s.rest ≠ [])
    (h : s.token beyond = .ok t) : t.rest.length < s.rest.length := by
  obtain ⟨c, r, hr⟩ := List.exists_cons_of_ne_nil hs
  simp only [token, hr] at h
  split at h
  · cases h; simp [pass, hr]
  · split at h
    · cases h; grind [pass, newline, mark]
    · split at h
      · next hc =>
        cases h
        have : (r.dropWhile (· != '\n')).length ≤ r.length := (List.dropWhile_suffix _).length_le
        simp [pass, hr, hc]
        omega
      · split at h
        · next hg =>
          cases h
          simpa [pass, hr] using length_lt_of_continuation? hg
        · exact length_lt_of_lexeme h

/-- A step reads at least one character. -/
theorem length_lt_of_step {beyond : Option Char} {s t : Scanner} (hs : s.rest ≠ [])
    (h : s.step beyond = .ok t) : t.rest.length < s.rest.length := by
  unfold step at h
  split at h
  · by_cases hi : s.indentation.rest = []
    · have : t = s.indentation := by simpa [token, hi] using h.symm
      simpa [this, hi] using List.length_pos_iff.2 hs
    · exact Nat.lt_of_lt_of_le (length_lt_of_token hi h) (length_indentation_le s)
  · exact length_lt_of_token hs h

/-- Steps until nothing is left. -/
def run (beyond : Option Char) (s : Scanner) : Except ParseError Scanner :=
  if _hs : s.rest = [] then .ok s
  else match _h : s.step beyond with
    | .error e => .error e
    | .ok t => run beyond t
termination_by s.rest.length
decreasing_by exact length_lt_of_step _hs _h

/-- The lexemes of a finished scan: the last line is closed and so is every indentation. -/
def finish (stop : Nat) (s : Scanner) : List Lexeme :=
  let s := s.newline stop
  s.out.reverse ++ List.replicate (s.indents.length - 1) ⟨.dedent, ⟨stop, stop⟩, []⟩ ++
    [⟨.eof, ⟨stop, stop⟩, []⟩]

end Scanner

/-- The lexemes of a range, ended by `eof`. The range is cut at the end of the text. -/
def Text.lexemes (source : Text) (range : Span) : Except ParseError (List Lexeme) :=
  let stop := min range.stop source.size
  let start : Scanner :=
    { rest := source.slice range.start stop
      pos := range.start
      depth := 0
      indents := []
      lineStart := true
      out := [] }
  match start.run (source.dropBytes stop).head? with
  | .error e => .error e
  | .ok s => .ok (s.finish stop)

end Phrasebook
