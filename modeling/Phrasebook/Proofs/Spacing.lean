import Phrasebook.Proofs.Rescan

/-!
Texts of tokens with one blank between them.

A token that is read whole when nothing follows is also read whole before a blank
(`Lexeme.read_blank`), so the lexemes of the joined text are the tokens, each in its place
(`Token.lexemes_join`).
-/
namespace Phrasebook

open Text (size)

/-- A text without blanks that begins a longer one ends before the first blank. -/
theorem Text.prefix_append_blank {t u : Text} (hu : ' ' ∉ u) (more : Text) :
    u <+: t ++ ' ' :: more ↔ u <+: t := by
  refine ⟨fun h => ?_, fun h => h.trans (List.prefix_append t _)⟩
  rcases List.prefix_or_prefix_of_prefix h (List.prefix_append t _) with hle | ⟨v, rfl⟩
  · exact hle
  · cases v with
    | nil => simp
    | cons d v =>
      rw [List.prefix_append_right_inj, List.cons_prefix_cons] at h
      rw [h.1] at hu
      simp at hu

namespace Lexeme

variable {beyond : Option Char} {t u sigil more : Text} {kind : Kind} {c : Char}

theorem readString_blank {r : Text} (hc : isQuote c = true)
    (h : readString sigil (c :: r) = .ok (kind, u, [])) (more : Text) :
    readString sigil (c :: r ++ ' ' :: more) = .ok (kind, u, ' ' :: more) := by
  obtain ⟨content, rfl, rfl, hbody, hcontent⟩ := readString_eq_ok h
  rw [List.append_nil] at hbody hcontent
  have hdel : delimiterOf (c :: r ++ ' ' :: more) = delimiterOf (c :: r) := by
    match r with
    | [] => simp [delimiterOf] at hbody
    | [a] =>
      have hne : a = ' ' → c ≠ a := by
        rintro rfl rfl
        cases hc
      simp only [List.cons_append, List.nil_append, delimiterOf]
      rw [if_neg fun h => hne h.2 h.1]
    | _ :: _ :: _ => rfl
  have hcontent := contentOf_congr (delimiterOf_ne_nil (List.cons_ne_nil c r)) hcontent (' ' :: more)
  have hdrop : List.drop (delimiterOf (c :: r)).length (c :: r ++ ' ' :: more) =
      content ++ delimiterOf (c :: r) ++ ' ' :: more := by
    conv => lhs; arg 2; rw [hbody]
    simp only [List.append_assoc, List.drop_left]
  simp only [readString, hdel, hdrop, hcontent]

theorem numberTail_blank {seen : Text} (h : numberTail none seen t = (t, [])) (more : Text) :
    numberTail none seen (t ++ ' ' :: more) = (t, ' ' :: more) := by
  induction t generalizing seen with
  | nil =>
    have hstop : goesOnNumber none seen ' ' more = false := by
      have hword : Char.isAlphanum ' ' = false := rfl
      simp [goesOnNumber, hword]
    simp [numberTail, hstop]
  | cons c t ih =>
    have hsame : goesOnNumber none seen c (t ++ ' ' :: more) = goesOnNumber none seen c t := by
      cases t with
      | nil => rfl
      | cons => rfl
    simp only [List.cons_append, numberTail, hsame] at h ⊢
    split at h
    · next hgo =>
      simp only [Prod.mk.injEq, List.cons.injEq, true_and] at h
      rw [if_pos hgo, ih (Prod.ext h.1 h.2)]
    · cases h

theorem readOperator_blank (h : readOperator t = .ok (kind, u, [])) (more : Text) :
    readOperator (t ++ ' ' :: more) = .ok (kind, u, ' ' :: more) := by
  have hblank : ∀ op ∈ operators, ' ' ∉ op := by decide
  have hfind : operators.find? (·.isPrefixOf (t ++ ' ' :: more)) =
      operators.find? (·.isPrefixOf t) := by
    rw [← List.head?_filter, ← List.head?_filter]
    refine congrArg List.head? (List.filter_congr fun op hop => ?_)
    rw [Bool.eq_iff_iff, List.isPrefixOf_iff_prefix, List.isPrefixOf_iff_prefix,
      Text.prefix_append_blank (hblank op hop)]
  have htext := (eq_append_of_readOperator h).1
  rw [List.append_nil] at htext
  subst htext
  unfold readOperator at h ⊢
  rw [hfind]
  split at h
  · next op hop =>
    simp only [Except.ok.injEq, Prod.mk.injEq] at h
    obtain ⟨hk, rfl, -⟩ := h
    simp [hk]
  · cases h

/-- What is read whole at the end of a text is read whole before a blank. -/
theorem read_blank (h : read none t = .ok (kind, t, [])) (more : Text) :
    read none (t ++ ' ' :: more) = .ok (kind, t, ' ' :: more) := by
  cases t with
  | nil => simp [read] at h
  | cons c r =>
    have hsigil : beginsSigil (c :: (r ++ ' ' :: more)) = beginsSigil (c :: r) := by
      cases r <;> simp [beginsSigil, isQuote]
    have hnumber : beginsNumber (c :: (r ++ ' ' :: more)) = beginsNumber (c :: r) := by
      cases r <;> simp [beginsNumber, Char.isDigit]
    simp only [List.cons_append, read, hsigil, hnumber] at h ⊢
    split at h
    · next hq =>
      rw [if_pos hq]
      exact readString_blank hq h more
    · next hq =>
      rw [if_neg hq]
      split at h
      · next hs =>
        rw [if_pos hs]
        cases r with
        | nil => cases hs
        | cons d r =>
          rw [beginsSigil, Bool.and_eq_true] at hs
          exact readString_blank hs.2 h more
      · next hs =>
        rw [if_neg hs]
        split at h
        · next hn =>
          rw [if_pos hn]
          simp only [Except.ok.injEq, Prod.mk.injEq] at h ⊢
          have htail := numberTail_blank (Prod.ext h.2.1 h.2.2) more
          rw [List.cons_append] at htail
          exact ⟨h.1, by rw [htail], by rw [htail]⟩
        · next hn =>
          rw [if_neg hn]
          split at h
          · next hl =>
            rw [if_pos hl]
            simp only [Except.ok.injEq, Prod.mk.injEq] at h ⊢
            have hall : ∀ d ∈ c :: r, isWordChar d = true := by
              rw [← h.2.1]
              exact List.all_eq_true.1 List.all_takeWhile
            have hblank : isWordChar ' ' = false := by decide
            rw [← List.cons_append, List.takeWhile_append_of_pos hall,
              List.dropWhile_append_of_pos hall]
            simp [hblank, h.1]
          · next hl =>
            rw [if_neg hl]
            exact readOperator_blank h more

/-- The characters with which blanks, line ends, comments and continuations begin. -/
def idle : List Char := [' ', '\t', '\r', '\n', '#', '\\']

theorem readOperator_of_idle {r : Text} (hc : c ∈ idle) :
    readOperator (c :: r) = .error .strayCharacter := by
  have hops : (idle.all fun d =>
      decide (∀ op ∈ operators, op ≠ [] ∧ op.head? ≠ some d)) = true := by decide
  have hfind : operators.find? (·.isPrefixOf (c :: r)) = none := by
    rw [List.find?_eq_none]
    intro op hop hlead
    obtain ⟨hne, hhead⟩ := of_decide_eq_true (List.all_eq_true.1 hops c hc) op hop
    obtain ⟨d, v, rfl⟩ := List.exists_cons_of_ne_nil hne
    rw [List.isPrefixOf_iff_prefix, List.cons_prefix_cons] at hlead
    exact hhead (congrArg some hlead.1)
  rw [readOperator, hfind]

/-- No lexeme begins with one of these. -/
theorem read_of_idle (hc : c ∈ idle) (beyond : Option Char) (r : Text) :
    read beyond (c :: r) = .error .strayCharacter := by
  have hchars : (idle.all fun d => decide (isQuote d = false ∧
      (d == 'r' || d == '&' || d == '^') = false ∧ (d.isDigit = false ∧ (d == '.') = false) ∧
      isLetter d = false)) = true := by decide
  obtain ⟨hq, hs, ⟨hd, hp⟩, hl⟩ := of_decide_eq_true (List.all_eq_true.1 hchars c hc)
  have hsigil : beginsSigil (c :: r) = false := by
    cases r with
    | nil => rfl
    | cons => rw [beginsSigil, hs, Bool.false_and]
  have hnumber : beginsNumber (c :: r) = false := by
    rw [beginsNumber, hd, hp, Bool.false_and, Bool.or_false]
  rw [read, hq, hsigil, hnumber, hl]
  exact readOperator_of_idle hc

theorem not_idle_of_read {r rest : Text} (h : read beyond (c :: r) = .ok (kind, u, rest)) :
    c ∉ idle := by
  intro hc
  rw [read_of_idle hc] at h
  cases h

theorem ne_nil_of_read {rest : Text} (h : read beyond t = .ok (kind, u, rest)) : t ≠ [] := by
  rintro rfl
  cases h

end Lexeme

namespace Scanner

open Lexeme

variable {beyond : Option Char} {s t : Scanner} {u rest : Text} {kind : Kind}

/-- Where a lexeme is read nothing is passed over. -/
theorem token_of_read (h : read beyond s.rest = .ok (kind, u, rest)) :
    s.token beyond = s.lexeme beyond := by
  cases hs : s.rest with
  | nil =>
    rw [hs] at h
    cases h
  | cons c r =>
    rw [hs] at h
    have hidle := not_idle_of_read h
    simp only [idle, List.mem_cons, List.not_mem_nil, or_false, not_or] at hidle
    obtain ⟨hblank, htab, hreturn, hline, hhash, hslash⟩ := hidle
    have hgap : isGap c = false := by simp [isGap, hblank, htab, hreturn]
    have hcontinuation : continuation? s.rest = none := by
      rw [hs]
      unfold continuation?
      split
      · next heq =>
        cases heq
        exact absurd rfl hslash
      · rfl
    unfold token
    rw [hcontinuation, hs]
    simp [hgap, hline, hhash]

/-- Inside a line a lexeme is read in one step. -/
theorem step_of_read (hline : s.lineStart = false) (h : read beyond s.rest = .ok (kind, u, rest)) :
    ∃ t, s.step beyond = .ok t ∧ t.rest = rest ∧ t.pos = s.pos + size u ∧ t.lineStart = false ∧
      t.indents = s.indents ∧ t.out = ⟨kind, ⟨s.pos, s.pos + size u⟩, u⟩ :: s.out := by
  rw [step, hline, if_neg (by simp), token_of_read h]
  simp only [lexeme, h]
  exact ⟨_, rfl, rfl, rfl, hline, rfl, rfl⟩

/-- Inside a line a blank is passed in one step. -/
theorem step_blank (beyond : Option Char) (hline : s.lineStart = false) (h : s.rest = ' ' :: rest) :
    s.step beyond = .ok (s.pass [' '] rest) := by
  rw [step, hline, if_neg (by simp), token, h]
  rfl

/-- At a line that is not indented, with no other line before it, a scan goes on as inside the line. -/
theorem run_fresh {t : Text} (h : read beyond t = .ok (kind, u, rest)) (pos : Nat) :
    (fresh t pos).run beyond =
      Scanner.run beyond { fresh t pos with indents := [0], lineStart := false } := by
  have hne := ne_nil_of_read h
  have hindentation : (fresh t pos).indentation =
      { fresh t pos with indents := [0], lineStart := false } := by
    obtain ⟨c, r, rfl⟩ := List.exists_cons_of_ne_nil hne
    have hidle := not_idle_of_read h
    simp only [idle, List.mem_cons, List.not_mem_nil, or_false, not_or] at hidle
    obtain ⟨hblank, htab, hreturn, hline, hhash, -⟩ := hidle
    have hgap : isGap c = false := by simp [isGap, hblank, htab, hreturn]
    simp [indentation, fresh, pass, settle, hgap, hline, hhash, Scanner.width, size]
  obtain ⟨s, hstep, -⟩ := step_of_read (s := { fresh t pos with indents := [0], lineStart := false })
    rfl h
  have hfirst : (fresh t pos).step beyond = .ok s := by
    rw [← hstep, step, step, if_pos ⟨rfl, rfl⟩, hindentation, if_neg (by simp)]
  rw [run_of_step hne hfirst, run_of_step hne hstep]

end Scanner

/-- A lexeme without its place. -/
structure Token where
  kind : Lexeme.Kind
  text : Text
deriving DecidableEq

namespace Token

open Lexeme

/-- The text is read as this token. -/
def Reads (t : Token) : Prop := read none t.text = .ok (t.kind, t.text, [])

instance (t : Token) : Decidable t.Reads := inferInstanceAs (Decidable (_ = _))

/-- The tokens with one blank between them. -/
def join (ts : List Token) : Text := List.intercalate [' '] (ts.map (·.text))

/-- The bytes that tokens take, each with a blank behind it. -/
def width : List Token → Nat
  | [] => 0
  | t :: ts => size t.text + 1 + width ts

/-- The lexemes of the tokens, where the first is at `pos`. -/
def lexemes (pos : Nat) : List Token → List Lexeme
  | [] => []
  | t :: ts => ⟨t.kind, ⟨pos, pos + size t.text⟩, t.text⟩ :: lexemes (pos + size t.text + 1) ts

/-- The marks at the end of a text of one line. -/
def ends (stop : Nat) : List Lexeme := [⟨.newline, ⟨stop, stop⟩, []⟩, ⟨.eof, ⟨stop, stop⟩, []⟩]

variable {t : Token} {ts us : List Token}

@[simp] theorem width_append : width (ts ++ us) = width ts + width us := by
  induction ts with
  | nil => simp [width]
  | cons t ts ih =>
    simp only [List.cons_append, width, ih]
    omega

theorem width_pos (hne : ts ≠ []) : 0 < width ts := by
  obtain ⟨t, ts, rfl⟩ := List.exists_cons_of_ne_nil hne
  rw [width]
  omega

theorem lexemes_append (pos : Nat) :
    lexemes pos (ts ++ us) = lexemes pos ts ++ lexemes (pos + width ts) us := by
  induction ts generalizing pos with
  | nil => rfl
  | cons t ts ih =>
    simp only [List.cons_append, lexemes, width, ih]
    rw [show pos + size t.text + 1 + width ts = pos + (size t.text + 1 + width ts) by omega]

theorem join_cons_cons (u : Token) : join (t :: u :: us) = t.text ++ ' ' :: join (u :: us) := by
  simp [join, List.intercalate]

@[simp] theorem join_singleton : join [t] = t.text := by simp [join]

theorem solid_of_mem_lexemes (h : ∀ t ∈ ts, t.Reads) {pos : Nat} {l : Lexeme}
    (hl : l ∈ lexemes pos ts) : l.kind.isSolid = true := by
  induction ts generalizing pos with
  | nil => cases hl
  | cons t ts ih =>
    rcases List.mem_cons.1 hl with rfl | hl
    · exact (solid_of_read (h t List.mem_cons_self)).1
    · exact ih (fun u hu => h u (List.mem_cons_of_mem t hu)) hl

/-- From the beginning of a token on a scan reads one token after the other. -/
theorem run_join {s : Scanner} (h : ∀ u ∈ t :: ts, u.Reads) (hrest : s.rest = join (t :: ts))
    (hline : s.lineStart = false) : ∃ v, s.run none = .ok v ∧
      v.out = (lexemes s.pos (t :: ts)).reverse ++ s.out ∧ v.indents = s.indents := by
  induction ts generalizing s t with
  | nil =>
    have hread : read none s.rest = .ok (t.kind, t.text, []) := by
      rw [hrest, join_singleton]
      exact h t List.mem_cons_self
    obtain ⟨w, hstep, hw, -, -, hindents, hout⟩ := Scanner.step_of_read hline hread
    refine ⟨w, ?_, hout, hindents⟩
    rw [Scanner.run_of_step (ne_nil_of_read hread) hstep, Scanner.run, dif_pos hw]
  | cons u us ih =>
    have hread : read none s.rest = .ok (t.kind, t.text, ' ' :: join (u :: us)) := by
      rw [hrest, join_cons_cons]
      exact read_blank (h t List.mem_cons_self) _
    obtain ⟨w, hstep, hw, hpos, hwline, hindents, hout⟩ := Scanner.step_of_read hline hread
    have hblank := Scanner.step_blank none hwline hw
    obtain ⟨v, hrun, hvout, hvindents⟩ := ih (s := w.pass [' '] (join (u :: us)))
      (fun x hx => h x (List.mem_cons_of_mem t hx)) rfl hwline
    refine ⟨v, ?_, ?_, hvindents.trans hindents⟩
    · rw [Scanner.run_of_step (ne_nil_of_read hread) hstep, Scanner.run_of_step (by simp [hw]) hblank]
      exact hrun
    · have hplace : (w.pass [' '] (join (u :: us))).pos = s.pos + size t.text + 1 := by
        simp only [Scanner.pass, hpos]
        rfl
      rw [hvout, hplace]
      simp [lexemes, Scanner.pass, hout]

theorem read_join (h : ∀ u ∈ t :: ts, u.Reads) :
    ∃ rest, read none (join (t :: ts)) = .ok (t.kind, t.text, rest) := by
  cases ts with
  | nil =>
    rw [join_singleton]
    exact ⟨[], h t List.mem_cons_self⟩
  | cons u us =>
    rw [join_cons_cons]
    exact ⟨_, read_blank (h t List.mem_cons_self) _⟩

/-- The lexemes of joined tokens are the tokens in their places. -/
theorem lexemes_join (hne : ts ≠ []) (h : ∀ t ∈ ts, t.Reads) :
    (join ts).lexemes ⟨0, size (join ts)⟩ = .ok (lexemes 0 ts ++ ends (size (join ts))) := by
  obtain ⟨t, ts, rfl⟩ := List.exists_cons_of_ne_nil hne
  obtain ⟨rest, hread⟩ := read_join h
  have hfresh := Scanner.run_fresh hread 0
  obtain ⟨v, hrun, hout, hindents⟩ := run_join (s := { Scanner.fresh (join (t :: ts)) 0 with
    indents := [0], lineStart := false }) h rfl rfl
  rw [hrun] at hfresh
  have hlexemes := Text.lexemes_eq [] (join (t :: ts)) []
  simp only [List.nil_append, List.append_nil, size, Nat.zero_add, List.head?_nil] at hlexemes
  rw [hlexemes, hfresh]
  have hout : v.out = (lexemes 0 (t :: ts)).reverse := hout.trans (List.append_nil _)
  have hsolid : v.out.head?.any (·.kind.isSolid) = true := by
    rw [hout, List.head?_reverse, Option.any_eq_true]
    have hlast := List.getLast?_eq_some_getLast (l := lexemes 0 (t :: ts)) (by simp [lexemes])
    exact ⟨_, hlast, solid_of_mem_lexemes h (List.mem_of_getLast? hlast)⟩
  have hnewline (n : Nat) : v.newline n = v.mark .newline n := if_pos hsolid
  simp [Except.map, Scanner.finish, hnewline, Scanner.mark, hout, hindents, ends]

end Token

end Phrasebook
