import Phrasebook.Proofs.Lines
import Phrasebook.Proofs.Ranges

/-!
A text scanned in two parts.

At a line end a scan of the whole text has come as far as one of the text up to there, unless a string
goes on over the line end (`Scanner.run_onto`). What is open there can be told from the lexemes
(`Scanner.Counted`); where nothing is open, the scan goes on as one of the rest by itself
(`Scanner.run_seam`). So the lexemes of a text are those of both its parts (`Text.lexemes_split`).
-/
namespace Phrasebook

open Text (size)

namespace Lexeme

variable {beyond beyond' : Option Char} {t u tail text rest : Text} {kind : Kind}

theorem ne_newline_of_numberTail (seen : Text) :
    '\n' ∉ (numberTail beyond seen t).1 := by
  induction t generalizing seen with
  | nil => simp [numberTail]
  | cons c r ih =>
    rw [numberTail]
    split
    · next hc =>
      simp only [List.mem_cons, not_or]
      refine ⟨?_, ih _⟩
      rintro rfl
      simp [goesOnNumber] at hc
    · simp

/-- A line feed stands in string literals only. -/
theorem string_of_read (h : read beyond t = .ok (kind, text, rest)) (hn : '\n' ∈ text) :
    ∃ q, kind = .str q := by
  cases t with
  | nil => simp [read] at h
  | cons c r =>
    simp only [read] at h
    split at h
    · obtain ⟨q, content, hk, -⟩ := quoted_of_readString h
      exact ⟨q, hk⟩
    · split at h
      · obtain ⟨q, content, hk, -⟩ := quoted_of_readString h
        exact ⟨q, hk⟩
      · split at h
        · cases h
          exact absurd hn (ne_newline_of_numberTail _)
        · split at h
          · cases h
            have hword := List.all_eq_true.1 List.all_takeWhile _ hn
            cases hword
          · unfold readOperator at h
            split at h
            · next op hop =>
              cases h
              have hstop := not_isStop_of_mem_operators _ (List.mem_of_find?_eq_some hop) _ hn
              cases hstop
            · cases h

/-- A lexeme does not end with a line feed. -/
theorem not_endsLine_of_read (h : read beyond t = .ok (kind, text, rest)) : ¬ text.EndsLine := by
  intro hend
  obtain ⟨q, rfl⟩ := string_of_read h hend.mem
  obtain ⟨hq, content, rfl, -⟩ := encloses_of_read h
  obtain ⟨d, hd, hdel, -⟩ := hq
  have hlast : (q.wrap content).getLast? = some d := by
    rw [Quoting.wrap, List.getLast?_append]
    rcases hdel with hdel | hdel <;> rw [hdel] <;> rfl
  rw [Text.EndsLine, hlast] at hend
  cases hend
  cases hd

/-- Of a text that ends with a line, a lexeme is read as if nothing came after it, or it is a string
that goes on. -/
theorem read_onto (beyond' : Option Char) (h : read beyond (u ++ tail) = .ok (kind, text, rest))
    (hu : u.EndsLine) :
    (∃ rest', rest = rest' ++ tail ∧ read beyond' u = .ok (kind, text, rest')) ∨
      (∃ q, kind = .str q) ∧ size u < size text := by
  rcases List.append_eq_append_iff.1 (eq_append_of_read h).1 with ⟨v, htext, htail⟩ | ⟨r, hur, hrest⟩
  · have hne : v ≠ [] := by
      rintro rfl
      rw [List.append_nil] at htext
      exact not_endsLine_of_read h (htext ▸ hu)
    refine .inr ⟨string_of_read h (htext ▸ List.mem_append_left v hu.mem), ?_⟩
    have := Text.size_pos hne
    rw [htext, Text.size_append]
    omega
  · have hne : r ≠ [] := by
      rintro rfl
      rw [List.append_nil] at hur
      exact not_endsLine_of_read h (hur ▸ hu)
    have hr : Text.EndsLine r := hu.of_suffix ⟨text, hur.symm⟩ hne
    subst hur hrest
    rw [List.append_assoc] at h
    have hread := read_append_congr h (Text.akin_append hr.mem tail)
    refine .inl ⟨r, rfl, ?_⟩
    rw [← hread]
    refine read_beyond fun hlast => ?_
    rw [hu] at hlast
    cases hlast

/-- How many brackets are open after a lexeme, where `d` were open before it. -/
def depthAfter (d : Nat) (l : Lexeme) : Nat :=
  if l.opens then d + 1 else if l.closes then d - 1 else d

/-- How many brackets are open after lexemes. -/
def depth (ls : List Lexeme) : Nat := ls.foldl depthAfter 0

/-- The lexemes before the first with text that begins at byte `p` or later. -/
def upTo (p : Nat) (ls : List Lexeme) : List Lexeme :=
  ls.takeWhile fun l => !(l.kind.isSolid && decide (p ≤ l.span.start))

/-- As many indentations are closed as are opened. -/
def Outdented (ls : List Lexeme) : Prop :=
  ls.countP (·.kind == .indent) = ls.countP (·.kind == .dedent)

theorem upTo_append {xs ys : List Lexeme} {p : Nat}
    (hxs : ∀ x ∈ xs, x.kind.isSolid = true → x.span.start < p) :
    upTo p (xs ++ ys) = xs ++ upTo p ys := by
  refine List.takeWhile_append_of_pos fun x hx => ?_
  cases hsolid : x.kind.isSolid with
  | false => rfl
  | true => simpa using hxs x hx hsolid

theorem upTo_cons {l : Lexeme} {ys : List Lexeme} {p : Nat} (hsolid : l.kind.isSolid = true)
    (hp : p ≤ l.span.start) : upTo p (l :: ys) = [] := by
  simp [upTo, hsolid, hp]

theorem depth_concat (ls : List Lexeme) (l : Lexeme) :
    depth (ls ++ [l]) = depthAfter (depth ls) l := by
  simp [depth]

theorem depth_append {old : List Lexeme} (h : depth old = 0) (new : List Lexeme) :
    depth (old ++ new) = depth new := by
  rw [depth, List.foldl_append, ← depth, h, depth]

end Lexeme

namespace Scanner

open Lexeme

variable {s t u final : Scanner} {beyond beyond' : Option Char} {tail : Text}

/-- The scan with more text to come. -/
def onto (tail : Text) (s : Scanner) : Scanner := { s with rest := s.rest ++ tail }

/-- A string goes on over the end of what is left to a scan. -/
def Crossed (s : Scanner) (ls : List Lexeme) : Prop :=
  ∃ l ∈ ls, (∃ q, l.kind = .str q) ∧ l.span.start < s.pos + size s.rest ∧
    s.pos + size s.rest < l.span.stop

theorem Crossed.onward {ls : List Lexeme} (h : Crossed t ls) (hs : Onward s t) : Crossed s ls := by
  rw [Crossed, hs.place] at h
  exact h

theorem settle_onto (w : Nat) (gap : Text) (s : Scanner) :
    (s.onto tail).settle w gap = (s.settle w gap).onto tail := by
  unfold settle onto
  cases s.indents with
  | nil => rfl
  | cons i is =>
    simp only
    split <;> rfl

theorem newline_onto (n : Nat) (s : Scanner) : (s.onto tail).newline n = (s.newline n).onto tail := by
  unfold newline onto
  simp only
  split <;> rfl

theorem indentation_onto (hs : s.rest.EndsLine) :
    (s.onto tail).indentation = s.indentation.onto tail := by
  obtain ⟨htake, hdrop, hne⟩ := Text.cutWhile_append (f := isGap) ⟨'\n', hs.mem, rfl⟩ tail
  have hpass : (s.onto tail).pass (s.rest.takeWhile isGap) (s.rest.dropWhile isGap ++ tail) =
      (s.pass (s.rest.takeWhile isGap) (s.rest.dropWhile isGap)).onto tail := rfl
  have hrest : (s.onto tail).rest = s.rest ++ tail := rfl
  have hv : (s.pass (s.rest.takeWhile isGap) (s.rest.dropWhile isGap)).rest ≠ [] := hne
  unfold indentation
  simp only [hrest, htake, hdrop, hpass]
  generalize s.pass (s.rest.takeWhile isGap) (s.rest.dropWhile isGap) = v at hv ⊢
  obtain ⟨c, r, hr⟩ := List.exists_cons_of_ne_nil hv
  have hr' : (v.onto tail).rest = c :: (r ++ tail) := by rw [onto, hr, List.cons_append]
  rw [hr, hr']
  simp only
  split
  · rfl
  · exact settle_onto ..

theorem rest_indentation (s : Scanner) : s.indentation.rest = s.rest.dropWhile isGap := by
  unfold indentation settle
  grind [pass]

theorem step_of_run (hne : s.rest ≠ []) (h : s.run beyond = .ok final) :
    ∃ t, s.step beyond = .ok t ∧ t.run beyond = .ok final := by
  cases ht : s.step beyond with
  | error e =>
    rw [run_of_step_error hne ht] at h
    cases h
  | ok t =>
    rw [run_of_step hne ht] at h
    exact ⟨t, rfl, h⟩

theorem continuation?_onto {u : Text} (hu : u.EndsLine) (tail : Text) :
    continuation? (u ++ tail) = (continuation? u).map fun (gap, rest) => (gap, rest ++ tail) := by
  cases u with
  | nil => cases hu
  | cons c r =>
    by_cases hc : c = '\\'
    · subst hc
      have hne : r ≠ [] := by
        rintro rfl
        cases hu
      have hr : Text.EndsLine r := hu.of_suffix (List.suffix_cons _ _) hne
      obtain ⟨htake, hdrop, hne⟩ := Text.cutWhile_append (f := isGap) ⟨'\n', hr.mem, rfl⟩ tail
      obtain ⟨d, v, hcut⟩ := List.exists_cons_of_ne_nil hne
      simp only [List.cons_append, continuation?, htake, hdrop, hcut]
      by_cases hd : d = '\n'
      · subst hd
        rfl
      · simp [hd]
    · simp [continuation?, hc]

theorem lexeme_onto (hs : s.rest.EndsLine) (h : (s.onto tail).lexeme beyond = .ok u) :
    (∃ t, s.lexeme beyond' = .ok t ∧ u = t.onto tail) ∨ Crossed s u.out := by
  unfold lexeme at h
  split at h
  · cases h
  · next kind text rest hr =>
    cases h
    rcases read_onto beyond' hr hs with ⟨rest', rfl, hread⟩ | ⟨hq, hlt⟩
    · refine .inl ?_
      simp only [lexeme, hread]
      exact ⟨_, rfl, rfl⟩
    · refine .inr ⟨_, List.mem_cons_self, hq, ?_, Nat.add_lt_add_left hlt s.pos⟩
      have := Text.size_pos (List.ne_nil_of_mem hs.mem)
      exact Nat.lt_add_of_pos_right this

theorem token_onto (hs : s.rest.EndsLine) (h : (s.onto tail).token beyond = .ok u) :
    (∃ t, s.token beyond' = .ok t ∧ u = t.onto tail) ∨ Crossed s u.out := by
  obtain ⟨c, r, hr⟩ := List.exists_cons_of_ne_nil (List.ne_nil_of_mem hs.mem)
  have hrest : (s.onto tail).rest = s.rest ++ tail := rfl
  have hcomment := Text.cutWhile_append (f := (· != '\n')) ⟨'\n', hs.mem, rfl⟩ tail
  have hcont := continuation?_onto hs tail
  have hpass (gap rest : Text) :
      (s.onto tail).pass gap (rest ++ tail) = (s.pass gap rest).onto tail := rfl
  unfold token at h ⊢
  rw [hrest, hcomment.1, hcomment.2.1, hcont, hr] at h
  rw [hr]
  simp only [List.cons_append, hpass] at h ⊢
  split at h
  · next hgap =>
    cases h
    exact .inl ⟨_, by rw [if_pos hgap], rfl⟩
  · next hgap =>
    rw [if_neg hgap]
    split at h
    · next hline =>
      cases h
      rw [if_pos hline]
      refine .inl ⟨_, rfl, ?_⟩
      have hdepth : (s.onto tail).depth = s.depth := rfl
      have hpos : (s.onto tail).pos = s.pos := rfl
      rw [hdepth, hpos, newline_onto]
      split <;> rfl
    · next hline =>
      rw [if_neg hline]
      split at h
      · next hhash =>
        cases h
        exact .inl ⟨_, by rw [if_pos hhash], rfl⟩
      · next hhash =>
        rw [if_neg hhash]
        cases hc : continuation? (c :: r) with
        | some found =>
          rw [hc] at h
          cases h
          exact .inl ⟨_, rfl, rfl⟩
        | none =>
          rw [hc] at h
          exact lexeme_onto hs h

theorem step_onto (beyond' : Option Char) (hs : s.rest.EndsLine)
    (h : (s.onto tail).step beyond = .ok u) :
    (∃ t, s.step beyond' = .ok t ∧ u = t.onto tail) ∨ Crossed s u.out := by
  unfold step at h ⊢
  have hline : (s.onto tail).lineStart = s.lineStart := rfl
  have hdepth : (s.onto tail).depth = s.depth := rfl
  rw [hline, hdepth] at h
  split at h
  · next hstart =>
    rw [if_pos hstart]
    rw [indentation_onto hs] at h
    have hon := onward_indentation s
    have hne : s.indentation.rest ≠ [] := by
      rw [rest_indentation]
      exact (Text.cutWhile_append (f := isGap) ⟨'\n', hs.mem, rfl⟩ []).2.2
    exact (token_onto (hs.of_suffix hon.rest hne) h).imp_right (·.onward hon)
  · next hstart =>
    rw [if_neg hstart]
    exact token_onto hs h

/-- A scan of the whole text comes by the end of the first part, unless a string goes on over it. -/
theorem run_onto (beyond' : Option Char) (hs : s.rest = [] ∨ s.rest.EndsLine)
    (h : (s.onto tail).run beyond = .ok final) (hclear : ¬ Crossed s final.out) :
    ∃ t, s.run beyond' = .ok t ∧ (t.onto tail).run beyond = .ok final := by
  induction hlen : s.rest.length using Nat.strong_induction_on generalizing s with
  | _ n ih =>
    subst hlen
    by_cases hnil : s.rest = []
    · exact ⟨s, by rw [run, dif_pos hnil], h⟩
    · have hne : (s.onto tail).rest ≠ [] := by simp [onto, hnil]
      obtain ⟨u, hu, hrun⟩ := step_of_run hne h
      rcases step_onto beyond' (hs.resolve_left hnil) hu with ⟨t, ht, rfl⟩ | hcross
      · have hon := onward_of_step ht
        have hends : t.rest = [] ∨ t.rest.EndsLine := by
          by_cases ht' : t.rest = []
          · exact .inl ht'
          · exact .inr ((hs.resolve_left hnil).of_suffix hon.rest ht')
        obtain ⟨t', ht', hfinal⟩ := ih _ (length_lt_of_step hnil ht) hends hrun
          (fun hcross => hclear (hcross.onward hon)) rfl
        exact ⟨t', by rw [run_of_step hnil ht, ht'], hfinal⟩
      · obtain ⟨l, hl, hcross⟩ := hcross
        exact absurd ⟨l, (onward_of_run hrun).out.subset hl, hcross⟩ hclear

/-- The brackets and indentations that are open are those of the lexemes. -/
structure Counted (s : Scanner) : Prop where
  depth : s.depth = Lexeme.depth s.out.reverse
  level : s.indents.length - 1 + s.out.countP (·.kind == .dedent) =
    s.out.countP (·.kind == .indent)

theorem Counted.congr (h : Counted s) (hdepth : t.depth = s.depth) (hindents : t.indents = s.indents)
    (hout : t.out = s.out) : Counted t :=
  ⟨by rw [hdepth, hout]; exact h.depth, by rw [hindents, hout]; exact h.level⟩

theorem Counted.newline (h : Counted s) (n : Nat) : Counted (s.newline n) := by
  unfold Scanner.newline
  split
  · refine ⟨?_, ?_⟩
    · simpa [mark, Lexeme.depth, Lexeme.depthAfter, opens, closes, isOp] using h.depth
    · simpa [mark] using h.level
  · exact h

theorem unwind_spec (w : Nat) (is : List Nat) :
    (unwind w is).getLast? = is.getLast? ∧ (unwind w is).length ≤ is.length ∧
      (is ≠ [] → unwind w is ≠ []) := by
  fun_induction unwind w is with
  | case1 a b r _ ih => simp_all; omega
  | case2 => simp
  | case3 => simp

theorem Counted.settle (h : Counted s) (w : Nat) (gap : Text) : Counted (s.settle w gap) := by
  have hdedents (count : Nat) (p : Nat) :
      Lexeme.depth (List.replicate count (⟨.dedent, ⟨p, p⟩, []⟩ : Lexeme) ++ s.out).reverse =
        s.depth := by
    induction count with
    | zero => exact h.depth.symm
    | succ count ih =>
      rw [List.replicate_succ, List.cons_append, List.reverse_cons, depth_concat]
      exact ih
  have hlevel := h.level
  unfold Scanner.settle
  split
  · next hnil =>
    rw [hnil] at hlevel
    exact ⟨h.depth, hlevel⟩
  · next hopen =>
    obtain ⟨-, hle, hne⟩ := unwind_spec w s.indents
    have hpos := List.length_pos_iff.2 (hne hopen)
    simp only
    split
    · refine ⟨?_, ?_⟩
      · rw [List.reverse_cons, depth_concat]
        exact (hdedents _ _).symm
      · simp only [List.length_cons, List.countP_cons, List.countP_append, List.countP_replicate]
        simp
        omega
    · refine ⟨(hdedents _ _).symm, ?_⟩
      simp only [List.countP_append, List.countP_replicate]
      simp
      omega

theorem Counted.indentation (h : Counted s) : Counted s.indentation := by
  have hpass : Counted (s.pass (s.rest.takeWhile isGap) (s.rest.dropWhile isGap)) :=
    h.congr rfl rfl rfl
  unfold Scanner.indentation
  simp only
  split
  · exact hpass
  · split
    · exact hpass
    · exact hpass.settle ..

theorem Counted.lexeme (h : Counted s) (ht : s.lexeme beyond = .ok t) : Counted t := by
  simp only [Scanner.lexeme] at ht
  split at ht
  · cases ht
  · next kind text rest hr =>
    cases ht
    have hsolid := (solid_of_read hr).1
    refine ⟨?_, ?_⟩
    · have hdepth : (s.pass text rest).depth = Lexeme.depth (s.pass text rest).out.reverse := h.depth
      rw [List.reverse_cons, depth_concat, ← hdepth]
      rfl
    · have hmark : (kind == .dedent) = false ∧ (kind == .indent) = false := by
        cases kind <;> simp_all [Kind.isSolid]
      simpa [pass, hmark] using h.level

theorem Counted.token (h : Counted s) (ht : s.token beyond = .ok t) : Counted t := by
  unfold Scanner.token at ht
  split at ht
  · cases ht
    exact h
  · next c r hr =>
    split at ht
    · cases ht
      exact h.congr rfl rfl rfl
    · split at ht
      · cases ht
        have hpass : Counted (s.pass [c] r) := h.congr rfl rfl rfl
        split
        · exact (hpass.newline s.pos).congr rfl rfl rfl
        · exact hpass
      · split at ht
        · cases ht
          exact h.congr rfl rfl rfl
        · split at ht
          · cases ht
            exact h.congr rfl rfl rfl
          · exact h.lexeme ht

theorem Counted.step (h : Counted s) (ht : s.step beyond = .ok t) : Counted t := by
  unfold Scanner.step at ht
  split at ht
  · exact h.indentation.token ht
  · exact h.token ht

theorem Counted.run (h : Counted s) (ht : s.run beyond = .ok t) : Counted t := by
  fun_induction Scanner.run beyond s with
  | case1 s hs =>
    cases ht
    exact h
  | case2 => cases ht
  | case3 s hs u hu ih => exact ih (h.step hu) ht

/-- The outermost indentation is none; before the first line with code there is no indentation yet. -/
structure Based (s : Scanner) : Prop where
  outer : ∀ w ∈ s.indents.getLast?, w = 0
  lead : s.indents = [] → s.lineStart = true ∧ s.depth = 0 ∧ s.rest.lead = 0

theorem Based.getLast? (h : Based s) (hne : s.indents ≠ []) : s.indents.getLast? = some 0 := by
  cases hlast : s.indents.getLast? with
  | none => exact absurd (List.getLast?_eq_none_iff.1 hlast) hne
  | some w => rw [h.outer w hlast]

theorem indents_of_token (h : s.token beyond = .ok t) : t.indents = s.indents := by
  unfold token at h
  split at h
  · cases h
    rfl
  · split at h
    · cases h
      rfl
    · split at h
      · cases h
        split
        · exact newline_indents ..
        · rfl
      · split at h
        · cases h
          rfl
        · split at h
          · cases h
            rfl
          · unfold lexeme at h
            split at h <;> cases h
            rfl

theorem getLast?_settle (h : s.indents ≠ []) (w : Nat) (gap : Text) :
    (s.settle w gap).indents.getLast? = s.indents.getLast? := by
  obtain ⟨hlast, -, hne⟩ := unwind_spec w s.indents
  unfold settle
  split
  · next hnil => exact absurd hnil h
  · simp only
    split
    · rw [List.getLast?_cons_of_ne_nil (hne h), hlast]
    · exact hlast

theorem getLast?_indentation (h : s.indents ≠ []) :
    s.indentation.indents.getLast? = s.indents.getLast? := by
  unfold indentation
  simp only
  split
  · rfl
  · split
    · rfl
    · exact getLast?_settle (s := s.pass _ _) h _ _

/-- Once there is an outermost indentation it stays. -/
theorem getLast?_of_step (h : s.indents ≠ []) (ht : s.step beyond = .ok t) :
    t.indents.getLast? = s.indents.getLast? := by
  unfold step at ht
  rw [indents_of_token ht]
  split
  · exact getLast?_indentation h
  · rfl

/-- Before the first line with code. -/
theorem Based.step_lead (h : Based s) (hnil : s.indents = []) (ht : s.step beyond = .ok t) :
    Based t := by
  obtain ⟨hline, hdepth, hlead⟩ := h.lead hnil
  have hbased {t : Scanner} (hindents : t.indents = []) (hline : t.lineStart = true)
      (hdepth : t.depth = 0) (hlead : t.rest.lead = 0) : Based t :=
    ⟨by simp [hindents], fun _ => ⟨hline, hdepth, hlead⟩⟩
  rw [Text.lead_eq, Text.hasCode] at hlead
  rw [step, if_pos ⟨hline, hdepth⟩] at ht
  cases hcut : s.rest.dropWhile isGap with
  | nil =>
    have hind : s.indentation = s.pass (s.rest.takeWhile isGap) [] := by
      simp [indentation, pass, hcut]
    rw [hind] at ht
    cases ht
    exact hbased hnil hline hdepth rfl
  | cons c r =>
    have htext : s.rest = s.rest.takeWhile isGap ++ c :: r := by
      rw [← hcut, List.takeWhile_append_dropWhile]
    rw [hcut, List.head?_cons, Option.any_some] at hlead
    by_cases hc : c = '\n' ∨ c = '#'
    · have hind : s.indentation = s.pass (s.rest.takeWhile isGap) (c :: r) := by
        simp [indentation, pass, hcut, hc]
      -- No line feed is among the blanks, so the line ends in what is left after them.
      have hdrop : s.rest.dropWhile (· != '\n') = (c :: r).dropWhile (· != '\n') := by
        rw [htext, List.dropWhile_append_of_pos]
        intro d hd
        rw [bne_iff_ne]
        rintro rfl
        have hgap := List.all_eq_true.1 List.all_takeWhile _ hd
        cases hgap
      have hno : (c != '\n' && c != '#') = false := by
        rcases hc with rfl | rfl <;> rfl
      rw [hno, if_neg Bool.false_ne_true, hdrop] at hlead
      rw [hind] at ht
      rcases hc with rfl | rfl
      · have hgap : isGap '\n' = false := rfl
        simp only [token, pass, hgap, Bool.false_eq_true, if_false, if_true, hdepth] at ht
        cases ht
        refine hbased ?_ rfl ?_ ?_
        · exact (newline_indents ..).trans hnil
        · exact newline_depth ..
        · rw [newline_rest]
          exact hlead
      · cases ht
        refine hbased hnil hline hdepth ?_
        rw [← Text.lead_tail fun d hd => ?_] at hlead
        · exact hlead
        · have hstop := List.head?_dropWhile_not (· != '\n') ('#' :: r)
          rw [Option.mem_def.1 hd] at hstop
          simpa using hstop
    · have hind : s.indentation.indents = [width (s.rest.takeWhile isGap)] := by
        simp [indentation, pass, hcut, hc, settle, hnil]
      have hyes : (c != '\n' && c != '#') = true := by
        rw [Bool.and_eq_true, bne_iff_ne, bne_iff_ne]
        exact not_or.1 hc
      rw [hyes, if_pos rfl] at hlead
      rw [← indents_of_token ht, hlead] at hind
      exact ⟨by simp [hind], by simp [hind]⟩

theorem Based.step (h : Based s) (ht : s.step beyond = .ok t) : Based t := by
  by_cases hnil : s.indents = []
  · exact h.step_lead hnil ht
  · have hlast := getLast?_of_step hnil ht
    refine ⟨by rw [hlast]; exact h.outer, fun htnil => ?_⟩
    rw [htnil] at hlast
    exact absurd (List.getLast?_eq_none_iff.1 hlast.symm) hnil

theorem Based.run (h : Based s) (ht : s.run beyond = .ok t) : Based t := by
  fun_induction Scanner.run beyond s with
  | case1 s hs =>
    cases ht
    exact h
  | case2 => cases ht
  | case3 s hs u hu ih => exact ih (h.step hu) ht

theorem counted_fresh (rest : Text) (pos : Nat) : Counted (fresh rest pos) := ⟨rfl, rfl⟩

theorem based_fresh {rest : Text} (h : rest.lead = 0) (pos : Nat) : Based (fresh rest pos) :=
  ⟨by simp [fresh], fun _ => ⟨rfl, rfl, h⟩⟩

section Seam

variable {w r : Text}

/-- A word with which a function may begin, and a blank after it. -/
theorem read_declares (hw : w = Text.of "func" ∨ w = Text.of "static") (beyond : Option Char) :
    Lexeme.read beyond (w ++ ' ' :: r) = .ok (.word, w, ' ' :: r) := by
  rcases hw with rfl | rfl <;> rfl

theorem token_declares (hw : w = Text.of "func" ∨ w = Text.of "static")
    (h : s.rest = w ++ ' ' :: r) (beyond : Option Char) : s.token beyond =
      .ok { s with
        rest := ' ' :: r
        pos := s.pos + size w
        out := ⟨.word, ⟨s.pos, s.pos + size w⟩, w⟩ :: s.out } := by
  have hlexeme : s.token beyond = s.lexeme beyond := by
    rw [token, h]
    rcases hw with rfl | rfl <;> rfl
  have hread : Lexeme.read beyond s.rest = .ok (.word, w, ' ' :: r) := by rw [h, read_declares hw]
  rw [hlexeme]
  simp only [lexeme, hread]
  rfl

/-- At a line that is not indented only dedents are put out. -/
theorem settle_zero (s : Scanner) : s.settle 0 [] =
    { s with
      indents := (s.settle 0 []).indents
      lineStart := false
      out := List.replicate (s.indents.length - (s.settle 0 []).indents.length)
        ⟨.dedent, ⟨s.pos, s.pos⟩, []⟩ ++ s.out } := by
  unfold settle
  cases hi : s.indents with
  | nil => rfl
  | cons i is =>
    simp only [Nat.not_lt_zero, decide_false, Option.any_false, Bool.false_eq_true, if_false]

/-- What a scan has become once the indentation of a line that is not indented is accounted for. -/
structure Settled (s v : Scanner) : Prop where
  rest : v.rest = s.rest
  pos : v.pos = s.pos
  lineStart : v.lineStart = false
  outer : v.indents.getLast? = some 0
  out : v.out = List.replicate (s.indents.length - v.indents.length) ⟨.dedent, ⟨s.pos, s.pos⟩, []⟩ ++
    s.out
  counted : Counted s → Counted v
  within : s.lineStart = false → v.indents = s.indents

theorem settled_of_step (beyond : Option Char) (hl : Lined s) (hb : Based s)
    (hw : w = Text.of "func" ∨ w = Text.of "static") (h : s.rest = w ++ ' ' :: r) :
    ∃ v, s.step beyond = v.token beyond ∧ Settled s v := by
  cases hline : s.lineStart with
  | true =>
    have hdepth := (hl.fresh hline).1
    have hpass : s.pass [] s.rest = s := rfl
    have hindent : s.indentation = s.settle 0 [] := by
      have hgap : s.rest.takeWhile isGap = [] ∧ s.rest.dropWhile isGap = s.rest := by
        rw [h]
        rcases hw with rfl | rfl <;> exact ⟨rfl, rfl⟩
      rw [indentation, hgap.1, hgap.2, hpass, h]
      rcases hw with rfl | rfl <;> rfl
    refine ⟨s.settle 0 [], by rw [step, if_pos ⟨hline, hdepth⟩, hindent], ?_, ?_, ?_, ?_, ?_, ?_, ?_⟩
    · rw [settle_zero]
    · rw [settle_zero]
    · rw [settle_zero]
    · by_cases hnil : s.indents = []
      · simp [settle, hnil]
      · rw [getLast?_settle hnil, hb.getLast? hnil]
    · rw [settle_zero]
    · exact fun hc => hc.settle 0 []
    · simp [hline]
  | false =>
    have hne : s.indents ≠ [] := by
      intro hnil
      rw [(hb.lead hnil).1] at hline
      cases hline
    exact ⟨s, by rw [step, if_neg (by simp [hline])], rfl, rfl, hline, hb.getLast? hne, by simp, id,
      fun _ => rfl⟩

/-- The first line of a text begins a function. -/
theorem step_fresh_declares (beyond : Option Char)
    (hw : w = Text.of "func" ∨ w = Text.of "static") (pos : Nat) :
    (fresh (w ++ ' ' :: r) pos).step beyond =
      .ok ⟨' ' :: r, pos + size w, 0, [0], false, [⟨.word, ⟨pos, pos + size w⟩, w⟩]⟩ := by
  have hindent : (fresh (w ++ ' ' :: r) pos).indentation =
      ⟨w ++ ' ' :: r, pos, 0, [0], false, []⟩ := by
    rcases hw with rfl | rfl <;> rfl
  rw [step, if_pos ⟨rfl, rfl⟩, hindent, token_declares hw rfl]

theorem reverse_isPrefix_finish (stop : Nat) (s : Scanner) : s.out.reverse <+: s.finish stop := by
  have hout := List.reverse_prefix.2 (onward_newline stop s).out
  rw [finish, List.append_assoc]
  exact hout.trans (List.prefix_append _ _)

/-- What the scan has put out before the line of a function: all that is open is closed there. -/
def upToLine (s : Scanner) : List Lexeme :=
  List.replicate (s.indents.length - 1) ⟨.dedent, ⟨s.pos, s.pos⟩, []⟩ ++ s.out

/-- From the line of a function on, where nothing is open, a scan goes on as a new one. -/
theorem run_seam {stop : Nat} (hl : Lined s) (hb : Based s) (hc : Counted s)
    (hold : ∀ x ∈ s.out, x.kind.isSolid = true → x.span.start < s.pos)
    (hw : w = Text.of "func" ∨ w = Text.of "static") (hrest : s.rest = w ++ ' ' :: r)
    (hrun : s.run beyond = .ok final) (hdepth : Lexeme.depth (upTo s.pos (final.finish stop)) = 0)
    (hlevel : Outdented (upTo s.pos (final.finish stop))) :
    ∃ final', (fresh s.rest s.pos).run beyond = .ok final' ∧
      [⟨.word, ⟨s.pos, s.pos + size w⟩, w⟩] <:+ final'.out ∧
      final = final'.behind 0 s.upToLine ∧ (s.lineStart = false → s.indents.length = 1) := by
  obtain ⟨v, hstep, hv⟩ := settled_of_step beyond hl hb hw hrest
  rw [token_declares hw (hv.rest.trans hrest), hv.pos] at hstep
  have hne : s.rest ≠ [] := by simp [hrest]
  rw [run_of_step hne hstep] at hrun
  -- The lexemes before the line are those that the scan has put out so far.
  have hupTo : upTo s.pos (final.finish stop) = v.out.reverse := by
    obtain ⟨more, hmore⟩ := (onward_of_run hrun).out
    obtain ⟨ends, hends⟩ := reverse_isPrefix_finish stop final
    rw [← hends, ← hmore]
    simp only [List.reverse_append, List.reverse_cons, List.append_assoc, List.singleton_append]
    rw [upTo_append, List.cons_append,
      upTo_cons (l := ⟨.word, ⟨s.pos, _⟩, _⟩) rfl (Nat.le_refl s.pos), List.append_nil]
    intro x hx hsolid
    rw [List.mem_reverse, hv.out] at hx
    rcases List.mem_append.1 hx with hx | hx
    · rw [List.eq_of_mem_replicate hx] at hsolid
      cases hsolid
    · exact hold x hx hsolid
  rw [hupTo] at hdepth hlevel
  have hcounted := hv.counted hc
  have hvdepth : v.depth = 0 := hcounted.depth.trans hdepth
  have hvindents : v.indents = [0] := by
    have hone := hcounted.level
    rw [Outdented, List.countP_reverse, List.countP_reverse] at hlevel
    obtain ⟨inner, hinner⟩ := List.getLast?_eq_some_iff.1 hv.outer
    have hlen : inner.length = 0 := by
      rw [hinner, List.length_append, List.length_singleton] at hone
      omega
    rw [hinner, List.length_eq_zero_iff.1 hlen, List.nil_append]
  have hbehind : (⟨' ' :: r, s.pos + size w, v.depth, v.indents, v.lineStart,
      ⟨.word, ⟨s.pos, s.pos + size w⟩, w⟩ :: v.out⟩ : Scanner) =
      (⟨' ' :: r, s.pos + size w, 0, [0], false,
        [⟨.word, ⟨s.pos, s.pos + size w⟩, w⟩]⟩ : Scanner).behind 0 s.upToLine := by
    rw [hv.out, hvdepth, hvindents, hv.lineStart]
    rfl
  rw [hbehind, run_behind 0 (.inl (by simp))] at hrun
  have hfresh := step_fresh_declares beyond (r := r) hw s.pos
  rw [← hrest] at hfresh
  rw [run_of_step (s := fresh s.rest s.pos) hne hfresh]
  generalize hnew : (⟨' ' :: r, s.pos + size w, 0, [0], false,
    [⟨.word, ⟨s.pos, s.pos + size w⟩, w⟩]⟩ : Scanner) = new at hrun ⊢
  cases hrun' : new.run beyond with
  | error e =>
    rw [hrun'] at hrun
    cases hrun
  | ok final' =>
    rw [hrun'] at hrun
    cases hrun
    refine ⟨final', rfl, ?_, rfl, fun hline => ?_⟩
    · have hout := (onward_of_run hrun').out
      rwa [← hnew] at hout
    · rw [← hv.within hline, hvindents, List.length_singleton]

/-- How a scan ends that comes to the line of a function. -/
theorem finish_seam (hl : Lined s) (hone : s.lineStart = false → s.indents.length = 1) :
    ∃ stop, Closing stop ∧ s.finish s.pos = s.upToLine.reverse ++ stop := by
  cases hline : s.lineStart with
  | true =>
    have hnewline : s.newline s.pos = s := by
      have hhead := (hl.fresh hline).2
      rw [newline]
      cases hout : s.out.head? with
      | none => rfl
      | some x => simp [hhead x hout]
    refine ⟨[⟨.eof, ⟨s.pos, s.pos⟩, []⟩], .eof rfl, ?_⟩
    rw [finish, hnewline, upToLine, List.reverse_append, List.reverse_replicate]
  | false =>
    have hline : s.upToLine = s.out := by
      rw [upToLine, hone hline]
      rfl
    rw [hline, finish, newline_indents, hone ‹_›]
    unfold newline
    split
    · exact ⟨[⟨.newline, ⟨s.pos, s.pos⟩, []⟩, ⟨.eof, ⟨s.pos, s.pos⟩, []⟩], .newline rfl rfl,
        by simp [mark]⟩
    · exact ⟨[⟨.eof, ⟨s.pos, s.pos⟩, []⟩], .eof rfl, by simp⟩

end Seam

end Scanner

namespace Text

open Lexeme

variable {before part tail after w r : Text} {ls : List Lexeme} {p : Nat}

/-- A text cut before the line of a function, where nothing is open: its lexemes are those of both
parts. -/
theorem lexemes_split (hpart : part = [] ∨ part.EndsLine)
    (hw : w = of "func" ∨ w = of "static") (htail : tail = w ++ ' ' :: r)
    (hlead : lead (part ++ tail) = 0) (hp : p = size before + size part)
    (hls : (before ++ (part ++ tail) ++ after).lexemes
      ⟨size before, size before + size (part ++ tail)⟩ = .ok ls)
    (houtside : ∀ l ∈ ls, (∃ q, l.kind = .str q) → ¬ (l.span.start < p ∧ p < l.span.stop))
    (hdepth : depth (upTo p ls) = 0) (hlevel : Outdented (upTo p ls)) :
    ∃ old l more stop, ls = old ++ l :: more ∧ l.beginsFunction = true ∧ l.span.start = p ∧
      (∀ x ∈ old, x.kind.isSolid = true → x.span.start < p) ∧ Closing stop ∧
      (before ++ part ++ (tail ++ after)).lexemes ⟨size before, p⟩ = .ok (old ++ stop) ∧
      (before ++ part ++ tail ++ after).lexemes ⟨p, p + size tail⟩ = .ok (l :: more) := by
  subst hp
  obtain ⟨final, hrun, hpos, rfl⟩ := (lexemes_eq_ok_iff before (part ++ tail) after).1 hls
  have hclear : ¬ (Scanner.fresh part (size before)).Crossed final.out := by
    rintro ⟨l, hl, hq, hstart, hstop⟩
    exact houtside l (Scanner.mem_finish hl) hq ⟨hstart, hstop⟩
  obtain ⟨s, hs, hfinal⟩ := Scanner.run_onto (tail ++ after).head?
    (s := .fresh part (size before)) hpart hrun hclear
  obtain ⟨hsound, hrest⟩ := (Scanner.sound_fresh before part (tail ++ after)).run hs
  have hplace : s.pos = size before + size part := hsound.pos_eq hrest
  have hlined := (Scanner.lined_fresh part (size before)).run hs
  have hcounted := (Scanner.counted_fresh part (size before)).run hs
  have hbased := (Scanner.based_fresh (lead_append hpart hlead) (size before)).run hs
  have hcode : lead tail = 0 := by
    rw [htail, lead_eq]
    rcases hw with rfl | rfl <;> rfl
  have hold : ∀ x ∈ s.out, x.kind.isSolid = true → x.span.start < s.pos := fun x hx hsolid =>
    Nat.lt_of_lt_of_le ((hsound.placed x hx).lt hsolid) (hsound.behind x hx)
  have hontoRest : (s.onto tail).rest = w ++ ' ' :: r := by
    rw [Scanner.onto, hrest, List.nil_append, htail]
  rw [← hplace] at hdepth hlevel
  obtain ⟨final', hrun', hfirst, hfinal', hone⟩ := Scanner.run_seam (s := s.onto tail)
    (hlined.congr rfl rfl rfl)
    ⟨hbased.outer, fun hnil => ⟨(hbased.lead hnil).1, (hbased.lead hnil).2.1, by
      rw [Scanner.onto, hrest]; exact hcode⟩⟩
    (hcounted.congr rfl rfl rfl) hold hw hontoRest hfinal hdepth hlevel
  obtain ⟨stop, hstop, hend⟩ := Scanner.finish_seam hlined hone
  obtain ⟨more, hmore⟩ : ∃ more, final'.finish final'.pos =
      ⟨.word, ⟨s.pos, s.pos + size w⟩, w⟩ :: more := by
    obtain ⟨ends, hends⟩ := Scanner.reverse_isPrefix_finish final'.pos final'
    obtain ⟨new, hnew⟩ := hfirst
    rw [← hends, ← hnew, List.reverse_append]
    exact ⟨_, rfl⟩
  have hapart : Scanner.Apart s.upToLine final' := by
    refine .inl fun hnil => ?_
    rw [hnil] at hfirst
    simp at hfirst
  refine ⟨s.upToLine.reverse, ⟨.word, ⟨s.pos, s.pos + size w⟩, w⟩, more, stop, ?_, ?_, hplace, ?_,
    hstop, ?_, ?_⟩
  · have hfinish : final.finish final.pos =
        s.upToLine.reverse ++ (final'.finish final'.pos).map (·.later 0) := by
      rw [hfinal']
      exact Scanner.finish_behind 0 hapart final'.pos
    rw [hfinish, hmore]
    simp
  · rw [beginsFunction_iff]
    exact ⟨rfl, hw⟩
  · intro x hx hsolid
    rw [List.mem_reverse] at hx
    rcases List.mem_append.1 hx with hx | hx
    · rw [List.eq_of_mem_replicate hx] at hsolid
      cases hsolid
    · rw [← hplace]
      exact hold x hx hsolid
  · exact (lexemes_eq_ok_iff before part (tail ++ after)).2 ⟨s, hs, hplace, hend.symm⟩
  · have hstart : size (before ++ part) = s.pos := by rw [size_append, hplace]
    have hfresh : Scanner.fresh (s.onto tail).rest (s.onto tail).pos =
        .fresh tail (size (before ++ part)) := by
      rw [hstart, Scanner.onto, hrest, List.nil_append]
    rw [hfresh] at hrun'
    obtain ⟨hsound', hrest'⟩ := (Scanner.sound_fresh (before ++ part) tail after).run hrun'
    have hlexemes := (lexemes_eq_ok_iff (before ++ part) tail after).2
      ⟨final', hrun', hsound'.pos_eq hrest', hmore.symm⟩
    rw [← hplace]
    rwa [hstart] at hlexemes

end Text

end Phrasebook
