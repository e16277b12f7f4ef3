import Phrasebook.Proofs.Seams

/-!
What the lexemes of a range leave out, and how they are nested.

A step of a scan reads a lexeme or passes over `Scanner.Trivia`: blanks, a line feed, a comment or a
continuation. So every byte of a range that no lexeme covers is `Lexeme.Passed`. Each mark of the line
structure is put out where it fits (`Lexeme.Orderly`): a `newline` behind a lexeme with text, a `dedent`
where an indentation is open.
-/
namespace Phrasebook

open Text (Stands size isBoundary)

namespace Text

variable {source u : Text} {a b x : Nat}

/-- In a text of characters of one byte every byte is a character. -/
theorem Stands.byte (h : Stands source ⟨a, b⟩ u) (hu : ∀ c ∈ u, c.utf8Size = 1) (hx : a ≤ x)
    (hx' : x < b) : ∃ c ∈ u, Stands source ⟨x, x + 1⟩ [c] := by
  obtain ⟨before, after, rfl, hspan⟩ := h
  cases hspan
  induction u generalizing before with
  | nil =>
    simp only [size] at hx'
    omega
  | cons c u ih =>
    have hc := hu c List.mem_cons_self
    by_cases hfirst : x = size before
    · subst hfirst
      exact ⟨c, List.mem_cons_self, before, u ++ after, by simp, by simp [size, hc]⟩
    · have hnext : size (before ++ [c]) = size before + 1 := by simp [size, hc]
      simp only [size, hc] at hx'
      obtain ⟨d, hd, hstands⟩ := ih (fun d hd => hu d (List.mem_cons_of_mem c hd)) (before ++ [c])
        (by omega) (by omega)
      refine ⟨d, List.mem_cons_of_mem c hd, ?_⟩
      simpa using hstands

/-- What stands inside a text is a part of it. -/
theorem Stands.mem {span : Span} {c : Char} {v : Text} (h : Stands source span v)
    (hc : Stands source ⟨x, x + 1⟩ [c]) (hx : span.start ≤ x) (hx' : x < span.stop) : c ∈ v := by
  obtain ⟨before, after, rfl, rfl⟩ := h
  simp only at hx hx'
  obtain ⟨p, q, hpq, hspan⟩ := hc
  obtain ⟨hp, -⟩ := Span.mk.inj hspan
  rw [List.append_assoc, List.append_assoc, List.singleton_append] at hpq
  rcases List.append_eq_append_iff.1 hpq with ⟨v₁, rfl, hrest⟩ | ⟨v₁, rfl, hrest⟩
  · rw [size_append] at hp
    have hlt : size v₁ < size v := by omega
    rcases List.append_eq_append_iff.1 hrest with ⟨v₂, rfl, -⟩ | ⟨v₂, rfl, hv₂⟩
    · rw [size_append] at hlt
      omega
    · cases v₂ with
      | nil =>
        rw [List.append_nil] at hlt
        omega
      | cons d v₂ =>
        cases hv₂
        simp
  · have hne : v₁ = [] := by
      by_contra hne
      have := size_pos hne
      rw [size_append] at hx
      omega
    subst hne
    cases v with
    | nil =>
      simp only [size, List.append_nil] at hx'
      omega
    | cons d v =>
      cases hrest
      simp

end Text

namespace Lexeme

/-- No lexeme with text covers a byte of the span. -/
def Free (ls : List Lexeme) (a : Span) : Prop :=
  ∀ l ∈ ls, l.kind.isSolid = true → l.span.stop ≤ a.start ∨ a.stop ≤ l.span.start

/-- A comment in a range: from a number sign up to the end of the line or of the range, free of
lexemes. -/
structure Comment (source : Text) (range : Span) (ls : List Lexeme) (a : Span) : Prop where
  text : ∃ body, Stands source a ('#' :: body) ∧ '\n' ∉ body
  start_le : range.start ≤ a.start
  ends : a.stop = range.stop ∨ a.stop < range.stop ∧ Stands source ⟨a.stop, a.stop + 1⟩ ['\n']
  free : Free ls a

/-- What stands at a byte of a range that no lexeme covers. -/
inductive Passed (source : Text) (range : Span) (ls : List Lexeme) (x : Nat) : Prop
  | blank {c : Char} (h : Stands source ⟨x, x + 1⟩ [c])
      (hc : c = ' ' ∨ c = '\t' ∨ c = '\r' ∨ c = '\n')
  | comment {a : Span} (h : Comment source range ls a) (start_le : a.start ≤ x) (lt_stop : x < a.stop)
  | continuation {gap : Text} {stop : Nat} (h : Stands source ⟨x, stop⟩ ('\\' :: gap ++ ['\n']))
      (hgap : ∀ c ∈ gap, c = ' ' ∨ c = '\t' ∨ c = '\r') (stop_le : stop ≤ range.stop)

/-- A mark fits behind the lexemes `old`, latest first: a `newline` behind text, a `dedent` where an
indentation is open. -/
def Fits (l : Lexeme) (old : List Lexeme) : Prop :=
  (l.kind = .newline → ∃ a ∈ old.head?, a.kind.isSolid = true) ∧
    (l.kind = .dedent → old.countP (·.kind == .dedent) < old.countP (·.kind == .indent))

/-- Each of the lexemes, latest first, fits behind those before it. -/
def Orderly (out : List Lexeme) : Prop := ∀ l old, l :: old <:+ out → l.Fits old

theorem isGap_iff {c : Char} : isGap c = true ↔ c = ' ' ∨ c = '\t' ∨ c = '\r' := by
  simp [isGap, or_assoc]

theorem utf8Size_of_isGap {c : Char} (h : isGap c = true) : c.utf8Size = 1 := by
  rcases isGap_iff.1 h with rfl | rfl | rfl <;> rfl

variable {l : Lexeme} {out : List Lexeme}

theorem orderly_nil : Orderly [] := by
  intro l old h
  simp at h

theorem Orderly.cons (h : Orderly out) (hl : l.Fits out) : Orderly (l :: out) := by
  intro m old hm
  rcases List.suffix_cons_iff.1 hm with heq | hm
  · cases heq
    exact hl
  · exact h m old hm

theorem fits_of_kind (out : List Lexeme) (hn : l.kind ≠ .newline) (hd : l.kind ≠ .dedent) :
    l.Fits out :=
  ⟨fun h => absurd h hn, fun h => absurd h hd⟩

/-- As many indentations may be closed as are open. -/
theorem Orderly.dedents (h : Orderly out) {count : Nat} (span : Span)
    (hcount : count + out.countP (·.kind == .dedent) ≤ out.countP (·.kind == .indent)) :
    Orderly (List.replicate count ⟨.dedent, span, []⟩ ++ out) := by
  induction count with
  | zero => exact h
  | succ count ih =>
    rw [List.replicate_succ, List.cons_append]
    refine (ih (by omega)).cons ⟨fun hk => (by cases hk), fun _ => ?_⟩
    simp only [List.countP_append, List.countP_replicate]
    simp
    omega

theorem Orderly.countP_le (h : Orderly out) :
    out.countP (·.kind == .dedent) ≤ out.countP (·.kind == .indent) := by
  induction out with
  | nil => simp
  | cons l out ih =>
    have hold := ih fun m old hm => h m old (hm.trans (List.suffix_cons l out))
    have hfits := (h l out (List.suffix_refl _)).2
    simp only [List.countP_cons]
    by_cases hd : l.kind = .dedent
    · have := hfits hd
      simp [hd]
      omega
    · simp [hd]
      omega

end Lexeme

namespace Scanner

open Lexeme

variable {source after u : Text} {start stop x : Nat} {s t final : Scanner} {beyond : Option Char}

/-! ### What a step reads -/

/-- What a step may pass over, where `rest` comes after it. -/
inductive Trivia (rest : Text) : Text → Prop
  | blanks {gap : Text} (hgap : ∀ c ∈ gap, isGap c = true) : Trivia rest gap
  | lineFeed : Trivia rest ['\n']
  | comment {body : Text} (hbody : '\n' ∉ body) (hrest : rest = [] ∨ ∃ r, rest = '\n' :: r) :
      Trivia rest ('#' :: body)
  | continuation {gap : Text} (hgap : ∀ c ∈ gap, isGap c = true) :
      Trivia rest ('\\' :: gap ++ ['\n'])

/-- A scan passes over `u`. -/
structure Passes (u : Text) (s t : Scanner) : Prop extends Marks s t where
  trivia : Trivia t.rest u
  split : s.rest = u ++ t.rest
  pos_eq : t.pos = s.pos + size u

/-- A scan reads the lexeme `l`. -/
structure Takes (l : Lexeme) (s t : Scanner) : Prop where
  solid : l.kind.isSolid = true
  out : t.out = l :: s.out
  span : l.span = ⟨s.pos, t.pos⟩

theorem passes_indentation (s : Scanner) :
    Passes (s.rest.takeWhile isGap) s s.indentation where
  toMarks := marks_indentation s
  trivia := .blanks (List.all_eq_true.1 List.all_takeWhile)
  split := by rw [rest_indentation, List.takeWhile_append_dropWhile]
  pos_eq := pos_indentation s

theorem takes_of_lexeme (h : s.lexeme beyond = .ok t) : ∃ l, Takes l s t := by
  unfold lexeme at h
  split at h
  · cases h
  · next kind text rest hr =>
    cases h
    exact ⟨_, (solid_of_read hr).1, rfl, rfl⟩

theorem continuation?_eq_some {gap rest : Text} (h : continuation? u = some (gap, rest)) :
    ∃ blanks, (∀ c ∈ blanks, isGap c = true) ∧ gap = '\\' :: blanks ++ ['\n'] := by
  unfold continuation? at h
  split at h
  · next r =>
    split at h
    · cases h
      exact ⟨r.takeWhile isGap, List.all_eq_true.1 List.all_takeWhile, rfl⟩
    · cases h
  · cases h

/-- All that can be read at one place. -/
theorem token_cases (h : s.token beyond = .ok t) : (∃ u, Passes u s t) ∨ ∃ l, Takes l s t := by
  unfold token at h
  split at h
  · next hr =>
    cases h
    exact .inl ⟨[], ⟨Nat.le_refl _, fun _ hl _ => hl⟩, .blanks (by simp), rfl, rfl⟩
  · next c r hr =>
    split at h
    · next hgap =>
      cases h
      exact .inl ⟨[c], marks_pass .., .blanks (by simpa using hgap), hr, rfl⟩
    · split at h
      · next hline =>
        subst hline
        cases h
        refine .inl ⟨['\n'], ?_, .lineFeed, ?_, ?_⟩
        · split
          · have hmarks := (marks_pass ['\n'] r s).trans (marks_newline s.pos _)
            exact ⟨hmarks.pos, hmarks.solid⟩
          · exact marks_pass ..
        · split
          · exact hr.trans (congrArg ('\n' :: ·) (newline_rest s.pos (s.pass ['\n'] r)).symm)
          · exact hr
        · split
          · exact newline_pos s.pos (s.pass ['\n'] r)
          · rfl
      · split at h
        · next hhash =>
          subst hhash
          cases h
          have htake : s.rest.takeWhile (· != '\n') = '#' :: r.takeWhile (· != '\n') := by
            rw [hr]
            rfl
          refine .inl ⟨_, marks_pass .., ?_, List.takeWhile_append_dropWhile.symm, rfl⟩
          rw [htake]
          refine .comment (fun hmem => ?_) ?_
          · have hne := List.all_eq_true.1 List.all_takeWhile _ hmem
            simp at hne
          · have hstop := List.head?_dropWhile_not (· != '\n') s.rest
            simp only [pass]
            cases hd : s.rest.dropWhile (· != '\n') with
            | nil => exact .inl rfl
            | cons d v =>
              rw [hd] at hstop
              have hd : d = '\n' := by simpa using hstop
              exact .inr ⟨v, by rw [hd]⟩
        · split at h
          · next gap rest hc =>
            cases h
            obtain ⟨blanks, hblanks, rfl⟩ := continuation?_eq_some hc
            exact .inl ⟨_, marks_pass .., .continuation hblanks, append_of_continuation? hc, rfl⟩
          · exact .inr (takes_of_lexeme h)

/-- A step passes over blanks, then reads at one place. -/
theorem step_cases (h : s.step beyond = .ok t) : ∃ gap v, Passes gap s v ∧
    (v = s ∨ v = s.indentation) ∧ v.token beyond = .ok t := by
  unfold step at h
  split at h
  · exact ⟨_, _, passes_indentation s, .inr rfl, h⟩
  · exact ⟨[], s, ⟨⟨Nat.le_refl _, fun _ hl _ => hl⟩, .blanks (by simp), rfl, rfl⟩, .inl rfl, h⟩

/-! ### What is outside lexemes -/

/-- Where a scan goes on without a lexeme with text there is none in the end. -/
theorem Marks.free (h : Marks s t) (hs : Sound source after start s) (hfinal : Adds beyond t final) :
    Free (final.finish stop) ⟨s.pos, t.pos⟩ := by
  intro l hl hsolid
  rcases hfinal.new l (mem_out_of_mem_finish hl hsolid) hsolid with ht | ⟨hle, -⟩
  · exact .inl (hs.behind l (h.solid l ht hsolid))
  · exact .inr hle

theorem Passes.stands (h : Passes u s t) (hs : Sound source after start s) :
    Stands source ⟨s.pos, t.pos⟩ u := by
  obtain ⟨done, hsource, hpos⟩ := hs.split
  exact ⟨done, t.rest ++ after, by simp [hsource, h.split], by rw [h.pos_eq, hpos]⟩

/-- What a step passes over may stand outside lexemes. -/
theorem Passes.passed {ls : List Lexeme} (h : Passes u s t) (hs : Sound source after start s)
    (hplace : t.pos + size t.rest = stop) (hfree : Free ls ⟨s.pos, t.pos⟩) (hx : s.pos ≤ x)
    (hx' : x < t.pos) : Passed source ⟨start, stop⟩ ls x := by
  have hstands := h.stands hs
  have hblank (gap : Text) {a b : Nat} (hgap : ∀ c ∈ gap, isGap c = true)
      (hgapStands : Stands source ⟨a, b⟩ (gap ++ ['\n'])) (hx : a ≤ x) (hx' : x < b) :
      Passed source ⟨start, stop⟩ ls x := by
    have hbytes : ∀ c ∈ gap ++ ['\n'], c.utf8Size = 1 := by
      intro c hc
      rcases List.mem_append.1 hc with hc | hc
      · exact utf8Size_of_isGap (hgap c hc)
      · rw [List.mem_singleton.1 hc]
        rfl
    obtain ⟨c, hc, hat⟩ := hgapStands.byte hbytes hx hx'
    refine .blank hat ?_
    rcases List.mem_append.1 hc with hc | hc
    · have := isGap_iff.1 (hgap c hc)
      tauto
    · exact .inr (.inr (.inr (List.mem_singleton.1 hc)))
  have htrivia := h.trivia
  cases htrivia with
  | blanks hgap =>
    obtain ⟨c, hc, hat⟩ := hstands.byte (fun c hc => utf8Size_of_isGap (hgap c hc)) hx hx'
    have := isGap_iff.1 (hgap c hc)
    exact .blank hat (by tauto)
  | lineFeed => exact hblank [] (by simp) hstands hx hx'
  | @comment body hbody hrest =>
    refine .comment ⟨⟨_, hstands, hbody⟩, hs.started, ?_, hfree⟩ hx hx'
    rcases hrest with hrest | ⟨r, hrest⟩
    · rw [hrest, size] at hplace
      exact .inl hplace
    · rw [hrest, size] at hplace
      have hone : Char.utf8Size '\n' = 1 := rfl
      refine .inr ⟨by simp only; omega, ?_⟩
      obtain ⟨done, hdone, hpos⟩ := hs.split
      refine ⟨done ++ '#' :: body, r ++ after, ?_, ?_⟩
      · rw [hdone, h.split, hrest]
        simp
      · simp only [Text.size_append, ← hpos, ← h.pos_eq]
        rfl
  | @continuation gap hgap =>
    by_cases hfirst : x = s.pos
    · subst hfirst
      exact .continuation hstands (fun c hc => isGap_iff.1 (hgap c hc)) (by simp only; omega)
    · obtain ⟨before, rest, hsource, hspan⟩ := hstands
      have hspan := Span.mk.inj hspan
      have htail : Stands source ⟨s.pos + 1, t.pos⟩ (gap ++ ['\n']) := by
        refine ⟨before ++ ['\\'], rest, by simp [hsource], ?_⟩
        rw [hspan.1, hspan.2]
        simp only [Text.size_append, size, List.cons_append, Span.mk.injEq]
        have hone : Char.utf8Size '\\' = 1 := rfl
        omega
      exact hblank gap hgap htail (by omega) hx'

/-- Every byte left to a scan is covered by a lexeme in the end or may stand outside of them. -/
theorem Sound.passed (hs : Sound source after start s) (hrun : s.run beyond = .ok final)
    (hplace : s.pos + size s.rest = stop) (hx : s.pos ≤ x) (hx' : x < stop) :
    (∃ l ∈ final.finish stop, l.kind.isSolid = true ∧ l.span.start ≤ x ∧ x < l.span.stop) ∨
      Passed source ⟨start, stop⟩ (final.finish stop) x := by
  fun_induction Scanner.run beyond s with
  | case1 s hnil =>
    rw [hnil, size] at hplace
    omega
  | case2 => cases hrun
  | case3 s _ t ht ih =>
    have hplace' := (onward_of_step ht).place.trans hplace
    by_cases hlater : t.pos ≤ x
    · exact ih (hs.step ht) hrun hplace' hlater
    · obtain ⟨gap, v, hgap, hv, htoken⟩ := step_cases ht
      have hsv : Sound source after start v := by
        rcases hv with rfl | rfl
        · exact hs
        · exact hs.indentation
      have hfinal : Adds beyond t final := adds_of_run hrun
      have hplacev : v.pos + size v.rest = stop := by
        rw [← hplace', (onward_of_token htoken).place]
      by_cases hbefore : x < v.pos
      · exact .inr (hgap.passed hs hplacev
          (hgap.toMarks.free hs ((adds_of_token htoken).trans hfinal)) hx hbefore)
      · rcases token_cases htoken with ⟨u, hu⟩ | ⟨l, hl⟩
        · exact .inr (hu.passed hsv hplace' (hu.toMarks.free hsv hfinal) (by omega) (by omega))
        · refine .inl ⟨l, mem_finish ((onward_of_run hrun).out.subset ?_), hl.solid, ?_⟩
          · rw [hl.out]
            exact List.mem_cons_self
          · rw [hl.span]
            simp only
            omega

/-! ### Marks where they fit -/

theorem orderly_newline (h : Orderly s.out) (n : Nat) : Orderly (s.newline n).out := by
  unfold newline
  split
  · next hsolid =>
    refine h.cons ⟨fun _ => ?_, fun hk => (by cases hk)⟩
    simpa [Option.any_eq_true] using hsolid
  · exact h

theorem orderly_settle (h : Orderly s.out) (hc : Counted s) (w : Nat) (gap : Text) :
    Orderly (s.settle w gap).out := by
  have hlevel := hc.level
  unfold settle
  split
  · exact h
  · next hopen =>
    obtain ⟨-, hle, hne⟩ := unwind_spec w s.indents
    have hpos := List.length_pos_iff.2 (hne hopen)
    have hdedents : Orderly (List.replicate (s.indents.length - (unwind w s.indents).length)
        ⟨.dedent, ⟨s.pos, s.pos⟩, []⟩ ++ s.out) := h.dedents _ (by omega)
    simp only
    split
    · exact hdedents.cons (fits_of_kind _ (by simp) (by simp))
    · exact hdedents

theorem orderly_indentation (h : Orderly s.out) (hc : Counted s) : Orderly s.indentation.out := by
  have hpass : Counted (s.pass (s.rest.takeWhile isGap) (s.rest.dropWhile isGap)) :=
    hc.congr rfl rfl rfl
  unfold indentation
  simp only
  split
  · exact h
  · split
    · exact h
    · exact orderly_settle (s := s.pass _ _) h hpass _ _

theorem orderly_token (h : Orderly s.out) (ht : s.token beyond = .ok t) : Orderly t.out := by
  unfold token at ht
  split at ht
  · cases ht
    exact h
  · next c r hr =>
    split at ht
    · cases ht
      exact h
    · split at ht
      · cases ht
        split
        · exact orderly_newline (s := s.pass [c] r) h s.pos
        · exact h
      · split at ht
        · cases ht
          exact h
        · split at ht
          · cases ht
            exact h
          · obtain ⟨l, hl⟩ := takes_of_lexeme ht
            rw [hl.out]
            have hsolid := hl.solid
            refine h.cons (fits_of_kind _ ?_ ?_) <;> intro hk <;> rw [hk] at hsolid <;> cases hsolid

theorem orderly_step (h : Orderly s.out) (hc : Counted s) (ht : s.step beyond = .ok t) :
    Orderly t.out := by
  unfold step at ht
  split at ht
  · exact orderly_token (orderly_indentation h hc) ht
  · exact orderly_token h ht

theorem orderly_run (h : Orderly s.out) (hc : Counted s) (ht : s.run beyond = .ok t) :
    Orderly t.out := by
  fun_induction Scanner.run beyond s with
  | case1 s _ =>
    cases ht
    exact h
  | case2 => cases ht
  | case3 s _ u hu ih => exact ih (orderly_step h hc hu) (hc.step hu) ht

/-- A finished scan has closed every indentation, each mark where it fits. -/
theorem orderly_finish (h : Orderly s.out) (hc : Counted s) (stop : Nat) :
    Orderly (s.finish stop).reverse ∧
      (s.finish stop).countP (·.kind == .dedent) = (s.finish stop).countP (·.kind == .indent) := by
  have hlevel := (hc.newline stop).level
  rw [newline_indents] at hlevel
  have hout : (s.finish stop).reverse = ⟨.eof, ⟨stop, stop⟩, []⟩ ::
      (List.replicate (s.indents.length - 1) ⟨.dedent, ⟨stop, stop⟩, []⟩ ++
        (s.newline stop).out) := by
    simp [finish]
  constructor
  · rw [hout]
    exact ((orderly_newline h stop).dedents _ (by omega)).cons (fits_of_kind _ (by simp) (by simp))
  · rw [← List.countP_reverse, ← List.countP_reverse (l := s.finish stop), hout]
    simp only [List.countP_cons, List.countP_append, List.countP_replicate]
    simp
    omega

end Scanner

namespace Lexeme

/-- What the lexemes of a range promise: those with text are parts of the range in order, and all that
they leave out is blank, a comment or the backslash of a continuation; there is one `eof`, at the end; a
`newline` comes right behind a lexeme with text; and indentations are opened before they are closed and
are all closed. -/
structure Lossless (source : Text) (range : Span) (ls : List Lexeme) : Prop where
  stands : ∀ l ∈ ls, l.kind.isSolid = true → Stands source l.span l.text ∧
    range.start ≤ l.span.start ∧ l.span.start < l.span.stop ∧ l.span.stop ≤ range.stop
  order : (ls.filter (·.kind.isSolid)).Pairwise fun a b => a.span.stop ≤ b.span.start
  passed : ∀ x, range.start ≤ x → x < range.stop →
    (∀ l ∈ ls, l.kind.isSolid = true → ¬ (l.span.start ≤ x ∧ x < l.span.stop)) →
      Passed source range ls x
  ends : ∃ body, ls = body ++ [⟨.eof, ⟨range.stop, range.stop⟩, []⟩] ∧ ∀ l ∈ body, l.kind ≠ .eof
  newlines : ∀ old l more, ls = old ++ l :: more → l.kind = .newline →
    ∃ a ∈ old.getLast?, a.kind.isSolid = true
  nested : ∀ old, old <+: ls → old.countP (·.kind == .dedent) ≤ old.countP (·.kind == .indent)
  balanced : ls.countP (·.kind == .dedent) = ls.countP (·.kind == .indent)

variable {ls : List Lexeme}

theorem Orderly.newlines (h : Orderly ls.reverse) {old more : List Lexeme} {l : Lexeme}
    (hls : ls = old ++ l :: more) (hl : l.kind = .newline) :
    ∃ a ∈ old.getLast?, a.kind.isSolid = true := by
  have hsuffix : l :: old.reverse <:+ ls.reverse := ⟨more.reverse, by simp [hls]⟩
  have hfits := (h l old.reverse hsuffix).1 hl
  rwa [List.head?_reverse] at hfits

theorem Orderly.nested (h : Orderly ls.reverse) {old : List Lexeme} (hold : old <+: ls) :
    old.countP (·.kind == .dedent) ≤ old.countP (·.kind == .indent) := by
  have hreverse : Orderly old.reverse := fun l ms hm =>
    h l ms (hm.trans (List.reverse_suffix.2 hold))
  simpa using hreverse.countP_le

end Lexeme

namespace Text

open Lexeme

variable {source : Text} {range : Span} {ls : List Lexeme}

theorem lossless_of_part (before part after : Text)
    (h : (before ++ part ++ after).lexemes ⟨size before, size before + size part⟩ = .ok ls) :
    Lossless (before ++ part ++ after) ⟨size before, size before + size part⟩ ls := by
  have hstream := stream_of_lexemes before part after h
  obtain ⟨s, hrun, hpos, rfl⟩ := (lexemes_eq_ok_iff before part after).1 h
  obtain ⟨hsound, -⟩ := (Scanner.sound_fresh before part after).run hrun
  have hcounted := (Scanner.counted_fresh part (size before)).run hrun
  obtain ⟨horderly, hbalanced⟩ := Scanner.orderly_finish
    (Scanner.orderly_run orderly_nil (Scanner.counted_fresh part (size before)) hrun) hcounted s.pos
  refine ⟨fun l hl hsolid => ?_, ?_, fun x hx hx' hfree => ?_, ?_, fun _ _ _ => horderly.newlines,
    fun _ => horderly.nested, hbalanced⟩
  · have hplaced := hstream.placed l hl
    refine ⟨(hplaced.stands hsolid).1, hstream.from_start l hl, hplaced.lt hsolid, ?_⟩
    rw [← hpos]
    exact hsound.behind l (Scanner.mem_out_of_mem_finish hl hsolid)
  · rw [List.pairwise_filter]
    exact hstream.order.imp fun hbefore ha _ => hbefore (.inl ha)
  · rw [← hpos] at hx' ⊢
    refine ((Scanner.sound_fresh before part after).passed hrun hpos.symm hx hx').resolve_left ?_
    rintro ⟨l, hl, hsolid, hcover⟩
    exact hfree l hl hsolid hcover
  · obtain ⟨body, stop, hbody, hopen⟩ := hstream.ends
    have hlast : (⟨.eof, ⟨stop, stop⟩, []⟩ : Lexeme) = ⟨.eof, ⟨s.pos, s.pos⟩, []⟩ := by
      have := congrArg List.getLast? hbody
      simpa [Scanner.finish] using this.symm
    rw [hlast] at hbody
    exact ⟨body, by rw [hbody, hpos], hopen⟩

/-- A range that is given backwards is empty. -/
theorem lexemes_backward (h : range.stop < range.start) (hstop : range.stop ≤ size source) :
    source.lexemes range = .ok [⟨.eof, ⟨range.stop, range.stop⟩, []⟩] := by
  have hempty : source.slice range.start range.stop = [] := by
    rw [slice, Nat.sub_eq_zero_of_le (Nat.le_of_lt h), takeBytes_zero]
  unfold lexemes
  simp only [Nat.min_eq_left hstop, hempty]
  rw [Scanner.run, dif_pos rfl]
  rfl

/-- The lexemes of a range between characters lose nothing of it, and their marks are balanced whatever
the indentations are. -/
theorem lossless_of_lexemes (hstart : isBoundary range.start source = true)
    (hstop : isBoundary range.stop source = true) (h : source.lexemes range = .ok ls) :
    Lossless source range ls := by
  rcases Nat.lt_or_ge range.stop range.start with hback | hle
  · obtain ⟨a, b, hab, ha⟩ := isBoundary_iff.1 hstop
    have hin : range.stop ≤ size source := by
      rw [hab, size_append]
      omega
    rw [lexemes_backward hback hin] at h
    cases h
    have horderly : Orderly [⟨.eof, ⟨range.stop, range.stop⟩, []⟩].reverse :=
      orderly_nil.cons (fits_of_kind _ (by simp) (by simp))
    exact ⟨by simp [Kind.isSolid], by simp [Kind.isSolid], fun x hx hx' => by omega,
      ⟨[], rfl, by simp⟩, fun _ _ _ => horderly.newlines, fun _ => horderly.nested, rfl⟩
  · obtain ⟨before, after, hsource, hspan⟩ := stands_slice hstart hstop hle
    generalize source.slice range.start range.stop = part at hsource hspan
    obtain rfl : range = ⟨size before, size before + size part⟩ := hspan
    rw [hsource] at h ⊢
    exact lossless_of_part before part after h

/-- A range behind its first character, with a continuation, a comment and a line between two
indentations. -/
theorem lossless_of_lexemes_misaligned : ∃ ls,
    (of "é if a:\n    b \\\n c # é\n  d").lexemes ⟨3, 28⟩ = .ok ls ∧
      Lossless (of "é if a:\n    b \\\n c # é\n  d") ⟨3, 28⟩ ls := by
  have hok : ((of "é if a:\n    b \\\n c # é\n  d").lexemes ⟨3, 28⟩).toBool = true := by
    decide +kernel
  cases h : (of "é if a:\n    b \\\n c # é\n  d").lexemes ⟨3, 28⟩ with
  | error e =>
    rw [h] at hok
    cases hok
  | ok ls => exact ⟨ls, rfl, lossless_of_lexemes (by decide +kernel) (by decide +kernel) h⟩

end Text

end Phrasebook
