import Phrasebook.Proofs.Coverage

/-!
Lines without code at the start of a logical line.

A logical line begins where a line begins, unless a bracket or a string literal is open or a
continuation ends there (`Lexeme.BeginsLine`). A scan that comes by such a place is at a line start
(`Scanner.lineStart_of_run`), and there it passes over `Text.Codeless` lines as if they were not there
(`Scanner.run_codeless`). So lines without code that are put in move the lexemes after them and do
nothing else (`Text.lexemes_insert`).
-/
namespace Phrasebook

open Text (Stands size)

/-- A line without code: blanks, behind which there may be a comment. -/
inductive Text.Codeless : Text → Prop
  | blank {gap : Text} (hgap : ∀ c ∈ gap, Lexeme.isGap c = true) : Codeless (gap ++ ['\n'])
  | comment {gap body : Text} (hgap : ∀ c ∈ gap, Lexeme.isGap c = true) (hbody : '\n' ∉ body) :
      Codeless (gap ++ '#' :: body ++ ['\n'])

namespace Lexeme

/-- Behind `before` a logical line begins: a line begins there, no bracket and no string literal is
open, and a backslash at the end of the line before is part of a comment. -/
structure BeginsLine (before after : Text) (ls : List Lexeme) : Prop where
  line : before = [] ∨ before.EndsLine
  depth : depth (upTo (size before) ls) = 0
  outside : ∀ l ∈ ls, (∃ q, l.kind = .str q) →
    ¬ (l.span.start < size before ∧ size before < l.span.stop)
  fresh : ∀ u gap, before = u ++ ('\\' :: gap ++ ['\n']) → (∀ c ∈ gap, isGap c = true) →
    ∃ a, Comment (before ++ after) ⟨0, size (before ++ after)⟩ ls a ∧
      a.start ≤ size u ∧ size u < a.stop

variable {xs ys : List Lexeme} {p : Nat}

/-- Marks of the line structure open no bracket. -/
theorem depth_append_marks (hys : ∀ y ∈ ys, y.kind.isSolid = false) :
    depth (xs ++ ys) = depth xs := by
  induction ys using List.reverseRecOn with
  | nil => rw [List.append_nil]
  | append_singleton ys y ih =>
    have hy := hys y (by simp)
    have hop : y.kind ≠ .op := by
      intro hk
      rw [hk] at hy
      cases hy
    have hbracket (op : String) : y.isOp op = false := by
      rw [isOp, beq_eq_false_iff_ne.2 hop, Bool.false_and]
    rw [← List.append_assoc, depth_concat, depthAfter, opens, closes]
    simp only [hbracket]
    exact ih fun z hz => hys z (List.mem_append_left _ hz)

/-- The brackets that are open at a place that no lexeme straddles. -/
theorem depth_upTo (hxs : ∀ x ∈ xs, x.kind.isSolid = true → x.span.start < p)
    (hys : ∀ y ∈ ys, y.kind.isSolid = true → p ≤ y.span.start) :
    depth (upTo p (xs ++ ys)) = depth xs := by
  rw [upTo_append hxs]
  refine depth_append_marks fun y hy => ?_
  have hkept := List.mem_takeWhile_imp hy
  have hmem := (List.takeWhile_sublist _).subset hy
  cases hsolid : y.kind.isSolid with
  | false => rfl
  | true => simp [hsolid, hys y hmem hsolid] at hkept

end Lexeme

theorem Text.Akin.symm {t t' : Text} (h : Akin t t') : Akin t' t := by
  induction h with
  | refl t => exact .refl t
  | stop hd t t' => exact .stop hd t' t
  | cons c _ ih => exact .cons c ih

/-- What is read of a text that ends with a line is read of every longer one. -/
theorem Lexeme.read_extend {u text rest : Text} {kind : Kind} {beyond : Option Char}
    (h : read beyond u = .ok (kind, text, rest)) (hu : u.EndsLine) (tail : Text) :
    read beyond (u ++ tail) = .ok (kind, text, rest ++ tail) := by
  obtain ⟨rfl, -⟩ := eq_append_of_read h
  have hne : rest ≠ [] := by
    rintro rfl
    rw [List.append_nil] at hu h
    exact not_endsLine_of_read h hu
  have hrest := hu.of_suffix (List.suffix_append text rest) hne
  rw [List.append_assoc]
  exact read_append_congr h (Text.akin_append hrest.mem tail).symm

namespace Scanner

open Lexeme

variable {source after r line : Text} {ls : List Lexeme} {a : Span} {s t v : Scanner}
  {beyond : Option Char}

/-! ### A scan is never inside a comment -/

/-- What is passed over from before a comment on ends before it or goes over all of it. -/
theorem Passes.clears {u : Text} {range : Span} (h : Passes u s t) (hs : Sound source after 0 s)
    (hline : s.rest.EndsLine) (ha : Comment source range ls a)
    (hclear : s.pos ≤ a.start ∨ a.stop ≤ s.pos) : t.pos ≤ a.start ∨ a.stop ≤ t.pos := by
  have hstands := h.stands hs
  have hpos := h.pos
  obtain ⟨body, hbody, hno⟩ := ha.text
  have hsize := hbody.size_eq
  have hone : Char.utf8Size '#' = 1 := rfl
  simp only [size, hone] at hsize
  have hsign : Stands source ⟨a.start, a.start + 1⟩ ['#'] := by
    obtain ⟨x, y, hxy, rfl⟩ := hbody
    exact ⟨x, body ++ y, by simp [hxy], rfl⟩
  by_contra hnot
  rw [not_or, Nat.not_le, Nat.not_le] at hnot
  have hmem : '#' ∈ u := hstands.mem hsign (by simp only; omega) hnot.1
  have htrivia := h.trivia
  cases htrivia with
  | blanks hgap => cases hgap '#' hmem
  | lineFeed => simp at hmem
  | continuation hgap =>
    rcases List.mem_append.1 hmem with hmem | hmem
    · cases hgap '#' ((List.mem_cons.1 hmem).resolve_left (by decide))
    · simp at hmem
  | @comment body' hbody' hrest =>
    rcases hrest with hrest | ⟨r, hrest⟩
    · -- The comment that is passed would go on over the end of the line.
      have hmem := hline.mem
      rw [h.split, hrest, List.append_nil] at hmem
      exact hbody' ((List.mem_cons.1 hmem).resolve_left (by decide))
    · obtain ⟨done, hdone, hdonePos⟩ := hs.split
      have hfeed : Stands source ⟨t.pos, t.pos + 1⟩ ['\n'] := by
        refine ⟨done ++ '#' :: body', r ++ after, by simp [hdone, h.split, hrest], ?_⟩
        rw [h.pos_eq, hdonePos, Text.size_append]
        rfl
      have hmem := hbody.mem hfeed (Nat.le_of_lt hnot.1) hnot.2
      exact hno ((List.mem_cons.1 hmem).resolve_left (by decide))

/-- A lexeme lies outside comments. -/
theorem Takes.clears {l : Lexeme} {range : Span} (h : Takes l s t) (hl : l ∈ ls)
    (ha : Comment source range ls a) (hle : s.pos ≤ t.pos) : t.pos ≤ a.start ∨ a.stop ≤ t.pos := by
  have hfree := ha.free l hl h.solid
  rw [h.span] at hfree
  simp only at hfree
  omega

/-- A scan up to the end of a line reads its last token outside comments. -/
theorem exists_last_token (hs : Sound source after 0 s) (hline : s.rest.EndsLine)
    (h : s.run beyond = .ok t) (hls : ∀ l ∈ t.out, l ∈ ls)
    (hclear : ∀ a, Comment source ⟨0, size source⟩ ls a → s.pos ≤ a.start ∨ a.stop ≤ s.pos) :
    ∃ v, Sound source after 0 v ∧ v.rest.EndsLine ∧ v.token beyond = .ok t ∧ t.rest = [] ∧
      ∀ a, Comment source ⟨0, size source⟩ ls a → v.pos ≤ a.start ∨ a.stop ≤ v.pos := by
  fun_induction Scanner.run beyond s with
  | case1 s hnil =>
    rw [hnil] at hline
    cases hline
  | case2 => cases h
  | case3 s hne u hu ih =>
    obtain ⟨gap, v, hgap, hv, htoken⟩ := step_cases hu
    have hsv : Sound source after 0 v := by
      rcases hv with rfl | rfl
      · exact hs
      · exact hs.indentation
    have hvne : v.rest ≠ [] := by
      rcases hv with rfl | rfl
      · exact hne
      · rw [rest_indentation]
        exact (Text.cutWhile_append ⟨'\n', hline.mem, rfl⟩ []).2.2
    have hvline := hline.of_suffix ⟨gap, hgap.split.symm⟩ hvne
    have hvclear := fun a ha => hgap.clears hs hline ha (hclear a ha)
    have hout := (onward_of_run h).out
    by_cases hnil : u.rest = []
    · rw [run, dif_pos hnil] at h
      cases h
      exact ⟨v, hsv, hvline, htoken, hnil, hvclear⟩
    · refine ih (hs.step hu) (hvline.of_suffix (onward_of_token htoken).rest hnil) h fun a ha => ?_
      rcases token_cases htoken with ⟨w, hw⟩ | ⟨l, hl⟩
      · exact hw.clears hsv hvline ha (hvclear a ha)
      · have hmem : l ∈ u.out := by rw [hl.out]; exact List.mem_cons_self
        have hle : v.pos ≤ u.pos := by
          have hspan := (hs.step hu).placed l hmem
          have := hspan.le
          rwa [hl.span] at this
        exact hl.clears (hls l (hout.subset hmem)) ha hle

/-- The last token of a line is its line feed or a continuation. -/
theorem lineStart_of_token (hs : Sound source after 0 s) (hline : s.rest.EndsLine)
    (h : s.token beyond = .ok t) (hrest : t.rest = []) (hdepth : t.depth = 0) :
    (t.lineStart = true ∧ ∀ l ∈ t.out, l.span.stop < t.pos) ∨
      ∃ gap, (∀ c ∈ gap, isGap c = true) ∧ s.rest = '\\' :: gap ++ ['\n'] := by
  unfold token at h
  split at h
  · next hnil =>
    rw [hnil] at hline
    cases hline
  · next c r hr =>
    split at h
    · next hgap =>
      cases h
      rw [hr, show r = [] from hrest] at hline
      cases hline
      cases hgap
    · split at h
      · next hfeed =>
        cases h
        rw [hfeed]
        split
        · refine .inl ⟨rfl, fun l hl => ?_⟩
          have hpos : s.pos < (s.pass ['\n'] r).pos := by
            simp [pass, size, show Char.utf8Size '\n' = 1 from rfl]
          have hle : l.span.stop ≤ s.pos := by
            change l ∈ ((s.pass ['\n'] r).newline s.pos).out at hl
            unfold newline at hl
            split at hl
            · rcases List.mem_cons.1 hl with rfl | hl
              · exact Nat.le_refl _
              · exact hs.behind l hl
            · exact hs.behind l hl
          have hsame := newline_pos s.pos (s.pass ['\n'] r)
          change l.span.stop < ((s.pass ['\n'] r).newline s.pos).pos
          omega
        · next hopen =>
          rw [if_neg hopen] at hdepth
          exact absurd hdepth hopen
      · split at h
        · cases h
          exact absurd hrest (Text.cutWhile_append ⟨'\n', hline.mem, rfl⟩ []).2.2
        · split at h
          · next gap rest hc =>
            cases h
            obtain ⟨blanks, hblanks, rfl⟩ := continuation?_eq_some hc
            refine .inr ⟨blanks, hblanks, ?_⟩
            rw [append_of_continuation? hc, show rest = [] from hrest, List.append_nil]
          · unfold lexeme at h
            split at h
            · cases h
            · next kind text rest hread =>
              cases h
              refine absurd ?_ (not_endsLine_of_read hread)
              rwa [(eq_append_of_read hread).1, show rest = [] from hrest, List.append_nil] at hline

/-- Where a logical line begins, a scan is at the start of a line, and all lexemes end before. -/
theorem lineStart_of_run {before : Text} (hbegins : BeginsLine before after ls)
    (h : (fresh before 0).run beyond = .ok t) (hls : ∀ l ∈ t.out, l ∈ ls) (hdepth : t.depth = 0) :
    t.lineStart = true ∧ ∀ l ∈ t.out, l.span.stop < size before := by
  rcases hbegins.line with rfl | hline
  · rw [run, dif_pos (show (fresh [] 0).rest = [] from rfl)] at h
    cases h
    simp [fresh]
  · have hsound : Sound (before ++ after) after 0 (fresh before 0) := sound_fresh [] before after
    have hpos : t.pos = size before := by
      obtain ⟨ht, hnil⟩ := hsound.run h
      simpa [size] using @Sound.pos_eq [] before after t 0 ht hnil
    obtain ⟨v, hv, hvline, htoken, hnil, hclear⟩ := exists_last_token hsound hline h hls
      fun a _ => .inl (Nat.zero_le _)
    rw [← hpos]
    refine (lineStart_of_token hv hvline htoken hnil hdepth).resolve_right ?_
    rintro ⟨gap, hgap, hrest⟩
    obtain ⟨done, hdone, hdonePos⟩ := hv.split
    rw [List.append_cancel_right_eq, hrest] at hdone
    -- The backslash would have to be in a comment, but a number sign begins a comment.
    obtain ⟨a, ha, hle, hlt⟩ := hbegins.fresh done gap hdone hgap
    obtain ⟨body, hbody, -⟩ := ha.text
    have heq : a.start = size done := by
      rcases hclear a ha with hclear | hclear <;> omega
    obtain ⟨x, y, hxy, hspan⟩ := hbody
    have hx : size x = size done := by
      rw [hspan] at heq
      exact heq
    rw [hdone] at hxy
    have hsign : '\\' :: (gap ++ ['\n'] ++ after) = '#' :: (body ++ y) := by
      have hleft := congrArg (Text.dropBytes (size done)) hxy
      rw [← hx] at hleft
      simp only [List.append_assoc, Text.dropBytes_size_append] at hleft
      rw [hx, Text.dropBytes_size_append] at hleft
      simp at hleft
    cases hsign

/-! ### A scan with more text behind a line -/

theorem lexeme_extend (hs : s.rest.EndsLine) (h : s.lexeme beyond = .ok t) (tail : Text) :
    (s.onto tail).lexeme beyond = .ok (t.onto tail) := by
  unfold lexeme at h
  split at h
  · cases h
  · next kind text rest hread =>
    cases h
    have hread' : read beyond (s.onto tail).rest = .ok (kind, text, rest ++ tail) :=
      read_extend hread hs tail
    simp only [lexeme, hread']
    rfl

theorem token_extend (hs : s.rest.EndsLine) (h : s.token beyond = .ok t) (tail : Text) :
    (s.onto tail).token beyond = .ok (t.onto tail) := by
  obtain ⟨c, r, hr⟩ := List.exists_cons_of_ne_nil (List.ne_nil_of_mem hs.mem)
  have hrest : (s.onto tail).rest = s.rest ++ tail := rfl
  have hcomment := Text.cutWhile_append (f := (· != '\n')) ⟨'\n', hs.mem, rfl⟩ tail
  unfold token at h ⊢
  rw [hrest, hcomment.1, hcomment.2.1, continuation?_onto hs tail, hr]
  rw [hr] at h
  simp only [List.cons_append] at h ⊢
  split at h
  · next hgap =>
    cases h
    rw [if_pos hgap]
    rfl
  · next hgap =>
    rw [if_neg hgap]
    split at h
    · next hfeed =>
      cases h
      have hline : ((s.pass [c] r).onto tail).newline s.pos =
          ((s.pass [c] r).newline s.pos).onto tail := newline_onto s.pos _
      rw [if_pos hfeed]
      change Except.ok (if s.depth = 0 then
        { ((s.pass [c] r).onto tail).newline s.pos with lineStart := true } else
        (s.pass [c] r).onto tail) = _
      rw [hline]
      split <;> rfl
    · next hfeed =>
      rw [if_neg hfeed]
      split at h
      · next hhash =>
        cases h
        rw [if_pos hhash]
        rfl
      · next hhash =>
        rw [if_neg hhash]
        cases hc : continuation? (c :: r) with
        | some found =>
          rw [hc] at h
          cases h
          rfl
        | none =>
          rw [hc] at h
          exact lexeme_extend hs h tail

theorem step_extend (hs : s.rest.EndsLine) (h : s.step beyond = .ok t) (tail : Text) :
    (s.onto tail).step beyond = .ok (t.onto tail) := by
  have hline : (s.onto tail).lineStart = s.lineStart := rfl
  have hdepth : (s.onto tail).depth = s.depth := rfl
  unfold step at h ⊢
  rw [hline, hdepth]
  split at h
  · next hstart =>
    have hne : s.indentation.rest ≠ [] := by
      rw [rest_indentation]
      exact (Text.cutWhile_append (f := isGap) ⟨'\n', hs.mem, rfl⟩ []).2.2
    rw [if_pos hstart, indentation_onto hs]
    exact token_extend (hs.of_suffix (onward_indentation s).rest hne) h tail
  · next hstart =>
    rw [if_neg hstart]
    exact token_extend hs h tail

/-- Behind the end of a line a scan goes on from where that of the line ended. -/
theorem run_extend (hs : s.rest = [] ∨ s.rest.EndsLine) (h : s.run beyond = .ok t) (tail : Text) :
    (s.onto tail).run beyond = (t.onto tail).run beyond := by
  fun_induction Scanner.run beyond s with
  | case1 s hnil =>
    cases h
    rfl
  | case2 => cases h
  | case3 s hne u hu ih =>
    have hline := hs.resolve_left hne
    have hne' : (s.onto tail).rest ≠ [] := by simp [onto, hne]
    rw [run_of_step hne' (step_extend hline hu tail)]
    refine ih ?_ h
    by_cases hnil : u.rest = []
    · exact .inl hnil
    · exact .inr (hline.of_suffix (onward_of_step hu).rest hnil)

/-- The brackets that are open in the middle of a scan are those of the lexemes up to there. -/
theorem Counted.depth_upTo {final : Scanner} (h : Counted t) (ht : Sound source after 0 t)
    (hrun : (t.onto after).run beyond = .ok final)
    (hstream : Stream source 0 (final.finish final.pos)) :
    t.depth = Lexeme.depth (upTo t.pos (final.finish final.pos)) := by
  have hprefix := (List.reverse_prefix.2 (onward_of_run hrun).out).trans
    (reverse_isPrefix_finish final.pos final)
  change t.out.reverse <+: _ at hprefix
  obtain ⟨more, hmore⟩ := hprefix
  have hbefore := hstream.order
  rw [← hmore] at hbefore
  rw [h.depth, ← hmore]
  refine (Lexeme.depth_upTo (fun x hx hsolid => ?_) fun y hy hsolid => ?_).symm
  · have hlt := (ht.placed x (List.mem_reverse.1 hx)).lt hsolid
    have hle := ht.behind x (List.mem_reverse.1 hx)
    omega
  · have hyls : y ∈ final.finish final.pos := by
      rw [← hmore]
      exact List.mem_append_right _ hy
    have hlt := (hstream.placed y hyls).lt hsolid
    rcases (adds_of_run hrun).new y (mem_out_of_mem_finish hyls hsolid) hsolid with
      hold | ⟨hle, -⟩
    · -- A lexeme with text comes only once.
      have hself := (List.pairwise_append.1 hbefore).2.2 y (List.mem_reverse.2 hold) y hy
        (.inl hsolid)
      omega
    · exact hle

/-! ### Lines that are passed over -/

/-- At the start of a line a blank line is passed over. -/
theorem step_blankLine {gap : Text} (hl : Lined s) (hline : s.lineStart = true)
    (hgap : ∀ c ∈ gap, isGap c = true) (hrest : s.rest = gap ++ '\n' :: r) :
    s.step beyond = .ok (s.pass (gap ++ ['\n']) r) := by
  obtain ⟨hdepth, hhead⟩ := hl.fresh hline
  have hindent : s.indentation = s.pass gap ('\n' :: r) := by
    simp [indentation, hrest, List.takeWhile_append_of_pos hgap, List.dropWhile_append_of_pos hgap,
      pass, isGap]
  have hsolid : s.out.head?.any (·.kind.isSolid) = false := by
    cases hout : s.out.head? with
    | none => rfl
    | some l => exact hhead l hout
  rw [step, if_pos ⟨hline, hdepth⟩, hindent]
  simp [token, pass, newline, hdepth, hsolid, isGap, hline, Nat.add_assoc]

/-- At the start of a line a comment is passed over up to the end of its line. -/
theorem step_commentLine {gap body : Text} (hl : Lined s) (hline : s.lineStart = true)
    (hgap : ∀ c ∈ gap, isGap c = true) (hbody : '\n' ∉ body)
    (hrest : s.rest = gap ++ '#' :: body ++ '\n' :: r) :
    s.step beyond = .ok (s.pass (gap ++ '#' :: body) ('\n' :: r)) := by
  obtain ⟨hdepth, -⟩ := hl.fresh hline
  have hindent : s.indentation = s.pass gap ('#' :: body ++ '\n' :: r) := by
    simp [indentation, hrest, List.takeWhile_append_of_pos hgap, List.dropWhile_append_of_pos hgap,
      pass, isGap]
  have hcut : ∀ c ∈ '#' :: body, (c != '\n') = true := by
    intro c hc
    rw [bne_iff_ne]
    rintro rfl
    exact hbody ((List.mem_cons.1 hc).resolve_left (by decide))
  have htake : ('#' :: body ++ '\n' :: r).takeWhile (· != '\n') = '#' :: body := by
    rw [List.takeWhile_append_of_pos hcut]
    simp
  have hdrop : ('#' :: body ++ '\n' :: r).dropWhile (· != '\n') = '\n' :: r := by
    rw [List.dropWhile_append_of_pos hcut]
    simp
  rw [step, if_pos ⟨hline, hdepth⟩, hindent]
  have htoken : (s.pass gap ('#' :: body ++ '\n' :: r)).token beyond =
      .ok ((s.pass gap ('#' :: body ++ '\n' :: r)).pass
        (('#' :: body ++ '\n' :: r).takeWhile (· != '\n'))
        (('#' :: body ++ '\n' :: r).dropWhile (· != '\n'))) := rfl
  rw [htoken, htake, hdrop]
  simp [pass, Nat.add_assoc]

/-- At the start of a line a line without code is passed over. -/
theorem run_codeless (hl : Lined s) (hline : s.lineStart = true) (h : line.Codeless)
    (hrest : s.rest = line ++ r) : s.run beyond = (s.pass line r).run beyond := by
  have hne : s.rest ≠ [] := by
    rw [hrest]
    cases h <;> simp
  cases h with
  | blank hgap =>
    exact run_of_step hne (step_blankLine hl hline hgap (by simpa using hrest))
  | @comment gap body hgap hbody =>
    have hlined : Lined (s.pass (gap ++ '#' :: body) ('\n' :: r)) := hl.congr rfl rfl rfl
    have hfeed (beyond : Option Char) : (s.pass (gap ++ '#' :: body) ('\n' :: r)).step beyond =
        .ok ((s.pass (gap ++ '#' :: body) ('\n' :: r)).pass ([] ++ ['\n']) r) :=
      step_blankLine hlined hline (by simp) rfl
    have hpass : (s.pass (gap ++ '#' :: body) ('\n' :: r)).pass ([] ++ ['\n']) r =
        s.pass (gap ++ '#' :: body ++ ['\n']) r := by
      simp [pass, size, Nat.add_assoc]
    rw [run_of_step hne (step_commentLine hl hline hgap hbody (by simpa using hrest)),
      run_of_step (by simp [pass]) (hfeed beyond), hpass]

/-- The same for any number of lines, by induction on them. -/
theorem run_codelessLines {lines : List Text} (hl : Lined s) (hline : s.lineStart = true)
    (h : ∀ line ∈ lines, line.Codeless) (hrest : s.rest = lines.flatten ++ r) :
    s.run beyond = (s.pass lines.flatten r).run beyond := by
  induction lines generalizing s with
  | nil =>
    rw [List.flatten_nil, List.nil_append] at hrest
    rw [List.flatten_nil, ← hrest]
    rfl
  | cons line lines ih =>
    have hfirst : s.rest = line ++ (lines.flatten ++ r) := by simpa using hrest
    have hlined : Lined (s.pass line (lines.flatten ++ r)) := hl.congr rfl rfl rfl
    rw [run_codeless hl hline (h line List.mem_cons_self) hfirst,
      ih hlined hline (fun u hu => h u (List.mem_cons_of_mem _ hu)) rfl]
    simp [pass, Nat.add_assoc]

end Scanner

namespace Text

open Lexeme Scanner

/-- Lines without code where a logical line begins move what comes after them. The lexemes before them
do not end with one that has text. -/
theorem lexemes_insert {before after : Text} {lines : List Text} {ls : List Lexeme}
    (h : (before ++ after).lexemes ⟨0, size (before ++ after)⟩ = .ok ls)
    (hbegins : BeginsLine before after ls) (hlines : ∀ line ∈ lines, line.Codeless) :
    ∃ old new, ls = old ++ new ∧ (∀ l ∈ old, l.span.stop < size before) ∧
      (∀ l ∈ new, size before ≤ l.span.start) ∧ (∀ l ∈ old.getLast?, l.kind.isSolid = false) ∧
      (before ++ lines.flatten ++ after).lexemes ⟨0, size (before ++ lines.flatten ++ after)⟩ =
        .ok (old ++ new.map (·.later (size lines.flatten))) := by
  have hstream := stream_of_lexemes_self h
  obtain ⟨final, hrun, hpos, rfl⟩ := lexemes_self_eq_ok_iff.1 h
  have hcrossed : ¬ Crossed (fresh before 0) final.out := by
    rintro ⟨l, hl, hq, hcross⟩
    refine hbegins.outside l (mem_finish hl) hq ?_
    simpa [fresh] using hcross
  have hwhole : ((fresh before 0).onto after).run none = .ok final := hrun
  obtain ⟨t, ht, hfinal⟩ := run_onto none hbegins.line hwhole hcrossed
  have hsound : Sound (before ++ after) after 0 t := ((sound_fresh [] before after).run ht).1
  have hrest : t.rest = [] := ((sound_fresh [] before after).run ht).2
  have htpos : t.pos = size before := by
    simpa [size] using @Sound.pos_eq [] before after t 0 hsound hrest
  have hlined := (lined_fresh before 0).run ht
  have hmem : ∀ l ∈ t.out, l ∈ final.finish final.pos := fun l hl =>
    mem_finish ((onward_of_run hfinal).out.subset hl)
  have hdepth : t.depth = 0 := by
    rw [((counted_fresh before 0).run ht).depth_upTo hsound hfinal hstream, htpos]
    exact hbegins.depth
  obtain ⟨hline, hstop⟩ := lineStart_of_run hbegins ht hmem hdepth
  obtain ⟨-, hhead⟩ := hlined.fresh hline
  -- From here on both scans go on in the same way, behind the same lexemes.
  let next : Scanner := ⟨after, size before, t.depth, t.indents, true, []⟩
  have hapart : Apart t.out next := by
    refine .inr ?_
    cases hout : t.out.head? with
    | none => rfl
    | some l => exact hhead l hout
  have hold : t.onto after = next.behind 0 t.out := by
    simp [onto, behind, next, hrest, htpos, hline]
  have hnew : (t.onto (lines.flatten ++ after)).pass lines.flatten after =
      next.behind (size lines.flatten) t.out := by
    simp [onto, Scanner.pass, behind, next, htpos, hline]
  have hbehind := run_behind 0 hapart none
  rw [← hold, hfinal] at hbehind
  cases hfin : next.run none with
  | error e =>
    rw [hfin] at hbehind
    cases hbehind
  | ok fin =>
    rw [hfin] at hbehind
    cases hbehind
    have hnextSound : Sound (before ++ after) [] (size before) next :=
      ⟨⟨before, by simp [next], rfl⟩, Nat.le_refl _, by simp [next], by simp [next], by simp [next],
        by simp [next], by simp [next]⟩
    have hnextLined : Lined next := ⟨fun _ => ⟨hdepth, by simp [next]⟩, by simp [next]⟩
    have hfinApart := hapart.onward (onward_of_run hfin)
    refine ⟨t.out.reverse, fin.finish fin.pos, ?_, fun l hl => hstop l (List.mem_reverse.1 hl),
      ((hnextSound.run hfin).1.finish (hnextLined.run hfin)).from_start, ?_, ?_⟩
    · exact (finish_behind 0 hfinApart fin.pos).trans (by simp)
    · rw [List.getLast?_reverse]
      exact hhead
    · refine lexemes_self_eq_ok_iff.2 ⟨fin.behind (size lines.flatten) t.out, ?_, ?_, ?_⟩
      · have hextend := run_extend (s := fresh before 0) hbegins.line ht (lines.flatten ++ after)
        have hcode : (t.onto (lines.flatten ++ after)).run none =
            ((t.onto (lines.flatten ++ after)).pass lines.flatten after).run none :=
          run_codelessLines (hlined.congr rfl rfl rfl) hline hlines (by simp [onto, hrest])
        rw [List.append_assoc]
        refine hextend.trans (hcode.trans ?_)
        rw [hnew, run_behind _ hapart, hfin]
        rfl
      · simp only [behind, size_append] at hpos ⊢
        omega
      · exact (finish_behind _ hfinApart fin.pos).symm

end Text

end Phrasebook
