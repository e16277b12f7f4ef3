import Mathlib.Data.List.Chain
import Phrasebook.Lexeme.Scan
import Phrasebook.Proofs.Standing

/-!
The lexemes of a text in their places.

A scan keeps `Scanner.Sound`: what it has read and what is left make up the text, every lexeme with
text stands where its span says, and lexemes come in the order of the text. It keeps `Scanner.Lined`
too: an indentation opens at the start of a line only. So the lexemes of a range are a
`Lexeme.Stream` of it.
-/
namespace Phrasebook

open Text (Stands size)

namespace Lexeme

/-- One lexeme before another. Marks of the line structure may share a place among themselves. -/
def Before (a b : Lexeme) : Prop :=
  a.kind.isSolid = true ∨ b.kind.isSolid = true → a.span.stop ≤ b.span.start

/-- A lexeme in its place: its text stands there, if it has one, and a string is quoted. -/
structure Placed (source : Text) (l : Lexeme) : Prop where
  le : l.span.start ≤ l.span.stop
  stop_le : l.span.stop ≤ size source
  stands : l.kind.isSolid = true → Stands source l.span l.text ∧ l.text ≠ []
  quoted : ∀ q, l.kind = .str q → ∃ content, l.text = q.wrap content

/-- What may follow a lexeme: an indentation does not open within a line. -/
def Next (a b : Lexeme) : Prop := a.kind.isSolid = true → b.kind ≠ .indent

/-- The lexemes of a text from byte `start` on, ended by `eof`. -/
structure Stream (source : Text) (start : Nat) (ls : List Lexeme) : Prop where
  placed : ∀ l ∈ ls, l.Placed source
  from_start : ∀ l ∈ ls, start ≤ l.span.start
  order : ls.Pairwise Before
  lined : ls.IsChain Next
  ends : ∃ body stop, ls = body ++ [⟨.eof, ⟨stop, stop⟩, []⟩] ∧ ∀ l ∈ body, l.kind ≠ .eof

theorem placed_mark {source : Text} {kind : Kind} {n : Nat} (hk : kind.isSolid = false)
    (hn : n ≤ size source) : Placed source ⟨kind, ⟨n, n⟩, []⟩ where
  le := Nat.le_refl _
  stop_le := hn
  stands := by simp [hk]
  quoted := by
    rintro q rfl
    simp [Kind.isSolid] at hk

theorem Placed.lt {source : Text} {l : Lexeme} (h : l.Placed source)
    (hs : l.kind.isSolid = true) : l.span.start < l.span.stop :=
  (h.stands hs).1.lt_iff.2 (h.stands hs).2

theorem quoted_of_readString {sigil t text rest : Text} {kind : Kind}
    (h : readString sigil t = .ok (kind, text, rest)) :
    ∃ q content, kind = .str q ∧ text = q.wrap content := by
  simp only [readString] at h
  split at h
  · cases h
    exact ⟨_, _, rfl, rfl⟩
  · cases h

/-- What is read carries text, and a string is quoted. -/
theorem solid_of_read {beyond : Option Char} {t text rest : Text} {kind : Kind}
    (h : read beyond t = .ok (kind, text, rest)) :
    kind.isSolid = true ∧ ∀ q, kind = .str q → ∃ content, text = q.wrap content := by
  have hstring {sigil t' : Text} (h : readString sigil t' = .ok (kind, text, rest)) :
      kind.isSolid = true ∧ ∀ q, kind = .str q → ∃ content, text = q.wrap content := by
    obtain ⟨q, content, rfl, rfl⟩ := quoted_of_readString h
    refine ⟨rfl, fun q' hq => ?_⟩
    cases hq
    exact ⟨content, rfl⟩
  cases t with
  | nil => simp [read] at h
  | cons c r =>
    simp only [read] at h
    split at h
    · exact hstring h
    · split at h
      · exact hstring h
      · split at h
        · cases h
          exact ⟨rfl, by simp⟩
        · split at h
          · cases h
            exact ⟨rfl, by simp⟩
          · unfold readOperator at h
            split at h
            · cases h
              exact ⟨rfl, by simp⟩
            · cases h

end Lexeme

namespace Scanner

open Lexeme

variable {source after : Text} {s t : Scanner} {beyond : Option Char}

/-! The end of a line changes the lexemes only. -/

@[simp] theorem newline_rest (n : Nat) (s : Scanner) : (s.newline n).rest = s.rest := by
  unfold newline
  split <;> rfl

@[simp] theorem newline_pos (n : Nat) (s : Scanner) : (s.newline n).pos = s.pos := by
  unfold newline
  split <;> rfl

@[simp] theorem newline_depth (n : Nat) (s : Scanner) : (s.newline n).depth = s.depth := by
  unfold newline
  split <;> rfl

@[simp] theorem newline_indents (n : Nat) (s : Scanner) : (s.newline n).indents = s.indents := by
  unfold newline
  split <;> rfl

/-- The state of a scan of `source` that stops before `after` and began at byte `start`. -/
structure Sound (source after : Text) (start : Nat) (s : Scanner) : Prop where
  split : ∃ done, source = done ++ s.rest ++ after ∧ s.pos = size done
  started : start ≤ s.pos
  placed : ∀ l ∈ s.out, l.Placed source
  from_start : ∀ l ∈ s.out, start ≤ l.span.start
  order : s.out.Pairwise fun b a => a.Before b
  behind : ∀ l ∈ s.out, l.span.stop ≤ s.pos
  open_ended : ∀ l ∈ s.out, l.kind ≠ .eof

variable {start : Nat}

theorem Sound.pos_le (h : Sound source after start s) : s.pos ≤ size source := by
  obtain ⟨done, rfl, hpos⟩ := h.split
  simp only [hpos, Text.size_append]
  omega

theorem Sound.pass (h : Sound source after start s) {gap rest : Text} (hr : s.rest = gap ++ rest) :
    Sound source after start (s.pass gap rest) where
  split := by
    obtain ⟨done, hsource, hpos⟩ := h.split
    exact ⟨done ++ gap, by simp [Scanner.pass, hsource, hr], by simp [Scanner.pass, hpos]⟩
  started := Nat.le_trans h.started (Nat.le_add_right _ _)
  placed := h.placed
  from_start := h.from_start
  order := h.order
  behind := fun l hl => Nat.le_trans (h.behind l hl) (Nat.le_add_right _ _)
  open_ended := h.open_ended

/-- Adding a lexeme that lies behind the place reached. -/
theorem Sound.push {l : Lexeme} (h : Sound source after start s) (hl : l.Placed source)
    (hstart : start ≤ l.span.start) (hbefore : ∀ a ∈ s.out, a.Before l)
    (hbehind : l.span.stop ≤ s.pos) (heof : l.kind ≠ .eof) :
    Sound source after start { s with out := l :: s.out } where
  split := h.split
  started := h.started
  placed := List.forall_mem_cons.2 ⟨hl, h.placed⟩
  from_start := List.forall_mem_cons.2 ⟨hstart, h.from_start⟩
  order := List.pairwise_cons.2 ⟨hbefore, h.order⟩
  behind := List.forall_mem_cons.2 ⟨hbehind, h.behind⟩
  open_ended := List.forall_mem_cons.2 ⟨heof, h.open_ended⟩

/-- The line structure and the brackets have no part in `Sound`. -/
theorem Sound.congr (h : Sound source after start s) (hrest : t.rest = s.rest)
    (hpos : t.pos = s.pos) (hout : t.out = s.out) : Sound source after start t := by
  obtain ⟨rest, pos, depth, indents, lineStart, out⟩ := t
  cases hrest
  cases hpos
  cases hout
  exact ⟨h.split, h.started, h.placed, h.from_start, h.order, h.behind, h.open_ended⟩

theorem Sound.mark {k : Kind} {n : Nat} (h : Sound source after start s)
    (hk : k.isSolid = false) (heof : k ≠ .eof) (hn : n ≤ s.pos) (hstart : start ≤ n)
    (hout : ∀ l ∈ s.out, l.span.stop ≤ n) : Sound source after start (s.mark k n) :=
  h.push (placed_mark hk (Nat.le_trans hn h.pos_le)) hstart (fun a ha _ => hout a ha) hn heof

theorem Sound.newline {n : Nat} (h : Sound source after start s) (hn : n ≤ s.pos)
    (hstart : start ≤ n) (hout : ∀ l ∈ s.out, l.span.stop ≤ n) :
    Sound source after start (s.newline n) := by
  unfold Scanner.newline
  split
  · exact h.mark rfl (by simp) hn hstart hout
  · exact h

theorem Sound.dedents (h : Sound source after start s) (count : Nat) :
    Sound source after start
      { s with out := List.replicate count ⟨.dedent, ⟨s.pos, s.pos⟩, []⟩ ++ s.out } := by
  induction count with
  | zero => exact h.congr rfl rfl rfl
  | succ count ih =>
    have := ih.mark (k := .dedent) rfl (by simp) (Nat.le_refl s.pos) h.started ih.behind
    exact this.congr rfl rfl (by simp [Scanner.mark, List.replicate_succ])

theorem Sound.settle {gap : Text} {w : Nat} (h : Sound source after start s)
    (hstart : start + size gap ≤ s.pos)
    (hgap : ∀ l ∈ s.out, l.span.stop ≤ s.pos - size gap) :
    Sound source after start (s.settle w gap) := by
  unfold Scanner.settle
  split
  · exact h.congr rfl rfl rfl
  · have hd := h.dedents (s.indents.length - (unwind w s.indents).length)
    simp only
    split
    · refine Sound.congr (hd.push (l := ⟨.indent, ⟨s.pos - size gap, s.pos⟩, gap⟩) ?_ ?_ ?_ ?_ ?_)
        rfl rfl rfl
      · exact ⟨Nat.sub_le _ _, h.pos_le, by simp [Kind.isSolid], by simp⟩
      · simp only
        omega
      · -- Only the lexemes before the line carry text; the marks just made carry none.
        intro a ha hsolid
        rcases List.mem_append.1 ha with ha | ha
        · rw [List.eq_of_mem_replicate ha] at hsolid
          simp [Kind.isSolid] at hsolid
        · exact hgap a ha
      · exact Nat.le_refl _
      · simp
    · exact hd.congr rfl rfl rfl

theorem Sound.indentation (h : Sound source after start s) :
    Sound source after start s.indentation := by
  have hcut : s.rest = s.rest.takeWhile isGap ++ s.rest.dropWhile isGap :=
    List.takeWhile_append_dropWhile.symm
  have hp := h.pass hcut
  unfold Scanner.indentation
  simp only
  split
  · exact hp
  · split
    · exact hp
    · refine hp.settle ?_ ?_
      · have := h.started
        simp only [Scanner.pass]
        omega
      · intro l hl
        have := h.behind l hl
        simp only [Scanner.pass]
        omega

theorem Sound.lexeme (h : Sound source after start s) (ht : s.lexeme beyond = .ok t) :
    Sound source after start t := by
  simp only [Scanner.lexeme] at ht
  split at ht
  · cases ht
  · next kind text rest hr =>
    cases ht
    obtain ⟨hrest, hne⟩ := eq_append_of_read hr
    obtain ⟨hsolid, hquoted⟩ := solid_of_read hr
    have hp := h.pass hrest
    obtain ⟨done, hsource, hpos⟩ := h.split
    have hst : Stands source ⟨s.pos, s.pos + size text⟩ text :=
      ⟨done, rest ++ after, by simp [hsource, hrest], by simp [hpos]⟩
    refine Sound.congr (hp.push (l := ⟨kind, ⟨s.pos, s.pos + size text⟩, text⟩) ?_ h.started ?_ ?_ ?_)
      rfl rfl rfl
    · exact ⟨Nat.le_add_right _ _, hst.stop_le, fun _ => ⟨hst, hne⟩, hquoted⟩
    · exact fun a ha _ => h.behind a ha
    · exact Nat.le_refl _
    · rintro rfl
      simp [Kind.isSolid] at hsolid

theorem append_of_continuation? {t gap rest : Text} (h : continuation? t = some (gap, rest)) :
    t = gap ++ rest := by
  unfold continuation? at h
  split at h
  · next r =>
    split at h
    · next rest' hr =>
      cases h
      have := List.takeWhile_append_dropWhile (p := isGap) (l := r)
      rw [hr] at this
      simp [this]
    · cases h
  · cases h

theorem Sound.token (h : Sound source after start s) (ht : s.token beyond = .ok t) :
    Sound source after start t := by
  unfold Scanner.token at ht
  split at ht
  · cases ht
    exact h
  · next c r hr =>
    have hcut : s.rest = [c] ++ r := hr
    have hp := h.pass hcut
    split at ht
    · cases ht
      exact hp
    · split at ht
      · cases ht
        split
        · exact (hp.newline (Nat.le_add_right _ _) h.started h.behind).congr rfl rfl rfl
        · exact hp
      · split at ht
        · cases ht
          exact h.pass (List.takeWhile_append_dropWhile ..).symm
        · split at ht
          · next gap rest hc =>
            cases ht
            exact h.pass (append_of_continuation? hc)
          · exact h.lexeme ht

theorem Sound.step (h : Sound source after start s) (ht : s.step beyond = .ok t) :
    Sound source after start t := by
  unfold Scanner.step at ht
  split at ht
  · exact h.indentation.token ht
  · exact h.token ht

theorem Sound.run (h : Sound source after start s) (ht : s.run beyond = .ok t) :
    Sound source after start t ∧ t.rest = [] := by
  fun_induction Scanner.run beyond s with
  | case1 s hs =>
    cases ht
    exact ⟨h, hs⟩
  | case2 => cases ht
  | case3 s _ u hu ih => exact ih (h.step hu) ht

/-- At the start of a line no bracket is open and no text was read on it; indentations open only
there. -/
structure Lined (s : Scanner) : Prop where
  fresh : s.lineStart = true → s.depth = 0 ∧ ∀ l ∈ s.out.head?, l.kind.isSolid = false
  marked : s.out.IsChain fun b a => a.Next b

theorem Lined.congr (h : Lined s) (hline : t.lineStart = s.lineStart) (hdepth : t.depth = s.depth)
    (hout : t.out = s.out) : Lined t :=
  ⟨by rw [hline, hdepth, hout]; exact h.fresh, by rw [hout]; exact h.marked⟩

/-- Any mark but `indent` may follow any lexeme. -/
theorem marked_replicate {k : Kind} {n : Nat} (hk : k ≠ .indent)
    (h : s.out.IsChain fun b a => a.Next b) (count : Nat) :
    (List.replicate count (⟨k, ⟨n, n⟩, []⟩ : Lexeme) ++ s.out).IsChain fun b a => a.Next b := by
  induction count with
  | zero => exact h
  | succ count ih =>
    rw [List.replicate_succ, List.cons_append]
    exact List.isChain_cons.2 ⟨fun y _ _ => hk, ih⟩

theorem Lined.newline {n : Nat} (h : Lined s) :
    (s.newline n).out.IsChain (fun b a => a.Next b) ∧
      ∀ l ∈ (s.newline n).out.head?, l.kind.isSolid = false := by
  unfold Scanner.newline
  split
  · exact ⟨marked_replicate (k := .newline) (by simp) h.marked 1, by simp [Scanner.mark, Kind.isSolid]⟩
  · next hhead =>
    refine ⟨h.marked, fun l hl => ?_⟩
    rw [Option.mem_def] at hl
    simpa [hl] using hhead

theorem Lined.settle {gap : Text} {w : Nat} (h : Lined s) (hs : s.lineStart = true) :
    Lined (s.settle w gap) ∧ (s.settle w gap).lineStart = false := by
  have hhead := (h.fresh hs).2
  unfold Scanner.settle
  split
  · exact ⟨⟨by simp, h.marked⟩, rfl⟩
  · have hd := marked_replicate (k := .dedent) (n := s.pos) (by simp) h.marked
      (s.indents.length - (unwind w s.indents).length)
    simp only
    split
    · refine ⟨⟨by simp, List.isChain_cons.2 ⟨fun y hy hsolid => ?_, hd⟩⟩, rfl⟩
      -- Before the indentation there are the marks just made, or what ended the line before.
      cases hcount : s.indents.length - (unwind w s.indents).length with
      | zero =>
        rw [hcount] at hy
        rw [hhead y (by simpa using hy)] at hsolid
        cases hsolid
      | succ count =>
        rw [hcount, List.replicate_succ] at hy
        cases hy
        cases hsolid
    · exact ⟨⟨by simp, hd⟩, rfl⟩

theorem Lined.indentation (h : Lined s) (hs : s.lineStart = true) : Lined s.indentation ∧
    (s.indentation.lineStart = false ∨ ∀ c ∈ s.indentation.rest.head?, c = '\n' ∨ c = '#') := by
  have hp : Lined (s.pass (s.rest.takeWhile isGap) (s.rest.dropWhile isGap)) := h.congr rfl rfl rfl
  unfold Scanner.indentation
  simp only
  split
  · next hr => exact ⟨hp, .inr (by simp [hr])⟩
  · next c r hr =>
    split
    · next hc => exact ⟨hp, .inr (by simpa [hr] using hc)⟩
    · obtain ⟨hsettle, hline⟩ :=
        @Lined.settle _ (s.rest.takeWhile isGap) (width (s.rest.takeWhile isGap)) hp hs
      exact ⟨hsettle, .inl hline⟩

theorem Lined.lexeme (h : Lined s) (hs : s.lineStart = false) (ht : s.lexeme beyond = .ok t) :
    Lined t := by
  simp only [Scanner.lexeme] at ht
  split at ht
  · cases ht
  · next kind text rest hr =>
    cases ht
    obtain ⟨hsolid, -⟩ := solid_of_read hr
    refine ⟨by simp [Scanner.pass, hs], List.isChain_cons.2 ⟨fun y _ _ => ?_, h.marked⟩⟩
    rintro rfl
    cases hsolid

theorem Lined.token (h : Lined s)
    (hs : s.lineStart = false ∨ ∀ c ∈ s.rest.head?, c = '\n' ∨ c = '#')
    (ht : s.token beyond = .ok t) : Lined t := by
  unfold Scanner.token at ht
  split at ht
  · cases ht
    exact h
  · next c r hr =>
    split at ht
    · cases ht
      exact h.congr rfl rfl rfl
    · split at ht
      · cases ht
        split
        · next hdepth =>
          have hp : Lined (s.pass [c] r) := h.congr rfl rfl rfl
          obtain ⟨hmarked, hhead⟩ := hp.newline (n := s.pos)
          exact ⟨fun _ => ⟨(newline_depth ..).trans hdepth, hhead⟩, hmarked⟩
        · exact h.congr rfl rfl rfl
      · next hnewline =>
        split at ht
        · cases ht
          exact h.congr rfl rfl rfl
        · next hcomment =>
          split at ht
          · cases ht
            exact h.congr rfl rfl rfl
          · refine h.lexeme (hs.resolve_right fun hc => ?_) ht
            exact (hc c (by simp [hr])).elim hnewline hcomment

theorem Lined.step (h : Lined s) (ht : s.step beyond = .ok t) : Lined t := by
  unfold Scanner.step at ht
  split at ht
  · next hline =>
    obtain ⟨hindent, hs⟩ := h.indentation hline.1
    exact hindent.token hs ht
  · next hline =>
    refine h.token (.inl ?_) ht
    by_contra hs
    rw [Bool.not_eq_false] at hs
    exact hline ⟨hs, (h.fresh hs).1⟩

theorem Lined.run (h : Lined s) (ht : s.run beyond = .ok t) : Lined t := by
  fun_induction Scanner.run beyond s with
  | case1 s hs =>
    cases ht
    exact h
  | case2 => cases ht
  | case3 s _ u hu ih => exact ih (h.step hu) ht

/-- A finished scan gives a stream. -/
theorem Sound.finish (h : Sound source after start s) (hl : Lined s) :
    Stream source start (s.finish s.pos) := by
  have hn := h.newline (n := s.pos) (Nat.le_refl _) h.started h.behind
  have hpos := newline_pos s.pos s
  have hd := hn.dedents ((s.newline s.pos).indents.length - 1)
  have hout : s.finish s.pos =
      (List.replicate ((s.newline s.pos).indents.length - 1)
        (⟨.dedent, ⟨s.pos, s.pos⟩, []⟩ : Lexeme) ++ (s.newline s.pos).out).reverse ++
        [⟨.eof, ⟨s.pos, s.pos⟩, []⟩] := by
    simp [Scanner.finish]
  rw [hpos] at hd
  rw [hout]
  refine ⟨?_, ?_, ?_, ?_, ?_⟩
  · intro l hl
    rcases List.mem_append.1 hl with hl | hl
    · exact hd.placed l (List.mem_reverse.1 hl)
    · rw [List.mem_singleton.1 hl]
      exact placed_mark rfl h.pos_le
  · intro l hl
    rcases List.mem_append.1 hl with hl | hl
    · exact hd.from_start l (List.mem_reverse.1 hl)
    · rw [List.mem_singleton.1 hl]
      exact h.started
  · refine List.pairwise_append.2 ⟨List.pairwise_reverse.2 hd.order, List.pairwise_singleton _ _, ?_⟩
    intro a ha b hb _
    rw [List.mem_singleton.1 hb]
    exact hd.behind a (List.mem_reverse.1 ha)
  · have hmarked := marked_replicate (k := .dedent) (n := s.pos) (by simp)
      (hl.newline (n := s.pos)).1 ((s.newline s.pos).indents.length - 1)
    rw [List.isChain_append, List.isChain_reverse]
    refine ⟨hmarked, List.isChain_singleton _, ?_⟩
    rintro a - b ⟨⟩ -
    simp
  · exact ⟨_, s.pos, rfl, fun l hl => hd.open_ended l (List.mem_reverse.1 hl)⟩

end Scanner

namespace Scanner

/-- A scan that has read nothing. -/
def fresh (rest : Text) (pos : Nat) : Scanner :=
  { rest, pos, depth := 0, indents := [], lineStart := true, out := [] }

variable {before part after : Text} {s : Scanner}

theorem sound_fresh (before part after : Text) :
    Sound (before ++ part ++ after) after (size before) (fresh part (size before)) :=
  ⟨⟨before, rfl, rfl⟩, Nat.le_refl _, by simp [fresh], by simp [fresh], by simp [fresh],
    by simp [fresh], by simp [fresh]⟩

theorem lined_fresh (rest : Text) (pos : Nat) : Lined (fresh rest pos) :=
  ⟨by simp [fresh], by simp [fresh]⟩

/-- A scan with nothing left has come to the end of its part. -/
theorem Sound.pos_eq {start : Nat} (h : Sound (before ++ part ++ after) after start s)
    (hrest : s.rest = []) : s.pos = size before + size part := by
  obtain ⟨done, hdone, hpos⟩ := h.split
  rw [hrest, List.append_nil] at hdone
  have := congrArg size hdone
  simp only [Text.size_append] at this
  omega

end Scanner

namespace Text

open Lexeme

/-- The lexemes of a part of a text come from a scan of the part. -/
theorem lexemes_eq (before part after : Text) :
    (before ++ part ++ after).lexemes ⟨size before, size before + size part⟩ =
      ((Scanner.fresh part (size before)).run after.head?).map
        (·.finish (size before + size part)) := by
  have hstop : min (size before + size part) (size (before ++ part ++ after)) =
      size before + size part := by
    simp only [size_append]
    omega
  have hafter : (before ++ part ++ after).dropBytes (size before + size part) = after := by
    have := dropBytes_size_append (before ++ part) after
    rwa [size_append] at this
  have hslice := (stands_append before part after).slice_eq
  simp only at hslice
  unfold lexemes
  simp only [hstop, hslice, hafter, Scanner.fresh]
  cases Scanner.run after.head?
    { rest := part, pos := size before, depth := 0, indents := [], lineStart := true, out := [] } <;>
    rfl

/-- The scan behind the lexemes of a part of a text. -/
theorem lexemes_eq_ok_iff (before part after : Text) {ls : List Lexeme} :
    (before ++ part ++ after).lexemes ⟨size before, size before + size part⟩ = .ok ls ↔
      ∃ s, (Scanner.fresh part (size before)).run after.head? = .ok s ∧
        s.pos = size before + size part ∧ ls = s.finish s.pos := by
  rw [lexemes_eq]
  constructor
  · intro h
    cases hs : (Scanner.fresh part (size before)).run after.head? with
    | error e => simp [hs, Except.map] at h
    | ok s =>
      have hrun := (Scanner.sound_fresh before part after).run hs
      have hpos := hrun.1.pos_eq hrun.2
      simp only [hs, Except.map, Except.ok.injEq] at h
      exact ⟨s, rfl, hpos, by rw [hpos, h]⟩
  · rintro ⟨s, hs, hpos, rfl⟩
    rw [hs, hpos]
    rfl

/-- The lexemes of a part of a text are a stream of it. -/
theorem stream_of_lexemes (before part after : Text) {ls : List Lexeme}
    (h : (before ++ part ++ after).lexemes ⟨size before, size before + size part⟩ = .ok ls) :
    Stream (before ++ part ++ after) (size before) ls := by
  obtain ⟨s, hs, -, rfl⟩ := (lexemes_eq_ok_iff before part after).1 h
  exact ((Scanner.sound_fresh before part after).run hs).1.finish
    ((Scanner.lined_fresh part (size before)).run hs)

/-- The scan behind the lexemes of a whole text. -/
theorem lexemes_self_eq_ok_iff {source : Text} {ls : List Lexeme} :
    source.lexemes ⟨0, size source⟩ = .ok ls ↔
      ∃ s, (Scanner.fresh source 0).run none = .ok s ∧ s.pos = size source ∧
        ls = s.finish s.pos := by
  simpa [size] using @lexemes_eq_ok_iff [] source [] ls

/-- The lexemes of a whole text are a stream of it. -/
theorem stream_of_lexemes_self {source : Text} {ls : List Lexeme}
    (h : source.lexemes ⟨0, size source⟩ = .ok ls) : Stream source 0 ls := by
  have hpart : ([] ++ source ++ [] : Text).lexemes ⟨size [], size [] + size source⟩ = .ok ls := by
    simpa [size] using h
  have := stream_of_lexemes [] source [] hpart
  simpa [size] using this

end Text

end Phrasebook
