import Phrasebook.Proofs.Recast

/-!
Scanning a text in which some string literals have another content.

Two scans that go over texts related by `Text.Recast` stay `Scanner.Abreast`: a step of the first is
answered by a step of the second (`Scanner.Abreast.step`), so a run by a run, and the lexemes of the
second text are those of the first in their new places (`Text.Recast.lexemes`).
-/
namespace Phrasebook

open Text (size)

namespace Scanner

open Lexeme

section Adds

variable {beyond : Option Char} {s t u : Scanner}

/-- A scan has gone on without a lexeme with text. -/
structure Marks (s t : Scanner) : Prop where
  pos : s.pos ≤ t.pos
  solid : ∀ l ∈ t.out, l.kind.isSolid = true → l ∈ s.out

theorem Marks.trans (h : Marks s t) (h' : Marks t u) : Marks s u :=
  ⟨Nat.le_trans h.pos h'.pos, fun l hl hsolid => h.solid l (h'.solid l hl hsolid) hsolid⟩

theorem marks_pass (gap rest : Text) (s : Scanner) : Marks s (s.pass gap rest) :=
  ⟨Nat.le_add_right _ _, fun _ hl _ => hl⟩

theorem marks_newline (n : Nat) (s : Scanner) : Marks s (s.newline n) := by
  unfold Scanner.newline
  split
  · refine ⟨Nat.le_refl _, List.forall_mem_cons.2 ⟨?_, fun _ hl _ => hl⟩⟩
    rintro ⟨⟩
  · exact ⟨Nat.le_refl _, fun _ hl _ => hl⟩

theorem marks_settle (w : Nat) (gap : Text) (s : Scanner) : Marks s (s.settle w gap) := by
  have hdedents {count : Nat} {at_ : Span} :
      ∀ l ∈ List.replicate count ⟨.dedent, at_, []⟩ ++ s.out, l.kind.isSolid = true → l ∈ s.out := by
    refine List.forall_mem_append.2 ⟨fun l hl hsolid => ?_, fun _ hl _ => hl⟩
    rw [List.eq_of_mem_replicate hl] at hsolid
    cases hsolid
  unfold Scanner.settle
  split
  · exact ⟨Nat.le_refl _, fun _ hl _ => hl⟩
  · simp only
    split
    · refine ⟨Nat.le_refl _, List.forall_mem_cons.2 ⟨?_, hdedents⟩⟩
      rintro ⟨⟩
    · exact ⟨Nat.le_refl _, hdedents⟩

theorem marks_indentation (s : Scanner) : Marks s s.indentation := by
  have hpass := marks_pass (s.rest.takeWhile isGap) (s.rest.dropWhile isGap) s
  unfold Scanner.indentation
  simp only
  split
  · exact hpass
  · split
    · exact hpass
    · exact hpass.trans (marks_settle ..)

theorem mem_finish {stop : Nat} {l : Lexeme} (hl : l ∈ s.out) : l ∈ s.finish stop := by
  have hline : l ∈ (s.newline stop).out := by
    unfold Scanner.newline
    split
    · exact List.mem_cons_of_mem _ hl
    · exact hl
  simp [Scanner.finish, hline]

/-- The lexemes that end a scan have no text. -/
theorem mem_out_of_mem_finish {stop : Nat} {l : Lexeme} (hl : l ∈ s.finish stop)
    (hsolid : l.kind.isSolid = true) : l ∈ s.out := by
  unfold Scanner.finish at hl
  simp only [List.mem_append, List.mem_reverse, List.mem_singleton] at hl
  rcases hl with (hl | hl) | rfl
  · exact (marks_newline stop s).solid l hl hsolid
  · rw [List.eq_of_mem_replicate hl] at hsolid
    cases hsolid
  · cases hsolid

/-- A scan has gone on. The lexemes with text that it has added are read from what was left. -/
structure Adds (beyond : Option Char) (s t : Scanner) : Prop where
  pos : s.pos ≤ t.pos
  new : ∀ l ∈ t.out, l.kind.isSolid = true → l ∈ s.out ∨
    s.pos ≤ l.span.start ∧ ∃ text rest, read beyond text = .ok (l.kind, l.text, rest)

theorem Marks.adds (h : Marks s t) : Adds beyond s t :=
  ⟨h.pos, fun l hl hsolid => .inl (h.solid l hl hsolid)⟩

theorem Adds.refl (s : Scanner) : Adds beyond s s := ⟨Nat.le_refl _, fun _ hl _ => .inl hl⟩

theorem Adds.trans (h : Adds beyond s t) (h' : Adds beyond t u) : Adds beyond s u := by
  refine ⟨Nat.le_trans h.pos h'.pos, fun l hl hsolid => ?_⟩
  rcases h'.new l hl hsolid with ht | ⟨hpos, hread⟩
  · exact h.new l ht hsolid
  · exact .inr ⟨Nat.le_trans h.pos hpos, hread⟩

theorem adds_of_lexeme (h : s.lexeme beyond = .ok t) : Adds beyond s t := by
  simp only [Scanner.lexeme] at h
  split at h
  · cases h
  · next kind text rest hr =>
    cases h
    refine ⟨Nat.le_add_right _ _, fun l hl _ => ?_⟩
    rcases List.mem_cons.1 hl with rfl | hl
    · exact .inr ⟨Nat.le_refl _, _, _, hr⟩
    · exact .inl hl

theorem adds_of_token (h : s.token beyond = .ok t) : Adds beyond s t := by
  unfold Scanner.token at h
  split at h
  · cases h
    exact .refl _
  · next c r hr =>
    split at h
    · cases h
      exact (marks_pass ..).adds
    · split at h
      · cases h
        have hpass := marks_pass [c] r s
        split
        · have hline := hpass.trans (marks_newline s.pos _)
          exact ⟨hline.pos, fun l hl hsolid => .inl (hline.solid l hl hsolid)⟩
        · exact hpass.adds
      · split at h
        · cases h
          exact (marks_pass ..).adds
        · split at h
          · cases h
            exact (marks_pass ..).adds
          · exact adds_of_lexeme h

theorem adds_of_step (h : s.step beyond = .ok t) : Adds beyond s t := by
  unfold Scanner.step at h
  split at h
  · exact (marks_indentation s).adds.trans (adds_of_token h)
  · exact adds_of_token h

theorem adds_of_run (h : s.run beyond = .ok t) : Adds beyond s t := by
  fun_induction Scanner.run beyond s with
  | case1 s hs =>
    cases h
    exact .refl _
  | case2 => cases h
  | case3 s _ u hu ih => exact (adds_of_step hu).trans (ih h)

end Adds

variable {f : Nat → Nat} {ls : List Lexeme} {beyond : Option Char} {source after : Text} {start : Nat}
  {s s' t final : Scanner}

/-- Two scans over the same text but for the content of strings, which have gone equally far. -/
structure Abreast (f : Nat → Nat) (ls : List Lexeme) (s s' : Scanner) : Prop where
  text : Text.Recast f ls s.pos s'.pos s.rest s'.rest
  depth : s'.depth = s.depth
  indents : s'.indents = s.indents
  lineStart : s'.lineStart = s.lineStart
  out : List.Forall₂ (Moved f) s.out s'.out

theorem moved_mark (kind : Kind) {n n' : Nat} (hn : f n = n') :
    Moved f ⟨kind, ⟨n, n⟩, []⟩ ⟨kind, ⟨n', n'⟩, []⟩ := by
  subst hn
  exact ⟨rfl, rfl, fun _ => rfl⟩

theorem forall₂_replicate {l l' : Lexeme} (h : Moved f l l') (count : Nat) :
    List.Forall₂ (Moved f) (List.replicate count l) (List.replicate count l') := by
  induction count with
  | zero => exact .nil
  | succ count ih => exact .cons h ih

theorem Abreast.pass (h : Abreast f ls s s') {gap rest : Text} (hr : s.rest = gap ++ rest)
    (hclear : Clear ls s.pos (s.pos + size gap)) :
    ∃ rest', s'.rest = gap ++ rest' ∧ Abreast f ls (s.pass gap rest) (s'.pass gap rest') := by
  have htext := h.text
  rw [hr] at htext
  obtain ⟨rest', hr', hrest⟩ := htext.drop hclear
  exact ⟨rest', hr', hrest, h.depth, h.indents, h.lineStart, h.out⟩

/-- What is passed over because of its characters is the same on both sides. -/
theorem Abreast.passWhile (h : Abreast f ls s s') (p : Char → Bool)
    (hclear : Clear ls s.pos (s.pos + size (s.rest.takeWhile p))) :
    s'.rest.takeWhile p = s.rest.takeWhile p ∧
      Abreast f ls (s.pass (s.rest.takeWhile p) (s.rest.dropWhile p))
        (s'.pass (s'.rest.takeWhile p) (s'.rest.dropWhile p)) := by
  obtain ⟨rest', hr', hpass⟩ := h.pass List.takeWhile_append_dropWhile.symm hclear
  have hhead : rest'.head? = (s.rest.dropWhile p).head? := hpass.text.akin.head?
  obtain ⟨htake, hdrop⟩ := Text.takeWhile_append_congr s.rest hhead
  rw [hr', htake, hdrop]
  exact ⟨rfl, hpass⟩

theorem Abreast.newline (h : Abreast f ls s s') {n n' : Nat} (hn : f n = n') :
    Abreast f ls (s.newline n) (s'.newline n') := by
  have hhead : s'.out.head?.any (·.kind.isSolid) = s.out.head?.any (·.kind.isSolid) := by
    have hout := h.out
    generalize s.out = out, s'.out = out' at hout
    cases hout with
    | nil => rfl
    | cons hl _ => simp [hl.kind]
  unfold Scanner.newline
  rw [hhead]
  split
  · exact ⟨h.text, h.depth, h.indents, h.lineStart, .cons (moved_mark .newline hn) h.out⟩
  · exact h

theorem Abreast.settle (h : Abreast f ls s s') (w : Nat) {gap : Text}
    (hgap : f (s.pos - size gap) = s'.pos - size gap) :
    Abreast f ls (s.settle w gap) (s'.settle w gap) := by
  have hdedents (count : Nat) : List.Forall₂ (Moved f)
      (List.replicate count ⟨.dedent, ⟨s.pos, s.pos⟩, []⟩ ++ s.out)
      (List.replicate count ⟨.dedent, ⟨s'.pos, s'.pos⟩, []⟩ ++ s'.out) :=
    List.rel_append (forall₂_replicate (moved_mark .dedent h.text.place) count) h.out
  unfold Scanner.settle
  rw [h.indents]
  split
  · exact ⟨h.text, h.depth, rfl, rfl, h.out⟩
  · simp only
    split
    · refine ⟨h.text, h.depth, rfl, rfl, .cons ⟨rfl, ?_, fun _ => rfl⟩ (hdedents _)⟩
      simp only [Span.moved, hgap, h.text.place]
    · exact ⟨h.text, h.depth, rfl, rfl, hdedents _⟩

/-- Nothing is found where a scan goes on without a lexeme with text. -/
theorem Marks.clear (h : Marks s t) (hs : Sound source after start s)
    (hfinal : Adds beyond t final) : Clear final.out s.pos t.pos := by
  intro l hl hsolid hpos
  rcases hfinal.new l hl hsolid with ht | ⟨hle, -⟩
  · -- A lexeme found before ends where the scan was, or earlier.
    have hold := h.solid l ht hsolid
    have hstop := hs.behind l hold
    have hlt := (hs.placed l hold).lt hsolid
    omega
  · exact hle

theorem pos_indentation (s : Scanner) :
    s.indentation.pos = s.pos + size (s.rest.takeWhile isGap) := by
  unfold Scanner.indentation Scanner.settle
  grind [Scanner.pass]

theorem Abreast.indentation (h : Abreast f final.out s s') (hs : Sound source after start s)
    (hfinal : Adds beyond s.indentation final) :
    Abreast f final.out s.indentation s'.indentation := by
  have hclear := (marks_indentation s).clear hs hfinal
  rw [pos_indentation] at hclear
  obtain ⟨htake, hpass⟩ := h.passWhile isGap hclear
  have hsettle := hpass.settle (width (s.rest.takeWhile isGap))
    (show f (s.pos + size (s.rest.takeWhile isGap) - size (s.rest.takeWhile isGap)) = _ by
      simpa [Scanner.pass, htake] using h.text.place)
  have hhead := hpass.text.akin.head?
  unfold Scanner.indentation
  simp only [htake] at hpass hsettle hhead ⊢
  generalize s.pass (s.rest.takeWhile isGap) (s.rest.dropWhile isGap) = v at *
  generalize s'.pass (s.rest.takeWhile isGap) (s'.rest.dropWhile isGap) = v' at *
  cases hv : v.rest with
  | nil =>
    rw [hv, List.head?_nil, List.head?_eq_none_iff] at hhead
    rw [hhead]
    exact hpass
  | cons c r =>
    rw [hv, List.head?_cons, List.head?_eq_some_iff] at hhead
    obtain ⟨r', hr'⟩ := hhead
    rw [hr']
    simp only
    split
    · exact hpass
    · exact hsettle

theorem isSome_continuation?_iff {u : Text} : (continuation? u).isSome = true ↔
    ∃ r, u = '\\' :: r ∧ (r.dropWhile isGap).head? = some '\n' := by
  unfold continuation?
  constructor
  · intro h
    split at h
    · next r =>
      split at h
      · next rest hr => exact ⟨r, rfl, by rw [hr, List.head?_cons]⟩
      · cases h
    · cases h
  · rintro ⟨r, rfl, hr⟩
    obtain ⟨rest, hr⟩ := List.head?_eq_some_iff.1 hr
    simp only [hr, Option.isSome_some]

theorem isSome_continuation? {u u' : Text} (h : Text.Akin u u') :
    (continuation? u').isSome = true → (continuation? u).isSome = true := by
  simp only [isSome_continuation?_iff]
  rintro ⟨r', rfl, hr'⟩
  obtain ⟨r, rfl⟩ := List.head?_eq_some_iff.1 (h.head?.symm.trans List.head?_cons)
  refine ⟨r, rfl, ?_⟩
  rw [← ((h.tail rfl).dropWhile fun d => not_isGap_of_isStop).head?, hr']

theorem continuation?_append {gap rest : Text} (h : continuation? (gap ++ rest) = some (gap, rest))
    (rest' : Text) : continuation? (gap ++ rest') = some (gap, rest') := by
  obtain ⟨r, hr, hhead⟩ := isSome_continuation?_iff.1 (by rw [h]; rfl)
  obtain ⟨rest'', hdrop⟩ := List.head?_eq_some_iff.1 hhead
  have hgap : gap = '\\' :: r.takeWhile isGap ++ ['\n'] := by
    rw [hr] at h
    simp only [continuation?, hdrop, Option.some.injEq, Prod.mk.injEq] at h
    exact h.1.symm
  have hall : ∀ c ∈ r.takeWhile isGap, isGap c = true :=
    List.all_eq_true.1 List.all_takeWhile
  have htext : gap ++ rest' = '\\' :: (r.takeWhile isGap ++ '\n' :: rest') := by
    simp [hgap]
  have hnewline : isGap '\n' = false := rfl
  rw [htext, continuation?]
  simp only [List.dropWhile_append_of_pos hall, List.takeWhile_append_of_pos hall,
    List.dropWhile_cons, List.takeWhile_cons, hnewline]
  simp [hgap]

/-- What is read on the other side in place of a lexeme. -/
theorem Abreast.read (h : Abreast f final.out s s') (hs : Sound source after start s) {l : Lexeme}
    {rest : Text} (hr : read beyond s.rest = .ok (l.kind, l.text, rest))
    (hspan : l.span = ⟨s.pos, s.pos + size l.text⟩)
    (hfinal : ∀ m ∈ final.out, m.kind.isSolid = true → m = l ∨ m ∈ s.out ∨
      s.pos + size l.text ≤ m.span.start) :
    ∃ text' rest', Lexeme.read beyond s'.rest = .ok (l.kind, text', rest') ∧
      Text.Recast f final.out (s.pos + size l.text) (s'.pos + size text') rest rest' ∧
      ((∀ q, l.kind ≠ .str q) → text' = l.text) := by
  obtain ⟨hrest, hne⟩ := eq_append_of_read hr
  -- Of the lexemes ahead, only the one that is read begins before its end.
  have hnext : ∀ m ∈ final.out, m.kind.isSolid = true → s.pos ≤ m.span.start →
      m = l ∨ s.pos + size l.text ≤ m.span.start := by
    intro m hm hsolid hpos
    rcases hfinal m hm hsolid with rfl | hold | hle
    · exact .inl rfl
    · have hstop := hs.behind m hold
      have hlt := (hs.placed m hold).lt hsolid
      omega
    · exact .inr hle
  have htext := h.text
  rw [hrest] at hr htext
  generalize s'.rest = r' at htext ⊢
  generalize hread : l.text ++ rest = r at htext
  cases htext with
  | nil => simp [hne] at hread
  | char place c htail =>
    obtain ⟨d, v, hv⟩ := List.exists_cons_of_ne_nil hne
    rw [hv] at hread hr hnext ⊢
    obtain ⟨rfl, rfl⟩ := List.cons.inj hread
    have hpos := d.utf8Size_pos
    have hsize (n : Nat) : n + d.utf8Size + size v = n + size (d :: v) := by
      rw [size, Nat.add_assoc]
    obtain ⟨rest', rfl, hdrop⟩ := htail.drop (u := v) fun m hm hsolid hle => by
      rcases hnext m hm hsolid (by omega) with rfl | hle
      · rw [hspan] at hle
        simp only at hle
        omega
      · rwa [hsize]
    rw [hsize, hsize] at hdrop
    exact ⟨d :: v, rest', read_append_congr hr hdrop.akin, hdrop, fun _ => rfl⟩
  | @literal _ _ place q content content' hq hc hl t t' htail =>
    have hsize := Text.size_pos hne
    rcases hnext _ hl rfl (Nat.le_refl s.pos) with hm | hle
    · subst hm
      cases List.append_cancel_left hread
      exact ⟨q.wrap content', t', read_wrap hq (hc t') beyond, htail,
        fun hstr => absurd rfl (hstr q)⟩
    · simp only at hle
      omega

theorem Abreast.lexeme (h : Abreast f final.out s s') (hs : Sound source after start s)
    (ht : s.lexeme beyond = .ok t) (hfinal : Adds beyond t final) :
    ∃ t', s'.lexeme beyond = .ok t' ∧ Abreast f final.out t t' := by
  simp only [Scanner.lexeme] at ht
  split at ht
  · cases ht
  · next kind text rest hr =>
    cases ht
    obtain ⟨text', rest', hread, hrest, htext⟩ :=
      h.read hs (l := ⟨kind, ⟨s.pos, s.pos + size text⟩, text⟩) hr rfl fun m hm hsolid => by
        rcases hfinal.new m hm hsolid with hout | ⟨hle, -⟩
        · exact (List.mem_cons.1 hout).imp id .inl
        · exact .inr (.inr hle)
    have hmoved : Moved f ⟨kind, ⟨s.pos, s.pos + size text⟩, text⟩
        ⟨kind, ⟨s'.pos, s'.pos + size text'⟩, text'⟩ := by
      refine ⟨rfl, ?_, htext⟩
      simp only [Span.moved, h.text.place, hrest.place]
    simp only [Scanner.lexeme, hread]
    refine ⟨_, rfl, hrest, ?_, h.indents, h.lineStart, .cons hmoved h.out⟩
    simp only [Scanner.pass, hmoved.opens, hmoved.closes, h.depth]

theorem Abreast.token (h : Abreast f final.out s s') (hs : Sound source after start s)
    (ht : s.token beyond = .ok t) (hfinal : Adds beyond t final) :
    ∃ t', s'.token beyond = .ok t' ∧ Abreast f final.out t t' := by
  -- A part without a lexeme is passed over on both sides.
  have hpass {gap rest : Text} (hr : s.rest = gap ++ rest)
      (hadds : Adds beyond (s.pass gap rest) final) :
      ∃ rest', s'.rest = gap ++ rest' ∧ Abreast f final.out (s.pass gap rest) (s'.pass gap rest') :=
    h.pass hr ((marks_pass gap rest s).clear hs hadds)
  have hakin := h.text.akin
  unfold Scanner.token at ht
  split at ht
  · next hr =>
    cases ht
    rw [hr] at hakin
    exact ⟨s', by simp only [Scanner.token, hakin.eq_nil], h⟩
  · next c r hr =>
    obtain ⟨r', hr'⟩ : ∃ r', s'.rest = c :: r' :=
      List.head?_eq_some_iff.1 (hakin.head?.trans (by rw [hr, List.head?_cons]))
    simp only [Scanner.token, hr']
    split at ht
    · next hc =>
      cases ht
      obtain ⟨rest', hrest', habreast⟩ := hpass (show s.rest = [c] ++ r from hr) hfinal
      obtain ⟨-, rfl⟩ := List.cons.inj (hr'.symm.trans hrest')
      exact ⟨_, if_pos hc, habreast⟩
    · next hc =>
      rw [if_neg hc]
      split at ht
      · next hn =>
        cases ht
        have hmarks : Marks (s.pass [c] r) (if s.depth = 0 then
            { (s.pass [c] r).newline s.pos with lineStart := true } else s.pass [c] r) := by
          split
          · exact ⟨(marks_newline s.pos _).pos, (marks_newline s.pos _).solid⟩
          · exact ⟨Nat.le_refl _, fun _ hl _ => hl⟩
        obtain ⟨rest', hrest', habreast⟩ :=
          hpass (show s.rest = [c] ++ r from hr) (hmarks.adds.trans hfinal)
        obtain ⟨-, rfl⟩ := List.cons.inj (hr'.symm.trans hrest')
        rw [if_pos hn, h.depth]
        refine ⟨_, rfl, ?_⟩
        split
        · have hline := habreast.newline h.text.place
          exact ⟨hline.text, hline.depth, hline.indents, rfl, hline.out⟩
        · exact habreast
      · next hn =>
        rw [if_neg hn]
        split at ht
        · next hcomment =>
          cases ht
          rw [if_pos hcomment, ← hr']
          exact ⟨_, rfl, (h.passWhile _ ((marks_pass ..).clear hs hfinal)).2⟩
        · next hcomment =>
          rw [if_neg hcomment]
          split at ht
          · next gap rest hcont =>
            cases ht
            have hcut := append_of_continuation? hcont
            obtain ⟨rest', hrest', habreast⟩ := hpass hcut hfinal
            rw [hcut] at hcont
            rw [← hr', hrest', continuation?_append hcont rest']
            exact ⟨_, rfl, habreast⟩
          · next hcont =>
            have hnone : continuation? (c :: r') = none := by
              rw [← hr', ← Option.not_isSome_iff_eq_none]
              intro hsome
              have hsome := isSome_continuation? hakin hsome
              rw [hcont] at hsome
              cases hsome
            rw [hnone]
            exact h.lexeme hs ht hfinal

theorem Abreast.step (h : Abreast f final.out s s') (hs : Sound source after start s)
    (ht : s.step beyond = .ok t) (hfinal : Adds beyond t final) :
    ∃ t', s'.step beyond = .ok t' ∧ Abreast f final.out t t' := by
  unfold Scanner.step at ht ⊢
  rw [h.lineStart, h.depth]
  split at ht
  · next hline =>
    rw [if_pos hline]
    have hindent := h.indentation hs ((adds_of_token ht).trans hfinal)
    exact hindent.token hs.indentation ht hfinal
  · next hline =>
    rw [if_neg hline]
    exact h.token hs ht hfinal

/-- A run is answered by a run. -/
theorem run_of_step (hne : s.rest ≠ []) (h : s.step beyond = .ok t) :
    s.run beyond = t.run beyond := by
  rw [Scanner.run, dif_neg hne]
  split
  · next e he =>
    rw [h] at he
    cases he
  · next u hu =>
    rw [h] at hu
    cases hu
    rfl

theorem Abreast.run (hs : Sound source after start s) (ht : s.run beyond = .ok t)
    (h : Abreast f t.out s s') : ∃ t', s'.run beyond = .ok t' ∧ Abreast f t.out t t' := by
  fun_induction Scanner.run beyond s generalizing s' with
  | case1 s hr =>
    cases ht
    have hakin := h.text.akin
    rw [hr] at hakin
    exact ⟨s', by rw [Scanner.run, dif_pos hakin.eq_nil], h⟩
  | case2 => cases ht
  | case3 s hr u hu ih =>
    obtain ⟨u', hu', habreast⟩ := h.step hs hu (adds_of_run ht)
    obtain ⟨t', ht', hfinal⟩ := ih (hs.step hu) ht habreast
    refine ⟨t', ?_, hfinal⟩
    have hne : s'.rest ≠ [] := by
      intro hnil
      have hhead := h.text.akin.head?
      rw [hnil, List.head?_nil] at hhead
      exact hr (List.head?_eq_none_iff.1 hhead.symm)
    rw [run_of_step hne hu']
    exact ht'

theorem Abreast.finish (h : Abreast f ls s s') :
    List.Forall₂ (Moved f) (s.finish s.pos) (s'.finish s'.pos) := by
  have hplace := h.text.place
  have hline := h.newline hplace
  unfold Scanner.finish
  simp only [hline.indents]
  refine List.rel_append (List.rel_append (List.rel_reverse hline.out) ?_) (.cons ?_ .nil)
  · exact forall₂_replicate (moved_mark .dedent hplace) _
  · exact moved_mark .eof hplace

end Scanner

/-- The lexemes of a text with other contents in some strings. -/
theorem Text.Recast.lexemes {f : Nat → Nat} {source source' : Text} {s : Scanner}
    (hs : (Scanner.fresh source 0).run none = .ok s) (h : Recast f s.out 0 0 source source') :
    ∃ ls', source'.lexemes ⟨0, size source'⟩ = .ok ls' ∧
      List.Forall₂ (Lexeme.Moved f) (s.finish s.pos) ls' := by
  have habreast : Scanner.Abreast f s.out (.fresh source 0) (.fresh source' 0) :=
    ⟨h, rfl, rfl, rfl, .nil⟩
  obtain ⟨s', hs', hend⟩ := Scanner.Abreast.run (Scanner.sound_fresh [] source []) hs habreast
  have hrun := (Scanner.sound_fresh [] source' []).run hs'
  have hpos : s'.pos = size source' := by simpa [size] using hrun.1.pos_eq hrun.2
  exact ⟨s'.finish s'.pos, lexemes_self_eq_ok_iff.2 ⟨s', hs', hpos, rfl⟩, hend.finish⟩

end Phrasebook
