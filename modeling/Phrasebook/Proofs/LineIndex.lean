import Phrasebook.Position
import Phrasebook.Proofs.Lines

/-!
The search among the starts of lines.

Halving keeps an offset that is not behind the one looked for, and before one that is, so the search
comes to the line of the offset (`LineIndex.isLine_narrow`), in every text (`LineIndex.exists_search`).
Hence its rank counts the line feeds before the offset, and the characters from its start on are those
after the last of them (`Text.place_eq`).
-/
namespace Phrasebook

open Text (size takeBytes dropBytes isBoundary EndsLine)

namespace LineIndex

variable {starts : List Nat} {lines line rest t : Text} {x y i pos start base half : Nat}

/-- Line `i` begins at `start`, and `x` is in it: the next line, if there is one, begins behind `x`. -/
structure IsLine (starts : List Nat) (x i start : Nat) : Prop where
  begins : starts[i]? = some start
  le : start ≤ x
  next : ∀ next, starts[i + 1]? = some next → x < next

theorem lt_of_pairwise (h : starts.Pairwise (· < ·)) (hij : i < y) (hi : starts[i]? = some start)
    (hy : starts[y]? = some x) : start < x := by
  obtain ⟨hlt, rfl⟩ := List.getElem?_eq_some_iff.1 hi
  obtain ⟨hlt', rfl⟩ := List.getElem?_eq_some_iff.1 hy
  exact List.pairwise_iff_getElem.1 h i y hlt hlt' hij

/-- The window of a search begins with a line that is not behind `x` and ends before one that is. -/
theorem isLine_narrow (hsorted : starts.Pairwise (· < ·)) {size : Nat} (hsize : 0 < size)
    (hbase : starts[base]? = some start) (hle : start ≤ x) (hin : base + size ≤ starts.length)
    (hbehind : ∀ next, starts[base + size]? = some next → x < next) :
    ∃ start, IsLine starts x (narrow starts x base size) start := by
  induction size using Nat.strong_induction_on generalizing base start with
  | _ size ih =>
    rw [narrow]
    split
    · next hmore =>
      have hhalf : 0 < size / 2 ∧ size / 2 < size := by omega
      obtain ⟨value, hmid⟩ : ∃ value, starts[base + size / 2]? = some value :=
        ⟨_, List.getElem?_eq_getElem (by omega)⟩
      simp only [List.getD_eq_getElem?_getD, hmid, Option.getD_some]
      split
      · next hx =>
        refine ih _ (by omega) (by omega) hbase hle (by omega) fun next hnext => ?_
        -- What is left of a window of odd size ends one rank behind its middle.
        rcases Nat.lt_or_eq_of_le (show base + size / 2 ≤ base + (size - size / 2) by omega) with
          hlt | heq
        · exact Nat.lt_trans hx (lt_of_pairwise hsorted hlt hmid hnext)
        · rw [← heq, hmid] at hnext
          exact Option.some.inj hnext ▸ hx
      · next hx =>
        have hend : base + size / 2 + (size - size / 2) = base + size := by omega
        exact ih _ (by omega) (by omega) hmid (Nat.le_of_not_lt hx) (by omega) (by rwa [hend])
    · next hone =>
      obtain rfl : size = 1 := by omega
      exact ⟨start, hbase, hle, hbehind⟩

/-- A search that begins with a line not behind `x` comes to the line of `x`. -/
theorem exists_search (hsorted : starts.Pairwise (· < ·)) (hfirst : starts[0]? = some start)
    (hle : start ≤ x) : ∃ i start, IsLine starts x i start ∧
      search starts x = if start = x then .ok i else .error (i + 1) := by
  have hpos : 0 < starts.length := (List.getElem?_eq_some_iff.1 hfirst).1
  obtain ⟨start, hline⟩ := isLine_narrow hsorted hpos hfirst hle (by omega) (by simp)
  refine ⟨_, start, hline, ?_⟩
  have hempty : starts.isEmpty = false :=
    List.isEmpty_eq_false_iff.2 (List.ne_nil_of_length_pos hpos)
  simp only [search, hempty, Bool.false_eq_true, if_false, List.getD_eq_getElem?_getD, hline.begins,
    Option.getD_some]
  split
  · rfl
  · rw [if_pos (by have := hline.le; omega)]

theorem line_of_search {l : LineIndex}
    (h : search l.starts x = if start = x then .ok i else .error (i + 1)) : l.line x = i := by
  rw [line, h]
  by_cases hx : start = x
  · rw [if_pos hx]
  · rw [if_neg hx]
    rfl

/-! ### Line starts -/

theorem breaks_append (pos : Nat) (s t : Text) :
    breaks pos (s ++ t) = breaks pos s ++ breaks (pos + size s) t := by
  induction s generalizing pos with
  | nil => rfl
  | cons c s ih =>
    by_cases hc : c = '\n'
    · subst hc
      simp only [List.cons_append, breaks, if_true, ih, size]
      rw [Nat.add_assoc]
      rfl
    · simp only [List.cons_append, breaks, if_neg hc, ih, size, Nat.add_assoc]

theorem breaks_eq_nil (h : '\n' ∉ line) (pos : Nat) : breaks pos line = [] := by
  induction line generalizing pos with
  | nil => rfl
  | cons c line ih =>
    obtain ⟨hc, hline⟩ := not_or.1 (List.mem_cons.not.1 h)
    rw [breaks, if_neg fun he => hc he.symm, ih hline]

theorem length_breaks (pos : Nat) (t : Text) : (breaks pos t).length = t.count '\n' := by
  induction t generalizing pos with
  | nil => rfl
  | cons c t ih =>
    by_cases hc : c = '\n'
    · simp [breaks, hc, ih]
    · simp [breaks, hc, ih, List.count_cons_of_ne (fun he => hc he)]

theorem bounds_of_mem_breaks (h : x ∈ breaks pos t) : pos < x ∧ x ≤ pos + size t := by
  induction t generalizing pos with
  | nil => simp [breaks] at h
  | cons c t ih =>
    have hc := c.utf8Size_pos
    simp only [breaks] at h
    split at h
    · next hnl =>
      have hone : c.utf8Size = 1 := by
        rw [hnl]
        rfl
      simp only [size, hone]
      rcases List.mem_cons.1 h with rfl | h
      · omega
      · have := ih h
        omega
    · have := ih h
      simp only [size]
      omega

theorem pairwise_breaks (pos : Nat) (t : Text) : (breaks pos t).Pairwise (· < ·) := by
  induction t generalizing pos with
  | nil => exact .nil
  | cons c t ih =>
    simp only [breaks]
    split
    · exact .cons (fun _ hs => (bounds_of_mem_breaks hs).1) (ih _)
    · exact ih _

theorem pairwise_starts (t : Text) : (ofText t).starts.Pairwise (· < ·) :=
  .cons (fun _ hs => (bounds_of_mem_breaks hs).1) (pairwise_breaks 0 t)

/-- In a list whose members up to `m` are not behind `x`, and whose later ones are, `m` begins the
line of `x`. -/
theorem IsLine.rank_eq {front later : List Nat} {m : Nat}
    (h : IsLine (front ++ m :: later) x i start) (hfront : ∀ s ∈ front, s ≤ x) (hm : m ≤ x)
    (hlater : ∀ s ∈ later, x < s) : i = front.length ∧ start = m := by
  obtain ⟨hstart, hle, hnext⟩ := h
  induction front generalizing i with
  | nil =>
    cases i with
    | zero => exact ⟨rfl, (Option.some.inj hstart).symm⟩
    | succ i =>
      have := hlater start (List.mem_of_getElem? hstart)
      omega
  | cons f front ih =>
    obtain ⟨-, hfront⟩ := List.forall_mem_cons.1 hfront
    cases i with
    | zero =>
      -- What comes next is not behind `x` either.
      obtain ⟨next, more, hmore, hnot⟩ :
          ∃ next more, front ++ m :: later = next :: more ∧ next ≤ x := by
        cases front with
        | nil => exact ⟨m, later, rfl, hm⟩
        | cons g front => exact ⟨g, _, rfl, hfront g List.mem_cons_self⟩
      have := hnext next (by rw [List.cons_append, hmore]; rfl)
      omega
    | succ i =>
      obtain ⟨rfl, rfl⟩ := ih hfront hstart hnext
      exact ⟨rfl, rfl⟩

end LineIndex

namespace Text

open LineIndex

variable {lines line rest t : Text} {x i start : Nat}

/-- The characters after the last line break. -/
def lastLine (t : Text) : Text := (t.reverse.takeWhile (· != '\n')).reverse

/-- A text is some lines and the beginning of one more. -/
theorem exists_lastLine (t : Text) : ∃ lines line, t = lines ++ line ∧
    (lines = [] ∨ lines.EndsLine) ∧ '\n' ∉ line := by
  rcases line_or_last t.reverse with hno | ⟨u, r, hu, ht⟩
  · exact ⟨[], t, rfl, .inl rfl, by simpa using hno⟩
  · refine ⟨r.reverse ++ ['\n'], u.reverse, ?_, .inr (by simp [EndsLine]), by simpa using hu⟩
    rw [← List.reverse_reverse t, ht]
    simp

theorem lastLine_of_notMem (h : '\n' ∉ line) : lastLine line = line := by
  have hall : ∀ c ∈ line.reverse, (c != '\n') = true := by
    intro c hc
    rw [List.mem_reverse] at hc
    rw [bne_iff_ne]
    rintro rfl
    exact h hc
  rw [lastLine, List.takeWhile_eq_self_iff.2 hall, List.reverse_reverse]

/-- Whole lines in front do not count for the column. -/
theorem lastLine_append {s : Text} (h : s = [] ∨ s.EndsLine) (t : Text) :
    lastLine (s ++ t) = lastLine t := by
  rcases h with rfl | h
  · rfl
  · have hhead : s.reverse.head? = some '\n' := by rw [List.head?_reverse, h]
    obtain ⟨r, hr⟩ := List.head?_eq_some_iff.1 hhead
    rw [lastLine, lastLine, List.reverse_append, hr, List.takeWhile_append]
    split
    · next hall => simp [(List.takeWhile_prefix _).eq_of_length hall]
    · rfl

/-- What begins before byte `x` of a text ends at `x` or later, unless the text ends there. -/
theorem le_size_takeBytes (h : dropBytes x t ≠ []) : x ≤ size (takeBytes x t) := by
  induction t generalizing x with
  | nil => exact absurd rfl h
  | cons c t ih =>
    by_cases hx : x = 0
    · omega
    · rw [dropBytes, if_neg hx] at h
      have := ih h
      rw [takeBytes, if_neg hx, size]
      omega

/-- Of what begins before byte `x`, all but the last character ends before `x`. -/
theorem size_lt_of_takeBytes {a b : Text} {c : Char} (h : takeBytes x t = a ++ c :: b) :
    size a < x := by
  induction t generalizing x a with
  | nil => simp [takeBytes] at h
  | cons d t ih =>
    by_cases hx : x = 0
    · simp [takeBytes, hx] at h
    · rw [takeBytes, if_neg hx] at h
      cases a with
      | nil => exact Nat.pos_of_ne_zero hx
      | cons e a =>
        have := ih (List.cons.inj h).2
        obtain rfl := (List.cons.inj h).1
        rw [size]
        omega

/-- The line starts up to an offset end with that of its line, and the others are behind it. -/
theorem isLine_of_takeBytes (h : takeBytes x t = lines ++ line)
    (hlines : lines = [] ∨ lines.EndsLine) (hline : '\n' ∉ line)
    (hi : IsLine (ofText t).starts x i start) : i = lines.count '\n' ∧ start = size lines := by
  have hsum := size_append lines line
  have hlater : ∀ s ∈ breaks (size (lines ++ line)) (dropBytes x t), x < s := by
    intro s hs
    have hle : x ≤ size (takeBytes x t) := le_size_takeBytes (by
      rintro hnil
      rw [hnil] at hs
      cases hs)
    rw [h] at hle
    exact Nat.lt_of_le_of_lt hle (bounds_of_mem_breaks hs).1
  have ht : t = lines ++ line ++ dropBytes x t := by rw [← h, takeBytes_append_dropBytes]
  have hbreaks : breaks 0 t =
      breaks 0 lines ++ breaks (size (lines ++ line)) (dropBytes x t) := by
    conv_lhs => rw [ht]
    rw [breaks_append, breaks_append, breaks_eq_nil hline, Nat.zero_add, List.append_nil]
  rw [ofText, hbreaks] at hi
  rcases hlines with rfl | hlines
  · have hnil : ∀ s ∈ ([] : List Nat), s ≤ x := by simp
    exact IsLine.rank_eq hi hnil (Nat.zero_le x) hlater
  · obtain ⟨u, rfl⟩ := List.getLast?_eq_some_iff.1 hlines
    have hu : size u < x := by
      rw [List.append_assoc, List.singleton_append] at h
      exact size_lt_of_takeBytes h
    have hlast : breaks 0 (u ++ ['\n']) = breaks 0 u ++ [size u + 1] := by
      rw [breaks_append, Nat.zero_add]
      rfl
    have hnl : size (u ++ ['\n']) = size u + 1 := size_append u ['\n']
    rw [hlast, List.append_assoc, ← List.cons_append] at hi
    obtain ⟨rfl, rfl⟩ := hi.rank_eq (List.forall_mem_cons.2 ⟨Nat.zero_le x, fun s hs => by
      have := (bounds_of_mem_breaks hs).2
      omega⟩) hu hlater
    exact ⟨by simp [length_breaks], hnl.symm⟩

theorem takeBytes_min (x : Nat) (t : Text) : takeBytes (min x (size t)) t = takeBytes x t := by
  induction t generalizing x with
  | nil => rfl
  | cons c t ih =>
    have hc := c.utf8Size_pos
    have hmin : min x (size (c :: t)) - c.utf8Size = min (x - c.utf8Size) (size t) := by
      simp only [size]
      omega
    by_cases hx : x = 0
    · simp [hx]
    · have hne : ¬ min x (size (c :: t)) = 0 := by
        simp only [size]
        omega
      rw [takeBytes, takeBytes, if_neg hx, if_neg hne, hmin, ih]

/-- The line of an offset counts the line feeds before it, and its column the characters since the
last one; inside a character the column is zero. -/
theorem place_eq (t : Text) (x : Nat) : t.place x =
    ⟨(takeBytes x t).count '\n' + 1,
      if isBoundary (min x (size t)) t then (lastLine (takeBytes x t)).length else 0⟩ := by
  obtain ⟨lines, line, h, hlines, hline⟩ := exists_lastLine (takeBytes x t)
  have hfirst : (ofText t).starts[0]? = some 0 := rfl
  obtain ⟨i, start, hi, hsearch⟩ := exists_search (pairwise_starts t) hfirst (Nat.zero_le x)
  obtain ⟨rfl, rfl⟩ := isLine_of_takeBytes h hlines hline hi
  have hcolumn : ((t.slice? (size lines) (min x (size t))).map List.length).getD 0 =
      if isBoundary (min x (size t)) t then line.length else 0 := by
    by_cases hx : isBoundary (min x (size t)) t
    · obtain ⟨a, rest, rfl, ha⟩ := isBoundary_iff.1 hx
      rw [← takeBytes_min, ← ha, takeBytes_size_append] at h
      subst h
      have hstands := stands_append lines line rest
      rw [if_pos hx, ← ha, size_append, hstands.slice?_eq]
      rfl
    · rw [slice?, if_neg fun hb => hx hb.2.2, if_neg hx]
      rfl
  simp only [place, lineCol, line_of_search hsearch, List.getD_eq_getElem?_getD, hi.begins,
    Option.getD_some, ofText_source, hcolumn]
  rw [h, lastLine_append hlines, lastLine_of_notMem hline, List.count_append,
    List.count_eq_zero_of_not_mem hline, Nat.add_zero]

end Text

end Phrasebook
