import Phrasebook.Proofs.Insets

/-!
Offsets and their places.

The place of an offset is the count of its line and column (`Text.place_append`), and walking to it
over lines and characters comes back to the offset (`Text.offset?_place`). So places have the order of
their offsets, and the position of a span cuts out of the text what stands there.
`Text.Charted` says all this of a text, and `Text.charted` that it holds of every text.
-/
namespace Phrasebook

open Text (size)

/-- One place is before another: on an earlier line, or earlier on the same line. -/
def Place.Before (p q : Place) : Prop :=
  p.line < q.line ∨ p.line = q.line ∧ p.column < q.column

theorem Place.Before.asymm {p q : Place} (h : p.Before q) : ¬ q.Before p := by
  unfold Before at h ⊢
  omega

namespace Text

open LineIndex (IsLine ofText search exists_search pairwise_starts)

variable {source before lines line rest t : Text} {x y : Nat} {span : Span}

/-- The bytes of some lines, and of some characters of the line after them. -/
def walk? : (lines columns : Nat) → Text → Option Nat
  | 0, 0, _ => some 0
  | _, _, [] => none
  | 0, columns + 1, c :: r =>
    if c = '\n' then none else (walk? 0 columns r).map (c.utf8Size + ·)
  | lines + 1, columns, c :: r =>
    (walk? (if c = '\n' then lines else lines + 1) columns r).map (c.utf8Size + ·)

/-- The offset of a place. -/
def offset? (t : Text) (p : Place) : Option Nat :=
  if p.line = 0 then none else walk? (p.line - 1) p.column t

/-- What stands between the ends of a position. -/
def cut? (t : Text) (p : Position) : Option Text := do
  let start ← t.offset? ⟨p.startLine, p.startColumn⟩
  let stop ← t.offset? ⟨p.endLine, p.endColumn⟩
  t.slice? start stop

/-! ### The place of an offset -/

/-- Lines are counted from one, and columns from the start of the line. -/
theorem place_append (hlines : lines = [] ∨ lines.EndsLine) (hline : '\n' ∉ line) (rest : Text) :
    (lines ++ line ++ rest).place (size (lines ++ line)) =
      ⟨lines.count '\n' + 1, line.length⟩ := by
  have hmin : min (size (lines ++ line)) (size (lines ++ line ++ rest)) =
      size (lines ++ line) := by
    rw [size_append (lines ++ line) rest]
    omega
  have hbound : isBoundary (size (lines ++ line)) (lines ++ line ++ rest) = true :=
    isBoundary_iff.2 ⟨_, rest, rfl, rfl⟩
  simp only [place_eq, takeBytes_size_append, hmin, hbound, if_true, lastLine_append hlines,
    lastLine_of_notMem hline, List.count_append, List.count_eq_zero_of_not_mem hline,
    Nat.add_zero]

/-- Places come in the order of their offsets. -/
theorem place_before (hx : isBoundary x source = true) (hy : isBoundary y source = true)
    (hxy : x < y) : (source.place x).Before (source.place y) := by
  obtain ⟨a, r, rfl, rfl⟩ := isBoundary_iff.1 hx
  obtain ⟨d, c, hd, rfl⟩ := isBoundary_iff.1 hy
  obtain ⟨b, rfl, rfl⟩ := exists_append_of_size_le hd (Nat.le_of_lt hxy)
  obtain ⟨lines, line, rfl, hlines, hline⟩ := exists_lastLine a
  obtain ⟨more, tail, rfl, hmore, htail⟩ := exists_lastLine b
  rw [place_append hlines hline]
  have hsource : lines ++ line ++ (more ++ tail ++ c) =
      (lines ++ line ++ more ++ tail) ++ c := by simp
  have hsize : size (lines ++ line ++ (more ++ tail)) =
      size (lines ++ line ++ more ++ tail) := by simp
  rw [hsource, hsize]
  rcases hmore with rfl | hmore
  · -- No line ends between the two, so the second is further on in the same line.
    have hlong : '\n' ∉ line ++ tail := by simp [hline, htail]
    have hplace := place_append hlines hlong c
    rw [← List.append_assoc] at hplace
    rw [List.append_nil, hplace]
    refine .inr ⟨rfl, ?_⟩
    have hne : tail ≠ [] := by
      rintro rfl
      simp at hxy
    have := List.length_pos_iff.2 hne
    simp only [List.length_append]
    omega
  · rw [place_append (.inr (hmore.append (lines ++ line))) htail]
    have := List.count_pos_iff.2 hmore.mem
    refine .inl ?_
    simp only [List.count_append]
    omega

/-! ### The way to a place -/

theorem walk?_line (h : '\n' ∉ line) (rest : Text) :
    walk? 0 line.length (line ++ rest) = some (size line) := by
  induction line with
  | nil => simp [walk?, size]
  | cons c line ih =>
    obtain ⟨hc, hline⟩ := not_or.1 (List.mem_cons.not.1 h)
    rw [List.cons_append, List.length_cons, walk?, if_neg fun he => hc he.symm, ih hline]
    rfl

/-- A walk passes whole lines before it comes to characters. -/
theorem walk?_lines (columns : Nat) (before rest : Text) :
    walk? (before.count '\n' + 1) columns (before ++ '\n' :: rest) =
      (walk? 0 columns rest).map (size before + 1 + ·) := by
  induction before with
  | nil => simp [walk?, size, Char.utf8Size]
  | cons c before ih =>
    have hstep : walk? ((c :: before).count '\n' + 1) columns (c :: (before ++ '\n' :: rest)) =
        (walk? (before.count '\n' + 1) columns (before ++ '\n' :: rest)).map (c.utf8Size + ·) := by
      by_cases hc : c = '\n'
      · rw [hc, List.count_cons_self, walk?, if_pos rfl]
      · rw [List.count_cons_of_ne (fun he => hc he), walk?, if_neg hc]
    rw [List.cons_append, hstep, ih, Option.map_map]
    congr 1
    funext n
    simp only [Function.comp_apply, size]
    omega

/-- The place of an offset leads back to it. -/
theorem offset?_place (hx : isBoundary x source = true) :
    source.offset? (source.place x) = some x := by
  obtain ⟨a, rest, rfl, rfl⟩ := isBoundary_iff.1 hx
  obtain ⟨lines, line, rfl, hlines, hline⟩ := exists_lastLine a
  rw [place_append hlines hline, offset?, if_neg (Nat.succ_ne_zero _), Nat.add_sub_cancel,
    List.append_assoc]
  rcases hlines with rfl | hlines
  · simpa using walk?_line hline rest
  · obtain ⟨u, rfl⟩ := List.getLast?_eq_some_iff.1 hlines
    rw [List.count_append, List.count_singleton_self, List.append_assoc, List.singleton_append,
      walk?_lines, walk?_line hline, Option.map_some, size_append (u ++ ['\n']) line,
      size_append u]
    rfl

/-- The position of a span cuts out what stands there. -/
theorem cut?_position {m : Text} (h : Stands source span m) :
    source.cut? (source.position span) = some m := by
  simp only [cut?, position_eq, offset?_place h.isBoundary_start, offset?_place h.isBoundary_stop,
    Option.bind_eq_bind, Option.bind_some]
  exact h.slice?_eq

/-- What is known of an offset from its place, and of a span from its position, where both are looked
up among the starts of the lines of a text. -/
structure Charted (source : Text) : Prop where
  /-- The search finds the line of an offset. If the offset does not begin it, the answer is the rank
  behind that of the line, so there is always a rank before it. -/
  searched : ∀ x, ∃ i start, IsLine (ofText source).starts x i start ∧
    search (ofText source).starts x = if start = x then .ok i else .error (i + 1)
  /-- The line counts the line feeds before an offset, the column the characters after the last. -/
  counted : ∀ before rest, source = before ++ rest → ∃ lines line, before = lines ++ line ∧
    (lines = [] ∨ lines.EndsLine) ∧ '\n' ∉ line ∧
    (ofText source).lineCol (size before) = ⟨1 + before.count '\n', line.length⟩
  /-- Places have the order of their offsets. -/
  increasing : ∀ x y, isBoundary x source = true → isBoundary y source = true →
    (x < y ↔ ((ofText source).lineCol x).Before ((ofText source).lineCol y))
  /-- The two places of a position lead back to the ends of its span, and cut out its text. -/
  walked : ∀ span p, span.start ≤ span.stop → isBoundary span.start source = true →
    isBoundary span.stop source = true → (ofText source).position span = p →
    source.offset? ⟨p.startLine, p.startColumn⟩ = some span.start ∧
      source.offset? ⟨p.endLine, p.endColumn⟩ = some span.stop ∧
      source.cut? p = some (source.slice span.start span.stop)

theorem charted (source : Text) : source.Charted where
  searched x := exists_search (pairwise_starts source) rfl (Nat.zero_le x)
  counted before rest h := by
    obtain ⟨lines, line, rfl, hlines, hline⟩ := exists_lastLine before
    refine ⟨lines, line, rfl, hlines, hline, ?_⟩
    have hplace := place_append hlines hline rest
    rw [← h] at hplace
    rw [← place, hplace, List.count_append, List.count_eq_zero_of_not_mem hline,
      Nat.add_zero (lines.count '\n'), Nat.add_comm]
  increasing x y hx hy := by
    refine ⟨place_before hx hy, fun h => ?_⟩
    rcases Nat.lt_trichotomy x y with hlt | rfl | hgt
    · exact hlt
    · exact absurd h h.asymm
    · exact absurd h (place_before hy hx hgt).asymm
  walked span p hle hstart hstop hp := by
    subst hp
    exact ⟨offset?_place hstart, offset?_place hstop,
      cut?_position (stands_slice hstart hstop hle)⟩

end Text

end Phrasebook
