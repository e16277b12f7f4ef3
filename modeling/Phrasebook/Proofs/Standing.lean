import Mathlib.Tactic.Common
import Phrasebook.Edit

/-!
Which text stands at a span of another.

`Text.Stands t span m` says that the bytes of `span` are whole characters of `t` and spell `m`. A cut
at such a span gives `m`, and a span has at most one text.
-/
namespace Phrasebook

namespace Text

variable {s t m a b c d : Text} {n i j : Nat} {span : Span}

theorem size_pos (h : t ≠ []) : 0 < size t := by
  cases t with
  | nil => exact absurd rfl h
  | cons c r =>
    have := c.utf8Size_pos
    simp only [size]
    omega

@[simp]
theorem takeBytes_zero (t : Text) : takeBytes 0 t = [] := by
  cases t <;> simp [takeBytes]

@[simp]
theorem dropBytes_zero (t : Text) : dropBytes 0 t = t := by
  cases t <;> simp [dropBytes]

theorem takeBytes_size_add (s t : Text) (n : Nat) :
    takeBytes (size s + n) (s ++ t) = s ++ takeBytes n t := by
  induction s with
  | nil => simp [size]
  | cons c r ih =>
    have := c.utf8Size_pos
    have hn : ¬ c.utf8Size + size r + n = 0 := by omega
    have hs : c.utf8Size + size r + n - c.utf8Size = size r + n := by omega
    simp only [size, List.cons_append, takeBytes, if_neg hn, hs, ih]

theorem dropBytes_size_add (s t : Text) (n : Nat) :
    dropBytes (size s + n) (s ++ t) = dropBytes n t := by
  induction s with
  | nil => simp [size]
  | cons c r ih =>
    have := c.utf8Size_pos
    have hn : ¬ c.utf8Size + size r + n = 0 := by omega
    have hs : c.utf8Size + size r + n - c.utf8Size = size r + n := by omega
    simp only [size, List.cons_append, dropBytes, if_neg hn, hs, ih]

@[simp]
theorem takeBytes_size_append (s t : Text) : takeBytes (size s) (s ++ t) = s := by
  simpa using takeBytes_size_add s t 0

@[simp]
theorem dropBytes_size_append (s t : Text) : dropBytes (size s) (s ++ t) = t := by
  simpa using dropBytes_size_add s t 0

theorem isBoundary_iff : isBoundary n t = true ↔ ∃ a b, t = a ++ b ∧ size a = n := by
  constructor
  · intro h
    induction t generalizing n with
    | nil =>
      have hn : n = 0 := by simpa [isBoundary] using h
      exact ⟨[], [], rfl, hn.symm⟩
    | cons c r ih =>
      simp only [isBoundary, Bool.or_eq_true, beq_iff_eq, Bool.and_eq_true, decide_eq_true_eq] at h
      rcases h with rfl | ⟨hc, hr⟩
      · exact ⟨[], c :: r, rfl, rfl⟩
      · obtain ⟨a, b, rfl, ha⟩ := ih hr
        exact ⟨c :: a, b, rfl, by simp only [size]; omega⟩
  · rintro ⟨a, b, rfl, rfl⟩
    induction a with
    | nil => cases b <;> simp [isBoundary, size]
    | cons c r ih => simp [isBoundary, size, ih]

theorem isBoundary_zero (t : Text) : isBoundary 0 t = true := isBoundary_iff.2 ⟨[], t, rfl, rfl⟩

/-- The text `m` stands at `span`. -/
def Stands (t : Text) (span : Span) (m : Text) : Prop :=
  ∃ before after, t = before ++ m ++ after ∧ span = ⟨size before, size before + size m⟩

theorem stands_append (a m c : Text) : Stands (a ++ m ++ c) ⟨size a, size a + size m⟩ m :=
  ⟨a, c, rfl, rfl⟩

theorem Stands.slice_eq (h : Stands t span m) : t.slice span.start span.stop = m := by
  obtain ⟨a, c, rfl, rfl⟩ := h
  simp [slice]

theorem Stands.isBoundary_start (h : Stands t span m) : isBoundary span.start t = true := by
  obtain ⟨a, c, rfl, rfl⟩ := h
  exact isBoundary_iff.2 ⟨a, m ++ c, by simp, rfl⟩

theorem Stands.isBoundary_stop (h : Stands t span m) : isBoundary span.stop t = true := by
  obtain ⟨a, c, rfl, rfl⟩ := h
  exact isBoundary_iff.2 ⟨a ++ m, c, rfl, by simp⟩

theorem Stands.size_eq (h : Stands t span m) : span.stop = span.start + size m := by
  obtain ⟨a, c, rfl, rfl⟩ := h
  rfl

theorem Stands.slice?_eq (h : Stands t span m) : t.slice? span.start span.stop = some m := by
  have hle : span.start ≤ span.stop := by
    rw [h.size_eq]
    exact Nat.le_add_right _ _
  rw [slice?, if_pos ⟨hle, h.isBoundary_start, h.isBoundary_stop⟩, h.slice_eq]

theorem Stands.unique (h : Stands t span a) (h' : Stands t span b) : a = b :=
  h.slice_eq.symm.trans h'.slice_eq

theorem Stands.stop_le (h : Stands t span m) : span.stop ≤ size t := by
  obtain ⟨a, c, rfl, rfl⟩ := h
  simp only [size_append]
  omega

/-- What stands in a text is not empty exactly if its span is not. -/
theorem Stands.lt_iff (h : Stands t span m) : span.start < span.stop ↔ m ≠ [] := by
  rw [h.size_eq]
  constructor
  · rintro hlt rfl
    simp [size] at hlt
  · intro hne
    have := size_pos hne
    omega

/-- A cut at two boundaries is what stands between them. -/
theorem stands_slice (hi : isBoundary i t = true) (hj : isBoundary j t = true) (hij : i ≤ j) :
    Stands t ⟨i, j⟩ (t.slice i j) := by
  obtain ⟨a, r, rfl, rfl⟩ := isBoundary_iff.1 hi
  obtain ⟨d, c, hd, rfl⟩ := isBoundary_iff.1 hj
  obtain ⟨m, rfl⟩ : ∃ m, d = a ++ m := by
    refine ⟨takeBytes (size d - size a) r, ?_⟩
    have hcut := congrArg (takeBytes (size d)) hd
    have hsum : size d = size a + (size d - size a) := by omega
    rw [takeBytes_size_append, hsum, takeBytes_size_add] at hcut
    exact hcut.symm
  have hr : r = m ++ c := by simpa using hd
  subst hr
  refine ⟨a, c, by simp [slice], by simp [slice]⟩

theorem stands_of_slice? (h : t.slice? i j = some m) : Stands t ⟨i, j⟩ m := by
  unfold slice? at h
  split at h
  · next hb =>
    cases h
    exact stands_slice hb.2.1 hb.2.2 hb.1
  · cases h

end Text

end Phrasebook
