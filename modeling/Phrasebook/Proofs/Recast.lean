import Mathlib.Data.Set.Monotone
import Phrasebook.Proofs.Lookahead
import Phrasebook.Proofs.Shape

/-!
Texts in which some string literals have another content.

`Text.Recast` relates two texts that differ in the content of literals only, and says where the places
of the one are in the other. Places that are not inside a string keep their order
(`Text.Recast.strictMonoOn`).
-/
namespace Phrasebook

open Text (size)

/-- No lexeme with text begins at `pos` or later but before `stop`. -/
def Lexeme.Clear (ls : List Lexeme) (pos stop : Nat) : Prop :=
  ∀ l ∈ ls, l.kind.isSolid = true → pos ≤ l.span.start → stop ≤ l.span.start

namespace Text

variable {f : Nat → Nat} {ls : List Lexeme} {x y pos pos' : Nat} {t t' u rest : Text}

/-- From `pos` on there is `t`, and from `pos'` on the same text, but where a lexeme of `ls` is a
string it may have another content. The place `x` of the one text is `f x` in the other. -/
inductive Recast (f : Nat → Nat) (ls : List Lexeme) : Nat → Nat → Text → Text → Prop
  | nil {pos pos' : Nat} (place : f pos = pos') : Recast f ls pos pos' [] []
  | char {pos pos' : Nat} (place : f pos = pos') (c : Char) {t t' : Text}
      (h : Recast f ls (pos + c.utf8Size) (pos' + c.utf8Size) t t') :
      Recast f ls pos pos' (c :: t) (c :: t')
  | literal {pos pos' : Nat} (place : f pos = pos') {q : Quoting} {content content' : Text}
      (hq : q.Proper) (hc : ∀ more, q.Encloses content' more)
      (hl : ⟨.str q, ⟨pos, pos + size (q.wrap content)⟩, q.wrap content⟩ ∈ ls) {t t' : Text}
      (h : Recast f ls (pos + size (q.wrap content)) (pos' + size (q.wrap content')) t t') :
      Recast f ls pos pos' (q.wrap content ++ t) (q.wrap content' ++ t')

namespace Recast

theorem place (h : Recast f ls pos pos' t t') : f pos = pos' := by
  cases h <;> assumption

/-- The end of the one text is carried to that of the other. -/
theorem place_end (h : Recast f ls pos pos' t t') : f (pos + size t) = pos' + size t' := by
  induction h with
  | nil place => exact place
  | char _ c _ ih =>
    simp only [size, ← Nat.add_assoc]
    exact ih
  | literal _ _ _ _ _ ih =>
    simp only [size_append, ← Nat.add_assoc]
    exact ih

theorem akin (h : Recast f ls pos pos' t t') : Akin t t' := by
  induction h with
  | nil => exact .refl _
  | char _ c _ ih => exact ih.cons c
  | literal _ hq _ _ _ _ => exact hq.akin _ _ _ _

/-- A part in which no lexeme begins is the same on both sides. -/
theorem drop (h : Recast f ls pos pos' (u ++ rest) t') (hclear : Lexeme.Clear ls pos (pos + size u)) :
    ∃ rest', t' = u ++ rest' ∧ Recast f ls (pos + size u) (pos' + size u) rest rest' := by
  induction u generalizing pos pos' t' with
  | nil => exact ⟨t', rfl, h⟩
  | cons c u ih =>
    have hpos := c.utf8Size_pos
    have hsize (n : Nat) : n + c.utf8Size + size u = n + size (c :: u) := by
      rw [size, Nat.add_assoc]
    generalize ht : c :: u ++ rest = t at h
    cases h with
    | nil => cases ht
    | char _ d h =>
      cases ht
      obtain ⟨rest', rfl, hrest⟩ := ih h fun l hl hsolid hle => by
        rw [hsize]
        exact hclear l hl hsolid (by omega)
      rw [hsize, hsize] at hrest
      exact ⟨rest', rfl, hrest⟩
    | literal _ _ _ hl _ =>
      have := hclear _ hl rfl (Nat.le_refl _)
      simp only [size] at this
      omega

end Recast

theorem isBoundary_size_add (a t : Text) (n : Nat) :
    isBoundary (size a + n) (a ++ t) = isBoundary n t := by
  induction a with
  | nil => simp [size]
  | cons c a ih =>
    have hpos := c.utf8Size_pos
    have hne : (c.utf8Size + size a + n == 0) = false := beq_eq_false_iff_ne.2 (by omega)
    have hle : decide (c.utf8Size ≤ c.utf8Size + size a + n) = true := decide_eq_true (by omega)
    have hsub : c.utf8Size + size a + n - c.utf8Size = size a + n := by omega
    rw [List.cons_append, size, isBoundary, hne, hle, hsub, ih]
    rfl

/-- The places between the characters of `t`, which begins at `pos`, but not inside a string. -/
def outside (ls : List Lexeme) (pos : Nat) (t : Text) : Set Nat :=
  {x | pos ≤ x ∧ isBoundary (x - pos) t = true ∧
    ∀ l ∈ ls, ∀ q, l.kind = .str q → x ≤ l.span.start ∨ l.span.stop ≤ x}

theorem outside_append {a : Text} (h : x ∈ outside ls pos (a ++ t)) (hx : pos + size a ≤ x) :
    x ∈ outside ls (pos + size a) t := by
  obtain ⟨-, hbound, hapart⟩ := h
  have hsum : x - pos = size a + (x - (pos + size a)) := by omega
  rw [hsum, isBoundary_size_add] at hbound
  exact ⟨hx, hbound, hapart⟩

/-- The first place comes before those outside of what is left, and stays before them. -/
theorem strictMonoOn_outside {a : Text} {next : Nat} (hplace : f pos = pos') (hnext : pos' < next)
    (hfirst : ∀ x ∈ outside ls pos (a ++ t), x = pos ∨ pos + size a ≤ x)
    (hrest : StrictMonoOn f (outside ls (pos + size a) t) ∧
      ∀ x ∈ outside ls (pos + size a) t, next ≤ f x) :
    StrictMonoOn f (outside ls pos (a ++ t)) ∧ ∀ x ∈ outside ls pos (a ++ t), pos' ≤ f x := by
  have hsub : outside ls pos (a ++ t) ⊆ insert pos (outside ls (pos + size a) t) := by
    intro x hx
    exact (hfirst x hx).imp id (outside_append hx)
  have hge : ∀ x ∈ outside ls (pos + size a) t, pos ≤ x :=
    fun x hx => Nat.le_trans (Nat.le_add_right _ _) hx.1
  have hlt : ∀ x ∈ outside ls (pos + size a) t, pos < x → f pos < f x := by
    intro x hx _
    rw [hplace]
    exact Nat.lt_of_lt_of_le hnext (hrest.2 x hx)
  refine ⟨((strictMonoOn_insert_iff_of_forall_ge hge).2 ⟨hlt, hrest.1⟩).mono hsub, ?_⟩
  intro x hx
  rcases hsub hx with rfl | hx
  · exact Nat.le_of_eq hplace.symm
  · exact Nat.le_trans (Nat.le_of_lt hnext) (hrest.2 x hx)

/-- The places outside of strings keep their order. -/
theorem Recast.strictMonoOn (h : Recast f ls pos pos' t t') :
    StrictMonoOn f (outside ls pos t) ∧ ∀ x ∈ outside ls pos t, pos' ≤ f x := by
  induction h with
  | @nil pos pos' place =>
    have hone : ∀ x ∈ outside ls pos [], x = pos := by
      intro x hx
      have hle := hx.1
      have hend : x - pos = 0 := by simpa [isBoundary] using hx.2.1
      omega
    refine ⟨fun x hx y hy hxy => ?_, fun x hx => ?_⟩
    · rw [hone x hx, hone y hy] at hxy
      exact absurd hxy (Nat.lt_irrefl _)
    · rw [hone x hx, place]
  | @char pos pos' place c t t' _ ih =>
    have hnext : pos' < pos' + c.utf8Size := Nat.lt_add_of_pos_right c.utf8Size_pos
    refine strictMonoOn_outside (a := [c]) place hnext ?_ (by simpa [size] using ih)
    intro x hx
    have hle := hx.1
    have hbound := hx.2.1
    simp only [List.cons_append, isBoundary, Bool.or_eq_true, beq_iff_eq, Bool.and_eq_true,
      decide_eq_true_eq] at hbound
    simp only [size]
    omega
  | @literal pos pos' place q content content' hq _ hl t t' _ ih =>
    have hnext : pos' < pos' + size (q.wrap content') :=
      Nat.lt_add_of_pos_right (size_pos (hq.wrap_ne_nil content'))
    refine strictMonoOn_outside place hnext ?_ ih
    intro x hx
    rcases hx.2.2 _ hl q rfl with h | h
    · exact .inl (Nat.le_antisymm h hx.1)
    · exact .inr h

end Text

end Phrasebook
