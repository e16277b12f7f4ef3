import Mathlib.Tactic.Common

/-! What comes of steps that may fail, one after another. -/
namespace Phrasebook

variable {ε α β γ : Type} {first : Except ε α} {next : α → Except ε β} {f : α → β} {e : ε} {b : β}

/-- Two steps in a row go through exactly if each does. -/
theorem bind_ok_iff : (first >>= next) = .ok b ↔ ∃ a, first = .ok a ∧ next a = .ok b := by
  cases first <;> simp [bind, Except.bind]

/-- Two steps in a row fail as the first of them that does. -/
theorem bind_error_iff :
    (first >>= next) = .error e ↔ first = .error e ∨ ∃ a, first = .ok a ∧ next a = .error e := by
  cases first <;> simp [bind, Except.bind]

theorem map_ok_iff : first.map f = .ok b ↔ ∃ a, first = .ok a ∧ f a = b := by
  cases first <;> simp [Except.map]

theorem map_error_iff : first.map f = .error e ↔ first = .error e := by
  cases first <;> simp [Except.map]

theorem map_map {g : β → γ} : (first.map f).map g = first.map (g ∘ f) := by
  cases first <;> rfl

/-- A step that is known to go through. -/
theorem exists_ok_of_any {p : α → Bool} (h : first.toOption.any p = true) :
    ∃ a, first = .ok a ∧ p a = true := by
  cases first with
  | error e => cases h
  | ok a => exact ⟨a, rfl, h⟩

theorem exists_ok_of_isSome (h : first.toOption.isSome = true) : ∃ a, first = .ok a := by
  cases first with
  | error e => cases h
  | ok a => exact ⟨a, rfl⟩

end Phrasebook
