import Mathlib.Tactic.Common
import Phrasebook.FileTree

/-!
What work on files leaves behind.

`FileTree.Action.bind_on` takes a piece of work apart into its steps. A file that has been written is
found again with the text that was written (`FileTree.readText_of_writeDeep`).
-/
namespace Phrasebook

/-- The text of its own bytes. -/
theorem Text.ofBytes?_bytes (t : Text) : Text.ofBytes? t.bytes = some t := by
  have hbytes : (⟨t.bytes.toArray⟩ : ByteArray) = t.utf8Encode := by
    apply ByteArray.ext
    rw [List.utf8Encode, List.data_toByteArray]
    rfl
  have hvalid : t.utf8Encode.IsValidUTF8 := ByteArray.isValidUTF8_utf8Encode
  rw [ofBytes?, hbytes, String.fromUTF8?, dif_pos hvalid]
  exact congrArg some (String.toList_ofList (l := t))

namespace FileTree

variable {α β : Type} {t t' : FileTree} {p : Path} {place : List Text} {bytes : Bytes}

namespace Action

theorem ofExcept_on (r : Except Fault α) (t : FileTree) :
    (MonadExcept.ofExcept r : Action α).on t = (r, t) := by
  cases r <;> rfl

theorem bind_on (x : Action α) (f : α → Action β) (t : FileTree) :
    (x >>= f).on t = match x.on t with
      | (.ok a, t₁) => (f a).on t₁
      | (.error fault, t₁) => (.error fault, t₁) := by
  simp only [on, ExceptT.run_bind, StateT.run_bind]
  rcases StateT.run (ExceptT.run x) t with ⟨r, t₁⟩
  cases r <;> rfl

/-- Work that succeeds has succeeded in its first part. -/
theorem bind_on_eq_ok {x : Action α} {f : α → Action β} {b : β}
    (h : (x >>= f).on t = (.ok b, t')) : ∃ a t₁, x.on t = (.ok a, t₁) ∧ (f a).on t₁ = (.ok b, t') := by
  rw [bind_on] at h
  split at h
  · next a t₁ hx => exact ⟨a, t₁, hx, h⟩
  · cases h

end Action

theorem write_eq_ok (h : (write p bytes).on t = (.ok (), t')) :
    ∃ place, t.place? p = some place ∧ t.isDirAt place = false ∧ t' = t.putAt place bytes := by
  obtain ⟨_, _, hget, h⟩ := Action.bind_on_eq_ok h
  cases hget
  split at h
  · next place hplace =>
    split at h
    · cases h
    · next hdir =>
      cases h
      exact ⟨place, hplace, by simpa using hdir, rfl⟩
  · cases h

@[simp]
theorem isDirAt_putAt (t : FileTree) (place : List Text) (bytes : Bytes) :
    (t.putAt place bytes).isDirAt = t.isDirAt := rfl

theorem walk_putAt (t : FileTree) (place at_ : List Text) (bytes : Bytes)
    (parts : List Path.Part) : (t.putAt place bytes).walk at_ parts = t.walk at_ parts := by
  induction parts generalizing at_ with
  | nil => rfl
  | cons part parts ih =>
    simp only [walk, isDirAt_putAt]
    cases part <;> simp [ih]

/-- A new file changes no other way to a place. -/
theorem place?_putAt (t : FileTree) (place : List Text) (bytes : Bytes) (p : Path) :
    (t.putAt place bytes).place? p = t.place? p := by
  simp only [place?, walk_putAt, isDirAt_putAt]
  rfl

theorem fileAt?_putAt (t : FileTree) (place : List Text) (bytes : Bytes) :
    (t.putAt place bytes).fileAt? place = some bytes := by
  have hnone : (t.files.filter (·.1 != place)).find? (·.1 == place) = none := by
    refine List.find?_eq_none.2 fun x hx => ?_
    simpa using (List.mem_filter.1 hx).2
  simp [fileAt?, putAt, List.find?_append, hnone]

/-- What has been written is there and is read again. -/
theorem readText_of_writeDeep {text : Text} (h : (writeDeep p text.bytes).on t = (.ok (), t')) :
    t'.exists? p = true ∧ t'.readText p = .ok text := by
  obtain ⟨_, t₁, -, hwrite⟩ := Action.bind_on_eq_ok h
  obtain ⟨place, hplace, -, rfl⟩ := write_eq_ok hwrite
  have hfound : (t₁.putAt place text.bytes).place? p = some place := by rw [place?_putAt, hplace]
  have hread : (t₁.putAt place text.bytes).read p = .ok text.bytes := by
    rw [read, hfound, Option.bind_some, fileAt?_putAt]
  constructor
  · simp [exists?, hfound, fileAt?_putAt]
  · simp only [readText, hread, bind, Except.bind, Text.ofBytes?_bytes]
    rfl

end FileTree

end Phrasebook
