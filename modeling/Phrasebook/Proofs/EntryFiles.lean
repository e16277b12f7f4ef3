import Phrasebook.EntryFile
import Phrasebook.Proofs.Files
import Phrasebook.Proofs.JsonText

/-!
Files of entries read again.

A file holds all of an entry but its positions. A context or type that an entry does not have is left
out, so that it stays apart from an empty one. What is read from a file of entries is therefore what
was written, without positions (`EntryFile.read_of_write`).
-/
namespace Phrasebook

namespace Entry

/-- The entry as a file holds it. -/
def unplaced (e : Entry) : Entry := { e with positions := [] }

@[simp] theorem fingerprint_unplaced (e : Entry) : e.unplaced.fingerprint = e.fingerprint := rfl

theorem proper_toJson (e : Entry) : Json.Proper e.toJson := by
  refine Json.proper_record fun f hf => ?_
  simp only [List.mem_append, Option.mem_toList, Option.map_eq_some_iff] at hf
  rcases hf with (hf | ⟨c, -, rfl⟩) | ⟨t, -, rfl⟩
  · simp only [List.mem_cons, List.not_mem_nil, or_false] at hf
    rcases hf with rfl | rfl | rfl <;> exact .text _
  · exact .text c
  · exact .text t

/-- The members of an entry; those it does not have are missing. -/
theorem members?_toJson (e : Entry) :
    e.toJson.members? ["key", "original", "translation", "context", "type"] =
      some [some (.text e.key), some (.text e.phrase), some (.text e.rendition),
        e.context.map .text, e.type.map .text] := by
  obtain ⟨key, phrase, rendition, context, type, positions⟩ := e
  cases context <;> cases type <;> rfl

theorem orElse_text? (t : Text) : Json.orElse [] Json.text? (some (.text t)) = some t := rfl

theorem orElse_optionalText? (t : Option Text) :
    Json.orElse none Json.optionalText? (t.map .text) = some t := by
  cases t <;> rfl

theorem ofJson?_toJson (e : Entry) : ofJson? e.toJson = some e.unplaced := by
  simp only [ofJson?, members?_toJson, Option.bind_eq_bind, Option.bind_some, orElse_text?,
    orElse_optionalText?]
  rfl

end Entry

namespace EntryFile

theorem proper_entries (entries : List Entry) :
    Json.Proper (.array (entries.map (·.toJson))) :=
  .array (List.forall_mem_map.2 fun e _ => e.proper_toJson)

theorem mapM_ofJson? (entries : List Entry) :
    (entries.map (·.toJson)).mapM Entry.ofJson? = some (entries.map Entry.unplaced) := by
  induction entries with
  | nil => rfl
  | cons e entries ih =>
    rw [List.map_cons, List.mapM_cons, Entry.ofJson?_toJson, ih]
    rfl

/-- A file of entries begins with the bracket of their list. -/
theorem render_eq_cons (entries : List Entry) : ∃ r, render entries = '[' :: r := by
  cases entries with
  | nil => exact ⟨_, rfl⟩
  | cons e entries =>
    rw [render, List.map_cons, Json.pretty]
    exact ⟨_, rfl⟩

theorem parse_render (entries : List Entry) :
    parse (render entries) = .ok (entries.map Entry.unplaced) := by
  obtain ⟨r, hr⟩ := render_eq_cons entries
  have hmark : (render entries).dropMark = render entries := by rw [hr]; rfl
  have hblank : (render entries).isBlank = false := by rw [hr]; rfl
  have hread := Json.read_of_written (Json.written_pretty (proper_entries entries) 0)
  simp only [parse, hmark, hblank, Bool.false_eq_true, if_false]
  rw [render, hread]
  simp only [Option.bind_some, Json.list?, mapM_ofJson?]

/-- The text of a file of entries holds these entries, whatever their texts are, without their
positions and with the same fingerprints; so does a file after it has been written. -/
theorem read_of_write (entries : List Entry) :
    parse (render entries) = .ok (entries.map Entry.unplaced) ∧
      (entries.map Entry.unplaced).map Entry.fingerprint = entries.map Entry.fingerprint ∧
      ∀ t t' p, (write p entries).on t = (.ok (), t') →
        read t' p = .ok (entries.map Entry.unplaced) := by
  refine ⟨parse_render entries, by simp [Function.comp_def], fun t t' p h => ?_⟩
  rw [read, (FileTree.readText_of_writeDeep h).2]
  exact parse_render entries

/-- An entry with quotes, escapes and characters beyond one unit, with an empty context and without
type, in a directory that is made for its file. -/
theorem read_of_write_escaped :
    let e : Entry := ⟨['k'], Text.of "a\"\\\u0001\n😀", [], some [], none, [⟨1, 0, 1, 4⟩]⟩
    let p : Path := Text.of "out/a.json"
    ∃ t', (write p [e]).on ⟨[], [], []⟩ = (.ok (), t') ∧
      read t' p = .ok [{ e with positions := [] }] := by
  intro e p
  have hwrite : (write p [e]).on ⟨[], [], []⟩ =
      (.ok (), ⟨[], [[Text.of "out"]], [([Text.of "out", Text.of "a.json"], (render [e]).bytes)]⟩) :=
    rfl
  exact ⟨_, hwrite, (read_of_write [e]).2.2 _ _ _ hwrite⟩

end EntryFile

end Phrasebook
