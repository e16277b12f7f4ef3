import Mathlib.Data.Set.Finite.Basic
import Mathlib.Tactic.Common
import Phrasebook.Unpack
import Phrasebook.Proofs.Files

/-!
Where unpacked files go.

A name is checked with `utf8` at its start, but written without it. So what is left of it may lead one
step above its start, and the check only makes sure that it stays below the directory which the
destination is in (`Unpack.isPrefix_of_unpack`). It stays below every destination exactly if the path
that is left passes the check by itself (`Unpack.inside_iff`), and not every such path does
(`Unpack.escapes`).
-/
namespace Phrasebook

namespace Text

/-- Either there is nothing to cut at, or the first piece ends where the first cut is. -/
theorem splitOn_cases (sep : Char) (t : Text) : splitOn sep t = [t] ∨
    ∃ piece r, t = piece ++ sep :: r ∧ splitOn sep t = piece :: splitOn sep r := by
  induction t with
  | nil => exact .inl rfl
  | cons c t ih =>
    by_cases hc : c = sep
    · exact .inr ⟨[], t, by simp [hc], by simp [splitOn, hc]⟩
    · rcases ih with hone | ⟨piece, r, rfl, hsplit⟩
      · exact .inl (by simp [splitOn, hc, hone])
      · exact .inr ⟨c :: piece, r, rfl, by simp [splitOn, hc, hsplit]⟩

theorem splitOn_append (sep : Char) (s t : Text) :
    splitOn sep (s ++ sep :: t) = splitOn sep s ++ splitOn sep t := by
  induction s with
  | nil => simp [splitOn]
  | cons c s ih =>
    by_cases hc : c = sep
    · simp [splitOn, hc, ih]
    · rcases splitOn_cases sep s with hone | ⟨piece, r, -, hsplit⟩
      · simp [splitOn, hc, ih, hone]
      · simp [splitOn, hc, ih, hsplit]

end Text

namespace Path

variable {p : Path} {t n : Text} {place above below : List Text} {ps : List Part}

/-- The place that parts lead to from another place, by their names alone. -/
def resolve (place : List Text) : List Part → List Text
  | [] => place
  | .root :: more => resolve [] more
  | .here :: more => resolve place more
  | .up :: more => resolve place.dropLast more
  | .name n :: more => resolve (place ++ [n]) more

/-- The parts of a path without what marks its start. -/
def steps (p : Path) : List Part := (Text.splitOn '/' p).filterMap partOf?

theorem steps_append (p q : Path) : steps (p ++ '/' :: q) = steps p ++ steps q := by
  simp [steps, Text.splitOn_append]

theorem steps_slash (p : Path) : steps ('/' :: p) = steps p := by
  simp [steps, Text.splitOn, partOf?]

theorem parts_eq_steps (hroot : p.head? ≠ some '/')
    (hhere : (Text.splitOn '/' p).head? ≠ some ['.']) : parts p = steps p := by
  unfold parts
  split
  · simp at hroot
  · simp [hhere, steps]

/-- A path of which the first part is a name begins with that name. -/
theorem append_of_head?_parts (h : (parts p).head? = some (.name n)) : ∃ rest,
    p = n ++ rest ∧ (rest = [] ∨ ∃ r, rest = '/' :: r) ∧ parts p = .name n :: steps rest := by
  have hroot : p.head? ≠ some '/' := by
    intro hr
    obtain ⟨r, rfl⟩ := List.head?_eq_some_iff.1 hr
    simp [parts] at h
  have hhere : (Text.splitOn '/' p).head? ≠ some ['.'] := by
    intro hd
    unfold parts at h
    split at h <;> simp [hd] at h
  have hparts := parts_eq_steps hroot hhere
  rw [hparts] at h ⊢
  -- The first piece is neither empty nor a point, so it is the first part.
  have hfirst {piece : Text} {more : List Text} (hsplit : Text.splitOn '/' p = piece :: more)
      (hne : piece ≠ []) : partOf? piece = some (.name n) ∧ piece = n := by
    have hdot : piece ≠ ['.'] := by
      rintro rfl
      simp [hsplit] at hhere
    by_cases hup : piece = ['.', '.']
    · simp [steps, hsplit, partOf?, hup] at h
    · have hpart : partOf? piece = some (.name piece) := by simp [partOf?, hne, hdot, hup]
      simp only [steps, hsplit, List.filterMap_cons, hpart, List.head?_cons, Option.some.injEq,
        Part.name.injEq] at h
      exact ⟨by rw [hpart, h], h⟩
  rcases Text.splitOn_cases '/' p with hone | ⟨piece, r, rfl, hsplit⟩
  · have hne : p ≠ [] := by
      rintro rfl
      simp [steps, Text.splitOn, partOf?] at h
    obtain ⟨hpart, rfl⟩ := hfirst hone hne
    refine ⟨[], by simp, .inl rfl, ?_⟩
    simp only [steps, hone, List.filterMap_cons, hpart]
    rfl
  · have hne : piece ≠ [] := by
      rintro rfl
      simp at hroot
    obtain ⟨hpart, rfl⟩ := hfirst hsplit hne
    refine ⟨'/' :: r, rfl, .inr ⟨r, rfl⟩, ?_⟩
    rw [steps_slash, steps, hsplit, List.filterMap_cons, hpart]
    rfl

/-- What is dropped from the end of a path has no parts. -/
theorem append_dropTail (t : Text) : ∃ dropped, t = dropped ++ dropTail t ∧
    (dropped = [] ∨ ∃ d, dropped = d ++ ['/']) ∧ steps dropped.reverse = [] := by
  fun_induction dropTail t with
  | case1 r ih =>
    obtain ⟨dropped, hr, hends, hsteps⟩ := ih
    refine ⟨'/' :: dropped, by rw [List.cons_append, ← hr], .inr ?_, ?_⟩
    · rcases hends with rfl | ⟨d, rfl⟩
      · exact ⟨[], rfl⟩
      · exact ⟨'/' :: d, rfl⟩
    · rw [List.reverse_cons, steps_append, hsteps]
      rfl
  | case2 r ih =>
    obtain ⟨dropped, hr, hends, hsteps⟩ := ih
    refine ⟨'.' :: '/' :: dropped, by rw [List.cons_append, List.cons_append, ← hr], .inr ?_, ?_⟩
    · rcases hends with rfl | ⟨d, rfl⟩
      · exact ⟨['.'], rfl⟩
      · exact ⟨'.' :: '/' :: d, rfl⟩
    · rw [List.reverse_cons, List.reverse_cons, List.append_assoc]
      exact (steps_append dropped.reverse ['.']).trans (by rw [hsteps]; rfl)
  | case3 t => exact ⟨[], rfl, .inl rfl, rfl⟩

/-- A path keeps its parts without the slashes and points at its end. -/
theorem parts_of_dropTail (hroot : t.head? ≠ some '/')
    (hhere : (Text.splitOn '/' t).head? ≠ some ['.']) :
    parts (dropTail t.reverse).reverse = steps t := by
  obtain ⟨dropped, ht, hends, hsteps⟩ := append_dropTail t.reverse
  have ht : t = (dropTail t.reverse).reverse ++ dropped.reverse := by
    rw [← List.reverse_append, ← ht, List.reverse_reverse]
  rcases hends with rfl | ⟨d, rfl⟩
  · rw [List.reverse_nil, List.append_nil] at ht
    rw [← ht]
    exact parts_eq_steps hroot hhere
  · rw [List.reverse_append, List.reverse_singleton, List.singleton_append] at ht hsteps
    rw [steps_slash] at hsteps
    generalize (dropTail t.reverse).reverse = kept at *
    subst ht
    rw [steps_append, hsteps, List.append_nil]
    refine parts_eq_steps (fun hr => hroot ?_) (fun hh => hhere ?_)
    · rw [List.head?_append, hr]
      rfl
    · rw [Text.splitOn_append, List.head?_append, hh]
      rfl

/-- Parts that never lead above their start stay below any place from which it is reached. -/
theorem isPrefix_resolve (h : Unpack.staysInside below.length ps = true) :
    above <+: resolve (above ++ below) ps := by
  induction ps generalizing below with
  | nil => exact List.prefix_append _ _
  | cons part ps ih =>
    cases part with
    | root => simp [Unpack.staysInside] at h
    | here => exact ih h
    | up =>
      simp only [Unpack.staysInside, Bool.and_eq_true, decide_eq_true_eq] at h
      have hne : below ≠ [] := List.ne_nil_of_length_pos h.1
      rw [resolve, List.dropLast_append_of_ne_nil hne]
      exact ih (by rw [List.length_dropLast]; exact h.2)
    | name n =>
      rw [resolve, List.append_assoc]
      exact ih (by rw [List.length_append]; exact h)

theorem not_mem_resolve (hplace : n ∉ place) (hps : .name n ∉ ps) : n ∉ resolve place ps := by
  induction ps generalizing place with
  | nil => exact hplace
  | cons part ps ih =>
    rw [List.mem_cons, not_or] at hps
    obtain ⟨hpart, hps⟩ := hps
    cases part with
    | root => exact ih (by simp) hps
    | here => exact ih hplace hps
    | up => exact ih (fun hn => hplace (List.mem_of_mem_dropLast hn)) hps
    | name m =>
      refine ih (fun hn => ?_) hps
      rcases List.mem_append.1 hn with hn | hn
      · exact hplace hn
      · exact hpart (by rw [List.mem_singleton.1 hn])

/-- Parts that lead above their start do not come back to a name that is not among them. -/
theorem not_mem_resolve_of_leaves (h : Unpack.staysInside below.length ps = false)
    (hbelow : n ∉ below) (hps : .name n ∉ ps) : n ∉ resolve (n :: below) ps := by
  induction ps generalizing below with
  | nil => simp [Unpack.staysInside] at h
  | cons part ps ih =>
    rw [List.mem_cons, not_or] at hps
    obtain ⟨hpart, hps⟩ := hps
    cases part with
    | root =>
      rw [resolve]
      exact not_mem_resolve (by simp) hps
    | here => exact ih h hbelow hps
    | up =>
      rw [resolve]
      rcases List.eq_nil_or_concat below with rfl | ⟨init, last, rfl⟩
      · exact not_mem_resolve (by simp) hps
      · simp only [Unpack.staysInside, List.concat_eq_append, List.length_append,
          List.length_singleton, Nat.add_sub_cancel, Nat.zero_lt_succ, decide_true,
          Bool.true_and] at h
        have hdrop : (n :: init.concat last).dropLast = n :: init := by
          rw [List.concat_eq_append, ← List.cons_append, List.dropLast_concat]
        rw [hdrop]
        exact ih h (fun hn => hbelow (by simp [hn])) hps
    | name m =>
      have hm : n ≠ m := fun hn => hpart (by rw [hn])
      rw [resolve, List.cons_append]
      refine ih ?_ ?_ hps
      · rw [List.length_append]
        exact h
      · simp [hbelow, hm]

end Path

namespace Unpack

open Phrasebook.Path (parts steps resolve)

variable {m : Archive.Member} {p : Path} {t : Text}

theorem steps_dropHead (t : Text) : steps (dropHead t) = steps t := by
  fun_induction dropHead t with
  | case1 r ih => rw [ih, Path.steps_slash]
  | case2 r ih =>
    have hpoint : steps ('.' :: '/' :: r) = steps ['.'] ++ steps r := Path.steps_append ['.'] r
    rw [ih, hpoint]
    rfl
  | case3 => rfl
  | case4 => rfl

/-- Without the slashes and points before it, a path begins with a part. -/
theorem head_dropHead (t : Text) : (dropHead t).head? ≠ some '/' ∧
    (Text.splitOn '/' (dropHead t)).head? ≠ some ['.'] := by
  fun_induction dropHead t with
  | case1 r ih => exact ih
  | case2 r ih => exact ih
  | case3 => decide
  | case4 t hslash hpoint hone =>
    constructor
    · intro h
      obtain ⟨r, rfl⟩ := List.head?_eq_some_iff.1 h
      exact hslash r rfl
    · intro h
      rcases Text.splitOn_cases '/' t with hsplit | ⟨piece, r, rfl, hsplit⟩
      · rw [hsplit] at h
        exact hone (by simpa using h)
      · rw [hsplit] at h
        obtain rfl : piece = ['.'] := by simpa using h
        exact hpoint r rfl

/-- The parts of a name are `utf8` and those of the path below it. -/
theorem parts_of_relative? {name : Text} (h : relative? name = some p) :
    parts name = .name (Text.of "utf8") :: parts p := by
  unfold relative? at h
  split at h
  · next hhead =>
    obtain ⟨rest, rfl, -, hparts⟩ := Path.append_of_head?_parts hhead
    have hdrop : (Text.of "utf8" ++ rest).drop 4 = rest := rfl
    simp only [hdrop] at h
    split at h
    · cases h
    · cases h
      obtain ⟨hroot, hhere⟩ := head_dropHead rest
      rw [hparts, Path.parts_of_dropTail hroot hhere, steps_dropHead]
  · cases h

/-- What is left of a name leads at most one step above its start. -/
theorem staysInside_of_target? (h : target? m = some p) : staysInside 1 (parts p) = true := by
  unfold target? at h
  split at h
  · cases h
  · next hkept =>
    have hinside : staysInside 0 (parts m.name) = true := by
      rw [Bool.or_eq_true, not_or, Bool.not_eq_true', Bool.not_eq_false, isEnclosed,
        Bool.and_eq_true] at hkept
      exact hkept.2.2
    rwa [parts_of_relative? h] at hinside

/-- A path stays below every destination exactly if it never leads above its own start. -/
theorem inside_iff (ps : List Path.Part) :
    (∀ above name, above ++ [name] <+: resolve (above ++ [name]) ps) ↔ staysInside 0 ps = true := by
  constructor
  · intro h
    by_contra hleaves
    have hinj : Function.Injective Path.Part.name := fun _ _ h => Path.Part.name.inj h
    obtain ⟨_, ⟨n, rfl⟩, hn⟩ :=
      (Set.infinite_range_of_injective hinj).exists_notMem_finset ps.toFinset
    have hps : .name n ∉ ps := fun hmem => hn (List.mem_toFinset.2 hmem)
    have hgone : n ∉ Path.resolve [n] ps :=
      Path.not_mem_resolve_of_leaves (Bool.eq_false_iff.2 hleaves) List.not_mem_nil hps
    exact hgone ((h [] n).subset (by simp))
  · intro h above name
    have hkept : above ++ [name] <+: Path.resolve (above ++ [name] ++ []) ps :=
      Path.isPrefix_resolve h
    simpa using hkept

/-- Every path that is written to comes from a member. -/
theorem exists_target_of_mem_writeAll {dest : Path} {members : List (Except Fault Archive.Member)}
    {written : List Path} {t t' : FileTree} (h : (writeAll dest members).on t = (.ok written, t'))
    (hp : p ∈ written) : ∃ m, .ok m ∈ members ∧ target? m = some p := by
  induction members generalizing written t with
  | nil =>
    cases h
    simp at hp
  | cons member members ih =>
    obtain ⟨m, _, hm, h⟩ := FileTree.Action.bind_on_eq_ok h
    rw [FileTree.Action.ofExcept_on] at hm
    cases hm
    split at h
    · obtain ⟨m', hm', htarget⟩ := ih h hp
      exact ⟨m', List.mem_cons_of_mem _ hm', htarget⟩
    · next q hq =>
      obtain ⟨_, _, -, h⟩ := FileTree.Action.bind_on_eq_ok h
      obtain ⟨_, _, -, h⟩ := FileTree.Action.bind_on_eq_ok h
      obtain ⟨_, _, -, h⟩ := FileTree.Action.bind_on_eq_ok h
      obtain ⟨more, _, hmore, h⟩ := FileTree.Action.bind_on_eq_ok h
      cases h
      rcases List.mem_cons.1 hp with rfl | hp
      · exact ⟨m, List.mem_cons_self, hq⟩
      · obtain ⟨m', hm', htarget⟩ := ih hmore hp
        exact ⟨m', List.mem_cons_of_mem _ hm', htarget⟩

/-- Whatever the archive, what is unpacked stays below the directory that the destination is in. -/
theorem isPrefix_of_unpack {dest : Path} {bytes : Bytes} {written : List Path} {t t' : FileTree}
    (h : (unpack dest bytes).on t = (.ok written, t')) (hp : p ∈ written) (above : List Text)
    (name : Text) : above <+: resolve (above ++ [name]) (parts p) := by
  obtain ⟨members, _, -, h⟩ := FileTree.Action.bind_on_eq_ok h
  obtain ⟨m, -, htarget⟩ := exists_target_of_mem_writeAll h hp
  exact Path.isPrefix_resolve (staysInside_of_target? htarget)

/-- A name that goes up from `utf8` and down again passes the check, and its path leads out of the
destination. -/
theorem escapes : ∃ p, target? ⟨Text.of "utf8/../utf8/c.json", .ok []⟩ = some p ∧
    ∀ above name, name ≠ Text.of "utf8" →
      ¬ above ++ [name] <+: resolve (above ++ [name]) (parts p) := by
  refine ⟨Text.of "../utf8/c.json", by decide, ?_⟩
  intro above name hname hprefix
  have hplace : resolve (above ++ [name]) (parts (Text.of "../utf8/c.json")) =
      above ++ [Text.of "utf8", Text.of "c.json"] := by
    have hparts : parts (Text.of "../utf8/c.json") =
        [.up, .name (Text.of "utf8"), .name (Text.of "c.json")] := by decide
    rw [hparts]
    simp [resolve]
  rw [hplace, List.prefix_append_right_inj, List.cons_prefix_cons] at hprefix
  exact hname hprefix.1

end Unpack

end Phrasebook
