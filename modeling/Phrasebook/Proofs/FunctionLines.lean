import Phrasebook.Proofs.LineIndex
import Phrasebook.Script.Chunk

/-!
The lines of a text that declare functions, read in order.

A text is cut into chunks from its last line to its first. Read from the first line on, with the chunk
that is open closed at each function, it is cut into the same ones (`Chunk.ofText_eq`).
-/
namespace Phrasebook

open Text (size withoutBreak dropBytes linesWithBreaks)

namespace Text

variable {p u w stop : Text}

/-- What ends a line has no part in what it begins with. -/
theorem afterLeading?_append_of_not_mem (hp : ∀ c ∈ p, c ∉ stop) :
    afterLeading? p (w ++ stop) = (afterLeading? p w).map (· ++ stop) := by
  induction p generalizing w with
  | nil => rfl
  | cons a p ih =>
    obtain ⟨ha, hp⟩ := List.forall_mem_cons.1 hp
    cases w with
    | nil =>
      cases stop with
      | nil => rfl
      | cons d stop =>
        have hne : a ≠ d := fun he => ha (he ▸ List.mem_cons_self)
        simp [afterLeading?, hne]
    | cons c w =>
      rw [List.cons_append, afterLeading?, afterLeading?, ih hp]
      split <;> rfl

theorem takeWhile_append_of_stop {f : Char → Bool} (hstop : ∀ c ∈ stop, f c = false) :
    (u ++ stop).takeWhile f = u.takeWhile f := by
  induction u with
  | nil =>
    cases stop with
    | nil => rfl
    | cons d stop => simp [hstop d List.mem_cons_self]
  | cons c u ih => simp only [List.cons_append, List.takeWhile_cons, ih]

/-- The function that a line declares does not depend on how the line ends. -/
theorem functionName?_append (hstop : ∀ c ∈ stop, c = '\r' ∨ c = '\n') :
    (u ++ stop).functionName? = u.functionName? := by
  have hblank : ∀ c ∈ stop, isBlankChar c = true := by
    intro c hc
    rcases hstop c hc with rfl | rfl <;> rfl
  have hname : ∀ c ∈ stop, (isLetterOrDigit c || c == '_') = false := by
    intro c hc
    rcases hstop c hc with rfl | rfl <;> rfl
  have hleads {p : Text} (hp : '\r' ∉ p ∧ '\n' ∉ p) : ∀ c ∈ p, c ∉ stop := by
    rintro c hc hmem
    rcases hstop c hmem with rfl | rfl
    · exact hp.1 hc
    · exact hp.2 hc
  have htrim : trimStart (u ++ stop) = trimStart u ++ (if (trimStart u).isEmpty then [] else stop) := by
    rw [trimStart, trimStart, List.dropWhile_append]
    split
    · next hempty =>
      rw [List.isEmpty_iff] at hempty
      rw [hempty, List.dropWhile_eq_nil_iff.2 hblank]
      rfl
    · rfl
  unfold functionName?
  simp only [htrim]
  split
  · rw [List.append_nil]
  · rw [afterLeading?_append_of_not_mem (hleads (by decide)),
      afterLeading?_append_of_not_mem (hleads (by decide)), ← Option.map_or, Option.map_map]
    exact congrArg (Option.map · _) (funext fun rest => takeWhile_append_of_stop hname)

end Text

theorem Text.exists_break (line : Text) :
    ∃ stop, line = withoutBreak line ++ stop ∧ ∀ c ∈ stop, c = '\r' ∨ c = '\n' := by
  unfold withoutBreak
  split
  · next r hr => exact ⟨['\r', '\n'], by simpa using congrArg List.reverse hr, by simp⟩
  · next r _ hr => exact ⟨['\n'], by simpa using congrArg List.reverse hr, by simp⟩
  · exact ⟨[], by simp, by simp⟩

theorem functionName?_withoutBreak (line : Text) :
    (withoutBreak line).functionName? = line.functionName? := by
  obtain ⟨stop, hline, hstop⟩ := Text.exists_break line
  conv_rhs => rw [hline]
  exact (Text.functionName?_append hstop).symm

namespace Chunk

variable {source : Text} {start stop pos : Nat} {name : Option Text} {chunks : List Chunk}

/-- The chunk of a range, unless it is empty. -/
def close (name : Option Text) (start stop : Nat) : List Chunk :=
  if start < stop then [⟨name, ⟨start, stop⟩⟩] else []

/-- The chunks of the lines from byte `pos` on, where a chunk has been open since `start`. -/
def ofLines (name : Option Text) (start pos : Nat) : List Text → List Chunk
  | [] => close name start pos
  | line :: more =>
    match line.functionName? with
    | none => ofLines name start (pos + line.size) more
    | some f => close name start pos ++ ofLines (some f) pos (pos + line.size) more

/-- The offsets from `pos` on without that of an empty last line. -/
def startsFrom (pos : Nat) (t : Text) : List Nat :=
  let starts := pos :: LineIndex.breaks pos t
  if starts.getLast? = some (pos + size t) then starts.dropLast else starts

theorem startsFrom_nil (pos : Nat) : startsFrom pos [] = [] := if_pos rfl

theorem startsFrom_line {u : Text} (hu : '\n' ∉ u) (pos : Nat) (r : Text) :
    startsFrom pos (u ++ '\n' :: r) = pos :: startsFrom (pos + size (u ++ ['\n'])) r := by
  have hsize : size (u ++ ['\n']) = size u + 1 := Text.size_append u ['\n']
  have hall : pos + size (u ++ '\n' :: r) = pos + size (u ++ ['\n']) + size r := by
    rw [List.append_cons, Text.size_append]
    omega
  have hbreaks : LineIndex.breaks pos (u ++ '\n' :: r) =
      (pos + size (u ++ ['\n'])) :: LineIndex.breaks (pos + size (u ++ ['\n'])) r := by
    rw [LineIndex.breaks_append, LineIndex.breaks_eq_nil hu, hsize]
    rfl
  simp only [startsFrom, hall, hbreaks, List.getLast?_cons_cons, List.dropLast_cons_cons]
  split <;> rfl

theorem startsFrom_last {u : Text} (hu : '\n' ∉ u) (hne : u ≠ []) (pos : Nat) :
    startsFrom pos u = [pos] := by
  have hpos := Text.size_pos hne
  have hlast : ¬ some pos = some (pos + size u) := by
    rw [Option.some.injEq]
    omega
  rw [startsFrom, LineIndex.breaks_eq_nil hu]
  exact if_neg hlast

theorem readLine_eq {before rest line : Text} {lines : List Text} (hsource : source = before ++ rest)
    (hlines : rest.linesWithBreaks = line :: lines) (stop : Nat) (chunks : List Chunk) :
    readLine source (size before) (stop, chunks) = match line.functionName? with
      | some f => (size before, ⟨some f, ⟨size before, stop⟩⟩ :: chunks)
      | none => (stop, chunks) := by
  cases hname : line.functionName? <;>
    simp only [readLine, hsource, Text.dropBytes_size_append, hlines, List.headD_cons,
      functionName?_withoutBreak, hname]

/-- What lines are read to from the last to the first: the rest of the chunk that is open in front of
them, which ends at `stop`, and their own chunks. -/
def ReadAs (pos : Nat) (lines : List Text) (read : Nat × List Chunk) : Prop :=
  pos ≤ read.1 ∧ ∀ name start, ofLines name start pos lines = close name start read.1 ++ read.2

/-- A line in front either belongs to what is open behind it or opens it. -/
theorem ReadAs.cons {before rest line : Text} {lines : List Text} (hsource : source = before ++ rest)
    (hlines : rest.linesWithBreaks = line :: lines) (hne : line ≠ []) {read : Nat × List Chunk}
    (h : ReadAs (size before + size line) lines read) :
    ReadAs (size before) (line :: lines) (readLine source (size before) read) := by
  obtain ⟨stop, chunks⟩ := read
  obtain ⟨hle, hread⟩ := h
  have hpos := Text.size_pos hne
  rw [readLine_eq hsource hlines]
  cases hname : line.functionName? with
  | none =>
    refine ⟨Nat.le_of_add_right_le hle, fun name start => ?_⟩
    simp only [ofLines, hname, hread]
  | some f =>
    have hlt : size before < stop := Nat.lt_of_lt_of_le (Nat.lt_add_of_pos_right hpos) hle
    refine ⟨Nat.le_refl _, fun name start => ?_⟩
    simp only [ofLines, hname, hread]
    rw [close, close, if_pos hlt, List.singleton_append]

/-- By induction on the lines, of which each is read after those behind it. -/
theorem readAs_starts {before rest : Text} (hsource : source = before ++ rest) :
    ReadAs (size before) rest.linesWithBreaks
      ((startsFrom (size before) rest).foldr (readLine source) (size source, [])) := by
  induction hlen : rest.length using Nat.strong_induction_on generalizing before rest with
  | _ n ih =>
    subst hlen
    have hend : ReadAs (size source) [] (size source, []) :=
      ⟨Nat.le_refl _, fun _ _ => (List.append_nil _).symm⟩
    rcases Text.line_or_last rest with hno | ⟨u, r, hu, rfl⟩
    · by_cases hne : rest = []
      · subst hne
        rw [List.append_nil] at hsource
        subst hsource
        rw [startsFrom_nil]
        exact hend
      · have hlines := Text.linesWithBreaks_last hno hne
        rw [startsFrom_last hno hne, hlines]
        refine ReadAs.cons hsource hlines hne ?_
        rw [← Text.size_append, ← hsource]
        exact hend
    · have hlines := Text.linesWithBreaks_line hu r
      have hrest : source = before ++ (u ++ ['\n']) ++ r := by
        rw [hsource, List.append_cons u, List.append_assoc before]
      rw [startsFrom_line hu, hlines]
      refine ReadAs.cons hsource hlines (by simp) ?_
      rw [← Text.size_append]
      refine ih r.length ?_ hrest rfl
      simp only [List.length_append, List.length_cons]
      omega

/-- From the first line on the same chunks are cut. -/
theorem ofText_eq (t : Text) : ofText t = ofLines none 0 0 t.linesWithBreaks := by
  have hstarts : lineStarts t = startsFrom (size []) t := by
    rw [lineStarts, startsFrom, size, Nat.zero_add]
    rfl
  obtain ⟨-, hread⟩ := readAs_starts (List.nil_append t).symm
  rw [← hstarts] at hread
  rw [ofText]
  generalize (lineStarts t).foldr (readLine t) (size t, []) = read at hread ⊢
  obtain ⟨stop, chunks⟩ := read
  have h : ofLines none 0 0 t.linesWithBreaks = close none 0 stop ++ chunks := hread none 0
  rw [h, close]
  change (if 0 < stop then _ else _) = _
  split <;> rfl

end Chunk

end Phrasebook
