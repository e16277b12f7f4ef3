import Phrasebook.Proofs.Chunks

/-!
The chunks of a text are its partition at the lines that declare functions.

While chunks are cut off, the lines of the open one are known: the first names it, and no other
declares a function (`Chunk.Headed`). So each chunk comes out headed by its own line, the next
begins where it ends, and together they have the lines of the text (`Chunk.Partition`).
-/
namespace Phrasebook

open Text (size)
open Text (withoutBreak)

namespace Chunk

variable {source : Text} {name : Option Text} {start stop pos : Nat} {chunks : List Chunk} {c : Chunk}

/-- The part of a text that a chunk is. -/
def text (source : Text) (c : Chunk) : Text := source.slice c.range.start c.range.stop

/-- Chunks from one place to another: none is empty, and each begins where the one before it ends. -/
def Joined (start stop : Nat) : List Chunk → Prop
  | [] => start = stop
  | c :: more => c.range.start = start ∧ start < c.range.stop ∧ Joined c.range.stop stop more

/-- The first line of a part is the one that names it, if it declares a function, and no other line of
it declares one. -/
def Headed (name : Option Text) (part : Text) : Prop :=
  ∃ first more, part.linesWithBreaks = first :: more ∧
    name = (withoutBreak first).functionName? ∧
    ∀ line ∈ more, (withoutBreak line).functionName? = none

/-- Chunks that make up a text from byte `start` on. -/
structure Partition (source : Text) (start : Nat) (chunks : List Chunk) : Prop where
  joined : Joined start (size source) chunks
  headed : ∀ c ∈ chunks, Headed c.name (c.text source)
  lines : chunks.flatMap (fun c => (c.text source).linesWithBreaks) =
    (source.dropBytes start).linesWithBreaks

/-- A chunk is cut off in front of others. -/
theorem Partition.close {before opened rest : Text} (hsource : source = before ++ opened ++ rest)
    (hopened : opened = [] ∨ Headed name opened)
    (hends : opened = [] ∨ opened.EndsLine ∨ rest = [])
    (h : Partition source (size (before ++ opened)) chunks) :
    Partition source (size before)
      (Chunk.close name (size before) (size (before ++ opened)) ++ chunks) := by
  by_cases hnil : opened = []
  · subst hnil
    rw [List.append_nil] at h ⊢
    rw [Chunk.close, if_neg (Nat.lt_irrefl _)]
    exact h
  have hsize := Text.size_append before opened
  have hpos := Text.size_pos hnil
  have hlt : size before < size (before ++ opened) := by omega
  have htext : text source ⟨name, ⟨size before, size (before ++ opened)⟩⟩ = opened := by
    have hs := (Text.stands_append before opened rest).slice_eq
    rw [← hsource, ← hsize] at hs
    exact hs
  rw [Chunk.close, if_pos hlt, List.singleton_append]
  refine ⟨⟨rfl, hlt, h.joined⟩, ?_, ?_⟩
  · refine List.forall_mem_cons.2 ⟨?_, h.headed⟩
    rw [htext]
    exact hopened.resolve_left hnil
  · have hrest : source.dropBytes (size (before ++ opened)) = rest := by
      rw [hsource, Text.dropBytes_size_append]
    have hall : source.dropBytes (size before) = opened ++ rest := by
      rw [hsource, List.append_assoc, Text.dropBytes_size_append]
    rw [List.flatMap_cons, h.lines, htext, hrest, hall]
    rcases hends with hends | hends | rfl
    · exact absurd hends hnil
    · exact (Text.linesWithBreaks_append (.inr hends) rest).symm
    · simp [Text.linesWithBreaks]

/-- One more line of a part that declares no function. -/
theorem Headed.snoc {opened line : Text} (hopened : (opened = [] ∧ name = none) ∨ Headed name opened)
    (hends : opened = [] ∨ opened.EndsLine) (hline : line.linesWithBreaks = [line])
    (hname : line.functionName? = none) : Headed name (opened ++ line) := by
  rw [← functionName?_withoutBreak] at hname
  rw [Headed, Text.linesWithBreaks_append hends, hline]
  rcases hopened with ⟨rfl, rfl⟩ | ⟨first, more, hlines, hfirst, hmore⟩
  · exact ⟨line, [], rfl, hname.symm, by simp⟩
  · refine ⟨first, more ++ [line], by rw [hlines]; rfl, hfirst, ?_⟩
    exact List.forall_mem_append.2 ⟨hmore, by simpa using hname⟩

/-- The chunks of the lines of `rest`, where the chunk of `opened` has been open since its start. By
induction on the lines: each belongs to the open chunk or opens the next. -/
theorem partition_ofLines {before opened rest : Text} (hsource : source = before ++ opened ++ rest)
    (hopened : (opened = [] ∧ name = none) ∨ Headed name opened)
    (hends : opened = [] ∨ opened.EndsLine ∨ rest = []) :
    Partition source (size before)
      (ofLines name (size before) (size (before ++ opened)) rest.linesWithBreaks) := by
  have hheaded : opened = [] ∨ Headed name opened := hopened.imp And.left id
  induction hlen : rest.length using Nat.strong_induction_on
    generalizing name before opened rest with
  | _ n ih =>
    subst hlen
    by_cases hnil : rest = []
    · subst hnil
      rw [List.append_nil] at hsource
      have hnone : Partition source (size (before ++ opened)) [] := by
        subst hsource
        refine ⟨rfl, by simp, ?_⟩
        have hdrop := Text.dropBytes_size_append (before ++ opened) []
        rw [List.append_nil] at hdrop
        rw [hdrop]
        rfl
      rw [← List.append_nil (before ++ opened)] at hsource
      have h := Partition.close hsource hheaded hends hnone
      rwa [List.append_nil] at h
    obtain ⟨line, r, rfl, hne, hlines, hline⟩ := Text.exists_line hnil
    have hlt : r.length < (line ++ r).length := by
      have := List.length_pos_iff.2 hne
      simp only [List.length_append]
      omega
    have hends : opened = [] ∨ opened.EndsLine := by
      rcases hends with h | h | h
      · exact .inl h
      · exact .inr h
      · exact absurd h hnil
    have hone : line.linesWithBreaks = [line] := by
      rcases hline with hend | rfl
      · rw [Text.linesWithBreaks_append (.inr hend)] at hlines
        exact List.append_cancel_right hlines
      · rwa [List.append_nil] at hlines
    have hlast (part : Text) : part ++ line = [] ∨ (part ++ line).EndsLine ∨ r = [] :=
      .inr (hline.imp_left fun h => h.append part)
    have hall : source = before ++ opened ++ line ++ r := by rw [hsource, List.append_assoc _ line]
    rw [hlines, ofLines, ← Text.size_append]
    split
    · next hname =>
      have hmore : Headed name (opened ++ line) := .snoc hopened hends hone hname
      rw [List.append_assoc before]
      exact ih r.length hlt (by rw [hall]; simp) (.inr hmore) (hlast opened) (.inr hmore) rfl
    · next f hname =>
      have hfirst : Headed (some f) line :=
        ⟨line, [], hone, by rw [functionName?_withoutBreak, hname], by simp⟩
      have hnext := ih r.length hlt hall (.inr hfirst) (hlast []) (.inr hfirst) rfl
      exact hnext.close hsource hheaded (hends.imp_right .inl)

theorem name_of_mem_close (h : c ∈ close name start pos) : c.name = name := by
  rw [close] at h
  split at h
  · rw [List.mem_singleton.1 h]
  · cases h

/-- A chunk that a line opens is named. -/
theorem name_ne_none_of_mem {f : Text} {lines : List Text}
    (h : c ∈ ofLines (some f) start pos lines) : c.name ≠ none := by
  induction lines generalizing f start pos with
  | nil =>
    rw [name_of_mem_close h]
    exact Option.some_ne_none f
  | cons line lines ih =>
    rw [ofLines] at h
    split at h
    · exact ih h
    · rcases List.mem_append.1 h with h | h
      · rw [name_of_mem_close h]
        exact Option.some_ne_none f
      · exact ih h

theorem name_ne_none_of_mem_tail {lines : List Text} (h : c ∈ (ofLines name start pos lines).tail) :
    c.name ≠ none := by
  induction lines generalizing pos with
  | nil =>
    rw [ofLines, close] at h
    split at h <;> cases h
  | cons line lines ih =>
    rw [ofLines] at h
    split at h
    · exact ih h
    · rw [close] at h
      split at h
      · exact name_ne_none_of_mem h
      · exact name_ne_none_of_mem (List.mem_of_mem_tail h)

/-- The chunks of a text are consecutive parts of it, none empty, with its lines; each has the name
that its first line declares and no other line that declares one. Only the first chunk can be without
a name, and only the empty text has no chunk. -/
theorem ofText_partition (source : Text) :
    Partition source 0 (ofText source) ∧
      (∀ c ∈ (ofText source).tail, c.name ≠ none) ∧
      (ofText source = [] ↔ source = []) := by
  have h : Partition source 0 (ofText source) :=
    ofText_eq source ▸ @partition_ofLines source none [] [] source rfl (.inl ⟨rfl, rfl⟩) (.inl rfl)
  refine ⟨h, fun c hc => name_ne_none_of_mem_tail (ofText_eq source ▸ hc), fun hnil => ?_, ?_⟩
  · by_contra hne
    have hjoined := h.joined
    have hpos := Text.size_pos hne
    rw [hnil] at hjoined
    have hsize : 0 = size source := hjoined
    omega
  · rintro rfl
    rfl

example : ofText (Text.of "var a\n func f():\n\tpass\nstatic func g():\n") =
    [⟨none, ⟨0, 6⟩⟩, ⟨some (Text.of "f"), ⟨6, 23⟩⟩, ⟨some (Text.of "g"), ⟨23, 40⟩⟩] := by
  decide +kernel

end Chunk

end Phrasebook
