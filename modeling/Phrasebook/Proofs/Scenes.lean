import Mathlib.Data.Set.Function
import Phrasebook.Proofs.Keeping
import Phrasebook.Proofs.Patterns

/-!
What is found in a scene.

The entries of a scene are its shown lines without repetition, in the order of first occurrence, and
each has the places of its value on all lines equal to its own (`Scene.parse_exact`). The scan adds one
line after another to the entries that it has (`Scene.Gathered.join`, `Scene.Gathered.grow`); it knows
them by fingerprints, which are taken of values with their lines and therefore tell lines apart
(`Scene.Gathered.fingerprint_iff`).
-/
namespace Phrasebook

namespace Scene

variable {line lead value : Text} {lines : List Text} {n : Nat} {e : Entry}
  {numbered : List (Text × Nat)} {entries : List Entry} {table : Table Entry}

/-- The line has a value, and it is one that is shown to people. -/
def Shows (line lead value : Text) : Prop := Valued line lead value ∧ value.isTranslatable = true

def Shown (line : Text) : Prop := ∃ lead value, Shows line lead value

theorem any_value?_iff : (value? line).any (·.2.isTranslatable) = true ↔ Shown line := by
  simp only [Option.any_eq_true, Prod.exists, value?_eq_some_iff, Shown, Shows]

instance : DecidablePred Shown := fun _ => decidable_of_iff _ any_value?_iff

theorem Shows.unique {lead' value' : Text} (h : Shows line lead value)
    (h' : Shows line lead' value') : lead = lead' ∧ value = value' := h.1.unique h'.1

/-- Where a value stands on the line of a number. -/
def spot (lead value : Text) (n : Nat) : Position :=
  ⟨n, lead.length, n, lead.length + value.length⟩

/-- The entry of a value that stands on the lines of some numbers. -/
def entryOf (line lead value : Text) (numbers : List Nat) : Entry :=
  { Entry.new value (some line) with positions := numbers.map (spot lead value) }

theorem ofLine?_eq_some_iff : ofLine? n line = some e ↔
    ∃ lead value, Shows line lead value ∧ e = entryOf line lead value [n] := by
  have hlead {rest : Text} (h : property? line = some rest) :
      (line.take (line.length - rest.length)).length = line.length - rest.length := by
    rw [List.length_take]
    omega
  simp only [Shows, ← value?_eq_some_iff, value?, ofLine?]
  cases hrest : property? line with
  | none => simp
  | some rest =>
    simp only [Option.bind_eq_bind, Option.bind_some, Option.map_some, Option.some.injEq,
      Prod.mk.injEq]
    split
    · next htranslatable =>
      constructor
      · rintro h
        cases h
        refine ⟨_, _, ⟨⟨rfl, rfl⟩, htranslatable⟩, ?_⟩
        simp only [entryOf, spot, hlead hrest, List.map_cons, List.map_nil]
      · rintro ⟨_, _, ⟨⟨rfl, rfl⟩, -⟩, rfl⟩
        simp only [entryOf, spot, hlead hrest, List.map_cons, List.map_nil]
    · next hno =>
      refine iff_of_false (by simp) ?_
      rintro ⟨_, _, ⟨⟨rfl, rfl⟩, htranslatable⟩, -⟩
      exact hno htranslatable

/-! ### Lines with their numbers -/

/-- The lines of a text without their ends. -/
def linesOf (content : Text) : List Text := content.normalize.linesWithBreaks.map Text.withoutBreak

/-- The entries of numbered lines. -/
def found (numbered : List (Text × Nat)) : List Entry :=
  numbered.flatMap fun x => (ofLine? x.2 x.1).toList

theorem ofLines_eq (n : Nat) (lines : List Text) :
    ofLines n lines = found ((lines.map Text.withoutBreak).zipIdx n) := by
  induction lines generalizing n with
  | nil => rfl
  | cons line lines ih =>
    rw [ofLines, ih, List.map_cons, List.zipIdx_cons, found, found, List.flatMap_cons]

/-- The numbers of the lines that are equal to one. -/
def numbersOf (numbered : List (Text × Nat)) (line : Text) : List Nat :=
  (numbered.filter (·.1 == line)).map (·.2)

theorem numbersOf_concat (numbered : List (Text × Nat)) (a line : Text) (n : Nat) :
    numbersOf (numbered ++ [(a, n)]) line =
      numbersOf numbered line ++ if a = line then [n] else [] := by
  rw [numbersOf, List.filter_append, List.map_append, numbersOf]
  by_cases h : a = line
  · simp [h]
  · simp [h]

theorem numbersOf_eq_nil (h : line ∉ numbered.map (·.1)) : numbersOf numbered line = [] := by
  rw [numbersOf, List.map_eq_nil_iff, List.filter_eq_nil_iff]
  intro x hx heq
  exact h (List.mem_map.2 ⟨x, hx, beq_iff_eq.1 heq⟩)

theorem mem_numbersOf_zipIdx : n ∈ numbersOf (lines.zipIdx 1) line ↔
    0 < n ∧ lines[n - 1]? = some line := by
  simp only [numbersOf, List.mem_map, List.mem_filter, beq_iff_eq, Prod.exists,
    List.mk_mem_zipIdx_iff_le_and_getElem?_sub]
  constructor
  · rintro ⟨_, _, ⟨h, rfl⟩, rfl⟩
    exact h
  · intro h
    exact ⟨line, n, ⟨h, rfl⟩, rfl⟩

theorem pairwise_numbersOf_zipIdx (lines : List Text) (line : Text) :
    (numbersOf (lines.zipIdx 1) line).Pairwise (· < ·) := by
  have hall : ((lines.zipIdx 1).map Prod.snd).Pairwise (· < ·) := by
    rw [List.zipIdx_map_snd]
    exact List.pairwise_lt_range'
  exact hall.sublist (List.filter_sublist.map _)

/-! ### Entries by fingerprint -/

/-- What the digests of the entries are taken of: values, and behind them their lines. -/
def digested (lines : List Text) : Set Text :=
  {x | ∃ line ∈ lines, ∃ lead value, Shows line lead value ∧ x = value ++ line}

/-- The entries of numbered lines: one for each shown line, in the order of first occurrence, with the
places of its value on all lines equal to it. Keys may have been given to them. -/
structure Gathered (numbered : List (Text × Nat)) (entries : List Entry) : Prop where
  contexts : entries.map (·.context) =
    ((numbered.map (·.1)).filter (Shown ·)).eraseDups.map some
  entries : ∀ e ∈ entries, ∃ line lead, Shows line lead e.phrase ∧
    e = { entryOf line lead e.phrase (numbersOf numbered line) with key := e.key }

theorem Gathered.of_mem (h : Gathered numbered entries) (he : e ∈ entries) :
    ∃ line lead, e.context = some line ∧ Shows line lead e.phrase ∧
      e = { entryOf line lead e.phrase (numbersOf numbered line) with key := e.key } := by
  obtain ⟨line, lead, hshows, heq⟩ := h.entries e he
  exact ⟨line, lead, by rw [heq]; rfl, hshows, heq⟩

theorem Gathered.exists_iff (h : Gathered numbered entries) :
    (∃ e ∈ entries, e.context = some line) ↔ line ∈ numbered.map (·.1) ∧ Shown line := by
  have hmem : some line ∈ entries.map (·.context) ↔ line ∈ numbered.map (·.1) ∧ Shown line := by
    rw [h.contexts, List.mem_map_of_injective (Option.some_injective _), List.mem_eraseDups,
      List.mem_filter, decide_eq_true_iff]
  rw [← hmem, List.mem_map]

/-- If digests tell texts apart, the entry of a line is known by its fingerprint. -/
theorem Gathered.fingerprint_iff (h : Gathered numbered entries)
    (hinj : Set.InjOn Digest.ofText (digested lines)) (hsub : ∀ x ∈ numbered, x.1 ∈ lines)
    (hline : line ∈ lines) (hshows : Shows line lead value) (he : e ∈ entries) :
    e.fingerprint = Digest.ofText (value ++ line) ↔ e.context = some line := by
  obtain ⟨line', lead', hcontext, hshows', -⟩ := h.of_mem he
  have hfingerprint : e.fingerprint = Digest.ofText (e.phrase ++ line') := by
    rw [Entry.fingerprint, hcontext]
    rfl
  obtain ⟨⟨x, hx, rfl⟩, -⟩ : (∃ x ∈ numbered, x.1 = line') ∧ Shown line' := by
    simpa using h.exists_iff.1 ⟨e, he, hcontext⟩
  rw [hfingerprint, hcontext, Option.some.injEq]
  constructor
  · intro hdigest
    have htext := hinj ⟨_, hsub x hx, _, _, hshows', rfl⟩ ⟨_, hline, _, _, hshows, rfl⟩ hdigest
    exact hshows'.1.eq_of_append hshows.1 htext
  · rintro rfl
    rw [(hshows'.unique hshows).2]

/-- The shown lines, with one more. -/
theorem filter_shown_concat (numbered : List (Text × Nat)) (line : Text) (n : Nat) :
    ((numbered ++ [(line, n)]).map (·.1)).filter (Shown ·) =
      (numbered.map (·.1)).filter (Shown ·) ++ if Shown line then [line] else [] := by
  rw [List.map_append, List.filter_append]
  by_cases h : Shown line <;> simp [h]

theorem Gathered.skip (h : Gathered numbered entries) (hno : ¬ Shown line) (n : Nat) :
    Gathered (numbered ++ [(line, n)]) entries := by
  refine ⟨?_, fun e he => ?_⟩
  · rw [h.contexts, filter_shown_concat, if_neg hno, List.append_nil]
  · obtain ⟨line', lead', hshows', heq⟩ := h.entries e he
    have hne : line ≠ line' := by
      rintro rfl
      exact hno ⟨_, _, hshows'⟩
    refine ⟨line', lead', hshows', ?_⟩
    rw [numbersOf_concat, if_neg hne, List.append_nil]
    exact heq

/-- A line that was there before is put to its entry. -/
theorem Gathered.join (h : Gathered numbered entries) (hthere : line ∈ numbered.map (·.1))
    (hshows : Shows line lead value) (n : Nat) :
    Gathered (numbered ++ [(line, n)]) (entries.map fun e =>
      if e.context = some line then { e with positions := e.positions ++ [spot lead value n] }
      else e) := by
  have hshown : Shown line := ⟨lead, value, hshows⟩
  refine ⟨?_, fun d hd => ?_⟩
  · rw [filter_shown_concat, if_pos hshown, Index.eraseDups_concat,
      if_pos (List.mem_filter.2 ⟨hthere, decide_eq_true hshown⟩), ← h.contexts, List.map_map]
    refine List.map_congr_left fun e _ => ?_
    simp only [Function.comp_apply]
    split <;> rfl
  · obtain ⟨e, he, rfl⟩ := List.mem_map.1 hd
    obtain ⟨line', lead', hcontext, hshows', heq⟩ := h.of_mem he
    simp only [hcontext, Option.some.injEq]
    by_cases hsame : line' = line
    · subst hsame
      obtain ⟨rfl, rfl⟩ := hshows'.unique hshows
      refine ⟨line', lead', ?_⟩
      rw [if_pos rfl, numbersOf_concat, if_pos rfl]
      refine ⟨hshows', ?_⟩
      rw [heq]
      simp only [entryOf, List.map_append, List.map_singleton]
      rfl
    · refine ⟨line', lead', ?_⟩
      rw [if_neg hsame, numbersOf_concat, if_neg (Ne.symm hsame), List.append_nil]
      exact ⟨hshows', heq⟩

/-- A line that was not there before gets an entry. -/
theorem Gathered.grow (h : Gathered numbered entries) (hnew : line ∉ numbered.map (·.1))
    (hshows : Shows line lead value) (n : Nat) :
    Gathered (numbered ++ [(line, n)]) (entries ++ [entryOf line lead value [n]]) := by
  have hshown : Shown line := ⟨lead, value, hshows⟩
  refine ⟨?_, fun e he => ?_⟩
  · have hno : line ∉ (numbered.map (·.1)).filter (Shown ·) :=
      fun hmem => hnew (List.mem_filter.1 hmem).1
    rw [filter_shown_concat, if_pos hshown, Index.eraseDups_concat, if_neg hno, List.map_append,
      List.map_append, h.contexts]
    rfl
  · rcases List.mem_append.1 he with he | he
    · obtain ⟨line', lead', hcontext, hshows', heq⟩ := h.of_mem he
      have hne : line ≠ line' := by
        rintro rfl
        exact hnew (h.exists_iff.1 ⟨e, he, hcontext⟩).1
      refine ⟨line', lead', hshows', ?_⟩
      rw [numbersOf_concat, if_neg hne, List.append_nil]
      exact heq
    · rw [List.mem_singleton.1 he]
      refine ⟨line, lead, hshows, ?_⟩
      rw [numbersOf_concat, numbersOf_eq_nil hnew, if_pos rfl]
      rfl

/-- A table of entries by their fingerprints. -/
structure Filed (numbered : List (Text × Nat)) (table : Table Entry) : Prop where
  keys : ∀ x ∈ table, x.1 = x.2.fingerprint
  gathered : Gathered numbered (table.map (·.2))

/-- The step of the scan for a shown line. -/
theorem Filed.insert (h : Filed numbered table)
    (hinj : Set.InjOn Digest.ofText (digested lines)) (hsub : ∀ x ∈ numbered, x.1 ∈ lines)
    (hline : line ∈ lines) (hshows : Shows line lead value) (n : Nat) :
    Filed (numbered ++ [(line, n)]) (insert table (entryOf line lead value [n])) := by
  have hkey : ∀ x ∈ table,
      x.1 = (entryOf line lead value [n]).fingerprint ↔ x.2.context = some line := by
    intro x hx
    rw [h.keys x hx]
    exact h.gathered.fingerprint_iff hinj hsub hline hshows (List.mem_map_of_mem hx)
  have hany : table.any (·.1 == (entryOf line lead value [n]).fingerprint) = true ↔
      line ∈ numbered.map (·.1) := by
    have hshown : Shown line := ⟨lead, value, hshows⟩
    refine Iff.trans ?_ (and_iff_left hshown)
    rw [← h.gathered.exists_iff, List.any_eq_true]
    constructor
    · rintro ⟨x, hx, heq⟩
      exact ⟨x.2, List.mem_map_of_mem hx, (hkey x hx).1 (beq_iff_eq.1 heq)⟩
    · rintro ⟨_, he, hcontext⟩
      obtain ⟨x, hx, rfl⟩ := List.mem_map.1 he
      exact ⟨x, hx, beq_iff_eq.2 ((hkey x hx).2 hcontext)⟩
  rw [Scene.insert]
  split
  · next hthere =>
    refine ⟨fun y hy => ?_, ?_⟩
    · obtain ⟨⟨fingerprint, old⟩, hx, rfl⟩ := List.mem_map.1 hy
      have hold := h.keys _ hx
      dsimp only
      split <;> exact hold
    · have hjoin := h.gathered.join (hany.1 hthere) hshows n
      rw [List.map_map] at hjoin ⊢
      convert hjoin using 1
      refine List.map_congr_left fun x hx => ?_
      simp only [Function.comp_apply, hkey x hx]
      split <;> rfl
  · next hnew =>
    refine ⟨fun y hy => ?_, ?_⟩
    · rcases List.mem_append.1 hy with hy | hy
      · exact h.keys y hy
      · rw [List.mem_singleton.1 hy]
    · rw [List.map_append]
      exact h.gathered.grow (mt hany.2 hnew) hshows n

/-- The scan of numbered lines, by induction from the last one. -/
theorem filed_found (hinj : Set.InjOn Digest.ofText (digested lines))
    (hsub : ∀ x ∈ numbered, x.1 ∈ lines) :
    Filed numbered ((found numbered).foldl Scene.insert []) := by
  induction numbered using List.reverseRecOn with
  | nil => exact ⟨by simp [found], by simp [found], by simp [found]⟩
  | append_singleton numbered x ih =>
    obtain ⟨line, n⟩ := x
    obtain ⟨hbefore, hline⟩ := List.forall_mem_append.1 hsub
    have hline := hline _ List.mem_cons_self
    have hlast : found (numbered ++ [(line, n)]) = found numbered ++ (ofLine? n line).toList := by
      rw [found, List.flatMap_append, List.flatMap_singleton, found]
    rw [hlast, List.foldl_append]
    cases he : ofLine? n line with
    | none =>
      have hno : ¬ Shown line := by
        rintro ⟨lead, value, hshows⟩
        rw [ofLine?_eq_some_iff.2 ⟨lead, value, hshows, rfl⟩] at he
        cases he
      exact ⟨(ih hbefore).keys, (ih hbefore).gathered.skip hno n⟩
    | some e =>
      obtain ⟨lead, value, hshows, rfl⟩ := ofLine?_eq_some_iff.1 he
      exact (ih hbefore).insert hinj hbefore hline hshows n

/-- An entry with a key is one that was found. -/
theorem exists_of_mem_assignKeys {stem : Text} {x y : Index} {es keyed : List Entry}
    (h : assignKeys stem x es = .ok (keyed, y)) (he : e ∈ keyed) :
    ∃ d ∈ es, e = { d with key := e.key } := by
  have hmap : keyed.map ({ · with key := [] }) = es.map ({ · with key := [] }) :=
    map_assignKeys (fun _ _ => rfl) h
  obtain ⟨d, hd, heq⟩ := List.mem_map.1 (hmap ▸ List.mem_map_of_mem he)
  refine ⟨d, hd, ?_⟩
  cases d
  cases e
  simpa using heq.symm

/-- Keys do not touch what is gathered. -/
theorem Gathered.assignKeys {stem : Text} {x y : Index} {keyed : List Entry}
    (h : Gathered numbered entries) (hkeyed : assignKeys stem x entries = .ok (keyed, y)) :
    Gathered numbered keyed := by
  have hcontexts : keyed.map (·.context) = entries.map (·.context) :=
    map_assignKeys (fun _ _ => rfl) hkeyed
  refine ⟨hcontexts.trans h.contexts, fun e he => ?_⟩
  obtain ⟨d, hd, heq⟩ := exists_of_mem_assignKeys hkeyed he
  obtain ⟨line, lead, hshows, hentry⟩ := h.entries d hd
  have hphrase : e.phrase = d.phrase := by rw [heq]
  rw [← hphrase] at hshows hentry
  refine ⟨line, lead, hshows, ?_⟩
  rw [heq, hentry]
  rfl

/-! ### Scenes -/

/-- The entries of lines: one for each shown line in the order of first occurrence, on which its
positions are those of its value on all lines equal to it. -/
structure Exact (lines : List Text) (entries : List Entry) : Prop where
  contexts : entries.map (·.context) = (lines.filter (Shown ·)).eraseDups.map some
  phrases : ∀ e ∈ entries, ∀ line, e.context = some line →
    e.phrase.isTranslatable = true ∧ ∃ lead, Valued line lead e.phrase ∧
      ∀ p ∈ e.positions, p.endLine = p.startLine ∧ p.startColumn = lead.length ∧
        p.endColumn = lead.length + e.phrase.length ∧
        (line.take p.endColumn).drop p.startColumn = e.phrase
  numbers : ∀ e ∈ entries, ∀ line, e.context = some line →
    (e.positions.map (·.startLine)).Pairwise (· < ·) ∧
    ∀ n, n ∈ e.positions.map (·.startLine) ↔ 0 < n ∧ lines[n - 1]? = some line
  shared : ∀ i j a b, lines[i]? = some a → lines[j]? = some b → Shown a → Shown b →
    ((∃ e ∈ entries, i + 1 ∈ e.positions.map (·.startLine) ∧
      j + 1 ∈ e.positions.map (·.startLine)) ↔ a = b)

theorem Gathered.exact (h : Gathered (lines.zipIdx 1) entries) : Exact lines entries := by
  -- What an entry with a context is.
  have hentry : ∀ e ∈ entries, ∀ line, e.context = some line → ∃ lead, Shows line lead e.phrase ∧
      e.positions = (numbersOf (lines.zipIdx 1) line).map (spot lead e.phrase) := by
    intro e he line hcontext
    obtain ⟨line', lead, hline, hshows, heq⟩ := h.of_mem he
    obtain rfl : line' = line := Option.some.inj (hline.symm.trans hcontext)
    exact ⟨lead, hshows, by rw [heq]; rfl⟩
  have hstarts : ∀ e ∈ entries, ∀ line, e.context = some line →
      e.positions.map (·.startLine) = numbersOf (lines.zipIdx 1) line := by
    intro e he line hcontext
    obtain ⟨lead, -, hpositions⟩ := hentry e he line hcontext
    rw [hpositions, List.map_map]
    exact List.map_id _
  have hmem : ∀ e ∈ entries, ∀ line, e.context = some line →
      ∀ n, n ∈ e.positions.map (·.startLine) ↔ 0 < n ∧ lines[n - 1]? = some line := by
    intro e he line hcontext n
    rw [hstarts e he line hcontext]
    exact mem_numbersOf_zipIdx
  refine ⟨?_, ?_, ?_, ?_⟩
  · rw [h.contexts, List.zipIdx_map_fst]
  · intro e he line hcontext
    obtain ⟨lead, hshows, hpositions⟩ := hentry e he line hcontext
    refine ⟨hshows.2, lead, hshows.1, fun p hp => ?_⟩
    rw [hpositions] at hp
    obtain ⟨n, -, rfl⟩ := List.mem_map.1 hp
    obtain ⟨tail, htail, -⟩ := hshows.1.exists_tail
    refine ⟨rfl, rfl, rfl, ?_⟩
    simp only [spot]
    rw [← List.length_append, htail, List.take_left, List.drop_left]
  · intro e he line hcontext
    refine ⟨?_, hmem e he line hcontext⟩
    rw [hstarts e he line hcontext]
    exact pairwise_numbersOf_zipIdx lines line
  · intro i j a b ha hb hshowna hshownb
    constructor
    · rintro ⟨e, he, hi, hj⟩
      obtain ⟨line, lead, hcontext, -, -⟩ := h.of_mem he
      have hi := ((hmem e he line hcontext _).1 hi).2
      have hj := ((hmem e he line hcontext _).1 hj).2
      rw [Nat.add_sub_cancel, ha] at hi
      rw [Nat.add_sub_cancel, hb] at hj
      exact Option.some.inj (hi.trans hj.symm)
    · rintro rfl
      have hthere : a ∈ (lines.zipIdx 1).map (·.1) := by
        rw [List.zipIdx_map_fst]
        exact List.mem_of_getElem? ha
      obtain ⟨e, he, hcontext⟩ := h.exists_iff.2 ⟨hthere, hshowna⟩
      exact ⟨e, he, (hmem e he a hcontext _).2 ⟨Nat.succ_pos i, ha⟩,
        (hmem e he a hcontext _).2 ⟨Nat.succ_pos j, hb⟩⟩

theorem exists_of_mem_linesWithBreaks {t : Text} (h : line ∈ t.linesWithBreaks) :
    ∃ u : Text, '\n' ∉ u ∧ (line = u ∨ line = u ++ ['\n']) := by
  fun_induction Text.linesWithBreaks t generalizing line with
  | case1 => cases h
  | case2 r ih =>
    rcases List.mem_cons.1 h with rfl | h
    · exact ⟨[], List.not_mem_nil, .inr rfl⟩
    · exact ih h
  | case3 c r hc hr ih =>
    rw [List.mem_singleton.1 h]
    exact ⟨[c], fun hmem => hc (List.mem_singleton.1 hmem).symm, .inl rfl⟩
  | case4 c r hc first more hr ih =>
    rw [hr] at ih
    rcases List.mem_cons.1 h with rfl | h
    · obtain ⟨u, hu, hline⟩ := ih List.mem_cons_self
      refine ⟨c :: u, List.not_mem_cons_of_ne_of_not_mem (Ne.symm hc) hu, ?_⟩
      rcases hline with rfl | rfl
      · exact .inl rfl
      · exact .inr rfl
    · exact ih (List.mem_cons_of_mem _ h)

theorem not_mem_withoutBreak {u : Text} (hu : '\n' ∉ u) (h : line = u ∨ line = u ++ ['\n']) :
    '\n' ∉ line.withoutBreak := by
  have hback : line.reverse = u.reverse ∨ line.reverse = '\n' :: u.reverse := by
    rcases h with rfl | rfl
    · exact .inl rfl
    · exact .inr (by simp)
  rw [← List.mem_reverse] at hu
  unfold Text.withoutBreak
  split
  · next r hr =>
    rw [hr] at hback
    rcases hback with hback | hback
    · exact absurd (by simp [← hback]) hu
    · rw [← (List.cons.inj hback).2] at hu
      simpa using fun hmem => hu (List.mem_cons_of_mem _ hmem)
  · next r hr =>
    rw [hr] at hback
    rcases hback with hback | hback
    · exact absurd (by simp [← hback]) hu
    · rw [← (List.cons.inj hback).2] at hu
      simpa using hu
  · next hno =>
    rcases hback with hback | hback
    · rwa [← hback, List.mem_reverse] at hu
    · exact absurd hback (hno _)

/-- No line of a text has a line feed in it. -/
theorem not_mem_linesOf (content : Text) : ∀ line ∈ linesOf content, '\n' ∉ line := by
  intro line hline
  obtain ⟨full, hfull, rfl⟩ := List.mem_map.1 hline
  obtain ⟨u, hu, hline⟩ := exists_of_mem_linesWithBreaks hfull
  exact not_mem_withoutBreak hu hline

/-- A scene is scanned exactly, if digests tell the values of its lines with these lines apart, unless
there is no number left for one of its lines. The value of a line is what a search for a property
takes. -/
theorem parse_exact (stem content : Text) (x : Index)
    (hinj : Set.InjOn Digest.ofText (digested (linesOf content))) :
    ((∃ entries x', parse stem content x = .ok (entries, x') ∧ Exact (linesOf content) entries) ∨
      (parse stem content x = .error .overflow ∧
        UInt64.size ≤
          x.counter.toNat + ((linesOf content).filter (Shown ·)).eraseDups.length)) ∧
      ∀ line ∈ linesOf content, ∀ lead value,
        Pattern.property? line = some (lead, value) ↔ Valued line lead value := by
  have hgathered : Gathered ((linesOf content).zipIdx 1)
      (((ofLines 1 content.normalize.linesWithBreaks).foldl insert []).map (·.2)) := by
    rw [ofLines_eq]
    exact (filed_found hinj fun _ hx => List.fst_mem_of_mem_zipIdx hx).gathered
  refine ⟨?_, fun line hline lead value =>
    Pattern.property?_eq_some_iff (not_mem_linesOf content line hline)⟩
  cases hparse : parse stem content x with
  | ok r =>
    obtain ⟨entries, x'⟩ := r
    exact .inl ⟨entries, x', rfl, (hgathered.assignKeys hparse).exact⟩
  | error fault =>
    obtain ⟨rfl, hout⟩ := assignKeys_eq_error_iff.1 hparse
    refine .inr ⟨rfl, hout.trans (Nat.add_le_add_left ?_ _)⟩
    have hlength := congrArg List.length hgathered.contexts
    simp only [List.length_map, List.zipIdx_map_fst] at hlength
    rw [← hlength]
    exact Nat.le_trans (x.length_unnumbered_le _) (by simp only [List.length_map, Nat.le_refl])

/-- The digested texts, as a list. -/
def digestedList (lines : List Text) : List Text :=
  lines.filterMap fun line =>
    ((value? line).filter (·.2.isTranslatable)).map fun x => x.2 ++ line

theorem mem_digestedList {t : Text} (h : t ∈ digested lines) : t ∈ digestedList lines := by
  obtain ⟨line, hline, lead, value, hshows, rfl⟩ := h
  refine List.mem_filterMap.2 ⟨line, hline, ?_⟩
  rw [value?_eq_some_iff.2 hshows.1, Option.filter_some, if_pos hshows.2]
  rfl

/-- A line that comes twice, one with two names and four quotes, and one that shows nothing. -/
theorem parse_exact_menu :
    let content := Text.of "text = \"A\"\n[b]\nbb_TEXT=\"x\" hint_tooltip = \"y\"\ntext = \"A\"\n"
    Set.InjOn Digest.ofText (digested (linesOf content)) ∧
      (((∃ entries x', parse ['M'] content .empty = .ok (entries, x') ∧
          Exact (linesOf content) entries) ∨
        (parse ['M'] content .empty = .error .overflow ∧
          UInt64.size ≤
            Index.empty.counter.toNat + ((linesOf content).filter (Shown ·)).eraseDups.length)) ∧
        ∀ line ∈ linesOf content, ∀ lead value,
          Pattern.property? line = some (lead, value) ↔ Valued line lead value) ∧
      (parse ['M'] content .empty).toOption.map (·.1.map fun e => (e.phrase, e.positions)) =
        some [(['A'], [⟨1, 8, 1, 9⟩, ⟨4, 8, 4, 9⟩]),
          (Text.of "x\" hint_tooltip = \"y", [⟨3, 9, 3, 29⟩])] := by
  intro content
  have hinj : Set.InjOn Digest.ofText (digested (linesOf content)) := by
    have hall : ∀ s ∈ digestedList (linesOf content), ∀ t ∈ digestedList (linesOf content),
        Digest.ofText s = Digest.ofText t → s = t := by
      decide +kernel
    exact fun s hs t ht => hall s (mem_digestedList hs) t (mem_digestedList ht)
  exact ⟨hinj, parse_exact ['M'] content .empty hinj, by decide +kernel⟩

end Scene

end Phrasebook
