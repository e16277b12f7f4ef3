import Mathlib.Tactic.Common
import Phrasebook.Scene

/-!
The value of a line of a scene.

`Valued line lead value` says which property of a line counts, where its value begins and where it ends.
The scan of a line finds just this (`Scene.value?_eq_some_iff`). A fingerprint is taken of a value and
its line without a mark between them, and still two lines never give the same text
(`Scene.Valued.eq_of_append`).
-/
namespace Phrasebook

namespace Scene

variable {line lead value before opening rest tail t r w : Text} {c : Char}
  {line' lead' value' before' opening' rest' : Text}

/-- The name of a property in any case, an equals sign and a quote; there may be blanks between. -/
def Opens (t : Text) : Prop :=
  ∃ name gap gap' : Text, (name.map Char.toLower = Text.of "text" ∨
      name.map Char.toLower = Text.of "hint_tooltip") ∧
    gap.isBlank = true ∧ gap'.isBlank = true ∧ t = name ++ gap ++ '=' :: gap' ++ ['"']

/-- Behind `before` the line gives a value to a property: its opening quote ends `opening`, and there
is a quote in the rest. -/
structure Begins (line before opening rest : Text) : Prop where
  line_eq : line = before ++ opening ++ rest
  opens : Opens opening
  closed : '"' ∈ rest

/-- The line has a value behind `lead`: it follows the opening quote of the leftmost property, and the
last quote of the line follows it. -/
def Valued (line lead value : Text) : Prop :=
  ∃ before opening tail, Begins line before opening (value ++ '"' :: tail) ∧ '"' ∉ tail ∧
    lead = before ++ opening ∧
    ∀ before' opening' rest', Begins line before' opening' rest' → before.length ≤ before'.length

/-! ### What the scan of a line finds -/

theorem afterWord?_eq_some_iff :
    afterWord? w t = some r ↔ ∃ u, t = u ++ r ∧ u.map Char.toLower = w := by
  induction w generalizing t with
  | nil => simp [afterWord?, eq_comm]
  | cons d w ih =>
    cases t with
    | nil => simp [afterWord?]
    | cons c t =>
      rw [afterWord?]
      split
      · next hc =>
        rw [ih]
        constructor
        · rintro ⟨u, rfl, hu⟩
          exact ⟨c :: u, rfl, by rw [List.map_cons, hc, hu]⟩
        · rintro ⟨u, hu, hw⟩
          cases u with
          | nil => cases hw
          | cons d' u =>
            rw [List.cons_append, List.cons.injEq] at hu
            exact ⟨u, hu.2, (List.cons.inj hw).2⟩
      · next hc =>
        refine iff_of_false (by simp) ?_
        rintro ⟨u, hu, hw⟩
        cases u with
        | nil => cases hw
        | cons d' u =>
          rw [List.cons_append, List.cons.injEq] at hu
          rw [List.map_cons, List.cons.injEq, ← hu.1] at hw
          exact hc hw.1

/-- Blanks before something that is not blank are the ones left out. -/
theorem trimStart_eq_cons_iff (hc : Text.isBlankChar c = false) :
    Text.trimStart t = c :: r ↔ ∃ gap, gap.isBlank = true ∧ t = gap ++ c :: r := by
  constructor
  · intro h
    refine ⟨t.takeWhile Text.isBlankChar, List.all_takeWhile, ?_⟩
    rw [← h, Text.trimStart, List.takeWhile_append_dropWhile]
  · rintro ⟨gap, hgap, rfl⟩
    rw [Text.trimStart, List.dropWhile_append_of_pos (List.all_eq_true.1 hgap),
      List.dropWhile_cons_of_neg (by simp [hc])]

/-- The two names do not begin alike, so the second is not overlooked where the first is found. -/
theorem exists_name_iff :
    (afterWord? (Text.of "text") t).or (afterWord? (Text.of "hint_tooltip") t) = some r ↔
      ∃ name : Text, t = name ++ r ∧ (name.map Char.toLower = Text.of "text" ∨
        name.map Char.toLower = Text.of "hint_tooltip") := by
  rw [Option.or_eq_some_iff, afterWord?_eq_some_iff, afterWord?_eq_some_iff]
  constructor
  · rintro (⟨u, hu, hw⟩ | ⟨-, u, hu, hw⟩)
    · exact ⟨u, hu, .inl hw⟩
    · exact ⟨u, hu, .inr hw⟩
  · rintro ⟨u, hu, hw | hw⟩
    · exact .inl ⟨u, hu, hw⟩
    · refine .inr ⟨?_, u, hu, hw⟩
      cases u with
      | nil => cases hw
      | cons c u =>
        have hc : c.toLower ≠ 't' := by
          rw [(List.cons.inj hw).1]
          decide
        rw [hu]
        exact if_neg hc

theorem opening?_eq_some_iff :
    opening? t = some rest ↔ ∃ opening, t = opening ++ rest ∧ Opens opening ∧ '"' ∈ rest := by
  unfold opening?
  constructor
  · intro h
    obtain ⟨r, hr, hequals⟩ := Option.bind_eq_some_iff.1 h
    clear h
    obtain ⟨name, rfl, hname⟩ := exists_name_iff.1 hr
    split at hequals
    · next s hs =>
      obtain ⟨gap, hgap, rfl⟩ := (trimStart_eq_cons_iff (by decide)).1 hs
      split at hequals
      · next s' hs' =>
        obtain ⟨gap', hgap', rfl⟩ := (trimStart_eq_cons_iff (by decide)).1 hs'
        split at hequals
        · next hclosed =>
          cases hequals
          exact ⟨_, by simp, ⟨name, gap, gap', hname, hgap, hgap', rfl⟩, by simpa using hclosed⟩
        · cases hequals
      · cases hequals
    · cases hequals
  · rintro ⟨_, rfl, ⟨name, gap, gap', hname, hgap, hgap', rfl⟩, hclosed⟩
    have hr := (exists_name_iff (r := gap ++ '=' :: (gap' ++ '"' :: rest))).2 ⟨name, rfl, hname⟩
    have hs := (trimStart_eq_cons_iff (c := '=') (by decide)).2
      ⟨gap, hgap, (rfl : _ = gap ++ '=' :: (gap' ++ '"' :: rest))⟩
    have hs' := (trimStart_eq_cons_iff (c := '"') (by decide)).2
      ⟨gap', hgap', (rfl : _ = gap' ++ '"' :: rest)⟩
    have hcontains : rest.contains '"' = true := by simpa using hclosed
    simp only [List.append_assoc, List.cons_append, List.nil_append, hr, hs, hs', hcontains,
      Option.bind_eq_bind, Option.bind_some, if_true]

theorem begins_nil_iff : Begins line [] opening rest ↔
    line = opening ++ rest ∧ Opens opening ∧ '"' ∈ rest :=
  ⟨fun h => ⟨h.line_eq, h.opens, h.closed⟩, fun h => ⟨h.1, h.2.1, h.2.2⟩⟩

theorem begins_cons_iff {d : Char} :
    Begins (c :: line) (d :: before) opening rest ↔ c = d ∧ Begins line before opening rest := by
  constructor
  · rintro ⟨hline, hopens, hclosed⟩
    obtain ⟨hc, hrest⟩ := List.cons.inj hline
    exact ⟨hc, hrest, hopens, hclosed⟩
  · rintro ⟨rfl, rfl, hopens, hclosed⟩
    exact ⟨rfl, hopens, hclosed⟩

/-- The first place where a property begins. By induction on the line: a property begins at its first
character or in what follows. -/
theorem property?_eq_some_iff : property? line = some rest ↔
    ∃ before opening, Begins line before opening rest ∧
      ∀ before' opening' rest', Begins line before' opening' rest' →
        before.length ≤ before'.length := by
  induction line with
  | nil =>
    refine iff_of_false (by simp [property?]) ?_
    rintro ⟨before, opening, ⟨hline, -, hclosed⟩, -⟩
    have hnil := (List.append_eq_nil_iff.1 hline.symm).2
    rw [hnil] at hclosed
    cases hclosed
  | cons c line ih =>
    rw [property?]
    cases ho : opening? (c :: line) with
    | some rest' =>
      obtain ⟨opening, hfirst⟩ := opening?_eq_some_iff.1 ho
      rw [← begins_nil_iff] at hfirst
      rw [Option.some_or, Option.some.injEq]
      constructor
      · rintro rfl
        exact ⟨[], opening, hfirst, fun _ _ _ _ => Nat.zero_le _⟩
      · rintro ⟨before, opening', hbegins, hleast⟩
        obtain rfl := List.eq_nil_of_length_eq_zero (Nat.le_zero.1 (hleast _ _ _ hfirst))
        have hthere := opening?_eq_some_iff.2 ⟨opening', begins_nil_iff.1 hbegins⟩
        rw [ho] at hthere
        exact Option.some.inj hthere
    | none =>
      -- Every property of the line begins behind its first character.
      have hlater : ∀ before opening rest, Begins (c :: line) before opening rest →
          ∃ b, before = c :: b ∧ Begins line b opening rest := by
        intro before opening rest hbegins
        cases before with
        | nil =>
          have hthere := opening?_eq_some_iff.2 ⟨opening, begins_nil_iff.1 hbegins⟩
          rw [ho] at hthere
          cases hthere
        | cons d b =>
          obtain ⟨rfl, hinner⟩ := begins_cons_iff.1 hbegins
          exact ⟨b, rfl, hinner⟩
      rw [Option.none_or, ih]
      constructor
      · rintro ⟨b, opening, hbegins, hleast⟩
        refine ⟨c :: b, opening, begins_cons_iff.2 ⟨rfl, hbegins⟩, fun _ _ _ hother => ?_⟩
        obtain ⟨b', rfl, hinner⟩ := hlater _ _ _ hother
        exact Nat.succ_le_succ (hleast _ _ _ hinner)
      · rintro ⟨before, opening, hbegins, hleast⟩
        obtain ⟨b, rfl, hinner⟩ := hlater _ _ _ hbegins
        refine ⟨b, opening, hinner, fun b' opening' rest' hother => ?_⟩
        exact Nat.le_of_succ_le_succ (hleast (c :: b') _ _ (begins_cons_iff.2 ⟨rfl, hother⟩))

/-- The only quote of an opening is the one that ends it. -/
theorem Opens.exists_quote (h : Opens t) : ∃ name, t = name ++ ['"'] ∧ '"' ∉ name := by
  obtain ⟨name, gap, gap', hname, hgap, hgap', rfl⟩ := h
  have hblank {u : Text} (hu : u.isBlank = true) : '"' ∉ u := fun hmem =>
    absurd (List.all_eq_true.1 hu _ hmem) (by decide)
  have hword : '"' ∉ name := by
    intro hmem
    have hlower := List.mem_map_of_mem (f := Char.toLower) hmem
    rcases hname with hname | hname <;> rw [hname] at hlower <;> revert hlower <;> decide
  refine ⟨name ++ gap ++ '=' :: gap', by simp, ?_⟩
  simp [hword, hblank hgap, hblank hgap']

theorem toLower_of_blank (h : Text.isBlankChar c = true) : c.toLower = c := by
  unfold Char.toLower
  split
  · next hc =>
    exfalso
    simp only [Text.isBlankChar, Bool.or_eq_true, Bool.and_eq_true, decide_eq_true_eq,
      beq_iff_eq, Char.toNat] at h
    simp only [ge_iff_le, UInt32.le_iff_toNat_le] at hc
    have hA : 'A'.val.toNat = 65 := rfl
    have hZ : 'Z'.val.toNat = 90 := rfl
    omega
  · rfl

/-- A property does not begin with a blank. -/
theorem Opens.head_not_blank (h : Opens (c :: rest)) : Text.isBlankChar c = false := by
  obtain ⟨name, gap, gap', hname, -, -, heq⟩ := h
  cases name with
  | nil => rcases hname with hname | hname <;> cases hname
  | cons d name =>
    obtain ⟨rfl, -⟩ := List.cons.inj heq
    refine Bool.eq_false_iff.2 fun hblank => ?_
    have hlower := toLower_of_blank hblank
    rcases hname with hname | hname
    all_goals
      rw [hlower.symm.trans (List.cons.inj hname).1] at hblank
      revert hblank
      decide

/-- A property that has only blanks in front of it is the leftmost. -/
theorem Begins.le_of_blank (h : Begins line before opening rest)
    (h' : Begins line before' opening' rest') (hblank : before.isBlank = true) :
    before.length ≤ before'.length := by
  by_contra hlt
  have hinside : (line : Text)[before'.length]? = before[before'.length]? := by
    rw [h.line_eq, List.append_assoc, List.getElem?_append_left (by omega)]
  obtain ⟨c, hc⟩ : ∃ c, before[before'.length]? = some c :=
    ⟨_, List.getElem?_eq_getElem (by omega)⟩
  have hopens := h'.opens
  rw [hc, h'.line_eq, List.append_assoc, List.getElem?_append_right (Nat.le_refl _),
    Nat.sub_self] at hinside
  cases opening' with
  | nil =>
    obtain ⟨name, heq, -⟩ := hopens.exists_quote
    simp at heq
  | cons d o =>
    obtain rfl : d = c := by simpa using hinside
    have hd := List.all_eq_true.1 hblank d (List.mem_of_getElem? hc)
    rw [hopens.head_not_blank] at hd
    cases hd

/-! ### The value -/

theorem beforeLastQuote_eq (htail : '"' ∉ tail) :
    beforeLastQuote (value ++ '"' :: tail) = value := by
  have hdrop : (tail.reverse ++ '"' :: value.reverse).dropWhile (· != '"') =
      '"' :: value.reverse := by
    have hno : ∀ c ∈ tail.reverse, (c != '"') = true := by
      intro c hc
      refine bne_iff_ne.2 fun he => htail ?_
      rw [← he]
      exact List.mem_reverse.1 hc
    rw [List.dropWhile_append_of_pos hno, List.dropWhile_cons_of_neg (by simp)]
  rw [beforeLastQuote, List.reverse_append, List.reverse_cons, List.append_assoc,
    List.singleton_append, hdrop, List.tail_cons, List.reverse_reverse]

theorem exists_lastQuote (h : '"' ∈ rest) :
    ∃ value tail, rest = value ++ '"' :: tail ∧ '"' ∉ tail := by
  obtain ⟨tail, value, heq, htail⟩ := List.eq_append_cons_of_mem (List.mem_reverse.2 h)
  refine ⟨value.reverse, tail.reverse, ?_, by simpa using htail⟩
  rw [← List.reverse_reverse rest, heq]
  simp

/-- The value of a line with what is in front of it. -/
def value? (line : Text) : Option (Text × Text) :=
  (property? line).map fun rest =>
    (line.take (line.length - rest.length), beforeLastQuote rest)

/-- The scan finds the value of a line. -/
theorem value?_eq_some_iff : value? line = some (lead, value) ↔ Valued line lead value := by
  rw [value?, Option.map_eq_some_iff]
  constructor
  · rintro ⟨rest, hrest, heq⟩
    obtain ⟨before, opening, hbegins, hleast⟩ := property?_eq_some_iff.1 hrest
    obtain ⟨value, tail, rfl, htail⟩ := exists_lastQuote hbegins.closed
    rw [beforeLastQuote_eq htail] at heq
    obtain ⟨rfl, rfl⟩ := Prod.mk.inj heq
    refine ⟨before, opening, tail, hbegins, htail, ?_, hleast⟩
    rw [hbegins.line_eq, List.length_append, Nat.add_sub_cancel, List.take_left]
  · rintro ⟨before, opening, tail, hbegins, htail, rfl, hleast⟩
    refine ⟨_, property?_eq_some_iff.2 ⟨before, opening, hbegins, hleast⟩, ?_⟩
    rw [beforeLastQuote_eq htail, hbegins.line_eq, List.length_append, Nat.add_sub_cancel,
      List.take_left]

theorem value?_cons (h : opening? (c :: line) = none) :
    value? (c :: line) = (value? line).map fun x => (c :: x.1, x.2) := by
  rw [value?, value?, property?, h, Option.none_or, Option.map_map]
  cases hrest : property? line with
  | none => rfl
  | some rest =>
    obtain ⟨before, opening, hbegins, -⟩ := property?_eq_some_iff.1 hrest
    have hlength : rest.length ≤ line.length := by
      rw [hbegins.line_eq, List.length_append]
      exact Nat.le_add_left _ _
    simp only [Option.map_some, Function.comp_apply, List.length_cons,
      Nat.succ_sub hlength, List.take_succ_cons]

/-- A line has at most one value. -/
theorem Valued.unique (h : Valued line lead value) (h' : Valued line lead' value') :
    lead = lead' ∧ value = value' := by
  have hsome := value?_eq_some_iff.2 h
  rw [value?_eq_some_iff.2 h', Option.some.injEq, Prod.mk.injEq] at hsome
  exact ⟨hsome.1.symm, hsome.2.symm⟩

/-- The value stands in the line, between its lead and the last quote. -/
theorem Valued.exists_tail (h : Valued line lead value) :
    ∃ tail, line = lead ++ value ++ '"' :: tail ∧ '"' ∉ tail := by
  obtain ⟨before, opening, tail, hbegins, htail, rfl, -⟩ := h
  exact ⟨tail, by rw [hbegins.line_eq, List.append_assoc _ value], htail⟩

/-! ### Values with their lines -/

/-- Of two properties of a line the one that begins first has the first opening quote. -/
theorem Begins.quote_le (h : Begins line before opening rest)
    (h' : Begins line before' opening' rest') (hle : before.length ≤ before'.length) :
    (before ++ opening).length ≤ (before' ++ opening').length := by
  obtain ⟨name, rfl, hname⟩ := h.opens.exists_quote
  obtain ⟨name', rfl, -⟩ := h'.opens.exists_quote
  by_contra hlt
  simp only [List.length_append, List.length_singleton] at hlt
  -- The second quote would stand inside the first opening.
  have hquote : (line : Text)[before'.length + name'.length]? = some '"' := by
    rw [h'.line_eq, ← List.append_assoc, List.append_assoc, List.getElem?_append_right (by simp)]
    simp
  have hinside : (line : Text)[before'.length + name'.length]? =
      name[before'.length + name'.length - before.length]? := by
    rw [h.line_eq, List.append_assoc, List.append_assoc, List.getElem?_append_right (by omega),
      List.getElem?_append_left (by omega)]
  exact hname (List.mem_of_getElem? (hinside.symm.trans hquote))

theorem Valued.eq_of_append_of_le (h : Valued line lead value) (h' : Valued line' lead' value')
    (heq : value ++ line = value' ++ line') (hle : value.length ≤ value'.length) :
    line = line' := by
  obtain ⟨more, rfl⟩ := List.prefix_of_prefix_length_le (List.prefix_append value line)
    (heq ▸ List.prefix_append value' line') hle
  rw [List.append_assoc] at heq
  have hline := List.append_cancel_left heq
  obtain ⟨before, opening, tail, hbegins, htail, rfl, hleast⟩ := h
  obtain ⟨before', opening', tail', hbegins', htail', rfl, -⟩ := h'
  -- The property of the second line is one of the first, so its quote is not before the first.
  have hmoved : Begins line (more ++ before') opening' (value ++ more ++ '"' :: tail') :=
    ⟨by rw [hline, hbegins'.line_eq]; simp, hbegins'.opens, hbegins'.closed⟩
  have hquote := hbegins.quote_le hmoved (hleast _ _ _ hmoved)
  -- Both lines have the same last quote, so the leads differ by twice what the lines do.
  have hlast : before ++ opening ++ value = more ++ before' ++ opening' ++ (value ++ more) := by
    have hends := hbegins.line_eq.symm.trans hmoved.line_eq
    rw [← List.append_assoc, ← List.append_assoc] at hends
    have hcut := congrArg beforeLastQuote hends
    rwa [beforeLastQuote_eq htail, beforeLastQuote_eq htail'] at hcut
  have hlength := congrArg List.length hlast
  simp only [List.length_append] at hquote hlength
  have hnil : more = [] := List.eq_nil_of_length_eq_zero (by omega)
  rw [hline, hnil, List.nil_append]

/-- A value in front of its line tells the line, although there is no mark between them. -/
theorem Valued.eq_of_append (h : Valued line lead value) (h' : Valued line' lead' value')
    (heq : value ++ line = value' ++ line') : line = line' := by
  rcases Nat.le_total value.length value'.length with hle | hle
  · exact h.eq_of_append_of_le h' heq hle
  · exact (h'.eq_of_append_of_le h heq.symm hle).symm

end Scene

end Phrasebook
