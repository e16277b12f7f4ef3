import Phrasebook.Proofs.Values

/-!
Patterns, and what a search for one finds.

A search tries the characters of a text in order, and at each of them the ways in which the pattern can
run, the preferred ones first: a repetition rather takes more than less. On a line the search for a
property finds the value of the line (`Pattern.property?_eq`), although it skips blanks in front of
the name and comes to the last quote from behind.
-/
namespace Phrasebook

inductive Pattern where
  | empty
  | one (p : Char → Bool)
  | seq (a b : Pattern)
  | either (a b : Pattern)
  /-- As many characters as there are, or else fewer. -/
  | many (p : Char → Bool)

namespace Pattern

/-- The ways to take characters from the start of a text, the most of them first. -/
def greedy (p : Char → Bool) : Text → List (Text × Text)
  | [] => [([], [])]
  | c :: t => (if p c then (greedy p t).map fun x => (c :: x.1, x.2) else []) ++ [([], c :: t)]

/-- The ways in which a pattern runs at the start of a text, in the order in which they are tried:
what it takes, and what it leaves. -/
def runs : Pattern → Text → List (Text × Text)
  | empty, t => [([], t)]
  | one _, [] => []
  | one p, c :: t => if p c then [([c], t)] else []
  | seq a b, t => (a.runs t).flatMap fun x => (b.runs x.2).map fun y => (x.1 ++ y.1, y.2)
  | either a b, t => a.runs t ++ b.runs t
  | many p, t => greedy p t

/-- What a group takes, in the ways in which something else runs behind it. -/
def takes (group back : Pattern) (t : Text) : List Text :=
  (group.runs t).flatMap fun x => (back.runs x.2).map fun _ => x.1

/-- What is taken by the pattern in front of a group, and by the group. -/
def captures (front group back : Pattern) (t : Text) : List (Text × Text) :=
  (front.runs t).flatMap fun x => (takes group back x.2).map fun v => (x.1, v)

/-- What a search finds first: the text in front of what the group takes, and what it takes. -/
def capture? (front group back : Pattern) : Text → Option (Text × Text)
  | [] => (captures front group back []).head?
  | c :: t => (captures front group back (c :: t)).head?.or
      ((capture? front group back t).map fun x => (c :: x.1, x.2))

/-- A word in any case. -/
def word : Text → Pattern
  | [] => empty
  | c :: w => seq (one fun d => d.toLower == c) (word w)

def blanks : Pattern := many Text.isBlankChar

/-- From the name of a property to the opening quote of its value. -/
def opening : Pattern :=
  seq blanks (seq (either (word (Text.of "text")) (word (Text.of "hint_tooltip")))
    (seq blanks (seq (one (· == '=')) (seq blanks (one (· == '"'))))))

/-- What is captured of a line: all up to the last quote that there is. -/
def property? (line : Text) : Option (Text × Text) :=
  capture? opening (many (· != '\n')) (one (· == '"')) line

variable {p : Char → Bool} {t r u v w lead value : Text} {c : Char}

/-! ### What a pattern takes -/

theorem mem_greedy : (u, r) ∈ greedy p t ↔ t = u ++ r ∧ u.all p = true := by
  induction t generalizing u with
  | nil =>
    rw [greedy, List.mem_singleton, Prod.mk.injEq]
    constructor
    · rintro ⟨rfl, rfl⟩
      exact ⟨rfl, rfl⟩
    · rintro ⟨heq, -⟩
      exact List.append_eq_nil_iff.1 heq.symm
  | cons c t ih =>
    have hmore : (u, r) ∈ (if p c then (greedy p t).map fun x => (c :: x.1, x.2) else []) ↔
        p c = true ∧ ∃ v, u = c :: v ∧ (v, r) ∈ greedy p t := by
      split
      · next hc =>
        simp only [List.mem_map, Prod.mk.injEq, Prod.exists, hc, true_and]
        constructor
        · rintro ⟨v, _, hv, rfl, rfl⟩
          exact ⟨v, rfl, hv⟩
        · rintro ⟨v, rfl, hv⟩
          exact ⟨v, r, hv, rfl, rfl⟩
      · next hc => exact iff_of_false List.not_mem_nil fun h => hc h.1
    rw [greedy, List.mem_append, List.mem_singleton, Prod.mk.injEq, hmore]
    constructor
    · rintro (⟨hc, v, rfl, hv⟩ | ⟨rfl, rfl⟩)
      · obtain ⟨rfl, hall⟩ := ih.1 hv
        exact ⟨rfl, by rw [List.all_cons, hc, hall]; rfl⟩
      · exact ⟨rfl, rfl⟩
    · rintro ⟨heq, hall⟩
      cases u with
      | nil => exact .inr ⟨rfl, heq.symm⟩
      | cons d v =>
        obtain ⟨rfl, rfl⟩ := List.cons.inj heq
        rw [List.all_cons, Bool.and_eq_true] at hall
        exact .inl ⟨hall.1, v, rfl, ih.2 ⟨rfl, hall.2⟩⟩

theorem mem_runs_seq {a b : Pattern} : (u, r) ∈ (seq a b).runs t ↔
    ∃ v s w, (v, s) ∈ a.runs t ∧ (w, r) ∈ b.runs s ∧ u = v ++ w := by
  simp only [runs, List.mem_flatMap, List.mem_map, Prod.mk.injEq, Prod.exists]
  constructor
  · rintro ⟨v, s, hv, w, _, hw, rfl, rfl⟩
    exact ⟨v, s, w, hv, hw, rfl⟩
  · rintro ⟨v, s, w, hv, hw, rfl⟩
    exact ⟨v, s, hv, w, r, hw, rfl, rfl⟩

theorem mem_runs_one : (u, r) ∈ (one p).runs t ↔ ∃ c, p c = true ∧ u = [c] ∧ t = c :: r := by
  cases t with
  | nil => simp [runs]
  | cons d t =>
    rw [runs]
    split
    · next hd =>
      rw [List.mem_singleton, Prod.mk.injEq]
      constructor
      · rintro ⟨rfl, rfl⟩
        exact ⟨d, hd, rfl, rfl⟩
      · rintro ⟨c, -, rfl, heq⟩
        obtain ⟨rfl, rfl⟩ := List.cons.inj heq
        exact ⟨rfl, rfl⟩
    · next hd =>
      refine iff_of_false (by simp) ?_
      rintro ⟨c, hc, -, heq⟩
      rw [(List.cons.inj heq).1] at hd
      exact hd hc

theorem mem_runs_word : (u, r) ∈ (word w).runs t ↔ t = u ++ r ∧ u.map Char.toLower = w := by
  induction w generalizing u t with
  | nil =>
    rw [word, runs, List.mem_singleton, Prod.mk.injEq, List.map_eq_nil_iff]
    constructor
    · rintro ⟨rfl, rfl⟩
      exact ⟨rfl, rfl⟩
    · rintro ⟨rfl, rfl⟩
      exact ⟨rfl, rfl⟩
  | cons d w ih =>
    rw [word, mem_runs_seq]
    constructor
    · rintro ⟨v, s, w', hv, hw', rfl⟩
      obtain ⟨c, hc, rfl, rfl⟩ := mem_runs_one.1 hv
      obtain ⟨rfl, rfl⟩ := ih.1 hw'
      exact ⟨rfl, by rw [List.singleton_append, List.map_cons, beq_iff_eq.1 hc]⟩
    · rintro ⟨rfl, hu⟩
      cases u with
      | nil => cases hu
      | cons c u =>
        obtain ⟨hc, hu⟩ := List.cons.inj hu
        exact ⟨[c], u ++ r, u, mem_runs_one.2 ⟨c, beq_iff_eq.2 hc, rfl, rfl⟩, ih.2 ⟨rfl, hu⟩, rfl⟩

theorem mem_runs_char {d : Char} :
    (u, r) ∈ (one (· == d)).runs t ↔ u = [d] ∧ t = d :: r := by
  rw [mem_runs_one]
  constructor
  · rintro ⟨c, hc, rfl, rfl⟩
    rw [beq_iff_eq.1 hc]
    exact ⟨rfl, rfl⟩
  · rintro ⟨rfl, rfl⟩
    exact ⟨d, beq_self_eq_true d, rfl, rfl⟩

theorem mem_runs_blanks : (u, r) ∈ blanks.runs t ↔ t = u ++ r ∧ u.isBlank = true := mem_greedy

theorem mem_runs_name :
    (u, r) ∈ (either (word (Text.of "text")) (word (Text.of "hint_tooltip"))).runs t ↔
      t = u ++ r ∧ (u.map Char.toLower = Text.of "text" ∨
        u.map Char.toLower = Text.of "hint_tooltip") := by
  rw [runs, List.mem_append, mem_runs_word, mem_runs_word, and_or_left]

/-- Up to the opening quote a run takes blanks and a property. -/
theorem mem_runs_opening : (u, r) ∈ opening.runs t ↔
    t = u ++ r ∧ ∃ gap o, Text.isBlank gap = true ∧ Scene.Opens o ∧ u = gap ++ o := by
  simp only [opening, mem_runs_seq, mem_runs_blanks, mem_runs_name, mem_runs_char]
  constructor
  · rintro ⟨gap, _, _, ⟨rfl, hgap⟩, ⟨name, _, _, ⟨rfl, hname⟩, ⟨gap₁, _, _, ⟨rfl, hgap₁⟩,
      ⟨_, _, _, ⟨rfl, rfl⟩, ⟨gap₂, _, _, ⟨rfl, hgap₂⟩, ⟨rfl, rfl⟩, rfl⟩, rfl⟩, rfl⟩, rfl⟩, rfl⟩
    exact ⟨by simp, gap, _, hgap, ⟨name, gap₁, gap₂, hname, hgap₁, hgap₂, rfl⟩, by simp⟩
  · rintro ⟨rfl, gap, _, hgap, ⟨name, gap₁, gap₂, hname, hgap₁, hgap₂, rfl⟩, rfl⟩
    exact ⟨gap, _, _, ⟨by simp, hgap⟩, ⟨name, _, _, ⟨rfl, hname⟩, ⟨gap₁, _, _, ⟨rfl, hgap₁⟩,
      ⟨_, _, _, ⟨rfl, rfl⟩, ⟨gap₂, _, _, ⟨rfl, hgap₂⟩, ⟨rfl, rfl⟩, rfl⟩, rfl⟩, rfl⟩, rfl⟩, by simp⟩

/-- There is only one way to come to the opening quote, because it is the first quote. -/
theorem eq_of_mem_runs_opening {u' r' : Text} (h : (u, r) ∈ opening.runs t)
    (h' : (u', r') ∈ opening.runs t) : (u', r') = (u, r) := by
  have hfirst {u r : Text} (hu : (u, r) ∈ opening.runs t) :
      u = t.takeWhile (· != '"') ++ ['"'] ∧ t = u ++ r := by
    obtain ⟨rfl, gap, o, hgap, ho, rfl⟩ := mem_runs_opening.1 hu
    obtain ⟨name, rfl, hname⟩ := ho.exists_quote
    have hno : ∀ c ∈ gap ++ name, (c != '"') = true := by
      intro c hc
      refine bne_iff_ne.2 fun he => ?_
      subst he
      rcases List.mem_append.1 hc with hc | hc
      · exact absurd (List.all_eq_true.1 hgap _ hc) (by decide)
      · exact hname hc
    refine ⟨?_, rfl⟩
    rw [← List.append_assoc gap, List.append_assoc _ ['"'], List.takeWhile_append_of_pos hno,
      List.singleton_append, List.takeWhile_cons_of_neg (by simp), List.append_nil]
  obtain ⟨hu, ht⟩ := hfirst h
  obtain ⟨hu', ht'⟩ := hfirst h'
  rw [← hu] at hu'
  rw [hu', ht] at ht'
  rw [hu', List.append_cancel_left ht']

/-! ### What is found first -/

theorem head?_flatMap_of_unique {α β : Type} {x : α} {xs : List α} (f : α → List β) (hx : x ∈ xs)
    (h : ∀ y ∈ xs, y = x) : (xs.flatMap f).head? = (f x).head? := by
  obtain ⟨n, hn, rfl⟩ : ∃ n, n ≠ 0 ∧ xs = List.replicate n x :=
    ⟨xs.length, by simpa using List.ne_nil_of_mem hx, List.eq_replicate_iff.2 ⟨rfl, h⟩⟩
  obtain ⟨m, rfl⟩ := Nat.exists_eq_succ_of_ne_zero hn
  rw [List.replicate_succ, List.flatMap_cons, List.head?_append]
  cases hf : f x with
  | nil => simp [List.flatMap_replicate, hf]
  | cons a as => rfl

theorem takes_cons (hc : c ≠ '\n') (t : Text) :
    takes (many (· != '\n')) (one (· == '"')) (c :: t) =
      (takes (many (· != '\n')) (one (· == '"')) t).map (c :: ·) ++
        if c == '"' then [[]] else [] := by
  rw [takes, takes, runs, runs, greedy, if_pos (bne_iff_ne.2 hc), List.flatMap_append,
    List.flatMap_map, List.map_flatMap, List.flatMap_singleton]
  refine congrArg₂ (· ++ ·) (congrArg (List.flatMap · _) (funext fun x => ?_)) ?_
  · rw [List.map_map]
    rfl
  · rw [runs]
    split <;> rfl

/-- The longest value is tried first. -/
theorem head?_takes (h : '\n' ∉ t) :
    (takes (many (· != '\n')) (one (· == '"')) t).head? =
      if '"' ∈ t then some (Scene.beforeLastQuote t) else none := by
  induction t with
  | nil => rfl
  | cons c t ih =>
    rw [List.mem_cons, not_or] at h
    rw [takes_cons (Ne.symm h.1), List.head?_append, List.head?_map, ih h.2]
    by_cases ht : '"' ∈ t
    · obtain ⟨value, tail, rfl, htail⟩ := Scene.exists_lastQuote ht
      rw [if_pos ht, if_pos (List.mem_cons_of_mem _ ht), Scene.beforeLastQuote_eq htail,
        ← List.cons_append, Scene.beforeLastQuote_eq htail]
      rfl
    · rw [if_neg ht]
      by_cases hc : c = '"'
      · subst hc
        have hnil : Scene.beforeLastQuote ([] ++ '"' :: t) = [] := Scene.beforeLastQuote_eq ht
        rw [if_pos List.mem_cons_self, ← List.nil_append ('"' :: t), hnil]
        rfl
      · rw [if_neg (List.not_mem_cons_of_ne_of_not_mem (Ne.symm hc) ht),
          if_neg (by simpa using hc)]
        rfl

theorem head?_captures (h : '\n' ∉ t) :
    (captures opening (many (· != '\n')) (one (· == '"')) t).head? = some (u, v) ↔
      ∃ r, (u, r) ∈ opening.runs t ∧ '"' ∈ r ∧ v = Scene.beforeLastQuote r := by
  have hhead {u r : Text} (hu : (u, r) ∈ opening.runs t) :
      (captures opening (many (· != '\n')) (one (· == '"')) t).head? =
        if '"' ∈ r then some (u, Scene.beforeLastQuote r) else none := by
    have hr : '\n' ∉ r := by
      obtain ⟨rfl, -⟩ := mem_runs_opening.1 hu
      exact fun hmem => h (List.mem_append_right _ hmem)
    rw [captures, head?_flatMap_of_unique _ hu fun y hy => eq_of_mem_runs_opening hu hy,
      List.head?_map, head?_takes hr]
    split <;> rfl
  constructor
  · intro hcaptures
    obtain ⟨⟨u', r⟩, hu', -⟩ := List.mem_flatMap.1 (List.mem_of_head? hcaptures)
    rw [hhead hu'] at hcaptures
    split at hcaptures
    · next hclosed =>
      cases hcaptures
      exact ⟨r, hu', hclosed, rfl⟩
    · cases hcaptures
  · rintro ⟨r, hu, hclosed, rfl⟩
    rw [hhead hu, if_pos hclosed]

/-- A property of which the first quote ends what a run has taken, and another follows. -/
theorem begins_of_mem_runs (h : (u, r) ∈ opening.runs t) (hclosed : '"' ∈ r) :
    ∃ gap o, Text.isBlank gap = true ∧ u = gap ++ o ∧ Scene.Begins t gap o r := by
  obtain ⟨rfl, gap, o, hgap, ho, rfl⟩ := mem_runs_opening.1 h
  exact ⟨gap, o, hgap, rfl, rfl, ho, hclosed⟩

/-- Nothing is captured at a place only if no property begins there. -/
theorem opening?_eq_none (h : '\n' ∉ t)
    (hnone : (captures opening (many (· != '\n')) (one (· == '"')) t).head? = none) :
    Scene.opening? t = none := by
  refine Option.eq_none_iff_forall_ne_some.2 fun r hr => ?_
  obtain ⟨o, rfl, ho, hclosed⟩ := Scene.opening?_eq_some_iff.1 hr
  have hruns : (o, r) ∈ opening.runs (o ++ r) := mem_runs_opening.2 ⟨rfl, [], o, rfl, ho, rfl⟩
  rw [(head?_captures h).2 ⟨r, hruns, hclosed, rfl⟩] at hnone
  cases hnone

/-- The search for a property finds the value of a line and what is in front of it. By induction on the
line: blanks that the search takes before a name do not bring it to another property. -/
theorem property?_eq (h : '\n' ∉ t) : property? t = Scene.value? t := by
  induction t with
  | nil => rfl
  | cons c t ih =>
    have hline := h
    rw [List.mem_cons, not_or] at h
    rw [property?, capture?]
    cases hhead : (captures opening (many (· != '\n')) (one (· == '"')) (c :: t)).head? with
    | some x =>
      obtain ⟨u, v⟩ := x
      obtain ⟨r, hu, hclosed, rfl⟩ := (head?_captures hline).1 hhead
      obtain ⟨gap, o, hgap, rfl, hbegins⟩ := begins_of_mem_runs hu hclosed
      obtain ⟨value, tail, rfl, htail⟩ := Scene.exists_lastQuote hclosed
      rw [Option.some_or, eq_comm, Scene.value?_eq_some_iff, Scene.beforeLastQuote_eq htail]
      refine ⟨gap, o, tail, hbegins, htail, rfl, fun before' o' r' hother => ?_⟩
      exact hbegins.le_of_blank hother hgap
    | none =>
      have hnone := opening?_eq_none hline hhead
      rw [Option.none_or, Scene.value?_cons hnone, ← ih h.2]
      rfl

theorem property?_eq_some_iff (h : '\n' ∉ t) :
    property? t = some (lead, value) ↔ Scene.Valued t lead value := by
  rw [property?_eq h, Scene.value?_eq_some_iff]

example : property? (Text.of "a_TEXT \t=\"text = \"b\"\"c") =
    some (Text.of "a_TEXT \t=\"", Text.of "text = \"b\"") := by
  decide

end Pattern

end Phrasebook
