import Phrasebook.Proofs.Stream

/-!
How far the reading of a lexeme looks ahead.

A lexeme ends before the first quote or line feed that is not its own, so what stands behind that
does not matter to it: texts that are `Text.Akin` begin with the same lexeme
(`Lexeme.read_append_congr`). And where a string literal is read, one with the same quotes and
another content is read in its place
(`Lexeme.read_wrap`), whatever comes after it (`Quoting.Encloses.of_ne_nil`).
-/
namespace Phrasebook

open Lexeme (isQuote isGap isLetter isWordChar)

/-- Whether a character stands in string literals only, or between lexemes. -/
def Lexeme.isStop (c : Char) : Bool := isQuote c || c == '\n'

open Lexeme (isStop)

namespace Text

/-- Texts that agree up to and with the first quote or line feed. -/
inductive Akin : Text → Text → Prop
  | refl (t : Text) : Akin t t
  | stop {d : Char} (hd : isStop d = true) (t t' : Text) : Akin (d :: t) (d :: t')
  | cons (c : Char) {t t' : Text} (h : Akin t t') : Akin (c :: t) (c :: t')

namespace Akin

variable {t t' p : Text} {c : Char} {f : Char → Bool}

theorem append (s : Text) (h : Akin t t') : Akin (s ++ t) (s ++ t') := by
  induction s with
  | nil => exact h
  | cons c s ih => exact .cons c ih

theorem head? (h : Akin t t') : t'.head? = t.head? := by
  cases h <;> rfl

theorem eq_nil (h : Akin [] t') : t' = [] := by
  cases h
  rfl

theorem tail (h : Akin (c :: t) (c :: t')) (hc : isStop c = false) : Akin t t' := by
  cases h with
  | refl => exact .refl t
  | stop hd => rw [hc] at hd; cases hd
  | cons _ h => exact h

theorem dropWhile (h : Akin t t') (hf : ∀ d, isStop d = true → f d = false) :
    Akin (t.dropWhile f) (t'.dropWhile f) := by
  induction h with
  | refl t => exact .refl _
  | stop hd t t' => simpa [hf _ hd] using stop hd t t'
  | cons c h ih =>
    by_cases hc : f c = true
    · simpa [hc] using ih
    · simpa [hc] using h.cons c

/-- Whether a text without quotes and line feeds leads does not depend on what is behind the first of
these. -/
theorem isPrefixOf (h : Akin t t') (hp : ∀ d ∈ p, isStop d = false) :
    p.isPrefixOf t' = p.isPrefixOf t := by
  induction h generalizing p with
  | refl => rfl
  | @stop d hd t t' =>
    cases p with
    | nil => rfl
    | cons a p =>
      have hne : a ≠ d := by
        rintro rfl
        rw [hp a List.mem_cons_self] at hd
        cases hd
      simp [List.isPrefixOf, beq_eq_false_iff_ne.2 hne]
  | cons c _ ih =>
    cases p with
    | nil => rfl
    | cons a p => simp [List.isPrefixOf, ih fun d hd => hp d (List.mem_cons_of_mem _ hd)]

end Akin

/-- What is taken before a place is taken also if what follows there only begins in the same way. -/
theorem takeWhile_append_congr {f : Char → Bool} (t : Text) {rest' : Text}
    (hr : rest'.head? = (t.dropWhile f).head?) :
    (t.takeWhile f ++ rest').takeWhile f = t.takeWhile f ∧
      (t.takeWhile f ++ rest').dropWhile f = rest' := by
  have hall : ∀ c ∈ t.takeWhile f, f c = true := List.all_eq_true.1 List.all_takeWhile
  have hstop := List.head?_dropWhile_not f t
  rw [← hr] at hstop
  rw [List.takeWhile_append_of_pos hall, List.dropWhile_append_of_pos hall]
  cases rest' with
  | nil => simp
  | cons c r =>
    have hc : f c = false := by simpa using hstop
    simp [hc]

theorem afterLeading?_eq_some_iff {p t rest : Text} :
    afterLeading? p t = some rest ↔ t = p ++ rest := by
  refine ⟨eq_append_of_afterLeading?, ?_⟩
  rintro rfl
  induction p with
  | nil => rfl
  | cons a p ih => simp [afterLeading?, ih]

end Text

namespace Lexeme

variable {beyond : Option Char} {t t' u rest rest' sigil content : Text} {kind : Kind}

theorem not_isGap_of_isStop {d : Char} (h : isStop d = true) : isGap d = false := by
  simp only [isStop, isQuote, Bool.or_eq_true, beq_iff_eq] at h
  rcases h with (rfl | rfl) | rfl <;> rfl

theorem not_isStop_of_mem_operators : ∀ op ∈ operators, ∀ d ∈ op, isStop d = false := by
  have h : (operators.all fun op => op.all fun d => !isStop d) = true := by decide
  simpa only [List.all_eq_true, Bool.not_eq_true'] using h

/-- Whether a text leads does not depend on what is behind as many characters. -/
theorem afterLeading?_congr {p : Text} (h : Text.afterLeading? p (t ++ rest) = none)
    (hp : p.length ≤ t.length) : Text.afterLeading? p (t ++ rest') = none := by
  rw [Option.eq_none_iff_forall_ne_some] at h ⊢
  intro x hx
  have hlead : p <+: t :=
    List.prefix_of_prefix_length_le ⟨x, (Text.afterLeading?_eq_some_iff.1 hx).symm⟩
      (List.prefix_append t rest') hp
  obtain ⟨y, rfl⟩ := hlead
  exact h (y ++ rest) (Text.afterLeading?_eq_some_iff.2 (List.append_assoc ..))

/-- The content of a literal does not depend on what follows the literal. -/
theorem contentOf_congr {raw held : Bool} {delimiter : Text} (hne : delimiter ≠ [])
    (h : contentOf raw delimiter held t = some (content, rest)) (rest' : Text) :
    contentOf raw delimiter held (content ++ delimiter ++ rest') = some (content, rest') := by
  fun_induction contentOf raw delimiter held t generalizing content rest with
  | case1 => simp at h
  | case2 c r ih =>
    obtain ⟨⟨content', rest''⟩, hr, he⟩ := Option.map_eq_some_iff.1 h
    cases he
    simp only [List.cons_append, contentOf, if_true, ih hr, Option.map_some]
  | case3 held c r hheld hesc ih =>
    obtain ⟨⟨content', rest''⟩, hr, he⟩ := Option.map_eq_some_iff.1 h
    cases he
    simp only [List.cons_append, contentOf, if_neg hheld, if_pos hesc, ih hr, Option.map_some]
  | case4 held c r hheld hesc rest'' hd =>
    cases h
    have hlead := Text.afterLeading?_eq_some_iff.1 hd
    obtain ⟨d, ds, rfl⟩ := List.exists_cons_of_ne_nil hne
    cases hlead
    have hafter : Text.afterLeading? (c :: ds) (c :: (ds ++ rest')) = some rest' :=
      Text.afterLeading?_eq_some_iff.2 rfl
    simp only [List.nil_append, List.cons_append, contentOf, if_neg hheld, if_neg hesc, hafter]
  | case5 held c r hheld hesc hd ih =>
    obtain ⟨⟨content', rest''⟩, hr, he⟩ := Option.map_eq_some_iff.1 h
    cases he
    rw [eq_append_of_contentOf hr] at hd
    have hnone : Text.afterLeading? delimiter ((c :: (content' ++ delimiter)) ++ rest') = none :=
      afterLeading?_congr hd (by simp; omega)
    simp only [List.cons_append] at hnone
    simp only [List.cons_append, contentOf, if_neg hheld, if_neg hesc, hnone, ih hr,
      Option.map_some]

theorem delimiterOf_congr (a b : Char) (s : Text) (h : rest'.head? = rest.head?) :
    delimiterOf (a :: b :: s ++ rest') = delimiterOf (a :: b :: s ++ rest) := by
  cases s with
  | cons c s => rfl
  | nil => cases rest <;> cases rest' <;> simp_all [delimiterOf]

/-- What a string literal looks like from its opening quote on. -/
theorem readString_eq_ok (h : readString sigil t = .ok (kind, u, rest)) : ∃ content,
    kind = .str ⟨sigil, delimiterOf t⟩ ∧ u = Quoting.wrap ⟨sigil, delimiterOf t⟩ content ∧
      t = delimiterOf t ++ content ++ delimiterOf t ++ rest ∧
      contentOf (Quoting.isRaw ⟨sigil, delimiterOf t⟩) (delimiterOf t) false
        (content ++ delimiterOf t ++ rest) = some (content, rest) := by
  simp only [readString] at h
  split at h
  · next content rest'' hc =>
    cases h
    have hcut := eq_append_of_contentOf hc
    refine ⟨content, rfl, rfl, ?_, hcut ▸ hc⟩
    rw [List.append_assoc, List.append_assoc, ← List.append_assoc content, ← hcut,
      delimiterOf_append]
  · cases h

theorem readString_append_congr {body : Text} (hne : body ++ rest ≠ [])
    (h : readString sigil (body ++ rest) = .ok (kind, u, rest)) (hr : rest'.head? = rest.head?) :
    readString sigil (body ++ rest') = .ok (kind, u, rest') := by
  obtain ⟨content, rfl, rfl, hbody, hc⟩ := readString_eq_ok h
  have hd := delimiterOf_ne_nil hne
  generalize hdel : delimiterOf (body ++ rest) = delimiter at hbody hc hd ⊢
  have hbody := List.append_cancel_right hbody
  have hdel' : delimiterOf (body ++ rest') = delimiter := by
    obtain ⟨a, ds, rfl⟩ := List.exists_cons_of_ne_nil hd
    obtain ⟨b, s, hs⟩ : ∃ b s, ds ++ content ++ a :: ds = b :: s :=
      List.exists_cons_of_ne_nil (by simp)
    have hbody : body = a :: b :: s := by
      rw [hbody, ← hs]
      rfl
    rw [← hdel, hbody]
    exact delimiterOf_congr a b s hr
  have hc' := contentOf_congr hd hc rest'
  have hdrop : List.drop delimiter.length (body ++ rest') = content ++ delimiter ++ rest' := by
    rw [hbody]
    simp only [List.append_assoc, List.drop_left]
  simp only [readString, hdel', hdrop, hc']

theorem goesOnNumber_congr {seen : Text} {c : Char} {r r' : Text}
    (h : Text.Akin (c :: r) (c :: r')) :
    goesOnNumber beyond seen c r' = goesOnNumber beyond seen c r := by
  by_cases hc : c = '.'
  · rw [goesOnNumber, goesOnNumber, (h.tail (by rw [hc]; rfl)).head?]
  · rw [goesOnNumber, goesOnNumber, beq_eq_false_iff_ne.2 hc]
    simp only [Bool.false_and]

theorem numberTail_append_congr {seen : Text}
    (h : numberTail beyond seen (u ++ rest) = (u, rest)) (hr : Text.Akin rest rest') :
    numberTail beyond seen (u ++ rest') = (u, rest') := by
  induction u generalizing seen with
  | nil =>
    cases rest with
    | nil => rw [hr.eq_nil]; rfl
    | cons c r =>
      obtain ⟨r', rfl⟩ : ∃ r', rest' = c :: r' := by
        cases hr <;> exact ⟨_, rfl⟩
      simp only [List.nil_append, numberTail, goesOnNumber_congr hr] at h ⊢
      split at h
      · cases h
      · next hc => rw [if_neg hc]
  | cons c u ih =>
    simp only [List.cons_append, numberTail, goesOnNumber_congr ((hr.append u).cons c)] at h ⊢
    split at h
    · next hgo =>
      simp only [Prod.mk.injEq, List.cons.injEq, true_and] at h
      rw [if_pos hgo, ih (Prod.ext h.1 h.2)]
    · cases h

theorem readOperator_append_congr (h : readOperator (u ++ rest) = .ok (kind, u, rest))
    (hr : Text.Akin rest rest') : readOperator (u ++ rest') = .ok (kind, u, rest') := by
  have hfind : operators.find? (·.isPrefixOf (u ++ rest')) =
      operators.find? (·.isPrefixOf (u ++ rest)) := by
    rw [← List.head?_filter, ← List.head?_filter]
    refine congrArg List.head? (List.filter_congr fun op hop => ?_)
    exact (hr.append u).isPrefixOf (not_isStop_of_mem_operators op hop)
  unfold readOperator at h ⊢
  rw [hfind]
  split at h
  · next op hop =>
    simp only [Except.ok.injEq, Prod.mk.injEq] at h ⊢
    obtain ⟨hk, rfl, -⟩ := h
    exact ⟨hk, rfl, by simp⟩
  · cases h

/-- A lexeme is read whatever is behind the first quote or line feed after it. -/
theorem read_append_congr (h : read beyond (u ++ rest) = .ok (kind, u, rest))
    (hr : Text.Akin rest rest') : read beyond (u ++ rest') = .ok (kind, u, rest') := by
  obtain ⟨c, v, rfl⟩ := List.exists_cons_of_ne_nil (eq_append_of_read h).2
  have hv := (hr.append v).head?
  have hsigil : beginsSigil (c :: (v ++ rest')) = beginsSigil (c :: (v ++ rest)) := by
    revert hv
    cases v ++ rest <;> cases v ++ rest' <;> simp_all [beginsSigil]
  have hnumber : beginsNumber (c :: (v ++ rest')) = beginsNumber (c :: (v ++ rest)) := by
    simp only [beginsNumber, hv]
  simp only [List.cons_append, read, hsigil, hnumber] at h ⊢
  split at h
  · next hq =>
    rw [if_pos hq]
    have h : readString [] ((c :: v) ++ rest) = .ok (kind, c :: v, rest) := h
    exact readString_append_congr (by simp) h hr.head?
  · next hq =>
    rw [if_neg hq]
    split at h
    · next hs =>
      rw [if_pos hs]
      refine readString_append_congr ?_ h hr.head?
      intro hnil
      rw [hnil] at hs
      cases hs
    · next hs =>
      rw [if_neg hs]
      split at h
      · next hn =>
        rw [if_pos hn]
        simp only [Except.ok.injEq, Prod.mk.injEq] at h ⊢
        have htail := numberTail_append_congr (u := c :: v) (Prod.ext h.2.1 h.2.2) hr
        simp only [List.cons_append] at htail
        exact ⟨h.1, by rw [htail], by rw [htail]⟩
      · next hn =>
        rw [if_neg hn]
        split at h
        · next hl =>
          rw [if_pos hl]
          simp only [Except.ok.injEq, Prod.mk.injEq] at h ⊢
          have hhead : rest'.head? = ((c :: (v ++ rest)).dropWhile isWordChar).head? := by
            rw [h.2.2, hr.head?]
          have hcut := Text.takeWhile_append_congr _ hhead
          rw [h.2.1] at hcut
          exact ⟨h.1, hcut⟩
        · next hl =>
          rw [if_neg hl]
          exact readOperator_append_congr (u := c :: v) h hr

end Lexeme

namespace Quoting

/-- The quotes that literals have: a quotation mark once or thrice, after at most one sigil. -/
def Proper (q : Quoting) : Prop :=
  ∃ d, isQuote d = true ∧ (q.delimiter = [d] ∨ q.delimiter = [d, d, d]) ∧
    (q.sigil = [] ∨ ∃ c, Lexeme.beginsSigil [c, d] = true ∧ q.sigil = [c])

/-- A content that can be written between these quotes as it is. -/
structure Holds (q : Quoting) (content : Text) : Prop where
  ne_nil : content ≠ []
  plain : ∀ c ∈ content, c ≠ '\\' ∧ c ∉ q.delimiter

/-- Read from the opening quotes on, a content goes up to the closing ones, after which there is
`more`. -/
structure Encloses (q : Quoting) (content more : Text) : Prop where
  opening : Lexeme.delimiterOf (q.delimiter ++ content ++ q.delimiter ++ more) = q.delimiter
  closing : Lexeme.contentOf q.isRaw q.delimiter false (content ++ q.delimiter ++ more) =
    some (content, more)

variable {q : Quoting}

theorem exists_delimiter_eq {d : Char} (h : q.delimiter = [d] ∨ q.delimiter = [d, d, d]) :
    ∃ ds, q.delimiter = d :: ds := by
  rcases h with h | h <;> exact ⟨_, h⟩

theorem Proper.wrap_ne_nil (h : q.Proper) (content : Text) : q.wrap content ≠ [] := by
  obtain ⟨d, -, hd | hd, -⟩ := h <;> simp [wrap, hd]

/-- Literals with the same quotes agree up to the first of these. -/
theorem Proper.akin (h : q.Proper) (content content' more more' : Text) :
    Text.Akin (q.wrap content ++ more) (q.wrap content' ++ more') := by
  obtain ⟨d, hd, hdel, -⟩ := h
  obtain ⟨ds, hds⟩ := exists_delimiter_eq hdel
  simp only [wrap, hds, List.append_assoc, List.cons_append]
  exact .append _ (.stop (by rw [isStop, hd]; rfl) _ _)

end Quoting

namespace Lexeme

variable {beyond : Option Char} {t u rest content : Text} {q : Quoting}

theorem delimiterOf_cons (d : Char) (r : Text) :
    delimiterOf (d :: r) = [d] ∨ delimiterOf (d :: r) = [d, d, d] := by
  unfold delimiterOf
  split
  · next a b c s heq =>
    cases heq
    split
    · next h =>
      obtain ⟨rfl, rfl⟩ := h
      exact .inr rfl
    · exact .inl rfl
  · next a s _ heq =>
    cases heq
    exact .inl rfl
  · next heq => cases heq

theorem encloses_of_readString {sigil r : Text} {kind : Kind} {d : Char}
    (h : readString sigil (d :: r) = .ok (kind, u, rest)) (hd : isQuote d = true)
    (hsigil : sigil = [] ∨ ∃ c, beginsSigil [c, d] = true ∧ sigil = [c]) (hk : kind = .str q) :
    q.Proper ∧ ∃ content, u = q.wrap content ∧ q.Encloses content rest := by
  obtain ⟨content, hkind, hu, hr, hcontent⟩ := readString_eq_ok h
  rw [hkind] at hk
  cases hk
  exact ⟨⟨d, hd, delimiterOf_cons d r, hsigil⟩, content, hu, congrArg delimiterOf hr.symm, hcontent⟩

/-- The quotes of a string that is read are proper and enclose its content. -/
theorem encloses_of_read (h : read beyond t = .ok (.str q, u, rest)) :
    q.Proper ∧ ∃ content, u = q.wrap content ∧ q.Encloses content rest := by
  cases t with
  | nil => simp [read] at h
  | cons c r =>
    simp only [read] at h
    split at h
    · next hc => exact encloses_of_readString h hc (.inl rfl) rfl
    · split at h
      · next hs =>
        cases r with
        | nil => cases hs
        | cons d r =>
          have hd : isQuote d = true := by
            simp only [beginsSigil, Bool.and_eq_true] at hs
            exact hs.2
          exact encloses_of_readString h hd (.inr ⟨c, hs, rfl⟩) rfl
      · split at h
        · cases h
        · split at h
          · cases h
          · unfold readOperator at h
            split at h <;> cases h

theorem contentOf_plain (raw : Bool) {d : Char} {ds : Text} (hd : isQuote d = true)
    (h : ∀ c ∈ content, c ≠ '\\' ∧ c ∉ d :: ds) (more : Text) :
    contentOf raw (d :: ds) false (content ++ d :: ds ++ more) = some (content, more) := by
  induction content with
  | nil =>
    have hesc : d ≠ '\\' := by
      rintro rfl
      cases hd
    have hafter : Text.afterLeading? (d :: ds) (d :: (ds ++ more)) = some more :=
      Text.afterLeading?_eq_some_iff.2 rfl
    simp [contentOf, hesc, hafter]
  | cons c content ih =>
    obtain ⟨hesc, hc⟩ := h c List.mem_cons_self
    have hafter : Text.afterLeading? (d :: ds) (c :: (content ++ d :: (ds ++ more))) = none := by
      have hne : d ≠ c := fun heq => hc (heq ▸ List.mem_cons_self)
      simp [Text.afterLeading?, hne]
    have ih := ih fun a ha => h a (List.mem_cons_of_mem _ ha)
    simp only [List.append_assoc, List.cons_append] at ih
    simp [contentOf, hesc, hafter, ih]

theorem delimiterOf_append_of_le (h : 3 ≤ t.length) (more : Text) :
    delimiterOf (t ++ more) = delimiterOf t := by
  match t, h with
  | _ :: _ :: _ :: _, _ => rfl

end Lexeme

namespace Quoting

variable {q : Quoting} {content more : Text}

theorem Holds.encloses (h : q.Holds content) (hq : q.Proper) (more : Text) :
    q.Encloses content more := by
  obtain ⟨d, hd, hdel, -⟩ := hq
  constructor
  · rcases hdel with hdel | hdel
    · obtain ⟨c, r, rfl⟩ := List.exists_cons_of_ne_nil h.ne_nil
      have hc : d ≠ c := fun heq => (h.plain c List.mem_cons_self).2 (by simp [hdel, heq])
      rw [hdel]
      cases r <;> simp [Lexeme.delimiterOf, hc]
    · simp [hdel, Lexeme.delimiterOf]
  · obtain ⟨ds, hds⟩ := exists_delimiter_eq hdel
    have hplain : ∀ c ∈ content, c ≠ '\\' ∧ c ∉ d :: ds := hds ▸ h.plain
    rw [hds]
    exact Lexeme.contentOf_plain q.isRaw hd hplain more

/-- What follows a literal does not matter to it, unless it is empty: two quotes and a third would
open another literal. -/
theorem Encloses.of_ne_nil (h : q.Encloses content more) (hq : q.Proper) (hne : content ≠ [])
    (more' : Text) : q.Encloses content more' := by
  obtain ⟨d, -, hdel, -⟩ := hq
  obtain ⟨ds, hds⟩ := exists_delimiter_eq hdel
  have hlength : 3 ≤ (q.delimiter ++ content ++ q.delimiter).length := by
    have := List.length_pos_iff.2 hne
    simp only [hds, List.length_append, List.length_cons]
    omega
  constructor
  · rw [Lexeme.delimiterOf_append_of_le hlength, ← Lexeme.delimiterOf_append_of_le hlength more]
    exact h.opening
  · exact Lexeme.contentOf_congr (by simp [hds]) h.closing more'

end Quoting

namespace Lexeme

variable {beyond : Option Char} {content more : Text} {q : Quoting}

theorem read_of_isQuote {d : Char} (h : isQuote d = true) (r : Text) :
    read beyond (d :: r) = readString [] (d :: r) := by
  simp [read, h]

theorem read_of_beginsSigil {c d : Char} (h : beginsSigil [c, d] = true) (r : Text) :
    read beyond (c :: d :: r) = readString [c] (d :: r) := by
  have hs : beginsSigil (c :: d :: r) = true := h
  have hc : isQuote c = false := by
    simp only [beginsSigil, Bool.and_eq_true, Bool.or_eq_true, beq_iff_eq] at h
    rcases h.1 with (rfl | rfl) | rfl <;> rfl
  simp [read, hc, hs]

/-- Proper quotes are read as those of a string. -/
theorem read_quoted (hq : q.Proper) (content more : Text) (beyond : Option Char) :
    read beyond (q.wrap content ++ more) =
      readString q.sigil (q.delimiter ++ content ++ q.delimiter ++ more) := by
  obtain ⟨d, hd, hdel, hsigil⟩ := hq
  obtain ⟨r, hr⟩ : ∃ r, q.delimiter ++ content ++ q.delimiter ++ more = d :: r := by
    obtain ⟨ds, hds⟩ := Quoting.exists_delimiter_eq hdel
    rw [hds]
    exact ⟨_, rfl⟩
  have hwrap : q.wrap content ++ more = q.sigil ++ d :: r := by
    simp [← hr, Quoting.wrap]
  rw [hwrap, hr]
  rcases hsigil with hsigil | ⟨c, hc, hsigil⟩
  · rw [hsigil]
    exact read_of_isQuote hd r
  · rw [hsigil]
    exact read_of_beginsSigil hc r

/-- A literal whose quotes are proper and enclose its content is read as such. -/
theorem read_wrap (hq : q.Proper) (h : q.Encloses content more) (beyond : Option Char) :
    read beyond (q.wrap content ++ more) = .ok (.str q, q.wrap content, more) := by
  have hdrop : List.drop q.delimiter.length (q.delimiter ++ content ++ q.delimiter ++ more) =
      content ++ q.delimiter ++ more := by
    simp only [List.append_assoc, List.drop_left]
  rw [read_quoted hq]
  simp only [readString, h.opening, hdrop, h.closing]

end Lexeme

end Phrasebook
