import Phrasebook.Proofs.Coverage
import Phrasebook.Proofs.Grammar.Expression
import Phrasebook.Proofs.Restating

/-!
What the text of a literal is read as.

A rendition is put between the quotes of its literal, and the text this makes must be an expression
that is a string. `Quoting.Reading` has the three ways in which it can be one: as the literal that was
meant; with three quotes where one was meant, because the rendition begins with two; or as a shorter
literal, because the rendition closes it and a comment hides the rest. Only the first has these quotes
and this content, so a rendition with neither two quotes in front nor a number sign is written as it is
meant (`Script.planEdit_quoted`).
-/
namespace Phrasebook

open Text (Stands size)

namespace Cursor

open Grammar

variable {c c₁ : Cursor} {r : Rule} {ns : List Node} {n : Node}

/-- What a rule has read when it gives a string: one lexeme, or nothing where it goes on after a left
part. -/
def ReadsOne : Rule → Cursor → List Node → Cursor → Prop
  | .binaryTail _ left, c, ns, c₁ | .chainTail left, c, ns, c₁ =>
    ∀ n, ns = [n] → n.kind.isString = true → left.kind.isString = true ∧ c₁ = c
  | .sequence _, _, _, _ | .pairs, _, _, _ => True
  | .expression, c, ns, c₁ | .binary _, c, ns, c₁ | .operand, c, ns, c₁ | .chain, c, ns, c₁
  | .primary, c, ns, c₁ => ∀ n, ns = [n] → n.kind.isString = true → c₁ = c.advance

/-- A string is read in one lexeme. -/
theorem Derives.readsOne (h : Derives r c ns c₁) : ReadsOne r c ns c₁ := by
  induction h with
  | value _ _ ih => exact ih
  | ternary | unary | await | number | paren | array | dictionary | parentMember =>
    intro n hn hs
    cases hn
    cases hs
  | binary _ _ ih ih' | chain _ _ ih ih' =>
    intro n hn hs
    obtain ⟨hleft, rfl⟩ := ih' n hn hs
    exact ih _ rfl hleft
  | binaryEnd | chainEnd =>
    intro n hn hs
    cases hn
    exact ⟨hs, rfl⟩
  | typeOperator _ _ _ _ _ _ ih | operator _ _ _ _ _ _ ih | call _ _ _ _ ih | member _ _ _ _ ih
  | subscript _ _ _ _ _ _ _ ih =>
    intro n hn hs
    cases (ih n hn hs).1
  | plain _ _ _ ih => exact ih
  | sequenceEnd | sequenceMore | sequenceLast | pairsEnd | pairsMore | pairsLast => trivial
  | string =>
    intro n _ _
    rfl
  | word _ hword =>
    intro n hn hs
    cases hn
    unfold wordExpression at hword
    split at hword
    · cases hword
      cases hs
    · split at hword
      · cases hword
      · split at hword
        · cases hword
        · cases hword
          cases hs
  | nodePath _ hpath =>
    intro n hn hs
    cases hn
    unfold Cursor.nodePath at hpath
    simp only at hpath
    split at hpath
    · cases hpath
      cases hs
    · cases hpath
      cases hs
    · cases hpath

theorem passWhile_spec (p : Lexeme → Bool) (last : Nat) (ls : List Lexeme) :
    ∃ passed, ls = passed ++ (passWhile p last ls).rest ∧
      ∀ l ∈ passed, l.kind ≠ .eof ∧ p l = true := by
  fun_induction passWhile p last ls with
  | case1 => exact ⟨[], rfl, by simp⟩
  | case2 last l r h ih =>
    obtain ⟨passed, hr, hall⟩ := ih
    refine ⟨l :: passed, congrArg (l :: ·) hr, List.forall_mem_cons.2 ⟨?_, hall⟩⟩
    simpa using h
  | case3 => exact ⟨[], rfl, by simp⟩

end Cursor

namespace Lexeme

variable {source : Text} {range : Span} {old more : List Lexeme} {l : Lexeme}

/-- Nothing comes behind `eof`. -/
theorem Lossless.eq_nil_of_eof (h : Lossless source range (old ++ l :: more)) (hl : l.kind = .eof) :
    more = [] := by
  obtain ⟨body, hbody, hopen⟩ := h.ends
  by_contra hne
  have hpos := List.length_pos_iff.2 hne
  have hlength := congrArg List.length hbody
  simp only [List.length_append, List.length_cons, List.length_nil] at hlength
  have hold : old ++ [l] <+: old ++ l :: more := ⟨more, by simp⟩
  have hlead : old ++ [l] <+: body := by
    refine List.prefix_of_prefix_length_le hold ⟨_, hbody.symm⟩ ?_
    simp only [List.length_append, List.length_cons, List.length_nil]
    omega
  exact hopen l (hlead.subset (by simp)) hl

/-- No indentation is closed before one is opened. -/
theorem Lossless.ne_dedent (h : Lossless source range (old ++ l :: more))
    (hold : ∀ a ∈ old, a.kind ≠ .indent) : l.kind ≠ .dedent := by
  intro hl
  have hnested := h.nested (old ++ [l]) ⟨more, by simp⟩
  have hnone : old.countP (·.kind == .indent) = 0 :=
    List.countP_eq_zero.2 fun a ha hk => hold a ha (beq_iff_eq.1 hk)
  simp [hl, hnone] at hnested

/-- What ends a statement without indentation in it ends the text. -/
theorem Lossless.last_of_end (h : Lossless source range (old ++ l :: more))
    (hold : ∀ a ∈ old, a.kind ≠ .indent) (hl : l.kind = .eof ∨ l.kind = .dedent) :
    l.kind = .eof ∧ more = [] := by
  have heof := hl.resolve_right (h.ne_dedent hold)
  exact ⟨heof, h.eq_nil_of_eof heof⟩

end Lexeme

/-- The lexemes of a whole text. -/
theorem Text.lossless_self {source : Text} {ls : List Lexeme}
    (h : source.lexemes ⟨0, size source⟩ = .ok ls) :
    Lexeme.Lossless source ⟨0, size source⟩ ls := by
  have hwhole : ([] ++ source ++ [] : Text).lexemes ⟨size [], size [] + size source⟩ = .ok ls := by
    simpa [size] using h
  simpa [size] using lossless_of_part [] source [] hwhole

/-- A string that is a whole expression is followed by line ends and semicolons only. -/
theorem Tree.lexemes_of_isString {text : Text} {parsed : Tree} {first : Lexeme} {more : List Lexeme}
    {q : Quoting} (h : ofExpression text = .ok parsed)
    (hstring : parsed.root.children.head?.any (·.kind.isString) = true)
    (hls : text.lexemes ⟨0, size text⟩ = .ok (first :: more)) (hfirst : first.kind = .str q) :
    ∀ l ∈ more, l.kind = .newline ∨ l.isOp ";" = true ∨ l.kind = .eof := by
  have hlossless := Text.lossless_self hls
  have hstay : Cursor.skipNewlines ⟨first :: more, 0⟩ = ⟨first :: more, 0⟩ := by
    simp [Cursor.skipNewlines, Cursor.passWhile, hfirst, Lexeme.isOp]
  simp only [ofExpression, bind_ok_iff] at h
  obtain ⟨ls, hls', ⟨n, c⟩, hexpression, h⟩ := h
  cases hls'.symm.trans hls
  rw [hstay] at hexpression
  by_cases hend : c.skipNewlines.kind = .eof ∨ c.skipNewlines.kind = .dedent
  · rw [if_pos hend] at h
    cases h
    have hone := (Cursor.derives_of_expression hexpression).readsOne n rfl (by simpa using hstring)
    have hadvance : c.rest = more := by
      rw [hone]
      simp [Cursor.advance, hfirst]
    obtain ⟨passed, hmore, hpassed⟩ := Cursor.passWhile_spec
      (fun l => l.kind == .newline || l.isOp ";") c.lastEnd c.rest
    rw [← Cursor.skipNewlines, hadvance] at hmore
    have hplain : ∀ l ∈ passed, l.kind = .newline ∨ l.isOp ";" = true := by
      intro l hl
      simpa using (hpassed l hl).2
    have hdone : ∀ l ∈ passed, l.kind = .newline ∨ l.isOp ";" = true ∨ l.kind = .eof := by
      intro l hl
      rcases hplain l hl with hl | hl
      · exact .inl hl
      · exact .inr (.inl hl)
    have hflat : ∀ l ∈ first :: passed, l.kind ≠ .indent := by
      refine List.forall_mem_cons.2 ⟨by simp [hfirst], fun l hl hk => ?_⟩
      rcases hplain l hl with hl | hl
      · simp [hl] at hk
      · simp [Lexeme.isOp, hk] at hl
    cases htail : c.skipNewlines.rest with
    | nil =>
      rw [htail, List.append_nil] at hmore
      rwa [hmore]
    | cons stop tail =>
      have hpeek : c.skipNewlines.kind = stop.kind := by
        rw [Cursor.kind, Cursor.peek, htail]
        rfl
      rw [htail] at hmore
      rw [hpeek] at hend
      rw [hmore, ← List.cons_append] at hlossless
      obtain ⟨heof, hnil⟩ := hlossless.last_of_end hflat hend
      rw [hmore, hnil]
      exact List.forall_mem_append.2 ⟨hdone, List.forall_mem_singleton.2 (.inr (.inr heof))⟩
  · rw [if_neg hend] at h
    cases h

namespace Quoting

variable {q q' : Quoting} {content shown rest : Text}

/-- The text of a literal begins with a literal in the quotes `q'` that holds `shown`, and goes on
with `rest`. -/
structure Opens (q : Quoting) (content : Text) (q' : Quoting) (shown rest : Text) : Prop where
  proper : q'.Proper
  sigil : q'.sigil = q.sigil
  delimiter : q'.delimiter = q.delimiter ∨ ∃ d, q.delimiter = [d] ∧ q'.delimiter = [d, d, d]
  encloses : q'.Encloses shown rest
  split : q.wrap content = q'.wrap shown ++ rest

theorem opens_of_read {kind : Lexeme.Kind} {u : Text} {beyond : Option Char} (hq : q.Proper)
    (h : Lexeme.read beyond (q.wrap content) = .ok (kind, u, rest)) :
    ∃ q' shown, Opens q content q' shown rest ∧ kind = .str q' ∧ u = q'.wrap shown := by
  have hstring := h
  rw [← List.append_nil (q.wrap content), Lexeme.read_quoted hq, List.append_nil] at hstring
  obtain ⟨shown, hkind, hu, -⟩ := Lexeme.readString_eq_ok hstring
  rw [hkind] at h
  obtain ⟨hproper, shown', hu', hencloses⟩ := Lexeme.encloses_of_read h
  refine ⟨_, shown', ⟨hproper, rfl, ?_, hencloses, ?_⟩, hkind, hu'⟩
  · obtain ⟨d, -, hd | hd, -⟩ := hq
    · rw [hd]
      rcases Lexeme.delimiterOf_cons d (content ++ [d]) with hdel | hdel
      · exact .inl hdel
      · exact .inr ⟨d, rfl, hdel⟩
    · rw [hd]
      exact .inl (by simp [Lexeme.delimiterOf])
  · rw [← hu']
    exact (Lexeme.eq_append_of_read h).1

end Quoting

/-- The lexemes that end a scan come behind those it has read. -/
theorem Scanner.exists_finish (s : Scanner) (stop : Nat) :
    ∃ last, s.finish stop = s.out.reverse ++ last := by
  unfold finish newline
  split
  · simp only [mark, List.reverse_cons, List.append_assoc]
    exact ⟨_, rfl⟩
  · simp only [List.append_assoc]
    exact ⟨_, rfl⟩

/-- The lexemes of the text of a literal begin with a string. -/
theorem Text.lexemes_quoted {q : Quoting} {content : Text} {ls : List Lexeme} (hq : q.Proper)
    (h : (q.wrap content).lexemes ⟨0, size (q.wrap content)⟩ = .ok ls) :
    ∃ q' shown rest more, q.Opens content q' shown rest ∧
      ls = ⟨.str q', ⟨0, size (q'.wrap shown)⟩, q'.wrap shown⟩ :: more := by
  obtain ⟨final, hrun, -, rfl⟩ := lexemes_self_eq_ok_iff.1 h
  have hne : (Scanner.fresh (q.wrap content) 0).rest ≠ [] := hq.wrap_ne_nil content
  cases hstep : (Scanner.fresh (q.wrap content) 0).step none with
  | error e =>
    rw [Scanner.run, dif_neg hne] at hrun
    split at hrun
    · cases hrun
    · next ht =>
      rw [hstep] at ht
      cases ht
  | ok s =>
    rw [Scanner.run_of_step hne hstep] at hrun
    rw [Scanner.step_quoted hq, Scanner.lexeme] at hstep
    split at hstep
    · cases hstep
    · next kind u rest hread =>
      obtain ⟨q', shown, hopens, rfl, rfl⟩ := Quoting.opens_of_read hq hread
      cases hstep
      obtain ⟨new, hnew⟩ := (Scanner.onward_of_run hrun).out
      obtain ⟨last, hlast⟩ := final.exists_finish final.pos
      refine ⟨q', shown, rest, new.reverse ++ last, hopens, ?_⟩
      rw [hlast, ← hnew]
      simp [Scanner.fresh, Scanner.pass]

/-- What stands at the end of a text, behind its beginning. -/
theorem Text.Stands.exists_gap {text front rest v : Text} {a : Span} (hv : Stands text a v)
    (hsplit : text = front ++ rest) (hbegin : size front ≤ a.start) (hend : size text ≤ a.stop) :
    ∃ gap, rest = gap ++ v := by
  obtain ⟨before, after, hcut, rfl⟩ := hv
  have hafter : after = [] := by
    by_contra hne
    have hpos := Text.size_pos hne
    have hsize := congrArg size hcut
    simp only [Text.size_append] at hsize
    simp only at hend
    omega
  subst hafter
  rw [List.append_nil] at hcut
  rcases List.append_eq_append_iff.1 (hsplit.symm.trans hcut) with
    ⟨gap, -, hrest⟩ | ⟨extra, hfront, hv⟩
  · exact ⟨gap, hrest⟩
  · have hextra : extra = [] := by
      by_contra hne
      have hpos := Text.size_pos hne
      simp only [hfront, Text.size_append] at hbegin
      omega
    subst hextra
    exact ⟨[], hv.symm⟩

namespace Quoting

variable {q q' : Quoting} {content shown rest : Text}

/-- The ways in which the text of a literal can be read as a string. -/
inductive Reading (q : Quoting) (content : Text) : Prop where
  /-- As the literal that was meant. -/
  | whole (h : q.Encloses content [])
  /-- With three quotes in place of one. -/
  | merged {d : Char} {shown : Text} (hdelimiter : q.delimiter = [d])
      (hcontent : content = d :: d :: shown ++ [d, d]) (h : Encloses ⟨q.sigil, [d, d, d]⟩ shown [])
  /-- As a literal with a comment behind it, which goes up to the end. -/
  | hidden {q' : Quoting} {shown gap body : Text}
      (h : q.Opens content q' shown (gap ++ '#' :: body)) (hbody : '\n' ∉ body)

theorem Opens.reading (h : q.Opens content q' shown []) : q.Reading content := by
  obtain ⟨-, hsigil, hdelimiter, hencloses, hsplit⟩ := h
  rcases hdelimiter with hdelimiter | ⟨d, hone, hthree⟩
  · have hq : q' = q := by
      cases q
      cases q'
      cases hsigil
      cases hdelimiter
      rfl
    subst hq
    have hcontent : content = shown := by simpa [wrap] using hsplit
    rw [← hcontent] at hencloses
    exact .whole hencloses
  · have hq : q' = ⟨q.sigil, [d, d, d]⟩ := by
      cases q'
      cases hsigil
      cases hthree
      rfl
    subst hq
    refine .merged hone ?_ hencloses
    have hclosed : content ++ [d] = d :: d :: shown ++ [d, d] ++ [d] := by
      simpa [wrap, hone] using hsplit
    exact List.append_cancel_right hclosed

/-- Proper quotes are quotation marks. -/
theorem Proper.isQuote_of_mem (hq : q.Proper) {c : Char} (hc : c ∈ q.delimiter) :
    Lexeme.isQuote c = true := by
  obtain ⟨d, hd, hdel, -⟩ := hq
  have hc : c = d := by
    rcases hdel with hdel | hdel <;> simpa [hdel] using hc
  rwa [hc]

/-- The last character of a literal is a quotation mark. -/
theorem Proper.stands_last (hq : q.Proper) (content : Text) :
    ∃ last d, Lexeme.isQuote d = true ∧ size (q.wrap content) = last + 1 ∧
      Stands (q.wrap content) ⟨last, last + 1⟩ [d] := by
  have hback : ∃ front d, q.delimiter = front ++ [d] := by
    obtain ⟨d, -, hdel | hdel, -⟩ := hq
    · exact ⟨[], d, hdel⟩
    · exact ⟨[d, d], d, hdel⟩
  obtain ⟨front, d, hdel⟩ := hback
  have hd : Lexeme.isQuote d = true := by
    refine hq.isQuote_of_mem ?_
    rw [hdel]
    exact List.mem_append_right front List.mem_cons_self
  have hone : Char.utf8Size d = 1 := by
    simp only [Lexeme.isQuote, Bool.or_eq_true, beq_iff_eq] at hd
    rcases hd with rfl | rfl <;> rfl
  have hsplit : q.wrap content = q.sigil ++ q.delimiter ++ content ++ front ++ [d] := by
    simp [wrap, hdel]
  rw [hsplit]
  refine ⟨size (q.sigil ++ q.delimiter ++ content ++ front), d, hd, ?_, _, [],
    (List.append_nil _).symm, ?_⟩
  · rw [Text.size_append]
    simp [size, hone]
  · simp [size, hone]

end Quoting

/-- Where no lexeme covers the quotation mark at the end of a text, a comment does. -/
theorem Lexeme.Lossless.comment_of_quote {source : Text} {ls : List Lexeme} {last : Nat} {d : Char}
    (h : Lossless source ⟨0, size source⟩ ls) (hlast : Stands source ⟨last, last + 1⟩ [d])
    (hsize : size source = last + 1) (hd : isQuote d = true)
    (hfree : ∀ l ∈ ls, l.kind.isSolid = true → ¬ (l.span.start ≤ last ∧ last < l.span.stop)) :
    ∃ a, Comment source ⟨0, size source⟩ ls a ∧ a.start ≤ last ∧ last < a.stop := by
  cases h.passed last (Nat.zero_le _) (by simp only; omega) hfree with
  | blank hstands hc =>
    cases hlast.unique hstands
    rcases hc with rfl | rfl | rfl | rfl <;> cases hd
  | comment hcomment hstart hstop => exact ⟨_, hcomment, hstart, hstop⟩
  | continuation hstands _ hstop =>
    -- The backslash would be the last byte, with no room for a line end.
    have hlength := hstands.size_eq
    have hescape : Char.utf8Size '\\' = 1 := rfl
    have hfeed : Char.utf8Size '\n' = 1 := rfl
    simp only [List.cons_append, size, Text.size_append, hescape, hfeed] at hlength
    simp only at hstop
    omega

namespace Quoting

variable {q q' : Quoting} {content shown rest : Text}

/-- Where a literal is read before the end and only line ends and semicolons come behind it, the
closing quote is in a comment. -/
theorem Opens.reading_of_rest {more : List Lexeme} (h : q.Opens content q' shown rest)
    (hq : q.Proper) (hrest : rest ≠ [])
    (hlossless : Lexeme.Lossless (q.wrap content) ⟨0, size (q.wrap content)⟩
      (⟨.str q', ⟨0, size (q'.wrap shown)⟩, q'.wrap shown⟩ :: more))
    (hmore : ∀ l ∈ more, l.kind = .newline ∨ l.isOp ";" = true ∨ l.kind = .eof) :
    q.Reading content := by
  obtain ⟨last, d, hd, hsize, hlast⟩ := hq.stands_last content
  have hbehind : size (q'.wrap shown) ≤ last := by
    have hpos := Text.size_pos hrest
    have hsplit := congrArg size h.split
    rw [Text.size_append] at hsplit
    omega
  have hfree : ∀ l ∈ (⟨.str q', ⟨0, size (q'.wrap shown)⟩, q'.wrap shown⟩ : Lexeme) :: more,
      l.kind.isSolid = true → ¬ (l.span.start ≤ last ∧ last < l.span.stop) := by
    refine List.forall_mem_cons.2 ⟨fun _ hin => ?_, fun l hl hsolid hin => ?_⟩
    · simp only at hin
      omega
    rcases hmore l hl with hk | hop | hk
    · rw [hk] at hsolid
      cases hsolid
    · have hstands := (hlossless.stands l (List.mem_cons_of_mem _ hl) hsolid).1
      have hmem := hstands.mem hlast hin.1 hin.2
      simp only [Lexeme.isOp, Bool.and_eq_true, beq_iff_eq] at hop
      have hsemicolon : d = ';' := by simpa [hop.2, Text.of] using hmem
      rw [hsemicolon] at hd
      cases hd
    · rw [hk] at hsolid
      cases hsolid
  obtain ⟨a, hcomment, -, hstop⟩ := hlossless.comment_of_quote hlast hsize hd hfree
  obtain ⟨body, hstands, hbody⟩ := hcomment.text
  have hbegin : size (q'.wrap shown) ≤ a.start := by
    rcases hcomment.free _ List.mem_cons_self rfl with hfree | hfree
    · exact hfree
    · simp only at hfree
      omega
  obtain ⟨gap, hgap⟩ := hstands.exists_gap h.split hbegin (by omega)
  rw [hgap] at h
  exact .hidden h hbody

/-- A comment is not in the quotes but in what stands between them. -/
theorem Opens.comment_mem {gap body : Text} (h : q.Opens content q' shown (gap ++ '#' :: body))
    (hq : q.Proper) : '#' ∈ content := by
  have hmem : '#' ∈ q.wrap content := by
    rw [h.split]
    simp
  have hsigil : '#' ∉ q.sigil := by
    obtain ⟨d, -, -, hsigil | ⟨c, hc, hsigil⟩⟩ := hq <;> rw [hsigil]
    · simp
    · intro hin
      cases List.mem_singleton.1 hin
      simp [Lexeme.beginsSigil] at hc
  have hdelimiter : '#' ∉ q.delimiter := by
    intro hin
    cases hq.isQuote_of_mem hin
  simpa [wrap, hsigil, hdelimiter] using hmem

/-- Without two quotes in front and without a number sign a literal is read as it is meant. -/
theorem Reading.encloses (h : q.Reading content) (hq : q.Proper) (hcomment : '#' ∉ content)
    (hopen : ∀ d, q.delimiter = [d] → ¬ [d, d] <+: content) : q.Encloses content [] := by
  cases h with
  | whole h => exact h
  | @merged d shown hdelimiter hcontent _ =>
    exact absurd ⟨shown ++ [d, d], by simp [hcontent]⟩ (hopen d hdelimiter)
  | hidden h _ => exact absurd (h.comment_mem hq) hcomment

end Quoting

namespace Script

variable {q : Quoting} {rendition text : Text} {t : Tree} {site : Site} {phrase : Text} {e : Edit}

/-- What is accepted in place of a literal is read as a string. -/
theorem reading_of_planLiteral (hq : q.Proper) (h : planLiteral q rendition = .ok text) :
    q.Reading rendition := by
  simp only [planLiteral] at h
  split at h
  · cases h
  · next parsed hparsed =>
    split at h
    · next hstring =>
      have hlexemes := hparsed
      simp only [Tree.ofExpression, bind_ok_iff] at hlexemes
      obtain ⟨ls, hls, -⟩ := hlexemes
      obtain ⟨q', shown, rest, more, hopens, rfl⟩ := Text.lexemes_quoted hq hls
      have hmore := Tree.lexemes_of_isString hparsed hstring hls rfl
      by_cases hrest : rest = []
      · subst hrest
        exact hopens.reading
      · exact hopens.reading_of_rest hq hrest (Text.lossless_self hls) hmore
    · cases h

/-- Without a number sign a rendition is accepted exactly if it is the content of a literal in the
quotes it is given, or makes one in three. -/
theorem planLiteral_eq_ok_iff (hq : q.Proper) (hcomment : '#' ∉ rendition) :
    planLiteral q rendition = .ok (q.wrap rendition) ↔ q.Encloses rendition [] ∨
      ∃ d shown, q.delimiter = [d] ∧ rendition = d :: d :: shown ++ [d, d] ∧
        Quoting.Encloses ⟨q.sigil, [d, d, d]⟩ shown [] := by
  constructor
  · intro h
    cases reading_of_planLiteral hq h with
    | whole h => exact .inl h
    | merged hdelimiter hrendition h => exact .inr ⟨_, _, hdelimiter, hrendition, h⟩
    | hidden h _ => exact absurd (h.comment_mem hq) hcomment
  · rintro (h | ⟨d, shown, hdelimiter, rfl, h⟩)
    · exact planLiteral_of_encloses hq h
    · have hthree : Quoting.Proper ⟨q.sigil, [d, d, d]⟩ := by
        obtain ⟨d', hd', hdel | hdel, hsigil⟩ := hq <;> rw [hdelimiter] at hdel <;> cases hdel
        exact ⟨d, hd', .inr rfl, hsigil⟩
      have hsame : q.wrap (d :: d :: shown ++ [d, d]) =
          Quoting.wrap ⟨q.sigil, [d, d, d]⟩ shown := by
        simp [Quoting.wrap, hdelimiter]
      simp only [planLiteral, hsame, Tree.ofExpression_wrap hthree h]
      rfl

theorem planLiteral_of_planEdit (hform : site.form = .literal q)
    (h : planEdit t site phrase rendition = .ok (some e)) :
    planLiteral q rendition = .ok e.text := by
  obtain ⟨rfl, -⟩ := planEdit_eq_some h
  rw [planEdit_eq] at h
  split at h
  · cases h
  · split at h
    · cases h
    · cases hplan : planForm t site.span rendition site.form with
      | error refusal => simp [hplan, Except.map] at h
      | ok text =>
        have htext := (planForm_eq_ok hplan).1
        rw [hform, planForm, htext] at hplan
        exact hplan

/-- An accepted rendition of a literal is one literal with the same quotes and with this content,
unless it has a number sign or begins with two quotes of the one that opens the literal. -/
theorem planEdit_quoted (hform : site.form = .literal q) (hq : q.Proper)
    (hcomment : '#' ∉ rendition) (hopen : ∀ d, q.delimiter = [d] → ¬ [d, d] <+: rendition)
    (h : planEdit t site phrase rendition = .ok (some e)) :
    e.text.lexemes ⟨0, size e.text⟩ = .ok
      [⟨.str q, ⟨0, size e.text⟩, e.text⟩, ⟨.newline, ⟨size e.text, size e.text⟩, []⟩,
        ⟨.eof, ⟨size e.text, size e.text⟩, []⟩] ∧ contentOf q e.text = rendition := by
  have hplan := planLiteral_of_planEdit hform h
  have hencloses := (reading_of_planLiteral hq hplan).encloses hq hcomment hopen
  obtain ⟨rfl, -⟩ := planEdit_eq_some h
  rw [hform]
  exact ⟨Text.lexemes_wrap hq hencloses, contentOf_wrap q rendition⟩

/-- A rendition that closes its literal is accepted with a comment in it: the text is a shorter
literal. -/
theorem planLiteral_hidden :
    let text := Text.of "\"a\" #\""
    planLiteral ⟨[], ['"']⟩ (Text.of "a\" #") = .ok text ∧
      text.lexemes ⟨0, size text⟩ = .ok
        [⟨.str ⟨[], ['"']⟩, ⟨0, 3⟩, Text.of "\"a\""⟩, ⟨.newline, ⟨6, 6⟩, []⟩,
          ⟨.eof, ⟨6, 6⟩, []⟩] := by
  decide +kernel

/-- A rendition that begins and ends with two quotes is accepted: the text is a literal in three. -/
theorem planLiteral_merged :
    let text := Text.of "\"\"\"a\"\"\""
    planLiteral ⟨[], ['"']⟩ (Text.of "\"\"a\"\"") = .ok text ∧
      text.lexemes ⟨0, size text⟩ = .ok
        [⟨.str ⟨[], ['"', '"', '"']⟩, ⟨0, 7⟩, text⟩, ⟨.newline, ⟨7, 7⟩, []⟩,
          ⟨.eof, ⟨7, 7⟩, []⟩] := by
  decide +kernel

end Script

end Phrasebook
