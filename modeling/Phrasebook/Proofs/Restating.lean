import Phrasebook.Proofs.Planning
import Phrasebook.Proofs.Replacing

/-!
A phrase as its own rendition.

Nothing changes where a phrase is written again, yet it is checked as every rendition is: by itself,
and not where it stands. Only this check can fail (`Script.planEdit_self`). A literal passes it, since
alone it is read as in the script (`Script.planEdit_self_literal`). An expression may not: the brackets
that joined its lines are left behind (`Script.planEdit_self_lines`).
-/
namespace Phrasebook

open Text (size)

variable {q : Quoting} {content : Text}

theorem Quoting.Proper.exists_head (hq : q.Proper) (content : Text) : ∃ c r,
    q.wrap content = c :: r ∧ Lexeme.isGap c = false ∧ c ≠ '\n' ∧ c ≠ '#' ∧ c ≠ '\\' := by
  obtain ⟨d, hd, hdel, hsigil⟩ := hq
  obtain ⟨ds, hds⟩ := exists_delimiter_eq hdel
  rcases hsigil with hsigil | ⟨c, hc, hsigil⟩
  · refine ⟨d, ds ++ content ++ d :: ds, by simp [wrap, hsigil, hds], ?_⟩
    simp only [Lexeme.isQuote, Bool.or_eq_true, beq_iff_eq] at hd
    rcases hd with rfl | rfl <;> decide
  · refine ⟨c, q.delimiter ++ content ++ q.delimiter, by simp [wrap, hsigil], ?_⟩
    simp only [Lexeme.beginsSigil, Bool.and_eq_true, Bool.or_eq_true, beq_iff_eq] at hc
    rcases hc.1 with (rfl | rfl) | rfl <;> decide

/-- A text that begins with quotes begins with a lexeme. -/
theorem Scanner.step_quoted (hq : q.Proper) (content : Text) :
    (fresh (q.wrap content) 0).step none =
      { fresh (q.wrap content) 0 with indents := [0], lineStart := false }.lexeme none := by
  obtain ⟨c, r, hwrap, hgap, hline, hcomment, hescape⟩ := hq.exists_head content
  rw [hwrap]
  have hindent : (fresh (c :: r) 0).indentation =
      { fresh (c :: r) 0 with indents := [0], lineStart := false } := by
    simp [indentation, settle, fresh, pass, hgap, hline, hcomment, size, width]
  have hcontinue : continuation? (c :: r) = none := by
    unfold continuation?
    split
    · next heq => exact absurd (List.cons.inj heq).1 hescape
    · rfl
  have hstart : (fresh (c :: r) 0).lineStart ∧ (fresh (c :: r) 0).depth = 0 := ⟨rfl, rfl⟩
  rw [step, if_pos hstart, hindent]
  simp [token, fresh, hgap, hline, hcomment, hcontinue]

/-- A literal that is the whole text is read in one step. -/
theorem Scanner.step_wrap (hq : q.Proper) (h : q.Encloses content []) :
    (fresh (q.wrap content) 0).step none = .ok
      { rest := [], pos := size (q.wrap content), depth := 0, indents := [0], lineStart := false
        out := [⟨.str q, ⟨0, size (q.wrap content)⟩, q.wrap content⟩] } := by
  have hread := Lexeme.read_wrap hq h none
  rw [List.append_nil] at hread
  rw [step_quoted hq]
  simp [lexeme, fresh, hread, pass, Lexeme.opens, Lexeme.closes, Lexeme.isOp]

theorem Text.lexemes_wrap (hq : q.Proper) (h : q.Encloses content []) :
    (q.wrap content).lexemes ⟨0, size (q.wrap content)⟩ = .ok
      [⟨.str q, ⟨0, size (q.wrap content)⟩, q.wrap content⟩,
        ⟨.newline, ⟨size (q.wrap content), size (q.wrap content)⟩, []⟩,
        ⟨.eof, ⟨size (q.wrap content), size (q.wrap content)⟩, []⟩] := by
  have hne : (Scanner.fresh (q.wrap content) 0).rest ≠ [] := hq.wrap_ne_nil content
  have hrun := (Scanner.run_of_step hne (Scanner.step_wrap hq h)).trans
    (by rw [Scanner.run, dif_pos rfl])
  exact lexemes_self_eq_ok_iff.2 ⟨_, hrun, rfl, rfl⟩

theorem Tree.ofExpression_wrap (hq : q.Proper) (h : q.Encloses content []) :
    ofExpression (q.wrap content) = .ok ⟨q.wrap content, ⟨0, size (q.wrap content)⟩,
      ⟨.script, ⟨0, size (q.wrap content)⟩, [⟨.string q, ⟨0, size (q.wrap content)⟩, []⟩]⟩⟩ := by
  simp only [ofExpression]
  rw [Text.lexemes_wrap hq h]
  rfl

namespace Script

theorem planLiteral_of_encloses (hq : q.Proper) (h : q.Encloses content []) :
    planLiteral q content = .ok (q.wrap content) := by
  simp only [planLiteral, Tree.ofExpression_wrap hq h]
  rfl

variable {source : Text} {t : Tree} {rules : CallRules} {f : Find}

/-- Whether a phrase can be written again is only a matter of its own text. -/
theorem planEdit_self (h : Tree.ofScript source = .ok t) (hf : f ∈ t.finds rules) :
    planEdit t f.site f.entry.phrase f.entry.phrase =
      (planForm t f.site.span f.entry.phrase f.site.form).map fun _ => none := by
  obtain ⟨hsource, -⟩ := Tree.laid_of_ofScript h
  obtain ⟨-, hstands⟩ := Tree.finds_exact h hf
  rw [← hsource] at hstands
  rw [planEdit_eq, hstands.slice?_eq]
  simp only [Site.Form.read_write, ne_eq, not_true_eq_false, if_false]
  cases hplan : planForm t f.site.span f.entry.phrase f.site.form with
  | error refusal => rfl
  | ok text =>
    rw [(planForm_eq_ok hplan).1]
    simp [Except.map]

/-- A literal can always be written again. -/
theorem planEdit_self_literal (h : Tree.ofScript source = .ok t) (hf : f ∈ t.finds rules)
    (hq : f.site.form = .literal q) :
    planEdit t f.site f.entry.phrase f.entry.phrase = .ok none := by
  obtain ⟨lit, hlit, htext, hkind, hspan⟩ := Tree.finds_quoted h hf hq
  obtain ⟨-, hstands⟩ := Tree.finds_exact h hf
  rw [hq, hspan] at hstands
  have hmem : lit.node ∈ t.root.preorder := by
    rw [← Node.map_node_locate t.root []]
    exact List.mem_map_of_mem hlit
  -- The literal is read somewhere in the script, with this content.
  obtain ⟨s, -, hnodes⟩ := Tree.literals_of_ofScript h
  obtain ⟨content, hliteral⟩ := hnodes lit.node hmem q hkind
  have hwrap : q.wrap content = q.wrap f.entry.phrase := hliteral.stands.unique hstands
  have hcontent : content = f.entry.phrase := by
    rw [← contentOf_wrap q content, hwrap, contentOf_wrap]
  obtain ⟨rest, hencloses⟩ := hliteral.encloses
  rw [hcontent] at hencloses
  have hne : f.entry.phrase ≠ [] := by
    intro hnil
    rw [hnil] at hstands
    have hblank := Node.content?_eq hkind hstands
    simp [Finds.isText, hkind, hblank, Text.isTranslatable, Text.isBlank] at htext
  have halone := hencloses.of_ne_nil hliteral.proper hne []
  rw [planEdit_self h hf, hq, planForm, planLiteral_of_encloses hliteral.proper halone]
  rfl

/-- An argument of two lines. -/
def twoLines : Text := Text.of "func f():\n\tsay(\"Hi \" +\n\t\tname)\n"

/-- An expression that goes on in another line cannot be written again. -/
theorem planEdit_self_lines : ∃ t, Tree.ofScript twoLines = .ok t ∧ ∃ f ∈ t.finds .builtin,
    ∃ refusal, planEdit t f.site f.entry.phrase f.entry.phrase = .error refusal := by
  have hok : (Tree.ofScript twoLines).toOption.any (fun t => (t.finds .builtin).any fun f =>
      !(planEdit t f.site f.entry.phrase f.entry.phrase).toBool) = true := by
    decide +kernel
  obtain ⟨t, h, hfound⟩ := exists_ok_of_any hok
  obtain ⟨f, hf, hrefused⟩ := List.any_eq_true.1 hfound
  refine ⟨t, h, f, hf, ?_⟩
  cases hplan : planEdit t f.site f.entry.phrase f.entry.phrase with
  | error refusal => exact ⟨refusal, rfl⟩
  | ok edit => simp [hplan, Except.toBool] at hrefused

end Script

end Phrasebook
