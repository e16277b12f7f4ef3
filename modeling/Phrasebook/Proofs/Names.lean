import Phrasebook.Proofs.Candidates
import Phrasebook.Proofs.WellFormed

/-!
Names among the string literals.

`Finds.Excluded` lists what makes a literal a name and not a text, and nothing else does
(`Finds.isText_iff`). No such literal is found as a literal, whatever stands around it
(`Tree.apart_of_excluded`). An argument that is skipped covers all that is in it, but a key or an
index is a name only by its own place: the literals in a longer index are found
(`Tree.exists_find_of_below_index`), and so is one in parentheses (`Tree.finds_parenthesized`).
-/
namespace Phrasebook

open Text (Stands)

namespace Finds

variable {rules : CallRules} {source content : Text} {lit n : Node.Located} {q : Quoting}

/-- What makes a literal with this quoting and content no text for people. -/
inductive Excluded (rules : CallRules) (source : Text) (lit : Node.Located) (q : Quoting)
    (content : Text) : Prop where
  | sigil (h : q.sigil = ['&'] ∨ q.sigil = ['^'])
  | blank (h : content.isBlank = true)
  | resource (h : Text.of "res://" <+: content ∨ Text.of "user://" <+: content)
  | key {pair : Node} {above : List (Node × Nat)} (h : lit.above = (pair, 0) :: above)
      (hkind : pair.kind = .pair)
  | index {subscript : Node} {above : List (Node × Nat)} (h : lit.above = (subscript, 1) :: above)
      (hkind : subscript.kind = .index)
  /-- The literal lies in an argument that the rules skip, at any depth. -/
  | argument {call : Node} {i : Nat} (h : (call, i + 1) ∈ lit.above) (hkind : call.kind = .call)
      (hskip : rules.skips (calleeOf source call) i call.arguments.length = true)

theorem isName_iff : isName n = true ↔ ∃ parent i above, n.above = (parent, i) :: above ∧
    (parent.kind = .pair ∧ i = 0 ∨ parent.kind = .index ∧ i = 1) := by
  unfold isName
  split
  · next parent i above h =>
    rw [h]
    simp only [Bool.or_eq_true, Bool.and_eq_true, beq_iff_eq, List.cons.injEq, Prod.mk.injEq]
    constructor
    · intro hplace
      exact ⟨parent, i, above, ⟨⟨rfl, rfl⟩, rfl⟩, hplace⟩
    · rintro ⟨_, _, _, ⟨⟨rfl, rfl⟩, rfl⟩, hplace⟩
      exact hplace
  · next h => simp [h]

theorem isSkipped_iff : isSkipped rules source n = true ↔ ∃ call i, (call, i + 1) ∈ n.above ∧
    call.kind = .call ∧ rules.skips (calleeOf source call) i call.arguments.length = true := by
  unfold isSkipped
  simp only [List.any_eq_true, Bool.and_eq_true, beq_iff_eq, decide_eq_true_eq]
  constructor
  · rintro ⟨⟨call, i⟩, hmem, ⟨hkind, hpos⟩, hskip⟩
    obtain ⟨i, rfl⟩ := Nat.exists_eq_add_one.2 hpos
    exact ⟨call, i, hmem, hkind, hskip⟩
  · rintro ⟨call, i, hmem, hkind, hskip⟩
    exact ⟨(call, i + 1), hmem, ⟨hkind, Nat.succ_pos i⟩, hskip⟩

/-- A literal is text unless there is a reason against it. -/
theorem isText_iff (hkind : lit.node.kind = .string q)
    (hstands : Stands source lit.node.span (q.wrap content)) :
    isText rules source lit = true ↔ ¬ Excluded rules source lit q content := by
  simp only [isText, hkind, Node.content?_eq hkind hstands, Option.any_some, Text.isTranslatable]
  constructor
  · intro h hno
    simp only [Bool.and_eq_true, Bool.not_eq_true', bne_iff_ne, ne_eq] at h
    obtain ⟨⟨⟨⟨hname, hpath⟩, ⟨hblank, hres⟩, huser⟩, hplace⟩, hskipped⟩ := h
    cases hno with
    | sigil h => exact h.elim hname hpath
    | blank h =>
      rw [h] at hblank
      cases hblank
    | resource h =>
      rw [← List.isPrefixOf_iff_prefix, ← List.isPrefixOf_iff_prefix, hres, huser] at h
      simp at h
    | key h hkind =>
      rw [isName_iff.2 ⟨_, _, _, h, .inl ⟨hkind, rfl⟩⟩] at hplace
      cases hplace
    | index h hkind =>
      rw [isName_iff.2 ⟨_, _, _, h, .inr ⟨hkind, rfl⟩⟩] at hplace
      cases hplace
    | argument h hkind hskip =>
      rw [isSkipped_iff.2 ⟨_, _, h, hkind, hskip⟩] at hskipped
      cases hskipped
  · intro h
    have hplace : isName lit ≠ true := by
      intro hname
      obtain ⟨parent, i, above, habove, ⟨hk, rfl⟩ | ⟨hk, rfl⟩⟩ := isName_iff.1 hname
      · exact h (.key habove hk)
      · exact h (.index habove hk)
    have hskipped : isSkipped rules source lit ≠ true := by
      intro hskip
      obtain ⟨call, i, hmem, hk, hskip⟩ := isSkipped_iff.1 hskip
      exact h (.argument hmem hk hskip)
    have hname : q.sigil ≠ ['&'] := fun hs => h (.sigil (.inl hs))
    have hpath : q.sigil ≠ ['^'] := fun hs => h (.sigil (.inr hs))
    have hblank : content.isBlank ≠ true := fun hb => h (.blank hb)
    have hres : ¬ Text.of "res://" <+: content := fun hp => h (.resource (.inl hp))
    have huser : ¬ Text.of "user://" <+: content := fun hp => h (.resource (.inr hp))
    rw [← List.isPrefixOf_iff_prefix] at hres huser
    simp [hname, hpath, hblank, hres, huser, hplace, hskipped]

/-- A literal that is text is found with its content as the phrase. -/
theorem exists_mem_literal (htext : isText rules source lit = true)
    (hkind : lit.node.kind = .string q) (hstands : Stands source lit.node.span (q.wrap content))
    (context : Text) :
    ∃ f ∈ literal rules source context lit,
      f.site = ⟨lit.node.span, .literal q⟩ ∧ f.entry.phrase = content := by
  simp only [literal, htext, if_true, hkind, Node.contentSpan?, Text.slice_wrap hstands,
    List.mem_singleton]
  exact ⟨_, rfl, rfl, rfl⟩

end Finds

namespace Tree

open Finds

variable {rules : CallRules} {source content : Text} {t : Tree} {lit n : Node.Located}
  {q q' : Quoting} {f : Find}

/-- No literal is found at a literal that is a name by what it says or by where it stands. -/
theorem apart_of_excluded (h : ofScript source = .ok t) (hlit : lit ∈ t.root.locate [])
    (hkind : lit.node.kind = .string q) (hstands : Stands source lit.node.span (q.wrap content))
    (hno : Excluded rules source lit q content) (hf : f ∈ t.finds rules)
    (hform : f.site.form = .literal q') : f.site.span.Apart lit.node.span := by
  obtain ⟨found, hfound, htext, -, hspan⟩ := finds_quoted h hf hform
  have hne : found ≠ lit := by
    rintro rfl
    exact (isText_iff hkind hstands).1 htext hno
  have hstring : lit.node.kind.isString = true := by
    rw [hkind]
    rfl
  have hroot : (⟨t.root, []⟩ : Node.Located).node.Laid source := (rooted_of_ofScript h).laid
  rw [hspan]
  exact strings_apart hroot hfound (isString_of_isText htext) hlit hstring hne

/-- In the initial value of a variable that is a subscript, each literal is found that is not
excluded, also inside the index. -/
theorem exists_find_of_below_index {name : Text} {value : Node} (h : ofScript source = .ok t)
    (hn : n ∈ t.root.locate []) (hvar : n.node.kind = .varDecl name)
    (hvalue : n.node.value? = some value) (hindex : value.kind = .index)
    (hlit : lit ∈ value.locate ((n.node, 0) :: n.above)) (hkind : lit.node.kind = .string q)
    (hstands : Stands source lit.node.span (q.wrap content))
    (htext : ¬ Excluded rules source lit q content) :
    ∃ f ∈ t.finds rules, f.site = ⟨lit.node.span, .literal q⟩ ∧ f.entry.phrase = content := by
  obtain ⟨hsource, -, -⟩ := laid_of_ofScript h
  have hhead : n.node.children[0]? = some value := by
    rw [Node.value?, hvar] at hvalue
    rw [← List.head?_eq_getElem?]
    exact hvalue
  have hbelow : lit ∈ n.node.locate n.above := Node.mem_locate.2 (.inr ⟨0, value, hhead, hlit⟩)
  have hstring : lit.node.kind.isString = true := by
    rw [hkind]
    rfl
  have hhas : n.node.hasString = true := Node.hasString_iff.2 ⟨lit, hbelow, hstring⟩
  have hnode : ofNode rules source n =
      literals rules source (n.node.text source) ⟨value, (n.node, 0) :: n.above⟩ := by
    simp only [ofNode, hvar, hhas, if_true, statement, hvalue, hindex]
  obtain ⟨f, hf, hfind⟩ :=
    exists_mem_literal ((isText_iff hkind hstands).2 htext) hkind hstands (n.node.text source)
  refine ⟨f, List.mem_flatMap.2 ⟨n, hn, ?_⟩, hfind⟩
  rw [hsource, hnode]
  exact mem_literals.2 ⟨lit, hlit, (isText_iff hkind hstands).2 htext, hf⟩

/-- In parentheses the index of a table is found as a text. -/
theorem finds_parenthesized :
    let source := Text.of "var x = data[(\"key\")]\n"
    ∃ t, ofScript source = .ok t ∧ ∃ subscript ∈ t.root.preorder, subscript.kind = .index ∧
      ∃ index, subscript.children[1]? = some index ∧ ∃ f ∈ t.finds .builtin,
        index.span.contains f.site.span = true ∧ f.site.form = .literal ⟨[], ['"']⟩ ∧
          f.entry.phrase = Text.of "key" := by
  intro source
  have hfound : (ofScript source).toOption.any (fun t => t.root.preorder.any fun subscript =>
      subscript.kind == .index && subscript.children[1]?.any fun index =>
        (t.finds .builtin).any fun f => index.span.contains f.site.span &&
          (f.site.form == .literal ⟨[], ['"']⟩ && f.entry.phrase == Text.of "key")) = true := by
    decide +kernel
  obtain ⟨t, ht, hfound⟩ := exists_ok_of_any hfound
  simp only [List.any_eq_true, Bool.and_eq_true, beq_iff_eq, Option.any_eq_true] at hfound
  obtain ⟨subscript, hsub, hkind, index, hindex, f, hf, hin, hform, hphrase⟩ := hfound
  exact ⟨t, ht, subscript, hsub, hkind, index, hindex, f, hf, hin, hform, hphrase⟩

end Tree

end Phrasebook
