import Phrasebook.Proofs.Arena
import Phrasebook.Proofs.Shape
import Phrasebook.Proofs.Grammar.CuttingStatement

/-!
Where statements end, and how far the headers of branches go.

An expression is read from lexemes that have text (`Cursor.Derives.readsText`), so no line ends in
between. Hence the header of a branch, from its word to the end of its condition, joins lexemes with
text that stand side by side, and a simple statement ends with such a lexeme. The rules of statements
give only nodes of which this holds, and all below them (`Cursor.anchored_of_statements`).
-/
namespace Phrasebook

/-- The span covers lexemes with text that stand side by side. -/
def Lexeme.Joins (ls : List Lexeme) (a : Span) : Prop :=
  ∃ run, run <:+: ls ∧ (∀ l ∈ run, l.kind.isSolid = true) ∧
    (∃ l ∈ run.head?, a.start = l.span.start) ∧ ∃ l ∈ run.getLast?, a.stop = l.span.stop

namespace Node

/-- The header of a branch: up to the end of its condition. -/
def header? (n : Node) : Option Span := n.condition?.map fun c => ⟨n.span.start, c.span.stop⟩

/-- What the lexemes say about the ends of a node. -/
structure Anchored (ls : List Lexeme) (n : Node) : Prop where
  stop : n.kind.isSimple = true → ∃ l ∈ ls, l.kind.isSolid = true ∧ n.span.stop = l.span.stop
  header : ∀ a ∈ n.header?, Lexeme.Joins ls a

/-- The same for nodes and all below them. -/
def AnchoredAll (ls : List Lexeme) (ns : List Node) : Prop := ∀ m ∈ preorderAll ns, m.Anchored ls

variable {source : Text} {ls : List Lexeme} {n : Node} {ns ms : List Node} {lo hi : Nat}

theorem header?_eq_none (hg : n.kind.isGuarded = false) : n.header? = none := by
  rw [header?, Option.map_eq_none_iff]
  unfold condition?
  split
  · next hk => simp [hk, Kind.isGuarded] at hg
  · next hk => simp [hk, Kind.isGuarded] at hg
  · rfl

/-- Nothing is said about other nodes. -/
theorem anchored_of_kind (hs : n.kind.isSimple = false) (hg : n.kind.isGuarded = false) :
    n.Anchored ls :=
  ⟨by simp [hs], by simp [header?_eq_none hg]⟩

theorem anchoredAll_nil : AnchoredAll ls [] := by simp [AnchoredAll, preorderAll]

theorem anchoredAll_append : AnchoredAll ls (ns ++ ms) ↔ AnchoredAll ls ns ∧ AnchoredAll ls ms := by
  simp only [AnchoredAll, Arena.mem_preorderAll, List.mem_append]
  constructor
  · intro h
    exact ⟨fun m ⟨c, hc, hm⟩ => h m ⟨c, .inl hc, hm⟩, fun m ⟨c, hc, hm⟩ => h m ⟨c, .inr hc, hm⟩⟩
  · rintro ⟨h, h'⟩ m ⟨c, hc | hc, hm⟩
    · exact h m ⟨c, hc, hm⟩
    · exact h' m ⟨c, hc, hm⟩

theorem anchoredAll_cons : AnchoredAll ls (n :: ns) ↔ AnchoredAll ls [n] ∧ AnchoredAll ls ns := by
  rw [← List.singleton_append, anchoredAll_append]

theorem AnchoredAll.of_mem (h : AnchoredAll ls ns) (hn : n ∈ ns) : AnchoredAll ls [n] := by
  obtain ⟨before, after, rfl⟩ := List.append_of_mem hn
  exact (anchoredAll_cons.1 (anchoredAll_append.1 h).2).1

theorem anchoredAll_single :
    AnchoredAll ls [n] ↔ n.Anchored ls ∧ AnchoredAll ls n.children := by
  obtain ⟨kind, span, children⟩ := n
  simp [AnchoredAll, preorderAll, preorder]

/-- A statement that is neither simple nor a branch, from its parts. -/
theorem AnchoredAll.node {kind : Kind} {span : Span} (h : AnchoredAll ls ns)
    (hs : kind.isSimple = false) (hg : kind.isGuarded = false) :
    AnchoredAll ls [⟨kind, span, ns⟩] :=
  anchoredAll_single.2 ⟨anchored_of_kind hs hg, h⟩

theorem Laid.anchored_expression (h : n.Laid source) (he : n.kind.isExpression = true) :
    AnchoredAll ls [n] := by
  intro m hm
  rw [preorderAll, preorderAll, List.append_nil, ← map_node_locate n []] at hm
  obtain ⟨l, hl, rfl⟩ := List.mem_map.1 hm
  obtain ⟨hs, -, hg⟩ := Kind.not_compound_of_isExpression (h.isExpression_below he l hl)
  exact anchored_of_kind hs hg

theorem Expressions.anchored (h : Expressions source lo hi ns) : AnchoredAll ls ns := by
  intro m hm
  obtain ⟨n, hn, hm⟩ := Arena.mem_preorderAll.1 hm
  refine (h.row.of_mem hn).1.anchored_expression (h.all n hn) m ?_
  rw [preorderAll, preorderAll, List.append_nil]
  exact hm

/-- A simple statement, from where it ends. -/
theorem Laid.anchored_simple (h : n.Laid source) (hs : n.kind.isSimple = true)
    (hstop : ∃ l ∈ ls, l.kind.isSolid = true ∧ n.span.stop = l.span.stop) :
    AnchoredAll ls [n] := by
  have hheader := header?_eq_none (Kind.isGuarded_of_isSimple hs)
  exact anchoredAll_single.2 ⟨⟨fun _ => hstop, by simp [hheader]⟩,
    Expressions.anchored ⟨h.row, h.fit.expressions (.inr hs)⟩⟩

end Node

namespace Cursor

open Grammar Node

variable {source : Text} {c₀ c c₁ c₂ : Cursor} {n : Node} {ns : List Node} {fuel start last : Nat}

/-! ### Lexemes with text -/

/-- From one cursor to the other only lexemes with text are read. -/
def ReadsText (c c₁ : Cursor) : Prop :=
  ∃ run, c.rest = run ++ c₁.rest ∧ ∀ l ∈ run, l.kind.isSolid = true

theorem ReadsText.refl (c : Cursor) : ReadsText c c := ⟨[], rfl, by simp⟩

theorem ReadsText.trans (h : ReadsText c c₁) (h' : ReadsText c₁ c₂) : ReadsText c c₂ := by
  obtain ⟨run, hrun, hsolid⟩ := h
  obtain ⟨run', hrun', hsolid'⟩ := h'
  refine ⟨run ++ run', ?_, List.forall_mem_append.2 ⟨hsolid, hsolid'⟩⟩
  rw [hrun, hrun', List.append_assoc]

theorem rest_eq_cons (hs : c.kind.isSolid = true) : c.rest = c.peek :: c.advance.rest := by
  obtain ⟨rest, last⟩ := c
  cases rest with
  | nil => cases hs
  | cons l r =>
    have hl : l.kind.isSolid = true := hs
    simp only [advance]
    split
    · next heof =>
      rw [heof] at hl
      cases hl
    · rfl

theorem readsText_advance (hs : c.kind.isSolid = true) : ReadsText c c.advance :=
  ⟨[c.peek], rest_eq_cons hs, List.forall_mem_singleton.2 hs⟩

theorem readsText_isOp {op : String} (h : c.isOp op = true) : ReadsText c c.advance :=
  readsText_advance (solid_of_isOp h)

theorem readsText_isWord {w : String} (h : c.isWord w = true) : ReadsText c c.advance :=
  readsText_advance (solid_of_isWord h)

theorem readsText_word (h : c.kind = .word) : ReadsText c c.advance :=
  readsText_advance (by rw [h]; rfl)

theorem readsText_pathTail (last : Nat) (r : List Lexeme) :
    ReadsText ⟨r, last⟩ (pathTail last r) := by
  fun_induction pathTail last r with
  | case1 last slash name r hp ih =>
    simp only [Bool.and_eq_true, Bool.or_eq_true, beq_iff_eq, Lexeme.isOp] at hp
    obtain ⟨⟨⟨⟨hop, -⟩, -⟩, -⟩, hname⟩ := hp
    obtain ⟨run, hrun, hsolid⟩ := ih
    refine ⟨slash :: name :: run, congrArg (slash :: name :: ·) hrun, ?_⟩
    simp only [List.forall_mem_cons]
    refine ⟨by rw [hop]; rfl, ?_, hsolid⟩
    rcases hname with hname | hname <;> rw [hname] <;> rfl
  | case2 => exact .refl _
  | case3 => exact .refl _

theorem readsText_nodePath (hs : c.kind.isSolid = true) (h : c.nodePath = .ok (n, c₁)) :
    ReadsText c c₁ := by
  have hfirst := readsText_advance hs
  unfold nodePath at h
  simp only at h
  split at h
  · next q hk =>
    cases h
    exact hfirst.trans (readsText_advance (by rw [hk]; rfl))
  · next hk =>
    cases h
    exact hfirst.trans ((readsText_word hk).trans (readsText_pathTail _ _))
  · cases h

theorem readsText_wordExpression (hk : c.kind = .word) (h : c.wordExpression = .ok (n, c₁)) :
    ReadsText c c₁ := by
  unfold wordExpression at h
  split at h
  · cases h
    exact readsText_word hk
  · split at h
    · cases h
    · split at h
      · cases h
      · cases h
        exact readsText_word hk

theorem readsText_binaryOp? {level : Nat} {op : Text} (h : c.binaryOp? = some (level, op, c₁)) :
    ReadsText c c₁ := by
  rw [Cutting.binaryOp?_eq] at h
  split at h
  · next hnot =>
    rw [Bool.and_eq_true] at hnot
    cases h
    exact (readsText_isWord hnot.1).trans (readsText_isWord hnot.2)
  · obtain ⟨level', hlevel, he⟩ := Option.map_eq_some_iff.1 h
    cases he
    refine readsText_advance ?_
    rcases kind_of_binaryLevel? hlevel with hk | hk <;> rw [hk] <;> rfl

/-- An expression is read from lexemes with text, in whatever way its rules go. -/
theorem Derives.readsText {r : Rule} (h : Derives r c ns c₁) : ReadsText c c₁ := by
  induction h with
  | value first noIf ih => exact ih
  | ternary first hif second helse third ih₁ ih₂ ih₃ =>
    have hcondition := (readsText_isWord hif).trans ih₂
    exact ih₁.trans (hcondition.trans ((readsText_isWord helse).trans ih₃))
  | binary first rest ih₁ ih₂ | chain first rest ih₁ ih₂ => exact ih₁.trans ih₂
  | binaryEnd hend | chainEnd hend => exact .refl _
  | typeOperator hop hlevel htype second rest ih₁ ih₂
  | operator hop hlevel htype second rest ih₁ ih₂ =>
    exact (readsText_binaryOp? hop).trans (ih₁.trans ih₂)
  | unary hlevel inner ih => exact (readsText_advance (solid_of_unaryLevel? hlevel)).trans ih
  | await hlevel hawait inner ih => exact (readsText_isWord hawait).trans ih
  | plain hlevel hawait inner ih => exact ih
  | call hopen inner rest ih₁ ih₂ => exact (readsText_isOp hopen).trans (ih₁.trans ih₂)
  | member hcall hdot hword rest ih =>
    exact (readsText_isOp hdot).trans ((readsText_word hword).trans ih)
  | subscript hcall hdot hopen inner hclose rest ih₁ ih₂ =>
    have hindex := (readsText_isOp hopen).trans ih₁
    exact hindex.trans ((readsText_isOp hclose).trans ih₂)
  | sequenceEnd hclose | pairsEnd hclose => exact readsText_isOp hclose
  | sequenceMore hclose first hcomma rest ih₁ ih₂ =>
    exact ih₁.trans ((readsText_isOp hcomma).trans ih₂)
  | sequenceLast hclose first hcomma hlast ih => exact ih.trans (readsText_isOp hlast)
  | @pairsMore c c₁ c₂ c₃ key value pairs hclose first hmark second hcomma rest ih₁ ih₂ ih₃ =>
    have hmark' : ReadsText c₁ c₁.advance := by
      rcases Bool.or_eq_true_iff.1 hmark with h | h <;> exact readsText_isOp h
    exact ih₁.trans (hmark'.trans (ih₂.trans ((readsText_isOp hcomma).trans ih₃)))
  | @pairsLast c c₁ c₂ key value hclose first hmark second hcomma hlast ih₁ ih₂ =>
    have hmark' : ReadsText c₁ c₁.advance := by
      rcases Bool.or_eq_true_iff.1 hmark with h | h <;> exact readsText_isOp h
    exact ih₁.trans (hmark'.trans (ih₂.trans (readsText_isOp hlast)))
  | string hkind | number hkind => exact readsText_advance (by rw [hkind]; rfl)
  | word hkind hword => exact readsText_wordExpression hkind hword
  | paren hopen first hclose ih =>
    exact (readsText_isOp hopen).trans (ih.trans (readsText_isOp hclose))
  | array hopen inner ih | dictionary hopen inner ih => exact (readsText_isOp hopen).trans ih
  | nodePath hopen hpath =>
    refine readsText_nodePath ?_ hpath
    rcases Bool.or_eq_true_iff.1 hopen with h | h <;> exact solid_of_isOp h
  | parentMember hdot hword => exact (readsText_isOp hdot).trans (readsText_word hword)

/-! ### Places reached -/

/-- Where the last lexeme with text ends is the end of one that was read. -/
theorem foldl_endAfter (run : List Lexeme) (last : Nat) : run.foldl endAfter last = last ∨
    ∃ l ∈ run, l.kind.isSolid = true ∧ run.foldl endAfter last = l.span.stop := by
  induction run using List.reverseRecOn with
  | nil => exact .inl rfl
  | append_singleton run l ih =>
    simp only [List.foldl_append, List.foldl_cons, List.foldl_nil]
    by_cases hl : l.kind.isSolid = true
    · exact .inr ⟨l, by simp, hl, endAfter_solid hl⟩
    · rw [endAfter, if_neg hl]
      refine ih.imp id ?_
      rintro ⟨x, hx, hsolid, hstop⟩
      exact ⟨x, by simp [hx], hsolid, hstop⟩

/-- Behind lexemes with text it is the end of the last one. -/
theorem foldl_endAfter_solid {run : List Lexeme} {l : Lexeme}
    (h : ∀ x ∈ l :: run, x.kind.isSolid = true) :
    ∃ x ∈ (l :: run).getLast?, run.foldl endAfter l.span.stop = x.span.stop := by
  rcases List.eq_nil_or_concat run with rfl | ⟨init, x, rfl⟩
  · exact ⟨l, rfl, rfl⟩
  · refine ⟨x, ?_, ?_⟩
    · rw [List.concat_eq_append, ← List.cons_append]
      exact List.getLast?_concat
    · rw [List.concat_eq_append, List.foldl_append]
      exact endAfter_solid (h x (by simp))

/-- A place that is reached behind something is where a lexeme with text ends. -/
theorem Onward.reached (on : Onward source c₀ c) (hzero : c₀.lastEnd = 0) (hpos : 0 < c.lastEnd) :
    ∃ l ∈ c₀.rest, l.kind.isSolid = true ∧ c.lastEnd = l.span.stop := by
  obtain ⟨run, hrun, hend⟩ := on.read
  rw [hzero] at hend
  rcases foldl_endAfter run 0 with hnone | ⟨l, hl, hsolid, hstop⟩
  · omega
  · refine ⟨l, ?_, hsolid, hend.trans hstop⟩
    rw [hrun]
    exact List.mem_append_left _ hl

/-- The word of a branch and its condition join into a header. -/
theorem Onward.joins (on : Onward source c₀ c) (hs : c.kind.isSolid = true)
    (hok : c.advance.expression = .ok (n, c₁)) :
    Lexeme.Joins c₀.rest ⟨c.peek.span.start, n.span.stop⟩ := by
  obtain ⟨hon, -, hspans⟩ := on.ready.advance.ready.expression hok
  obtain ⟨run, hrun, hsolid⟩ := (derives_of_expression hok).readsText
  obtain ⟨run', hrun', hend⟩ := hon.read
  have hsame : run' = run := List.append_cancel_right (hrun'.symm.trans hrun)
  have hall : ∀ l ∈ c.peek :: run, l.kind.isSolid = true :=
    List.forall_mem_cons.2 ⟨hs, hsolid⟩
  obtain ⟨x, hx, hstop⟩ := foldl_endAfter_solid hall
  obtain ⟨before, hbefore⟩ := on.suffix
  refine ⟨c.peek :: run, ⟨before, c₁.rest, ?_⟩, hall, ⟨c.peek, rfl, rfl⟩, x, hx, ?_⟩
  · rw [← hbefore, rest_eq_cons hs, hrun, List.append_assoc, List.cons_append]
  · rw [← hstop, hspans.stop_eq, hend, hsame, lastEnd_advance_solid hs]

/-! ### Statements -/

variable {ls : List Lexeme}

/-- What the rules of statements promise of the ends, from cursors that come after `c₀`. -/
structure AnchoredWithin (source : Text) (c₀ : Cursor) (fuel : Nat) : Prop where
  block : ∀ {c inBlock ns c₁}, Onward source c₀ c → blockIn fuel inBlock c = .ok (ns, c₁) →
    AnchoredAll c₀.rest ns
  suite : ∀ {c ns c₁}, Onward source c₀ c → suiteIn fuel c = .ok (ns, c₁) →
    AnchoredAll c₀.rest ns
  line : ∀ {c ns c₁}, Onward source c₀ c → lineIn fuel c = .ok (ns, c₁) → AnchoredAll c₀.rest ns
  statement : ∀ {c n c₁}, Onward source c₀ c → statementIn fuel c = .ok (n, c₁) →
    AnchoredAll c₀.rest [n]
  function : ∀ {c start n c₁}, Onward source c₀ c → functionIn fuel start c = .ok (n, c₁) →
    AnchoredAll c₀.rest [n]
  class_ : ∀ {c start n c₁}, Onward source c₀ c → classIn fuel start c = .ok (n, c₁) →
    AnchoredAll c₀.rest [n]
  ifStatement : ∀ {c start n c₁}, Onward source c₀ c → c.kind.isSolid = true →
    ifStatementIn fuel start c = .ok (n, c₁) → AnchoredAll c₀.rest [n]
  branches : ∀ {c ns c₁}, Onward source c₀ c → branchesIn fuel c = .ok (ns, c₁) →
    AnchoredAll c₀.rest ns
  branch : ∀ {c which n c₁}, Onward source c₀ c → c.kind.isSolid = true →
    branchIn fuel which c = .ok (n, c₁) → AnchoredAll c₀.rest [n]
  forStatement : ∀ {c start n c₁}, Onward source c₀ c →
    forStatementIn fuel start c = .ok (n, c₁) → AnchoredAll c₀.rest [n]
  whileStatement : ∀ {c start n c₁}, Onward source c₀ c →
    whileStatementIn fuel start c = .ok (n, c₁) → AnchoredAll c₀.rest [n]
  matchStatement : ∀ {c start n c₁}, Onward source c₀ c →
    matchStatementIn fuel start c = .ok (n, c₁) → AnchoredAll c₀.rest [n]
  matchBranches : ∀ {c ns c₁}, Onward source c₀ c → matchBranchesIn fuel c = .ok (ns, c₁) →
    AnchoredAll c₀.rest ns

theorem Onward.anchored_expression (on : Onward source c₀ c) (hok : c.expression = .ok (n, c₁)) :
    Onward source c₀ c₁ ∧ AnchoredAll c₀.rest [n] := by
  obtain ⟨hon, -, hspans⟩ := on.ready.expression hok
  exact ⟨on.trans hon, hspans.laid.anchored_expression hspans.isExpression⟩

/-- A simple statement ends where its rule has come to. -/
theorem Onward.anchored_simple (on : Onward source c₀ c) (hzero : c₀.lastEnd = 0)
    (hn : n.Laid source) (hs : n.kind.isSimple = true) (hspan : n.span = c.spanFrom start) :
    AnchoredAll c₀.rest [n] := by
  refine hn.anchored_simple hs ?_
  have hlt := (hn.fit.bounds (.inr hs)).1
  simp only [hspan, spanFrom] at hlt ⊢
  have hmax : max c.lastEnd start = c.lastEnd := by omega
  rw [hmax]
  exact on.reached hzero (by omega)

theorem Onward.anchored_varStatement (on : Onward source c₀ c) (hzero : c₀.lastEnd = 0)
    (hn : n.Laid source) (hok : c.varStatement start = .ok (n, c₁)) : AnchoredAll c₀.rest [n] := by
  obtain ⟨name, c₂, c₃, value, c₄, c₅, hname, htype, hvalue, hc₅, rfl, -⟩ :=
    varStatement_eq_ok hok
  have hnext := on.trans on.ready.advance
  have hon₂ := hnext.trans (hnext.ready.expectWord hname)
  have hon₃ : Onward source c₀ c₃ := by
    split at htype
    · have hcolon := hon₂.trans hon₂.ready.advance
      exact hcolon.trans (hcolon.ready.typeHint htype)
    · cases htype
      exact hon₂
  have hon₄ := hon₃.trans (hon₃.ready.initializer hvalue).1
  have hon₅ : Onward source c₀ c₅ := by
    rw [hc₅]
    split
    · exact hon₄.trans hon₄.ready.skipToStatementEnd
    · exact hon₄
  exact hon₅.anchored_simple hzero hn rfl rfl

theorem Onward.anchored_returnStatement (on : Onward source c₀ c) (hzero : c₀.lastEnd = 0)
    (hn : n.Laid source) (hok : c.returnStatement start = .ok (n, c₁)) :
    AnchoredAll c₀.rest [n] := by
  obtain ⟨value, rfl, -, hvalue⟩ := returnStatement_eq_ok hok
  have hnext := on.trans on.ready.advance
  have hon : Onward source c₀ c₁ := by
    rcases hvalue with ⟨-, -, rfl⟩ | ⟨-, v, -, hv⟩
    · exact hnext
    · exact hnext.trans (hnext.ready.expression hv).1
  exact hon.anchored_simple hzero hn rfl rfl

theorem Onward.anchored_expressionStatement (on : Onward source c₀ c) (hzero : c₀.lastEnd = 0)
    (hn : n.Laid source) (hok : c.expressionStatement start = .ok (n, c₁)) :
    AnchoredAll c₀.rest [n] := by
  obtain ⟨-, target, c₂, htarget, hrest⟩ := expressionStatement_eq_ok hok
  have hon := on.trans (on.ready.expression htarget).1
  rcases hrest with ⟨-, -, value, hvalue, rfl⟩ | ⟨-, rfl, rfl⟩
  · have hop := hon.trans hon.ready.advance
    exact (hop.trans (hop.ready.expression hvalue).1).anchored_simple hzero hn rfl rfl
  · exact hon.anchored_simple hzero hn rfl rfl

theorem AnchoredWithin.blockIn_succ {inBlock : Bool} (ih : AnchoredWithin source c₀ fuel)
    (on : Onward source c₀ c) (hok : blockIn (fuel + 1) inBlock c = .ok (ns, c₁)) :
    AnchoredAll c₀.rest ns := by
  have hskip := on.trans on.ready.skipNewlines
  have hnext := hskip.trans hskip.ready.advance
  simp only [blockIn] at hok
  split at hok
  · cases hok
    exact anchoredAll_nil
  · split at hok
    · cases hok
      exact anchoredAll_nil
    · exact ih.block hnext hok
  · obtain ⟨⟨nested, c₂⟩, hnested, hok⟩ := bind_ok_iff.1 hok
    obtain ⟨⟨more, c₃⟩, hmore, hok⟩ := bind_ok_iff.1 hok
    cases hok
    obtain ⟨hon, -⟩ := (laidWithin source fuel).block hnext.ready _ _ hnested
    exact anchoredAll_append.2 ⟨ih.block hnext hnested, ih.block (hnext.trans hon) hmore⟩
  · obtain ⟨⟨item, c₂⟩, hitem, hok⟩ := bind_ok_iff.1 hok
    obtain ⟨⟨more, c₃⟩, hmore, hok⟩ := bind_ok_iff.1 hok
    cases hok
    obtain ⟨hon, -⟩ := (laidWithin source fuel).statement hskip.ready _ _ hitem
    exact anchoredAll_cons.2 ⟨ih.statement hskip hitem, ih.block (hskip.trans hon) hmore⟩

theorem AnchoredWithin.suiteIn_succ (ih : AnchoredWithin source c₀ fuel)
    (on : Onward source c₀ c) (hok : suiteIn (fuel + 1) c = .ok (ns, c₁)) :
    AnchoredAll c₀.rest ns := by
  simp only [suiteIn] at hok
  split at hok
  · split at hok
    · have hnext := on.trans on.ready.advance
      exact ih.block (hnext.trans hnext.ready.advance) hok
    · cases hok
      exact anchoredAll_nil
  · obtain ⟨⟨items, c₂⟩, hitems, hok⟩ := bind_ok_iff.1 hok
    cases hok
    exact ih.line on hitems

theorem AnchoredWithin.lineIn_succ (ih : AnchoredWithin source c₀ fuel)
    (on : Onward source c₀ c) (hok : lineIn (fuel + 1) c = .ok (ns, c₁)) :
    AnchoredAll c₀.rest ns := by
  simp only [lineIn, bind_ok_iff] at hok
  obtain ⟨⟨item, c₂⟩, hitem, hok⟩ := hok
  have hfirst := ih.statement on hitem
  obtain ⟨hon, -⟩ := (laidWithin source fuel).statement on.ready _ _ hitem
  have hsemi := on.trans (hon.trans hon.ready.advance)
  simp only at hok
  split at hok
  · split at hok
    · cases hok
      exact hfirst
    · obtain ⟨⟨items, c₃⟩, hitems, hok⟩ := bind_ok_iff.1 hok
      cases hok
      exact anchoredAll_cons.2 ⟨hfirst, ih.line hsemi hitems⟩
  · cases hok
    exact hfirst

theorem AnchoredWithin.functionIn_succ (ih : AnchoredWithin source c₀ fuel)
    (on : Onward source c₀ c) (hok : functionIn (fuel + 1) start c = .ok (n, c₁)) :
    AnchoredAll c₀.rest [n] := by
  simp only [functionIn, bind_ok_iff] at hok
  obtain ⟨c₂, hcolon, ⟨body, c₃⟩, hbody, hok⟩ := hok
  cases hok
  have hnext := on.trans on.ready.advance
  have hname : Onward source c₀ (if c.advance.kind = .word then
      (c.advance.peek.text, c.advance.advance) else ([], c.advance)).2 := by
    split
    · exact hnext.trans hnext.ready.advance
    · exact hnext
  have hto := hname.trans (hname.ready.skipToColon hcolon).1
  exact (ih.suite (hto.trans hto.ready.advance) hbody).node rfl rfl

theorem AnchoredWithin.classIn_succ (ih : AnchoredWithin source c₀ fuel)
    (on : Onward source c₀ c) (hok : classIn (fuel + 1) start c = .ok (n, c₁)) :
    AnchoredAll c₀.rest [n] := by
  simp only [classIn, bind_ok_iff] at hok
  obtain ⟨⟨name, c₂⟩, hname, c₃, hcolon, ⟨body, c₄⟩, hbody, hok⟩ := hok
  cases hok
  have hnext := on.trans on.ready.advance
  have hto := hnext.trans (hnext.ready.expectWord hname)
  have hto' := hto.trans (hto.ready.skipToColon hcolon).1
  exact (ih.suite (hto'.trans hto'.ready.advance) hbody).node rfl rfl

theorem AnchoredWithin.branchIn_succ {which : Branch} (ih : AnchoredWithin source c₀ fuel)
    (on : Onward source c₀ c) (hs : c.kind.isSolid = true)
    (hok : branchIn (fuel + 1) which c = .ok (n, c₁)) : AnchoredAll c₀.rest [n] := by
  have hnext := on.trans on.ready.advance
  simp only [branchIn] at hok
  split at hok
  · next hwhich =>
    obtain ⟨⟨condition, c₂⟩, hcondition, hok⟩ := bind_ok_iff.1 hok
    obtain ⟨c₃, hcolon, hok⟩ := bind_ok_iff.1 hok
    obtain ⟨⟨body, c₄⟩, hbody, hok⟩ := bind_ok_iff.1 hok
    cases hcondition
    cases hok
    subst hwhich
    exact (ih.suite (hnext.trans (hnext.ready.expectOp hcolon)) hbody).node rfl rfl
  · next hwhich =>
    obtain ⟨⟨value, c₂⟩, hvalue, hok⟩ := bind_ok_iff.1 hok
    obtain ⟨⟨condition, c₃⟩, hcondition, hok⟩ := bind_ok_iff.1 hok
    obtain ⟨c₄, hcolon, hok⟩ := bind_ok_iff.1 hok
    obtain ⟨⟨body, c₅⟩, hbody, hok⟩ := bind_ok_iff.1 hok
    cases hcondition
    cases hok
    obtain ⟨hto, hcond⟩ := hnext.anchored_expression hvalue
    have hsuite := ih.suite (hto.trans (hto.ready.expectOp hcolon)) hbody
    refine anchoredAll_single.2
      ⟨⟨fun hs => (by cases hs), fun a ha => ?_⟩, anchoredAll_cons.2 ⟨hcond, hsuite⟩⟩
    have hjoins := on.joins hs hvalue
    cases which with
    | elseBranch => exact absurd rfl hwhich
    | ifBranch | elifBranch =>
      cases ha
      exact hjoins

theorem AnchoredWithin.branchesIn_succ (ih : AnchoredWithin source c₀ fuel)
    (on : Onward source c₀ c) (hok : branchesIn (fuel + 1) c = .ok (ns, c₁)) :
    AnchoredAll c₀.rest ns := by
  simp only [branchesIn] at hok
  split at hok
  · next hw =>
    obtain ⟨⟨branch, c₂⟩, hbranch, hok⟩ := bind_ok_iff.1 hok
    obtain ⟨⟨others, c₃⟩, hothers, hok⟩ := bind_ok_iff.1 hok
    cases hok
    obtain ⟨hon, -⟩ := (laidWithin source fuel).branch on.ready _ _ hbranch
    exact anchoredAll_cons.2
      ⟨ih.branch on (solid_of_isWord hw) hbranch, ih.branches (on.trans hon) hothers⟩
  · split at hok
    · next hw =>
      obtain ⟨⟨branch, c₂⟩, hbranch, hok⟩ := bind_ok_iff.1 hok
      cases hok
      exact ih.branch on (solid_of_isWord hw) hbranch
    · cases hok
      exact anchoredAll_nil

theorem AnchoredWithin.ifStatementIn_succ (ih : AnchoredWithin source c₀ fuel)
    (on : Onward source c₀ c) (hs : c.kind.isSolid = true)
    (hok : ifStatementIn (fuel + 1) start c = .ok (n, c₁)) : AnchoredAll c₀.rest [n] := by
  simp only [ifStatementIn, bind_ok_iff] at hok
  obtain ⟨⟨first, c₂⟩, hfirst, ⟨others, c₃⟩, hothers, hok⟩ := hok
  cases hok
  obtain ⟨hon, -⟩ := (laidWithin source fuel).branch on.ready _ _ hfirst
  have hall := anchoredAll_cons.2 ⟨ih.branch on hs hfirst, ih.branches (on.trans hon) hothers⟩
  exact hall.node rfl rfl

theorem AnchoredWithin.forStatementIn_succ (ih : AnchoredWithin source c₀ fuel)
    (on : Onward source c₀ c) (hok : forStatementIn (fuel + 1) start c = .ok (n, c₁)) :
    AnchoredAll c₀.rest [n] := by
  obtain ⟨name, c₂, c₃, iterable, c₄, body, hname, htype, -, hiterable, -, hbody, rfl⟩ :=
    Cutting.forStatementIn_eq_ok hok
  have hnext := on.trans on.ready.advance
  have hto := hnext.trans (hnext.ready.expectWord hname)
  have hto' : Onward source c₀ c₃ := by
    split at htype
    · have hcolon := hto.trans hto.ready.advance
      exact hcolon.trans (hcolon.ready.typeHint htype)
    · cases htype
      exact hto
  obtain ⟨hon, hhead⟩ := (hto'.trans hto'.ready.advance).anchored_expression hiterable
  have hsuite := ih.suite (hon.trans hon.ready.advance) hbody
  exact (anchoredAll_cons.2 ⟨hhead, hsuite⟩).node rfl rfl

theorem AnchoredWithin.whileStatementIn_succ (ih : AnchoredWithin source c₀ fuel)
    (on : Onward source c₀ c) (hok : whileStatementIn (fuel + 1) start c = .ok (n, c₁)) :
    AnchoredAll c₀.rest [n] := by
  simp only [whileStatementIn, bind_ok_iff] at hok
  obtain ⟨⟨condition, c₂⟩, hcondition, c₃, hcolon, ⟨body, c₄⟩, hbody, hok⟩ := hok
  cases hok
  obtain ⟨hon, hhead⟩ := (on.trans on.ready.advance).anchored_expression hcondition
  have hsuite := ih.suite (hon.trans (hon.ready.expectOp hcolon)) hbody
  exact (anchoredAll_cons.2 ⟨hhead, hsuite⟩).node rfl rfl

theorem AnchoredWithin.matchStatementIn_succ (ih : AnchoredWithin source c₀ fuel)
    (on : Onward source c₀ c) (hok : matchStatementIn (fuel + 1) start c = .ok (n, c₁)) :
    AnchoredAll c₀.rest [n] := by
  simp only [matchStatementIn, bind_ok_iff] at hok
  obtain ⟨⟨subject, c₂⟩, hsubject, c₃, hcolon, hok⟩ := hok
  obtain ⟨hon, hhead⟩ := (on.trans on.ready.advance).anchored_expression hsubject
  have hto := hon.trans (hon.ready.expectOp hcolon)
  split at hok
  · have hinto := hto.trans hto.ready.advance
    split at hok
    · obtain ⟨⟨branches, c₄⟩, hbranches, hok⟩ := bind_ok_iff.1 hok
      cases hok
      have hrest := ih.matchBranches (hinto.trans hinto.ready.advance) hbranches
      exact (anchoredAll_cons.2 ⟨hhead, hrest⟩).node rfl rfl
    · cases hok
      exact hhead.node rfl rfl
  · cases hok

theorem AnchoredWithin.matchBranchesIn_succ (ih : AnchoredWithin source c₀ fuel)
    (on : Onward source c₀ c) (hok : matchBranchesIn (fuel + 1) c = .ok (ns, c₁)) :
    AnchoredAll c₀.rest ns := by
  have hskip := on.trans on.ready.skipNewlines
  simp only [matchBranchesIn] at hok
  split at hok
  · cases hok
    exact anchoredAll_nil
  · cases hok
    exact anchoredAll_nil
  · obtain ⟨c₂, hcolon, hok⟩ := bind_ok_iff.1 hok
    obtain ⟨⟨body, c₃⟩, hbody, hok⟩ := bind_ok_iff.1 hok
    obtain ⟨⟨more, c₄⟩, hmore, hok⟩ := bind_ok_iff.1 hok
    cases hok
    have hto := hskip.trans (hskip.ready.skipToColon hcolon).1
    have hinto := hto.trans hto.ready.advance
    obtain ⟨hon, -⟩ := (laidWithin source fuel).suite hinto.ready _ _ hbody
    have hpattern : AnchoredAll c₀.rest
        [⟨.pattern, c₂.spanFrom c.skipNewlines.peek.span.start, []⟩] :=
      anchoredAll_nil.node rfl rfl
    have hbranch := anchoredAll_cons.2 ⟨hpattern, ih.suite hinto hbody⟩
    exact anchoredAll_cons.2 ⟨hbranch.node rfl rfl, ih.matchBranches (hinto.trans hon) hmore⟩

theorem AnchoredWithin.statementIn_succ (ih : AnchoredWithin source c₀ fuel)
    (hzero : c₀.lastEnd = 0) (on : Onward source c₀ c)
    (hok : statementIn (fuel + 1) c = .ok (n, c₁)) : AnchoredAll c₀.rest [n] := by
  obtain ⟨-, hitems⟩ := (laidWithin source (fuel + 1)).statement on.ready n c₁ hok
  have hn := (row_single.1 hitems.row).2.1
  simp only [statementIn, bind_ok_iff] at hok
  obtain ⟨⟨ended, c₂⟩, hannotations, hok⟩ := hok
  have hto := on.trans (on.ready.begun.annotations hannotations).1
  have hsolid (ho : opening c₂.peek ≠ .expression) : c₂.kind.isSolid = true := by
    rw [word_of_opening rfl ho]
    rfl
  simp only at hok
  split at hok
  · cases hok
    exact anchoredAll_nil.node rfl rfl
  · cases ho : opening c₂.peek with
    | plain kind =>
      simp only [ho] at hok
      cases hok
      obtain ⟨-, -, hs, hb, -⟩ := word_of_plainDeclaration? (plain_of_opening ho)
      exact anchoredAll_nil.node hs (Bool.eq_false_iff.2 fun hg => by
        rw [Kind.isBranch_of_isGuarded hg] at hb
        cases hb)
    | keyword =>
      simp only [ho] at hok
      obtain ⟨u, -, hok⟩ := bind_ok_iff.1 hok
      cases hok
      exact anchoredAll_nil.node rfl rfl
    | modifier =>
      simp only [ho] at hok
      have hskip := hto.trans (hto.ready.skipModifiers c₂.rest.length)
      split at hok
      · exact hskip.anchored_varStatement hzero hn hok
      · split at hok
        · exact ih.function hskip hok
        · split at hok
          · cases hok
            exact anchoredAll_nil.node rfl rfl
          · cases hok
    | varDecl =>
      simp only [ho] at hok
      exact hto.anchored_varStatement hzero hn hok
    | funcDecl =>
      simp only [ho] at hok
      exact ih.function hto hok
    | classDecl =>
      simp only [ho] at hok
      exact ih.class_ hto hok
    | ifStmt =>
      simp only [ho] at hok
      exact ih.ifStatement hto (hsolid (by simp [ho])) hok
    | forStmt =>
      simp only [ho] at hok
      exact ih.forStatement hto hok
    | whileStmt =>
      simp only [ho] at hok
      exact ih.whileStatement hto hok
    | matchStmt =>
      simp only [ho] at hok
      exact ih.matchStatement hto hok
    | returnStmt =>
      simp only [ho] at hok
      exact hto.anchored_returnStatement hzero hn hok
    | orphan => simp [ho] at hok
    | expression =>
      simp only [ho] at hok
      exact hto.anchored_expressionStatement hzero hn hok

/-- By induction on the bound, as for the layout. -/
theorem anchoredWithin (source : Text) (hzero : c₀.lastEnd = 0) (fuel : Nat) :
    AnchoredWithin source c₀ fuel := by
  induction fuel with
  | zero =>
    constructor <;>
      simp [blockIn, suiteIn, lineIn, statementIn, functionIn, classIn, ifStatementIn, branchesIn,
        branchIn, forStatementIn, whileStatementIn, matchStatementIn, matchBranchesIn]
  | succ fuel ih =>
    exact ⟨ih.blockIn_succ, ih.suiteIn_succ, ih.lineIn_succ, ih.statementIn_succ hzero,
      ih.functionIn_succ, ih.classIn_succ, ih.ifStatementIn_succ, ih.branchesIn_succ,
      ih.branchIn_succ, ih.forStatementIn_succ, ih.whileStatementIn_succ,
      ih.matchStatementIn_succ, ih.matchBranchesIn_succ⟩

/-- The statements of a script are anchored at its lexemes. -/
theorem anchored_of_statements (h : Ready source ⟨ls, 0⟩)
    (hok : statements ⟨ls, 0⟩ = .ok (ns, c)) : AnchoredAll ls ns :=
  (anchoredWithin source rfl _).block h.refl hok

end Cursor

end Phrasebook
