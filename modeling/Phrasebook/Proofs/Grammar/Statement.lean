import Phrasebook.Proofs.Grammar.LineAdvances
import Phrasebook.Proofs.Layout

/-!
The layout of statements.

Whatever a rule passes over, a cursor that is ready stays so. Each statement lies behind what was read
before it, and its parts lie in it one after the other; so do the statements of a whole script.
-/
namespace Phrasebook

open Text (isBoundary)

namespace Node

variable {source : Text} {ns ms : List Node} {lo mid hi start stop : Nat}

/-- Statements in a row, and the parts of one; a branch is not among them. -/
structure Items (source : Text) (lo hi : Nat) (ns : List Node) : Prop where
  row : Row source lo hi ns
  noBranch : ∀ n ∈ ns, n.kind.isBranch = false

theorem Expressions.items (h : Expressions source lo hi ns) : Items source lo hi ns :=
  ⟨h.row, fun n hn => Kind.isBranch_of_isExpression (h.all n hn)⟩

theorem items_nil (h : lo ≤ hi) : Items source lo hi [] := (expressions_nil h).items

theorem Items.append (h : Items source lo mid ns) (h' : Items source mid hi ms) :
    Items source lo hi (ns ++ ms) :=
  ⟨h.row.append h'.row, List.forall_mem_append.2 ⟨h.noBranch, h'.noBranch⟩⟩

theorem Items.mono {lo' hi' : Nat} (h : Items source lo hi ns) (hlo : lo' ≤ lo) (hhi : hi ≤ hi') :
    Items source lo' hi' ns :=
  ⟨h.row.mono hlo hhi, h.noBranch⟩

/-- A statement of expressions. -/
theorem items_simple {kind : Kind} (hk : kind.isSimple = true)
    (hone : kind.isLone = true → ns.length ≤ 1) (hlt : start < stop)
    (hstart : isBoundary start source = true) (hstop : isBoundary stop source = true)
    (hns : Expressions source start stop ns) :
    Items source start stop [⟨kind, ⟨start, stop⟩, ns⟩] where
  row := by
    refine row_single.2 ⟨Nat.le_refl _, laid_iff.2 ⟨⟨Nat.le_of_lt hlt,
      fun _ => ⟨hlt, hstart, hstop⟩, fun _ => hns.all, hone, ?_, ?_, ?_⟩, hns.row⟩, Nat.le_refl _⟩
    · rintro q rfl
      simp [Kind.isSimple] at hk
    · intro hg
      cases kind <;> simp [Kind.isGuarded, Kind.isSimple] at hg hk
    · intro n hn
      rw [Kind.isBranch_of_isExpression (hns.all n hn)]
      constructor
      · simp
      · rintro rfl
        simp [Kind.isSimple] at hk
  noBranch := by
    cases kind <;> simp [Kind.isSimple, Kind.isBranch] at hk ⊢

/-- A statement that is neither simple nor a conditional or one of its branches. -/
theorem items_compound {k : Kind} (hk : k.isExpression = false) (hs : k.isSimple = false)
    (hb : k.isBranch = false) (hi : k ≠ .ifStmt) (hns : Items source start stop ns) :
    Items source start stop [⟨k, ⟨start, stop⟩, ns⟩] where
  row := by
    refine row_single.2 ⟨Nat.le_refl _, laid_iff.2 ⟨⟨hns.row.le, by simp [hk, hs], by simp [hk, hs],
      ?_, ?_, ?_, ?_⟩, hns.row⟩, Nat.le_refl _⟩
    · intro hl
      cases k <;> simp [Kind.isLone, Kind.isSimple] at hl hs
    · rintro q rfl
      simp [Kind.isExpression] at hk
    · intro hg
      rw [Kind.isBranch_of_isGuarded hg] at hb
      cases hb
    · intro n hn
      simp [hns.noBranch n hn, hi]
  noBranch := by simp [hb]

/-- Branches in a row. -/
structure Branches (source : Text) (lo hi : Nat) (ns : List Node) : Prop where
  row : Row source lo hi ns
  all : ∀ n ∈ ns, n.kind.isBranch = true

theorem Branches.mono {lo' : Nat} (h : Branches source lo hi ns) (hlo : lo' ≤ lo) :
    Branches source lo' hi ns :=
  ⟨h.row.mono hlo (Nat.le_refl _), h.all⟩

theorem Branches.append (h : Branches source lo mid ns) (h' : Branches source mid hi ms) :
    Branches source lo hi (ns ++ ms) :=
  ⟨h.row.append h'.row, List.forall_mem_append.2 ⟨h.all, h'.all⟩⟩

/-- A branch, whose condition comes first unless it has none. -/
theorem branches_branch {which : Branch} (hns : Items source start stop ns)
    (hc : (Kind.branch which).isGuarded = true →
      ∃ n, ns.head? = some n ∧ n.kind.isExpression = true) :
    Branches source start stop [⟨.branch which, ⟨start, stop⟩, ns⟩] where
  row := by
    refine row_single.2 ⟨Nat.le_refl _, laid_iff.2 ⟨⟨hns.row.le, ?_, ?_, ?_, by simp, hc, ?_⟩, hns.row⟩,
      Nat.le_refl _⟩
    · simp [Kind.isExpression, Kind.isSimple]
    · simp [Kind.isExpression, Kind.isSimple]
    · simp [Kind.isLone]
    · intro n hn
      simp [hns.noBranch n hn]
  all := by simp [Kind.isBranch]

/-- A conditional from its branches. -/
theorem Branches.ifStmt (h : Branches source start stop ns) :
    Items source start stop [⟨.ifStmt, ⟨start, stop⟩, ns⟩] where
  row := by
    refine row_single.2 ⟨Nat.le_refl _, laid_iff.2 ⟨⟨h.row.le, ?_, ?_, ?_, by simp, ?_, ?_⟩, h.row⟩,
      Nat.le_refl _⟩
    · simp [Kind.isExpression, Kind.isSimple]
    · simp [Kind.isExpression, Kind.isSimple]
    · simp [Kind.isLone]
    · simp [Kind.isGuarded]
    · intro n hn
      simp [h.all n hn]
  noBranch := by simp [Kind.isBranch]

end Node

namespace Cursor

open Grammar Node

variable {source : Text} {c c₁ : Cursor} {l : Lexeme} {r : List Lexeme} {last : Nat}

theorem Ready.skipNewlines (h : Ready source c) : Onward source c c.skipNewlines :=
  h.onward (reaches_skipNewlines c)

theorem Ready.skipToStatementEnd (h : Ready source c) : Onward source c c.skipToStatementEnd :=
  h.onward (reaches_skipToStatementEnd c)

theorem Ready.skipToColon (h : Ready source c) (hok : c.skipToColon = .ok c₁) :
    Onward source c c₁ ∧ c₁.isOp ":" = true := by
  obtain ⟨c₂, hreach, ⟨hok', hcolon⟩ | ⟨herr, -⟩⟩ := skipToColon_cases c
  · cases hok'.symm.trans hok
    exact ⟨h.onward hreach, hcolon⟩
  · cases herr.symm.trans hok

theorem Ready.skipAccessors (h : Ready source c) : Onward source c c.skipAccessors :=
  h.onward (reaches_skipAccessors c)

theorem Ready.skipOptionalBrackets (h : Ready source c) :
    Onward source c c.skipOptionalBrackets :=
  h.onward (reaches_skipOptionalBrackets c)

theorem Ready.skipAnnotationBreaks (h : Ready source c) :
    Onward source c c.skipAnnotationBreaks :=
  h.onward (reaches_skipAnnotationBreaks c)

theorem Ready.expectWord {name : Text} (h : Ready source c)
    (hok : c.expectWord = .ok (name, c₁)) : Onward source c c₁ := by
  obtain ⟨-, -, rfl⟩ := expectWord_eq_ok.1 hok
  exact h.advance

theorem Ready.expectOp {op : String} (h : Ready source c) (hok : c.expectOp op = .ok c₁) :
    Onward source c c₁ := by
  obtain ⟨-, rfl⟩ := expectOp_eq_ok.1 hok
  exact h.advance

/-- Annotations begin with a mark of their own; without it nothing is passed. -/
theorem Ready.annotations {fuel : Nat} {ended : Bool} (h : Ready source c)
    (hok : annotations fuel c = .ok (ended, c₁)) :
    (c₁ = c ∧ ended = false) ∨ (c.isOp "@" = true ∧ Onward source c.advance c₁) := by
  induction fuel generalizing c with
  | zero =>
    cases hok
    exact .inl ⟨rfl, rfl⟩
  | succ fuel ih =>
    simp only [Cursor.annotations] at hok
    split at hok
    · next hop =>
      obtain ⟨⟨name, c₂⟩, hname, hok⟩ := bind_ok_iff.1 hok
      have hword := h.advance.ready.expectWord hname
      have hbrackets := hword.ready.skipOptionalBrackets
      have hon := hword.trans (hbrackets.trans hbrackets.ready.skipAnnotationBreaks)
      simp only at hok
      split at hok
      · cases hok
        exact .inr ⟨hop, hon⟩
      · rcases ih hon.ready hok with ⟨rfl, rfl⟩ | ⟨-, hmore⟩
        · exact .inr ⟨hop, hon⟩
        · exact .inr ⟨hop, hon.trans (hon.ready.advance.trans hmore)⟩
    · cases hok
      exact .inl ⟨rfl, rfl⟩

theorem Ready.skipModifiers (h : Ready source c) (fuel : Nat) :
    Onward source c (skipModifiers fuel c) :=
  h.onward (reaches_skipModifiers fuel c)

theorem Ready.typeHint (h : Ready source c) (hok : c.typeHint = .ok c₁) : Onward source c c₁ :=
  h.onward ((typeHint_advances 0 c).reads 0 c₁ hok).1

theorem Ready.expression {n : Node} (h : Ready source c) (hok : c.expression = .ok (n, c₁)) :
    Onward source c c₁ ∧ c.kind.isSolid = true ∧
      Spans source c.peek.span.start c₁.lastEnd n := by
  obtain ⟨on, lays⟩ := (derives_of_expression hok).laid h
  exact ⟨on, lays n rfl⟩

theorem Ready.initializer {ns : List Node} (h : Ready source c)
    (hok : c.initializer = .ok (ns, c₁)) :
    Onward source c c₁ ∧ Expressions source c.lastEnd c₁.lastEnd ns ∧ ns.length ≤ 1 := by
  unfold Cursor.initializer at hok
  split at hok
  · obtain ⟨⟨value, c₂⟩, hvalue, hok⟩ := bind_ok_iff.1 hok
    cases hok
    obtain ⟨on, -, hspans⟩ := h.advance.ready.expression hvalue
    have hle := h.advance.le
    exact ⟨h.advance.trans on,
      hspans.expressions (Nat.le_trans hle h.advance.ready.lastEnd_le), Nat.le_refl _⟩
  · cases hok
    exact ⟨h.refl, expressions_nil (Nat.le_refl _), Nat.zero_le _⟩

/-- A statement has begun at `start`, and `c` is where the rule for it goes on. -/
structure Begun (source : Text) (start : Nat) (c : Cursor) : Prop where
  ready : c.Ready source
  le : start ≤ c.peek.span.start
  starts : c.kind.isSolid = true → isBoundary start source = true

theorem Ready.begun (h : Ready source c) : Begun source c.peek.span.start c :=
  ⟨h, Nat.le_refl _, fun hs => (h.advance_solid hs).2.2⟩

variable {start : Nat}

/-- Behind a lexeme with text, the statement has an extent. -/
theorem Begun.lt (h : Begun source start c) (hs : c.kind.isSolid = true)
    (on : Onward source c.advance c₁) : start < c₁.lastEnd := by
  have hle := h.le
  have hon := on.le
  obtain ⟨hlast, hlt, -⟩ := h.ready.advance_solid hs
  omega

/-- The same where the lexeme comes later. -/
theorem Begun.lt_of_onward {c₂ : Cursor} (h : Begun source start c) (on : Onward source c c₁)
    (hs : c₁.kind.isSolid = true) (on' : Onward source c₁.advance c₂) : start < c₂.lastEnd := by
  have hle := h.le
  have hpeek := on.peek_le h.ready hs
  obtain ⟨hlast, hlt, -⟩ := on.ready.advance_solid hs
  have hon := on'.le
  omega

theorem spanFrom_eq (h : start ≤ c.lastEnd) : c.spanFrom start = ⟨start, c.lastEnd⟩ := by
  simp only [spanFrom, Span.mk.injEq, true_and]
  omega

theorem expectStatementEnd_eq_ok {u : Unit} :
    c.expectStatementEnd = .ok u ↔ c.atStatementEnd = true := by
  unfold expectStatementEnd
  split <;> simp_all

/-- The ways a variable can be read. The node ends where the accessors, if any, begin. -/
theorem varStatement_eq_ok {start : Nat} {n : Node} (h : c.varStatement start = .ok (n, c₁)) :
    ∃ name c₂ c₃ value c₄ c₅, c.advance.expectWord = .ok (name, c₂) ∧
      (if c₂.isOp ":" && c₂.peekNext.kind != .newline then c₂.advance.typeHint else .ok c₂) =
        .ok c₃ ∧
      c₃.initializer = .ok (value, c₄) ∧
      c₅ = (if c₄.isWord "setget" then c₄.skipToStatementEnd else c₄) ∧
      n = ⟨.varDecl name, c₅.spanFrom start, value⟩ ∧
      (c₅.isOp ":" = true ∧ c₁ = c₅.advance.skipAccessors ∨
        c₅.isOp ":" = false ∧ c₅.atStatementEnd = true ∧ c₁ = c₅) := by
  simp only [Cursor.varStatement, bind_ok_iff] at h
  obtain ⟨⟨name, c₂⟩, hname, h⟩ := h
  have htail (typed : Except ParseError Cursor) (h : (do
      let c ← typed
      let r ← c.initializer
      let c := if r.2.isWord "setget" then r.2.skipToStatementEnd else r.2
      let node : Node := ⟨.varDecl name, c.spanFrom start, r.1⟩
      if c.isOp ":" then return (node, c.advance.skipAccessors)
      else
        c.expectStatementEnd
        return (node, c)) = .ok (n, c₁)) :
      ∃ c₃ value c₄ c₅, typed = .ok c₃ ∧ c₃.initializer = .ok (value, c₄) ∧
        c₅ = (if c₄.isWord "setget" then c₄.skipToStatementEnd else c₄) ∧
        n = ⟨.varDecl name, c₅.spanFrom start, value⟩ ∧
        (c₅.isOp ":" = true ∧ c₁ = c₅.advance.skipAccessors ∨
          c₅.isOp ":" = false ∧ c₅.atStatementEnd = true ∧ c₁ = c₅) := by
    obtain ⟨c₃, htyped, h⟩ := bind_ok_iff.1 h
    obtain ⟨⟨value, c₄⟩, hvalue, h⟩ := bind_ok_iff.1 h
    simp only at h
    generalize hc₅ : (if c₄.isWord "setget" then c₄.skipToStatementEnd else c₄) = c₅ at h
    refine ⟨c₃, value, c₄, c₅, htyped, hvalue, hc₅.symm, ?_⟩
    split at h
    · next hcolon =>
      cases h
      exact ⟨rfl, .inl ⟨hcolon, rfl⟩⟩
    · next hcolon =>
      obtain ⟨u, hend, h⟩ := bind_ok_iff.1 h
      cases h
      exact ⟨rfl, .inr ⟨by simpa using hcolon, expectStatementEnd_eq_ok.1 hend, rfl⟩⟩
  refine ⟨name, c₂, ?_⟩
  split at h
  · next hcolon =>
    obtain ⟨c₃, value, c₄, c₅, hrest⟩ := htail _ h
    exact ⟨c₃, value, c₄, c₅, hname, by rw [if_pos hcolon]; exact hrest.1, hrest.2⟩
  · next hcolon =>
    obtain ⟨c₃, value, c₄, c₅, hrest⟩ := htail (.ok c₂) h
    exact ⟨c₃, value, c₄, c₅, hname, by rw [if_neg hcolon]; exact hrest.1, hrest.2⟩

/-- The ways a return can be read. -/
theorem returnStatement_eq_ok {start : Nat} {n : Node}
    (h : c.returnStatement start = .ok (n, c₁)) :
    ∃ value, n = ⟨.returnStmt, c₁.spanFrom start, value⟩ ∧ c₁.atStatementEnd = true ∧
      (c.advance.atStatementEnd = true ∧ value = [] ∧ c₁ = c.advance ∨
        c.advance.atStatementEnd = false ∧
          ∃ v, value = [v] ∧ c.advance.expression = .ok (v, c₁)) := by
  simp only [Cursor.returnStatement] at h
  split at h
  · next hend =>
    obtain ⟨⟨value, c₂⟩, hvalue, h⟩ := bind_ok_iff.1 h
    obtain ⟨u, -, h⟩ := bind_ok_iff.1 h
    cases hvalue
    cases h
    exact ⟨[], rfl, hend, .inl ⟨hend, rfl, rfl⟩⟩
  · next hend =>
    obtain ⟨⟨v, c₂⟩, hv, h⟩ := bind_ok_iff.1 h
    obtain ⟨⟨value, c₃⟩, hvalue, h⟩ := bind_ok_iff.1 h
    obtain ⟨u, hend', h⟩ := bind_ok_iff.1 h
    cases hvalue
    cases h
    exact ⟨[v], rfl, expectStatementEnd_eq_ok.1 hend', .inr ⟨by simpa using hend, v, rfl, hv⟩⟩

/-- The ways an expression or an assignment can be read. -/
theorem expressionStatement_eq_ok {start : Nat} {n : Node}
    (h : c.expressionStatement start = .ok (n, c₁)) :
    c₁.atStatementEnd = true ∧ ∃ target c₂, c.expression = .ok (target, c₂) ∧
      ((c₂.kind = .op ∧ assignments.contains c₂.peek.text = true ∧
          ∃ value, c₂.advance.expression = .ok (value, c₁) ∧
            n = ⟨.assign c₂.peek.text, c₁.spanFrom start, [target, value]⟩) ∨
        (¬ (c₂.kind = .op ∧ assignments.contains c₂.peek.text = true) ∧ c₁ = c₂ ∧
          n = ⟨.exprStmt, c₁.spanFrom start, [target]⟩)) := by
  simp only [Cursor.expressionStatement, bind_ok_iff] at h
  obtain ⟨⟨target, c₂⟩, htarget, h⟩ := h
  split at h
  · next hop =>
    obtain ⟨⟨value, c₃⟩, hvalue, h⟩ := bind_ok_iff.1 h
    obtain ⟨u, hend, h⟩ := bind_ok_iff.1 h
    cases h
    exact ⟨expectStatementEnd_eq_ok.1 hend, target, c₂, htarget,
      .inl ⟨hop.1, hop.2, value, hvalue, rfl⟩⟩
  · next hop =>
    obtain ⟨u, hend, h⟩ := bind_ok_iff.1 h
    cases h
    exact ⟨expectStatementEnd_eq_ok.1 hend, target, c₂, htarget, .inr ⟨hop, rfl, rfl⟩⟩

/-- Behind the first lexeme of a declaration the statement has an extent. -/
theorem Begun.plainDeclaration {kind : Node.Kind} {n : Node} (h : Begun source start c)
    (hw : c.kind = .word) (hk : kind.isExpression = false) (hs : kind.isSimple = false)
    (hb : kind.isBranch = false) (hi : kind ≠ .ifStmt)
    (hn : c.plainDeclaration kind start = (n, c₁)) :
    Onward source c c₁ ∧ Items source start c₁.lastEnd [n] := by
  have hpass : c.skipToStatementEnd = c.advance.skipToStatementEnd := by
    obtain ⟨rest, last⟩ := c
    cases rest with
    | nil => rfl
    | cons l r =>
      simp only [Cursor.kind, peek, List.headD_cons] at hw
      simp [Cursor.skipToStatementEnd, Cursor.advance, Cursor.passWhile, hw, endsStatement,
        Lexeme.isOp]
  have hsolid : c.kind.isSolid = true := by
    rw [hw]
    rfl
  have hskip := h.ready.advance.ready.skipToStatementEnd
  have hlt := h.lt hsolid hskip
  unfold Cursor.plainDeclaration at hn
  cases hn
  rw [hpass, spanFrom_eq (Nat.le_of_lt hlt)]
  exact ⟨h.ready.advance.trans hskip,
    items_compound hk hs hb hi (items_nil (Nat.le_of_lt hlt))⟩

theorem Begun.varStatement {n : Node} (h : Begun source start c) (hs : c.kind.isSolid = true)
    (hok : c.varStatement start = .ok (n, c₁)) :
    Onward source c c₁ ∧ Items source start c₁.lastEnd [n] := by
  obtain ⟨name, c₂, c₃, value, c₄, c₅, hname, htype, hvalue, hc₅, rfl, hend⟩ :=
    varStatement_eq_ok hok
  have hon₂ := h.ready.advance.ready.expectWord hname
  have hon₃ : Onward source c₂ c₃ := by
    split at htype
    · exact hon₂.ready.advance.trans (hon₂.ready.advance.ready.typeHint htype)
    · cases htype
      exact hon₂.ready.refl
  obtain ⟨hon₄, hexprs, hone⟩ := hon₃.ready.initializer hvalue
  have hon₅ : Onward source c₄ c₅ := by
    rw [hc₅]
    split
    · exact hon₄.ready.skipToStatementEnd
    · exact hon₄.ready.refl
  have hto := hon₂.trans hon₃
  have hon := hto.trans (hon₄.trans hon₅)
  have hlt := h.lt hs hon
  have hlt' := h.lt hs hto
  have hnode : Items source start c₅.lastEnd [⟨.varDecl name, c₅.spanFrom start, value⟩] := by
    rw [spanFrom_eq (Nat.le_of_lt hlt)]
    exact items_simple rfl (fun _ => hone) hlt (h.starts hs) hon.ready.reached
      (hexprs.mono (Nat.le_of_lt hlt') hon₅.le)
  rcases hend with ⟨-, rfl⟩ | ⟨-, -, rfl⟩
  · have hacc := hon.ready.advance.trans hon.ready.advance.ready.skipAccessors
    exact ⟨h.ready.advance.trans (hon.trans hacc), hnode.mono (Nat.le_refl _) hacc.le⟩
  · exact ⟨h.ready.advance.trans hon, hnode⟩

theorem Begun.returnStatement {n : Node} (h : Begun source start c) (hs : c.kind.isSolid = true)
    (hok : c.returnStatement start = .ok (n, c₁)) :
    Onward source c c₁ ∧ Items source start c₁.lastEnd [n] := by
  obtain ⟨value, rfl, -, hvalue⟩ := returnStatement_eq_ok hok
  have hfirst := h.lt hs h.ready.advance.ready.refl
  obtain ⟨hon, hexprs, hone⟩ : Onward source c.advance c₁ ∧
      Expressions source start c₁.lastEnd value ∧ value.length ≤ 1 := by
    rcases hvalue with ⟨-, rfl, rfl⟩ | ⟨-, v, rfl, hv⟩
    · exact ⟨h.ready.advance.ready.refl, expressions_nil (Nat.le_of_lt hfirst), Nat.zero_le _⟩
    · obtain ⟨hon, -, hspans⟩ := h.ready.advance.ready.expression hv
      have hle := h.ready.advance.ready.lastEnd_le
      exact ⟨hon, hspans.expressions (by omega), Nat.le_refl _⟩
  have hlt := h.lt hs hon
  refine ⟨h.ready.advance.trans hon, ?_⟩
  rw [spanFrom_eq (Nat.le_of_lt hlt)]
  exact items_simple rfl (fun _ => hone) hlt (h.starts hs) hon.ready.reached hexprs

theorem Begun.expressionStatement {n : Node} (h : Begun source start c)
    (hok : c.expressionStatement start = .ok (n, c₁)) :
    Onward source c c₁ ∧ Items source start c₁.lastEnd [n] := by
  obtain ⟨-, target, c₂, htarget, hrest⟩ := expressionStatement_eq_ok hok
  obtain ⟨hon, hs, hspans⟩ := h.ready.expression htarget
  have hlt := hspans.lt
  have hle := h.le
  have hexprs := hspans.expressions hle
  rcases hrest with ⟨-, -, value, hvalue, rfl⟩ | ⟨-, rfl, rfl⟩
  · obtain ⟨hon', -, hspans'⟩ := hon.ready.advance.ready.expression hvalue
    have hall := hon.ready.advance.trans hon'
    have hle' := hall.le
    refine ⟨hon.trans hall, ?_⟩
    rw [spanFrom_eq (by omega)]
    have hmid := Nat.le_trans hon.ready.advance.le hon.ready.advance.ready.lastEnd_le
    exact items_simple rfl (by simp [Kind.isLone]) (by omega) (h.starts hs) hall.ready.reached
      (hexprs.append (hspans'.expressions hmid))
  · refine ⟨hon, ?_⟩
    rw [spanFrom_eq (by omega)]
    exact items_simple rfl (by simp) (by omega) (h.starts hs) hon.ready.reached hexprs

/-- Statements that lie behind what was read before and before what is read next. -/
def LaysItems (source : Text) (c : Cursor) (r : Except ParseError (List Node × Cursor)) : Prop :=
  ∀ ns c₁, r = .ok (ns, c₁) → Onward source c c₁ ∧ Items source c.lastEnd c₁.lastEnd ns

/-- A statement that begins at `start`. -/
def LaysItem (source : Text) (start : Nat) (c : Cursor) (r : Except ParseError (Node × Cursor)) :
    Prop :=
  ∀ n c₁, r = .ok (n, c₁) → Onward source c c₁ ∧ Items source start c₁.lastEnd [n]

/-- What the rules of statements promise within a bound. -/
structure LaidWithin (source : Text) (fuel : Nat) : Prop where
  block : ∀ {c inBlock}, Ready source c → LaysItems source c (blockIn fuel inBlock c)
  suite : ∀ {c}, Ready source c → LaysItems source c (suiteIn fuel c)
  line : ∀ {c}, Ready source c → LaysItems source c (lineIn fuel c)
  statement : ∀ {c}, Ready source c → LaysItem source c.peek.span.start c (statementIn fuel c)
  function : ∀ {c start}, Begun source start c → LaysItem source start c (functionIn fuel start c)
  class_ : ∀ {c start}, Begun source start c → LaysItem source start c (classIn fuel start c)
  ifStatement : ∀ {c start}, Begun source start c →
    LaysItem source start c (ifStatementIn fuel start c)
  branches : ∀ {c}, Ready source c → ∀ ns c₁, branchesIn fuel c = .ok (ns, c₁) →
    Onward source c c₁ ∧ Branches source c.lastEnd c₁.lastEnd ns
  branch : ∀ {c which}, Ready source c → ∀ n c₁, branchIn fuel which c = .ok (n, c₁) →
    Onward source c c₁ ∧ Branches source c.peek.span.start c₁.lastEnd [n]
  forStatement : ∀ {c start}, Begun source start c → c.kind.isSolid = true →
    LaysItem source start c (forStatementIn fuel start c)
  whileStatement : ∀ {c start}, Begun source start c → c.kind.isSolid = true →
    LaysItem source start c (whileStatementIn fuel start c)
  matchStatement : ∀ {c start}, Begun source start c → c.kind.isSolid = true →
    LaysItem source start c (matchStatementIn fuel start c)
  matchBranches : ∀ {c}, Ready source c → LaysItems source c (matchBranchesIn fuel c)

variable {fuel : Nat}

/-- A statement that goes on behind a colon. -/
theorem Begun.items_behind {k : Node.Kind} {ns : List Node} {c₂ c₃ : Cursor}
    (h : Begun source start c) (on : Onward source c c₂) (hcolon : c₂.isOp ":" = true)
    (on' : Onward source c₂.advance c₃) (hns : Items source start c₃.lastEnd ns)
    (hk : k.isExpression = false) (hs : k.isSimple = false) (hb : k.isBranch = false)
    (hi : k ≠ .ifStmt) :
    Onward source c c₃ ∧ Items source start c₃.lastEnd [⟨k, c₃.spanFrom start, ns⟩] := by
  have hlt := h.lt_of_onward on (solid_of_isOp hcolon) on'
  refine ⟨on.trans (on.ready.advance.trans on'), ?_⟩
  rw [spanFrom_eq (Nat.le_of_lt hlt)]
  exact items_compound hk hs hb hi hns

/-- What follows a colon lies behind the beginning of the statement. -/
theorem Begun.le_behind {c₂ : Cursor} (h : Begun source start c) (on : Onward source c c₂)
    (hcolon : c₂.isOp ":" = true) : start ≤ c₂.advance.lastEnd :=
  Nat.le_of_lt (h.lt_of_onward on (solid_of_isOp hcolon) on.ready.advance.ready.refl)

theorem LaidWithin.blockIn_succ {inBlock : Bool} (ih : LaidWithin source fuel)
    (h : Ready source c) : LaysItems source c (blockIn (fuel + 1) inBlock c) := by
  intro ns c₁ hok
  simp only [blockIn] at hok
  have hskip := h.skipNewlines
  split at hok
  · cases hok
    exact ⟨hskip, items_nil hskip.le⟩
  · have hon := hskip.trans hskip.ready.advance
    split at hok
    · cases hok
      exact ⟨hon, items_nil hon.le⟩
    · obtain ⟨hon', hitems⟩ := ih.block hon.ready ns c₁ hok
      exact ⟨hon.trans hon', hitems.mono hon.le (Nat.le_refl _)⟩
  · obtain ⟨⟨nested, c₂⟩, hnested, hok⟩ := bind_ok_iff.1 hok
    obtain ⟨⟨more, c₃⟩, hmore, hok⟩ := bind_ok_iff.1 hok
    cases hok
    have hon := hskip.trans hskip.ready.advance
    obtain ⟨hon₁, hitems₁⟩ := ih.block hon.ready _ _ hnested
    obtain ⟨hon₂, hitems₂⟩ := ih.block hon₁.ready _ _ hmore
    exact ⟨hon.trans (hon₁.trans hon₂), (hitems₁.mono hon.le (Nat.le_refl _)).append hitems₂⟩
  · obtain ⟨⟨item, c₂⟩, hitem, hok⟩ := bind_ok_iff.1 hok
    obtain ⟨⟨more, c₃⟩, hmore, hok⟩ := bind_ok_iff.1 hok
    cases hok
    obtain ⟨hon₁, hitems₁⟩ := ih.statement hskip.ready _ _ hitem
    obtain ⟨hon₂, hitems₂⟩ := ih.block hon₁.ready _ _ hmore
    have hle := Nat.le_trans hskip.le hskip.ready.lastEnd_le
    exact ⟨hskip.trans (hon₁.trans hon₂), (hitems₁.mono hle (Nat.le_refl _)).append hitems₂⟩

theorem LaidWithin.suiteIn_succ (ih : LaidWithin source fuel) (h : Ready source c) :
    LaysItems source c (suiteIn (fuel + 1) c) := by
  intro ns c₁ hok
  simp only [suiteIn] at hok
  split at hok
  · split at hok
    · have hon := h.advance.trans h.advance.ready.advance
      obtain ⟨hon', hitems⟩ := ih.block hon.ready ns c₁ hok
      exact ⟨hon.trans hon', hitems.mono hon.le (Nat.le_refl _)⟩
    · cases hok
      exact ⟨h.advance, items_nil h.advance.le⟩
  · obtain ⟨⟨items, c₂⟩, hitems, hok⟩ := bind_ok_iff.1 hok
    obtain ⟨hon, hlaid⟩ := ih.line h _ _ hitems
    cases hok
    split
    · exact ⟨hon.trans hon.ready.advance, hlaid.mono (Nat.le_refl _) hon.ready.advance.le⟩
    · exact ⟨hon, hlaid⟩

theorem LaidWithin.lineIn_succ (ih : LaidWithin source fuel) (h : Ready source c) :
    LaysItems source c (lineIn (fuel + 1) c) := by
  intro ns c₁ hok
  simp only [lineIn, bind_ok_iff] at hok
  obtain ⟨⟨item, c₂⟩, hitem, hok⟩ := hok
  obtain ⟨hon, hlaid⟩ := ih.statement h _ _ hitem
  have hfirst := hlaid.mono h.lastEnd_le (Nat.le_refl _)
  simp only at hok
  split at hok
  · have hsemi := hon.ready.advance
    split at hok
    · cases hok
      exact ⟨hon.trans hsemi, hfirst.mono (Nat.le_refl _) hsemi.le⟩
    · obtain ⟨⟨items, c₃⟩, hitems, hok⟩ := bind_ok_iff.1 hok
      cases hok
      obtain ⟨hon', hlaid'⟩ := ih.line hsemi.ready _ _ hitems
      exact ⟨hon.trans (hsemi.trans hon'),
        hfirst.append (hlaid'.mono hsemi.le (Nat.le_refl _))⟩
  · cases hok
    exact ⟨hon, hfirst⟩

theorem LaidWithin.functionIn_succ (ih : LaidWithin source fuel) (h : Begun source start c) :
    LaysItem source start c (functionIn (fuel + 1) start c) := by
  intro n c₁ hok
  simp only [functionIn, bind_ok_iff] at hok
  obtain ⟨c₃, hcolon, ⟨body, c₄⟩, hbody, hok⟩ := hok
  cases hok
  have hname : Onward source c.advance
      (if c.advance.kind = .word then (c.advance.peek.text, c.advance.advance)
        else ([], c.advance)).2 := by
    split
    · exact h.ready.advance.ready.advance
    · exact h.ready.advance.ready.refl
  obtain ⟨hon, hop⟩ := hname.ready.skipToColon hcolon
  have hto := h.ready.advance.trans (hname.trans hon)
  obtain ⟨hon', hlaid⟩ := ih.suite hto.ready.advance.ready _ _ hbody
  exact h.items_behind hto hop hon' (hlaid.mono (h.le_behind hto hop) (Nat.le_refl _)) rfl rfl rfl
    (by simp)

theorem LaidWithin.classIn_succ (ih : LaidWithin source fuel) (h : Begun source start c) :
    LaysItem source start c (classIn (fuel + 1) start c) := by
  intro n c₁ hok
  simp only [classIn, bind_ok_iff] at hok
  obtain ⟨⟨name, c₂⟩, hname, c₃, hcolon, ⟨body, c₄⟩, hbody, hok⟩ := hok
  cases hok
  have hword := h.ready.advance.ready.expectWord hname
  obtain ⟨hon, hop⟩ := hword.ready.skipToColon hcolon
  have hto := h.ready.advance.trans (hword.trans hon)
  obtain ⟨hon', hlaid⟩ := ih.suite hto.ready.advance.ready _ _ hbody
  exact h.items_behind hto hop hon' (hlaid.mono (h.le_behind hto hop) (Nat.le_refl _)) rfl rfl rfl
    (by simp)

/-- The head of a loop or a match, with the colon behind it. -/
theorem Onward.head {c₂ c₃ : Cursor} {n : Node} (on : Onward source c c₂)
    (hn : c₂.expression = .ok (n, c₃)) (hle : start ≤ c₂.peek.span.start)
    (hcolon : c₃.expectOp ":" = .ok c₁) :
    Onward source c c₃ ∧ c₃.isOp ":" = true ∧ c₁ = c₃.advance ∧
      Items source start c₁.lastEnd [n] := by
  obtain ⟨hon, -, hspans⟩ := on.ready.expression hn
  obtain ⟨hop, rfl⟩ := expectOp_eq_ok.1 hcolon
  exact ⟨on.trans hon, hop, rfl,
    (hspans.expressions hle).items.mono (Nat.le_refl _) hon.ready.advance.le⟩

theorem LaidWithin.forStatementIn_succ (ih : LaidWithin source fuel) (h : Begun source start c)
    (hs : c.kind.isSolid = true) : LaysItem source start c (forStatementIn (fuel + 1) start c) := by
  intro n c₁ hok
  simp only [forStatementIn, bind_ok_iff] at hok
  obtain ⟨⟨name, c₂⟩, hname, hok⟩ := hok
  have hword := h.ready.advance.ready.expectWord hname
  have htail {c₃ : Cursor} (hc₃ : Onward source c.advance c₃) (hok : (do
      if c₃.isWord "in" then
        let r ← c₃.advance.expression
        let c ← r.2.expectOp ":"
        let s ← suiteIn fuel c
        return ((⟨.forStmt, s.2.spanFrom start, r.1 :: s.1⟩ : Node), s.2)
      else .error (c₃.unexpected (.exactly "in"))) = .ok (n, c₁)) :
      Onward source c c₁ ∧ Items source start c₁.lastEnd [n] := by
    split at hok
    · obtain ⟨⟨iterable, c₄⟩, hiterable, hok⟩ := bind_ok_iff.1 hok
      obtain ⟨c₅, hcolon, hok⟩ := bind_ok_iff.1 hok
      obtain ⟨⟨body, c₆⟩, hbody, hok⟩ := bind_ok_iff.1 hok
      cases hok
      have hto := h.ready.advance.trans (hc₃.trans hc₃.ready.advance)
      have hle := Nat.le_trans (Nat.le_of_lt (h.lt hs (hc₃.trans hc₃.ready.advance)))
        hto.ready.lastEnd_le
      obtain ⟨hon, hop, rfl, hhead⟩ := hto.head hiterable hle hcolon
      obtain ⟨hon', hlaid⟩ := ih.suite hon.ready.advance.ready _ _ hbody
      exact h.items_behind hon hop hon' (hhead.append hlaid) rfl rfl rfl (by simp)
    · cases hok
  simp only at hok
  split at hok
  · obtain ⟨c₃, htype, hok⟩ := bind_ok_iff.1 hok
    exact htail (hword.trans
      (hword.ready.advance.trans (hword.ready.advance.ready.typeHint htype))) hok
  · exact htail hword hok

theorem LaidWithin.whileStatementIn_succ (ih : LaidWithin source fuel)
    (h : Begun source start c) (hs : c.kind.isSolid = true) :
    LaysItem source start c (whileStatementIn (fuel + 1) start c) := by
  intro n c₁ hok
  simp only [whileStatementIn, bind_ok_iff] at hok
  obtain ⟨⟨condition, c₂⟩, hcondition, c₃, hcolon, ⟨body, c₄⟩, hbody, hok⟩ := hok
  cases hok
  have hle := Nat.le_trans (Nat.le_of_lt (h.lt hs h.ready.advance.ready.refl))
    h.ready.advance.ready.lastEnd_le
  obtain ⟨hon, hop, rfl, hhead⟩ := h.ready.advance.head hcondition hle hcolon
  obtain ⟨hon', hlaid⟩ := ih.suite hon.ready.advance.ready _ _ hbody
  exact h.items_behind hon hop hon' (hhead.append hlaid) rfl rfl rfl (by simp)

theorem LaidWithin.matchStatementIn_succ (ih : LaidWithin source fuel)
    (h : Begun source start c) (hs : c.kind.isSolid = true) :
    LaysItem source start c (matchStatementIn (fuel + 1) start c) := by
  intro n c₁ hok
  simp only [matchStatementIn, bind_ok_iff] at hok
  obtain ⟨⟨subject, c₂⟩, hsubject, c₃, hcolon, hok⟩ := hok
  have hle := Nat.le_trans (Nat.le_of_lt (h.lt hs h.ready.advance.ready.refl))
    h.ready.advance.ready.lastEnd_le
  obtain ⟨hon, hop, rfl, hhead⟩ := h.ready.advance.head hsubject hle hcolon
  have hcolon' := hon.ready.advance
  split at hok
  · split at hok
    · obtain ⟨⟨branches, c₄⟩, hbranches, hok⟩ := bind_ok_iff.1 hok
      cases hok
      have hinto := hcolon'.ready.advance.trans hcolon'.ready.advance.ready.advance
      obtain ⟨hon', hlaid⟩ := ih.matchBranches hinto.ready _ _ hbranches
      exact h.items_behind hon hop (hinto.trans hon')
        (hhead.append (hlaid.mono hinto.le (Nat.le_refl _))) rfl rfl rfl (by simp)
    · cases hok
      exact h.items_behind hon hop hcolon'.ready.advance
        (hhead.mono (Nat.le_refl _) hcolon'.ready.advance.le) rfl rfl rfl (by simp)
  · cases hok

theorem LaidWithin.matchBranchesIn_succ (ih : LaidWithin source fuel) (h : Ready source c) :
    LaysItems source c (matchBranchesIn (fuel + 1) c) := by
  intro ns c₁ hok
  simp only [matchBranchesIn] at hok
  have hskip := h.skipNewlines
  split at hok
  · cases hok
    have hon := hskip.trans hskip.ready.advance
    exact ⟨hon, items_nil hon.le⟩
  · cases hok
    exact ⟨hskip, items_nil hskip.le⟩
  · obtain ⟨c₂, hcolon, hok⟩ := bind_ok_iff.1 hok
    obtain ⟨⟨body, c₃⟩, hbody, hok⟩ := bind_ok_iff.1 hok
    obtain ⟨⟨more, c₄⟩, hmore, hok⟩ := bind_ok_iff.1 hok
    cases hok
    obtain ⟨hon, hop⟩ := hskip.ready.skipToColon hcolon
    obtain ⟨hon', hlaid⟩ := ih.suite hon.ready.advance.ready _ _ hbody
    obtain ⟨hon'', hmore'⟩ := ih.matchBranches hon'.ready _ _ hmore
    -- The pattern may be empty; it ends before the colon in any case.
    have hpattern : Items source c.skipNewlines.peek.span.start c₂.advance.lastEnd
        [⟨.pattern, c₂.spanFrom c.skipNewlines.peek.span.start, []⟩] := by
      have hle := hskip.ready.begun.le_behind hon hop
      refine (items_compound (k := .pattern) rfl rfl rfl (by simp)
        (items_nil (Nat.le_max_right _ _))).mono (Nat.le_refl _) ?_
      have := hon.ready.advance.le
      omega
    obtain ⟨hon₂, hbranch⟩ := hskip.ready.begun.items_behind (k := .matchBranch) hon hop hon'
      (hpattern.append hlaid) rfl rfl rfl (by simp)
    refine ⟨hskip.trans (hon₂.trans hon''), ?_⟩
    exact (hbranch.mono (Nat.le_trans hskip.le hskip.ready.lastEnd_le) (Nat.le_refl _)).append
      hmore'

theorem LaidWithin.branchIn_succ {which : Branch} (ih : LaidWithin source fuel)
    (h : Ready source c) (n : Node) (c₁ : Cursor) (hok : branchIn (fuel + 1) which c = .ok (n, c₁)) :
    Onward source c c₁ ∧ Branches source c.peek.span.start c₁.lastEnd [n] := by
  have hbegun := h.begun
  have htail (condition : List Node) (c₂ : Cursor) (hon : Onward source c c₂)
      (hitems : Items source c.peek.span.start c₂.advance.lastEnd condition)
      (hguard : (Kind.branch which).isGuarded = true →
        ∃ m, condition.head? = some m ∧ m.kind.isExpression = true) (hok : (do
        let c' ← c₂.expectOp ":"
        let s ← suiteIn fuel c'
        return ((⟨.branch which, s.2.spanFrom c.peek.span.start, condition ++ s.1⟩ : Node), s.2)) =
          .ok (n, c₁)) :
      Onward source c c₁ ∧ Branches source c.peek.span.start c₁.lastEnd [n] := by
    obtain ⟨c₃, hcolon, hok⟩ := bind_ok_iff.1 hok
    obtain ⟨⟨body, c₄⟩, hbody, hend⟩ := bind_ok_iff.1 hok
    obtain ⟨hop, rfl⟩ := expectOp_eq_ok.1 hcolon
    cases hend
    obtain ⟨hon', hlaid⟩ := ih.suite hon.ready.advance.ready _ _ hbody
    have hlt := hbegun.lt_of_onward hon (solid_of_isOp hop) hon'
    refine ⟨hon.trans (hon.ready.advance.trans hon'), ?_⟩
    rw [spanFrom_eq (Nat.le_of_lt hlt)]
    refine branches_branch (hitems.append hlaid) fun hg => ?_
    obtain ⟨m, hm, he⟩ := hguard hg
    exact ⟨m, by simp [List.head?_append, hm], he⟩
  simp only [branchIn] at hok
  split at hok
  · next hwhich =>
    obtain ⟨⟨condition, c₂⟩, hcondition, hok⟩ := bind_ok_iff.1 hok
    cases hcondition
    obtain ⟨c₃, hcolon, -⟩ := bind_ok_iff.1 hok
    have hop := (expectOp_eq_ok.1 hcolon).1
    refine htail [] c.advance h.advance
      (items_nil (hbegun.le_behind h.advance hop)) ?_ hok
    simp [hwhich, Kind.isGuarded]
  · obtain ⟨⟨value, c₂⟩, hvalue, hok⟩ := bind_ok_iff.1 hok
    obtain ⟨⟨condition, c₃⟩, hcondition, hok⟩ := bind_ok_iff.1 hok
    cases hcondition
    obtain ⟨hon, hs, hspans⟩ := h.advance.ready.expression hvalue
    have hle := h.advance.peek_le h hs
    refine htail [value] c₂ (h.advance.trans hon)
      ((hspans.expressions hle).items.mono (Nat.le_refl _) hon.ready.advance.le) ?_ hok
    exact fun _ => ⟨value, rfl, hspans.isExpression⟩

theorem LaidWithin.branchesIn_succ (ih : LaidWithin source fuel) (h : Ready source c)
    (ns : List Node) (c₁ : Cursor) (hok : branchesIn (fuel + 1) c = .ok (ns, c₁)) :
    Onward source c c₁ ∧ Branches source c.lastEnd c₁.lastEnd ns := by
  simp only [branchesIn] at hok
  split at hok
  · obtain ⟨⟨branch, c₂⟩, hbranch, hok⟩ := bind_ok_iff.1 hok
    obtain ⟨⟨others, c₃⟩, hothers, hok⟩ := bind_ok_iff.1 hok
    cases hok
    obtain ⟨hon, hfirst⟩ := ih.branch h _ _ hbranch
    obtain ⟨hon', hrest⟩ := ih.branches hon.ready _ _ hothers
    exact ⟨hon.trans hon', (hfirst.mono h.lastEnd_le).append hrest⟩
  · split at hok
    · obtain ⟨⟨branch, c₂⟩, hbranch, hok⟩ := bind_ok_iff.1 hok
      cases hok
      obtain ⟨hon, hfirst⟩ := ih.branch h _ _ hbranch
      exact ⟨hon, hfirst.mono h.lastEnd_le⟩
    · cases hok
      exact ⟨h.refl, row_nil.2 (Nat.le_refl _), by simp⟩

theorem LaidWithin.ifStatementIn_succ (ih : LaidWithin source fuel) (h : Begun source start c) :
    LaysItem source start c (ifStatementIn (fuel + 1) start c) := by
  intro n c₁ hok
  simp only [ifStatementIn, bind_ok_iff] at hok
  obtain ⟨⟨first, c₂⟩, hfirst, ⟨others, c₃⟩, hothers, hok⟩ := hok
  cases hok
  obtain ⟨hon, hbranch⟩ := ih.branch h.ready _ _ hfirst
  obtain ⟨hon', hrest⟩ := ih.branches hon.ready _ _ hothers
  have hall := (hbranch.mono h.le).append hrest
  refine ⟨hon.trans hon', ?_⟩
  simp only
  rw [spanFrom_eq hall.row.le]
  exact hall.ifStmt

/-- A declaration of which only the extent is kept begins with a word. -/
theorem word_of_plainDeclaration? {kind : Node.Kind} (h : plainDeclaration? c.peek = some kind) :
    c.kind = .word ∧ kind.isExpression = false ∧ kind.isSimple = false ∧ kind.isBranch = false ∧
      kind ≠ .ifStmt := by
  unfold plainDeclaration? at h
  repeat' split at h
  all_goals first
    | (cases h; exact ⟨kind_of_isWord ‹_›, rfl, rfl, rfl, by simp⟩)
    | cases h

theorem word_of_isKeyword (h : isKeyword c.peek = true) : c.kind = .word := by
  simp only [isKeyword, Bool.or_eq_true] at h
  rcases h with (((h | h) | h) | h) | h <;> exact kind_of_isWord h

/-- How a lexeme opens a statement. -/
theorem opening_spec {o : Opening} (h : opening c.peek = o) :
    (∃ kind, o = .plain kind ∧ plainDeclaration? c.peek = some kind) ∨
    (o = .keyword ∧ isKeyword c.peek = true) ∨ (o = .modifier ∧ isModifier c.peek = true) ∨
    (∃ w, (w, o) ∈ openingWords ∧ c.isWord w = true) ∨ o = .expression := by
  unfold opening at h
  split at h
  · next kind hkind => exact .inl ⟨kind, h.symm, hkind⟩
  · split at h
    · next hk => exact .inr (.inl ⟨h.symm, hk⟩)
    · split at h
      · next hm => exact .inr (.inr (.inl ⟨h.symm, hm⟩))
      · split at h
        · next w o' hf =>
          subst h
          have hw := List.find?_some hf
          exact .inr (.inr (.inr (.inl ⟨w, List.mem_of_find?_eq_some hf, hw⟩)))
        · exact .inr (.inr (.inr (.inr h.symm)))

theorem isModifier_of_opening (h : opening c.peek = .modifier) : isModifier c.peek = true := by
  rcases opening_spec h with ⟨kind, he, -⟩ | ⟨he, -⟩ | ⟨-, hm⟩ | ⟨w, hw, -⟩ | he
  · cases he
  · cases he
  · exact hm
  · simp [openingWords] at hw
  · cases he

theorem plain_of_opening {kind : Node.Kind} (h : opening c.peek = .plain kind) :
    plainDeclaration? c.peek = some kind := by
  rcases opening_spec h with ⟨kind', he, hk⟩ | ⟨he, -⟩ | ⟨he, -⟩ | ⟨w, hw, -⟩ | he
  · cases he
    exact hk
  · cases he
  · cases he
  · simp [openingWords] at hw
  · cases he

/-- Only an expression is opened by anything but a word. -/
theorem word_of_opening {o : Opening} (h : opening c.peek = o) (ho : o ≠ .expression) :
    c.kind = .word := by
  rcases opening_spec h with ⟨kind, -, hk⟩ | ⟨-, hk⟩ | ⟨-, hm⟩ | ⟨w, -, hw⟩ | he
  · exact (word_of_plainDeclaration? hk).1
  · exact word_of_isKeyword hk
  · simp only [isModifier, Bool.and_eq_true, beq_iff_eq] at hm
    exact hm.1
  · exact kind_of_isWord hw
  · exact absurd he ho

/-- What is passed does not move the beginning of the statement. -/
theorem Begun.onward (h : Begun source start c) (hs : c.kind.isSolid = true)
    (on : Onward source c c₁) (hs₁ : c₁.kind.isSolid = true) : Begun source start c₁ :=
  ⟨on.ready, Nat.le_trans h.le (on.peek_le h.ready hs₁), fun _ => h.starts hs⟩

theorem Begun.annotations {ended : Bool} (h : Begun source start c)
    (hok : annotations fuel c = .ok (ended, c₁)) :
    Onward source c c₁ ∧ Begun source start c₁ ∧ (ended = true → start < c₁.lastEnd) := by
  rcases h.ready.annotations hok with ⟨rfl, rfl⟩ | ⟨hop, hon⟩
  · exact ⟨h.ready.refl, h, by simp⟩
  · have hs := solid_of_isOp hop
    have hlt := h.lt hs hon
    refine ⟨h.ready.advance.trans hon, ⟨hon.ready, ?_, fun _ => h.starts hs⟩, fun _ => hlt⟩
    have := hon.ready.lastEnd_le
    omega

theorem LaidWithin.statementIn_succ (ih : LaidWithin source fuel) (h : Ready source c) :
    LaysItem source c.peek.span.start c (statementIn (fuel + 1) c) := by
  intro n c₁ hok
  generalize hstart : c.peek.span.start = start
  simp only [statementIn, bind_ok_iff, hstart] at hok
  obtain ⟨⟨ended, c₂⟩, hannotations, hok⟩ := hok
  obtain ⟨hto, hb, hend⟩ := (hstart ▸ h.begun).annotations hannotations
  have hsolid (ho : opening c₂.peek ≠ .expression) : c₂.kind.isSolid = true := by
    rw [word_of_opening rfl ho]
    rfl
  suffices Onward source c₂ c₁ ∧ Items source start c₁.lastEnd [n] from
    ⟨hto.trans this.1, this.2⟩
  simp only at hok
  split at hok
  · next hended =>
    have hle := Nat.le_of_lt (hend hended)
    cases hok
    rw [spanFrom_eq hle]
    exact ⟨hto.ready.refl, items_compound rfl rfl rfl (by simp) (items_nil hle)⟩
  · cases ho : opening c₂.peek with
    | plain kind =>
      simp only [ho, pure, Except.pure, Except.ok.injEq] at hok
      obtain ⟨hw, hk, hs, hb', hi⟩ := word_of_plainDeclaration? (plain_of_opening ho)
      exact hb.plainDeclaration hw hk hs hb' hi hok
    | keyword =>
      simp only [ho] at hok
      obtain ⟨u, -, hok⟩ := bind_ok_iff.1 hok
      cases hok
      have hle := Nat.le_of_lt (hb.lt (hsolid (by simp [ho])) hb.ready.advance.ready.refl)
      rw [spanFrom_eq hle]
      exact ⟨hb.ready.advance, items_compound rfl rfl rfl (by simp) (items_nil hle)⟩
    | modifier =>
      simp only [ho] at hok
      have hskip := hb.ready.skipModifiers c₂.rest.length
      have hmoved := hb.onward (hsolid (by simp [ho])) hskip
      suffices Onward source (skipModifiers c₂.rest.length c₂) c₁ ∧
          Items source start c₁.lastEnd [n] from ⟨hskip.trans this.1, this.2⟩
      split at hok
      · next hw =>
        have hs := solid_of_isWord hw
        exact (hmoved hs).varStatement hs hok
      · split at hok
        · next hw => exact ih.function (hmoved (solid_of_isWord hw)) _ _ hok
        · split at hok
          · next hw =>
            simp only [pure, Except.pure, Except.ok.injEq] at hok
            exact (hmoved (solid_of_isWord hw)).plainDeclaration (kind_of_isWord hw) rfl rfl rfl
              (by simp) hok
          · cases hok
    | varDecl =>
      simp only [ho] at hok
      exact hb.varStatement (hsolid (by simp [ho])) hok
    | funcDecl =>
      simp only [ho] at hok
      exact ih.function hb _ _ hok
    | classDecl =>
      simp only [ho] at hok
      exact ih.class_ hb _ _ hok
    | ifStmt =>
      simp only [ho] at hok
      exact ih.ifStatement hb _ _ hok
    | forStmt =>
      simp only [ho] at hok
      exact ih.forStatement hb (hsolid (by simp [ho])) _ _ hok
    | whileStmt =>
      simp only [ho] at hok
      exact ih.whileStatement hb (hsolid (by simp [ho])) _ _ hok
    | matchStmt =>
      simp only [ho] at hok
      exact ih.matchStatement hb (hsolid (by simp [ho])) _ _ hok
    | returnStmt =>
      simp only [ho] at hok
      exact hb.returnStatement (hsolid (by simp [ho])) hok
    | orphan => simp [ho] at hok
    | expression =>
      simp only [ho] at hok
      exact hb.expressionStatement hok

/-- By induction on the bound, which every rule hands on one less. -/
theorem laidWithin (source : Text) (fuel : Nat) : LaidWithin source fuel := by
  induction fuel with
  | zero =>
    constructor <;>
      simp [LaysItems, LaysItem, blockIn, suiteIn, lineIn, statementIn, functionIn, classIn,
        ifStatementIn, branchesIn, branchIn, forStatementIn, whileStatementIn, matchStatementIn,
        matchBranchesIn]
  | succ fuel ih =>
    exact ⟨ih.blockIn_succ, ih.suiteIn_succ, ih.lineIn_succ, ih.statementIn_succ,
      ih.functionIn_succ, ih.classIn_succ, ih.ifStatementIn_succ, ih.branchesIn_succ,
      ih.branchIn_succ, ih.forStatementIn_succ, ih.whileStatementIn_succ,
      ih.matchStatementIn_succ, ih.matchBranchesIn_succ⟩

/-- The statements of a script lie in order. -/
theorem Ready.statements {ns : List Node} (h : Ready source c) (hok : c.statements = .ok (ns, c₁)) :
    Onward source c c₁ ∧ Items source c.lastEnd c₁.lastEnd ns :=
  (laidWithin source _).block h ns c₁ hok

end Cursor

end Phrasebook
