import Phrasebook.Proofs.Grammar.Precedence
import Phrasebook.Proofs.Spacing

/-!
Expressions that are written out.

An `Expr` is written as its tokens with one blank between them, and has its node with all spans. If the
node is well bound, reading the text gives the node back (`Expr.Written`): by induction on the expression,
where each operand is read with whatever comes after it, as long as that leaves the operand as it is
(`Cursor.Leaves`).
-/
namespace Phrasebook

open Text (size)

namespace Grammar

/-- The words that are not names in an expression. -/
def keywords : List Text :=
  reserved ++ ["true", "false", "null", "func", "not", "await"].map Text.of

/-- An operator as a token. -/
def mark (op : String) : Token := ⟨.op, Text.of op⟩

/-- An operator of one byte in its place. -/
def markAt (pos : Nat) (op : String) : Lexeme := ⟨.op, ⟨pos, pos + 1⟩, Text.of op⟩

/-- A word as a token. -/
def word (w : String) : Token := ⟨.word, Text.of w⟩

/-- The tokens of a binary operator. -/
def binaryTokens (op : Text) : List Token :=
  if op = Text.of "not in" then [word "not", word "in"]
  else if op ∈ binaryWords then [⟨.word, op⟩]
  else [⟨.op, op⟩]

/-- The token of an operator before its operand. -/
def unaryToken (op : Text) : Token := if op = Text.of "not" then ⟨.word, op⟩ else ⟨.op, op⟩

/-- An expression with the texts of its leaves. -/
inductive Expr where
  | name (text : Text) (reads : Token.Reads ⟨.word, text⟩) (free : text ∉ keywords)
  | number (text : Text) (reads : Token.Reads ⟨.number, text⟩)
  | string (quoting : Quoting) (text : Text) (reads : Token.Reads ⟨.str quoting, text⟩)
  | paren (inner : Expr)
  | array (items : List Expr)
  | dictionary (pairs : List (Expr × Expr))
  | call (callee : Expr) (arguments : List Expr)
  | member (object : Expr) (part : Text) (reads : Token.Reads ⟨.word, part⟩)
  | index (object place : Expr)
  | unary (op : Text) (operand : Expr)
  | binary (op : Text) (left right : Expr)
  | ternary (value condition other : Expr)

namespace Expr

open Token (width)

mutual

/-- The tokens of an expression, in order. -/
def tokens : Expr → List Token
  | .name text _ _ => [⟨.word, text⟩]
  | .number text _ => [⟨.number, text⟩]
  | .string q text _ => [⟨.str q, text⟩]
  | .paren inner => mark "(" :: (inner.tokens ++ [mark ")"])
  | .array items => mark "[" :: (listTokens items ++ [mark "]"])
  | .dictionary pairs => mark "\x7b" :: (pairTokens pairs ++ [mark "\x7d"])
  | .call callee arguments => callee.tokens ++ mark "(" :: (listTokens arguments ++ [mark ")"])
  | .member object part _ => object.tokens ++ [mark ".", ⟨.word, part⟩]
  | .index object place => object.tokens ++ mark "[" :: (place.tokens ++ [mark "]"])
  | .unary op operand => unaryToken op :: operand.tokens
  | .binary op left right => left.tokens ++ (binaryTokens op ++ right.tokens)
  | .ternary value condition other =>
    value.tokens ++ word "if" :: (condition.tokens ++ word "else" :: other.tokens)

/-- The tokens of expressions with commas between them. -/
def listTokens : List Expr → List Token
  | [] => []
  | e :: es =>
    match es with
    | [] => e.tokens
    | _ :: _ => e.tokens ++ mark "," :: listTokens es

/-- The tokens of pairs with commas between them. -/
def pairTokens : List (Expr × Expr) → List Token
  | [] => []
  | (key, value) :: ps =>
    match ps with
    | [] => key.tokens ++ mark ":" :: value.tokens
    | _ :: _ => key.tokens ++ mark ":" :: (value.tokens ++ mark "," :: pairTokens ps)

end

/-- The tokens with one blank between them. -/
def text (e : Expr) : Text := Token.join e.tokens

/-- What an expression covers where its text begins at `pos`. -/
def cover (e : Expr) (pos : Nat) : Span := ⟨pos, pos + width e.tokens - 1⟩

mutual

/-- The node of an expression whose text begins at `pos`. -/
def node : Expr → Nat → Node
  | .name text reads free, pos => ⟨.identifier, (Expr.name text reads free).cover pos, []⟩
  | .number text reads, pos => ⟨.number, (Expr.number text reads).cover pos, []⟩
  | .string q text reads, pos => ⟨.string q, (Expr.string q text reads).cover pos, []⟩
  | .paren inner, pos => ⟨.paren, (Expr.paren inner).cover pos, [inner.node (pos + 2)]⟩
  | .array items, pos => ⟨.array, (Expr.array items).cover pos, listNodes items (pos + 2)⟩
  | .dictionary pairs, pos =>
    ⟨.dictionary, (Expr.dictionary pairs).cover pos, pairNodes pairs (pos + 2)⟩
  | .call callee arguments, pos =>
    ⟨.call, (Expr.call callee arguments).cover pos,
      callee.node pos :: listNodes arguments (pos + width callee.tokens + 2)⟩
  | .member object part reads, pos =>
    ⟨.member part, (Expr.member object part reads).cover pos, [object.node pos]⟩
  | .index object place, pos =>
    ⟨.index, (Expr.index object place).cover pos,
      [object.node pos, place.node (pos + width object.tokens + 2)]⟩
  | .unary op operand, pos =>
    ⟨.unary op, (Expr.unary op operand).cover pos, [operand.node (pos + size op + 1)]⟩
  | .binary op left right, pos =>
    ⟨.binary op, (Expr.binary op left right).cover pos,
      [left.node pos, right.node (pos + width left.tokens + (size op + 1))]⟩
  | .ternary value condition other, pos =>
    ⟨.ternary, (Expr.ternary value condition other).cover pos,
      [value.node pos, condition.node (pos + width value.tokens + 3),
        other.node (pos + width value.tokens + 3 + width condition.tokens + 5)]⟩

/-- The nodes of expressions with commas between them. -/
def listNodes : List Expr → Nat → List Node
  | [], _ => []
  | e :: es, pos => e.node pos :: listNodes es (pos + width e.tokens + 2)

/-- The nodes of pairs with commas between them. -/
def pairNodes : List (Expr × Expr) → Nat → List Node
  | [], _ => []
  | (key, value) :: ps, pos =>
    let second := pos + width key.tokens + 2
    ⟨.pair, ⟨pos, second + width value.tokens - 1⟩, [key.node pos, value.node second]⟩ ::
      pairNodes ps (second + width value.tokens + 2)

end

end Expr

variable {op : Text} {p : Nat}

/-! ### Operators as tokens -/

theorem mem_of_precedence? (h : precedence? op = some p) :
    op = Text.of "not in" ∨ op ∈ binaryWords ∨ op ∈ binaryMarks := by
  unfold precedence? at h
  split at h
  · exact .inl ‹_›
  · rcases Option.or_eq_some_iff.1 h with h | ⟨-, h⟩
    · rcases mem_of_binaryLevel? h with ⟨-, hmem⟩ | ⟨hk, -⟩
      · exact .inr (.inl hmem)
      · cases hk
    · rcases mem_of_binaryLevel? h with ⟨hk, -⟩ | ⟨-, hmem⟩
      · cases hk
      · exact .inr (.inr hmem)

/-- What holds of the tokens of each operator. -/
theorem binaryTokens_induction {P : Text → List Token → Prop}
    (hnot : P (Text.of "not in") [word "not", word "in"])
    (hwords : ∀ w ∈ binaryWords, P w [⟨.word, w⟩]) (hmarks : ∀ m ∈ binaryMarks, P m [⟨.op, m⟩])
    (h : precedence? op = some p) : P op (binaryTokens op) := by
  have hword : ∀ w ∈ binaryWords, binaryTokens w = [⟨.word, w⟩] := by decide
  have hmark : ∀ m ∈ binaryMarks, binaryTokens m = [⟨.op, m⟩] := by decide
  rcases mem_of_precedence? h with rfl | hmem | hmem
  · exact hnot
  · rw [hword op hmem]
    exact hwords op hmem
  · rw [hmark op hmem]
    exact hmarks op hmem

theorem reads_binaryTokens (h : precedence? op = some p) : ∀ t ∈ binaryTokens op, t.Reads := by
  refine binaryTokens_induction (P := fun _ ts => ∀ t ∈ ts, t.Reads) ?_ ?_ ?_ h
  · decide
  · decide
  · decide

theorem width_binaryTokens (h : precedence? op = some p) :
    Token.width (binaryTokens op) = size op + 1 := by
  refine binaryTokens_induction (P := fun op ts => Token.width ts = size op + 1) ?_ ?_ ?_ h
  · decide
  · simp [Token.width]
  · simp [Token.width]

/-- The tokens of an operator are read as the operator. -/
theorem binaryOp?_binaryTokens (h : precedence? op = some p) (pos : Nat) (rest : List Lexeme)
    (last : Nat) :
    (⟨Token.lexemes pos (binaryTokens op) ++ rest, last⟩ : Cursor).binaryOp? =
      some (p, op, ⟨rest, pos + size op⟩) := by
  have hfew : ∀ w ∈ binaryWords, w ≠ Text.of "not" := by decide
  have hread {kind : Lexeme.Kind} {m : Text} (hk : kind.isSolid = true)
      (hnot : (⟨kind, ⟨pos, pos + size m⟩, m⟩ : Lexeme).isWord "not" = false)
      (hlevel : binaryLevel? ⟨kind, ⟨0, 0⟩, m⟩ = some p) :
      (⟨Token.lexemes pos [⟨kind, m⟩] ++ rest, last⟩ : Cursor).binaryOp? =
        some (p, m, ⟨rest, pos + size m⟩) := by
    have hadvance : (⟨Token.lexemes pos [⟨kind, m⟩] ++ rest, last⟩ : Cursor).advance =
        ⟨rest, pos + size m⟩ := by
      simp [Cursor.advance, Token.lexemes, Cursor.endAfter, hk]
      rintro rfl
      cases hk
    have hpeek : (⟨Token.lexemes pos [⟨kind, m⟩] ++ rest, last⟩ : Cursor).peek =
        ⟨kind, ⟨pos, pos + size m⟩, m⟩ := rfl
    have hlevel' : binaryLevel? ⟨kind, ⟨pos, pos + size m⟩, m⟩ = some p := hlevel
    rw [Cursor.binaryOp?, Cursor.isWord, hpeek, hnot, hlevel', hadvance]
    rfl
  refine binaryTokens_induction (P := fun op ts => precedence? op = some p →
    (⟨Token.lexemes pos ts ++ rest, last⟩ : Cursor).binaryOp? = some (p, op, ⟨rest, pos + size op⟩))
    ?_ ?_ ?_ h h
  · intro h
    cases h
    rfl
  · intro w hw h
    refine hread rfl ?_ ((precedence?_word w hw).symm.trans h)
    simp [Lexeme.isWord, hfew w hw]
  · intro m hm h
    exact hread rfl rfl ((precedence?_mark m hm).symm.trans h)

theorem endsChain_binaryTokens (h : precedence? op = some p) (pos : Nat) (rest : List Lexeme)
    (last : Nat) :
    (⟨Token.lexemes pos (binaryTokens op) ++ rest, last⟩ : Cursor).endsChain = true := by
  have hmarks : ∀ m ∈ binaryMarks, m ≠ Text.of "(" ∧ m ≠ Text.of "." ∧ m ≠ Text.of "[" := by decide
  refine binaryTokens_induction (P := fun _ ts =>
    (⟨Token.lexemes pos ts ++ rest, last⟩ : Cursor).endsChain = true) rfl (fun _ _ => rfl) ?_ h
  intro m hm
  obtain ⟨hcall, hmember, hindex⟩ := hmarks m hm
  simp [Cursor.endsChain, Cursor.isOp, Cursor.peek, Token.lexemes, Lexeme.isOp, hcall, hmember,
    hindex]

theorem mem_of_unaryPrecedence? (h : unaryPrecedence? op = some p) :
    op ∈ ["not", "!", "-", "+", "~"].map Text.of := by
  simp only [unaryPrecedence?, Option.or_eq_some_iff, unaryLevel?, Lexeme.isWord, Lexeme.isOp] at h
  simp only [List.map_cons, List.map_nil, List.mem_cons]
  grind

theorem text_unaryToken (op : Text) : (unaryToken op).text = op := by
  unfold unaryToken
  split <;> rfl

theorem unaryToken_spec (h : unaryPrecedence? op = some p) : (unaryToken op).Reads ∧
    (unaryToken op).kind.isSolid = true ∧
    unaryLevel? ⟨(unaryToken op).kind, ⟨0, 0⟩, op⟩ = some p := by
  have hall : ∀ op ∈ ["not", "!", "-", "+", "~"].map Text.of, (unaryToken op).Reads ∧
      (unaryToken op).kind.isSolid = true ∧
      unaryLevel? ⟨(unaryToken op).kind, ⟨0, 0⟩, op⟩ = unaryPrecedence? op := by decide
  rw [← h]
  exact hall op (mem_of_unaryPrecedence? h)

theorem one_le_of_precedence? (h : precedence? op = some p) : 1 ≤ p := by
  have hnot : ∀ p ∈ precedence? (Text.of "not in"), 1 ≤ p := by decide
  have hwords : ∀ w ∈ binaryWords, ∀ p ∈ precedence? w, 1 ≤ p := by decide
  have hmarks : ∀ m ∈ binaryMarks, ∀ p ∈ precedence? m, 1 ≤ p := by decide
  rcases mem_of_precedence? h with rfl | hmem | hmem
  · exact hnot p h
  · exact hwords op hmem p h
  · exact hmarks op hmem p h

end Grammar

/-! ### What may come next -/

namespace Token

open Grammar

/-- Whether a bracket or a statement ends here. -/
def isClosing (t : Token) : Bool :=
  t == mark ")" || t == mark "]" || t == mark "\x7d" || t == mark ";"

/-- Whether an operand without operators may begin here. -/
def isPlain (t : Token) : Bool :=
  (unaryLevel? ⟨t.kind, ⟨0, 0⟩, t.text⟩).isNone && !(t == word "await")

end Token

namespace Cursor

open Grammar Node

/-- Nothing that comes next goes on with an expression. -/
structure Stops (c : Cursor) : Prop where
  level : c.nextLevel? = none
  chain : c.endsChain = true
  noIf : c.isWord "if" = false

variable {c : Cursor} {n left right operand : Node} {level : Nat} {op : Text} {span : Span}

theorem leaves_one (h : n.WellBound) (hk : n.kind ≠ .ternary) (hc : c.nextLevel? = none) :
    Leaves 1 n c where
  wellBound := h
  kind := hk
  level q hq := by
    unfold Node.precedence? at hq
    split at hq
    · exact one_le_of_precedence? hq
    · cases hq
  next := by simp [hc]
  edge := by simp [hc]

/-- If a binary node is left as it is, so are its operands. -/
theorem Leaves.of_binary (h : Leaves level ⟨.binary op, span, [left, right]⟩ c) :
    ∃ p, Grammar.precedence? op = some p ∧ level ≤ p ∧ Leaves (p + 1) right c ∧
      (∀ q ∈ c.nextLevel?, q ≤ p) ∧ (takesType op = true → right.kind.isPostfix = true) ∧
      ∀ c' : Cursor, c'.nextLevel? = some p → Leaves level left c' := by
  obtain ⟨hbound, hchildren⟩ := wellBound_iff.1 h.wellBound
  obtain ⟨l, r, p, hlr, hp, hright, hleft, hedge, htype⟩ := hbound.binary op rfl
  cases hlr
  have hprec : (⟨.binary op, span, [left, right]⟩ : Node).precedence? = some p := hp
  have hnext := h.next p hprec
  have hlevel := h.level p hprec
  have hkind (i : Nat) {child : Node} (hi : [left, right][i]? = some child) : child.kind ≠ .ternary :=
    fun hk => absurd (hbound.ternary i child hi hk) (by simp [Kind.holdsTernary])
  refine ⟨p, hp, hlevel, ⟨hchildren right (by simp), hkind 1 rfl, hright, ?_, ?_⟩, hnext, htype, ?_⟩
  · intro q hq o ho
    exact Nat.le_trans (hnext o ho) (Nat.le_of_lt (hright q hq))
  · intro u hu
    exact h.edge u hu.binary
  · intro c' hc'
    refine ⟨hchildren left (by simp), hkind 0 rfl, ?_, ?_, ?_⟩
    · exact fun q hq => Nat.le_trans hlevel (hleft q hq)
    · rw [hc']
      rintro q hq o ⟨⟩
      exact hleft q hq
    · rw [hc']
      rintro u hu q hq o ⟨⟩
      exact hedge u hu q hq

/-- If a unary node is left as it is, so is its operand. -/
theorem Leaves.of_unary (h : Leaves level ⟨.unary op, span, [operand]⟩ c) :
    ∃ p, Grammar.unaryPrecedence? op = some p ∧ Leaves p operand c ∧ ∀ q ∈ c.nextLevel?, q < p := by
  obtain ⟨hbound, hchildren⟩ := wellBound_iff.1 h.wellBound
  obtain ⟨o, p, ho, hp, hoperand⟩ := hbound.unary op rfl
  cases ho
  have hnext := h.edge _ (.refl _) p hp
  refine ⟨p, hp, ⟨hchildren operand (by simp), ?_, hoperand, ?_, fun u hu => h.edge u hu.unary⟩, hnext⟩
  · exact fun hk => absurd (hbound.ternary 0 operand rfl hk) (by simp [Kind.holdsTernary])
  · exact fun q hq o ho => Nat.le_of_lt (Nat.lt_of_lt_of_le (hnext o ho) (hoperand q hq))

end Cursor

namespace Grammar.Expr

open Cursor Node

open Token (width lexemes)

/-! ### Reading what is written -/

/-- An expression is read where it is written, whatever comes after it, as long as that leaves it as it
is. -/
structure Written (e : Expr) : Prop where
  reads (pos : Nat) : (e.node pos).WellBound → ∀ t ∈ e.tokens, t.Reads
  first (pos : Nat) : (e.node pos).WellBound → ∃ t ts, e.tokens = t :: ts ∧ t.isClosing = false ∧
    ((e.node pos).kind.isPostfix = true → t.isPlain = true)
  chain (pos : Nat) {rest : List Lexeme} {last : Nat} {n : Node} {c : Cursor} :
    (e.node pos).WellBound → (e.node pos).kind.isPostfix = true →
      Derives (.chainTail (e.node pos)) ⟨rest, (e.cover pos).stop⟩ [n] c →
      Derives .chain ⟨lexemes pos e.tokens ++ rest, last⟩ [n] c
  binary (pos last : Nat) {rest : List Lexeme} {level : Nat} {n : Node} {c : Cursor} :
    Leaves level (e.node pos) ⟨rest, (e.cover pos).stop⟩ →
      endsChain ⟨rest, (e.cover pos).stop⟩ = true →
      Derives (.binaryTail level (e.node pos)) ⟨rest, (e.cover pos).stop⟩ [n] c →
      Derives (.binary level) ⟨lexemes pos e.tokens ++ rest, last⟩ [n] c
  whole (pos last : Nat) {rest : List Lexeme} : (e.node pos).WellBound →
    Stops ⟨rest, (e.cover pos).stop⟩ →
      Derives .expression ⟨lexemes pos e.tokens ++ rest, last⟩ [e.node pos]
        ⟨rest, (e.cover pos).stop⟩

variable {e inner callee object place operand left right value condition other : Expr}
  {es : List Expr} {ps : List (Expr × Expr)} {pos last : Nat} {rest : List Lexeme} {op : Text}

theorem span_node (e : Expr) (pos : Nat) : (e.node pos).span = e.cover pos := by
  cases e <;> rfl

/-- Of an expression and one behind it the hull goes from the one's beginning to the other's end. -/
theorem hull_node {f : Expr} {q : Nat} (h : pos + width e.tokens ≤ q) :
    (e.node pos).span.hull (f.node q).span = ⟨pos, q + width f.tokens - 1⟩ := by
  simp only [span_node, cover, Span.hull, Span.mk.injEq]
  omega

/-- An operand with binary operators at most is an expression. -/
theorem whole_of_binary (hk : (e.node pos).kind ≠ .ternary)
    (hbinary : ∀ {level : Nat} {n : Node} {c : Cursor},
      Leaves level (e.node pos) ⟨rest, (e.cover pos).stop⟩ →
      endsChain ⟨rest, (e.cover pos).stop⟩ = true →
      Derives (.binaryTail level (e.node pos)) ⟨rest, (e.cover pos).stop⟩ [n] c →
      Derives (.binary level) ⟨lexemes pos e.tokens ++ rest, last⟩ [n] c)
    (hbound : (e.node pos).WellBound) (hstops : Stops ⟨rest, (e.cover pos).stop⟩) :
    Derives .expression ⟨lexemes pos e.tokens ++ rest, last⟩ [e.node pos]
      ⟨rest, (e.cover pos).stop⟩ := by
  refine .value (hbinary (leaves_one hbound hk hstops.level) hstops.chain (.binaryEnd ?_)) hstops.noIf
  rw [endsBinary_iff, hstops.level]
  simp

/-- An operand to which nothing but calls, members and subscripts are added. -/
theorem Written.of_chain (hk : ∀ pos, (e.node pos).kind.isPostfix = true)
    (reads : ∀ pos, (e.node pos).WellBound → ∀ t ∈ e.tokens, t.Reads)
    (first : ∀ pos, (e.node pos).WellBound →
      ∃ t ts, e.tokens = t :: ts ∧ t.isClosing = false ∧ t.isPlain = true)
    (chain : ∀ pos {rest : List Lexeme} {last : Nat} {n : Node} {c : Cursor},
      (e.node pos).WellBound →
        Derives (.chainTail (e.node pos)) ⟨rest, (e.cover pos).stop⟩ [n] c →
        Derives .chain ⟨lexemes pos e.tokens ++ rest, last⟩ [n] c) : Written e := by
  have hbinary (pos last : Nat) {rest : List Lexeme} {level : Nat} {n : Node} {c : Cursor}
      (hleaves : Leaves level (e.node pos) ⟨rest, (e.cover pos).stop⟩)
      (hend : endsChain ⟨rest, (e.cover pos).stop⟩ = true)
      (hrest : Derives (.binaryTail level (e.node pos)) ⟨rest, (e.cover pos).stop⟩ [n] c) :
      Derives (.binary level) ⟨lexemes pos e.tokens ++ rest, last⟩ [n] c := by
    refine .binary (.plain ?_ ?_ (chain pos hleaves.wellBound (.chainEnd hend))) hrest
    all_goals
      obtain ⟨t, ts, ht, -, hplain⟩ := first pos hleaves.wellBound
      rw [Token.isPlain, Bool.and_eq_true, Option.isNone_iff_eq_none, Bool.not_eq_true',
        beq_eq_false_iff_ne] at hplain
      rw [ht]
    · exact hplain.1
    · refine Bool.eq_false_iff.2 fun hawait => hplain.2 ?_
      have hawait : (t.kind == .word && t.text == Text.of "await") = true := hawait
      rw [Bool.and_eq_true, beq_iff_eq, beq_iff_eq] at hawait
      obtain ⟨kind, text⟩ := t
      cases hawait.1
      cases hawait.2
      rfl
  refine ⟨reads, fun pos h => ?_, fun pos _ _ _ _ h _ => chain pos h, hbinary, fun pos _ _ h => ?_⟩
  · obtain ⟨t, ts, ht, hclosing, hplain⟩ := first pos h
    exact ⟨t, ts, ht, hclosing, fun _ => hplain⟩
  · exact whole_of_binary (ne_of_isPostfix (hk pos) rfl) (hbinary pos _) h

/-- An operand of one token. -/
theorem Written.of_leaf {t : Token} (ht : e.tokens = [t]) (hk : ∀ pos, (e.node pos).kind.isPostfix = true)
    (hreads : t.Reads) (hclosing : t.isClosing = false) (hplain : t.isPlain = true)
    (hprimary : ∀ pos rest last, Derives .primary ⟨lexemes pos [t] ++ rest, last⟩ [e.node pos]
      ⟨rest, pos + size t.text⟩) : Written e := by
  refine .of_chain hk (fun _ _ => ?_) (fun _ _ => ⟨t, [], ht, hclosing, hplain⟩) ?_
  · rw [ht]
    simpa using hreads
  · intro pos rest last n c _ hrest
    have hstop : (e.cover pos).stop = pos + size t.text := by simp [cover, ht, width]
    rw [hstop] at hrest
    rw [ht]
    exact .chain (hprimary pos rest last) hrest

theorem written_name (text : Text) (reads : Token.Reads ⟨.word, text⟩) (free : text ∉ keywords) :
    Written (.name text reads free) := by
  simp only [keywords, List.mem_append, List.map_cons, List.map_nil, List.mem_cons, List.not_mem_nil,
    or_false, not_or] at free
  obtain ⟨hreserved, htrue, hfalse, hnull, hfunc, hnot, hawait⟩ := free
  refine .of_leaf rfl (fun _ => rfl) reads ?_ ?_ fun pos rest last => .word rfl ?_
  · simp [Token.isClosing, mark]
  · simp [Token.isPlain, unaryLevel?, Lexeme.isWord, hnot, word, hawait]
  · have hword (w : String) (hw : text ≠ Text.of w) :
        isWord ⟨lexemes pos [⟨.word, text⟩] ++ rest, last⟩ w = false := by
      simp [Cursor.isWord, Cursor.peek, lexemes, Lexeme.isWord, hw]
    have hfree : reserved.contains
        (Cursor.peek ⟨lexemes pos [⟨.word, text⟩] ++ rest, last⟩).text = false := by
      simpa [Cursor.peek, lexemes] using hreserved
    rw [wordExpression, hword "true" htrue, hword "false" hfalse, hword "null" hnull,
      hword "func" hfunc, hfree]
    simp [leaf, Cursor.peek, Cursor.advance, endAfter, lexemes, node, cover, tokens, width,
      Lexeme.Kind.isSolid]

theorem written_number (text : Text) (reads : Token.Reads ⟨.number, text⟩) :
    Written (.number text reads) := by
  refine .of_leaf rfl (fun _ => rfl) reads ?_ rfl fun pos rest last => ?_
  · simp [Token.isClosing, mark]
  · simpa [Cursor.peek, Cursor.advance, endAfter, lexemes, node, cover, tokens, width,
      Lexeme.Kind.isSolid] using
      Derives.number (c := ⟨lexemes pos [⟨.number, text⟩] ++ rest, last⟩) rfl

theorem written_string (q : Quoting) (text : Text) (reads : Token.Reads ⟨.str q, text⟩) :
    Written (.string q text reads) := by
  refine .of_leaf rfl (fun _ => rfl) reads ?_ rfl fun pos rest last => ?_
  · simp [Token.isClosing, mark]
  · simpa [Cursor.peek, Cursor.advance, endAfter, lexemes, node, cover, tokens, width,
      Lexeme.Kind.isSolid] using
      Derives.string (c := ⟨lexemes pos [⟨.str q, text⟩] ++ rest, last⟩) rfl

/-- Behind an expression a bracket may end, or a comma or a colon come. -/
theorem stops_mark (op : String) (hop : op ∈ [",", ":", ")", "]", "\x7d"]) (pos : Nat)
    (rest : List Lexeme) (last : Nat) : Stops ⟨markAt pos op :: rest, last⟩ := by
  simp only [List.mem_cons, List.not_mem_nil, or_false] at hop
  rcases hop with rfl | rfl | rfl | rfl | rfl <;> exact ⟨rfl, rfl, rfl⟩

theorem lexemes_mark {o : String} (ho : size (Text.of o) = 1) (pos : Nat) (ts : List Token) :
    lexemes pos (mark o :: ts) = markAt pos o :: lexemes (pos + 2) ts := by
  simp [lexemes, mark, markAt, ho]

theorem width_mark {o : String} (ho : size (Text.of o) = 1) (ts : List Token) :
    width (mark o :: ts) = 2 + width ts := by
  simp [width, mark, ho]

/-- Brackets of one byte around tokens. -/
theorem lexemes_brackets {o c : String} (ho : size (Text.of o) = 1) (hc : size (Text.of c) = 1)
    (pos : Nat) (ts : List Token) (rest : List Lexeme) :
    lexemes pos (mark o :: (ts ++ [mark c])) ++ rest =
      markAt pos o :: (lexemes (pos + 2) ts ++ markAt (pos + 2 + width ts) c :: rest) := by
  rw [lexemes_mark ho, Token.lexemes_append, lexemes_mark hc]
  simp [lexemes]

theorem width_brackets {o c : String} (ho : size (Text.of o) = 1) (hc : size (Text.of c) = 1)
    (ts : List Token) : width (mark o :: (ts ++ [mark c])) = width ts + 4 := by
  rw [width_mark ho, Token.width_append, width_mark hc, width]
  omega

/-- A node that begins where brackets do and ends with them. -/
theorem cover_brackets {o c : String} (ho : size (Text.of o) = 1) (hc : size (Text.of c) = 1)
    {ts : List Token} (he : e.tokens = mark o :: (ts ++ [mark c])) (pos : Nat) (rest : List Lexeme) :
    (e.cover pos).stop = pos + 2 + width ts + 1 ∧
      e.cover pos = spanFrom ⟨rest, pos + 2 + width ts + 1⟩ pos := by
  have hcover : e.cover pos = ⟨pos, pos + 2 + width ts + 1⟩ := by
    rw [cover, he, width_brackets ho hc, Span.mk.injEq]
    omega
  have hle : pos ≤ pos + 2 + width ts + 1 := by omega
  rw [hcover, spanFrom, Nat.max_eq_left hle]
  exact ⟨rfl, rfl⟩

theorem Written.paren (h : Written inner) : Written (.paren inner) := by
  have hinner {pos : Nat} (hbound : ((Expr.paren inner).node pos).WellBound) :
      (inner.node (pos + 2)).WellBound := (wellBound_iff.1 hbound).2 _ (by simp [node])
  refine .of_chain (fun _ => rfl) (fun pos hbound => ?_) (fun pos _ => ⟨_, _, rfl, rfl, rfl⟩) ?_
  · have hbrackets : (mark "(").Reads ∧ (mark ")").Reads := by decide
    simp only [tokens, List.forall_mem_cons, List.forall_mem_append, List.not_mem_nil]
    exact ⟨hbrackets.1, h.reads _ (hinner hbound), hbrackets.2, by simp⟩
  · intro pos rest last n c hbound hrest
    obtain ⟨hstop, hcover⟩ := cover_brackets rfl rfl (e := .paren inner) rfl pos rest
    have hwhole := h.whole (pos + 2) (pos + 1) (hinner hbound)
      (stops_mark ")" (by decide) (pos + 2 + width inner.tokens) rest _)
    refine .chain ?_ hrest
    rw [hstop, tokens, lexemes_brackets rfl rfl, node, hcover]
    exact Derives.paren (c := ⟨markAt pos "(" :: _, last⟩) rfl hwhole rfl

theorem isOp_eq_false_of_first {t : Token} {ts : List Token} (ht : t.isClosing = false)
    {close : String} (hclose : close ∈ [")", "]", "\x7d", ";"]) :
    isOp ⟨lexemes pos (t :: ts) ++ rest, last⟩ close = false := by
  refine Bool.eq_false_iff.2 fun h => ?_
  have h : (t.kind == .op && t.text == Text.of close) = true := h
  rw [Bool.and_eq_true, beq_iff_eq, beq_iff_eq] at h
  obtain ⟨kind, text⟩ := t
  obtain ⟨rfl, rfl⟩ := h
  simp only [List.mem_cons, List.not_mem_nil, or_false] at hclose
  rcases hclose with rfl | rfl | rfl | rfl <;> cases ht

theorem reads_listTokens (h : ∀ e ∈ es, Written e) (hbound : ∀ n ∈ listNodes es pos, n.WellBound) :
    ∀ t ∈ listTokens es, t.Reads := by
  have hcomma : (mark ",").Reads := by decide
  induction es generalizing pos with
  | nil => simp [listTokens]
  | cons e es ih =>
    rw [listNodes, List.forall_mem_cons] at hbound
    have hfirst := (h e List.mem_cons_self).reads pos hbound.1
    have hrest := ih (fun f hf => h f (List.mem_cons_of_mem e hf)) hbound.2
    cases es with
    | nil => exact hfirst
    | cons f fs =>
      simp only [listTokens, List.forall_mem_append, List.forall_mem_cons]
      exact ⟨hfirst, hcomma, hrest⟩

/-- Expressions with commas between them are read up to the closing bracket. -/
theorem derives_sequence {close : String} (hclose : close = ")" ∨ close = "]")
    (h : ∀ e ∈ es, Written e) (pos last : Nat) (rest : List Lexeme)
    (hbound : ∀ n ∈ listNodes es pos, n.WellBound) :
    Derives (.sequence close)
      ⟨lexemes pos (listTokens es) ++ markAt (pos + width (listTokens es)) close :: rest, last⟩
      (listNodes es pos) ⟨rest, pos + width (listTokens es) + 1⟩ := by
  have hmem : close ∈ [")", "]", "\x7d", ";"] := by rcases hclose with rfl | rfl <;> decide
  have hstops (p q : Nat) : Stops ⟨markAt p close :: rest, q⟩ :=
    stops_mark _ (by rcases hclose with rfl | rfl <;> decide) p rest q
  have hlast (p q : Nat) : isOp ⟨markAt p close :: rest, q⟩ close = true := by
    simp [Cursor.isOp, Cursor.peek, Lexeme.isOp, markAt]
  induction es generalizing pos last with
  | nil => exact .sequenceEnd (c := ⟨markAt _ close :: rest, last⟩) (hlast _ _)
  | cons e es ih =>
    rw [listNodes, List.forall_mem_cons] at hbound
    have hwritten := h e List.mem_cons_self
    obtain ⟨t, ts, ht, hclosing, -⟩ := hwritten.first pos hbound.1
    have hopen {rest : List Lexeme} : isOp ⟨lexemes pos e.tokens ++ rest, last⟩ close = false := by
      rw [ht]
      exact isOp_eq_false_of_first hclosing hmem
    cases es with
    | nil =>
      have hcomma (p q : Nat) : isOp ⟨markAt p close :: rest, q⟩ "," = false := by
        rcases hclose with rfl | rfl <;> rfl
      exact @Derives.sequenceLast _ ⟨markAt _ close :: rest, _⟩ _ _ hopen
        (hwritten.whole pos last hbound.1 (hstops _ _)) (hcomma _ _) (hlast _ _)
    | cons f fs =>
      have hrest := ih (fun g hg => h g (List.mem_cons_of_mem e hg)) (pos + width e.tokens + 2)
        (pos + width e.tokens + 1) hbound.2
      have hplace : pos + width (listTokens (e :: f :: fs)) =
          pos + width e.tokens + 2 + width (listTokens (f :: fs)) := by
        rw [listTokens.eq_def (e :: f :: fs)]
        simp only [Token.width_append, width_mark (o := ",") rfl]
        omega
      have hlexemes {r : List Lexeme} : lexemes pos (listTokens (e :: f :: fs)) ++ r =
          lexemes pos e.tokens ++ markAt (pos + width e.tokens) "," ::
            (lexemes (pos + width e.tokens + 2) (listTokens (f :: fs)) ++ r) := by
        rw [listTokens.eq_def (e :: f :: fs)]
        simp only [Token.lexemes_append, lexemes_mark (o := ",") rfl, List.append_assoc,
          List.cons_append]
      rw [hplace, hlexemes, listNodes]
      exact @Derives.sequenceMore _ ⟨markAt _ "," :: _, _⟩ _ _ _ _ hopen
        (hwritten.whole pos last hbound.1 (stops_mark _ (by decide) _ _ _)) rfl hrest

theorem wellBound_pairNodes {key : Expr} (hbound : ∀ n ∈ pairNodes ((key, value) :: ps) pos, n.WellBound) :
    (key.node pos).WellBound ∧ (value.node (pos + width key.tokens + 2)).WellBound ∧
      ∀ n ∈ pairNodes ps (pos + width key.tokens + 2 + width value.tokens + 2), n.WellBound := by
  rw [pairNodes, List.forall_mem_cons] at hbound
  have hpair := (wellBound_iff.1 hbound.1).2
  exact ⟨hpair _ (by simp), hpair _ (by simp), hbound.2⟩

theorem reads_pairTokens (h : ∀ p ∈ ps, Written p.1 ∧ Written p.2)
    (hbound : ∀ n ∈ pairNodes ps pos, n.WellBound) : ∀ t ∈ pairTokens ps, t.Reads := by
  have hmarks : (mark ",").Reads ∧ (mark ":").Reads := by decide
  induction ps generalizing pos with
  | nil => simp [pairTokens]
  | cons p ps ih =>
    obtain ⟨key, value⟩ := p
    obtain ⟨hkey, hvalue, hbound⟩ := wellBound_pairNodes hbound
    obtain ⟨hk, hv⟩ := h _ List.mem_cons_self
    have hrest := ih (fun q hq => h q (List.mem_cons_of_mem _ hq)) hbound
    cases ps with
    | nil =>
      simp only [pairTokens, List.forall_mem_append, List.forall_mem_cons]
      exact ⟨hk.reads _ hkey, hmarks.2, hv.reads _ hvalue⟩
    | cons q qs =>
      rw [pairTokens.eq_def ((key, value) :: q :: qs)]
      simp only [List.forall_mem_append, List.forall_mem_cons]
      exact ⟨hk.reads _ hkey, hmarks.2, hv.reads _ hvalue, hmarks.1, hrest⟩

/-- Pairs with commas between them are read up to the closing brace. -/
theorem derives_pairs (h : ∀ p ∈ ps, Written p.1 ∧ Written p.2) (pos last : Nat)
    (rest : List Lexeme) (hbound : ∀ n ∈ pairNodes ps pos, n.WellBound) :
    Derives .pairs
      ⟨lexemes pos (pairTokens ps) ++ markAt (pos + width (pairTokens ps)) "\x7d" :: rest, last⟩
      (pairNodes ps pos) ⟨rest, pos + width (pairTokens ps) + 1⟩ := by
  have hstops (p q : Nat) : Stops ⟨markAt p "\x7d" :: rest, q⟩ := stops_mark _ (by decide) p rest q
  induction ps generalizing pos last with
  | nil => exact .pairsEnd (c := ⟨markAt _ "\x7d" :: rest, last⟩) rfl
  | cons p ps ih =>
    obtain ⟨key, value⟩ := p
    obtain ⟨hkey, hvalue, hbound⟩ := wellBound_pairNodes hbound
    obtain ⟨hk, hv⟩ := h _ List.mem_cons_self
    obtain ⟨t, ts, ht, hclosing, -⟩ := hk.first pos hkey
    have hopen {rest : List Lexeme} :
        isOp ⟨lexemes pos key.tokens ++ rest, last⟩ "\x7d" = false := by
      rw [ht]
      exact isOp_eq_false_of_first hclosing (by decide)
    have hspan : ((key.node pos).span.hull (value.node (pos + width key.tokens + 2)).span) =
        ⟨pos, pos + width key.tokens + 2 + width value.tokens - 1⟩ := hull_node (by omega)
    have hfirst {r : List Lexeme} := hk.whole pos last hkey
      (stops_mark ":" (by decide) (pos + width key.tokens) r _)
    rw [pairNodes, ← hspan]
    cases ps with
    | nil =>
      have hplace : pos + width (pairTokens [(key, value)]) =
          pos + width key.tokens + 2 + width value.tokens := by
        rw [pairTokens, Token.width_append, width_mark rfl]
        omega
      have hlexemes {r : List Lexeme} : lexemes pos (pairTokens [(key, value)]) ++ r =
          lexemes pos key.tokens ++ markAt (pos + width key.tokens) ":" ::
            (lexemes (pos + width key.tokens + 2) value.tokens ++ r) := by
        rw [pairTokens, Token.lexemes_append, lexemes_mark rfl, List.append_assoc, List.cons_append]
      rw [hplace, hlexemes]
      exact @Derives.pairsLast _ ⟨markAt _ ":" :: _, _⟩ ⟨markAt _ "\x7d" :: rest, _⟩ _ _ hopen
        hfirst rfl (hv.whole _ _ hvalue (hstops _ _)) rfl rfl
    | cons q qs =>
      have hrest := ih (fun r hr => h r (List.mem_cons_of_mem _ hr))
        (pos + width key.tokens + 2 + width value.tokens + 2)
        (pos + width key.tokens + 2 + width value.tokens + 1) hbound
      have hplace : pos + width (pairTokens ((key, value) :: q :: qs)) =
          pos + width key.tokens + 2 + width value.tokens + 2 + width (pairTokens (q :: qs)) := by
        rw [pairTokens.eq_def ((key, value) :: q :: qs)]
        simp only [Token.width_append, width_mark (o := ":") rfl, width_mark (o := ",") rfl]
        omega
      have hlexemes {r : List Lexeme} : lexemes pos (pairTokens ((key, value) :: q :: qs)) ++ r =
          lexemes pos key.tokens ++ markAt (pos + width key.tokens) ":" ::
            (lexemes (pos + width key.tokens + 2) value.tokens ++
              markAt (pos + width key.tokens + 2 + width value.tokens) "," ::
                (lexemes (pos + width key.tokens + 2 + width value.tokens + 2)
                  (pairTokens (q :: qs)) ++ r)) := by
        rw [pairTokens.eq_def ((key, value) :: q :: qs)]
        simp only [Token.lexemes_append, lexemes_mark (o := ":") rfl, lexemes_mark (o := ",") rfl,
          List.append_assoc, List.cons_append]
      rw [hplace, hlexemes]
      exact @Derives.pairsMore _ ⟨markAt _ ":" :: _, _⟩ ⟨markAt _ "," :: _, _⟩ _ _ _ _ hopen
        hfirst rfl (hv.whole _ _ hvalue (stops_mark _ (by decide) _ _ _)) rfl hrest

theorem Written.array (h : ∀ e ∈ es, Written e) : Written (.array es) := by
  have hitems {pos : Nat} (hbound : ((Expr.array es).node pos).WellBound) :
      ∀ n ∈ listNodes es (pos + 2), n.WellBound := (wellBound_iff.1 hbound).2
  refine .of_chain (fun _ => rfl) (fun pos hbound => ?_) (fun pos _ => ⟨_, _, rfl, rfl, rfl⟩) ?_
  · have hbrackets : (mark "[").Reads ∧ (mark "]").Reads := by decide
    simp only [tokens, List.forall_mem_cons, List.forall_mem_append, List.not_mem_nil]
    exact ⟨hbrackets.1, reads_listTokens h (hitems hbound), hbrackets.2, by simp⟩
  · intro pos rest last n c hbound hrest
    obtain ⟨hstop, hcover⟩ := cover_brackets rfl rfl (e := .array es) rfl pos rest
    have hsequence := derives_sequence (.inr rfl) h (pos + 2) (pos + 1) rest (hitems hbound)
    refine .chain ?_ hrest
    rw [hstop, tokens, lexemes_brackets rfl rfl, node, hcover]
    exact Derives.array (c := ⟨markAt pos "[" :: _, last⟩) rfl hsequence

theorem Written.dictionary (h : ∀ p ∈ ps, Written p.1 ∧ Written p.2) :
    Written (.dictionary ps) := by
  have hpairs {pos : Nat} (hbound : ((Expr.dictionary ps).node pos).WellBound) :
      ∀ n ∈ pairNodes ps (pos + 2), n.WellBound := (wellBound_iff.1 hbound).2
  refine .of_chain (fun _ => rfl) (fun pos hbound => ?_) (fun pos _ => ⟨_, _, rfl, rfl, rfl⟩) ?_
  · have hbrackets : (mark "\x7b").Reads ∧ (mark "\x7d").Reads := by decide
    simp only [tokens, List.forall_mem_cons, List.forall_mem_append, List.not_mem_nil]
    exact ⟨hbrackets.1, reads_pairTokens h (hpairs hbound), hbrackets.2, by simp⟩
  · intro pos rest last n c hbound hrest
    obtain ⟨hstop, hcover⟩ := cover_brackets rfl rfl (e := .dictionary ps) rfl pos rest
    have hderives := derives_pairs h (pos + 2) (pos + 1) rest (hpairs hbound)
    refine .chain ?_ hrest
    rw [hstop, tokens, lexemes_brackets rfl rfl, node, hcover]
    exact Derives.dictionary (c := ⟨markAt pos "\x7b" :: _, last⟩) rfl hderives

/-- What is added to an operand follows its first token. -/
theorem Written.first_of_append (h : Written e) {ts : List Token} (he : other.tokens = e.tokens ++ ts)
    (hbound : (e.node pos).WellBound) (hk : (e.node pos).kind.isPostfix = true) :
    ∃ t us, other.tokens = t :: us ∧ t.isClosing = false ∧ t.isPlain = true := by
  obtain ⟨t, us, ht, hclosing, hplain⟩ := h.first pos hbound
  exact ⟨t, us ++ ts, by rw [he, ht, List.cons_append], hclosing, hplain hk⟩

theorem Written.call (h : Written callee) (hes : ∀ e ∈ es, Written e) :
    Written (.call callee es) := by
  have hparts {pos : Nat} (hbound : ((Expr.call callee es).node pos).WellBound) :
      (callee.node pos).WellBound ∧ (callee.node pos).kind.isPostfix = true ∧
        ∀ n ∈ listNodes es (pos + width callee.tokens + 2), n.WellBound := by
    obtain ⟨hnode, hchildren⟩ := wellBound_iff.1 hbound
    obtain ⟨_, ⟨⟩, hk⟩ := hnode.call rfl
    exact ⟨hchildren _ List.mem_cons_self, hk, fun n hn => hchildren n (List.mem_cons_of_mem _ hn)⟩
  refine .of_chain (fun _ => rfl) (fun pos hbound => ?_) (fun pos hbound => ?_) ?_
  · obtain ⟨hcallee, -, hitems⟩ := hparts hbound
    have hbrackets : (mark "(").Reads ∧ (mark ")").Reads := by decide
    simp only [tokens, List.forall_mem_cons, List.forall_mem_append, List.not_mem_nil]
    exact ⟨h.reads _ hcallee, hbrackets.1, reads_listTokens hes hitems, hbrackets.2, by simp⟩
  · obtain ⟨hcallee, hk, -⟩ := hparts hbound
    exact h.first_of_append rfl hcallee hk
  · intro pos rest last n c hbound hrest
    obtain ⟨hcallee, hk, hitems⟩ := hparts hbound
    have hsequence := derives_sequence (.inl rfl) hes (pos + width callee.tokens + 2)
      (pos + width callee.tokens + 1) rest hitems
    have hcover : (Expr.call callee es).cover pos =
        ⟨pos, pos + width callee.tokens + 2 + width (listTokens es) + 1⟩ := by
      rw [cover, tokens, Token.width_append, width_brackets rfl rfl, Span.mk.injEq]
      omega
    rw [tokens, Token.lexemes_append, List.append_assoc, lexemes_brackets rfl rfl]
    rw [node, hcover] at hrest
    refine h.chain pos hcallee hk ?_
    refine Derives.call (c := ⟨markAt _ "(" :: _, _⟩) rfl hsequence ?_
    rw [span_node]
    exact hrest

theorem Written.member (h : Written object) (part : Text) (reads : Token.Reads ⟨.word, part⟩) :
    Written (.member object part reads) := by
  have hparts {pos : Nat} (hbound : ((Expr.member object part reads).node pos).WellBound) :
      (object.node pos).WellBound ∧ (object.node pos).kind.isPostfix = true := by
    obtain ⟨hnode, hchildren⟩ := wellBound_iff.1 hbound
    exact ⟨hchildren _ List.mem_cons_self, hnode.member part rfl _ List.mem_cons_self⟩
  refine .of_chain (fun _ => rfl) (fun pos hbound => ?_) (fun pos hbound => ?_) ?_
  · have hdot : (mark ".").Reads := by decide
    simp only [tokens, List.forall_mem_cons, List.forall_mem_append, List.not_mem_nil]
    exact ⟨h.reads _ (hparts hbound).1, hdot, reads, by simp⟩
  · exact h.first_of_append rfl (hparts hbound).1 (hparts hbound).2
  · intro pos rest last n c hbound hrest
    have hcover : (Expr.member object part reads).cover pos =
        ⟨pos, pos + width object.tokens + 2 + size part⟩ := by
      rw [cover, tokens, Token.width_append, width_mark rfl, Span.mk.injEq]
      have hpart : width [⟨.word, part⟩] = size part + 1 := rfl
      omega
    rw [tokens, Token.lexemes_append, List.append_assoc, lexemes_mark rfl]
    rw [node, hcover] at hrest
    refine h.chain pos (hparts hbound).1 (hparts hbound).2 ?_
    refine Derives.member (c := ⟨markAt _ "." :: _, _⟩) rfl rfl rfl ?_
    rw [span_node]
    exact hrest

theorem Written.index (h : Written object) (hplace : Written place) :
    Written (.index object place) := by
  have hparts {pos : Nat} (hbound : ((Expr.index object place).node pos).WellBound) :
      (object.node pos).WellBound ∧ (object.node pos).kind.isPostfix = true ∧
        (place.node (pos + width object.tokens + 2)).WellBound := by
    obtain ⟨hnode, hchildren⟩ := wellBound_iff.1 hbound
    obtain ⟨_, ⟨⟩, hk⟩ := hnode.index rfl
    exact ⟨hchildren _ List.mem_cons_self, hk, hchildren _ (by simp [node])⟩
  refine .of_chain (fun _ => rfl) (fun pos hbound => ?_) (fun pos hbound => ?_) ?_
  · obtain ⟨hobject, -, hindex⟩ := hparts hbound
    have hbrackets : (mark "[").Reads ∧ (mark "]").Reads := by decide
    simp only [tokens, List.forall_mem_cons, List.forall_mem_append, List.not_mem_nil]
    exact ⟨h.reads _ hobject, hbrackets.1, hplace.reads _ hindex, hbrackets.2, by simp⟩
  · obtain ⟨hobject, hk, -⟩ := hparts hbound
    exact h.first_of_append rfl hobject hk
  · intro pos rest last n c hbound hrest
    obtain ⟨hobject, hk, hindex⟩ := hparts hbound
    have hwhole := hplace.whole (pos + width object.tokens + 2)
      (pos + width object.tokens + 1) hindex (stops_mark "]" (by decide)
        (pos + width object.tokens + 2 + width place.tokens) rest _)
    have hcover : (Expr.index object place).cover pos =
        ⟨pos, pos + width object.tokens + 2 + width place.tokens + 1⟩ := by
      rw [cover, tokens, Token.width_append, width_brackets rfl rfl, Span.mk.injEq]
      omega
    rw [tokens, Token.lexemes_append, List.append_assoc, lexemes_brackets rfl rfl]
    rw [node, hcover] at hrest
    refine h.chain pos hobject hk ?_
    refine Derives.subscript (c := ⟨markAt _ "[" :: _, _⟩) rfl rfl rfl hwhole rfl ?_
    rw [span_node]
    exact hrest

theorem Written.tokens_ne_nil (h : Written e) (pos : Nat) (hbound : (e.node pos).WellBound) :
    e.tokens ≠ [] := by
  obtain ⟨t, ts, ht, -⟩ := h.first pos hbound
  rw [ht]
  exact List.cons_ne_nil t ts

theorem advance_solid {l : Lexeme} (h : l.kind.isSolid = true) :
    (⟨l :: rest, last⟩ : Cursor).advance = ⟨rest, l.span.stop⟩ := by
  have hne : l.kind ≠ .eof := by
    intro heof
    rw [heof] at h
    cases h
  simp only [Cursor.advance, if_neg hne, endAfter, h, if_true]

/-- An operand with operators: only where it stands in a row of these there is something to show. -/
theorem Written.of_binary (hk : ∀ pos, (e.node pos).kind.isPostfix = false)
    (ht : ∀ pos, (e.node pos).kind ≠ .ternary)
    (reads : ∀ pos, (e.node pos).WellBound → ∀ t ∈ e.tokens, t.Reads)
    (first : ∀ pos, (e.node pos).WellBound → ∃ t ts, e.tokens = t :: ts ∧ t.isClosing = false)
    (binary : ∀ pos last {rest : List Lexeme} {level : Nat} {n : Node} {c : Cursor},
      Leaves level (e.node pos) ⟨rest, (e.cover pos).stop⟩ →
        endsChain ⟨rest, (e.cover pos).stop⟩ = true →
        Derives (.binaryTail level (e.node pos)) ⟨rest, (e.cover pos).stop⟩ [n] c →
        Derives (.binary level) ⟨lexemes pos e.tokens ++ rest, last⟩ [n] c) : Written e := by
  have hnot (pos : Nat) (h : (e.node pos).kind.isPostfix = true) : False := by
    rw [hk pos] at h
    cases h
  refine ⟨reads, fun pos h => ?_, fun pos _ _ _ _ _ h => (hnot pos h).elim, binary,
    fun pos _ _ h => whole_of_binary (ht pos) (binary pos _) h⟩
  obtain ⟨t, ts, htokens, hclosing⟩ := first pos h
  exact ⟨t, ts, htokens, hclosing, fun h => (hnot pos h).elim⟩

theorem Written.unary (h : Written operand) (op : Text) : Written (.unary op operand) := by
  have hparts {pos : Nat} (hbound : ((Expr.unary op operand).node pos).WellBound) :
      ∃ p, unaryPrecedence? op = some p ∧ (operand.node (pos + size op + 1)).WellBound := by
    obtain ⟨hnode, hchildren⟩ := wellBound_iff.1 hbound
    obtain ⟨_, p, -, hp, -⟩ := hnode.unary op rfl
    exact ⟨p, hp, hchildren _ List.mem_cons_self⟩
  refine .of_binary (fun _ => rfl) (fun _ => by simp [node]) (fun pos hbound => ?_)
    (fun pos hbound => ?_) ?_
  · obtain ⟨p, hp, hoperand⟩ := hparts hbound
    simp only [tokens, List.forall_mem_cons]
    exact ⟨(unaryToken_spec hp).1, h.reads _ hoperand⟩
  · obtain ⟨p, hp, -⟩ := hparts hbound
    have hclosing : ∀ op ∈ ["not", "!", "-", "+", "~"].map Text.of,
        (unaryToken op).isClosing = false := by decide
    exact ⟨_, _, rfl, hclosing op (mem_of_unaryPrecedence? hp)⟩
  · intro pos last rest level n c hleaves hend hrest
    obtain ⟨p, hp, hoperand, hnext⟩ := hleaves.of_unary
    obtain ⟨-, hsolid, hlevel⟩ := unaryToken_spec hp
    have hcover : (Expr.unary op operand).cover pos =
        ⟨pos, (operand.cover (pos + size op + 1)).stop⟩ := by
      simp only [cover, tokens, width, text_unaryToken, Span.mk.injEq, true_and]
      omega
    rw [hcover] at hoperand hend hrest hnext
    have hinner := h.binary (pos + size op + 1) (pos + size op) hoperand hend
      (.binaryEnd (endsBinary_iff.2 hnext))
    refine @Derives.binary _ ⟨rest, (operand.cover (pos + size op + 1)).stop⟩ _ _ _ _ ?_ hrest
    have hlexemes : lexemes pos (Expr.unary op operand).tokens ++ rest =
        ⟨(unaryToken op).kind, ⟨pos, pos + size op⟩, op⟩ ::
          (lexemes (pos + size op + 1) operand.tokens ++ rest) := by
      simp only [tokens, lexemes, text_unaryToken, List.cons_append]
    have hnode : (Expr.unary op operand).node pos = ⟨.unary op,
        Span.hull ⟨pos, pos + size op⟩ (operand.node (pos + size op + 1)).span,
        [operand.node (pos + size op + 1)]⟩ := by
      rw [node, hcover, span_node]
      simp only [Span.hull, cover, Node.mk.injEq, Span.mk.injEq, true_and, and_true]
      have := Token.width_pos (h.tokens_ne_nil _ hoperand.wellBound)
      omega
    rw [hlexemes, hnode]
    refine .unary (c := ⟨⟨(unaryToken op).kind, ⟨pos, pos + size op⟩, op⟩ :: _, last⟩) hlevel ?_
    rwa [advance_solid hsolid]

theorem Written.binaryNode (hleft : Written left) (hright : Written right) (op : Text) :
    Written (.binary op left right) := by
  have hparts {pos : Nat} (hbound : ((Expr.binary op left right).node pos).WellBound) :
      ∃ p, precedence? op = some p ∧ (left.node pos).WellBound ∧
        (right.node (pos + width left.tokens + (size op + 1))).WellBound := by
    obtain ⟨hnode, hchildren⟩ := wellBound_iff.1 hbound
    obtain ⟨_, _, p, -, hp, -⟩ := hnode.binary op rfl
    exact ⟨p, hp, hchildren _ List.mem_cons_self, hchildren _ (by simp [node])⟩
  refine .of_binary (fun _ => rfl) (fun _ => by simp [node]) (fun pos hbound => ?_)
    (fun pos hbound => ?_) ?_
  · obtain ⟨p, hp, hl, hr⟩ := hparts hbound
    simp only [tokens, List.forall_mem_append]
    exact ⟨hleft.reads _ hl, reads_binaryTokens hp, hright.reads _ hr⟩
  · obtain ⟨-, -, hl, -⟩ := hparts hbound
    obtain ⟨t, ts, ht, hclosing, -⟩ := hleft.first pos hl
    exact ⟨t, ts ++ (binaryTokens op ++ right.tokens), by rw [tokens, ht, List.cons_append], hclosing⟩
  · intro pos last rest level n c hleaves hend hrest
    obtain ⟨p, hp, hlevel, hr, hnext, htype, hl⟩ := hleaves.of_binary
    have hwidth := width_binaryTokens hp
    let q := pos + width left.tokens + (size op + 1)
    have hcover : (Expr.binary op left right).cover pos = ⟨pos, (right.cover q).stop⟩ := by
      simp only [cover, tokens, Token.width_append, hwidth, Span.mk.injEq, true_and, q]
      omega
    have hnode : (Expr.binary op left right).node pos = ⟨.binary op,
        (left.node pos).span.hull (right.node q).span, [left.node pos, right.node q]⟩ := by
      rw [node, hcover, hull_node (by omega)]
      rfl
    rw [hcover] at hr hend hrest hnext
    rw [hnode] at hrest
    rw [tokens, Token.lexemes_append, Token.lexemes_append, hwidth, List.append_assoc,
      List.append_assoc]
    have hop := binaryOp?_binaryTokens hp (pos + width left.tokens)
      (lexemes q right.tokens ++ rest) (left.cover pos).stop
    have hleaves := hl ⟨lexemes (pos + width left.tokens) (binaryTokens op) ++
      (lexemes q right.tokens ++ rest), (left.cover pos).stop⟩ (by rw [nextLevel?, hop, Option.map_some])
    refine hleft.binary pos last hleaves (endsChain_binaryTokens hp _ _ _) ?_
    cases htakes : takesType op with
    | true =>
      exact .typeOperator hop hlevel htakes
        (hright.chain q hr.wellBound (htype htakes) (.chainEnd hend)) hrest
    | false =>
      refine .operator hop hlevel htakes (hright.binary q _ hr hend (.binaryEnd ?_)) hrest
      exact endsBinary_iff.2 fun o ho => Nat.lt_succ_of_le (hnext o ho)

/-- The parts of a ternary end where a word comes that is no operator. -/
theorem Written.before_word (h : Written e) {w : String} (hw : w = "if" ∨ w = "else") (last : Nat)
    (hbound : (e.node pos).WellBound) (hk : (e.node pos).kind ≠ .ternary) (span : Span)
    (more : List Lexeme) :
    Derives (.binary 1) ⟨lexemes pos e.tokens ++ ⟨.word, span, Text.of w⟩ :: more, last⟩ [e.node pos]
      ⟨⟨.word, span, Text.of w⟩ :: more, (e.cover pos).stop⟩ := by
  rcases hw with rfl | rfl <;>
    exact h.binary pos last (leaves_one hbound hk rfl) rfl (.binaryEnd rfl)

theorem Written.ternary (hvalue : Written value) (hcondition : Written condition)
    (hother : Written other) : Written (.ternary value condition other) := by
  have hparts {pos : Nat} (hbound : ((Expr.ternary value condition other).node pos).WellBound) :
      (value.node pos).WellBound ∧ (value.node pos).kind ≠ .ternary ∧
        (condition.node (pos + width value.tokens + 3)).WellBound ∧
        (condition.node (pos + width value.tokens + 3)).kind ≠ .ternary ∧
        (other.node (pos + width value.tokens + 3 + width condition.tokens + 5)).WellBound := by
    obtain ⟨hnode, hchildren⟩ := wellBound_iff.1 hbound
    refine ⟨hchildren _ List.mem_cons_self, ?_, hchildren _ (by simp [node]), ?_,
      hchildren _ (by simp [node])⟩
    · exact fun hk => absurd (hnode.ternary 0 _ rfl hk) (by simp [node, Kind.holdsTernary])
    · exact fun hk => absurd (hnode.ternary 1 _ rfl hk) (by simp [node, Kind.holdsTernary])
  have hwords : (word "if").Reads ∧ (word "else").Reads := by decide
  refine ⟨fun pos hbound => ?_, fun pos hbound => ?_, fun _ _ _ _ _ _ hk => (by cases hk),
    fun _ _ _ _ _ _ hleaves => absurd rfl hleaves.kind, fun pos last rest hbound hstops => ?_⟩
  · obtain ⟨hv, -, hc, -, ho⟩ := hparts hbound
    simp only [tokens, List.forall_mem_append, List.forall_mem_cons]
    exact ⟨hvalue.reads _ hv, hwords.1, hcondition.reads _ hc, hwords.2, hother.reads _ ho⟩
  · obtain ⟨t, ts, ht, hclosing, -⟩ := hvalue.first pos (hparts hbound).1
    exact ⟨t, _, by rw [tokens, ht, List.cons_append], hclosing, fun hk => by cases hk⟩
  · obtain ⟨hv, hkv, hc, hkc, ho⟩ := hparts hbound
    have hsize : size (word "if").text = 2 ∧ size (word "else").text = 4 := ⟨rfl, rfl⟩
    let q := pos + width value.tokens + 3
    let r := q + width condition.tokens + 5
    have hcover : (Expr.ternary value condition other).cover pos = ⟨pos, (other.cover r).stop⟩ := by
      simp only [cover, tokens, Token.width_append, width, hsize, Span.mk.injEq, true_and, r, q]
      omega
    have hnode : (Expr.ternary value condition other).node pos = ⟨.ternary,
        (value.node pos).span.hull (other.node r).span,
        [value.node pos, condition.node q, other.node r]⟩ := by
      rw [node, hcover, hull_node (by omega)]
      rfl
    rw [hcover] at hstops
    have hthird := hother.whole r (q + width condition.tokens + 4) ho hstops
    have hsecond := hcondition.before_word (.inr rfl) (pos + width value.tokens + 2) hc hkc
      ⟨q + width condition.tokens, q + width condition.tokens + 4⟩ (lexemes r other.tokens ++ rest)
    have hfirst := hvalue.before_word (.inl rfl) last hv hkv
      ⟨pos + width value.tokens, pos + width value.tokens + 2⟩
    have hlexemes : lexemes pos (Expr.ternary value condition other).tokens ++ rest =
        lexemes pos value.tokens ++
          ⟨.word, ⟨pos + width value.tokens, pos + width value.tokens + 2⟩, Text.of "if"⟩ ::
            (lexemes q condition.tokens ++
              ⟨.word, ⟨q + width condition.tokens, q + width condition.tokens + 4⟩, Text.of "else"⟩ ::
                (lexemes r other.tokens ++ rest)) := by
      simp only [tokens, Token.lexemes_append, lexemes, List.append_assoc, List.cons_append]
      rfl
    rw [hnode, hlexemes, hcover]
    exact .ternary (hfirst _) rfl hsecond rfl hthird

mutual

/-- Every expression is read where it is written. -/
theorem written : ∀ e : Expr, Written e
  | .name text reads free => written_name text reads free
  | .number text reads => written_number text reads
  | .string q text reads => written_string q text reads
  | .paren inner => (written inner).paren
  | .array items => .array (writtenAll items)
  | .dictionary pairs => .dictionary (writtenPairs pairs)
  | .call callee arguments => (written callee).call (writtenAll arguments)
  | .member object part reads => (written object).member part reads
  | .index object place => (written object).index (written place)
  | .unary op operand => (written operand).unary op
  | .binary op left right => (written left).binaryNode (written right) op
  | .ternary value condition other =>
    (written value).ternary (written condition) (written other)

theorem writtenAll : ∀ es : List Expr, ∀ e ∈ es, Written e
  | [] => by simp
  | e :: es => List.forall_mem_cons.2 ⟨written e, writtenAll es⟩

theorem writtenPairs : ∀ ps : List (Expr × Expr), ∀ p ∈ ps, Written p.1 ∧ Written p.2
  | [] => by simp
  | (key, value) :: ps => List.forall_mem_cons.2 ⟨⟨written key, written value⟩, writtenPairs ps⟩

end

end Grammar.Expr

namespace Cursor

open Grammar

/-- What is derived as an expression is read as one. -/
theorem expression_of_derives {c c₁ : Cursor} {n : Node} (h : Derives .expression c [n] c₁) :
    c.expression = .ok (n, c₁) := by
  obtain ⟨c₁', hcut, hruns⟩ := h.carried.cut c (Nat.zero_le _) (Cutting.splits_whole _) (.inl rfl)
  rw [Cutting.cut_whole_iff.1 hcut] at hruns
  refine map_single_ok.1 (hruns _ ?_)
  simp only [Rule.bound, Rule.depth]
  omega

end Cursor

namespace Tree

open Grammar Cursor

theorem wellBound_of_ofExpression {source : Text} {t : Tree} (h : ofExpression source = .ok t) :
    ∃ n, t.root.children = [n] ∧ n.WellBound := by
  simp only [ofExpression, bind_ok_iff] at h
  obtain ⟨ls, -, ⟨n, c⟩, hn, h⟩ := h
  split at h
  · cases h
    exact ⟨n, rfl, wellBound_of_expression hn⟩
  · cases h

/-- The text of an expression is read back as its node. -/
theorem ofExpression_text (e : Expr) (h : (e.node 0).WellBound) : ofExpression e.text =
    .ok ⟨e.text, ⟨0, size e.text⟩, ⟨.script, ⟨0, size e.text⟩, [e.node 0]⟩⟩ := by
  have hwritten := e.written
  have hne := hwritten.tokens_ne_nil 0 h
  have hlexemes := Token.lexemes_join hne (hwritten.reads 0 h)
  have hstops : Stops ⟨Token.ends (size e.text), (e.cover 0).stop⟩ := ⟨rfl, rfl, rfl⟩
  have hwhole := expression_of_derives (hwritten.whole 0 0 h hstops)
  obtain ⟨t, ts, ht, hclosing, -⟩ := hwritten.first 0 h
  have hstart : skipNewlines ⟨Token.lexemes 0 e.tokens ++ Token.ends (size e.text), 0⟩ =
      ⟨Token.lexemes 0 e.tokens ++ Token.ends (size e.text), 0⟩ := by
    rw [ht]
    refine skipNewlines_eq_self ?_ (Expr.isOp_eq_false_of_first hclosing (by decide))
    intro hk
    have hk : t.kind = .newline := hk
    have hsolid := (Lexeme.solid_of_read (hwritten.reads 0 h t (by simp [ht]))).1
    rw [hk] at hsolid
    cases hsolid
  simp only [ofExpression, bind_ok_iff]
  refine ⟨_, hlexemes, (e.node 0, _), (congrArg Cursor.expression hstart).trans hwhole, ?_⟩
  rfl

/-- Expressions are read exactly as their operators bind: every tree that is read is well bound, and
every well-bound tree is read from its tokens with one blank between them. -/
theorem ofExpression_wellBound :
    (∀ source t, ofExpression source = .ok t → ∃ n, t.root.children = [n] ∧ n.WellBound) ∧
      ∀ e : Expr, (e.node 0).WellBound → ofExpression e.text =
        .ok ⟨e.text, ⟨0, size e.text⟩, ⟨.script, ⟨0, size e.text⟩, [e.node 0]⟩⟩ :=
  ⟨fun _ _ => wellBound_of_ofExpression, ofExpression_text⟩

/-- The operator before its operand takes the tighter of the two that follow. -/
theorem ofExpression_wellBound_not :
    let a : Expr := .name (Text.of "a") (by decide) (by decide)
    let e : Expr := .binary (Text.of "and") (.unary (Text.of "not") (.binary (Text.of "not in") a a))
      (.string ⟨[], ['"']⟩ (Text.of "\"s\"") (by decide))
    let source := Text.of "not a not in a and \"s\""
    (e.node 0).WellBound ∧ ofExpression source =
      .ok ⟨source, ⟨0, 22⟩, ⟨.script, ⟨0, 22⟩, [⟨.binary (Text.of "and"), ⟨0, 22⟩,
        [⟨.unary (Text.of "not"), ⟨0, 14⟩, [⟨.binary (Text.of "not in"), ⟨4, 14⟩,
          [⟨.identifier, ⟨4, 5⟩, []⟩, ⟨.identifier, ⟨13, 14⟩, []⟩]⟩]⟩,
        ⟨.string ⟨[], ['"']⟩, ⟨19, 22⟩, []⟩]⟩]⟩⟩ := by
  intro a e source
  have hname (span : Span) : Node.WellBound ⟨.identifier, span, []⟩ :=
    Node.wellBound_leaf rfl (by simp) (by simp) span
  have hin : Node.WellBound ⟨.binary (Text.of "not in"), ⟨4, 14⟩,
      [⟨.identifier, ⟨4, 5⟩, []⟩, ⟨.identifier, ⟨13, 14⟩, []⟩]⟩ := by
    refine Node.wellBound_binary (p := 4) rfl (hname _) (by simp) (hname _) (by simp) (by decide)
      (by decide) (fun u hu => ?_) (by decide) _
    cases hu
    decide
  have hnode : e.node 0 = ⟨.binary (Text.of "and"), ⟨0, 22⟩,
      [⟨.unary (Text.of "not"), ⟨0, 14⟩, [⟨.binary (Text.of "not in"), ⟨4, 14⟩,
        [⟨.identifier, ⟨4, 5⟩, []⟩, ⟨.identifier, ⟨13, 14⟩, []⟩]⟩]⟩,
      ⟨.string ⟨[], ['"']⟩, ⟨19, 22⟩, []⟩]⟩ := rfl
  have hbound : (e.node 0).WellBound := by
    rw [hnode]
    refine Node.wellBound_binary (p := 2) rfl
      (Node.wellBound_unary (p := 3) rfl hin (by simp) (by decide) _) (by simp)
      (Node.wellBound_leaf rfl (by simp) (by simp) _) (by simp) (by decide) (by decide)
      (fun u hu => ?_) (by decide) _
    cases hu with
    | refl => decide
    | unary hu =>
      cases hu with
      | refl => decide
      | binary hu =>
        cases hu
        decide
  have hread := ofExpression_wellBound.2 e hbound
  have htext : e.text = source := by decide
  have hsize : size source = 22 := by decide
  rw [hnode, htext, hsize] at hread
  exact ⟨hbound, hread⟩

end Tree

end Phrasebook
