import Phrasebook.Proofs.Arena
import Phrasebook.Proofs.Grammar.Parts

/-!
How tightly operators bind.

In a tree that is `Node.WellBound` each operator has the operands that its level leaves it. Every
expression that is read is well bound (`Cursor.wellBound_of_expression`): no operator that comes next
is one that an operand already read should have taken.
-/
namespace Phrasebook

namespace Grammar

/-- The words that are binary operators. -/
def binaryWords : List Text := ["or", "and", "in", "is", "as"].map Text.of

/-- The other binary operators of one lexeme. -/
def binaryMarks : List Text :=
  ["||", "&&", "==", "!=", "<", ">", "<=", ">=", "|", "^", "&", "<<", ">>", "+", "-", "*", "/", "%",
   "**"].map Text.of

/-- How tightly a binary operator binds, given its text in a node. -/
def precedence? (op : Text) : Option Nat :=
  if op = Text.of "not in" then some 4
  else (binaryLevel? ⟨.word, ⟨0, 0⟩, op⟩).or (binaryLevel? ⟨.op, ⟨0, 0⟩, op⟩)

/-- The same for an operator before its operand. -/
def unaryPrecedence? (op : Text) : Option Nat :=
  (unaryLevel? ⟨.word, ⟨0, 0⟩, op⟩).or (unaryLevel? ⟨.op, ⟨0, 0⟩, op⟩)

variable {l : Lexeme} {level : Nat}

theorem mem_of_binaryLevel? (h : binaryLevel? l = some level) :
    l.kind = .word ∧ l.text ∈ binaryWords ∨ l.kind = .op ∧ l.text ∈ binaryMarks := by
  have htext {t : String} (ht : String.ofList l.text = t) : l.text = Text.of t := by
    rw [← ht, Text.of, String.toList_ofList]
  unfold binaryLevel? at h
  split at h
  · next hk =>
    refine .inl ⟨hk, ?_⟩
    split at h <;> first | cases h; done | (rw [htext ‹_›]; decide)
  · next hk =>
    refine .inr ⟨hk, ?_⟩
    split at h <;> first | cases h; done | (rw [htext ‹_›]; decide)
  · cases h

theorem precedence?_word : ∀ w ∈ binaryWords, precedence? w = binaryLevel? ⟨.word, ⟨0, 0⟩, w⟩ := by
  decide

theorem precedence?_mark : ∀ m ∈ binaryMarks, precedence? m = binaryLevel? ⟨.op, ⟨0, 0⟩, m⟩ := by
  decide

/-- A node keeps enough of its operator to tell how tightly that binds. -/
theorem precedence?_of_binaryLevel? (h : binaryLevel? l = some level) :
    precedence? l.text = some level := by
  obtain ⟨kind, span, text⟩ := l
  rcases mem_of_binaryLevel? h with ⟨hk, hmem⟩ | ⟨hk, hmem⟩ <;> cases hk
  · exact (precedence?_word text hmem).trans h
  · exact (precedence?_mark text hmem).trans h

/-- No operator binds tighter than those before a type. -/
theorem level_le_of_binaryLevel? (h : binaryLevel? l = some level) : level ≤ 13 := by
  have hwords : ∀ w ∈ binaryWords, ∀ p ∈ precedence? w, p ≤ 13 := by decide
  have hmarks : ∀ m ∈ binaryMarks, ∀ p ∈ precedence? m, p ≤ 13 := by decide
  have hp := precedence?_of_binaryLevel? h
  rcases mem_of_binaryLevel? h with ⟨-, hmem⟩ | ⟨-, hmem⟩
  · exact hwords _ hmem _ hp
  · exact hmarks _ hmem _ hp

theorem unaryPrecedence?_of_unaryLevel? (h : unaryLevel? l = some level) :
    unaryPrecedence? l.text = some level := by
  obtain ⟨kind, span, text⟩ := l
  unfold unaryLevel? at h
  split at h
  · next hk =>
    cases hk
    have hword : unaryLevel? ⟨.word, ⟨0, 0⟩, text⟩ = some level := h
    rw [unaryPrecedence?, hword, Option.some_or]
  · next hk =>
    cases hk
    have hop : unaryLevel? ⟨.op, ⟨0, 0⟩, text⟩ = some level := h
    have hword : unaryLevel? ⟨.word, ⟨0, 0⟩, text⟩ = none := by
      have hnone : unaryLevel? ⟨.op, ⟨0, 0⟩, Text.of "not"⟩ = none := by decide
      have hne : text ≠ Text.of "not" := by
        rintro rfl
        rw [hnone] at hop
        cases hop
      simp [unaryLevel?, Lexeme.isWord, hne]
    rw [unaryPrecedence?, hword, Option.none_or, hop]
  · cases h

end Grammar

namespace Node

open Grammar (takesType)

/-- Whether nodes of this kind are operands to which calls, members and subscripts may be added. -/
def Kind.isPostfix : Kind → Bool
  | .string _ | .number | .literal | .identifier | .nodePath | .array | .dictionary | .call
  | .member _ | .index | .paren => true
  | _ => false

/-- Whether the child in place `i` is a complete expression, or the last part of a ternary. -/
def Kind.holdsTernary : Kind → Nat → Bool
  | .paren, _ | .array, _ | .pair, _ => true
  | .call, i => i != 0
  | .index, i => i == 1
  | .ternary, i => i == 2
  | _, _ => false

/-- How tightly the operator of a binary node binds. -/
def precedence? (n : Node) : Option Nat :=
  match n.kind with
  | .binary op => Grammar.precedence? op
  | _ => none

/-- How tightly the operator of a unary node binds. -/
def unaryPrecedence? (n : Node) : Option Nat :=
  match n.kind with
  | .unary op => Grammar.unaryPrecedence? op
  | _ => none

/-- The second node is reached from the first by going to the right operand of binary nodes and to the
operand of unary ones. -/
inductive OnEdge : Node → Node → Prop
  | refl (n : Node) : OnEdge n n
  | binary {op : Text} {span : Span} {left right u : Node} (h : OnEdge right u) :
      OnEdge ⟨.binary op, span, [left, right]⟩ u
  | unary {op : Text} {span : Span} {operand u : Node} (h : OnEdge operand u) :
      OnEdge ⟨.unary op, span, [operand]⟩ u

/-- What the level of its operator, if any, asks of the children of a node. -/
structure Bound (n : Node) : Prop where
  binary : ∀ op, n.kind = .binary op → ∃ left right p, n.children = [left, right] ∧
    Grammar.precedence? op = some p ∧ (∀ q ∈ right.precedence?, p < q) ∧
    (∀ q ∈ left.precedence?, p ≤ q) ∧
    (∀ u, OnEdge left u → ∀ q ∈ u.unaryPrecedence?, p < q) ∧
    (takesType op = true → right.kind.isPostfix = true)
  unary : ∀ op, n.kind = .unary op → ∃ operand p, n.children = [operand] ∧
    Grammar.unaryPrecedence? op = some p ∧ ∀ q ∈ operand.precedence?, p ≤ q
  await : n.kind = .await → ∃ operand, n.children = [operand] ∧ operand.kind.isPostfix = true
  call : n.kind = .call → ∃ callee ∈ n.children.head?, callee.kind.isPostfix = true
  member : ∀ name, n.kind = .member name → ∀ object ∈ n.children, object.kind.isPostfix = true
  index : n.kind = .index → ∃ object ∈ n.children.head?, object.kind.isPostfix = true
  ternary : ∀ i child, n.children[i]? = some child → child.kind = .ternary →
    n.kind.holdsTernary i = true

/-- Every node of the tree has operands that fit its operator. -/
def WellBound (n : Node) : Prop := ∀ m ∈ n.preorder, m.Bound

variable {n m : Node} {kind : Kind} {span : Span} {children : List Node}

theorem wellBound_iff : n.WellBound ↔ n.Bound ∧ ∀ m ∈ n.children, m.WellBound := by
  obtain ⟨kind, span, children⟩ := n
  rw [WellBound, preorder]
  simp only [List.forall_mem_cons, Arena.mem_preorderAll]
  refine and_congr Iff.rfl ⟨fun h m hm k hk => h k ⟨m, hm, hk⟩, ?_⟩
  rintro h k ⟨m, hm, hk⟩
  exact h m hm k hk

theorem ne_of_isPostfix (h : n.kind.isPostfix = true) (hk : kind.isPostfix = false) :
    n.kind ≠ kind := by
  rintro rfl
  rw [hk] at h
  cases h

theorem precedence?_eq_none (h : ∀ op, n.kind ≠ .binary op) : n.precedence? = none := by
  unfold precedence?
  split
  · next op hk => exact absurd hk (h op)
  · rfl

theorem unaryPrecedence?_eq_none (h : ∀ op, n.kind ≠ .unary op) : n.unaryPrecedence? = none := by
  unfold unaryPrecedence?
  split
  · next op hk => exact absurd hk (h op)
  · rfl

/-- From a node without operator the edge does not go on. -/
theorem OnEdge.eq_of_kind (h : OnEdge n m) (hb : ∀ op, n.kind ≠ .binary op)
    (hu : ∀ op, n.kind ≠ .unary op) : m = n := by
  cases h with
  | refl => rfl
  | binary => exact absurd rfl (hb _)
  | unary => exact absurd rfl (hu _)

/-- What has no children asks nothing of them. -/
theorem wellBound_leaf (hk : kind.isPostfix = true) (hcall : kind ≠ .call)
    (hindex : kind ≠ .index) (span : Span) : WellBound ⟨kind, span, []⟩ := by
  refine wellBound_iff.2 ⟨?_, by simp⟩
  constructor
  case binary | unary =>
    rintro op ⟨⟩
    cases hk
  case await =>
    rintro ⟨⟩
    cases hk
  case call => exact fun h => absurd h hcall
  case index => exact fun h => absurd h hindex
  all_goals simp

theorem wellBound_call {head : Node} {ns : List Node} (hhead : head.WellBound)
    (hk : head.kind.isPostfix = true) (hns : ∀ n ∈ ns, n.WellBound) (span : Span) :
    WellBound ⟨.call, span, head :: ns⟩ := by
  refine wellBound_iff.2 ⟨?_, by simpa using ⟨hhead, hns⟩⟩
  constructor
  case call => exact fun _ => ⟨head, rfl, hk⟩
  case ternary =>
    intro i child hi hchild
    cases i with
    | zero =>
      cases hi
      exact absurd hchild (ne_of_isPostfix hk rfl)
    | succ i => rfl
  all_goals simp

theorem wellBound_member {head : Node} (hhead : head.WellBound)
    (hk : head.kind.isPostfix = true) (name : Text) (span : Span) :
    WellBound ⟨.member name, span, [head]⟩ := by
  refine wellBound_iff.2 ⟨?_, by simpa using hhead⟩
  constructor
  case member => simpa using hk
  case ternary =>
    intro i child hi hchild
    rw [List.mem_singleton.1 (List.mem_of_getElem? hi)] at hchild
    exact absurd hchild (ne_of_isPostfix hk rfl)
  all_goals simp

theorem wellBound_index {head index : Node} (hhead : head.WellBound)
    (hk : head.kind.isPostfix = true) (hindex : index.WellBound) (span : Span) :
    WellBound ⟨.index, span, [head, index]⟩ := by
  refine wellBound_iff.2 ⟨?_, by simpa using ⟨hhead, hindex⟩⟩
  constructor
  case index => exact fun _ => ⟨head, rfl, hk⟩
  case ternary =>
    intro i child hi hchild
    match i with
    | 0 =>
      cases hi
      exact absurd hchild (ne_of_isPostfix hk rfl)
    | 1 => rfl
    | i + 2 => cases hi
  all_goals simp

theorem wellBound_await {operand : Node} (h : operand.WellBound)
    (hk : operand.kind.isPostfix = true) (span : Span) : WellBound ⟨.await, span, [operand]⟩ := by
  refine wellBound_iff.2 ⟨?_, by simpa using h⟩
  constructor
  case await => exact fun _ => ⟨operand, rfl, hk⟩
  case ternary =>
    intro i child hi hchild
    rw [List.mem_singleton.1 (List.mem_of_getElem? hi)] at hchild
    exact absurd hchild (ne_of_isPostfix hk rfl)
  all_goals simp

theorem wellBound_ternary {value condition other : Node} (hvalue : value.WellBound)
    (hkvalue : value.kind ≠ .ternary) (hcondition : condition.WellBound)
    (hkcondition : condition.kind ≠ .ternary) (hother : other.WellBound) (span : Span) :
    WellBound ⟨.ternary, span, [value, condition, other]⟩ := by
  refine wellBound_iff.2 ⟨?_, by simpa using ⟨hvalue, hcondition, hother⟩⟩
  constructor
  case ternary =>
    intro i child hi hchild
    match i with
    | 0 =>
      cases hi
      exact absurd hchild hkvalue
    | 1 =>
      cases hi
      exact absurd hchild hkcondition
    | 2 => rfl
    | i + 3 => cases hi
  all_goals simp

/-- In brackets and pairs every child is a complete expression. -/
theorem wellBound_brackets {ns : List Node}
    (hk : kind = .paren ∨ kind = .array ∨ kind = .pair) (hns : ∀ n ∈ ns, n.WellBound)
    (span : Span) : WellBound ⟨kind, span, ns⟩ := by
  refine wellBound_iff.2 ⟨?_, hns⟩
  rcases hk with rfl | rfl | rfl <;> constructor <;> simp [Kind.holdsTernary]

theorem wellBound_dictionary {ns : List Node} (hns : ∀ n ∈ ns, n.WellBound ∧ n.kind = .pair)
    (span : Span) : WellBound ⟨.dictionary, span, ns⟩ := by
  refine wellBound_iff.2 ⟨?_, fun n hn => (hns n hn).1⟩
  constructor
  case ternary =>
    intro i child hi hchild
    rw [(hns child (List.mem_of_getElem? hi)).2] at hchild
    cases hchild
  all_goals simp

theorem wellBound_binary {left right : Node} {op : Text} {p : Nat}
    (hp : Grammar.precedence? op = some p) (hleft : left.WellBound) (hkleft : left.kind ≠ .ternary)
    (hright : right.WellBound) (hkright : right.kind ≠ .ternary)
    (htighter : ∀ q ∈ right.precedence?, p < q) (htight : ∀ q ∈ left.precedence?, p ≤ q)
    (hedge : ∀ u, OnEdge left u → ∀ q ∈ u.unaryPrecedence?, p < q)
    (htype : takesType op = true → right.kind.isPostfix = true) (span : Span) :
    WellBound ⟨.binary op, span, [left, right]⟩ := by
  refine wellBound_iff.2 ⟨?_, by simp [hleft, hright]⟩
  constructor
  case binary =>
    intro op' hk
    cases hk
    exact ⟨left, right, p, rfl, hp, htighter, htight, hedge, htype⟩
  case ternary =>
    intro i child hi hk
    have hmem := List.mem_of_getElem? hi
    simp only [List.mem_cons, List.not_mem_nil, or_false] at hmem
    rcases hmem with rfl | rfl
    · exact absurd hk hkleft
    · exact absurd hk hkright
  all_goals simp

theorem wellBound_unary {operand : Node} {op : Text} {p : Nat}
    (hp : Grammar.unaryPrecedence? op = some p) (h : operand.WellBound)
    (hk : operand.kind ≠ .ternary) (htight : ∀ q ∈ operand.precedence?, p ≤ q) (span : Span) :
    WellBound ⟨.unary op, span, [operand]⟩ := by
  refine wellBound_iff.2 ⟨?_, by simp [h]⟩
  constructor
  case unary =>
    intro op' hk
    cases hk
    exact ⟨operand, p, rfl, hp, htight⟩
  case ternary =>
    intro i child hi hchild
    rw [List.mem_singleton.1 (List.mem_of_getElem? hi)] at hchild
    exact absurd hchild hk
  all_goals simp

end Node

namespace Cursor

open Grammar Node

/-- The level of the binary operator that comes next. -/
def nextLevel? (c : Cursor) : Option Nat := c.binaryOp?.map (·.1)

/-- Read with operators of at least the given level, `n` is left as it is by the operator that comes
next. -/
structure Leaves (level : Nat) (n : Node) (c : Cursor) : Prop where
  wellBound : n.WellBound
  kind : n.kind ≠ .ternary
  level : ∀ q ∈ n.precedence?, level ≤ q
  next : ∀ q ∈ n.precedence?, ∀ p ∈ c.nextLevel?, p ≤ q
  edge : ∀ u, OnEdge n u → ∀ q ∈ u.unaryPrecedence?, ∀ p ∈ c.nextLevel?, p < q

/-- What each rule promises of the nodes it gives. -/
def Promise : Rule → Cursor → List Node → Cursor → Prop
  | .expression, _, ns, _ => ∀ n ∈ ns, n.WellBound
  | .binary level, _, ns, c₁ => ∀ n ∈ ns, Leaves level n c₁ ∧ ∀ p ∈ c₁.nextLevel?, p < level
  | .binaryTail level left, c, ns, c₁ => Leaves level left c →
      ∀ n ∈ ns, Leaves level n c₁ ∧ ∀ p ∈ c₁.nextLevel?, p < level
  | .operand, _, ns, c₁ => ∀ n ∈ ns, ∀ level, Leaves level n c₁
  | .chain, _, ns, _ | .primary, _, ns, _ => ∀ n ∈ ns, n.WellBound ∧ n.kind.isPostfix = true
  | .chainTail head, _, ns, _ => head.WellBound → head.kind.isPostfix = true →
      ∀ n ∈ ns, n.WellBound ∧ n.kind.isPostfix = true
  | .sequence _, _, ns, _ => ∀ n ∈ ns, n.WellBound
  | .pairs, _, ns, _ => ∀ n ∈ ns, n.WellBound ∧ n.kind = .pair

variable {c c₁ c₂ after : Cursor} {level opLevel : Nat} {op : Text} {n left right operand : Node}

theorem endsBinary_iff : c.endsBinary level = true ↔ ∀ p ∈ c.nextLevel?, p < level := by
  unfold endsBinary nextLevel?
  cases c.binaryOp? <;> simp

theorem precedence?_of_binaryOp? (h : c.binaryOp? = some (opLevel, op, after)) :
    Grammar.precedence? op = some opLevel ∧ opLevel ≤ 13 := by
  unfold binaryOp? at h
  split at h
  · cases h
    decide
  · obtain ⟨level, hlevel, he⟩ := Option.map_eq_some_iff.1 h
    cases he
    exact ⟨precedence?_of_binaryLevel? hlevel, level_le_of_binaryLevel? hlevel⟩

/-- A node without operator is left as it is by any operator. -/
theorem leaves_of_kind (h : n.WellBound) (hb : ∀ op, n.kind ≠ .binary op)
    (hu : ∀ op, n.kind ≠ .unary op) (ht : n.kind ≠ .ternary) (level : Nat) (c : Cursor) :
    Leaves level n c where
  wellBound := h
  kind := ht
  level q hq := by simp [precedence?_eq_none hb] at hq
  next q hq := by simp [precedence?_eq_none hb] at hq
  edge u hedge q hq := by
    rw [hedge.eq_of_kind hb hu, unaryPrecedence?_eq_none hu] at hq
    cases hq

theorem leaves_of_isPostfix (h : n.WellBound) (hk : n.kind.isPostfix = true) (level : Nat)
    (c : Cursor) : Leaves level n c :=
  leaves_of_kind h (fun _ => ne_of_isPostfix hk rfl) (fun _ => ne_of_isPostfix hk rfl)
    (ne_of_isPostfix hk rfl) level c

/-- An operator takes the left operand that it leaves as it is, and a right operand that binds
tighter. -/
theorem Leaves.operator (hleft : Leaves level left c)
    (hop : c.binaryOp? = some (opLevel, op, after)) (hlevel : level ≤ opLevel)
    (hright : Leaves (opLevel + 1) right c₁) (hnext : ∀ p ∈ c₁.nextLevel?, p ≤ opLevel)
    (htype : takesType op = true → right.kind.isPostfix = true) (span : Span) :
    Leaves level ⟨.binary op, span, [left, right]⟩ c₁ := by
  have hp := (precedence?_of_binaryOp? hop).1
  have hc : c.nextLevel? = some opLevel := by rw [nextLevel?, hop, Option.map_some]
  have hprec : (⟨.binary op, span, [left, right]⟩ : Node).precedence? = some opLevel := hp
  refine ⟨wellBound_binary hp hleft.wellBound hleft.kind hright.wellBound hright.kind hright.level
    (fun q hq => hleft.next q hq _ hc) (fun u hu q hq => hleft.edge u hu q hq _ hc) htype span,
    by simp, ?_, ?_, ?_⟩
  · rw [hprec]
    rintro q ⟨⟩
    exact hlevel
  · rw [hprec]
    rintro q ⟨⟩
    exact hnext
  · intro u hu
    cases hu with
    | refl =>
      intro q hq
      simp [Node.unaryPrecedence?] at hq
    | binary hu => exact hright.edge u hu

/-- An operator before its operand takes what binds at least as tightly. -/
theorem Leaves.unary (hoperand : Leaves level operand c₁)
    (hop : Grammar.unaryPrecedence? op = some level) (hnext : ∀ p ∈ c₁.nextLevel?, p < level)
    (span : Span) (outer : Nat) : Leaves outer ⟨.unary op, span, [operand]⟩ c₁ := by
  refine ⟨wellBound_unary hop hoperand.wellBound hoperand.kind hoperand.level span, by simp, ?_, ?_,
    ?_⟩
  · simp [Node.precedence?]
  · simp [Node.precedence?]
  · intro u hu
    cases hu with
    | refl =>
      intro q hq
      rw [show Node.unaryPrecedence? ⟨.unary op, span, [operand]⟩ = some level from hop] at hq
      cases hq
      exact hnext
    | unary hu => exact hoperand.edge u hu

theorem wellBound_wordExpression (h : c.wordExpression = .ok (n, c₁)) :
    n.WellBound ∧ n.kind.isPostfix = true := by
  unfold wordExpression leaf at h
  split at h
  · cases h
    exact ⟨wellBound_leaf rfl (by simp) (by simp) _, rfl⟩
  · split at h
    · cases h
    · split at h
      · cases h
      · cases h
        exact ⟨wellBound_leaf rfl (by simp) (by simp) _, rfl⟩

theorem wellBound_nodePath (h : c.nodePath = .ok (n, c₁)) :
    n.WellBound ∧ n.kind.isPostfix = true := by
  unfold nodePath at h
  simp only at h
  split at h
  · cases h
    exact ⟨wellBound_leaf rfl (by simp) (by simp) _, rfl⟩
  · cases h
    exact ⟨wellBound_leaf rfl (by simp) (by simp) _, rfl⟩
  · cases h

/-- By induction on the derivation. The invariant of the rules that go on after a left part is that the
operator that comes next leaves this part as it is. -/
theorem Derives.promise {r : Rule} {ns : List Node} (h : Derives r c ns c₁) : Promise r c ns c₁ := by
  induction h with
  | value _ _ ih => exact fun n hn => (ih n hn).1.wellBound
  | ternary _ _ _ _ _ ih₁ ih₂ ih₃ =>
    have hvalue := (ih₁ _ List.mem_cons_self).1
    have hcondition := (ih₂ _ List.mem_cons_self).1
    exact List.forall_mem_singleton.2 (wellBound_ternary hvalue.wellBound hvalue.kind
      hcondition.wellBound hcondition.kind (ih₃ _ List.mem_cons_self) _)
  | binary _ _ ih₁ ih₂ => exact ih₂ (ih₁ _ List.mem_cons_self _)
  | binaryEnd hend =>
    intro hleft n hn
    rw [List.mem_singleton.1 hn]
    exact ⟨hleft, endsBinary_iff.1 hend⟩
  | @typeOperator c after c₁ c₂ level opLevel op left right n hop hlevel htype _ _ ih₁ ih₂ =>
    intro hleft
    obtain ⟨hright, hk⟩ := ih₁ right List.mem_cons_self
    have hlast : opLevel = 13 := by
      have hp := (precedence?_of_binaryOp? hop).1
      rw [takesType, Bool.or_eq_true, beq_iff_eq, beq_iff_eq] at htype
      rcases htype with rfl | rfl <;> exact (Option.some.inj hp).symm
    refine ih₂ (hleft.operator hop hlevel (leaves_of_isPostfix hright hk _ _) ?_ (fun _ => hk) _)
    intro p hp
    obtain ⟨⟨opLevel', op', after'⟩, hop', rfl⟩ := Option.map_eq_some_iff.1 hp
    rw [hlast]
    exact (precedence?_of_binaryOp? hop').2
  | operator hop hlevel htype _ _ ih₁ ih₂ =>
    intro hleft
    obtain ⟨hright, hnext⟩ := ih₁ _ List.mem_cons_self
    refine ih₂ (hleft.operator hop hlevel hright (fun p hp => Nat.le_of_lt_succ (hnext p hp)) ?_ _)
    intro h
    rw [htype] at h
    cases h
  | unary hlevel _ ih =>
    obtain ⟨hoperand, hnext⟩ := ih _ List.mem_cons_self
    exact List.forall_mem_singleton.2
      (hoperand.unary (unaryPrecedence?_of_unaryLevel? hlevel) hnext _)
  | await _ _ _ ih =>
    obtain ⟨hoperand, hk⟩ := ih _ List.mem_cons_self
    exact List.forall_mem_singleton.2
      fun level => leaves_of_kind (wellBound_await hoperand hk _) (by simp) (by simp) (by simp) level _
  | plain _ _ _ ih =>
    intro n hn
    obtain ⟨hbound, hk⟩ := ih n hn
    exact fun level => leaves_of_isPostfix hbound hk level _
  | chain _ _ ih₁ ih₂ =>
    obtain ⟨hhead, hk⟩ := ih₁ _ List.mem_cons_self
    exact ih₂ hhead hk
  | chainEnd _ =>
    intro hhead hk n hn
    rw [List.mem_singleton.1 hn]
    exact ⟨hhead, hk⟩
  | call _ _ _ ih₁ ih₂ => exact fun hhead hk => ih₂ (wellBound_call hhead hk ih₁ _) rfl
  | member _ _ _ _ ih => exact fun hhead hk => ih (wellBound_member hhead hk _ _) rfl
  | subscript _ _ _ _ _ _ ih₁ ih₂ =>
    exact fun hhead hk => ih₂ (wellBound_index hhead hk (ih₁ _ List.mem_cons_self) _) rfl
  | sequenceEnd _ => simp [Promise]
  | sequenceMore _ _ _ _ ih₁ ih₂ =>
    exact List.forall_mem_cons.2 ⟨ih₁ _ List.mem_cons_self, ih₂⟩
  | sequenceLast _ _ _ _ ih => exact ih
  | pairsEnd _ => simp [Promise]
  | pairsMore _ _ _ _ _ _ ih₁ ih₂ ih₃ =>
    have hpair := wellBound_brackets (.inr (.inr rfl))
      (List.forall_mem_cons.2 ⟨ih₁ _ List.mem_cons_self, ih₂⟩)
    exact List.forall_mem_cons.2 ⟨⟨hpair _, rfl⟩, ih₃⟩
  | pairsLast _ _ _ _ _ _ ih₁ ih₂ =>
    have hpair := wellBound_brackets (.inr (.inr rfl))
      (List.forall_mem_cons.2 ⟨ih₁ _ List.mem_cons_self, ih₂⟩)
    exact List.forall_mem_singleton.2 ⟨hpair _, rfl⟩
  | string _ | number _ =>
    exact List.forall_mem_singleton.2 ⟨wellBound_leaf rfl (by simp) (by simp) _, rfl⟩
  | word _ hword => exact List.forall_mem_singleton.2 (wellBound_wordExpression hword)
  | paren _ _ _ ih =>
    exact List.forall_mem_singleton.2 ⟨wellBound_brackets (.inl rfl) ih _, rfl⟩
  | array _ _ ih =>
    exact List.forall_mem_singleton.2 ⟨wellBound_brackets (.inr (.inl rfl)) ih _, rfl⟩
  | dictionary _ _ ih => exact List.forall_mem_singleton.2 ⟨wellBound_dictionary ih _, rfl⟩
  | nodePath _ hpath => exact List.forall_mem_singleton.2 (wellBound_nodePath hpath)
  | parentMember _ _ =>
    exact List.forall_mem_singleton.2 ⟨wellBound_leaf rfl (by simp) (by simp) _, rfl⟩

/-- Every expression that is read is well bound. -/
theorem wellBound_of_expression (h : c.expression = .ok (n, c₁)) : n.WellBound :=
  (derives_of_expression h).promise n List.mem_cons_self

end Cursor

end Phrasebook
