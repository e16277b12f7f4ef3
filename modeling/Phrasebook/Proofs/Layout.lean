import Phrasebook.Proofs.Stream
import Phrasebook.Proofs.Grammar.Lengths

/-!
How the nodes of a tree lie in the text.

`Node.Laid` says of a node and of all below it that children lie inside their parent, in order and
apart, that expressions and simple statements cover whole characters, and which kinds of nodes stand
below which. A cursor that is `Cursor.Ready` derives only such nodes.
-/
namespace Phrasebook

open Text (Stands size isBoundary)

namespace Node

namespace Kind

/-- Whether this is a statement of one expression, of two for an assignment. -/
def isSimple : Kind → Bool
  | .exprStmt | .returnStmt | .varDecl _ | .assign _ => true
  | _ => false

/-- Whether this is a statement of one expression at most. -/
def isLone : Kind → Bool
  | .exprStmt | .returnStmt | .varDecl _ => true
  | _ => false

def isBranch : Kind → Bool
  | .branch _ => true
  | _ => false

/-- Whether this is a branch that begins with a condition. -/
def isGuarded : Kind → Bool
  | .branch .ifBranch | .branch .elifBranch => true
  | _ => false

theorem isBranch_of_isGuarded {k : Kind} (h : k.isGuarded = true) : k.isBranch = true := by
  cases k with
  | branch w => rfl
  | _ => simp [isGuarded] at h

theorem not_compound_of_isExpression {k : Kind} (h : k.isExpression = true) :
    k.isSimple = false ∧ k ≠ .ifStmt ∧ k.isGuarded = false := by
  cases k <;> simp [isExpression, isSimple, isGuarded] at h ⊢

theorem isGuarded_of_isSimple {k : Kind} (h : k.isSimple = true) : k.isGuarded = false := by
  cases k <;> simp [isSimple, isGuarded] at h ⊢

theorem not_simple_of_isGuarded {k : Kind} (h : k.isGuarded = true) :
    k.isSimple = false ∧ k ≠ .ifStmt := by
  cases k <;> simp [isSimple, isGuarded] at h ⊢

theorem isSimple_of_isLone {k : Kind} (h : k.isLone = true) :
    k.isSimple = true ∧ k.isString = false := by
  cases k <;> simp [isSimple, isLone, isString] at h ⊢

theorem isExpression_of_isString {k : Kind} (h : k.isString = true) : k.isExpression = true := by
  cases k <;> simp [isExpression, isString] at h ⊢

theorem isBranch_of_isExpression {k : Kind} (h : k.isExpression = true) : k.isBranch = false := by
  cases k <;> simp [isExpression, isBranch] at h ⊢

end Kind

/-- What a node with its children promises by itself. -/
structure Fit (source : Text) (kind : Kind) (span : Span) (children : List Node) : Prop where
  le : span.start ≤ span.stop
  bounds : kind.isExpression = true ∨ kind.isSimple = true →
    span.start < span.stop ∧ isBoundary span.start source = true ∧
      isBoundary span.stop source = true
  expressions : kind.isExpression = true ∨ kind.isSimple = true →
    ∀ n ∈ children, n.kind.isExpression = true
  lone : kind.isLone = true → children.length ≤ 1
  quoted : ∀ q, kind = .string q →
    children = [] ∧ ∃ content, Stands source span (q.wrap content)
  guarded : kind.isGuarded = true → ∃ n, children.head? = some n ∧ n.kind.isExpression = true
  branches : ∀ n ∈ children, n.kind.isBranch = true ↔ kind = .ifStmt

mutual

/-- A node and all below it lie as they should. -/
def Laid (source : Text) : Node → Prop
  | ⟨kind, span, children⟩ =>
    Fit source kind span children ∧ Row source span.start span.stop children

/-- Nodes that lie one after the other between `lo` and `hi`. -/
def Row (source : Text) (lo hi : Nat) : List Node → Prop
  | [] => lo ≤ hi
  | n :: ns => lo ≤ n.span.start ∧ n.Laid source ∧ Row source n.span.stop hi ns

end

variable {source : Text} {n : Node} {ns ms : List Node} {lo mid hi : Nat}

theorem laid_iff : n.Laid source ↔
    Fit source n.kind n.span n.children ∧ Row source n.span.start n.span.stop n.children := by
  cases n
  rw [Laid]

theorem Laid.fit (h : n.Laid source) : Fit source n.kind n.span n.children := (laid_iff.1 h).1

theorem Laid.row (h : n.Laid source) : Row source n.span.start n.span.stop n.children :=
  (laid_iff.1 h).2

theorem row_nil : Row source lo hi [] ↔ lo ≤ hi := by
  rw [Row]

theorem row_cons : Row source lo hi (n :: ns) ↔
    lo ≤ n.span.start ∧ n.Laid source ∧ Row source n.span.stop hi ns := by
  rw [Row]

theorem Row.le (h : Row source lo hi ns) : lo ≤ hi := by
  induction ns generalizing lo with
  | nil => exact row_nil.1 h
  | cons n ns ih =>
    obtain ⟨hlo, hn, hrow⟩ := row_cons.1 h
    have := hn.fit.le
    have := ih hrow
    omega

theorem Row.mono {lo' hi' : Nat} (h : Row source lo hi ns) (hlo : lo' ≤ lo) (hhi : hi ≤ hi') :
    Row source lo' hi' ns := by
  induction ns generalizing lo lo' with
  | nil =>
    have := h.le
    exact row_nil.2 (by omega)
  | cons n ns ih =>
    obtain ⟨hn, hlaid, hrow⟩ := row_cons.1 h
    exact row_cons.2 ⟨Nat.le_trans hlo hn, hlaid, ih hrow (Nat.le_refl _)⟩

theorem Row.append (h : Row source lo mid ns) (h' : Row source mid hi ms) :
    Row source lo hi (ns ++ ms) := by
  induction ns generalizing lo with
  | nil => exact h'.mono h.le (Nat.le_refl _)
  | cons n ns ih =>
    obtain ⟨hn, hlaid, hrow⟩ := row_cons.1 h
    exact row_cons.2 ⟨hn, hlaid, ih hrow⟩

theorem row_single : Row source lo hi [n] ↔
    lo ≤ n.span.start ∧ n.Laid source ∧ n.span.stop ≤ hi := by
  simp [Row]

/-- The members of a row lie in it, and are apart. -/
theorem Row.of_mem (h : Row source lo hi ns) (hn : n ∈ ns) :
    n.Laid source ∧ lo ≤ n.span.start ∧ n.span.stop ≤ hi := by
  induction ns generalizing lo with
  | nil => simp at hn
  | cons m ns ih =>
    obtain ⟨hlo, hm, hrow⟩ := row_cons.1 h
    rcases List.mem_cons.1 hn with rfl | hn
    · exact ⟨hm, hlo, hrow.le⟩
    · obtain ⟨hn, hstart, hstop⟩ := ih hrow hn
      have := hm.fit.le
      exact ⟨hn, by omega, hstop⟩

/-- An expression with its ends. -/
structure Spans (source : Text) (start stop : Nat) (n : Node) : Prop where
  laid : n.Laid source
  isExpression : n.kind.isExpression = true
  start_eq : n.span.start = start
  stop_eq : n.span.stop = stop

theorem Spans.lt {start stop : Nat} (h : Spans source start stop n) : start < stop := by
  have := (h.laid.fit.bounds (.inl h.isExpression)).1
  rwa [h.start_eq, h.stop_eq] at this

theorem Spans.starts {start stop : Nat} (h : Spans source start stop n) :
    isBoundary start source = true := by
  have := (h.laid.fit.bounds (.inl h.isExpression)).2.1
  rwa [h.start_eq] at this

theorem Spans.row {start stop : Nat} (h : Spans source start stop n) (hlo : lo ≤ start) :
    Row source lo stop [n] :=
  row_single.2 ⟨by rw [h.start_eq]; exact hlo, h.laid, Nat.le_of_eq h.stop_eq⟩

/-- A list of expressions that lie in a row. -/
structure Expressions (source : Text) (lo hi : Nat) (ns : List Node) : Prop where
  row : Row source lo hi ns
  all : ∀ n ∈ ns, n.kind.isExpression = true

theorem expressions_nil (h : lo ≤ hi) : Expressions source lo hi [] := ⟨row_nil.2 h, by simp⟩

theorem Spans.expressions {start stop : Nat} (h : Spans source start stop n) (hlo : lo ≤ start) :
    Expressions source lo stop [n] :=
  ⟨h.row hlo, by simp [h.isExpression]⟩

theorem Expressions.append (h : Expressions source lo mid ns) (h' : Expressions source mid hi ms) :
    Expressions source lo hi (ns ++ ms) :=
  ⟨h.row.append h'.row, List.forall_mem_append.2 ⟨h.all, h'.all⟩⟩

theorem Expressions.mono {lo' hi' : Nat} (h : Expressions source lo hi ns) (hlo : lo' ≤ lo)
    (hhi : hi ≤ hi') : Expressions source lo' hi' ns :=
  ⟨h.row.mono hlo hhi, h.all⟩

/-- An expression that is no string, from its children. -/
theorem spans_node {kind : Kind} {start stop : Nat} (hk : kind.isExpression = true)
    (hq : kind.isString = false) (hlt : start < stop) (hstart : isBoundary start source = true)
    (hstop : isBoundary stop source = true) (hns : Expressions source start stop ns) :
    Spans source start stop ⟨kind, ⟨start, stop⟩, ns⟩ where
  laid := by
    refine laid_iff.2 ⟨⟨Nat.le_of_lt hlt, fun _ => ⟨hlt, hstart, hstop⟩, fun _ => hns.all, ?_, ?_,
      ?_, ?_⟩, hns.row⟩
    · intro hl
      cases kind <;> simp [Kind.isLone, Kind.isExpression] at hl hk
    · rintro q rfl
      simp [Kind.isString] at hq
    · intro hg
      cases kind <;> simp [Kind.isGuarded, Kind.isExpression] at hg hk
    · intro n hn
      rw [Kind.isBranch_of_isExpression (hns.all n hn)]
      constructor
      · simp
      · rintro rfl
        simp [Kind.isExpression] at hk
  isExpression := hk
  start_eq := rfl
  stop_eq := rfl

/-- A left and a right part as one expression, with what is between them. -/
theorem Spans.around {k : Kind} {left right : Node} {start mid' mid'' stop : Nat}
    (hl : Spans source start mid left) (hns : Expressions source mid mid' ns)
    (hr : Spans source mid'' stop right) (hmid : mid' ≤ mid'') (hk : k.isExpression = true)
    (hq : k.isString = false) (hstop : isBoundary stop source = true) :
    Spans source start stop ⟨k, left.span.hull right.span, left :: ns ++ [right]⟩ := by
  have hlt := hl.lt
  have hlt' := hr.lt
  have hle := hns.row.le
  have hspan : left.span.hull right.span = ⟨start, stop⟩ := by
    simp only [Span.hull, hl.start_eq, hl.stop_eq, hr.start_eq, hr.stop_eq, Span.mk.injEq]
    omega
  rw [hspan]
  exact spans_node hk hq (by omega) hl.starts hstop
    ((hl.expressions (Nat.le_refl _)).append (hns.append (hr.expressions hmid)))

/-- A left and a right part as one expression. -/
theorem Spans.hull {k : Kind} {left right : Node} {start mid' stop : Nat}
    (hl : Spans source start mid left) (hr : Spans source mid' stop right)
    (hmid : mid ≤ mid') (hk : k.isExpression = true) (hq : k.isString = false)
    (hstop : isBoundary stop source = true) :
    Spans source start stop ⟨k, left.span.hull right.span, [left, right]⟩ :=
  hl.around (expressions_nil (Nat.le_refl _)) hr hmid hk hq hstop

/-- An expression that goes on after its first part. -/
theorem Spans.goOn {kind : Kind} {head : Node} {start stop : Nat}
    (hh : Spans source start mid head) (hk : kind.isExpression = true)
    (hq : kind.isString = false) (hle : mid ≤ stop) (hstop : isBoundary stop source = true)
    (hns : Expressions source mid stop ns) :
    Spans source start stop ⟨kind, ⟨head.span.start, stop⟩, head :: ns⟩ := by
  have hlt := hh.lt
  rw [hh.start_eq]
  exact spans_node hk hq (by omega) hh.starts hstop
    ((hh.expressions (Nat.le_refl _)).append hns)

end Node

namespace Cursor

open Grammar Node

/-- A cursor whose lexemes are in place, in order and beyond what was read. -/
structure Ready (source : Text) (c : Cursor) : Prop where
  placed : ∀ l ∈ c.rest, l.Placed source
  order : c.rest.Pairwise Lexeme.Before
  ahead : ∀ l ∈ c.rest, c.lastEnd ≤ l.span.start
  reached : isBoundary c.lastEnd source = true
  closed : ∃ body e, c.rest = body ++ [e] ∧ e.kind = .eof ∧ ∀ l ∈ body, l.kind ≠ .eof
  lined : c.rest.IsChain Lexeme.Next

variable {source : Text} {c c₁ : Cursor} {l : Lexeme} {r : List Lexeme} {last : Nat}

/-- One cursor after another in the same text: it has read the lexemes in between. -/
structure Onward (source : Text) (c c₁ : Cursor) : Prop where
  ready : c₁.Ready source
  le : c.lastEnd ≤ c₁.lastEnd
  read : ∃ ls, c.rest = ls ++ c₁.rest ∧ c₁.lastEnd = ls.foldl endAfter c.lastEnd

theorem Onward.suffix (h : Onward source c c₁) : c₁.rest <:+ c.rest := by
  obtain ⟨ls, hls, -⟩ := h.read
  exact ⟨ls, hls.symm⟩

theorem Ready.refl (h : Ready source c) : Onward source c c :=
  ⟨h, Nat.le_refl _, [], rfl, rfl⟩

theorem Onward.trans {c₂ : Cursor} (h : Onward source c c₁) (h' : Onward source c₁ c₂) :
    Onward source c c₂ := by
  obtain ⟨ls, hls, hlast⟩ := h.read
  obtain ⟨ls', hls', hlast'⟩ := h'.read
  refine ⟨h'.ready, Nat.le_trans h.le h'.le, ls ++ ls', ?_, ?_⟩
  · rw [hls, hls', List.append_assoc]
  · rw [hlast', hlast, List.foldl_append]

theorem endAfter_solid (h : l.kind.isSolid = true) : endAfter last l = l.span.stop := if_pos h

theorem Ready.pass (h : Ready source ⟨l :: r, last⟩) (hl : l.kind ≠ .eof) :
    Onward source ⟨l :: r, last⟩ ⟨r, endAfter last l⟩ := by
  have hplaced := h.placed l List.mem_cons_self
  have hahead := h.ahead l List.mem_cons_self
  have horder := List.pairwise_cons.1 h.order
  have hclosed : ∃ body e, r = body ++ [e] ∧ e.kind = .eof ∧ ∀ l ∈ body, l.kind ≠ .eof := by
    obtain ⟨body, e, hbody, he, hopen⟩ := h.closed
    cases body with
    | nil =>
      cases hbody
      exact absurd he hl
    | cons b body =>
      cases hbody
      exact ⟨body, e, rfl, he, fun l hl => hopen l (List.mem_cons_of_mem _ hl)⟩
  have hplacedAll := fun l' hl' => h.placed l' (List.mem_cons_of_mem _ hl')
  have hread : ∃ ls, l :: r = ls ++ r ∧ endAfter last l = ls.foldl endAfter last :=
    ⟨[l], rfl, rfl⟩
  by_cases hs : l.kind.isSolid = true
  · rw [endAfter_solid hs] at hread ⊢
    have hle := hplaced.le
    refine ⟨⟨hplacedAll, horder.2, fun l' hl' => horder.1 l' hl' (.inl hs), ?_, hclosed,
      h.lined.tail⟩, ?_, hread⟩
    · obtain ⟨a, b, hab, hspan⟩ := (hplaced.stands hs).1
      refine Text.isBoundary_iff.2 ⟨a ++ l.text, b, hab, ?_⟩
      simp [hspan]
    · show last ≤ l.span.stop
      simp only at hahead
      omega
  · rw [endAfter, if_neg hs] at hread ⊢
    exact ⟨⟨hplacedAll, horder.2, fun l' hl' => h.ahead l' (List.mem_cons_of_mem _ hl'),
      h.reached, hclosed, h.lined.tail⟩, Nat.le_refl _, hread⟩

theorem Ready.peek_mem (h : Ready source c) : c.peek ∈ c.rest := by
  obtain ⟨body, e, hbody, _⟩ := h.closed
  unfold peek
  cases hr : c.rest with
  | nil => simp [hr] at hbody
  | cons l r => simp

theorem Ready.lastEnd_le (h : Ready source c) : c.lastEnd ≤ c.peek.span.start :=
  h.ahead _ h.peek_mem

/-- Any move from a place in order leads onward. -/
theorem Ready.onward (h : Ready source c) (hr : Reaches c c₁) : Onward source c c₁ := by
  obtain ⟨ls, hls⟩ := hr
  induction ls generalizing c with
  | nil =>
    obtain ⟨hrest, hlast, -⟩ := hls
    obtain rfl : c₁ = c := by
      cases c
      cases c₁
      simp_all
    exact h.refl
  | cons l ls ih =>
    obtain ⟨rest, last⟩ := c
    obtain ⟨hrest, hlast, hinside⟩ := hls
    cases hrest
    have hl := List.forall_mem_cons.1 hinside
    have hpass := h.pass hl.1
    exact hpass.trans (ih hpass.ready ⟨rfl, hlast, hl.2⟩)

theorem Ready.advance (h : Ready source c) : Onward source c c.advance :=
  h.onward (reaches_advance c)

/-- What comes next later does not begin before what comes next now. -/
theorem Onward.peek_le (h : Onward source c c₁) (hc : Ready source c)
    (hs : c₁.kind.isSolid = true) : c.peek.span.start ≤ c₁.peek.span.start := by
  have hmem := h.suffix.subset h.ready.peek_mem
  have hpeek := hc.peek_mem
  obtain ⟨rest, last⟩ := c
  cases rest with
  | nil => simp at hpeek
  | cons l r =>
    have hle := (hc.placed l List.mem_cons_self).le
    rcases List.mem_cons.1 hmem with heq | hmem
    · rw [heq]
      exact Nat.le_refl _
    · have := (List.pairwise_cons.1 hc.order).1 _ hmem (.inr hs)
      show l.span.start ≤ c₁.peek.span.start
      omega

/-- Reading a lexeme with text. -/
theorem Ready.advance_solid (h : Ready source c) (hs : c.kind.isSolid = true) :
    c.advance.lastEnd = c.peek.span.stop ∧ c.peek.span.start < c.peek.span.stop ∧
      isBoundary c.peek.span.start source = true := by
  have hplaced := h.placed _ h.peek_mem
  refine ⟨?_, hplaced.lt hs, ?_⟩
  · obtain ⟨rest, last⟩ := c
    cases rest with
    | nil => simp [kind, peek, Lexeme.Kind.isSolid] at hs
    | cons l r =>
      have heof : l.kind ≠ .eof := by
        intro he
        simp [kind, peek, he, Lexeme.Kind.isSolid] at hs
      simp only [kind, peek, List.headD_cons] at hs
      simp [Cursor.advance, heof, endAfter, hs, peek]
  · obtain ⟨a, b, hab, hspan⟩ := (hplaced.stands hs).1
    exact Text.isBoundary_iff.2 ⟨a, c.peek.text ++ b, by simpa using hab, by simp [hspan]⟩

theorem solid_of_isOp {op : String} (h : c.isOp op = true) : c.kind.isSolid = true := by
  rw [kind_of_isOp h]
  rfl

theorem solid_of_isWord {w : String} (h : c.isWord w = true) : c.kind.isSolid = true := by
  rw [kind_of_isWord h]
  rfl

theorem Ready.pathTail (h : Ready source ⟨r, last⟩) :
    Onward source ⟨r, last⟩ (pathTail last r) :=
  h.onward (reaches_pathTail last r)

/-- An expression of one lexeme that is no string. -/
theorem Ready.spans_leaf {kind : Node.Kind} (h : Ready source c) (hs : c.kind.isSolid = true)
    (hk : kind.isExpression = true) (hq : kind.isString = false) :
    Spans source c.peek.span.start c.advance.lastEnd ⟨kind, c.peek.span, []⟩ := by
  obtain ⟨hlast, hlt, hstart⟩ := h.advance_solid hs
  have hstop := h.advance.ready.reached
  rw [hlast] at hstop ⊢
  exact spans_node hk hq hlt hstart hstop (expressions_nil (Nat.le_of_lt hlt))

/-- An expression from a lexeme up to the place reached. -/
theorem Ready.spans_from {kind : Node.Kind} {ns : List Node} (h : Ready source c)
    (hs : c.kind.isSolid = true) (h₁ : Onward source c.advance c₁) (hk : kind.isExpression = true)
    (hq : kind.isString = false) (hns : Expressions source c.advance.lastEnd c₁.lastEnd ns) :
    Spans source c.peek.span.start c₁.lastEnd ⟨kind, c₁.spanFrom c.peek.span.start, ns⟩ := by
  obtain ⟨hlast, hlt, hstart⟩ := h.advance_solid hs
  have hle := h₁.le
  have hspan : c₁.spanFrom c.peek.span.start = ⟨c.peek.span.start, c₁.lastEnd⟩ := by
    simp only [spanFrom, Span.mk.injEq, true_and]
    omega
  rw [hspan]
  exact spans_node hk hq (by omega) hstart h₁.ready.reached
    (hns.mono (by omega) (Nat.le_refl _))

/-- An expression with an operator before it. -/
theorem Ready.spans_before {kind : Node.Kind} {operand : Node} (h : Ready source c)
    (hs : c.kind.isSolid = true) (h₁ : Onward source c.advance c₁)
    (ho : Spans source c.advance.peek.span.start c₁.lastEnd operand)
    (hk : kind.isExpression = true) (hq : kind.isString = false) :
    Spans source c.peek.span.start c₁.lastEnd
      ⟨kind, c.peek.span.hull operand.span, [operand]⟩ := by
  obtain ⟨hlast, hlt, hstart⟩ := h.advance_solid hs
  have hle := h.advance.ready.lastEnd_le
  have hlt' := ho.lt
  have hspan : c.peek.span.hull operand.span = ⟨c.peek.span.start, c₁.lastEnd⟩ := by
    simp only [Span.hull, ho.start_eq, ho.stop_eq, Span.mk.injEq]
    omega
  rw [hspan]
  exact spans_node hk hq (by omega) hstart h₁.ready.reached (ho.expressions (by omega))

theorem Ready.spans_string {q : Quoting} (h : Ready source c) (hk : c.kind = .str q) :
    Spans source c.peek.span.start c.advance.lastEnd ⟨.string q, c.peek.span, []⟩ := by
  have hs : c.kind.isSolid = true := by
    rw [hk]
    rfl
  obtain ⟨hlast, hlt, hstart⟩ := h.advance_solid hs
  have hstop := h.advance.ready.reached
  rw [hlast] at hstop ⊢
  have hplaced := h.placed _ h.peek_mem
  obtain ⟨content, hcontent⟩ := hplaced.quoted q hk
  have hstands := (hplaced.stands hs).1
  rw [hcontent] at hstands
  refine ⟨laid_iff.2 ⟨⟨Nat.le_of_lt hlt, fun _ => ⟨hlt, hstart, hstop⟩, by simp, by simp, ?_, ?_,
    by simp⟩, row_nil.2 (Nat.le_of_lt hlt)⟩, rfl, rfl, rfl⟩
  · rintro q' ⟨⟩
    exact ⟨rfl, content, hstands⟩
  · simp [Kind.isGuarded]

theorem Ready.nodePath {n : Node} (h : Ready source c) (hs : c.kind.isSolid = true)
    (hp : c.nodePath = .ok (n, c₁)) :
    Onward source c c₁ ∧ Spans source c.peek.span.start c₁.lastEnd n := by
  have ha := h.advance
  have haa := ha.ready.advance
  unfold Cursor.nodePath at hp
  simp only at hp
  split at hp
  · cases hp
    exact ⟨ha.trans haa, h.spans_from hs haa rfl rfl (expressions_nil haa.le)⟩
  · cases hp
    have hon := haa.trans haa.ready.pathTail
    exact ⟨ha.trans hon, h.spans_from hs hon rfl rfl (expressions_nil hon.le)⟩
  · cases hp

theorem Ready.wordExpression {n : Node} (h : Ready source c) (hs : c.kind.isSolid = true)
    (hw : c.wordExpression = .ok (n, c₁)) :
    Onward source c c₁ ∧ Spans source c.peek.span.start c₁.lastEnd n := by
  unfold Cursor.wordExpression at hw
  split at hw
  · cases hw
    exact ⟨h.advance, h.spans_leaf hs rfl rfl⟩
  · split at hw
    · cases hw
    · split at hw
      · cases hw
      · cases hw
        exact ⟨h.advance, h.spans_leaf hs rfl rfl⟩

/-- What a rule promises about the nodes it gives between two cursors. -/
def Lays (source : Text) (c c₁ : Cursor) (ns : List Node) : Rule → Prop
  | .sequence _ | .pairs => Expressions source c.lastEnd c₁.lastEnd ns
  | .binaryTail _ left | .chainTail left => ∀ n start, ns = [n] →
      Spans source start c.lastEnd left → Spans source start c₁.lastEnd n
  | .expression | .binary _ | .operand | .chain | .primary => ∀ n, ns = [n] →
      c.kind.isSolid = true ∧ Spans source c.peek.span.start c₁.lastEnd n

/-- The operator that comes next has text and is passed. -/
theorem Ready.binaryOp? {level : Nat} {op : Text} (h : Ready source c)
    (hop : c.binaryOp? = some (level, op, c₁)) : Onward source c c₁ :=
  h.onward (reaches_binaryOp? hop)

/-- From a cursor that is ready, the rules give nodes that lie as they should. The induction is on
the derivation; a rule that goes on after a left part supposes that the part ends where it begins. -/
theorem Derives.laid {r : Rule} {ns : List Node} (h : Derives r c ns c₁) (hc : Ready source c) :
    Onward source c c₁ ∧ Lays source c c₁ ns r := by
  induction h with
  | value first noIf ih => exact ih hc
  | @ternary c c₁ c₂ c₃ value condition other first hif second helse third ih₁ ih₂ ih₃ =>
    obtain ⟨on₁, lays₁⟩ := ih₁ hc
    obtain ⟨on₂, lays₂⟩ := ih₂ on₁.ready.advance.ready
    obtain ⟨on₃, lays₃⟩ := ih₃ on₂.ready.advance.ready
    obtain ⟨hsolid, hvalue⟩ := lays₁ _ rfl
    obtain ⟨-, hcondition⟩ := lays₂ _ rfl
    obtain ⟨-, hother⟩ := lays₃ _ rfl
    have hif' := on₁.ready.advance
    have helse' := on₂.ready.advance
    refine ⟨on₁.trans (hif'.trans (on₂.trans (helse'.trans on₃))), ?_⟩
    rintro _ ⟨⟩
    refine ⟨hsolid, ?_⟩
    have hmiddle := hcondition.expressions (Nat.le_trans hif'.le hif'.ready.lastEnd_le)
    exact hvalue.around hmiddle hother (Nat.le_trans helse'.le helse'.ready.lastEnd_le) rfl rfl
      on₃.ready.reached
  | binary first rest ih₁ ih₂ | chain first rest ih₁ ih₂ =>
    obtain ⟨on₁, lays₁⟩ := ih₁ hc
    obtain ⟨on₂, lays₂⟩ := ih₂ on₁.ready
    obtain ⟨hsolid, hfirst⟩ := lays₁ _ rfl
    refine ⟨on₁.trans on₂, ?_⟩
    rintro _ ⟨⟩
    exact ⟨hsolid, lays₂ _ _ rfl hfirst⟩
  | binaryEnd hend | chainEnd hend =>
    refine ⟨hc.refl, ?_⟩
    rintro _ start ⟨⟩ hleft
    exact hleft
  | typeOperator hop hlevel htype second rest ih₁ ih₂
  | operator hop hlevel htype second rest ih₁ ih₂ =>
    have hafter := hc.binaryOp? hop
    obtain ⟨on₁, lays₁⟩ := ih₁ hafter.ready
    obtain ⟨on₂, lays₂⟩ := ih₂ on₁.ready
    obtain ⟨-, hright⟩ := lays₁ _ rfl
    refine ⟨hafter.trans (on₁.trans on₂), ?_⟩
    rintro _ start ⟨⟩ hleft
    exact lays₂ _ _ rfl (hleft.hull hright (Nat.le_trans hafter.le hafter.ready.lastEnd_le) rfl rfl
      on₁.ready.reached)
  | @unary c c₁ level operand hlevel inner ih =>
    have hsolid := solid_of_unaryLevel? hlevel
    obtain ⟨on, lays⟩ := ih hc.advance.ready
    refine ⟨hc.advance.trans on, ?_⟩
    rintro _ ⟨⟩
    exact ⟨hsolid, hc.spans_before hsolid on (lays _ rfl).2 rfl rfl⟩
  | @await c c₁ operand hlevel hawait inner ih =>
    have hsolid := solid_of_isWord hawait
    obtain ⟨on, lays⟩ := ih hc.advance.ready
    refine ⟨hc.advance.trans on, ?_⟩
    rintro _ ⟨⟩
    exact ⟨hsolid, hc.spans_before hsolid on (lays _ rfl).2 rfl rfl⟩
  | plain hlevel hawait inner ih => exact ih hc
  | call hopen inner rest ih₁ ih₂ =>
    obtain ⟨on₁, lays₁⟩ := ih₁ hc.advance.ready
    obtain ⟨on₂, lays₂⟩ := ih₂ on₁.ready
    refine ⟨hc.advance.trans (on₁.trans on₂), ?_⟩
    rintro _ start ⟨⟩ hhead
    refine lays₂ _ _ rfl ?_
    exact hhead.goOn rfl rfl (hc.advance.trans on₁).le on₁.ready.reached
      (lays₁.mono hc.advance.le (Nat.le_refl _))
  | member hcall hdot hword rest ih =>
    have hname := hc.advance.trans hc.advance.ready.advance
    obtain ⟨on, lays⟩ := ih hname.ready
    refine ⟨hname.trans on, ?_⟩
    rintro _ start ⟨⟩ hhead
    exact lays _ _ rfl (hhead.goOn rfl rfl hname.le hname.ready.reached (expressions_nil hname.le))
  | subscript hcall hdot hopen inner hclose rest ih₁ ih₂ =>
    obtain ⟨on₁, lays₁⟩ := ih₁ hc.advance.ready
    have hon := hc.advance.trans (on₁.trans on₁.ready.advance)
    obtain ⟨on₂, lays₂⟩ := ih₂ on₁.ready.advance.ready
    refine ⟨hon.trans on₂, ?_⟩
    rintro _ start ⟨⟩ hhead
    refine lays₂ _ _ rfl (hhead.goOn rfl rfl hon.le hon.ready.reached ?_)
    have hindex := (lays₁ _ rfl).2
    exact (hindex.expressions (Nat.le_trans hc.advance.le hc.advance.ready.lastEnd_le)).mono
      (Nat.le_refl _) on₁.ready.advance.le
  | sequenceEnd hclose | pairsEnd hclose => exact ⟨hc.advance, expressions_nil hc.advance.le⟩
  | sequenceMore hclose first hcomma rest ih₁ ih₂ =>
    obtain ⟨on₁, lays₁⟩ := ih₁ hc
    obtain ⟨on₂, lays₂⟩ := ih₂ on₁.ready.advance.ready
    refine ⟨on₁.trans (on₁.ready.advance.trans on₂), ?_⟩
    have hitem := (lays₁ _ rfl).2.expressions hc.lastEnd_le
    exact hitem.append (lays₂.mono on₁.ready.advance.le (Nat.le_refl _))
  | sequenceLast hclose first hcomma hlast ih =>
    obtain ⟨on, lays⟩ := ih hc
    refine ⟨on.trans on.ready.advance, ?_⟩
    exact ((lays _ rfl).2.expressions hc.lastEnd_le).mono (Nat.le_refl _) on.ready.advance.le
  | pairsMore hclose first hmark second hcomma rest ih₁ ih₂ ih₃ =>
    obtain ⟨on₁, lays₁⟩ := ih₁ hc
    obtain ⟨on₂, lays₂⟩ := ih₂ on₁.ready.advance.ready
    obtain ⟨on₃, lays₃⟩ := ih₃ on₂.ready.advance.ready
    have hmark' := on₁.ready.advance
    refine ⟨on₁.trans (hmark'.trans (on₂.trans (on₂.ready.advance.trans on₃))), ?_⟩
    have hpair := (lays₁ _ rfl).2.hull (lays₂ _ rfl).2
      (Nat.le_trans hmark'.le hmark'.ready.lastEnd_le) (k := .pair) rfl rfl on₂.ready.reached
    exact (hpair.expressions hc.lastEnd_le).append
      (lays₃.mono on₂.ready.advance.le (Nat.le_refl _))
  | pairsLast hclose first hmark second hcomma hlast ih₁ ih₂ =>
    obtain ⟨on₁, lays₁⟩ := ih₁ hc
    obtain ⟨on₂, lays₂⟩ := ih₂ on₁.ready.advance.ready
    have hmark' := on₁.ready.advance
    refine ⟨on₁.trans (hmark'.trans (on₂.trans on₂.ready.advance)), ?_⟩
    have hpair := (lays₁ _ rfl).2.hull (lays₂ _ rfl).2
      (Nat.le_trans hmark'.le hmark'.ready.lastEnd_le) (k := .pair) rfl rfl on₂.ready.reached
    exact (hpair.expressions hc.lastEnd_le).mono (Nat.le_refl _) on₂.ready.advance.le
  | @string c q hkind =>
    have hsolid : c.kind.isSolid = true := by
      rw [hkind]
      rfl
    refine ⟨hc.advance, ?_⟩
    rintro _ ⟨⟩
    exact ⟨hsolid, hc.spans_string hkind⟩
  | @number c hkind =>
    have hsolid : c.kind.isSolid = true := by
      rw [hkind]
      rfl
    refine ⟨hc.advance, ?_⟩
    rintro _ ⟨⟩
    exact ⟨hsolid, hc.spans_leaf hsolid rfl rfl⟩
  | @word c c₁ n hkind hword =>
    have hsolid : c.kind.isSolid = true := by
      rw [hkind]
      rfl
    obtain ⟨on, hn⟩ := hc.wordExpression hsolid hword
    refine ⟨on, ?_⟩
    rintro _ ⟨⟩
    exact ⟨hsolid, hn⟩
  | paren hopen first hclose ih =>
    have hsolid := solid_of_isOp hopen
    obtain ⟨on, lays⟩ := ih hc.advance.ready
    have hon := on.trans on.ready.advance
    refine ⟨hc.advance.trans hon, ?_⟩
    rintro _ ⟨⟩
    have hinner := (lays _ rfl).2.expressions hc.advance.ready.lastEnd_le
    exact ⟨hsolid, hc.spans_from hsolid hon rfl rfl (hinner.mono (Nat.le_refl _) on.ready.advance.le)⟩
  | array hopen inner ih | dictionary hopen inner ih =>
    have hsolid := solid_of_isOp hopen
    obtain ⟨on, lays⟩ := ih hc.advance.ready
    refine ⟨hc.advance.trans on, ?_⟩
    rintro _ ⟨⟩
    exact ⟨hsolid, hc.spans_from hsolid on rfl rfl lays⟩
  | @nodePath c c₁ n hopen hpath =>
    have hsolid : c.kind.isSolid = true := by
      rcases Bool.or_eq_true_iff.1 hopen with h | h <;> exact solid_of_isOp h
    obtain ⟨on, hn⟩ := hc.nodePath hsolid hpath
    refine ⟨on, ?_⟩
    rintro _ ⟨⟩
    exact ⟨hsolid, hn⟩
  | parentMember hdot hword =>
    have hsolid := solid_of_isOp hdot
    have hon := hc.advance.ready.advance
    refine ⟨hc.advance.trans hon, ?_⟩
    rintro _ ⟨⟩
    exact ⟨hsolid, hc.spans_from hsolid hon rfl rfl (expressions_nil hon.le)⟩

end Cursor

end Phrasebook
