import Mathlib.Data.List.Forall2
import Mathlib.Order.MinMax
import Phrasebook.Proofs.Layout

/-!
The shape of trees, and trees carried over to other places.

`Node.Kind.takes` says which kinds of children a kind of node has, and how many. A `Shift` carries the
places of one text over to another in the same order. Two nodes are `Node.Alike` if one is the other
with its places carried over; all below them have the children that their kinds take, begin and end at
places of the shift, and are literals of the text if they are strings.
-/
namespace Phrasebook

namespace Node

namespace Kind

/-- Whether this is an expression that may stand by itself. A pair stands in a dictionary only. -/
def isOperand (k : Kind) : Bool := k.isExpression && k != .pair

/-- Whether this is a statement that may stand by itself. A branch stands in its conditional only. -/
def isItem (k : Kind) : Bool := k.isStatement && !k.isBranch && k != .matchBranch

/-- Whether there are branches with conditions and, if any, one without after them. -/
def isElseRow : List Kind → Bool
  | [] => true
  | [.branch .elseBranch] => true
  | .branch .elifBranch :: more => isElseRow more
  | _ => false

/-- Whether one of `first` comes first, and only such of `more` come after it. -/
def isHeaded (first more : Kind → Bool) : List Kind → Bool
  | [] => false
  | k :: ks => first k && ks.all more

/-- Whether these are the kinds of the children of a node of a given kind. -/
def takes : Kind → List Kind → Bool
  | .script, ks | .funcDecl _, ks | .classDecl _, ks | .branch .elseBranch, ks => ks.all isItem
  | .branch .ifBranch, ks | .branch .elifBranch, ks | .forStmt, ks | .whileStmt, ks =>
    isHeaded isOperand isItem ks
  | .ifStmt, ks => ks.head? == some (.branch .ifBranch) && isElseRow ks.tail
  | .matchStmt, ks => isHeaded isOperand (· == .matchBranch) ks
  | .matchBranch, ks => isHeaded (· == .pattern) isItem ks
  | .varDecl _, ks | .returnStmt, ks | .member _, ks => ks.length ≤ 1 && ks.all isOperand
  | .exprStmt, ks | .unary _, ks | .paren, ks | .await, ks => ks.length == 1 && ks.all isOperand
  | .assign _, ks | .index, ks | .pair, ks | .binary _, ks => ks.length == 2 && ks.all isOperand
  | .ternary, ks => ks.length == 3 && ks.all isOperand
  | .call, ks => isHeaded isOperand isOperand ks
  | .array, ks => ks.all isOperand
  | .dictionary, ks => ks.all (· == .pair)
  | .extendsDecl, ks | .classNameDecl, ks | .signalDecl, ks | .enumDecl, ks | .constDecl, ks
  | .keywordStmt, ks | .pattern, ks | .string _, ks | .number, ks | .literal, ks | .identifier, ks
  | .nodePath, ks => ks.isEmpty

end Kind

end Node

/-- A way to carry the places of one text over to another. The start of the text and the places that
matter keep their order; the literals of the text are known. -/
structure Shift where
  carry : Nat → Nat
  places : Set Nat
  literals : Set (Span × Quoting)
  mono : StrictMonoOn carry (insert 0 places)

namespace Shift

variable (φ : Shift) {x y : Nat}

/-- No place moves. -/
def still (places : Set Nat) : Shift := ⟨id, places, Set.univ, strictMonoOn_id⟩

variable {φ}

theorem carry_max (hx : x ∈ insert 0 φ.places) (hy : y ∈ insert 0 φ.places) :
    φ.carry (max x y) = max (φ.carry x) (φ.carry y) :=
  φ.mono.monotoneOn.map_max hx hy

theorem carry_min (hx : x ∈ insert 0 φ.places) (hy : y ∈ insert 0 φ.places) :
    φ.carry (min x y) = min (φ.carry x) (φ.carry y) :=
  φ.mono.monotoneOn.map_min hx hy

theorem carry_eq_iff (hx : x ∈ insert 0 φ.places) (hy : y ∈ insert 0 φ.places) :
    φ.carry x = φ.carry y ↔ x = y :=
  ⟨fun h => φ.mono.injOn hx hy h, congrArg _⟩

theorem max_mem (hx : x ∈ insert 0 φ.places) (hy : y ∈ insert 0 φ.places) :
    max x y ∈ insert 0 φ.places := by
  rcases max_choice x y with h | h <;> rwa [h]

theorem min_mem (hx : x ∈ φ.places) (hy : y ∈ φ.places) : min x y ∈ φ.places := by
  rcases min_choice x y with h | h <;> rwa [h]

end Shift

namespace Span

/-- The span with both ends carried over. -/
def moved (f : Nat → Nat) (a : Span) : Span := ⟨f a.start, f a.stop⟩

@[simp] theorem moved_start (f : Nat → Nat) (a : Span) : (a.moved f).start = f a.start := rfl

@[simp] theorem moved_stop (f : Nat → Nat) (a : Span) : (a.moved f).stop = f a.stop := rfl

/-- A span that begins at a place of the shift, and ends at one or at the start of the text. -/
structure Within (φ : Shift) (a : Span) : Prop where
  start : a.start ∈ φ.places
  stop : a.stop ∈ insert 0 φ.places

variable {φ : Shift} {a b : Span}

theorem Within.hull (ha : a.Within φ) (hb : b.Within φ) : (a.hull b).Within φ :=
  ⟨Shift.min_mem ha.start hb.start, Shift.max_mem ha.stop hb.stop⟩

theorem Within.moved_hull (ha : a.Within φ) (hb : b.Within φ) :
    (a.hull b).moved φ.carry = (a.moved φ.carry).hull (b.moved φ.carry) := by
  simp only [Span.hull, Span.moved, Span.mk.injEq]
  exact ⟨Shift.carry_min (.inr ha.start) (.inr hb.start), Shift.carry_max ha.stop hb.stop⟩

end Span

namespace Lexeme

/-- One lexeme is the other carried over, where a string may have another content. -/
structure Moved (f : Nat → Nat) (l l' : Lexeme) : Prop where
  kind : l'.kind = l.kind
  span : l'.span = l.span.moved f
  text : (∀ q, l.kind ≠ .str q) → l'.text = l.text

variable {f : Nat → Nat} {l l' : Lexeme}

theorem Moved.isOp (h : Moved f l l') (op : String) : l'.isOp op = l.isOp op := by
  by_cases hk : l.kind = .op
  · rw [Lexeme.isOp, Lexeme.isOp, h.kind, h.text (by simp [hk])]
  · rw [Lexeme.isOp, Lexeme.isOp, h.kind, beq_eq_false_iff_ne.2 hk]
    rfl

theorem Moved.isWord (h : Moved f l l') (w : String) : l'.isWord w = l.isWord w := by
  by_cases hk : l.kind = .word
  · rw [Lexeme.isWord, Lexeme.isWord, h.kind, h.text (by simp [hk])]
  · rw [Lexeme.isWord, Lexeme.isWord, h.kind, beq_eq_false_iff_ne.2 hk]
    rfl

theorem Moved.opens (h : Moved f l l') : l'.opens = l.opens := by
  simp only [Lexeme.opens, h.isOp]

theorem Moved.closes (h : Moved f l l') : l'.closes = l.closes := by
  simp only [Lexeme.closes, h.isOp]

end Lexeme

namespace Node

mutual

/-- The tree with all spans carried over. -/
def moved (f : Nat → Nat) : Node → Node
  | ⟨kind, span, children⟩ => ⟨kind, span.moved f, movedAll f children⟩

def movedAll (f : Nat → Nat) : List Node → List Node
  | [] => []
  | n :: ns => n.moved f :: movedAll f ns

end

variable {f : Nat → Nat} {n : Node} {ns : List Node}

theorem movedAll_eq_map (ns : List Node) : movedAll f ns = ns.map (moved f) := by
  induction ns with
  | nil => rfl
  | cons n ns ih => rw [movedAll, ih, List.map_cons]

theorem moved_mk (kind : Kind) (span : Span) (children : List Node) :
    (⟨kind, span, children⟩ : Node).moved f = ⟨kind, span.moved f, children.map (moved f)⟩ := by
  rw [moved, movedAll_eq_map]

@[simp] theorem moved_span (n : Node) : (n.moved f).span = n.span.moved f := by
  cases n
  rw [moved]

@[simp] theorem moved_kind (n : Node) : (n.moved f).kind = n.kind := by
  cases n
  rw [moved]

/-- A node whose span is within the shift and whose children are such as its kind takes. -/
structure Formed (φ : Shift) (n : Node) : Prop where
  within : n.span.Within φ
  takes : n.kind.takes (n.children.map (·.kind)) = true
  literal : ∀ q, n.kind = .string q → (n.span, q) ∈ φ.literals

/-- One node is the other carried over, of the given sort, and all below them are formed. -/
structure Alike (φ : Shift) (sort : Kind → Bool) (n n' : Node) : Prop where
  eq : n' = n.moved φ.carry
  formed : ∀ m ∈ n.preorder, m.Formed φ
  sort : sort n.kind = true

variable {φ : Shift} {sort sort' : Kind → Bool} {n' : Node} {ns' : List Node}

theorem self_mem_preorder (n : Node) : n ∈ n.preorder := by
  cases n
  rw [preorder]
  exact List.mem_cons_self

theorem Alike.within (h : Alike φ sort n n') : n.span.Within φ :=
  (h.formed n (self_mem_preorder n)).within

theorem Alike.span (h : Alike φ sort n n') : n'.span = n.span.moved φ.carry := by
  rw [h.eq, moved_span]

theorem Alike.weaken (h : Alike φ sort n n') (hs : ∀ k, sort k = true → sort' k = true) :
    Alike φ sort' n n' :=
  ⟨h.eq, h.formed, hs _ h.sort⟩

/-- Nodes in a row that are alike. -/
abbrev AlikeAll (φ : Shift) (sort : Kind → Bool) (ns ns' : List Node) : Prop :=
  List.Forall₂ (Alike φ sort) ns ns'

theorem AlikeAll.weaken (h : AlikeAll φ sort ns ns') (hs : ∀ k, sort k = true → sort' k = true) :
    AlikeAll φ sort' ns ns' :=
  h.imp fun _ _ h => h.weaken hs

theorem AlikeAll.all_sort (h : AlikeAll φ sort ns ns') : (ns.map (·.kind)).all sort = true := by
  induction h with
  | nil => rfl
  | cons hn _ ih => simpa [hn.sort] using ih

theorem AlikeAll.eq_map (h : AlikeAll φ sort ns ns') : ns' = ns.map (moved φ.carry) := by
  induction h with
  | nil => rfl
  | cons hn _ ih => rw [List.map_cons, ← ih, hn.eq]

theorem AlikeAll.formed (h : AlikeAll φ sort ns ns') : ∀ m ∈ preorderAll ns, m.Formed φ := by
  induction h with
  | nil => simp [preorderAll]
  | cons hn _ ih =>
    rw [preorderAll]
    exact List.forall_mem_append.2 ⟨hn.formed, ih⟩

theorem Kind.not_string {kind : Kind} (h : kind.isString = false) (q : Quoting) :
    kind ≠ .string q := by
  rintro rfl
  cases h

/-- Nodes of alike children are alike. -/
theorem alike_mk {kind : Kind} {span span' : Span} (hs : sort' kind = true)
    (hspan : span.Within φ) (hmoved : span' = span.moved φ.carry) (hns : AlikeAll φ sort ns ns')
    (htakes : kind.takes (ns.map (·.kind)) = true) (hq : kind.isString = false) :
    Alike φ sort' ⟨kind, span, ns⟩ ⟨kind, span', ns'⟩ where
  eq := by rw [moved_mk, hmoved, hns.eq_map]
  formed := by
    rw [preorder]
    exact List.forall_mem_cons.2
      ⟨⟨hspan, htakes, fun q h => absurd h (Kind.not_string hq q)⟩, hns.formed⟩
  sort := hs

theorem alike_leaf {kind : Kind} {span span' : Span} (hs : sort kind = true)
    (hspan : span.Within φ) (hmoved : span' = span.moved φ.carry) (htakes : kind.takes [] = true)
    (hq : kind.isString = false) :
    Alike φ sort ⟨kind, span, []⟩ ⟨kind, span', []⟩ :=
  alike_mk hs hspan hmoved (.nil : AlikeAll φ sort [] []) htakes hq

/-- A string literal of the text. -/
theorem alike_string {q : Quoting} {span span' : Span} (hs : sort (.string q) = true)
    (hspan : span.Within φ) (hmoved : span' = span.moved φ.carry)
    (hliteral : (span, q) ∈ φ.literals) :
    Alike φ sort ⟨.string q, span, []⟩ ⟨.string q, span', []⟩ where
  eq := by rw [moved_mk, hmoved, List.map_nil]
  formed := by
    rw [preorder, preorderAll]
    refine List.forall_mem_cons.2 ⟨⟨hspan, rfl, ?_⟩, by simp⟩
    rintro q ⟨⟩
    exact hliteral
  sort := hs

theorem AlikeAll.append {ms ms' : List Node} (h : AlikeAll φ sort ns ns')
    (h' : AlikeAll φ sort ms ms') : AlikeAll φ sort (ns ++ ms) (ns' ++ ms') :=
  List.rel_append h h'

/-- A node whose first child is of another sort than the others. -/
theorem alike_headed {kind : Kind} {span span' : Span} (hs : sort' kind = true)
    (hspan : span.Within φ) (hmoved : span' = span.moved φ.carry) {first : Kind → Bool}
    (hn : Alike φ first n n') (hns : AlikeAll φ sort ns ns')
    (htakes : ∀ ks, kind.takes ks = Kind.isHeaded first sort ks)
    (hq : kind.isString = false) :
    Alike φ sort' ⟨kind, span, n :: ns⟩ ⟨kind, span', n' :: ns'⟩ := by
  have hall : AlikeAll φ (fun _ => true) (n :: ns) (n' :: ns') :=
    .cons (hn.weaken fun _ _ => rfl) (hns.weaken fun _ _ => rfl)
  refine alike_mk hs hspan hmoved hall ?_ hq
  rw [htakes, List.map_cons, Kind.isHeaded, hn.sort, hns.all_sort]
  rfl

end Node

end Phrasebook
