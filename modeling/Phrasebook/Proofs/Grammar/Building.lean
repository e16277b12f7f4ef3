import Phrasebook.Grammar.Builder
import Phrasebook.Proofs.Arena
import Phrasebook.Proofs.Outcomes

/-!
The table that the rules of expressions build.

At every table a rule of the builder follows the rule of trees (`Builder.FollowsWithin`): they fail
together, and where the one gives a tree, the other leaves the table with this tree stored and gives the
place of its root. A rule that goes on behind a node finds this node stored already, so that the table
is one with the finished tree in it, and nothing else.
-/
namespace Phrasebook

open Node (store storeAll cells)

namespace Node

variable {n : Node} {ns ms : List Node} {a b : Arena}

/-- Where the root of a tree comes to be when the tree is stored. -/
def place (n : Node) (a : Arena) : Nat := (n.store a).length - 1

theorem storeAll_eq (ns : List Node) (a : Arena) :
    storeAll ns a = (roots a.length ns, a ++ cellsAll none a.length ns) :=
  storeAll_eq_of (fun n _ a => n.store_eq a) a

theorem prefix_store (n : Node) (a : Arena) : a <+: n.store a := by
  rw [store_eq]
  exact List.prefix_append _ _

theorem prefix_storeAll (ns : List Node) (a : Arena) : a <+: (storeAll ns a).2 := by
  rw [storeAll_eq]
  exact List.prefix_append _ _

theorem storeAll_append (ns ms : List Node) (a : Arena) :
    storeAll (ns ++ ms) a =
      ((storeAll ns a).1 ++ (storeAll ms (storeAll ns a).2).1,
        (storeAll ms (storeAll ns a).2).2) := by
  induction ns generalizing a with
  | nil => rfl
  | cons n ns ih => simp only [List.cons_append, storeAll, ih]

/-- The span of a tree is found in every table that goes on behind it. -/
theorem spanOf_place (h : n.store a <+: b) : b.spanOf (n.place a) = n.span := by
  obtain ⟨rest, rfl⟩ := h
  have hroot : (n.store a ++ rest)[a.length + countAll n.children]? =
      some ⟨n.kind, n.span, none, roots a.length n.children⟩ := getElem?_root (by rw [store_eq])
  have hplace : n.place a = a.length + countAll n.children := by
    rw [place, store_eq, List.length_append, length_cells, count_eq]
    rfl
  rw [Arena.spanOf, hplace, hroot]
  rfl

end Node

namespace Builder

open Grammar

variable {α β γ δ : Type} {x : Builder α} {y : Except ParseError β} {f : β → α × Arena}
  {k : α → Builder γ} {l : β → Except ParseError δ} {g : δ → γ × Arena} {a b : Arena} {fuel : Nat}

/-- What the builder has when the rule of trees has a tree. -/
def one (a : Arena) (r : Node × Cursor) : (Nat × Cursor) × Arena := ((r.1.place a, r.2), r.1.store a)

/-- What the builder has when the rule of trees has several trees. -/
def all (a : Arena) (r : List Node × Cursor) : (List Nat × Cursor) × Arena :=
  (((storeAll r.1 a).1, r.2), (storeAll r.1 a).2)

/-- Two rules in a row follow two rules of trees in a row. -/
theorem run_bind_of (hx : x.run a = y.map f)
    (hk : ∀ r, (k (f r).1).run (f r).2 = (l r).map g) : (x >>= k).run a = (y >>= l).map g := by
  rw [StateT.run_bind, hx]
  cases y with
  | error e => rfl
  | ok r => exact hk r

theorem run_ite_of {p : Prop} [Decidable p] {x' : Builder α} {y' : Except ParseError β}
    (ht : x.run a = y.map f) (he : x'.run a = y'.map f) :
    (if p then x else x').run a = (if p then y else y').map f := by
  split <;> assumption

/-- One of two rules, and then the same rule after either. -/
theorem run_ite_bind_of {p : Prop} [Decidable p] {x' : Builder α} {y' : Except ParseError β}
    (ht : x.run a = y.map f) (he : x'.run a = y'.map f)
    (hk : ∀ r, (k (f r).1).run (f r).2 = (l r).map g) :
    (if p then x >>= k else x' >>= k).run a = (if p then y >>= l else y' >>= l).map g :=
  run_ite_of (run_bind_of ht hk) (run_bind_of he hk)

/-- A step that builds nothing leaves the table. -/
theorem run_lift (y : Except ParseError α) (a : Arena) :
    (liftM y : Builder α).run a = y.map fun r => (r, a) := by
  cases y <;> rfl

theorem run_spanOf_bind (i : Nat) (k : Span → Builder γ) (a : Arena) :
    (spanOf i >>= k).run a = (k (a.spanOf i)).run a := rfl

section

variable {kind : Node.Kind} {span : Span} {ids : List Nat}

/-- Adding a node whose children have just been stored stores the tree. -/
theorem run_add (ns : List Node) (h : storeAll ns a = (ids, b)) :
    (add kind span ids).run b =
      .ok ((⟨kind, span, ns⟩ : Node).place a, (⟨kind, span, ns⟩ : Node).store a) := by
  have hstore : (⟨kind, span, ns⟩ : Node).store a = b.add kind span ids := by
    rw [store, h]
  rw [Node.place, hstore, Arena.length_add]
  rfl

theorem run_add_bind (ns : List Node) (h : storeAll ns a = (ids, b)) (k : Nat → Builder γ) :
    (add kind span ids >>= k).run b = (k ((⟨kind, span, ns⟩ : Node).place a)).run
      ((⟨kind, span, ns⟩ : Node).store a) := by
  rw [StateT.run_bind, run_add ns h]
  rfl

theorem run_node (ns : List Node) (h : storeAll ns a = (ids, b)) (c : Cursor) :
    (add kind span ids >>= fun i => pure (i, c)).run b =
      (Except.ok (⟨kind, span, ns⟩, c)).map (one a) :=
  run_add_bind ns h _

/-- A node without children. -/
theorem run_addLeaf {leaf : Except ParseError (Node × Cursor)}
    (h : ∀ r, leaf = .ok r → r.1.children = []) (a : Arena) :
    (addLeaf leaf).run a = leaf.map (one a) := by
  cases leaf with
  | error e => rfl
  | ok r =>
    obtain ⟨⟨kind, span, children⟩, c⟩ := r
    obtain rfl : children = [] := h _ rfl
    exact run_node (a := a) [] rfl c

end

/-! Leaves have no children. -/

theorem children_of_wordExpression {c : Cursor} {r : Node × Cursor}
    (h : c.wordExpression = .ok r) : r.1.children = [] := by
  unfold Cursor.wordExpression Cursor.leaf at h
  split at h
  · cases h
    rfl
  · split at h
    · cases h
    · split at h <;> cases h
      rfl

theorem children_of_nodePath {c : Cursor} {r : Node × Cursor} (h : c.nodePath = .ok r) :
    r.1.children = [] := by
  unfold Cursor.nodePath at h
  dsimp only at h
  split at h <;> cases h <;> rfl

theorem children_of_parentMember {c : Cursor} {r : Node × Cursor} (h : c.parentMember = .ok r) :
    r.1.children = [] := by
  obtain ⟨name, -, h⟩ := bind_ok_iff.1 h
  cases h
  rfl

/-- What the rules of expressions add within a bound on their nesting. -/
structure FollowsWithin (fuel : Nat) : Prop where
  expression : ∀ c a, (expressionIn fuel c).run a = (Cursor.expressionIn fuel c).map (one a)
  binary : ∀ level c a, (binaryIn fuel level c).run a = (Cursor.binaryIn fuel level c).map (one a)
  binaryTail : ∀ level (left : Node) c a,
    (binaryTailIn fuel level (left.place a) c).run (left.store a) =
      (Cursor.binaryTailIn fuel level left c).map (one a)
  operand : ∀ c a, (operandIn fuel c).run a = (Cursor.operandIn fuel c).map (one a)
  chain : ∀ c a, (chainIn fuel c).run a = (Cursor.chainIn fuel c).map (one a)
  chainTail : ∀ (head : Node) c a, (chainTailIn fuel (head.place a) c).run (head.store a) =
    (Cursor.chainTailIn fuel head c).map (one a)
  sequence : ∀ close c a, (sequenceIn fuel close c).run a =
    (Cursor.sequenceIn fuel close c).map (all a)
  pairs : ∀ c a, (pairsIn fuel c).run a = (Cursor.pairsIn fuel c).map (all a)
  primary : ∀ c a, (primaryIn fuel c).run a = (Cursor.primaryIn fuel c).map (one a)

namespace FollowsWithin

theorem expressionIn_succ (ih : FollowsWithin fuel) (c : Cursor) (a : Arena) :
    (expressionIn (fuel + 1) c).run a = (Cursor.expressionIn (fuel + 1) c).map (one a) := by
  rw [expressionIn, Cursor.expressionIn]
  refine run_bind_of (ih.binary 1 c a) ?_
  rintro ⟨value, c⟩
  refine run_ite_of ?_ rfl
  refine run_bind_of (ih.binary 1 c.advance _) ?_
  rintro ⟨condition, c⟩
  refine run_ite_of ?_ rfl
  refine run_bind_of (ih.expression c.advance _) ?_
  rintro ⟨other, c⟩
  have hvalue : value.store a <+: other.store (condition.store (value.store a)) :=
    (condition.prefix_store _).trans (other.prefix_store _)
  simp only [one, run_spanOf_bind, Node.spanOf_place hvalue,
    Node.spanOf_place (List.prefix_refl (other.store _))]
  exact run_node (a := a) [value, condition, other] rfl c

theorem binaryIn_succ (ih : FollowsWithin fuel) (level : Nat) (c : Cursor) (a : Arena) :
    (binaryIn (fuel + 1) level c).run a = (Cursor.binaryIn (fuel + 1) level c).map (one a) := by
  rw [binaryIn, Cursor.binaryIn]
  refine run_bind_of (ih.operand c a) ?_
  rintro ⟨left, c⟩
  exact ih.binaryTail level left c a

theorem binaryTailIn_succ (ih : FollowsWithin fuel) (level : Nat) (left : Node) (c : Cursor)
    (a : Arena) : (binaryTailIn (fuel + 1) level (left.place a) c).run (left.store a) =
      (Cursor.binaryTailIn (fuel + 1) level left c).map (one a) := by
  rw [binaryTailIn, Cursor.binaryTailIn]
  cases c.binaryOp? with
  | none => rfl
  | some found =>
    obtain ⟨opLevel, op, after⟩ := found
    refine run_ite_of rfl ?_
    refine run_ite_bind_of (ih.chain after _) (ih.binary _ after _) ?_
    rintro ⟨right, c⟩
    simp only [one, run_spanOf_bind, Node.spanOf_place (right.prefix_store (left.store a)),
      Node.spanOf_place (List.prefix_refl (right.store _))]
    exact (run_add_bind (a := a) [left, right] rfl _).trans (ih.binaryTail level _ c a)

theorem operandIn_succ (ih : FollowsWithin fuel) (c : Cursor) (a : Arena) :
    (operandIn (fuel + 1) c).run a = (Cursor.operandIn (fuel + 1) c).map (one a) := by
  rw [operandIn, Cursor.operandIn]
  dsimp only
  cases unaryLevel? c.peek with
  | some level =>
    refine run_bind_of (ih.binary level c.advance a) ?_
    rintro ⟨operand, c⟩
    simp only [one, run_spanOf_bind, Node.spanOf_place (List.prefix_refl (operand.store _))]
    exact run_node (a := a) [operand] rfl c
  | none =>
    refine run_ite_of ?_ (ih.chain c a)
    refine run_bind_of (ih.chain c.advance a) ?_
    rintro ⟨operand, c⟩
    simp only [one, run_spanOf_bind, Node.spanOf_place (List.prefix_refl (operand.store _))]
    exact run_node (a := a) [operand] rfl c

theorem chainIn_succ (ih : FollowsWithin fuel) (c : Cursor) (a : Arena) :
    (chainIn (fuel + 1) c).run a = (Cursor.chainIn (fuel + 1) c).map (one a) := by
  rw [chainIn, Cursor.chainIn]
  refine run_bind_of (ih.primary c a) ?_
  rintro ⟨head, c⟩
  exact ih.chainTail head c a

theorem chainTailIn_succ (ih : FollowsWithin fuel) (head : Node) (c : Cursor) (a : Arena) :
    (chainTailIn (fuel + 1) (head.place a) c).run (head.store a) =
      (Cursor.chainTailIn (fuel + 1) head c).map (one a) := by
  rw [chainTailIn, Cursor.chainTailIn]
  refine run_ite_of ?_ (run_ite_of ?_ (run_ite_of ?_ rfl))
  · refine run_bind_of (ih.sequence ")" c.advance _) ?_
    rintro ⟨arguments, c⟩
    have hhead := Node.spanOf_place (Node.prefix_storeAll arguments (head.store a))
    simp only [all, run_spanOf_bind, hhead]
    exact (run_add_bind (a := a) (head :: arguments) rfl _).trans (ih.chainTail _ c a)
  · refine run_bind_of (run_lift _ _) ?_
    rintro ⟨name, c⟩
    simp only [run_spanOf_bind, Node.spanOf_place (List.prefix_refl (head.store a))]
    exact (run_add_bind (a := a) [head] rfl _).trans (ih.chainTail _ c a)
  · refine run_bind_of (ih.expression c.advance _) ?_
    rintro ⟨index, c⟩
    refine run_bind_of (run_lift _ _) fun c => ?_
    simp only [one, run_spanOf_bind, Node.spanOf_place (index.prefix_store (head.store a))]
    exact (run_add_bind (a := a) [head, index] rfl _).trans (ih.chainTail _ c a)

theorem sequenceIn_succ (ih : FollowsWithin fuel) (close : String) (c : Cursor) (a : Arena) :
    (sequenceIn (fuel + 1) close c).run a =
      (Cursor.sequenceIn (fuel + 1) close c).map (all a) := by
  rw [sequenceIn, Cursor.sequenceIn]
  refine run_ite_of rfl ?_
  refine run_bind_of (ih.expression c a) ?_
  rintro ⟨item, c⟩
  refine run_ite_of ?_ ?_
  · exact run_bind_of (ih.sequence close c.advance _) fun _ => rfl
  · exact run_bind_of (run_lift _ _) fun c => rfl

theorem pairsIn_succ (ih : FollowsWithin fuel) (c : Cursor) (a : Arena) :
    (pairsIn (fuel + 1) c).run a = (Cursor.pairsIn (fuel + 1) c).map (all a) := by
  rw [pairsIn, Cursor.pairsIn]
  refine run_ite_of rfl ?_
  refine run_bind_of (ih.expression c a) ?_
  rintro ⟨key, c⟩
  refine run_ite_of ?_ rfl
  refine run_bind_of (ih.expression c.advance _) ?_
  rintro ⟨value, c⟩
  simp only [one, run_spanOf_bind, Node.spanOf_place (value.prefix_store (key.store a)),
    Node.spanOf_place (List.prefix_refl (value.store _))]
  refine (run_add_bind (a := a) [key, value] rfl _).trans (run_ite_of ?_ ?_)
  · exact run_bind_of (ih.pairs c.advance _) fun _ => rfl
  · exact run_bind_of (run_lift _ _) fun c => rfl

theorem primaryIn_succ (ih : FollowsWithin fuel) (c : Cursor) (a : Arena) :
    (primaryIn (fuel + 1) c).run a = (Cursor.primaryIn (fuel + 1) c).map (one a) := by
  rw [primaryIn, Cursor.primaryIn]
  cases c.kind with
  | str q => exact run_addLeaf (by simp [Cursor.leaf]) a
  | number => exact run_addLeaf (by simp [Cursor.leaf]) a
  | word => exact run_addLeaf (fun _ => children_of_wordExpression) a
  | op =>
    refine run_ite_of ?_ (run_ite_of ?_ (run_ite_of ?_ (run_ite_of ?_ (run_ite_of ?_ rfl))))
    · refine run_bind_of (ih.expression c.advance a) ?_
      rintro ⟨inner, c⟩
      refine run_bind_of (run_lift _ _) fun c => ?_
      exact run_node (a := a) [inner] rfl c
    · refine run_bind_of (ih.sequence "]" c.advance a) ?_
      rintro ⟨items, c⟩
      exact run_node (a := a) items rfl c
    · refine run_bind_of (ih.pairs c.advance a) ?_
      rintro ⟨pairs, c⟩
      exact run_node (a := a) pairs rfl c
    · exact run_addLeaf (fun _ => children_of_nodePath) a
    · exact run_addLeaf (fun _ => children_of_parentMember) a
  | newline => rfl
  | indent => rfl
  | dedent => rfl
  | eof => rfl

end FollowsWithin

theorem followsWithin (fuel : Nat) : FollowsWithin fuel := by
  induction fuel with
  | zero =>
    constructor <;> intros <;>
      simp only [expressionIn, binaryIn, binaryTailIn, operandIn, chainIn, chainTailIn, sequenceIn,
        pairsIn, primaryIn, Cursor.expressionIn, Cursor.binaryIn, Cursor.binaryTailIn,
        Cursor.operandIn, Cursor.chainIn, Cursor.chainTailIn, Cursor.sequenceIn, Cursor.pairsIn,
        Cursor.primaryIn] <;>
      rfl
  | succ fuel ih =>
    exact ⟨ih.expressionIn_succ, ih.binaryIn_succ, ih.binaryTailIn_succ, ih.operandIn_succ,
      ih.chainIn_succ, ih.chainTailIn_succ, ih.sequenceIn_succ, ih.pairsIn_succ, ih.primaryIn_succ⟩

end Builder

end Phrasebook
