import Phrasebook.Proofs.Candidates

/-!
The finds of a script are those of its statements.

Of its ancestors a node only sees calls, pairs and subscripts, so a script above it makes no
difference (`Finds.ofNode_under`). Hence `Tree.finds_eq_flatMap`: in a statement the same is found
whatever script it is in.
-/
namespace Phrasebook

namespace Node

/-- A node with a further ancestor above all others. -/
def Located.under (top : Node × Nat) (n : Located) : Located := ⟨n.node, n.above ++ [top]⟩

theorem locate_under (top : Node × Nat) (n : Node) (above : List (Node × Nat)) :
    n.locate (above ++ [top]) = (n.locate above).map (·.under top) := by
  induction n using childrenFirst generalizing above with
  | h n ih =>
    obtain ⟨kind, span, children⟩ := n
    rw [Finds.locate_cons, Finds.locate_cons, locateAll_eq_flatMap, locateAll_eq_flatMap,
      List.map_cons, List.map_flatMap]
    refine congrArg _ (List.flatMap_congr fun p hp => ?_)
    exact ih p.1 (List.fst_mem_of_mem_zipIdx hp) ((_, p.2) :: above)

end Node

namespace Finds

variable {rules : CallRules} {source context : Text} {top : Node × Nat} {n : Node.Located}

theorem isName_under (htop : top.1.kind = .script) : isName (n.under top) = isName n := by
  obtain ⟨node, above⟩ := n
  cases above with
  | nil => simp [isName, Node.Located.under, htop]
  | cons p above => rfl

theorem isSkipped_under (htop : top.1.kind = .script) :
    isSkipped rules source (n.under top) = isSkipped rules source n := by
  simp [isSkipped, Node.Located.under, htop]

theorem isText_under (htop : top.1.kind = .script) :
    isText rules source (n.under top) = isText rules source n := by
  rw [isText, isText, isName_under htop, isSkipped_under htop]
  rfl

theorem stringsOf_under : stringsOf (n.under top) = (stringsOf n).map (·.under top) := by
  have hlocate : (n.under top).node.locate (n.under top).above =
      (n.node.locate n.above).map (·.under top) := Node.locate_under top n.node n.above
  rw [stringsOf, hlocate, List.filter_map]
  rfl

theorem literal_under (htop : top.1.kind = .script) :
    literal rules source context (n.under top) = literal rules source context n := by
  rw [literal, literal, isText_under htop]
  rfl

theorem literals_under (htop : top.1.kind = .script) :
    literals rules source context (n.under top) = literals rules source context n := by
  rw [literals, literals, stringsOf_under, List.flatMap_map]
  exact List.flatMap_congr fun lit _ => literal_under htop

theorem whole_under (htop : top.1.kind = .script) (form : Site.Form) (context : Option Text) :
    whole rules source form context (n.under top) = whole rules source form context n := by
  have hany : (stringsOf (n.under top)).any (isText rules source) =
      (stringsOf n).any (isText rules source) := by
    rw [stringsOf_under, List.any_map]
    refine congrArg (List.any _) (funext fun lit => ?_)
    exact isText_under htop
  rw [whole, whole, hany]
  rfl

/-- By induction on the tree, and within a call on the arguments. -/
theorem call_under (htop : top.1.kind = .script) (context : Text) (n : Node)
    (above : List (Node × Nat)) :
    call rules source context (above ++ [top]) n = call rules source context above n := by
  induction n using Node.childrenFirst generalizing above with
  | h n ih =>
    obtain ⟨kind, span, children⟩ := n
    cases children with
    | nil => simp only [call]
    | cons callee args =>
      have harguments (n : Node) (i : Nat) (rest : List Node) (hrest : ∀ arg ∈ rest, arg ∈ args) :
          arguments rules source context n (above ++ [top]) i rest =
            arguments rules source context n above i rest := by
        induction rest generalizing i with
        | nil => simp only [arguments]
        | cons arg rest ih' =>
          have hmore := ih' (i + 1) fun a ha => hrest a (List.mem_cons_of_mem _ ha)
          have harg := ih arg (List.mem_cons_of_mem _ (hrest arg List.mem_cons_self))
            ((n, i + 1) :: above)
          have hhere : (⟨arg, (n, i + 1) :: (above ++ [top])⟩ : Node.Located) =
              Node.Located.under top ⟨arg, (n, i + 1) :: above⟩ := rfl
          simp only [arguments, hmore, hhere, literal_under htop, literals_under htop,
            whole_under htop]
          refine congrArg (· ++ _) ?_
          split
          · rfl
          · split
            · rfl
            · rfl
            · exact harg
            · rfl
      have hcallee (n : Node) : (⟨callee, (n, 0) :: (above ++ [top])⟩ : Node.Located) =
          Node.Located.under top ⟨callee, (n, 0) :: above⟩ := rfl
      simp only [call, hcallee, literals_under htop, harguments _ 0 args fun _ ha => ha]

theorem statement_under (htop : top.1.kind = .script) :
    statement rules source (n.under top) = statement rules source n := by
  have hnode : (n.under top).node = n.node := rfl
  unfold statement
  rw [hnode]
  cases n.node.value? with
  | none => rfl
  | some value =>
    have hinner : (⟨value, (n.node, 0) :: (n.under top).above⟩ : Node.Located) =
        Node.Located.under top ⟨value, (n.node, 0) :: n.above⟩ := rfl
    have hcall : call rules source (n.node.text source) ((n.node, 0) :: n.above ++ [top]) value =
        call rules source (n.node.text source) ((n.node, 0) :: n.above) value :=
      call_under htop (n.node.text source) value ((n.node, 0) :: n.above)
    simp only [hinner, literals_under htop, whole_under htop]
    split
    · rfl
    · rfl
    · rfl
    · exact hcall
    · rfl
    · rfl
    · rfl

theorem guard_under (htop : top.1.kind = .script) (condition : Node) :
    guard rules source (n.under top) condition = guard rules source n condition := by
  have hinner : (⟨condition, ((n.under top).node, 0) :: (n.under top).above⟩ : Node.Located) =
      Node.Located.under top ⟨condition, (n.node, 0) :: n.above⟩ := rfl
  unfold guard
  simp only [hinner, literals_under htop, whole_under htop]
  split
  · rfl
  · exact call_under htop _ condition ((n.node, 0) :: n.above)
  · rfl

theorem guards_under (htop : top.1.kind = .script) (i : Nat) (branches : List Node) :
    guards rules source (n.under top) i branches = guards rules source n i branches := by
  induction branches generalizing i with
  | nil => rfl
  | cons branch more ih =>
    have hbranch : (⟨branch, ((n.under top).node, i) :: (n.under top).above⟩ : Node.Located) =
        Node.Located.under top ⟨branch, (n.node, i) :: n.above⟩ := rfl
    simp only [guards, ih, hbranch, guard_under htop]

/-- A script above a node makes no difference to what is found there. -/
theorem ofNode_under (htop : top.1.kind = .script) :
    ofNode rules source (n.under top) = ofNode rules source n := by
  have hnode : (n.under top).node = n.node := rfl
  unfold ofNode
  simp only [hnode, guards_under htop, statement_under htop, whole_under htop]

end Finds

/-- The finds of a statement, wherever it stands. -/
def Node.finds (rules : CallRules) (source : Text) (n : Node) : List Find :=
  (n.locate []).flatMap (Finds.ofNode rules source)

/-- The finds of a script are those of its statements. -/
theorem Tree.finds_eq_flatMap {t : Tree} (rules : CallRules) (ht : t.root.kind = .script) :
    t.finds rules = t.root.children.flatMap (·.finds rules t.source) := by
  have hroot : Finds.ofNode rules t.source ⟨t.root, []⟩ = [] := by
    simp [Finds.ofNode, ht]
  have hchild (p : Node × Nat) : (p.1.locate [(t.root, p.2)]).flatMap (Finds.ofNode rules t.source) =
      p.1.finds rules t.source := by
    have hlocate := Node.locate_under (t.root, p.2) p.1 []
    rw [List.nil_append] at hlocate
    rw [hlocate, List.flatMap_map, Node.finds]
    exact List.flatMap_congr fun n _ => Finds.ofNode_under ht
  rw [Tree.finds, Finds.flatMap_locate, hroot, List.nil_append,
    List.flatMap_congr fun p _ => hchild p]
  conv_rhs => rw [← List.zipIdx_map_fst 0 t.root.children, List.flatMap_map]

end Phrasebook
