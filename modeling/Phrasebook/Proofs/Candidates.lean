import Mathlib.Data.List.Perm.Basic
import Phrasebook.Proofs.Finds

/-!
The candidates of a tree.

A candidate is a statement or a condition in which texts are looked for. Candidates are apart, and the
finds of a tree are those of its candidates, in another order: conditions come before the statements of
their conditional.
-/
namespace Phrasebook

namespace Finds

/-- Whether a node is the condition of a branch. -/
def isCondition (n : Node.Located) : Bool :=
  match n.above with
  | (branch, 0) :: _ => branch.kind.isGuarded
  | _ => false

theorem isCondition_cons (c parent : Node) (i : Nat) (above : List (Node × Nat)) :
    isCondition ⟨c, (parent, i) :: above⟩ = (i == 0 && parent.kind.isGuarded) := by
  cases i <;> simp [isCondition]

/-- Whether an assignment goes to a member. -/
def assignsMember (n : Node) : Bool :=
  n.children.head?.any fun target =>
    match target.kind with
    | .member _ => true
    | _ => false

/-- Whether texts are looked for in a node: an expression statement, a return, a variable, an
assignment to anything but a member, or a condition. -/
def isCandidate (n : Node.Located) : Bool :=
  match n.node.kind with
  | .exprStmt | .returnStmt | .varDecl _ => true
  | .assign _ => !assignsMember n.node
  | _ => isCondition n

variable (rules : CallRules) (source : Text)

/-- The texts of the condition of a branch, if it has one. -/
def ofBranch (branch : Node.Located) : List Find :=
  match branch.node.condition? with
  | some condition => if condition.hasString then guard rules source branch condition else []
  | none => []

/-- The texts of a candidate. -/
def ofCandidate (n : Node.Located) : List Find :=
  match n.above with
  | (branch, 0) :: above =>
    if branch.kind.isGuarded then ofBranch rules source ⟨branch, above⟩ else ofNode rules source n
  | _ => ofNode rules source n

variable {rules source} {n m : Node.Located} {branch : Node} {above : List (Node × Nat)}

theorem isExpression_of_isCondition (hl : branch.Laid source) (hg : branch.kind.isGuarded = true)
    {c : Node} (hc : branch.children[0]? = some c) : c.kind.isExpression = true := by
  obtain ⟨d, hd, he⟩ := hl.fit.guarded hg
  rw [List.head?_eq_getElem?, hc] at hd
  cases hd
  exact he

theorem condition?_eq (hg : branch.kind.isGuarded = true) :
    branch.condition? = branch.children[0]? := by
  obtain ⟨kind, span, children⟩ := branch
  cases kind with
  | branch w => cases w <;> simp_all [Node.condition?, Node.Kind.isGuarded, List.head?_eq_getElem?]
  | _ => simp [Node.Kind.isGuarded] at hg

theorem ofCandidate_of_condition (hg : branch.kind.isGuarded = true) (c : Node) :
    ofCandidate rules source ⟨c, (branch, 0) :: above⟩ = ofBranch rules source ⟨branch, above⟩ := by
  simp [ofCandidate, hg]

theorem ofCandidate_of_not_condition (h : isCondition n = false) :
    ofCandidate rules source n = ofNode rules source n := by
  unfold isCondition at h
  unfold ofCandidate
  split at h <;> simp_all

/-- The texts of a condition. -/
theorem ofBranch_yields {c : Node} (hl : branch.Laid source) (hg : branch.kind.isGuarded = true)
    (hc : branch.children[0]? = some c) :
    YieldsAt rules source ⟨c, (branch, 0) :: above⟩ (ofBranch rules source ⟨branch, above⟩) := by
  have he := isExpression_of_isCondition hl hg hc
  have hlaid : (⟨c, (branch, 0) :: above⟩ : Node.Located).node.Laid source :=
    hl.of_mem_children (List.mem_of_getElem? hc)
  simp only [ofBranch, condition?_eq hg, hc]
  split
  · unfold guard
    split
    · exact whole_yields hlaid (.inl he) (by simp)
    · next hcall => exact call_yields hlaid hcall _ _
    · exact literals_yields hlaid _
  · next hno => exact yields_of_not_hasString (by simpa using hno)

theorem value?_of_isLone {s : Node} (h : s.kind.isLone = true) : s.value? = s.children.head? := by
  obtain ⟨kind, span, children⟩ := s
  cases kind <;> simp [Node.Kind.isLone, Node.value?] at h ⊢

/-- The texts of a statement of one expression. -/
theorem statement_yields (hl : n.node.Laid source) (hk : n.node.kind.isLone = true) :
    YieldsAt rules source n (statement rules source n) := by
  obtain ⟨⟨kind, span, children⟩, above⟩ := n
  have hone := hl.fit.lone hk
  obtain ⟨hsimple, hstring⟩ := Node.Kind.isSimple_of_isLone hk
  have hvalue := value?_of_isLone hk
  have hwhole : YieldsAt rules source ⟨⟨kind, span, children⟩, above⟩
      (whole rules source .statement none ⟨⟨kind, span, children⟩, above⟩) :=
    whole_yields hl (.inr hsimple) (by simp)
  simp only [statement, hvalue]
  match children, hone with
  | [], _ =>
    refine yields_nil fun lit hlit ht => ?_
    rw [locate_cons, Node.locateAll, List.mem_singleton] at hlit
    have := isString_of_isText ht
    simp [hlit, hstring] at this
  | [value], _ =>
    obtain ⟨hlo, hlaid, hhi⟩ := Node.row_single.1 hl.row
    have hinner : (⟨value, (⟨kind, span, [value]⟩, 0) :: above⟩ : Node.Located).node.Laid source :=
      hlaid
    -- Finds in the only child are finds in the statement.
    have hup {fs : List Find}
        (h : YieldsAt rules source ⟨value, (⟨kind, span, [value]⟩, 0) :: above⟩ fs) :
        YieldsAt rules source ⟨⟨kind, span, [value]⟩, above⟩ fs := by
      rw [YieldsAt, locate_cons, Node.locateAll, Node.locateAll, List.append_nil]
      exact (h.mono hlo hhi).cons hstring
    simp only [List.head?_cons]
    split
    · exact hup (literals_yields hinner _)
    · exact hup (literals_yields hinner _)
    · exact hwhole
    · next hcall _ => exact hup (call_yields hlaid hcall _ _)
    · exact hwhole
    · exact hwhole
    · exact hup (literals_yields hinner _)

theorem ofNode_assign {op : Text} (hk : n.node.kind = .assign op) :
    ofNode rules source n =
      if !assignsMember n.node && n.node.hasString then whole rules source .statement none n
      else [] := by
  simp only [ofNode, hk]
  rfl

/-- The texts of a candidate lie in it. -/
theorem ofCandidate_yields {root : Node} (hroot : root.Laid source) (hn : n ∈ root.locate [])
    (hc : isCandidate n = true) : YieldsAt rules source n (ofCandidate rules source n) := by
  have hl := hroot.of_mem_locate hn
  by_cases hcond : isCondition n = true
  · rcases Node.parent_of_mem_locate hn with rfl | ⟨branch, i, above, habove, hchild, hmem⟩
    · simp [isCondition] at hcond
    · obtain ⟨node, _⟩ := n
      simp only at habove hchild
      subst habove
      cases i with
      | zero =>
        have hg : branch.kind.isGuarded = true := hcond
        rw [ofCandidate_of_condition hg]
        exact ofBranch_yields (hroot.of_mem_locate hmem) hg hchild
      | succ i => simp [isCondition] at hcond
  · rw [ofCandidate_of_not_condition (by simpa using hcond)]
    have hlone (hk : n.node.kind.isLone = true) : YieldsAt rules source n
        (if n.node.hasString then statement rules source n else []) := by
      split
      · exact statement_yields hl hk
      · next hno => exact yields_of_not_hasString (by simpa using hno)
    cases hk : n.node.kind with
    | exprStmt | returnStmt | varDecl name =>
      simp only [ofNode, hk]
      exact hlone (by rw [hk]; rfl)
    | assign op =>
      simp only [isCandidate, hk] at hc
      rw [ofNode_assign hk, hc, Bool.true_and]
      split
      · exact whole_yields hl (.inr (by rw [hk]; rfl)) (by simp)
      · next hno => exact yields_of_not_hasString (by simpa using hno)
    | _ => simp [isCandidate, hk, hcond] at hc

section Order

variable {root : Node} {a b : Node.Located}

/-- A candidate is a simple statement or an expression. -/
theorem kind_of_isCandidate (hroot : root.Laid source) (hn : n ∈ root.locate [])
    (hc : isCandidate n = true) : n.node.kind.isExpression = true ∨ n.node.kind.isSimple = true := by
  by_cases hcond : isCondition n = true
  · rcases Node.parent_of_mem_locate hn with rfl | ⟨branch, i, above, habove, hchild, hmem⟩
    · simp [isCondition] at hcond
    · simp only [isCondition, habove] at hcond
      cases i with
      | zero =>
        exact .inl (isExpression_of_isCondition (hroot.of_mem_locate hmem) (by simpa using hcond)
          hchild)
      | succ i => simp at hcond
  · refine .inr ?_
    unfold isCandidate at hc
    split at hc <;> simp_all [Node.Kind.isSimple]

theorem isGuarded_eq_false {k : Node.Kind} (h : k.isExpression = true ∨ k.isSimple = true) :
    k.isGuarded = false := by
  rcases h with h | h
  · exact (Node.Kind.not_compound_of_isExpression h).2.2
  · exact Node.Kind.isGuarded_of_isSimple h

/-- What is below an expression or a simple statement is an expression. -/
theorem isExpression_of_below (hl : n.node.Laid source)
    (hk : n.node.kind.isExpression = true ∨ n.node.kind.isSimple = true)
    (hm : m ∈ n.node.locate n.above) (hne : m ≠ n) : m.node.kind.isExpression = true := by
  rcases Node.mem_locate.1 hm with rfl | ⟨i, c, hc, hm⟩
  · exact absurd rfl hne
  · have hmem := List.mem_of_getElem? hc
    exact (hl.of_mem_children hmem).isExpression_below (hl.fit.expressions hk c hmem) m hm

/-- No candidate is below another. -/
theorem eq_of_candidate_below (hl : n.node.Laid source)
    (hk : n.node.kind.isExpression = true ∨ n.node.kind.isSimple = true)
    (hm : m ∈ n.node.locate n.above) (hc : isCandidate m = true) : m = n := by
  by_contra hne
  have he := isExpression_of_below hl hk hm hne
  rcases Node.parent_of_mem_locate hm with h | ⟨parent, i, rest, habove, -, hmem⟩
  · exact hne h
  · have hguard : parent.kind.isGuarded = false := by
      by_cases hp : (⟨parent, rest⟩ : Node.Located) = n
      · rw [← hp] at hk
        exact isGuarded_eq_false hk
      · exact isGuarded_eq_false (.inl (isExpression_of_below hl hk hmem hp))
    have hcond : isCondition m = false := by
      obtain ⟨node, _⟩ := m
      subst habove
      simp [isCondition_cons, hguard]
    unfold isCandidate at hc
    split at hc <;> simp_all [Node.Kind.isExpression]

/-- Two candidates are apart. -/
theorem candidates_apart (hroot : root.Laid source) (ha : a ∈ root.locate [])
    (hb : b ∈ root.locate []) (hca : isCandidate a = true) (hcb : isCandidate b = true)
    (hne : a ≠ b) : a.node.span.Apart b.node.span := by
  rcases hroot.apart_or ha hb with h | h | h
  · exact h
  · exact absurd (eq_of_candidate_below (hroot.of_mem_locate hb)
      (kind_of_isCandidate hroot hb hcb) h hca) hne
  · exact absurd (eq_of_candidate_below (hroot.of_mem_locate ha)
      (kind_of_isCandidate hroot ha hca) h hcb).symm hne

end Order

section Rearrangement

theorem guards_eq_flatMap (n : Node.Located) (i : Nat) (branches : List Node) :
    guards rules source n i branches = (branches.zipIdx i).flatMap fun p =>
      ofBranch rules source ⟨p.1, (n.node, p.2) :: n.above⟩ := by
  induction branches generalizing i with
  | nil => rfl
  | cons branch more ih =>
    rw [guards, ih, List.zipIdx_cons, List.flatMap_cons]
    rfl

/-- What a place of the tree contributes as a candidate. -/
def share (rules : CallRules) (source : Text) (n : Node.Located) : List Find :=
  if isCandidate n then ofCandidate rules source n else []

theorem ofBranch_eq_nil (h : n.node.kind.isGuarded = false) : ofBranch rules source n = [] := by
  have hnone : n.node.condition? = none := by
    unfold Node.condition?
    split <;> simp_all [Node.Kind.isGuarded]
  simp [ofBranch, hnone]

theorem ofNode_eq_nil (h : n.node.kind.isSimple = false) (hi : n.node.kind ≠ .ifStmt) :
    ofNode rules source n = [] := by
  unfold ofNode
  split <;> simp_all [Node.Kind.isSimple]

theorem share_eq_nil (h : n.node.kind.isSimple = false) (hc : isCondition n = false) :
    share rules source n = [] := by
  have : isCandidate n = false := by
    unfold isCandidate
    split <;> simp_all [Node.Kind.isSimple]
  simp [share, this]

theorem share_eq_ofNode (h : n.node.kind.isSimple = true) (hc : isCondition n = false) :
    share rules source n = ofNode rules source n := by
  unfold share
  rw [ofCandidate_of_not_condition hc]
  split
  · rfl
  · next hno =>
    cases hk : n.node.kind with
    | assign op =>
      rw [ofNode_assign hk]
      simp only [isCandidate, hk] at hno
      simp [hno]
    | exprStmt | returnStmt | varDecl name => simp [isCandidate, hk] at hno
    | _ => simp [hk, Node.Kind.isSimple] at h

theorem flatMap_locate {f : Node.Located → List Find} (n : Node) (above : List (Node × Nat)) :
    (n.locate above).flatMap f = f ⟨n, above⟩ ++ n.children.zipIdx.flatMap fun p =>
      (p.1.locate ((n, p.2) :: above)).flatMap f := by
  obtain ⟨kind, span, children⟩ := n
  rw [locate_cons, List.flatMap_cons, Node.locateAll_eq_flatMap, List.flatMap_assoc]

/-- In an expression no statement is found. -/
theorem flatMap_ofNode_expression {e : Node} (hl : e.Laid source)
    (he : e.kind.isExpression = true) :
    (e.locate above).flatMap (ofNode rules source) = [] := by
  refine List.flatMap_eq_nil_iff.2 fun m hm => ?_
  obtain ⟨hs, hi, -⟩ := Node.Kind.not_compound_of_isExpression (hl.isExpression_below he m hm)
  exact ofNode_eq_nil hs hi

/-- In an expression that is no condition there is no candidate. -/
theorem flatMap_share_expression {e : Node} (hl : e.Laid source)
    (he : e.kind.isExpression = true) (hc : isCondition ⟨e, above⟩ = false) :
    (e.locate above).flatMap (share rules source) = [] := by
  refine List.flatMap_eq_nil_iff.2 fun m hm => ?_
  refine share_eq_nil (Node.Kind.not_compound_of_isExpression (hl.isExpression_below he m hm)).1 ?_
  rcases Node.parent_of_mem_locate hm with rfl | ⟨parent, i, rest, habove, -, hmem⟩
  · exact hc
  · have hparent := (Node.Kind.not_compound_of_isExpression (hl.isExpression_below he _ hmem)).2.2
    obtain ⟨node, _⟩ := m
    subst habove
    simp [isCondition_cons, hparent]

/-- A condition is the only candidate in it. -/
theorem flatMap_share_condition {branch c : Node} (hl : branch.Laid source)
    (hg : branch.kind.isGuarded = true) (hc : branch.children[0]? = some c) :
    (c.locate ((branch, 0) :: above)).flatMap (share rules source) =
      ofBranch rules source ⟨branch, above⟩ := by
  have he := isExpression_of_isCondition hl hg hc
  have hlaid := hl.of_mem_children (List.mem_of_getElem? hc)
  have hcand : isCandidate ⟨c, (branch, 0) :: above⟩ = true := by
    have hcond : isCondition ⟨c, (branch, 0) :: above⟩ = true := hg
    unfold isCandidate
    split <;> simp_all [Node.Kind.isExpression]
  have hrest : (c.children.zipIdx.flatMap fun p =>
      (p.1.locate ((c, p.2) :: (branch, 0) :: above)).flatMap (share rules source)) = [] := by
    refine List.flatMap_eq_nil_iff.2 ?_
    rintro ⟨d, i⟩ hp
    have hmem := List.mem_of_getElem? (List.mem_zipIdx_iff_getElem?.1 hp)
    refine flatMap_share_expression (hlaid.of_mem_children hmem)
      (hlaid.fit.expressions (.inl he) d hmem) ?_
    simp [isCondition_cons, (Node.Kind.not_compound_of_isExpression he).2.2]
  rw [flatMap_locate, hrest, List.append_nil, share, if_pos hcand, ofCandidate_of_condition hg]

/-- The finds of a subtree are those of its candidates, and for a branch those of its condition
come on top: its conditional has them. By induction on the tree. -/
theorem perm_share {n : Node} (hl : n.Laid source) (he : n.kind.isExpression = false)
    (hc : isCondition ⟨n, above⟩ = false) :
    (ofBranch rules source ⟨n, above⟩ ++ (n.locate above).flatMap (ofNode rules source)).Perm
      ((n.locate above).flatMap (share rules source)) := by
  induction n using Node.childrenFirst generalizing above with
  | h n ih =>
    -- A child that is no condition, whatever it is.
    have hchild : ∀ p ∈ n.children.zipIdx, isCondition ⟨p.1, (n, p.2) :: above⟩ = false →
        (ofBranch rules source ⟨p.1, (n, p.2) :: above⟩ ++
          (p.1.locate ((n, p.2) :: above)).flatMap (ofNode rules source)).Perm
          ((p.1.locate ((n, p.2) :: above)).flatMap (share rules source)) := by
      rintro ⟨c, i⟩ hp hcond
      have hmem := List.mem_of_getElem? (List.mem_zipIdx_iff_getElem?.1 hp)
      have hlaid := hl.of_mem_children hmem
      cases hce : c.kind.isExpression with
      | true =>
        rw [flatMap_ofNode_expression hlaid hce, flatMap_share_expression hlaid hce hcond,
          ofBranch_eq_nil (Node.Kind.not_compound_of_isExpression hce).2.2, List.append_nil]
      | false => exact ih c hmem hlaid hce hcond
    have hplain (hi : n.kind ≠ .ifStmt) : ∀ p ∈ n.children.zipIdx,
        isCondition ⟨p.1, (n, p.2) :: above⟩ = false →
        ((p.1.locate ((n, p.2) :: above)).flatMap (ofNode rules source)).Perm
          ((p.1.locate ((n, p.2) :: above)).flatMap (share rules source)) := by
      intro p hp hcond
      have hb : p.1.kind.isBranch ≠ true := by
        rw [Ne, hl.fit.branches p.1 (List.fst_mem_of_mem_zipIdx hp)]
        exact hi
      have hng : p.1.kind.isGuarded = false := by
        by_contra h
        exact hb (Node.Kind.isBranch_of_isGuarded (by simpa using h))
      have := hchild p hp hcond
      rwa [ofBranch_eq_nil hng, List.nil_append] at this
    rw [flatMap_locate, flatMap_locate]
    by_cases hg : n.kind.isGuarded = true
    · -- The condition comes first among the children of the branch.
      obtain ⟨cond, hhead, hce⟩ := hl.fit.guarded hg
      rw [List.head?_eq_getElem?] at hhead
      have hkind := Node.Kind.not_simple_of_isGuarded hg
      rw [ofNode_eq_nil hkind.1 hkind.2, share_eq_nil hkind.1 hc]
      obtain ⟨body, hbody⟩ : ∃ body, n.children = cond :: body := by
        cases hcs : n.children with
        | nil => simp [hcs] at hhead
        | cons d ds =>
          simp only [hcs, List.getElem?_cons_zero, Option.some.injEq] at hhead
          exact ⟨ds, by rw [hhead]⟩
      have hzip : n.children.zipIdx = (cond, 0) :: body.zipIdx 1 := by rw [hbody, List.zipIdx_cons]
      rw [hzip, List.flatMap_cons, List.flatMap_cons, flatMap_share_condition hl hg hhead,
        flatMap_ofNode_expression (hl.of_mem_children (List.mem_of_getElem? hhead)) hce]
      simp only [List.nil_append]
      refine List.Perm.append_left _ (List.Perm.flatMap_left _ fun p hp => ?_)
      have hmem : p ∈ n.children.zipIdx := by
        rw [hzip]
        exact List.mem_cons_of_mem _ hp
      have hpos := List.le_snd_of_mem_zipIdx hp
      exact hplain hkind.2 p hmem (by simp [isCondition_cons]; omega)
    · have hno (p : Node × Nat) : isCondition ⟨p.1, (n, p.2) :: above⟩ = false := by
        simp [isCondition_cons, hg]
      rw [ofBranch_eq_nil (by simpa using hg), List.nil_append]
      by_cases hi : n.kind = .ifStmt
      · have hsimple : n.kind.isSimple = false := by
          rw [hi]
          rfl
        have hguards : ofNode rules source ⟨n, above⟩ = guards rules source ⟨n, above⟩ 0 n.children := by
          simp only [ofNode, hi]
        rw [share_eq_nil hsimple hc, List.nil_append, hguards, guards_eq_flatMap]
        exact (List.flatMap_append_perm _ _ _).trans
          (List.Perm.flatMap_left _ fun p hp => hchild p hp (hno p))
      · refine List.Perm.append ?_ (List.Perm.flatMap_left _ fun p hp => hplain hi p hp (hno p))
        cases hs : n.kind.isSimple with
        | true => rw [share_eq_ofNode hs hc]
        | false => rw [ofNode_eq_nil hs hi, share_eq_nil hs hc]

theorem flatMap_share (ns : List Node.Located) :
    ns.flatMap (share rules source) = (ns.filter isCandidate).flatMap (ofCandidate rules source) := by
  induction ns with
  | nil => rfl
  | cons n ns ih => cases h : isCandidate n <;> simp [share, h, ih]

end Rearrangement

end Finds

namespace Tree

open Finds

variable {source : Text} {t : Tree}

/-- The places of a tree in which texts are looked for. -/
def candidates (t : Tree) : List Node.Located := (t.root.locate []).filter isCandidate

/-- The tree of a text, or of a part of it. -/
structure Rooted (source : Text) (t : Tree) : Prop where
  source_eq : t.source = source
  kind_eq : t.root.kind = .script
  laid : t.root.Laid source

theorem rooted_of_ofScript (h : ofScript source = .ok t) : t.Rooted source := by
  obtain ⟨hsource, -, hkind, hlaid⟩ := laid_of_ofScript h
  exact ⟨hsource, hkind, hlaid⟩

/-- The finds of a tree are those of its candidates. -/
theorem Rooted.finds_perm (h : t.Rooted source) (rules : CallRules) :
    (t.finds rules).Perm (t.candidates.flatMap (ofCandidate rules source)) := by
  have he : t.root.kind.isExpression = false := by
    rw [h.kind_eq]
    rfl
  have hb : (⟨t.root, []⟩ : Node.Located).node.kind.isGuarded = false := by
    rw [h.kind_eq]
    rfl
  have hperm := @perm_share rules source [] _ h.laid he rfl
  rw [ofBranch_eq_nil hb, List.nil_append, flatMap_share] at hperm
  rw [Tree.finds, h.source_eq]
  exact hperm

theorem Rooted.candidate_yields (h : t.Rooted source) (rules : CallRules) {n : Node.Located}
    (hn : n ∈ t.candidates) : YieldsAt rules source n (ofCandidate rules source n) := by
  obtain ⟨hn, hc⟩ := List.mem_filter.1 hn
  exact ofCandidate_yields h.laid hn hc

/-- Every find belongs to a candidate. -/
theorem Rooted.mem_finds (h : t.Rooted source) {rules : CallRules} {f : Find} :
    f ∈ t.finds rules ↔ ∃ n ∈ t.candidates, f ∈ ofCandidate rules source n := by
  rw [(h.finds_perm rules).mem_iff, List.mem_flatMap]

/-- The sites of a tree are apart. -/
theorem Rooted.finds_apart (h : t.Rooted source) (rules : CallRules) :
    (t.finds rules).Pairwise fun f g => f.site.span.Apart g.site.span := by
  refine ((h.finds_perm rules).pairwise_iff fun h => Span.Apart.symm h).2 ?_
  refine List.pairwise_flatMap.2 ⟨fun n hn => (h.candidate_yields rules hn).apart, ?_⟩
  refine ((Node.nodup_locate _ _).filter _).pairwise_of_forall_ne fun a ha b hb hne => ?_
  intro f hf g hg
  have hfin := (h.candidate_yields rules ha).inside f hf
  have hgin := (h.candidate_yields rules hb).inside g hg
  obtain ⟨ha, hca⟩ := List.mem_filter.1 ha
  obtain ⟨hb, hcb⟩ := List.mem_filter.1 hb
  rcases candidates_apart h.laid ha hb hca hcb hne with hab | hab
  · exact .inl (by omega)
  · exact .inr (by omega)

/-- The sites of a tree lie in the part of the text that it is of. -/
theorem Rooted.finds_inside (h : t.Rooted source) {rules : CallRules} {f : Find}
    (hf : f ∈ t.finds rules) :
    t.root.span.start ≤ f.site.span.start ∧ f.site.span.stop ≤ t.root.span.stop := by
  obtain ⟨n, hn, hf⟩ := h.mem_finds.1 hf
  have hin := (h.candidate_yields rules hn).inside f hf
  have hroot := h.laid.contains (List.mem_filter.1 hn).1
  omega

/-- At every site stands its phrase as the site's form writes it. -/
theorem Rooted.finds_exact (h : t.Rooted source) {rules : CallRules} {f : Find}
    (hf : f ∈ t.finds rules) : f.site.span.start < f.site.span.stop ∧
      source.Stands f.site.span (f.site.form.write f.entry.phrase) := by
  obtain ⟨n, hn, hf⟩ := h.mem_finds.1 hf
  exact (h.candidate_yields rules hn).exact_ f hf

theorem candidate_yields (h : ofScript source = .ok t) (rules : CallRules) {n : Node.Located}
    (hn : n ∈ t.candidates) : YieldsAt rules source n (ofCandidate rules source n) :=
  (rooted_of_ofScript h).candidate_yields rules hn

theorem mem_finds (h : ofScript source = .ok t) {rules : CallRules} {f : Find} :
    f ∈ t.finds rules ↔ ∃ n ∈ t.candidates, f ∈ ofCandidate rules source n :=
  (rooted_of_ofScript h).mem_finds

theorem finds_apart (h : ofScript source = .ok t) (rules : CallRules) :
    (t.finds rules).Pairwise fun f g => f.site.span.Apart g.site.span :=
  (rooted_of_ofScript h).finds_apart rules

theorem finds_exact (h : ofScript source = .ok t) {rules : CallRules} {f : Find}
    (hf : f ∈ t.finds rules) : f.site.span.start < f.site.span.stop ∧
      source.Stands f.site.span (f.site.form.write f.entry.phrase) :=
  (rooted_of_ofScript h).finds_exact hf

/-- A site with the form of a literal is a string literal that is text. -/
theorem finds_quoted (h : ofScript source = .ok t) {rules : CallRules} {f : Find}
    (hf : f ∈ t.finds rules) {q : Quoting} (hq : f.site.form = .literal q) :
    ∃ lit ∈ t.root.locate [], isText rules source lit = true ∧ lit.node.kind = .string q ∧
      f.site.span = lit.node.span := by
  obtain ⟨n, hn, hf⟩ := (mem_finds h).1 hf
  obtain ⟨lit, hlit, hrest⟩ := (candidate_yields h rules hn).quoted f hf q hq
  exact ⟨lit, Node.locate_trans (List.mem_filter.1 hn).1 hlit, hrest⟩

end Tree

end Phrasebook
