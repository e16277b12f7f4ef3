import Phrasebook.Proofs.Grammar.Building

/-!
The table that the rules of statements build.

As for expressions, every rule of the builder follows the rule of trees (`Builder.FollowsStatements`), so
the statements of a text are stored one after the other (`Builder.run_statements`).
-/
namespace Phrasebook

open Node (store storeAll)

namespace Builder

open Grammar

variable {a : Arena} {fuel : Nat}

theorem run_expression (c : Cursor) (a : Arena) :
    (expression c).run a = c.expression.map (one a) :=
  (followsWithin _).expression c a

theorem run_initializer (c : Cursor) (a : Arena) :
    (initializer c).run a = c.initializer.map (all a) := by
  rw [initializer, Cursor.initializer]
  refine run_ite_of ?_ rfl
  exact run_bind_of (run_expression c.advance a) fun _ => rfl

theorem run_varStatement (start : Nat) (c : Cursor) (a : Arena) :
    (varStatement start c).run a = (c.varStatement start).map (one a) := by
  rw [varStatement, Cursor.varStatement]
  refine run_bind_of (run_lift _ _) ?_
  rintro ⟨name, c⟩
  refine run_ite_bind_of (run_lift _ _) rfl fun c => ?_
  refine run_bind_of (run_initializer c a) ?_
  rintro ⟨value, c⟩
  refine run_ite_of ?_ ?_
  · exact run_node (a := a) value rfl _
  · refine run_bind_of (run_lift _ _) fun _ => ?_
    exact run_node (a := a) value rfl _

theorem run_returnStatement (start : Nat) (c : Cursor) (a : Arena) :
    (returnStatement start c).run a = (c.returnStatement start).map (one a) := by
  rw [returnStatement, Cursor.returnStatement]
  -- What comes behind the value, which may be missing.
  have hgoOn (value : List Node) (c : Cursor) :
      (do
        c.expectStatementEnd
        return (← add .returnStmt (c.spanFrom start) (storeAll value a).1, c) : Builder _).run
          (storeAll value a).2 =
        (do
          c.expectStatementEnd
          return ((⟨.returnStmt, c.spanFrom start, value⟩ : Node), c)).map (one a) :=
    run_bind_of (run_lift _ _) fun _ => run_node (a := a) value rfl c
  refine run_ite_of (hgoOn [] c.advance) ?_
  refine run_bind_of (run_expression c.advance a) ?_
  rintro ⟨value, c⟩
  exact hgoOn [value] c

theorem run_expressionStatement (start : Nat) (c : Cursor) (a : Arena) :
    (expressionStatement start c).run a = (c.expressionStatement start).map (one a) := by
  rw [expressionStatement, Cursor.expressionStatement]
  refine run_bind_of (run_expression c a) ?_
  rintro ⟨target, c⟩
  refine run_ite_of ?_ ?_
  · refine run_bind_of (run_expression c.advance _) ?_
    rintro ⟨value, c⟩
    refine run_bind_of (run_lift _ _) fun _ => ?_
    exact run_node (a := a) [target, value] rfl c
  · refine run_bind_of (run_lift _ _) fun _ => ?_
    exact run_node (a := a) [target] rfl c

/-- What the rules of statements add within a bound on their nesting. -/
structure FollowsStatements (fuel : Nat) : Prop where
  block : ∀ inBlock c a,
    (blockIn fuel inBlock c).run a = (Cursor.blockIn fuel inBlock c).map (all a)
  suite : ∀ c a, (suiteIn fuel c).run a = (Cursor.suiteIn fuel c).map (all a)
  line : ∀ c a, (lineIn fuel c).run a = (Cursor.lineIn fuel c).map (all a)
  statement : ∀ c a, (statementIn fuel c).run a = (Cursor.statementIn fuel c).map (one a)
  function : ∀ start c a,
    (functionIn fuel start c).run a = (Cursor.functionIn fuel start c).map (one a)
  classDecl : ∀ start c a, (classIn fuel start c).run a = (Cursor.classIn fuel start c).map (one a)
  ifStatement : ∀ start c a,
    (ifStatementIn fuel start c).run a = (Cursor.ifStatementIn fuel start c).map (one a)
  branches : ∀ c a, (branchesIn fuel c).run a = (Cursor.branchesIn fuel c).map (all a)
  branch : ∀ which c a,
    (branchIn fuel which c).run a = (Cursor.branchIn fuel which c).map (one a)
  forStatement : ∀ start c a,
    (forStatementIn fuel start c).run a = (Cursor.forStatementIn fuel start c).map (one a)
  whileStatement : ∀ start c a,
    (whileStatementIn fuel start c).run a = (Cursor.whileStatementIn fuel start c).map (one a)
  matchStatement : ∀ start c a,
    (matchStatementIn fuel start c).run a = (Cursor.matchStatementIn fuel start c).map (one a)
  matchBranches : ∀ c a,
    (matchBranchesIn fuel c).run a = (Cursor.matchBranchesIn fuel c).map (all a)

namespace FollowsStatements

/-- Trees that are stored behind others are stored with them. -/
theorem all_append (a : Arena) (ns : List Node) (r : List Node × Cursor) :
    all a (ns ++ r.1, r.2) =
      (((storeAll ns a).1 ++ (all (storeAll ns a).2 r).1.1, r.2), (all (storeAll ns a).2 r).2) := by
  rw [all, Node.storeAll_append]
  rfl

theorem blockIn_succ (ih : FollowsStatements fuel) (inBlock : Bool) (c : Cursor) (a : Arena) :
    (blockIn (fuel + 1) inBlock c).run a =
      (Cursor.blockIn (fuel + 1) inBlock c).map (all a) := by
  rw [blockIn, Cursor.blockIn]
  dsimp only
  cases c.skipNewlines.kind with
  | eof => rfl
  | dedent => exact run_ite_of rfl (ih.block inBlock _ a)
  | indent =>
    refine run_bind_of (ih.block true _ a) ?_
    rintro ⟨nested, c⟩
    refine run_bind_of (ih.block inBlock c _) ?_
    rintro ⟨more, c⟩
    exact congrArg Except.ok (all_append a nested (more, c)).symm
  | _ =>
    refine run_bind_of (ih.statement _ a) ?_
    rintro ⟨item, c⟩
    exact run_bind_of (ih.block inBlock c _) fun _ => rfl

theorem suiteIn_succ (ih : FollowsStatements fuel) (c : Cursor) (a : Arena) :
    (suiteIn (fuel + 1) c).run a = (Cursor.suiteIn (fuel + 1) c).map (all a) := by
  rw [suiteIn, Cursor.suiteIn]
  refine run_ite_of (run_ite_of (ih.block true _ a) rfl) ?_
  exact run_bind_of (ih.line c a) fun _ => rfl

theorem lineIn_succ (ih : FollowsStatements fuel) (c : Cursor) (a : Arena) :
    (lineIn (fuel + 1) c).run a = (Cursor.lineIn (fuel + 1) c).map (all a) := by
  rw [lineIn, Cursor.lineIn]
  refine run_bind_of (ih.statement c a) ?_
  rintro ⟨item, c⟩
  refine run_ite_of (run_ite_of rfl ?_) rfl
  exact run_bind_of (ih.line c.advance _) fun _ => rfl

theorem statementIn_succ (ih : FollowsStatements fuel) (c : Cursor) (a : Arena) :
    (statementIn (fuel + 1) c).run a = (Cursor.statementIn (fuel + 1) c).map (one a) := by
  rw [statementIn, Cursor.statementIn]
  refine run_bind_of (run_lift _ _) ?_
  rintro ⟨ended, c'⟩
  refine run_ite_of ?_ ?_
  · exact run_node (a := a) [] rfl c'
  · cases opening c'.peek with
    | plain kind => exact run_addLeaf (by simp [Cursor.plainDeclaration]) a
    | keyword =>
      refine run_bind_of (run_lift _ _) fun _ => ?_
      exact run_node (a := a) [] rfl c'.advance
    | modifier =>
      refine run_ite_of (run_varStatement _ _ a) (run_ite_of (ih.function _ _ a) ?_)
      exact run_ite_of (run_addLeaf (by simp [Cursor.plainDeclaration]) a) rfl
    | varDecl => exact run_varStatement _ c' a
    | funcDecl => exact ih.function _ c' a
    | classDecl => exact ih.classDecl _ c' a
    | ifStmt => exact ih.ifStatement _ c' a
    | forStmt => exact ih.forStatement _ c' a
    | whileStmt => exact ih.whileStatement _ c' a
    | matchStmt => exact ih.matchStatement _ c' a
    | returnStmt => exact run_returnStatement _ c' a
    | orphan => rfl
    | expression => exact run_expressionStatement _ c' a

theorem functionIn_succ (ih : FollowsStatements fuel) (start : Nat) (c : Cursor) (a : Arena) :
    (functionIn (fuel + 1) start c).run a =
      (Cursor.functionIn (fuel + 1) start c).map (one a) := by
  rw [functionIn, Cursor.functionIn]
  refine run_bind_of (run_lift _ _) fun c => ?_
  refine run_bind_of (ih.suite c.advance a) ?_
  rintro ⟨body, c⟩
  exact run_node (a := a) body rfl c

theorem classIn_succ (ih : FollowsStatements fuel) (start : Nat) (c : Cursor) (a : Arena) :
    (classIn (fuel + 1) start c).run a = (Cursor.classIn (fuel + 1) start c).map (one a) := by
  rw [classIn, Cursor.classIn]
  refine run_bind_of (run_lift _ _) ?_
  rintro ⟨name, c⟩
  refine run_bind_of (run_lift _ _) fun c => ?_
  refine run_bind_of (ih.suite c.advance a) ?_
  rintro ⟨body, c⟩
  exact run_node (a := a) body rfl c

theorem ifStatementIn_succ (ih : FollowsStatements fuel) (start : Nat) (c : Cursor) (a : Arena) :
    (ifStatementIn (fuel + 1) start c).run a =
      (Cursor.ifStatementIn (fuel + 1) start c).map (one a) := by
  rw [ifStatementIn, Cursor.ifStatementIn]
  refine run_bind_of (ih.branch .ifBranch c a) ?_
  rintro ⟨first, c⟩
  refine run_bind_of (ih.branches c _) ?_
  rintro ⟨others, c⟩
  exact run_node (a := a) (first :: others) rfl c

theorem branchesIn_succ (ih : FollowsStatements fuel) (c : Cursor) (a : Arena) :
    (branchesIn (fuel + 1) c).run a = (Cursor.branchesIn (fuel + 1) c).map (all a) := by
  rw [branchesIn, Cursor.branchesIn]
  refine run_ite_of ?_ (run_ite_of ?_ rfl)
  · refine run_bind_of (ih.branch .elifBranch c a) ?_
    rintro ⟨branch, c⟩
    exact run_bind_of (ih.branches c _) fun _ => rfl
  · exact run_bind_of (ih.branch .elseBranch c a) fun _ => rfl

/-- What comes behind the condition of a branch, which may be missing. -/
theorem run_branchBody (ih : FollowsStatements fuel) (which : Node.Branch) (start : Nat)
    (condition : List Node) (c : Cursor) (a : Arena) :
    (do
      let c ← c.expectOp ":"
      let (body, c) ← suiteIn fuel c
      return (← add (.branch which) (c.spanFrom start) ((storeAll condition a).1 ++ body), c) :
        Builder _).run (storeAll condition a).2 =
      (do
        let c ← c.expectOp ":"
        let (body, c) ← Cursor.suiteIn fuel c
        return ((⟨.branch which, c.spanFrom start, condition ++ body⟩ : Node), c)).map (one a) := by
  refine run_bind_of (run_lift _ _) fun c => run_bind_of (ih.suite c _) ?_
  rintro ⟨body, c⟩
  exact run_node (a := a) (condition ++ body) (Node.storeAll_append condition body a) c

theorem branchIn_succ (ih : FollowsStatements fuel) (which : Node.Branch) (c : Cursor) (a : Arena) :
    (branchIn (fuel + 1) which c).run a = (Cursor.branchIn (fuel + 1) which c).map (one a) := by
  rw [branchIn, Cursor.branchIn]
  generalize c.peek.span.start = start
  refine run_ite_of (ih.run_branchBody which start [] c.advance a) ?_
  refine run_bind_of (run_expression c.advance a) ?_
  rintro ⟨condition, c⟩
  exact ih.run_branchBody which start [condition] c a

theorem forStatementIn_succ (ih : FollowsStatements fuel) (start : Nat) (c : Cursor) (a : Arena) :
    (forStatementIn (fuel + 1) start c).run a =
      (Cursor.forStatementIn (fuel + 1) start c).map (one a) := by
  rw [forStatementIn, Cursor.forStatementIn]
  refine run_bind_of (run_lift _ _) ?_
  rintro ⟨name, c⟩
  refine run_ite_bind_of (run_lift _ _) rfl fun c => run_ite_of ?_ rfl
  refine run_bind_of (run_expression c.advance a) ?_
  rintro ⟨iterable, c⟩
  refine run_bind_of (run_lift _ _) fun c => ?_
  refine run_bind_of (ih.suite c _) ?_
  rintro ⟨body, c⟩
  exact run_node (a := a) (iterable :: body) rfl c

theorem whileStatementIn_succ (ih : FollowsStatements fuel) (start : Nat) (c : Cursor)
    (a : Arena) : (whileStatementIn (fuel + 1) start c).run a =
      (Cursor.whileStatementIn (fuel + 1) start c).map (one a) := by
  rw [whileStatementIn, Cursor.whileStatementIn]
  refine run_bind_of (run_expression c.advance a) ?_
  rintro ⟨condition, c⟩
  refine run_bind_of (run_lift _ _) fun c => ?_
  refine run_bind_of (ih.suite c _) ?_
  rintro ⟨body, c⟩
  exact run_node (a := a) (condition :: body) rfl c

theorem matchStatementIn_succ (ih : FollowsStatements fuel) (start : Nat) (c : Cursor)
    (a : Arena) : (matchStatementIn (fuel + 1) start c).run a =
      (Cursor.matchStatementIn (fuel + 1) start c).map (one a) := by
  rw [matchStatementIn, Cursor.matchStatementIn]
  refine run_bind_of (run_expression c.advance a) ?_
  rintro ⟨subject, c⟩
  refine run_bind_of (run_lift _ _) fun c => run_ite_of (run_ite_of ?_ ?_) rfl
  · refine run_bind_of (ih.matchBranches _ _) ?_
    rintro ⟨branches, c⟩
    exact run_node (a := a) (subject :: branches) rfl c
  · exact run_node (a := a) [subject] rfl _

theorem matchBranchesIn_succ (ih : FollowsStatements fuel) (c : Cursor) (a : Arena) :
    (matchBranchesIn (fuel + 1) c).run a =
      (Cursor.matchBranchesIn (fuel + 1) c).map (all a) := by
  rw [matchBranchesIn, Cursor.matchBranchesIn]
  dsimp only
  cases c.skipNewlines.kind with
  | dedent => rfl
  | eof => rfl
  | _ =>
    refine run_bind_of (run_lift _ _) fun c => ?_
    refine (run_add_bind (a := a) [] rfl _).trans ?_
    refine run_bind_of (ih.suite c.advance _) ?_
    rintro ⟨body, c⟩
    refine (run_add_bind (a := a) (_ :: body) rfl _).trans ?_
    exact run_bind_of (ih.matchBranches c _) fun _ => rfl

end FollowsStatements

end Builder

end Phrasebook
