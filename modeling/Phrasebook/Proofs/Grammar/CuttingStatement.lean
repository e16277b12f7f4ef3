import Phrasebook.Proofs.Grammar.CuttingMoves

/-!
Statements before the cut.

The rules of statements call each other within a bound. What one of them reads before the cut it also
reads where the rest is cut off, and then any bound will do that grows with the lexemes left
(`Cutting.keptWithin`).
-/
namespace Phrasebook

namespace Cutting

open Cursor Lexeme Grammar Node

/-- What a rule of statements reads before the cut it also reads where the rest is cut off, within
any bound that is large enough; it enters at most `k` rules before something is read. -/
def Keeps {α : Type} (κ : Cutting) (k : Nat) (f : Nat → Cursor → Except ParseError (α × Cursor))
    (c : Cursor) (a : α) (c₁ : Cursor) : Prop :=
  κ.tail.length ≤ c₁.rest.length → ∀ c', κ.Cut c c' →
    ∃ c₁', κ.Cut c₁ c₁' ∧ ∀ fuel, 8 * c'.rest.length + k ≤ fuel → f fuel c' = .ok (a, c₁')

/-- Within a bound, the rules of statements go on and keep what stands before the cut. -/
structure KeptWithin (κ : Cutting) (fuel : Nat) : Prop where
  block : ∀ {c c₁ ns inBlock}, blockIn fuel inBlock c = .ok (ns, c₁) →
    c₁.rest.length ≤ c.rest.length ∧ κ.Keeps 4 (blockIn · inBlock) c ns c₁
  suite : ∀ {c c₁ ns}, suiteIn fuel c = .ok (ns, c₁) →
    c₁.rest.length < c.rest.length ∧ κ.Keeps 5 suiteIn c ns c₁
  line : ∀ {c c₁ ns}, lineIn fuel c = .ok (ns, c₁) →
    c₁.rest.length < c.rest.length ∧ κ.Keeps 4 lineIn c ns c₁
  statement : ∀ {c c₁ n}, statementIn fuel c = .ok (n, c₁) →
    c₁.rest.length < c.rest.length ∧ κ.Keeps 3 statementIn c n c₁
  function : ∀ {c c₁ n start}, c.kind = .word → functionIn fuel start c = .ok (n, c₁) →
    c₁.rest.length < c.rest.length ∧ κ.Keeps 1 (functionIn · start) c n c₁
  class_ : ∀ {c c₁ n start}, classIn fuel start c = .ok (n, c₁) →
    c₁.rest.length < c.rest.length ∧ κ.Keeps 1 (classIn · start) c n c₁
  ifStatement : ∀ {c c₁ n start}, c.kind = .word → ifStatementIn fuel start c = .ok (n, c₁) →
    c₁.rest.length < c.rest.length ∧ κ.Keeps 2 (ifStatementIn · start) c n c₁
  branches : ∀ {c c₁ ns}, branchesIn fuel c = .ok (ns, c₁) →
    c₁.rest.length ≤ c.rest.length ∧ κ.Keeps 2 branchesIn c ns c₁
  branch : ∀ {c c₁ n which}, c.kind = .word → branchIn fuel which c = .ok (n, c₁) →
    c₁.rest.length < c.rest.length ∧ κ.Keeps 1 (branchIn · which) c n c₁
  forStatement : ∀ {c c₁ n start}, forStatementIn fuel start c = .ok (n, c₁) →
    c₁.rest.length < c.rest.length ∧ κ.Keeps 1 (forStatementIn · start) c n c₁
  whileStatement : ∀ {c c₁ n start}, whileStatementIn fuel start c = .ok (n, c₁) →
    c₁.rest.length < c.rest.length ∧ κ.Keeps 1 (whileStatementIn · start) c n c₁
  matchStatement : ∀ {c c₁ n start}, matchStatementIn fuel start c = .ok (n, c₁) →
    c₁.rest.length < c.rest.length ∧ κ.Keeps 1 (matchStatementIn · start) c n c₁
  matchBranches : ∀ {c c₁ ns}, matchBranchesIn fuel c = .ok (ns, c₁) →
    c₁.rest.length ≤ c.rest.length ∧ κ.Keeps 1 matchBranchesIn c ns c₁

variable {κ : Cutting} {c c' c₁ : Cursor} {fuel start : Nat} {n : Node} {ns : List Node}

theorem Keeps.mono {α : Type} {k k' : Nat} {f : Nat → Cursor → Except ParseError (α × Cursor)} {a : α}
    (h : κ.Keeps k f c a c₁) (hk : k ≤ k') : κ.Keeps k' f c a c₁ := by
  intro hkeep c' hc
  obtain ⟨c₁', hcut, h₁⟩ := h hkeep c' hc
  exact ⟨c₁', hcut, fun fuel hfuel => h₁ fuel (by omega)⟩

/-- A rule that enters no other rule of statements. -/
theorem keeps_of_cut {α : Type} {k : Nat} {f : Cursor → Except ParseError (α × Cursor)} {a : α}
    (h : κ.tail.length ≤ c₁.rest.length → ∀ c', κ.Cut c c' →
      ∃ c₁', f c' = .ok (a, c₁') ∧ κ.Cut c₁ c₁') : κ.Keeps k (fun _ => f) c a c₁ := by
  intro hkeep c' hc
  obtain ⟨c₁', hf, hcut⟩ := h hkeep c' hc
  exact ⟨c₁', hcut, fun _ _ => hf⟩

theorem enters {α : Type} {f : Nat → α} {m : Nat} {x : α} (hm : 0 < m)
    (h : ∀ fuel, m ≤ fuel + 1 → f (fuel + 1) = x) : ∀ fuel, m ≤ fuel → f fuel = x := by
  intro fuel hfuel
  cases fuel with
  | zero => omega
  | succ fuel => exact h fuel hfuel

/-- The ways a loop over a value can be read. -/
theorem forStatementIn_eq_ok (h : forStatementIn (fuel + 1) start c = .ok (n, c₁)) :
    ∃ name c₂ c₃ iterable c₄ body, c.advance.expectWord = .ok (name, c₂) ∧
      (if c₂.isOp ":" then c₂.advance.typeHint else .ok c₂) = .ok c₃ ∧ c₃.isWord "in" = true ∧
      c₃.advance.expression = .ok (iterable, c₄) ∧ c₄.isOp ":" = true ∧
      suiteIn fuel c₄.advance = .ok (body, c₁) ∧
      n = ⟨.forStmt, c₁.spanFrom start, iterable :: body⟩ := by
  simp only [forStatementIn, bind_ok_iff] at h
  obtain ⟨⟨name, c₂⟩, hname, h⟩ := h
  have htail (c₃ : Cursor) (h : (do
      if c₃.isWord "in" then
        let r ← c₃.advance.expression
        let c ← r.2.expectOp ":"
        let s ← suiteIn fuel c
        return ((⟨.forStmt, s.2.spanFrom start, r.1 :: s.1⟩ : Node), s.2)
      else .error (c₃.unexpected (.exactly "in"))) = .ok (n, c₁)) :
      ∃ iterable c₄ body, c₃.isWord "in" = true ∧ c₃.advance.expression = .ok (iterable, c₄) ∧
        c₄.isOp ":" = true ∧ suiteIn fuel c₄.advance = .ok (body, c₁) ∧
        n = ⟨.forStmt, c₁.spanFrom start, iterable :: body⟩ := by
    split at h
    · next hin =>
      obtain ⟨⟨iterable, c₄⟩, hiterable, h⟩ := bind_ok_iff.1 h
      obtain ⟨c₅, hexpect, h⟩ := bind_ok_iff.1 h
      obtain ⟨⟨body, c₆⟩, hbody, hend⟩ := bind_ok_iff.1 h
      obtain ⟨hcolon, rfl⟩ := expectOp_eq_ok.1 hexpect
      cases hend
      exact ⟨iterable, c₄, body, hin, hiterable, hcolon, hbody, rfl⟩
    · cases h
  simp only at h
  split at h
  · next hcolon =>
    obtain ⟨c₃, htype, h⟩ := bind_ok_iff.1 h
    obtain ⟨iterable, c₄, body, hrest⟩ := htail c₃ h
    exact ⟨name, c₂, c₃, iterable, c₄, body, hname, by rw [if_pos hcolon, htype], hrest⟩
  · next hcolon =>
    obtain ⟨iterable, c₄, body, hrest⟩ := htail c₂ h
    exact ⟨name, c₂, c₂, iterable, c₄, body, hname, by rw [if_neg hcolon], hrest⟩

/-- The ways of `forStatementIn_eq_ok` are ways a loop is read. -/
theorem forStatementIn_ok {name : Text} {c₂ c₃ c₄ : Cursor} {iterable : Node} {body : List Node}
    (hname : c.advance.expectWord = .ok (name, c₂))
    (htype : (if c₂.isOp ":" then c₂.advance.typeHint else .ok c₂) = .ok c₃)
    (hin : c₃.isWord "in" = true) (hiterable : c₃.advance.expression = .ok (iterable, c₄))
    (hcolon : c₄.isOp ":" = true) (hbody : suiteIn fuel c₄.advance = .ok (body, c₁)) :
    forStatementIn (fuel + 1) start c =
      .ok (⟨.forStmt, c₁.spanFrom start, iterable :: body⟩, c₁) := by
  have hexpect : c₄.expectOp ":" = .ok c₄.advance := expectOp_eq_ok.2 ⟨hcolon, rfl⟩
  simp only [forStatementIn, hname, bind, Except.bind]
  split at htype
  · next htyped =>
    rw [if_pos htyped]
    simp only [htype, hin, if_true, hiterable, hexpect, hbody]
    rfl
  · next htyped =>
    cases htype
    rw [if_neg htyped]
    simp only [hin, if_true, hiterable, hexpect, hbody]
    rfl

/-- The type of a loop variable before the cut. -/
theorem Cut.forType (h : κ.Cut c c')
    (hok : (if c.isOp ":" then c.advance.typeHint else .ok c) = .ok c₁)
    (hkeep : κ.tail.length ≤ c₁.rest.length) :
    ∃ c₁', (if c'.isOp ":" then c'.advance.typeHint else .ok c') = .ok c₁' ∧ κ.Cut c₁ c₁' := by
  rw [h.rest.isOp]
  split at hok
  · next hcolon =>
    rw [if_pos hcolon]
    exact Cut.typeHint (h.rest.level_of_isOp hcolon).advance hok hkeep
  · next hcolon =>
    cases hok
    rw [if_neg hcolon]
    exact ⟨c', rfl, h⟩

theorem KeptWithin.blockIn_succ (ih : KeptWithin κ fuel) {inBlock : Bool}
    (hok : blockIn (fuel + 1) inBlock c = .ok (ns, c₁)) :
    c₁.rest.length ≤ c.rest.length ∧ κ.Keeps 4 (blockIn · inBlock) c ns c₁ := by
  have hlen := length_skipNewlines_le c
  rw [blockIn] at hok
  cases hk : c.skipNewlines.kind with
  | eof =>
    simp only [hk] at hok
    cases hok
    refine ⟨hlen, fun hkeep c' hc => ?_⟩
    have hcut := hc.skipNewlines hkeep
    have hlevel := hcut.rest.level_of_kind (by simp [hk])
    refine ⟨c'.skipNewlines, hcut, enters (by omega) fun fuel _ => ?_⟩
    simp only [blockIn, hlevel.kind, hk]
  | dedent =>
    simp only [hk] at hok
    have hnext := length_advance_lt (c := c.skipNewlines) (by simp [hk])
    split at hok
    · next hin =>
      cases hok
      refine ⟨by omega, fun hkeep c' hc => ?_⟩
      have hcut := hc.skipNewlines (by omega)
      have hlevel := hcut.rest.level_of_kind (by simp [hk])
      refine ⟨c'.skipNewlines.advance, hcut.level hlevel, enters (by omega) fun fuel _ => ?_⟩
      simp only [blockIn, hlevel.kind, hk, hin, if_true]
    · next hin =>
      obtain ⟨hle, hkeeps⟩ := ih.block hok
      refine ⟨by omega, fun hkeep c' hc => ?_⟩
      have hcut := hc.skipNewlines (by omega)
      have hlevel := hcut.rest.level_of_kind (by simp [hk])
      obtain ⟨c₁', hcut₁, h₁⟩ := hkeeps hkeep _ (hcut.level hlevel)
      have hlt := hcut.rest.length_lt hlevel.advance (by omega) hnext
      have hlen' := length_skipNewlines_le c'
      refine ⟨c₁', hcut₁, enters (by omega) fun fuel hfuel => ?_⟩
      simp only [blockIn, hlevel.kind, hk, if_neg hin]
      exact h₁ fuel (by omega)
  | indent =>
    simp only [hk] at hok
    have hnext := length_advance_lt (c := c.skipNewlines) (by simp [hk])
    obtain ⟨⟨nested, c₂⟩, hnested, hok⟩ := bind_ok_iff.1 hok
    obtain ⟨⟨more, c₃⟩, hmore, hok⟩ := bind_ok_iff.1 hok
    simp only at hok hmore
    cases hok
    obtain ⟨hle₂, hkeeps₂⟩ := ih.block hnested
    obtain ⟨hle₁, hkeeps₁⟩ := ih.block hmore
    refine ⟨by omega, fun hkeep c' hc => ?_⟩
    have hcut := hc.skipNewlines (by omega)
    have hlevel := hcut.rest.level_of_kind (by simp [hk])
    obtain ⟨c₂', hcut₂, h₂⟩ := hkeeps₂ (by omega) _ (hcut.level hlevel)
    obtain ⟨c₁', hcut₁, h₁⟩ := hkeeps₁ hkeep _ hcut₂
    have hlt := hcut.rest.length_lt hlevel.advance (by omega) hnext
    have hlt₂ := hcut.rest.length_lt hcut₂.rest (by omega) (by omega)
    have hlen' := length_skipNewlines_le c'
    refine ⟨c₁', hcut₁, enters (by omega) fun fuel hfuel => ?_⟩
    simp only [blockIn, hlevel.kind, hk, h₂ fuel (by omega), h₁ fuel (by omega), bind, Except.bind]
    rfl
  | word | number | str q | op | newline =>
    simp only [hk] at hok
    obtain ⟨⟨item, c₂⟩, hitem, hok⟩ := bind_ok_iff.1 hok
    obtain ⟨⟨more, c₃⟩, hmore, hok⟩ := bind_ok_iff.1 hok
    simp only at hok hmore
    cases hok
    obtain ⟨hlt₂, hkeeps₂⟩ := ih.statement hitem
    obtain ⟨hle₁, hkeeps₁⟩ := ih.block hmore
    refine ⟨by omega, fun hkeep c' hc => ?_⟩
    have hcut := hc.skipNewlines (by omega)
    have hkeep₂ : κ.tail.length ≤ c₂.rest.length := by omega
    have hlevel := hcut.rest.level_of_lt hkeep₂ hlt₂
    obtain ⟨c₂', hcut₂, h₂⟩ := hkeeps₂ (by omega) _ hcut
    obtain ⟨c₁', hcut₁, h₁⟩ := hkeeps₁ hkeep _ hcut₂
    have hlt := hcut.rest.length_lt hcut₂.rest (by omega) hlt₂
    have hlen' := length_skipNewlines_le c'
    refine ⟨c₁', hcut₁, enters (by omega) fun fuel hfuel => ?_⟩
    simp only [blockIn, hlevel.kind, hk, h₂ fuel (by omega), h₁ fuel (by omega), bind, Except.bind]
    rfl

theorem KeptWithin.suiteIn_succ (ih : KeptWithin κ fuel) (hok : suiteIn (fuel + 1) c = .ok (ns, c₁)) :
    c₁.rest.length < c.rest.length ∧ κ.Keeps 5 suiteIn c ns c₁ := by
  rw [suiteIn] at hok
  simp only at hok
  split at hok
  · next hnewline =>
    have hlen := length_advance_lt (c := c) (by simp [hnewline])
    split at hok
    · next hindent =>
      have hlen' := length_advance_lt (c := c.advance) (by simp [hindent])
      obtain ⟨hle, hkeeps⟩ := ih.block hok
      refine ⟨by omega, fun hkeep c' hc => ?_⟩
      have hlevel := hc.rest.level_of_kind (by simp [hnewline])
      have hnext := hc.level hlevel
      have hlevel' := hnext.rest.level_of_kind (by simp [hindent])
      obtain ⟨c₁', hcut₁, h₁⟩ := hkeeps hkeep _ (hnext.level hlevel')
      have hlt := hc.rest.length_lt hnext.rest (by omega) hlen
      have hlt' := length_advance_le c'.advance
      refine ⟨c₁', hcut₁, enters (by omega) fun fuel hfuel => ?_⟩
      simp only [suiteIn, hlevel.kind, hnewline, hlevel'.kind, hindent, if_true]
      exact h₁ fuel (by omega)
    · next hindent =>
      cases hok
      refine ⟨hlen, fun hkeep c' hc => ?_⟩
      have hlevel := hc.rest.level_of_kind (by simp [hnewline])
      have hnext := hc.level hlevel
      refine ⟨c'.advance, hnext, enters (by omega) fun fuel hfuel => ?_⟩
      simp only [suiteIn, hlevel.kind, hnewline, if_true,
        if_neg (hnext.rest.kind_ne hindent (by decide))]
  · next hnewline =>
    obtain ⟨⟨items, c₂⟩, hitems, hok⟩ := bind_ok_iff.1 hok
    simp only at hok
    cases hok
    obtain ⟨hlt₂, hkeeps⟩ := ih.line hitems
    have hlen : (if c₂.kind = .newline then c₂.advance else c₂).rest.length ≤ c₂.rest.length := by
      split
      · exact length_advance_le c₂
      · exact Nat.le_refl _
    refine ⟨by omega, fun hkeep c' hc => ?_⟩
    have hkeep₂ : κ.tail.length ≤ c₂.rest.length := by omega
    have hlevel := hc.rest.level_of_lt hkeep₂ hlt₂
    obtain ⟨c₂', hcut₂, h₂⟩ := hkeeps (by omega) _ hc
    refine ⟨if c₂'.kind = .newline then c₂'.advance else c₂', ?_,
      enters (by omega) fun fuel hfuel => ?_⟩
    · rcases hcut₂.rest.level_or_front with hlevel₂ | hfront
      · rw [hlevel₂.kind]
        split
        · exact hcut₂.level hlevel₂
        · exact hcut₂
      · rw [if_neg (by simp [hfront.kind])]
        exact hcut₂.pastNewline hfront
    · simp only [suiteIn, hlevel.kind, if_neg hnewline, h₂ fuel (by omega), bind, Except.bind]
      rfl

theorem KeptWithin.lineIn_succ (ih : KeptWithin κ fuel) (hok : lineIn (fuel + 1) c = .ok (ns, c₁)) :
    c₁.rest.length < c.rest.length ∧ κ.Keeps 4 lineIn c ns c₁ := by
  rw [lineIn] at hok
  obtain ⟨⟨item, c₂⟩, hitem, hok⟩ := bind_ok_iff.1 hok
  obtain ⟨hlt₂, hkeeps₂⟩ := ih.statement hitem
  simp only at hok
  split at hok
  · next hsemi =>
    have hlen := length_advance_isOp hsemi
    split at hok
    · next hend =>
      cases hok
      refine ⟨by omega, fun hkeep c' hc => ?_⟩
      obtain ⟨c₂', hcut₂, h₂⟩ := hkeeps₂ (by omega) _ hc
      have hnext := (hcut₂.rest.level_of_isOp hsemi).solid (solid_of_isOp hsemi)
      have hend' := (hnext.rest.level_of_end hend).atStatementEnd.trans hend
      refine ⟨c₂'.advance, hnext, enters (by omega) fun fuel hfuel => ?_⟩
      simp only [lineIn, h₂ fuel (by omega), hcut₂.rest.isOp, hsemi, if_true, hend', bind,
        Except.bind]
      rfl
    · next hend =>
      obtain ⟨⟨items, c₃⟩, hitems, hok⟩ := bind_ok_iff.1 hok
      simp only at hok
      cases hok
      obtain ⟨hlt₁, hkeeps₁⟩ := ih.line hitems
      refine ⟨by omega, fun hkeep c' hc => ?_⟩
      obtain ⟨c₂', hcut₂, h₂⟩ := hkeeps₂ (by omega) _ hc
      have hnext := (hcut₂.rest.level_of_isOp hsemi).solid (solid_of_isOp hsemi)
      have hlevel := hnext.rest.level_of_lt hkeep hlt₁
      obtain ⟨c₁', hcut₁, h₁⟩ := hkeeps₁ hkeep _ hnext
      have hlt := hc.rest.length_lt hnext.rest (by omega) (by omega)
      refine ⟨c₁', hcut₁, enters (by omega) fun fuel hfuel => ?_⟩
      simp only [lineIn, h₂ fuel (by omega), hcut₂.rest.isOp, hsemi, if_true, hlevel.atStatementEnd,
        if_neg hend, h₁ fuel (by omega), bind, Except.bind]
      rfl
  · next hsemi =>
    cases hok
    refine ⟨hlt₂, fun hkeep c' hc => ?_⟩
    obtain ⟨c₂', hcut₂, h₂⟩ := hkeeps₂ hkeep _ hc
    refine ⟨c₂', hcut₂, enters (by omega) fun fuel hfuel => ?_⟩
    simp only [lineIn, h₂ fuel (by omega), hcut₂.rest.isOp, if_neg hsemi, bind, Except.bind]
    rfl

/-- A colon and what follows it. -/
theorem KeptWithin.bodied (ih : KeptWithin κ fuel) (hcolon : c.isOp ":" = true)
    (hbody : suiteIn fuel c.advance = .ok (ns, c₁)) :
    c₁.rest.length < c.rest.length ∧ (κ.tail.length ≤ c₁.rest.length →
      ∀ c' : Cursor, κ.Splits c.rest c'.rest → c'.isOp ":" = true ∧ ∃ c₁', κ.Cut c₁ c₁' ∧
        ∀ fuel, 8 * c'.rest.length ≤ fuel → suiteIn fuel c'.advance = .ok (ns, c₁')) := by
  have hlen := length_advance_isOp hcolon
  obtain ⟨hlt, hkeeps⟩ := ih.suite hbody
  refine ⟨by omega, fun hkeep c' hc => ⟨(hc.isOp ":").trans hcolon, ?_⟩⟩
  have hnext := (hc.level_of_isOp hcolon).solid (solid_of_isOp hcolon)
  obtain ⟨c₁', hcut₁, h₁⟩ := hkeeps hkeep _ hnext
  have hlt' := hc.length_lt hnext.rest (by omega) hlen
  exact ⟨c₁', hcut₁, fun fuel hfuel => h₁ fuel (by omega)⟩

/-- The name of a function before the cut. -/
theorem Cut.functionName (h : κ.Cut c c') (hkeep : κ.tail.length ≤
      (if c.kind = .word then (c.peek.text, c.advance) else ([], c)).2.rest.length) :
    (if c'.kind = .word then (c'.peek.text, c'.advance) else ([], c')).1 =
        (if c.kind = .word then (c.peek.text, c.advance) else ([], c)).1 ∧
      κ.Cut (if c.kind = .word then (c.peek.text, c.advance) else ([], c)).2
        (if c'.kind = .word then (c'.peek.text, c'.advance) else ([], c')).2 := by
  split at hkeep
  · next hk =>
    have hlevel := h.rest.level_of_lt hkeep (length_advance_lt (by simp [hk]))
    rw [if_pos hk, hlevel.kind, if_pos hk, hlevel.peek]
    exact ⟨rfl, h.level hlevel⟩
  · next hk =>
    rw [if_neg hk, if_neg (h.rest.kind_ne hk (by decide))]
    exact ⟨rfl, h⟩

theorem KeptWithin.functionIn_succ (ih : KeptWithin κ fuel) (hk : c.kind = .word)
    (hok : functionIn (fuel + 1) start c = .ok (n, c₁)) :
    c₁.rest.length < c.rest.length ∧ κ.Keeps 1 (functionIn · start) c n c₁ := by
  simp only [functionIn, bind_ok_iff] at hok
  obtain ⟨c₃, hskip, ⟨body, c₄⟩, hbody, hok⟩ := hok
  simp only at hok
  cases hok
  have hlen := length_advance_lt (c := c) (by simp [hk])
  have hlen₂ : (if c.advance.kind = .word then (c.advance.peek.text, c.advance.advance)
      else ([], c.advance)).2.rest.length ≤ c.advance.rest.length := by
    split
    · exact length_advance_le c.advance
    · exact Nat.le_refl _
  have hlen₃ := length_toColon_le hskip
  obtain ⟨hlt, hkeeps⟩ := ih.bodied (isOp_of_toColon hskip) hbody
  refine ⟨by omega, fun hkeep c' hc => ?_⟩
  have hlevel := hc.rest.level_of_lt hkeep (by omega)
  obtain ⟨hname, hcut₂⟩ := (hc.level hlevel).functionName (by omega)
  obtain ⟨c₃', hskip', hcut₃⟩ := hcut₂.skipToColon hskip (by omega)
  obtain ⟨-, c₁', hcut₁, h₁⟩ := hkeeps hkeep _ hcut₃.rest
  have hlt₃ := hc.rest.length_lt hcut₃.rest (by omega) (by omega)
  refine ⟨c₁', hcut₁, enters (by omega) fun fuel hfuel => ?_⟩
  simp only [functionIn, hskip', h₁ fuel (by omega), hname, hcut₁.spanFrom, bind, Except.bind]
  rfl

theorem KeptWithin.classIn_succ (ih : KeptWithin κ fuel)
    (hok : classIn (fuel + 1) start c = .ok (n, c₁)) :
    c₁.rest.length < c.rest.length ∧ κ.Keeps 1 (classIn · start) c n c₁ := by
  simp only [classIn, bind_ok_iff] at hok
  obtain ⟨⟨name, c₂⟩, hname, c₃, hskip, ⟨body, c₄⟩, hbody, hok⟩ := hok
  simp only at hok hskip
  cases hok
  have hlen := length_advance_le c
  have hlen₂ := length_expectWord hname
  have hlen₃ := length_toColon_le hskip
  obtain ⟨hlt, hkeeps⟩ := ih.bodied (isOp_of_toColon hskip) hbody
  refine ⟨by omega, fun hkeep c' hc => ?_⟩
  have hlevel := hc.rest.level_of_lt hkeep (by omega)
  obtain ⟨c₂', hname', hcut₂⟩ := Cut.expectWord hlevel.advance hname (by omega)
  obtain ⟨c₃', hskip', hcut₃⟩ := hcut₂.skipToColon hskip (by omega)
  obtain ⟨-, c₁', hcut₁, h₁⟩ := hkeeps hkeep _ hcut₃.rest
  have hlt₃ := hc.rest.length_lt hcut₃.rest (by omega) (by omega)
  refine ⟨c₁', hcut₁, enters (by omega) fun fuel hfuel => ?_⟩
  simp only [classIn, hname', hskip', h₁ fuel (by omega), hcut₁.spanFrom, bind, Except.bind]
  rfl

theorem KeptWithin.branchIn_succ (ih : KeptWithin κ fuel) {which : Branch} (hk : c.kind = .word)
    (hok : branchIn (fuel + 1) which c = .ok (n, c₁)) :
    c₁.rest.length < c.rest.length ∧ κ.Keeps 1 (branchIn · which) c n c₁ := by
  have hlen := length_advance_lt (c := c) (by simp [hk])
  simp only [branchIn] at hok
  split at hok
  · next hwhich =>
    obtain ⟨⟨condition, c₂⟩, hcondition, hok⟩ := bind_ok_iff.1 hok
    cases hcondition
    obtain ⟨c₃, hexpect, hok⟩ := bind_ok_iff.1 hok
    obtain ⟨⟨body, c₄⟩, hbody, hend⟩ := bind_ok_iff.1 hok
    obtain ⟨hcolon, rfl⟩ := expectOp_eq_ok.1 hexpect
    simp only at hend hcolon hbody
    cases hend
    obtain ⟨hlt, hkeeps⟩ := ih.bodied hcolon hbody
    refine ⟨by omega, fun hkeep c' hc => ?_⟩
    have hlevel := hc.rest.level_of_lt hkeep (by omega)
    obtain ⟨hcolon', c₁', hcut₁, h₁⟩ := hkeeps hkeep _ hlevel.advance
    have hlt' := hc.rest.length_lt hlevel.advance (by omega) hlen
    refine ⟨c₁', hcut₁, enters (by omega) fun fuel hfuel => ?_⟩
    simp only [branchIn, if_pos hwhich, expectOp_eq_ok.2 ⟨hcolon', rfl⟩, h₁ fuel (by omega),
      hcut₁.spanFrom, hlevel.peek, bind, Except.bind]
    rfl
  · next hwhich =>
    obtain ⟨⟨value, c₂⟩, hvalue, hok⟩ := bind_ok_iff.1 hok
    obtain ⟨⟨condition, c₃⟩, hcondition, hok⟩ := bind_ok_iff.1 hok
    cases hcondition
    obtain ⟨c₄, hexpect, hok⟩ := bind_ok_iff.1 hok
    obtain ⟨⟨body, c₅⟩, hbody, hend⟩ := bind_ok_iff.1 hok
    obtain ⟨hcolon, rfl⟩ := expectOp_eq_ok.1 hexpect
    simp only at hend hcolon hbody
    cases hend
    have hlen₂ := length_expression hvalue
    obtain ⟨hlt, hkeeps⟩ := ih.bodied hcolon hbody
    refine ⟨by omega, fun hkeep c' hc => ?_⟩
    have hlevel := hc.rest.level_of_lt hkeep (by omega)
    obtain ⟨-, c₂', hvalue', hcut₂⟩ := expression_cut hvalue (by omega) hlevel.advance
    obtain ⟨hcolon', c₁', hcut₁, h₁⟩ := hkeeps hkeep _ hcut₂.rest
    have hlt' := hc.rest.length_lt hcut₂.rest (by omega) (by omega)
    refine ⟨c₁', hcut₁, enters (by omega) fun fuel hfuel => ?_⟩
    simp only [branchIn, if_neg hwhich, hvalue', expectOp_eq_ok.2 ⟨hcolon', rfl⟩,
      h₁ fuel (by omega), hcut₁.spanFrom, hlevel.peek, bind, Except.bind, pure, Except.pure]

theorem KeptWithin.branchesIn_succ (ih : KeptWithin κ fuel)
    (hok : branchesIn (fuel + 1) c = .ok (ns, c₁)) :
    c₁.rest.length ≤ c.rest.length ∧ κ.Keeps 2 branchesIn c ns c₁ := by
  rw [branchesIn] at hok
  split at hok
  · next helif =>
    obtain ⟨⟨branch, c₂⟩, hbranch, hok⟩ := bind_ok_iff.1 hok
    obtain ⟨⟨others, c₃⟩, hothers, hok⟩ := bind_ok_iff.1 hok
    simp only at hok hothers
    cases hok
    obtain ⟨hlt₂, hkeeps₂⟩ := ih.branch (kind_of_isWord helif) hbranch
    obtain ⟨hle₁, hkeeps₁⟩ := ih.branches hothers
    refine ⟨by omega, fun hkeep c' hc => ?_⟩
    obtain ⟨c₂', hcut₂, h₂⟩ := hkeeps₂ (by omega) _ hc
    obtain ⟨c₁', hcut₁, h₁⟩ := hkeeps₁ hkeep _ hcut₂
    have hlt := hc.rest.length_lt hcut₂.rest (by omega) hlt₂
    refine ⟨c₁', hcut₁, enters (by omega) fun fuel hfuel => ?_⟩
    simp only [branchesIn, hc.rest.isWord "elif" (by decide), helif, if_true, h₂ fuel (by omega),
      h₁ fuel (by omega), bind, Except.bind]
    rfl
  · next helif =>
    split at hok
    · next helse =>
      obtain ⟨⟨branch, c₂⟩, hbranch, hok⟩ := bind_ok_iff.1 hok
      simp only at hok
      cases hok
      obtain ⟨hlt, hkeeps⟩ := ih.branch (kind_of_isWord helse) hbranch
      refine ⟨by omega, fun hkeep c' hc => ?_⟩
      obtain ⟨c₁', hcut₁, h₁⟩ := hkeeps hkeep _ hc
      refine ⟨c₁', hcut₁, enters (by omega) fun fuel hfuel => ?_⟩
      simp only [branchesIn, hc.rest.isWord "elif" (by decide), if_neg helif,
        hc.rest.isWord "else" (by decide), helse, if_true, h₁ fuel (by omega), bind, Except.bind]
      rfl
    · next helse =>
      cases hok
      refine ⟨Nat.le_refl _, fun hkeep c' hc => ⟨c', hc, enters (by omega) fun fuel _ => ?_⟩⟩
      simp only [branchesIn, hc.rest.isWord "elif" (by decide), if_neg helif,
        hc.rest.isWord "else" (by decide), if_neg helse]

theorem KeptWithin.ifStatementIn_succ (ih : KeptWithin κ fuel) (hk : c.kind = .word)
    (hok : ifStatementIn (fuel + 1) start c = .ok (n, c₁)) :
    c₁.rest.length < c.rest.length ∧ κ.Keeps 2 (ifStatementIn · start) c n c₁ := by
  simp only [ifStatementIn, bind_ok_iff] at hok
  obtain ⟨⟨first, c₂⟩, hfirst, ⟨others, c₃⟩, hothers, hok⟩ := hok
  simp only at hok hothers
  cases hok
  obtain ⟨hlt₂, hkeeps₂⟩ := ih.branch hk hfirst
  obtain ⟨hle₁, hkeeps₁⟩ := ih.branches hothers
  refine ⟨by omega, fun hkeep c' hc => ?_⟩
  obtain ⟨c₂', hcut₂, h₂⟩ := hkeeps₂ (by omega) _ hc
  obtain ⟨c₁', hcut₁, h₁⟩ := hkeeps₁ hkeep _ hcut₂
  have hlt := hc.rest.length_lt hcut₂.rest (by omega) hlt₂
  refine ⟨c₁', hcut₁, enters (by omega) fun fuel hfuel => ?_⟩
  simp only [ifStatementIn, h₂ fuel (by omega), h₁ fuel (by omega), hcut₁.spanFrom, bind,
    Except.bind]
  rfl

theorem KeptWithin.whileStatementIn_succ (ih : KeptWithin κ fuel)
    (hok : whileStatementIn (fuel + 1) start c = .ok (n, c₁)) :
    c₁.rest.length < c.rest.length ∧ κ.Keeps 1 (whileStatementIn · start) c n c₁ := by
  simp only [whileStatementIn, bind_ok_iff] at hok
  obtain ⟨⟨condition, c₂⟩, hcondition, c₃, hexpect, ⟨body, c₄⟩, hbody, hend⟩ := hok
  obtain ⟨hcolon, rfl⟩ := expectOp_eq_ok.1 hexpect
  simp only at hend hcolon hbody
  cases hend
  have hlen := length_advance_le c
  have hlen₂ := length_expression hcondition
  obtain ⟨hlt, hkeeps⟩ := ih.bodied hcolon hbody
  refine ⟨by omega, fun hkeep c' hc => ?_⟩
  have hlevel := hc.rest.level_of_lt hkeep (by omega)
  obtain ⟨-, c₂', hcondition', hcut₂⟩ := expression_cut hcondition (by omega) hlevel.advance
  obtain ⟨hcolon', c₁', hcut₁, h₁⟩ := hkeeps hkeep _ hcut₂.rest
  have hlt' := hc.rest.length_lt hcut₂.rest (by omega) (by omega)
  refine ⟨c₁', hcut₁, enters (by omega) fun fuel hfuel => ?_⟩
  simp only [whileStatementIn, hcondition', expectOp_eq_ok.2 ⟨hcolon', rfl⟩, h₁ fuel (by omega),
    hcut₁.spanFrom, bind, Except.bind]
  rfl

theorem KeptWithin.forStatementIn_succ (ih : KeptWithin κ fuel)
    (hok : forStatementIn (fuel + 1) start c = .ok (n, c₁)) :
    c₁.rest.length < c.rest.length ∧ κ.Keeps 1 (forStatementIn · start) c n c₁ := by
  obtain ⟨name, c₂, c₃, iterable, c₄, body, hname, htype, hin, hiterable, hcolon, hbody, rfl⟩ :=
    forStatementIn_eq_ok hok
  have hlen := length_advance_le c
  have hlen₂ := length_expectWord hname
  have hlen₃ := length_optionalType_le htype
  have hlen₄ := length_advance_le c₃
  have hlen₅ := length_expression hiterable
  obtain ⟨hlt, hkeeps⟩ := ih.bodied hcolon hbody
  refine ⟨by omega, fun hkeep c' hc => ?_⟩
  have hlevel := hc.rest.level_of_lt hkeep (by omega)
  obtain ⟨c₂', hname', hcut₂⟩ := Cut.expectWord hlevel.advance hname (by omega)
  obtain ⟨c₃', htype', hcut₃⟩ := hcut₂.forType htype (by omega)
  have hlevel₃ := hcut₃.rest.level_of_isWord hin (by decide)
  obtain ⟨-, c₄', hiterable', hcut₄⟩ := expression_cut hiterable (by omega) hlevel₃.advance
  obtain ⟨hcolon', c₁', hcut₁, h₁⟩ := hkeeps hkeep _ hcut₄.rest
  have hlt' := hc.rest.length_lt hcut₄.rest (by omega) (by omega)
  refine ⟨c₁', hcut₁, enters (by omega) fun fuel hfuel => ?_⟩
  rw [← hcut₁.spanFrom]
  have hin' := (hcut₃.rest.isWord "in" (by decide)).trans hin
  exact forStatementIn_ok hname' htype' hin' hiterable' hcolon' (h₁ fuel (by omega))

theorem KeptWithin.matchStatementIn_succ (ih : KeptWithin κ fuel)
    (hok : matchStatementIn (fuel + 1) start c = .ok (n, c₁)) :
    c₁.rest.length < c.rest.length ∧ κ.Keeps 1 (matchStatementIn · start) c n c₁ := by
  simp only [matchStatementIn, bind_ok_iff] at hok
  obtain ⟨⟨subject, c₂⟩, hsubject, c₃, hexpect, hend⟩ := hok
  obtain ⟨hcolon, rfl⟩ := expectOp_eq_ok.1 hexpect
  simp only at hend hcolon
  have hlen := length_advance_le c
  have hlen₂ := length_expression hsubject
  have hlen₃ := length_advance_isOp hcolon
  split at hend
  · next hnewline =>
    have hlen₄ := length_advance_lt (c := c₂.advance) (by simp [hnewline])
    split at hend
    · next hindent =>
      have hlen₅ := length_advance_lt (c := c₂.advance.advance) (by simp [hindent])
      obtain ⟨⟨branches, c₄⟩, hbranches, hend⟩ := bind_ok_iff.1 hend
      simp only at hend
      cases hend
      obtain ⟨hle, hkeeps⟩ := ih.matchBranches hbranches
      refine ⟨by omega, fun hkeep c' hc => ?_⟩
      have hlevel := hc.rest.level_of_lt hkeep (by omega)
      obtain ⟨-, c₂', hsubject', hcut₂⟩ := expression_cut hsubject (by omega) hlevel.advance
      have hcut₃ := (hcut₂.rest.level_of_isOp hcolon).solid (solid_of_isOp hcolon)
      have hlevel₃ := hcut₃.rest.level_of_kind (by simp [hnewline])
      have hcut₄ := hcut₃.level hlevel₃
      have hlevel₄ := hcut₄.rest.level_of_kind (by simp [hindent])
      have hcut₅ := hcut₄.level hlevel₄
      obtain ⟨c₁', hcut₁, h₁⟩ := hkeeps hkeep _ hcut₅
      have hlt' := hc.rest.length_lt hcut₅.rest (by omega) (by omega)
      refine ⟨c₁', hcut₁, enters (by omega) fun fuel hfuel => ?_⟩
      simp only [matchStatementIn, hsubject',
        expectOp_eq_ok.2 ⟨(hcut₂.rest.isOp ":").trans hcolon, rfl⟩, hlevel₃.kind, hnewline,
        hlevel₄.kind, hindent, if_true, h₁ fuel (by omega), hcut₁.spanFrom, bind, Except.bind]
      rfl
    · next hindent =>
      cases hend
      refine ⟨by omega, fun hkeep c' hc => ?_⟩
      have hlevel := hc.rest.level_of_lt hkeep (by omega)
      obtain ⟨-, c₂', hsubject', hcut₂⟩ := expression_cut hsubject (by omega) hlevel.advance
      have hcut₃ := (hcut₂.rest.level_of_isOp hcolon).solid (solid_of_isOp hcolon)
      have hlevel₃ := hcut₃.rest.level_of_kind (by simp [hnewline])
      have hcut₄ := hcut₃.level hlevel₃
      refine ⟨c₂'.advance.advance, hcut₄, enters (by omega) fun fuel hfuel => ?_⟩
      simp only [matchStatementIn, hsubject',
        expectOp_eq_ok.2 ⟨(hcut₂.rest.isOp ":").trans hcolon, rfl⟩, hlevel₃.kind, hnewline,
        if_neg (hcut₄.rest.kind_ne hindent (by decide)), if_true, hcut₄.spanFrom, bind, Except.bind]
      rfl
  · cases hend

theorem KeptWithin.matchBranchesIn_succ (ih : KeptWithin κ fuel)
    (hok : matchBranchesIn (fuel + 1) c = .ok (ns, c₁)) :
    c₁.rest.length ≤ c.rest.length ∧ κ.Keeps 1 matchBranchesIn c ns c₁ := by
  have hlen := length_skipNewlines_le c
  rw [matchBranchesIn] at hok
  cases hk : c.skipNewlines.kind with
  | dedent =>
    simp only [hk] at hok
    cases hok
    have hnext := length_advance_le c.skipNewlines
    refine ⟨by omega, fun hkeep c' hc => ?_⟩
    have hcut := hc.skipNewlines (by omega)
    have hlevel := hcut.rest.level_of_kind (by simp [hk])
    refine ⟨c'.skipNewlines.advance, hcut.level hlevel, enters (by omega) fun fuel _ => ?_⟩
    simp only [matchBranchesIn, hlevel.kind, hk]
  | eof =>
    simp only [hk] at hok
    cases hok
    refine ⟨hlen, fun hkeep c' hc => ?_⟩
    have hcut := hc.skipNewlines hkeep
    have hlevel := hcut.rest.level_of_kind (by simp [hk])
    refine ⟨c'.skipNewlines, hcut, enters (by omega) fun fuel _ => ?_⟩
    simp only [matchBranchesIn, hlevel.kind, hk]
  | word | number | str q | op | newline | indent =>
    simp only [hk, bind_ok_iff] at hok
    obtain ⟨c₂, hskip, ⟨body, c₃⟩, hbody, ⟨more, c₄⟩, hmore, hok⟩ := hok
    simp only at hok hmore
    cases hok
    have hlen₂ : c₂.rest.length ≤ c.skipNewlines.rest.length := length_toColon_le hskip
    obtain ⟨hlt₃, hkeeps₃⟩ := ih.bodied (isOp_of_toColon hskip) hbody
    obtain ⟨hle₁, hkeeps₁⟩ := ih.matchBranches hmore
    refine ⟨by omega, fun hkeep c' hc => ?_⟩
    have hcut := hc.skipNewlines (by omega)
    have hkeep₃ : κ.tail.length ≤ c₃.rest.length := by omega
    have hlevel := hcut.rest.level_of_lt hkeep₃ (by omega)
    obtain ⟨c₂', hskip', hcut₂⟩ := hcut.skipToColon hskip (by omega)
    obtain ⟨-, c₃', hcut₃, h₃⟩ := hkeeps₃ (by omega) _ hcut₂.rest
    obtain ⟨c₁', hcut₁, h₁⟩ := hkeeps₁ hkeep _ hcut₃
    have hlt := hcut.rest.length_lt hcut₃.rest (by omega) (by omega)
    have hlen' := length_skipNewlines_le c'
    have hlen₂' : c₂'.rest.length ≤ c'.skipNewlines.rest.length := length_toColon_le hskip'
    refine ⟨c₁', hcut₁, enters (by omega) fun fuel hfuel => ?_⟩
    simp only [matchBranchesIn, hlevel.kind, hk, hskip', h₃ fuel (by omega), h₁ fuel (by omega),
      hlevel.peek, hcut₂.spanFrom, hcut₃.spanFrom, bind, Except.bind]
    rfl

/-- Modifiers and the declaration they stand before. -/
theorem KeptWithin.modified (ih : KeptWithin κ fuel)
    (hok : (if (skipModifiers c.rest.length c).isWord "var" then
        (skipModifiers c.rest.length c).varStatement start
      else if (skipModifiers c.rest.length c).isWord "func" then
        functionIn fuel start (skipModifiers c.rest.length c)
      else if (skipModifiers c.rest.length c).isWord "const" then
        pure ((skipModifiers c.rest.length c).plainDeclaration .constDecl start)
      else .error ((skipModifiers c.rest.length c).unexpected .declaration)) = .ok (n, c₁)) :
    c₁.rest.length < (skipModifiers c.rest.length c).rest.length ∧ κ.Keeps 2 (fun fuel c =>
      let c := skipModifiers c.rest.length c
      if c.isWord "var" then c.varStatement start
      else if c.isWord "func" then functionIn fuel start c
      else if c.isWord "const" then return c.plainDeclaration .constDecl start
      else .error (c.unexpected .declaration)) c n c₁ := by
  have hskip {c' : Cursor} (hkeep : κ.tail.length ≤ c₁.rest.length)
      (hlt : c₁.rest.length < (skipModifiers c.rest.length c).rest.length) (hc : κ.Cut c c') :
      κ.Cut (skipModifiers c.rest.length c) (skipModifiers c'.rest.length c') ∧
        (∀ w, (skipModifiers c'.rest.length c').isWord w = (skipModifiers c.rest.length c).isWord w) ∧
        (skipModifiers c'.rest.length c').rest.length ≤ c'.rest.length := by
    have hcut := hc.skipModifiers (Nat.le_refl _) (Nat.le_refl _) (by omega)
    have hpeek := (hcut.rest.level_of_lt hkeep hlt).peek
    exact ⟨hcut, fun w => by rw [Cursor.isWord, hpeek, Cursor.isWord], length_skipModifiers_le _ c'⟩
  generalize skipModifiers c.rest.length c = d at hok hskip ⊢
  split at hok
  · next hvar =>
    have hlt := length_varStatement hok
    refine ⟨hlt, fun hkeep c' hc => ?_⟩
    obtain ⟨hcut, hword, -⟩ := hskip hkeep hlt hc
    obtain ⟨c₁', hok', hcut₁⟩ := hcut.varStatement hok hkeep
    exact ⟨c₁', hcut₁, fun fuel _ => by simp only [hword, if_pos hvar, hok']⟩
  · next hvar =>
    split at hok
    · next hfunc =>
      obtain ⟨hlt, hkeeps⟩ := ih.function (kind_of_isWord hfunc) hok
      refine ⟨hlt, fun hkeep c' hc => ?_⟩
      obtain ⟨hcut, hword, hle⟩ := hskip hkeep hlt hc
      obtain ⟨c₁', hcut₁, h₁⟩ := hkeeps hkeep _ hcut
      refine ⟨c₁', hcut₁, fun fuel hfuel => ?_⟩
      simp only [hword, if_neg hvar, if_pos hfunc]
      exact h₁ fuel (by omega)
    · next hfunc =>
      split at hok
      · next hconst =>
        simp only [pure, Except.pure, Except.ok.injEq] at hok
        have hlt : c₁.rest.length < d.rest.length := by
          cases hok
          exact length_skipToStatementEnd_lt (kind_of_isWord hconst)
        refine ⟨hlt, fun hkeep c' hc => ?_⟩
        obtain ⟨hcut, hword, -⟩ := hskip hkeep hlt hc
        obtain ⟨c₁', hok', hcut₁⟩ := hcut.plainDeclaration hok hkeep
        refine ⟨c₁', hcut₁, fun fuel _ => ?_⟩
        simp only [hword, if_neg hvar, if_neg hfunc, if_pos hconst, hok']
        rfl
      · cases hok

theorem KeptWithin.statementIn_succ (ih : KeptWithin κ fuel)
    (hok : statementIn (fuel + 1) c = .ok (n, c₁)) :
    c₁.rest.length < c.rest.length ∧ κ.Keeps 3 statementIn c n c₁ := by
  generalize hstart : c.peek.span.start = start
  simp only [statementIn, bind_ok_iff, hstart] at hok
  obtain ⟨⟨ended, c₂⟩, hannotations, hok⟩ := hok
  have hread := annotations_eq_or_lt hannotations
  have hle := length_annotations_le hannotations
  simp only at hok
  -- Before the cut the annotations are the same.
  have hsame {c' : Cursor} (hb : κ.Before c₂) (hc : κ.Cut c c') : c'.peek.span.start = start ∧
      ∃ c₂', annotations c'.rest.length c' = .ok (ended, c₂') ∧ κ.Cut c₂ c₂' ∧ κ.Level c₂ c₂' ∧
        c₂'.rest.length ≤ c'.rest.length := by
    have hlevel := hc.rest.level_of_before (hb.of_eq_or_lt (hread.imp And.left And.left))
    obtain ⟨c₂', hannotations', hcut⟩ :=
      hc.annotations hannotations hb (Nat.le_refl _) (Nat.le_refl _)
    exact ⟨by rw [hlevel.peek, hstart], c₂', hannotations', hcut, hcut.rest.level_of_before hb,
      length_annotations_le hannotations'⟩
  split at hok
  · next hended =>
    cases hok
    obtain ⟨-, he⟩ | ⟨hlt, hend⟩ := hread
    · rw [hended] at he
      cases he
    · refine ⟨hlt, fun hkeep c' hc => ?_⟩
      obtain ⟨hstart', c₂', hannotations', hcut, -⟩ := hsame (before_of_end hkeep (hend hended)) hc
      refine ⟨c₂', hcut, enters (by omega) fun fuel hfuel => ?_⟩
      simp only [statementIn, hannotations', hended, if_true, hstart', hcut.spanFrom, bind,
        Except.bind]
      rfl
  · next hended =>
    -- What a statement of one kind does from the place after the annotations.
    have hfrom {f : Nat → Cursor → Except ParseError (Node × Cursor)}
        (hlt : c₁.rest.length < c₂.rest.length) (hkeeps : κ.Keeps 2 f c₂ n c₁)
        (hf : ∀ (fuel : Nat) (c' c₂' : Cursor), c'.peek.span.start = start →
          annotations c'.rest.length c' = .ok (ended, c₂') → c₂'.peek = c₂.peek →
          statementIn (fuel + 1) c' = f fuel c₂') :
        c₁.rest.length < c.rest.length ∧ κ.Keeps 3 statementIn c n c₁ := by
      refine ⟨by omega, fun hkeep c' hc => ?_⟩
      obtain ⟨hstart', c₂', hannotations', hcut, hlevel, hle'⟩ := hsame (.inl (by omega)) hc
      obtain ⟨c₁', hcut₁, h₁⟩ := hkeeps hkeep _ hcut
      refine ⟨c₁', hcut₁, enters (by omega) fun fuel hfuel => ?_⟩
      rw [hf fuel c' c₂' hstart' hannotations' hlevel.peek]
      exact h₁ fuel (by omega)
    cases ho : opening c₂.peek with
    | plain kind =>
      simp only [ho, pure, Except.pure, Except.ok.injEq] at hok
      have hk := (word_of_plainDeclaration? (plain_of_opening ho)).1
      have hlt : c₁.rest.length < c₂.rest.length := by
        cases hok
        exact length_skipToStatementEnd_lt hk
      refine hfrom hlt (f := fun _ c => .ok (c.plainDeclaration kind start))
        (keeps_of_cut fun hkeep c' hc => ?_) fun fuel c' c₂' hs ha hp => ?_
      · obtain ⟨c₁', hplain, hcut⟩ := hc.plainDeclaration hok hkeep
        exact ⟨c₁', by rw [hplain], hcut⟩
      · simp only [statementIn, ha, hs, hp, ho, if_neg hended, bind, Except.bind]
        rfl
    | keyword =>
      simp only [ho] at hok
      obtain ⟨u, hend, hok⟩ := bind_ok_iff.1 hok
      cases hok
      have hend := expectStatementEnd_eq_ok.1 hend
      have hk := word_of_opening ho (by simp)
      have hlt := length_advance_lt (c := c₂) (by simp [hk])
      refine hfrom hlt (f := fun _ c => do
          c.advance.expectStatementEnd
          return (⟨.keywordStmt, c.advance.spanFrom start, []⟩, c.advance))
        (keeps_of_cut fun hkeep c' hc => ?_) fun fuel c' c₂' hs ha hp => ?_
      · have hlevel := hc.rest.level_of_lt hkeep hlt
        have hcut := hc.level hlevel
        have hend' := (hcut.rest.level_of_end hend).atStatementEnd.trans hend
        refine ⟨c'.advance, ?_, hcut⟩
        rw [expectStatementEnd_eq_ok (u := ()).2 hend', hcut.spanFrom]
        rfl
      · simp only [statementIn, ha, hs, hp, ho, if_neg hended, bind, Except.bind]
    | modifier =>
      simp only [ho] at hok
      obtain ⟨hlt, hkeeps⟩ := ih.modified hok
      have hle := length_skipModifiers_le c₂.rest.length c₂
      refine hfrom (by omega) hkeeps fun fuel c' c₂' hs ha hp => ?_
      simp only [statementIn, ha, hs, hp, ho, if_neg hended, bind, Except.bind]
    | varDecl =>
      simp only [ho] at hok
      refine hfrom (length_varStatement hok) (f := fun _ => varStatement start)
        (keeps_of_cut fun hkeep c' hc => hc.varStatement hok hkeep) fun fuel c' c₂' hs ha hp => ?_
      simp only [statementIn, ha, hs, hp, ho, if_neg hended, bind, Except.bind]
    | funcDecl =>
      simp only [ho] at hok
      obtain ⟨hlt, hkeeps⟩ := ih.function (word_of_opening ho (by simp)) hok
      refine hfrom hlt (hkeeps.mono (by omega)) fun fuel c' c₂' hs ha hp => ?_
      simp only [statementIn, ha, hs, hp, ho, if_neg hended, bind, Except.bind]
    | classDecl =>
      simp only [ho] at hok
      obtain ⟨hlt, hkeeps⟩ := ih.class_ hok
      refine hfrom hlt (hkeeps.mono (by omega)) fun fuel c' c₂' hs ha hp => ?_
      simp only [statementIn, ha, hs, hp, ho, if_neg hended, bind, Except.bind]
    | ifStmt =>
      simp only [ho] at hok
      obtain ⟨hlt, hkeeps⟩ := ih.ifStatement (word_of_opening ho (by simp)) hok
      refine hfrom hlt hkeeps fun fuel c' c₂' hs ha hp => ?_
      simp only [statementIn, ha, hs, hp, ho, if_neg hended, bind, Except.bind]
    | forStmt =>
      simp only [ho] at hok
      obtain ⟨hlt, hkeeps⟩ := ih.forStatement hok
      refine hfrom hlt (hkeeps.mono (by omega)) fun fuel c' c₂' hs ha hp => ?_
      simp only [statementIn, ha, hs, hp, ho, if_neg hended, bind, Except.bind]
    | whileStmt =>
      simp only [ho] at hok
      obtain ⟨hlt, hkeeps⟩ := ih.whileStatement hok
      refine hfrom hlt (hkeeps.mono (by omega)) fun fuel c' c₂' hs ha hp => ?_
      simp only [statementIn, ha, hs, hp, ho, if_neg hended, bind, Except.bind]
    | matchStmt =>
      simp only [ho] at hok
      obtain ⟨hlt, hkeeps⟩ := ih.matchStatement hok
      refine hfrom hlt (hkeeps.mono (by omega)) fun fuel c' c₂' hs ha hp => ?_
      simp only [statementIn, ha, hs, hp, ho, if_neg hended, bind, Except.bind]
    | returnStmt =>
      simp only [ho] at hok
      have hk := word_of_opening ho (by simp)
      refine hfrom (length_returnStatement hk hok) (f := fun _ => returnStatement start)
        (keeps_of_cut fun hkeep c' hc => hc.returnStatement hk hok hkeep)
        fun fuel c' c₂' hs ha hp => ?_
      simp only [statementIn, ha, hs, hp, ho, if_neg hended, bind, Except.bind]
    | orphan => simp [ho] at hok
    | expression =>
      simp only [ho] at hok
      refine hfrom (length_expressionStatement hok) (f := fun _ => expressionStatement start)
        (keeps_of_cut fun hkeep c' hc => hc.expressionStatement hok hkeep)
        fun fuel c' c₂' hs ha hp => ?_
      simp only [statementIn, ha, hs, hp, ho, if_neg hended, bind, Except.bind]

/-- By induction on the bound, which every rule hands on one less. -/
theorem keptWithin (κ : Cutting) (fuel : Nat) : KeptWithin κ fuel := by
  induction fuel with
  | zero =>
    constructor <;>
      simp [blockIn, suiteIn, lineIn, statementIn, functionIn, classIn, ifStatementIn, branchesIn,
        branchIn, forStatementIn, whileStatementIn, matchStatementIn, matchBranchesIn]
  | succ fuel ih =>
    exact ⟨ih.blockIn_succ, ih.suiteIn_succ, ih.lineIn_succ, ih.statementIn_succ,
      ih.functionIn_succ, ih.classIn_succ, ih.ifStatementIn_succ, ih.branchesIn_succ,
      ih.branchIn_succ, ih.forStatementIn_succ, ih.whileStatementIn_succ,
      ih.matchStatementIn_succ, ih.matchBranchesIn_succ⟩

end Cutting

end Phrasebook
