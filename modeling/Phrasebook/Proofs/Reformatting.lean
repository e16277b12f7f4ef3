import Phrasebook.Proofs.Grammar.Headers
import Phrasebook.Proofs.Insets
import Phrasebook.Proofs.LineStarts
import Phrasebook.Proofs.Unkeyed

/-!
Lines without code between statements.

Where a logical line begins there stands a mark of the line structure (`Lexeme.Breaks`), so neither the
header of a branch nor a simple statement that is not cut by the place has lexemes on both sides of it.
Hence a script with lines without code put in there is still a script, with the same finds
(`Tree.ofScript_insert`), and each text keeps its fingerprint and its key (`Script.parse_insert`).
-/
namespace Phrasebook

open Text (Stands size isBoundary unifyBreaks dropMark)

namespace Lexeme

/-- No lexeme has the place inside, and before it a line has ended. -/
structure Breaks (place : Nat) (old new : List Lexeme) : Prop where
  before : ∀ l ∈ old, l.span.stop < place
  after : ∀ l ∈ new, place ≤ l.span.start
  mark : ∀ l ∈ old.getLast?, l.kind.isSolid = false

variable {place : Nat} {old new : List Lexeme} {a : Span} {source : Text}

/-- Lexemes with text that stand side by side are on one side of the place. -/
theorem Breaks.clear_of_joins (h : Breaks place old new) (ha : Joins (old ++ new) a) :
    a.stop < place ∨ place ≤ a.start := by
  obtain ⟨run, ⟨xs, ys, hrun⟩, hsolid, ⟨first, hfirst, hstart⟩, last, hlast, hstop⟩ := ha
  rw [List.append_assoc] at hrun
  rcases List.append_eq_append_iff.1 hrun with ⟨us, hold, hrest⟩ | ⟨us, rfl, hnew⟩
  · rcases List.append_eq_append_iff.1 hrest with ⟨vs, rfl, -⟩ | ⟨vs, rfl, hys⟩
    · -- The run is part of the lexemes before the place.
      refine .inl ?_
      rw [hstop]
      refine h.before last ?_
      rw [hold]
      exact List.mem_append_right _ (List.mem_append_left _ (List.mem_of_mem_getLast? hlast))
    · -- It goes on behind the last of them, which is a mark and has no text.
      cases us using List.reverseRecOn with
      | nil =>
        refine .inr ?_
        rw [hstart]
        refine h.after first ?_
        rw [hys]
        exact List.mem_append_left _ (List.mem_of_mem_head? hfirst)
      | append_singleton us u =>
        have hmark := h.mark u (by rw [hold, ← List.append_assoc]; exact List.getLast?_concat)
        rw [hsolid u (by simp)] at hmark
        cases hmark
  · refine .inr ?_
    rw [hstart]
    refine h.after first ?_
    rw [hnew]
    exact List.mem_append_right _ (List.mem_append_left _ (List.mem_of_mem_head? hfirst))

/-- A lexeme with text does not end at the place. -/
theorem Breaks.stop_ne (h : Breaks place old new) {l : Lexeme} (hl : l ∈ old ++ new)
    (hplaced : l.Placed source) (hs : l.kind.isSolid = true) : l.span.stop ≠ place := by
  have hlt := hplaced.lt hs
  rcases List.mem_append.1 hl with hl | hl
  · exact Nat.ne_of_lt (h.before l hl)
  · have := h.after l hl
    omega

theorem Joins.isBoundary_start {ls : List Lexeme} (h : Joins ls a)
    (hplaced : ∀ l ∈ ls, l.Placed source) : isBoundary a.start source = true := by
  obtain ⟨run, hrun, hsolid, ⟨first, hfirst, hstart⟩, -⟩ := h
  have hmem := List.mem_of_mem_head? hfirst
  obtain ⟨u, v, huv, hspan⟩ := ((hplaced first (hrun.subset hmem)).stands (hsolid first hmem)).1
  rw [hstart]
  exact Text.isBoundary_iff.2 ⟨u, first.text ++ v, by rw [huv, List.append_assoc], by rw [hspan]⟩

end Lexeme

namespace Node

variable {source : Text} {n : Node} {m : Located} {above : List (Node × Nat)}

/-- Above a statement there is no expression. -/
theorem Laid.above_of_mem_locate (h : n.Laid source) (hm : m ∈ n.locate above)
    (hk : m.node.kind.isExpression = false) :
    ∀ a ∈ m.above, a ∈ above ∨ a.1.kind.isExpression = false := by
  induction n using childrenFirst generalizing above with
  | h n ih =>
    rcases mem_locate.1 hm with rfl | ⟨i, c, hc, hmc⟩
    · exact fun a ha => .inl ha
    · intro a ha
      have hmem := List.mem_of_getElem? hc
      rcases ih c hmem (h.of_mem_children hmem) hmc a ha with ha | ha
      · rcases List.mem_cons.1 ha with rfl | ha
        · refine .inr (Bool.eq_false_iff.2 fun he => ?_)
          rw [h.isExpression_below he m hm] at hk
          cases hk
        · exact .inl ha
      · exact .inr ha

/-- The condition of a branch is an expression in it, behind its word. -/
theorem Laid.of_mem_condition? (h : n.Laid source) {c : Node} (hc : c ∈ n.condition?) :
    n.kind.isGuarded = true ∧ c.Laid source ∧ c.kind.isExpression = true ∧
      n.span.start ≤ c.span.start := by
  have hg : n.kind.isGuarded = true := by
    by_contra hg
    rw [Bool.not_eq_true] at hg
    have hnone := header?_eq_none hg
    rw [header?, hc] at hnone
    cases hnone
  have hfirst : n.children[0]? = some c := (Finds.condition?_eq hg).symm.trans hc
  obtain ⟨hlaid, hstart, -⟩ := h.row.of_mem (List.mem_of_getElem? hfirst)
  exact ⟨hg, hlaid, Finds.isExpression_of_isCondition h hg hfirst, hstart⟩

end Node

namespace Inset

open Lexeme Node

variable {i : Inset} {source : Text} {old new : List Lexeme} {n : Node} {l : Located}

/-- A condition is settled together with the header that it ends. -/
theorem settlesGuard_of_joins {condition : Node} (hl : l.node.Laid source)
    (hc : condition ∈ l.node.condition?)
    (hjoins : Joins (old ++ new) ⟨l.node.span.start, condition.span.stop⟩)
    (hplaced : ∀ x ∈ old ++ new, x.Placed source) (hbreaks : Breaks i.place old new)
    (hcalls : ∀ a ∈ l.above, a.1.kind ≠ .call) : i.SettlesGuard source l condition := by
  obtain ⟨hg, hlaid, he, hstart⟩ := hl.of_mem_condition? hc
  obtain ⟨hlt, -, hstop⟩ := hlaid.fit.bounds (.inl he)
  have hclear : i.Clear ⟨l.node.span.start, condition.span.stop⟩ := hbreaks.clear_of_joins hjoins
  have hbranch : l.node.kind ≠ .call := by
    intro hk
    rw [hk] at hg
    cases hg
  refine ⟨⟨⟨hlaid, .inl he, hclear.mono hstart (Nat.le_refl _)⟩, ?_⟩, ?_, hclear⟩
  · exact List.forall_mem_cons.2
      ⟨fun hk => absurd hk hbranch, fun a ha hk => absurd hk (hcalls a ha)⟩
  · exact ⟨_, Text.stands_slice (hjoins.isBoundary_start hplaced) hstop (by omega)⟩

/-- What is found in a statement is settled where lines are put in between statements. -/
theorem admits_of_anchored (hn : n.Laid source) (hanchored : AnchoredAll (old ++ new) [n])
    (hplaced : ∀ x ∈ old ++ new, x.Placed source) (hbreaks : Breaks i.place old new)
    (hclear : ∀ m ∈ n.preorder, m.kind.isSimple = true →
      ¬ (m.span.start < i.place ∧ i.place < m.span.stop)) :
    ∀ l ∈ n.locate [], i.Admits source l := by
  intro l hl
  have hmem {l : Located} (hl : l ∈ n.locate []) : l.node ∈ n.preorder := by
    rw [← map_node_locate n []]
    exact List.mem_map_of_mem hl
  have hanchor {l : Located} (hl : l ∈ n.locate []) : l.node.Anchored (old ++ new) :=
    hanchored _ (by rw [preorderAll, preorderAll, List.append_nil]; exact hmem hl)
  have hcalls (hk : l.node.kind.isExpression = false) : ∀ a ∈ l.above, a.1.kind ≠ .call := by
    intro a ha hcall
    rcases hn.above_of_mem_locate hl hk a ha with hnil | he
    · cases hnil
    · rw [hcall] at he
      cases he
  refine ⟨fun hs => ?_, fun hk branch hbranch k condition hcondition => ?_⟩
  · have hk : l.node.kind.isExpression = false :=
      Bool.eq_false_iff.2 fun he => by
        rw [(Kind.not_compound_of_isExpression he).1] at hs
        cases hs
    obtain ⟨x, hx, hsolid, hstop⟩ := (hanchor hl).stop hs
    have hne := hbreaks.stop_ne hx (hplaced x hx) hsolid
    have hcut := hclear l.node (hmem hl) hs
    refine ⟨⟨hn.of_mem_locate hl, .inr hs, ?_⟩, fun a ha hcall => absurd hcall (hcalls hk a ha)⟩
    unfold Clear
    omega
  · obtain ⟨j, hj⟩ := List.mem_iff_getElem?.1 hbranch
    have hbelow : ⟨branch, (l.node, j) :: l.above⟩ ∈ n.locate [] :=
      locate_trans hl (mem_locate.2 (.inr ⟨j, branch, hj, self_mem_locate _ _⟩))
    have hjoins := (hanchor hbelow).header ⟨branch.span.start, condition.span.stop⟩
      (by rw [header?, hcondition]; rfl)
    have hlaid : branch.Laid source := hn.of_mem_locate hbelow
    refine settlesGuard_of_joins hlaid hcondition hjoins hplaced hbreaks ?_
    exact List.forall_mem_cons.2 ⟨by simp [hk], hcalls (by rw [hk]; rfl)⟩

/-- A statement that admits the lines has the same finds, where they come to be. -/
theorem Puts.finds {new old : Text} (hp : i.Puts old new) (rules : CallRules)
    (h : ∀ l ∈ n.locate [], i.Admits old l) :
    (n.moved i.carry).finds rules new = (n.finds rules old).map i.find := by
  have hlocate : (n.moved i.carry).locate [] = (n.locate []).map (·.moved i.carry) :=
    locate_moved n []
  rw [Node.finds, Node.finds, hlocate, List.flatMap_map, List.map_flatMap]
  exact List.flatMap_congr fun l hl => hp.ofNode rules (h l hl)

/-- Lexemes before the place stay, and those behind it move on by the bytes put in. -/
theorem alike_of_breaks (hplaced : ∀ l ∈ old ++ new, l.Placed source)
    (hbreaks : Breaks i.place old new) :
    List.Forall₂ (Lexeme.Alike ⟨i.carry, Set.univ, Set.univ, strictMono_carry.strictMonoOn _⟩)
      (old ++ new) (old ++ new.map (·.later i.bytes)) := by
  refine List.rel_append ?_ ?_
  · refine List.forall₂_same.2 fun l hl => ?_
    have hle := (hplaced l (List.mem_append_left _ hl)).le
    have hstop := hbreaks.before l hl
    have hspan : l.span = l.span.moved i.carry := by
      rw [Span.moved, carry_of_lt (Nat.lt_of_le_of_lt hle hstop), carry_of_lt hstop]
    exact ⟨⟨rfl, hspan, fun _ => rfl⟩, trivial, trivial, fun _ _ => trivial⟩
  · refine List.forall₂_map_right_iff.2 (List.forall₂_same.2 fun l hl => ?_)
    have hle := (hplaced l (List.mem_append_right _ hl)).le
    have hstart := hbreaks.after l hl
    have hspan : (l.later i.bytes).span = l.span.moved i.carry := by
      rw [Span.moved, carry_of_le hstart, carry_of_le (Nat.le_trans hstart hle)]
      rfl
    exact ⟨⟨rfl, hspan, fun _ => rfl⟩, trivial, trivial, fun _ _ => trivial⟩

/-- The statements are the same, where they come to be. -/
theorem statements_of_breaks {items : List Node} {c : Cursor}
    (hplaced : ∀ l ∈ old ++ new, l.Placed source) (hclosed : Lexeme.Closed (old ++ new))
    (hbreaks : Breaks i.place old new) (h : Cursor.statements ⟨old ++ new, 0⟩ = .ok (items, c)) :
    ∃ c', Cursor.statements ⟨old ++ new.map (·.later i.bytes), 0⟩ =
      .ok (items.map (·.moved i.carry), c') := by
  have halike := Cursor.statements_alike (alike_of_breaks hplaced hbreaks) hclosed
  rw [h] at halike
  cases hnew : Cursor.statements ⟨old ++ new.map (·.later i.bytes), 0⟩ with
  | error e =>
    rw [hnew] at halike
    cases halike
  | ok found =>
    obtain ⟨items', c'⟩ := found
    rw [hnew] at halike
    cases halike
    exact ⟨c', rfl⟩

end Inset

namespace Text

variable {line : Text} {lines : List Text} {c d : Char}

theorem newline_notMem {gap : Text} (h : ∀ c ∈ gap, Lexeme.isGap c = true) : '\n' ∉ gap := by
  intro hmem
  cases h _ hmem

/-- A line without code is one line. -/
theorem Codeless.exists_eq (h : line.Codeless) : ∃ u, line = u ++ ['\n'] ∧ '\n' ∉ u := by
  cases h with
  | blank hgap => exact ⟨_, rfl, newline_notMem hgap⟩
  | comment hgap hbody =>
    refine ⟨_, rfl, ?_⟩
    rw [List.mem_append, List.mem_cons, not_or, not_or]
    exact ⟨newline_notMem hgap, by decide, hbody⟩

theorem Codeless.endsLine (h : line.Codeless) : line.EndsLine := by
  obtain ⟨u, rfl, -⟩ := h.exists_eq
  exact List.getLast?_concat

theorem count_flatten (h : ∀ line ∈ lines, line.Codeless) :
    lines.flatten.count '\n' = lines.length := by
  induction lines with
  | nil => rfl
  | cons line lines ih =>
    obtain ⟨u, rfl, hu⟩ := (h line List.mem_cons_self).exists_eq
    have hmore := ih fun l hl => h l (List.mem_cons_of_mem _ hl)
    rw [List.flatten_cons, List.count_append, List.count_append, List.count_eq_zero.2 hu, hmore,
      List.count_singleton_self, List.length_cons]
    omega

theorem endsLine_flatten (h : ∀ line ∈ lines, line.Codeless) :
    lines.flatten = [] ∨ EndsLine lines.flatten := by
  induction lines using List.reverseRecOn with
  | nil => exact .inl rfl
  | append_singleton lines line =>
    rw [List.flatten_concat]
    exact .inr ((h line (by simp)).endsLine.append _)

/-! ### Line breaks -/

theorem unifyBreaks_cons_cons (hd : d ≠ '\n') (t : Text) :
    unifyBreaks (c :: d :: t) = c :: unifyBreaks (d :: t) := by
  rw [Text.unifyBreaks]
  rintro r - ⟨⟩
  exact hd rfl

theorem unifyBreaks_cons (hc : c ≠ '\r') (t : Text) :
    unifyBreaks (c :: t) = c :: unifyBreaks t := by
  rw [Text.unifyBreaks]
  exact fun r h _ => hc h

theorem unifyBreaks_return (t : Text) :
    unifyBreaks ('\r' :: '\n' :: t) = unifyBreaks ('\n' :: t) := by
  rw [Text.unifyBreaks]

theorem unifyBreaks_append {s : Text} (h : s = [] ∨ s.EndsLine) (t : Text) :
    unifyBreaks (s ++ t) = unifyBreaks s ++ unifyBreaks t := by
  induction s with
  | nil => rfl
  | cons c s ih =>
    replace h : EndsLine (c :: s) := h.resolve_left (List.cons_ne_nil c s)
    cases s with
    | nil =>
      cases h
      exact unifyBreaks_cons (by decide) t
    | cons d s =>
      have hmore := ih (.inr (h.of_suffix (List.suffix_cons _ _) (List.cons_ne_nil d s)))
      by_cases hd : d = '\n'
      · subst hd
        by_cases hc : c = '\r'
        · subst hc
          rw [unifyBreaks_return, ← hmore]
          exact unifyBreaks_return _
        · rw [List.cons_append, unifyBreaks_cons hc, unifyBreaks_cons hc, hmore, List.cons_append]
      · rw [List.cons_append, List.cons_append, unifyBreaks_cons_cons hd, unifyBreaks_cons_cons hd,
          ← List.cons_append, hmore, List.cons_append]

theorem unifyBreaks_eq_self {t : Text} (h : '\r' ∉ t) : unifyBreaks t = t := by
  induction t with
  | nil => rfl
  | cons c t ih =>
    rw [List.mem_cons, not_or] at h
    rw [unifyBreaks_cons (Ne.symm h.1), ih h.2]

/-- Of a line only a carriage return at its end goes. -/
theorem unifyBreaks_line {u : Text} (hu : '\n' ∉ u) :
    ∃ v, unifyBreaks (u ++ ['\n']) = v ++ ['\n'] ∧ (u = v ∨ u = v ++ ['\r']) := by
  induction u with
  | nil => exact ⟨[], rfl, .inl rfl⟩
  | cons c u ih =>
    rw [List.mem_cons, not_or] at hu
    cases u with
    | nil =>
      by_cases hc : c = '\r'
      · subst hc
        exact ⟨[], unifyBreaks_return [], .inr rfl⟩
      · exact ⟨[c], unifyBreaks_cons hc ['\n'], .inl rfl⟩
    | cons d u =>
      obtain ⟨v, hv, hends⟩ := ih hu.2
      have hd : d ≠ '\n' := fun h => hu.2 (by rw [h]; exact List.mem_cons_self)
      refine ⟨c :: v, ?_, hends.imp (congrArg (c :: ·)) (congrArg (c :: ·))⟩
      rw [List.cons_append, List.cons_append, unifyBreaks_cons_cons hd, ← List.cons_append, hv]
      rfl

theorem Codeless.unifyBreaks (h : line.Codeless) : (unifyBreaks line).Codeless := by
  obtain ⟨u, heq, hu⟩ := h.exists_eq
  obtain ⟨v, hv, hends⟩ := unifyBreaks_line hu
  rw [heq, hv]
  cases h with
  | blank hgap =>
    obtain rfl := List.append_cancel_right heq
    refine .blank fun c hc => hgap c ?_
    rcases hends with rfl | rfl
    · exact hc
    · exact List.mem_append_left _ hc
  | @comment gap body hgap hbody =>
    obtain rfl := List.append_cancel_right heq
    rcases hends with rfl | hends
    · exact .comment hgap hbody
    · -- The carriage return ends the comment, so it is not the sign with which that begins.
      rcases List.eq_nil_or_concat body with rfl | ⟨body, c, rfl⟩
      · cases List.append_inj_right' hends rfl
      · rw [List.concat_eq_append, ← List.cons_append, ← List.append_assoc] at hends
        obtain rfl := List.append_inj_left' hends rfl
        exact .comment hgap fun hmem => hbody (by simp [hmem])

theorem unifyBreaks_flatten (h : ∀ line ∈ lines, line.Codeless) :
    unifyBreaks lines.flatten = (lines.map Text.unifyBreaks).flatten := by
  induction lines with
  | nil => rfl
  | cons line lines ih =>
    have hline := (h line List.mem_cons_self).endsLine
    rw [List.flatten_cons, unifyBreaks_append (.inr hline),
      ih fun l hl => h l (List.mem_cons_of_mem _ hl), List.map_cons, List.flatten_cons]

theorem dropMark_eq_self {t : Text} (h : t.head? ≠ some '\ufeff') : dropMark t = t := by
  cases t with
  | nil => rfl
  | cons c t =>
    rw [dropMark, if_neg]
    rintro rfl
    exact h rfl

/-- Lines without code do not bring in a byte order mark. -/
theorem head?_insert {before after : Text} (h : (before ++ after).head? ≠ some '\ufeff')
    (hlines : ∀ line ∈ lines, line.Codeless) :
    (before ++ lines.flatten ++ after).head? ≠ some '\ufeff' := by
  cases before with
  | cons c before => exact h
  | nil =>
    cases lines with
    | nil => exact h
    | cons line lines =>
      cases hlines line List.mem_cons_self with
      | @blank gap hgap =>
        cases gap with
        | nil => simp
        | cons c gap =>
          rintro ⟨⟩
          cases hgap _ List.mem_cons_self
      | @comment gap body hgap hbody =>
        cases gap with
        | nil => simp
        | cons c gap =>
          rintro ⟨⟩
          cases hgap _ List.mem_cons_self

end Text

/-- Lines put in behind `before`. -/
def Inset.behind (before : Text) (lines : List Text) : Inset :=
  ⟨size before, before.count '\n' + 1, size lines.flatten, lines.length⟩

theorem Inset.puts_behind {before after : Text} {lines : List Text}
    (hbefore : before = [] ∨ before.EndsLine) (hlines : ∀ line ∈ lines, line.Codeless) :
    (Inset.behind before lines).Puts (before ++ after) (before ++ lines.flatten ++ after) := by
  have hp := Inset.Puts.mk before lines.flatten after hbefore (Text.endsLine_flatten hlines)
  rwa [Text.count_flatten hlines] at hp

namespace Tree

variable {before after : Text} {lines : List Text} {ls : List Lexeme} {t : Tree}

/-- Lines without code at the start of a logical line that cuts no simple statement leave a script a
script with the same finds. -/
theorem ofScript_insert (hls : (before ++ after).lexemes ⟨0, size (before ++ after)⟩ = .ok ls)
    (ht : ofScript (before ++ after) = .ok t) (hbegins : Lexeme.BeginsLine before after ls)
    (hclear : ∀ m ∈ t.root.preorder, m.kind.isSimple = true →
      ¬ (m.span.start < size before ∧ size before < m.span.stop))
    (hlines : ∀ line ∈ lines, line.Codeless) :
    ∃ t', ofScript (before ++ lines.flatten ++ after) = .ok t' ∧ ∀ rules : CallRules,
      t'.finds rules = (t.finds rules).map (Inset.behind before lines).find := by
  obtain ⟨old, new, rfl, hbefore, hafter, hmark, hls'⟩ :=
    Text.lexemes_insert hls hbegins hlines
  let i := Inset.behind before lines
  have hbreaks : Lexeme.Breaks i.place old new := ⟨hbefore, hafter, hmark⟩
  have hstream := Text.stream_of_lexemes_self hls
  obtain ⟨-, -, hkind, hlaid⟩ := laid_of_ofScript ht
  obtain ⟨ls₂, items, c, hls₂, hitems, rfl⟩ := ofRange_eq_ok ht
  cases hls.symm.trans hls₂
  obtain ⟨c', hnew⟩ := Inset.statements_of_breaks hstream.placed hstream.closed hbreaks hitems
  let range : Span := ⟨0, size (before ++ lines.flatten ++ after)⟩
  refine ⟨⟨before ++ lines.flatten ++ after, range,
    ⟨.script, range, items.map (·.moved i.carry)⟩⟩, ?_, fun rules => ?_⟩
  · have hlexemes : (before ++ lines.flatten ++ after).lexemes range =
        .ok (old ++ new.map (·.later i.bytes)) := hls'
    rw [ofScript, ofRange, hlexemes]
    simp only [bind, Except.bind, hnew]
    rfl
  · rw [finds_eq_flatMap rules rfl, finds_eq_flatMap rules rfl]
    simp only [List.flatMap_map, List.map_flatMap]
    refine List.flatMap_congr fun n hn => (Inset.puts_behind hbegins.line hlines).finds rules ?_
    have hanchored := Cursor.anchored_of_statements hstream.ready hitems
    refine Inset.admits_of_anchored (hlaid.of_mem_children hn) (hanchored.of_mem hn)
      hstream.placed hbreaks fun m hm => hclear m ?_
    rw [Node.preorder]
    exact List.mem_cons_of_mem _ (Arena.mem_preorderAll.2 ⟨n, hn, hm⟩)

end Tree

namespace Inset

variable {i : Inset}

/-- An item with its sites and positions where they come to be. -/
def item (i : Inset) (item : Item) : Item :=
  { item with entry := i.entry item.entry, sites := item.sites.map i.site }

theorem insert_find (items : List Item) (f : Find) :
    Item.insert (items.map i.item) (i.find f) = (Item.insert items f).map i.item := by
  have hnew : Item.ofFind (i.find f) = i.item (Item.ofFind f) := rfl
  have hadd (item : Item) : (i.item item).add (i.find f) = i.item (item.add f) := by
    simp [Inset.item, Inset.find, Inset.entry, Item.add]
  have hany : (items.map i.item).any (·.fingerprint == (Item.ofFind (i.find f)).fingerprint) =
      items.any (·.fingerprint == (Item.ofFind f).fingerprint) := by
    rw [List.any_map]
    rfl
  rw [Item.insert, Item.insert, hany]
  split
  · rw [List.map_map, List.map_map]
    refine List.map_congr_left fun item _ => ?_
    simp only [Function.comp_apply, hadd, hnew]
    exact (apply_ite i.item _ _ _).symm
  · rw [List.map_append, hnew]
    rfl

theorem collect_find (fs : List Find) :
    Item.collect (fs.map i.find) = (Item.collect fs).map i.item := by
  induction fs using List.reverseRecOn with
  | nil => rfl
  | append_singleton fs f ih =>
    simp only [Item.collect, List.map_append, List.map_cons, List.map_nil, List.foldl_append,
      List.foldl_cons, List.foldl_nil] at ih ⊢
    rw [ih, insert_find]

end Inset

namespace Script

variable {i : Inset} {x y : Index}

/-- Keys depend on fingerprints and numbers only. -/
theorem assignKeys_item (stem : Text) (items : List Item) (h : x.Same y) :
    (assignKeys stem y (items.map i.item)).map (·.1) =
      (assignKeys stem x items).map (·.1.map i.item) := by
  have hfingerprints : ((items.map i.item).map (·.entry)).map Entry.fingerprint =
      (items.map (·.entry)).map Entry.fingerprint := by
    rw [List.map_map, List.map_map, List.map_map]
    rfl
  rw [assignKeys_eq, assignKeys_eq]
  rcases h.assignAll hfingerprints with ⟨ns, x', y', hx, hy, -⟩ | ⟨hx, hy⟩
  · rw [hx, hy]
    simp only [Except.map, List.map_zipWith, List.zipWith_map_left]
    rfl
  · rw [hx, hy]
    rfl

/-- Lines without code that are put in where a logical line begins, but not inside a simple
statement, leave the texts of a script as they are: the items come in the same order and differ in
their sites and positions only, which move behind the lines. From indexes that give the same numbers
they have the same keys. -/
theorem parse_insert {before after : Text} {lines : List Text} {ls : List Lexeme} {t : Tree}
    (hreturn : '\r' ∉ before ++ after) (hmark : (before ++ after).head? ≠ some '\ufeff')
    (hls : (before ++ after).lexemes ⟨0, size (before ++ after)⟩ = .ok ls)
    (ht : Tree.ofScript (before ++ after) = .ok t) (hbegins : Lexeme.BeginsLine before after ls)
    (hclear : ∀ m ∈ t.root.preorder, m.kind.isSimple = true →
      ¬ (m.span.start < size before ∧ size before < m.span.stop))
    (hlines : ∀ line ∈ lines, line.Codeless) (rules : CallRules) (stem : Text) (x y : Index) :
    (∀ script x' script' y', parse rules stem (before ++ after) x = .ok (script, x') →
      parse rules stem (before ++ lines.flatten ++ after) y = .ok (script', y') →
      script'.items.map Item.unkeyed =
        (script.items.map (Inset.behind before (lines.map unifyBreaks)).item).map Item.unkeyed) ∧
    (x.Same y → (parse rules stem (before ++ lines.flatten ++ after) y).map (·.1.items) =
      (parse rules stem (before ++ after) x).map
        (·.1.items.map (Inset.behind before (lines.map unifyBreaks)).item)) ∧
    ∀ fault z, parse rules stem (before ++ after) z = .error fault ∨
        parse rules stem (before ++ lines.flatten ++ after) z = .error fault →
      fault = .overflow ∧
        z.RunsOut ((Item.collect (t.finds rules)).map (·.entry.fingerprint)) := by
  let i := Inset.behind before (lines.map unifyBreaks)
  have hold : (before ++ after).normalize = before ++ after := by
    rw [Text.normalize, Text.dropMark_eq_self hmark, Text.unifyBreaks_eq_self hreturn]
  have hnew : (before ++ lines.flatten ++ after).normalize =
      before ++ (lines.map unifyBreaks).flatten ++ after := by
    rw [List.mem_append, not_or] at hreturn
    rw [Text.normalize, Text.dropMark_eq_self (Text.head?_insert hmark hlines), List.append_assoc,
      Text.unifyBreaks_append hbegins.line, Text.unifyBreaks_append (Text.endsLine_flatten hlines),
      Text.unifyBreaks_eq_self hreturn.1, Text.unifyBreaks_eq_self hreturn.2,
      Text.unifyBreaks_flatten hlines, List.append_assoc]
  have hlines' : ∀ line ∈ lines.map unifyBreaks, line.Codeless := by
    refine List.forall_mem_map.2 fun line hline => ?_
    exact (hlines line hline).unifyBreaks
  obtain ⟨t', ht', hfinds⟩ := Tree.ofScript_insert hls ht hbegins hclear hlines'
  have hitems : Item.collect (t'.finds rules) = (Item.collect (t.finds rules)).map i.item := by
    rw [hfinds, Inset.collect_find]
  have hparse (z : Index) : parse rules stem (before ++ after) z =
      (assignKeys stem z (Item.collect (t.finds rules))).map fun r =>
        (⟨stem, .tree t, r.1, []⟩, r.2) := parse_of_ofScript (by rw [hold, ht])
  have hparse' (z : Index) : parse rules stem (before ++ lines.flatten ++ after) z =
      (assignKeys stem z ((Item.collect (t.finds rules)).map i.item)).map fun r =>
        (⟨stem, .tree t', r.1, []⟩, r.2) := hitems ▸ parse_of_ofScript (by rw [hnew, ht'])
  refine ⟨fun script x' script' y' hscript hscript' => ?_, fun hsame => ?_, fun fault z hfault => ?_⟩
  · rw [hparse, map_ok_iff] at hscript
    rw [hparse', map_ok_iff] at hscript'
    obtain ⟨⟨items, z⟩, hkeyed, heq⟩ := hscript
    obtain ⟨⟨items', z'⟩, hkeyed', heq'⟩ := hscript'
    cases heq
    cases heq'
    -- Keys are taken out on both sides, and places do not depend on keys.
    have hcomm : Item.unkeyed ∘ i.item = i.item ∘ Item.unkeyed := rfl
    rw [map_assignKeys (f := Item.unkeyed) (fun _ _ => rfl) hkeyed', List.map_map, List.map_map,
      hcomm, ← List.map_map, ← List.map_map,
      map_assignKeys (f := Item.unkeyed) (fun _ _ => rfl) hkeyed]
  · have hkeys := assignKeys_item (i := i) stem (Item.collect (t.finds rules)) hsame
    rw [hparse, hparse', map_map, map_map]
    exact hkeys
  · rw [hparse, hparse', map_error_iff, map_error_iff, assignKeys_eq_error_iff,
      assignKeys_eq_error_iff, List.map_map] at hfault
    exact hfault.elim id id

/-- A comment and two blank lines before an `elif`, of which one ends with a carriage return. -/
theorem parse_insert_elif :
    let before := Text.of "func f():\n\tif has(\"A\"):\n\t\tsay([\n\"B\"])\n"
    let after := Text.of "\telif x == \"A\":\n\t\treturn \"C\"\n"
    let lines := [Text.of "\n", Text.of "      # \"D\"\n", Text.of "\t\r\n"]
    (∀ line ∈ lines, line.Codeless) ∧
    (∃ ls, (before ++ after).lexemes ⟨0, size (before ++ after)⟩ = .ok ls ∧
      Lexeme.BeginsLine before after ls) ∧
    ∃ script x', parse .builtin ['s'] (before ++ after) .empty = .ok (script, x') ∧
      (parse .builtin ['s'] (before ++ lines.flatten ++ after) .empty).map (·.1.items) =
        .ok (script.items.map (Inset.behind before (lines.map unifyBreaks)).item) ∧
      script.items.length = 3 := by
  intro before after lines
  have hlines : ∀ line ∈ lines, line.Codeless := by
    have hblank : Text.Codeless ([] ++ ['\n']) := .blank (by simp)
    have hcomment : Text.Codeless (Text.of "      " ++ '#' :: Text.of " \"D\"" ++ ['\n']) :=
      .comment (by simp [Text.of, Lexeme.isGap]) (by decide)
    have hreturn : Text.Codeless (['\t', '\r'] ++ ['\n']) := .blank (by simp [Lexeme.isGap])
    exact List.forall_mem_cons.2 ⟨hblank, List.forall_mem_cons.2
      ⟨hcomment, List.forall_mem_singleton.2 hreturn⟩⟩
  have hruns : ((before ++ after).lexemes ⟨0, size (before ++ after)⟩).toOption.any (fun ls =>
        Lexeme.depth (Lexeme.upTo (size before) ls) == 0 &&
          ls.all fun l => !(l.span.start < size before && size before < l.span.stop)) = true ∧
      (Tree.ofScript (before ++ after)).toOption.any (fun t =>
        t.root.preorder.all fun m => !m.kind.isSimple ||
          !(m.span.start < size before && size before < m.span.stop)) = true ∧
      (parse .builtin ['s'] (before ++ after) .empty).toOption.any (fun r =>
        r.1.items.length == 3) = true := by
    decide +kernel
  obtain ⟨hls, ht, hparse⟩ := hruns
  obtain ⟨ls, hlexemes, hls⟩ := exists_ok_of_any hls
  obtain ⟨t, htree, ht⟩ := exists_ok_of_any ht
  obtain ⟨⟨script, x'⟩, hparse, hlength⟩ := exists_ok_of_any hparse
  simp only [Bool.and_eq_true, beq_iff_eq, List.all_eq_true, Bool.or_eq_true, Bool.not_eq_true',
    Bool.and_eq_false_iff, decide_eq_false_iff_not] at hls ht
  have hbegins : Lexeme.BeginsLine before after ls := by
    refine ⟨.inr rfl, hls.1, fun l hl _ hinside => ?_, fun u gap hu => ?_⟩
    · have := hls.2 l hl
      omega
    · have hno : '\\' ∉ before := by decide
      rw [hu] at hno
      simp at hno
  have hclear : ∀ m ∈ t.root.preorder, m.kind.isSimple = true →
      ¬ (m.span.start < size before ∧ size before < m.span.stop) := by
    intro m hm hs hinside
    rcases ht m hm with hno | hno | hno
    · rw [hs] at hno
      cases hno
    · exact hno hinside.1
    · exact hno hinside.2
  obtain ⟨-, hkeys, -⟩ := parse_insert (by decide) (by decide)
    hlexemes htree hbegins hclear hlines .builtin ['s'] .empty .empty
  refine ⟨hlines, ⟨ls, hlexemes, hbegins⟩, script, x', hparse, ?_, beq_iff_eq.1 hlength⟩
  rw [hkeys ⟨rfl, rfl⟩, hparse]
  rfl

end Script

end Phrasebook
