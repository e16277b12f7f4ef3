import Phrasebook.Proofs.Grammar.Cutting
import Phrasebook.Proofs.Grammar.ExpressionAdvances

/-!
Expressions before the cut.

What an expression derives before the cut is also read where the rest is cut off, within any bound that
grows with the number of lexemes left (`Cursor.Derives.carried`).
-/
namespace Phrasebook

namespace Grammar.Rule

/-- Whether a rule goes on after a left part. The other rules read something. -/
def goesOn : Rule → Bool
  | .binaryTail _ _ | .chainTail _ => true
  | _ => false

/-- Whether a rule begins with a lexeme that has text. -/
def begins : Rule → Bool
  | .expression | .binary _ | .operand | .chain | .primary => true
  | _ => false

/-- How many rules may be entered one in the other before something is read. -/
def depth : Rule → Nat
  | .primary | .binaryTail _ _ | .chainTail _ => 1
  | .chain => 2
  | .operand => 3
  | .binary _ => 4
  | .expression => 5
  | .sequence _ | .pairs => 6

/-- A bound within which a rule goes through, where `n` lexemes are left. -/
def bound (r : Rule) (n : Nat) : Nat := 8 * n + r.depth

variable {r r' : Rule} {m n fuel : Nat}

theorem depth_pos (r : Rule) : 0 < r.depth := by
  cases r <;> simp [depth]

theorem depth_le (r : Rule) : r.depth ≤ 6 := by
  cases r <;> simp [depth]

/-- A rule may enter one of less depth at the same place. -/
theorem bound_enter (h : r.bound n ≤ fuel + 1) (hd : r'.depth < r.depth) : r'.bound n ≤ fuel := by
  unfold bound at *
  omega

/-- Where something has been read, a rule may enter any other. -/
theorem bound_after (h : r.bound n ≤ fuel + 1) (hlt : m < n) : r'.bound m ≤ fuel := by
  have hpos := r.depth_pos
  have hle := r'.depth_le
  unfold bound at *
  omega

end Grammar.Rule

namespace Cursor

open Grammar

variable {κ : Cutting} {c c' c₁ after : Cursor} {r : Rule} {ns : List Node} {n : Node} {fuel : Nat}

theorem length_wordExpression (hk : c.kind = .word) (h : c.wordExpression = .ok (n, c₁)) :
    c₁.rest.length < c.rest.length :=
  ((wordExpression_advances hk 0).reads 0 _ h).2

theorem length_nodePath (hk : c.kind = .op) (h : c.nodePath = .ok (n, c₁)) :
    c₁.rest.length < c.rest.length :=
  ((nodePath_advances hk 0).reads 0 _ h).2

/-- A rule never goes back, and all but those that go on after a left part read something. -/
theorem Derives.length (h : Derives r c ns c₁) : c₁.rest.length ≤ c.rest.length ∧
    (r.goesOn = false → c₁.rest.length < c.rest.length) := by
  induction h with
  | value first hif ih => exact ⟨ih.1, fun _ => ih.2 rfl⟩
  | ternary first hif second helse third ih₁ ih₂ ih₃ =>
    have h₁ := ih₁.2 rfl
    have hif := length_advance_isWord hif
    have h₂ := ih₂.1
    have helse := length_advance_isWord helse
    have h₃ := ih₃.1
    omega
  | binary first rest ih₁ ih₂ =>
    have h₁ := ih₁.2 rfl
    have h₂ := ih₂.1
    omega
  | binaryEnd => exact ⟨Nat.le_refl _, nofun⟩
  | typeOperator hop hlevel htype second rest ih₁ ih₂ | operator hop hlevel htype second rest ih₁ ih₂ =>
    have hop := length_of_binaryOp? hop
    have h₁ := ih₁.1
    have h₂ := ih₂.1
    omega
  | unary hlevel inner ih =>
    have hop := length_advance_unary hlevel
    have h₁ := ih.1
    omega
  | await hlevel hawait inner ih =>
    have hop := length_advance_isWord hawait
    have h₁ := ih.1
    omega
  | plain hlevel hawait inner ih => exact ⟨ih.1, fun _ => ih.2 rfl⟩
  | chain first rest ih₁ ih₂ =>
    have h₁ := ih₁.2 rfl
    have h₂ := ih₂.1
    omega
  | chainEnd => exact ⟨Nat.le_refl _, nofun⟩
  | call hopen inner rest ih₁ ih₂ =>
    have hop := length_advance_isOp hopen
    have h₁ := ih₁.1
    have h₂ := ih₂.1
    omega
  | @member c c₂ head n hcall hdot hword rest ih =>
    have hop := length_advance_isOp hdot
    have hle := length_advance_le c.advance
    have h₁ := ih.1
    omega
  | subscript hcall hdot hopen inner hclose rest ih₁ ih₂ =>
    have hop := length_advance_isOp hopen
    have h₁ := ih₁.1
    have hclose := length_advance_isOp hclose
    have h₂ := ih₂.1
    omega
  | sequenceEnd hclose | pairsEnd hclose =>
    have hop := length_advance_isOp hclose
    omega
  | sequenceMore hclose first hcomma rest ih₁ ih₂ =>
    have h₁ := ih₁.1
    have hcomma := length_advance_isOp hcomma
    have h₂ := ih₂.1
    omega
  | sequenceLast hclose first hcomma hlast ih =>
    have h₁ := ih.1
    have hlast := length_advance_isOp hlast
    omega
  | @pairsMore c c₁ c₂ c₃ key value pairs hclose first hmark second hcomma rest ih₁ ih₂ ih₃ =>
    have h₁ := ih₁.1
    have hmark := length_advance_le c₁
    have h₂ := ih₂.1
    have hcomma := length_advance_isOp hcomma
    have h₃ := ih₃.1
    omega
  | @pairsLast c c₁ c₂ key value hclose first hmark second hcomma hlast ih₁ ih₂ =>
    have h₁ := ih₁.1
    have hmark := length_advance_le c₁
    have h₂ := ih₂.1
    have hlast := length_advance_isOp hlast
    omega
  | @string c q hkind =>
    have hlt := length_advance_lt (c := c) (by simp [hkind])
    omega
  | @number c hkind =>
    have hlt := length_advance_lt (c := c) (by simp [hkind])
    omega
  | word hkind hword =>
    have hlt := length_wordExpression hkind hword
    omega
  | paren hopen first hclose ih =>
    have hop := length_advance_isOp hopen
    have h₁ := ih.1
    have hclose := length_advance_isOp hclose
    omega
  | array hopen inner ih | dictionary hopen inner ih =>
    have hop := length_advance_isOp hopen
    have h₁ := ih.1
    omega
  | nodePath hopen hpath =>
    rw [Bool.or_eq_true] at hopen
    have hlt := length_nodePath (hopen.elim kind_of_isOp kind_of_isOp) hpath
    omega
  | @parentMember c hdot hword =>
    have hop := length_advance_isOp hdot
    have hle := length_advance_le c.advance
    omega

end Cursor

namespace Cutting

open Cursor Lexeme Grammar

variable {κ : Cutting} {c c' c₁ after : Cursor} {n : Node} {ls ls' : List Lexeme}

theorem Front.binaryLevel? (h : κ.Front c c') : binaryLevel? c.peek = none := by
  obtain ⟨hk, htext | htext⟩ := beginsFunction_iff.1 h.word <;>
    rw [Grammar.binaryLevel?.eq_def, hk, htext] <;> rfl

theorem Splits.binaryLevel? (h : κ.Splits c.rest c'.rest) :
    binaryLevel? c'.peek = binaryLevel? c.peek := by
  rcases h.level_or_front with h | h
  · rw [h.peek]
  · have hright : Grammar.binaryLevel? c'.peek = none := by
      rw [Grammar.binaryLevel?.eq_def]
      rcases h.kind' with hk | hk <;> rw [show c'.peek.kind = _ from hk]
    rw [h.binaryLevel?, hright]

theorem Splits.unaryLevel? (h : κ.Splits c.rest c'.rest) :
    unaryLevel? c'.peek = unaryLevel? c.peek := by
  rcases h.level_or_front with h | h
  · rw [h.peek]
  · have hright : Grammar.unaryLevel? c'.peek = none := by
      rw [Grammar.unaryLevel?.eq_def]
      rcases h.kind' with hk | hk <;> rw [show c'.peek.kind = _ from hk]
    have hleft : Grammar.unaryLevel? c.peek = none := by
      have hnot : c.peek.isWord "not" = false := isWord_of_beginsFunction h.word (by decide)
      rw [Grammar.unaryLevel?.eq_def, show c.peek.kind = _ from h.kind, hnot]
      rfl
    rw [hleft, hright]

theorem isWord_peekNext (h : c.isWord "not" = true) :
    c.peekNext.isWord "in" = c.advance.isWord "in" := by
  have hk := kind_of_isWord h
  obtain ⟨rest, last⟩ := c
  cases rest with
  | nil => cases hk
  | cons l r =>
    have hl : l.kind ≠ .eof := by
      intro he
      rw [show l.kind = _ from hk] at he
      cases he
    have hadvance : Cursor.advance ⟨l :: r, last⟩ = ⟨r, endAfter last l⟩ := by
      simp [Cursor.advance, hl]
    rw [hadvance]
    cases r with
    | nil =>
      simp only [Cursor.isWord, Lexeme.isWord, Cursor.peek, Bool.and_eq_true, beq_iff_eq,
        List.headD_cons] at h
      simp [Cursor.peekNext, Cursor.isWord, Lexeme.isWord, Cursor.peek, h, Text.of]
    | cons => rfl

theorem binaryOp?_eq (c : Cursor) : c.binaryOp? =
    if c.isWord "not" && c.advance.isWord "in" then
      some (4, Text.of "not in", c.advance.advance)
    else (Grammar.binaryLevel? c.peek).map fun level => (level, c.peek.text, c.advance) := by
  unfold Cursor.binaryOp?
  by_cases h : c.isWord "not" = true
  · rw [isWord_peekNext h]
  · rw [Bool.not_eq_true] at h
    rw [h]
    rfl

theorem Splits.binaryOp?_eq_none (h : κ.Splits c.rest c'.rest) (hop : c.binaryOp? = none) :
    c'.binaryOp? = none := by
  rw [binaryOp?_eq] at hop ⊢
  split at hop
  · cases hop
  · next hnot =>
    have hnot' : (c'.isWord "not" && c'.advance.isWord "in") = false := by
      rw [h.isWord "not" (by decide)]
      by_cases hword : c.isWord "not" = true
      · rw [(h.level_of_isWord hword (by decide)).advance.isWord "in" (by decide)]
        simpa using hnot
      · rw [Bool.not_eq_true] at hword
        rw [hword, Bool.false_and]
    rw [hnot', if_neg Bool.false_ne_true, h.binaryLevel?]
    simpa using hop

theorem Splits.binaryOp?_eq_some (h : κ.Splits c.rest c'.rest) {level : Nat} {op : Text}
    (hop : c.binaryOp? = some (level, op, after)) :
    ∃ after', c'.binaryOp? = some (level, op, after') ∧ κ.Cut after after' := by
  rw [binaryOp?_eq] at hop
  rw [binaryOp?_eq]
  split at hop
  · next hnot =>
    cases hop
    rw [Bool.and_eq_true] at hnot
    obtain ⟨hnot, hin⟩ := hnot
    have hlevel := h.level_of_isWord hnot (by decide)
    have hlevel' := hlevel.advance.level_of_isWord hin (by decide)
    refine ⟨c'.advance.advance, ?_, hlevel'.solid (solid_of_isWord hin)⟩
    rw [h.isWord "not" (by decide), hlevel.advance.isWord "in" (by decide), hnot, hin]
    rfl
  · next hnot =>
    obtain ⟨level', hbinary, he⟩ := Option.map_eq_some_iff.1 hop
    cases he
    have hsolid : c.kind.isSolid = true := by
      rcases kind_of_binaryLevel? hbinary with hk | hk <;> rw [hk] <;> rfl
    have hlevel : κ.Level c c' := by
      refine h.level_or_front.resolve_right fun hfront => ?_
      rw [hfront.binaryLevel?] at hbinary
      cases hbinary
    have hnot' : ¬ (c'.isWord "not" && c'.advance.isWord "in") = true := by
      rwa [h.isWord "not" (by decide), hlevel.advance.isWord "in" (by decide)]
    refine ⟨c'.advance, ?_, hlevel.solid hsolid⟩
    rw [if_neg hnot', h.binaryLevel?, hbinary, hlevel.peek]
    rfl

theorem Splits.endsBinary (h : κ.Splits c.rest c'.rest) {level : Nat}
    (hend : c.endsBinary level = true) : c'.endsBinary level = true := by
  unfold Cursor.endsBinary at hend ⊢
  cases hop : c.binaryOp? with
  | none => rw [h.binaryOp?_eq_none hop]
  | some op =>
    obtain ⟨after', hop', -⟩ := h.binaryOp?_eq_some hop
    rw [hop] at hend
    rw [hop']
    exact hend

theorem Splits.endsChain (h : κ.Splits c.rest c'.rest) : c'.endsChain = c.endsChain := by
  rw [Cursor.endsChain, h.isOp, h.isOp, h.isOp, Cursor.endsChain]

/-- What is read past is not taken away. -/
theorem Splits.level_of_lt (h : κ.Splits c.rest c'.rest) (hkeep : κ.tail.length ≤ c₁.rest.length)
    (hlt : c₁.rest.length < c.rest.length) : κ.Level c c' := by
  refine h.level_or_front.resolve_right fun hfront => ?_
  rw [hfront.rest] at hlt
  omega

theorem pathTail_cons_cons (last : Nat) (slash name : Lexeme) (r : List Lexeme) :
    pathTail last (slash :: name :: r) =
      if slash.isOp "/" && slash.span.start == last && name.span.start == slash.span.stop &&
          (name.kind == .word || name.kind == .number) then
        pathTail name.span.stop r
      else ⟨slash :: name :: r, last⟩ := by
  rw [pathTail]

/-- No node path goes on across the cut. -/
theorem Splits.pathTail_stays {last : Nat} (h : κ.Splits ls ls')
    (hstays : pathTail last ls = ⟨ls, last⟩) : pathTail last ls' = ⟨ls', last⟩ := by
  have hmark {l : Lexeme} (hl : l.kind = .newline ∨ l.kind = .eof) :
      l.isOp "/" = false ∧ (l.kind == .word || l.kind == .number) = false := by
    rcases hl with hl | hl <;> simp [Lexeme.isOp, hl]
  have hcons {x l : Lexeme} (r : List Lexeme) (hl : l.kind = .newline ∨ l.kind = .eof) :
      pathTail last (x :: l :: r) = ⟨x :: l :: r, last⟩ := by
    rw [pathTail_cons_cons, (hmark hl).2, Bool.and_false]
    rfl
  have hclosing {ls : List Lexeme} (hls : Closing ls) : pathTail last ls = ⟨ls, last⟩ := by
    cases hls with
    | eof => rfl
    | newline hn he => exact hcons [] (.inr he)
  cases h with
  | front htail hr hle => exact hclosing hr
  | ahead xs hxs =>
    rcases κ.fits with ⟨htail, hstop⟩ | ⟨-, hstop⟩
    · rw [hstop]
      rwa [htail] at hstays
    · rcases xs with _ | ⟨x, _ | ⟨y, xs⟩⟩
      · exact hclosing hstop
      · generalize κ.stop = stop at hstop ⊢
        cases hstop with
        | eof he => exact hcons [] (.inr he)
        | @newline n e hn he => exact hcons [e] (.inl hn)
      · rw [List.cons_append, List.cons_append, pathTail_cons_cons] at hstays ⊢
        split at hstays
        · have hle := length_pathTail_le y.span.stop (xs ++ κ.tail)
          rw [hstays] at hle
          simp only [List.length_cons] at hle
          omega
        · next hno => rw [if_neg hno]

theorem Splits.pathTail {last : Nat} (h : κ.Splits ls ls')
    (hkeep : κ.tail.length ≤ (pathTail last ls).rest.length) :
    κ.Cut (pathTail last ls) (pathTail last ls') := by
  fun_induction Cursor.pathTail last ls generalizing ls' with
  | case1 last slash name rest hp ih =>
    have hle := length_pathTail_le name.span.stop rest
    obtain ⟨rest₁, rfl, h₁⟩ := h.cons (by simp only [List.length_cons]; omega)
    obtain ⟨rest', rfl, h'⟩ := h₁.cons (by omega)
    rw [pathTail_cons_cons, if_pos hp]
    exact ih h' hkeep
  | case2 last slash name rest hp =>
    rw [h.pathTail_stays (by rw [pathTail_cons_cons, if_neg hp])]
    exact ⟨h, rfl⟩
  | case3 ls last hno =>
    have hstays : Cursor.pathTail last ls = ⟨ls, last⟩ := by
      unfold Cursor.pathTail
      split
      · exact absurd rfl (hno _ _ _)
      · rfl
    rw [h.pathTail_stays hstays]
    exact ⟨h, rfl⟩

theorem Splits.wordExpression (h : κ.Splits c.rest c'.rest) (hk : c.kind = .word)
    (hword : c.wordExpression = .ok (n, c₁)) (hkeep : κ.tail.length ≤ c₁.rest.length) :
    c'.kind = .word ∧ ∃ c₁', c'.wordExpression = .ok (n, c₁') ∧ κ.Cut c₁ c₁' := by
  have hlevel := h.level_of_lt hkeep (length_wordExpression hk hword)
  have hcut := hlevel.solid (by rw [hk]; rfl)
  refine ⟨hlevel.kind.trans hk, c'.advance, ?_⟩
  unfold Cursor.wordExpression leaf Cursor.isWord at *
  rw [hlevel.peek]
  split at hword
  · cases hword
    exact ⟨by simp_all, hcut⟩
  · split at hword
    · cases hword
    · split at hword
      · cases hword
      · cases hword
        simp_all

theorem Splits.nodePath (h : κ.Splits c.rest c'.rest) (hk : c.kind = .op)
    (hpath : c.nodePath = .ok (n, c₁)) (hkeep : κ.tail.length ≤ c₁.rest.length) :
    ∃ c₁', c'.nodePath = .ok (n, c₁') ∧ κ.Cut c₁ c₁' := by
  have hlevel := h.level_of_lt hkeep (length_nodePath hk hpath)
  unfold Cursor.nodePath at hpath ⊢
  simp only at hpath ⊢
  rw [hlevel.peek]
  split at hpath
  · next q hkind =>
    cases hpath
    have hlevel₁ := hlevel.advance.level_of_lt hkeep (length_advance_lt (by simp [hkind]))
    have hcut := hlevel₁.solid (by rw [hkind]; rfl)
    refine ⟨c'.advance.advance, ?_, hcut⟩
    simp only [hlevel₁.kind, hkind, hcut.spanFrom]
  · next hkind =>
    cases hpath
    have hle := length_pathTail_le c.advance.advance.lastEnd c.advance.advance.rest
    have hlevel₁ := hlevel.advance.level_of_lt (Nat.le_trans hkeep hle)
      (length_advance_lt (by rw [hkind]; decide))
    have hcut := hlevel₁.solid (by rw [hkind]; rfl)
    have htail := hcut.rest.pathTail hkeep
    refine ⟨Cursor.pathTail c'.advance.advance.lastEnd c'.advance.advance.rest, ?_, ?_⟩
    · simp only [hlevel₁.kind, hkind, hcut.lastEnd, htail.spanFrom]
    · rwa [hcut.lastEnd]
  · cases hpath

end Cutting

namespace Cursor

open Grammar Cutting

variable {κ : Cutting} {c c' c₁ : Cursor} {r : Rule} {ns : List Node} {n : Node}
  {x : Except ParseError (List Node × Cursor)}

theorem runs_intro {m : Nat} (h : ∀ fuel, r.bound m ≤ fuel + 1 → runRule (fuel + 1) c r = x) :
    ∀ fuel, r.bound m ≤ fuel → runRule fuel c r = x := by
  intro fuel hfuel
  cases fuel with
  | zero =>
    have hpos := r.depth_pos
    unfold Rule.bound at hfuel
    omega
  | succ fuel => exact h fuel hfuel

/-- What a rule derives before the cut it also gives where the rest is cut off, within any bound that
is large enough. Where the cursors have not come to the same place, the rule has to begin with a
lexeme that has text. -/
structure Carried (κ : Cutting) (r : Rule) (c : Cursor) (ns : List Node) (c₁ : Cursor) : Prop where
  derives : Derives r c ns c₁
  cut (c' : Cursor) (hkeep : κ.tail.length ≤ c₁.rest.length) (hc : κ.Splits c.rest c'.rest)
    (hlast : r.begins = true ∨ c'.lastEnd = c.lastEnd) :
    ∃ c₁', κ.Cut c₁ c₁' ∧ ∀ fuel, r.bound c'.rest.length ≤ fuel → runRule fuel c' r = .ok (ns, c₁')

namespace Carried

variable {c₂ c₃ after : Cursor} {r₁ r₂ : Rule} {level opLevel : Nat} {op : Text} {close : String}
  {left right head val condition other index item key inner operand m : Node} {items : List Node}

theorem length_le (h : Carried κ r c ns c₁) : c₁.rest.length ≤ c.rest.length := h.derives.length.1

theorem length_lt (h : Carried κ r c ns c₁) (hr : r.goesOn = false) :
    c₁.rest.length < c.rest.length := h.derives.length.2 hr

theorem value (first : Carried κ (.binary 1) c [n] c₁) (noIf : c₁.isWord "if" = false) :
    Carried κ .expression c [n] c₁ := by
  refine ⟨.value first.derives noIf, fun c' hkeep hc _ => ?_⟩
  obtain ⟨c₁', hcut, h⟩ := first.cut c' hkeep hc (.inl rfl)
  refine ⟨c₁', hcut, runs_intro fun fuel hfuel => ?_⟩
  exact runs_value (h _ (Rule.bound_enter hfuel (by simp [Rule.depth])))
    ((hcut.rest.isWord "if" (by decide)).trans noIf)

theorem ternary (first : Carried κ (.binary 1) c [val] c₁) (hif : c₁.isWord "if" = true)
    (second : Carried κ (.binary 1) c₁.advance [condition] c₂) (helse : c₂.isWord "else" = true)
    (third : Carried κ .expression c₂.advance [other] c₃) :
    Carried κ .expression c
      [⟨.ternary, val.span.hull other.span, [val, condition, other]⟩] c₃ := by
  refine ⟨.ternary first.derives hif second.derives helse third.derives, fun c' hkeep hc _ => ?_⟩
  have hlen₁ := first.length_lt rfl
  have hlen₁' := length_advance_isWord hif
  have hlen₂ := second.length_lt rfl
  have hlen₂' := length_advance_isWord helse
  have hlen₃ := third.length_lt rfl
  obtain ⟨c₁', hcut₁, h₁⟩ := first.cut c' (by omega) hc (.inl rfl)
  have hnext₁ := (hcut₁.rest.level_of_isWord hif (by decide)).advance
  obtain ⟨c₂', hcut₂, h₂⟩ := second.cut _ (by omega) hnext₁ (.inl rfl)
  have hnext₂ := (hcut₂.rest.level_of_isWord helse (by decide)).advance
  obtain ⟨c₃', hcut₃, h₃⟩ := third.cut _ hkeep hnext₂ (.inl rfl)
  refine ⟨c₃', hcut₃, runs_intro fun fuel hfuel => ?_⟩
  exact runs_ternary (h₁ _ (Rule.bound_enter hfuel (by simp [Rule.depth])))
    ((hcut₁.rest.isWord "if" (by decide)).trans hif)
    (h₂ _ (Rule.bound_after hfuel (hc.length_lt hnext₁ (by omega) (by omega))))
    ((hcut₂.rest.isWord "else" (by decide)).trans helse)
    (h₃ _ (Rule.bound_after hfuel (hc.length_lt hnext₂ (by omega) (by omega))))

/-- A rule that reads a left part and then goes on after it. -/
theorem headed (hderives : Derives r c [n] c₂) (first : Carried κ r₁ c [m] c₁)
    (rest : Carried κ r₂ c₁ [n] c₂) (hdepth : r₁.depth < r.depth) (hbegins : r₁.begins = true)
    (hreads : r₁.goesOn = false)
    (hruns : ∀ {fuel : Nat} {c c₁ c₂ : Cursor}, runRule fuel c r₁ = .ok ([m], c₁) →
      runRule fuel c₁ r₂ = .ok ([n], c₂) → runRule (fuel + 1) c r = .ok ([n], c₂)) :
    Carried κ r c [n] c₂ := by
  refine ⟨hderives, fun c' hkeep hc _ => ?_⟩
  have hlen₁ := first.length_lt hreads
  have hlen₂ := rest.length_le
  obtain ⟨c₁', hcut₁, h₁⟩ := first.cut c' (by omega) hc (.inl hbegins)
  obtain ⟨c₂', hcut₂, h₂⟩ := rest.cut _ hkeep hcut₁.rest (.inr hcut₁.lastEnd)
  refine ⟨c₂', hcut₂, runs_intro fun fuel hfuel => ?_⟩
  exact hruns (h₁ _ (Rule.bound_enter hfuel hdepth))
    (h₂ _ (Rule.bound_after hfuel (hc.length_lt hcut₁.rest (by omega) hlen₁)))

theorem binary (first : Carried κ .operand c [left] c₁)
    (rest : Carried κ (.binaryTail level left) c₁ [n] c₂) : Carried κ (.binary level) c [n] c₂ :=
  headed (.binary first.derives rest.derives) first rest (by simp [Rule.depth]) rfl rfl runs_binary

theorem chain (first : Carried κ .primary c [head] c₁)
    (rest : Carried κ (.chainTail head) c₁ [n] c₂) : Carried κ .chain c [n] c₂ :=
  headed (.chain first.derives rest.derives) first rest (by simp [Rule.depth]) rfl rfl runs_chain

theorem binaryEnd (hend : c.endsBinary level = true) :
    Carried κ (.binaryTail level left) c [left] c := by
  refine ⟨.binaryEnd hend, fun c' hkeep hc hlast => ?_⟩
  refine ⟨c', ⟨hc, hlast.resolve_left Bool.false_ne_true⟩, runs_intro fun fuel hfuel => ?_⟩
  exact runs_binaryEnd (hc.endsBinary hend)

theorem chainEnd (hend : c.endsChain = true) : Carried κ (.chainTail head) c [head] c := by
  refine ⟨.chainEnd hend, fun c' hkeep hc hlast => ?_⟩
  refine ⟨c', ⟨hc, hlast.resolve_left Bool.false_ne_true⟩, runs_intro fun fuel hfuel => ?_⟩
  exact runs_chainEnd (hc.endsChain.trans hend)

/-- An operator with its right operand, which is read by another rule if it is a type. -/
theorem operator (hop : c.binaryOp? = some (opLevel, op, after)) (hlevel : level ≤ opLevel)
    (second : Carried κ r after [right] c₁)
    (hr : r = if takesType op then .chain else .binary (opLevel + 1))
    (rest : Carried κ (.binaryTail level ⟨.binary op, left.span.hull right.span, [left, right]⟩)
      c₁ [n] c₂) : Carried κ (.binaryTail level left) c [n] c₂ := by
  have hkind : r.begins = true ∧ r.goesOn = false := by
    rw [hr]
    split <;> exact ⟨rfl, rfl⟩
  have hderives : Derives (.binaryTail level left) c [n] c₂ := by
    have hsecond := second.derives
    cases htype : takesType op with
    | true =>
      rw [hr, htype, if_pos rfl] at hsecond
      exact .typeOperator hop hlevel htype hsecond rest.derives
    | false =>
      rw [hr, htype, if_neg Bool.false_ne_true] at hsecond
      exact .operator hop hlevel htype hsecond rest.derives
  refine ⟨hderives, fun c' hkeep hc _ => ?_⟩
  have hlen := length_of_binaryOp? hop
  have hlen₁ := second.length_lt hkind.2
  have hlen₂ := rest.length_le
  obtain ⟨after', hop', hafter⟩ := hc.binaryOp?_eq_some hop
  obtain ⟨c₁', hcut₁, h₁⟩ := second.cut _ (by omega) hafter.rest (.inl hkind.1)
  obtain ⟨c₂', hcut₂, h₂⟩ := rest.cut _ hkeep hcut₁.rest (.inr hcut₁.lastEnd)
  refine ⟨c₂', hcut₂, runs_intro fun fuel hfuel => ?_⟩
  refine runs_operator hop' hlevel ?_
    (h₂ _ (Rule.bound_after hfuel (hc.length_lt hcut₁.rest (by omega) (by omega))))
  rw [← hr]
  exact h₁ _ (Rule.bound_after hfuel (hc.length_lt hafter.rest (by omega) hlen))

/-- An operand behind a lexeme of its own. -/
theorem led (hderives : Derives r c [n] c₁) (hlen : c.advance.rest.length < c.rest.length)
    (first : Carried κ r₁ c.advance [m] c₁) (hbegins : r₁.begins = true)
    (hreads : r₁.goesOn = false)
    (hruns : ∀ {fuel : Nat} {c' c₁' : Cursor}, κ.Level c c' →
      runRule fuel c'.advance r₁ = .ok ([m], c₁') → runRule (fuel + 1) c' r = .ok ([n], c₁')) :
    Carried κ r c [n] c₁ := by
  refine ⟨hderives, fun c' hkeep hc _ => ?_⟩
  have hlen₁ := first.length_lt hreads
  have hpeek := hc.level_of_lt hkeep (by omega)
  obtain ⟨c₁', hcut, h⟩ := first.cut _ hkeep hpeek.advance (.inl hbegins)
  refine ⟨c₁', hcut, runs_intro fun fuel hfuel => ?_⟩
  exact hruns hpeek (h _ (Rule.bound_after hfuel (hc.length_lt hpeek.advance (by omega) hlen)))

theorem unary (hlevel : unaryLevel? c.peek = some level)
    (first : Carried κ (.binary level) c.advance [operand] c₁) :
    Carried κ .operand c [⟨.unary c.peek.text, c.peek.span.hull operand.span, [operand]⟩] c₁ := by
  refine led (.unary hlevel first.derives) (length_advance_unary hlevel) first rfl rfl ?_
  intro fuel c' c₁' hpeek h
  rw [← hpeek.peek] at hlevel ⊢
  exact runs_unary hlevel h

theorem await (hlevel : unaryLevel? c.peek = none) (hawait : c.isWord "await" = true)
    (first : Carried κ .chain c.advance [operand] c₁) :
    Carried κ .operand c [⟨.await, c.peek.span.hull operand.span, [operand]⟩] c₁ := by
  refine led (.await hlevel hawait first.derives) (length_advance_isWord hawait) first rfl rfl ?_
  intro fuel c' c₁' hpeek h
  rw [isWord, ← hpeek.peek] at hawait
  rw [← hpeek.peek] at hlevel ⊢
  exact runs_await hlevel hawait h

theorem plain (hlevel : unaryLevel? c.peek = none) (hawait : c.isWord "await" = false)
    (first : Carried κ .chain c [n] c₁) : Carried κ .operand c [n] c₁ := by
  refine ⟨.plain hlevel hawait first.derives, fun c' hkeep hc _ => ?_⟩
  obtain ⟨c₁', hcut, h⟩ := first.cut c' hkeep hc (.inl rfl)
  refine ⟨c₁', hcut, runs_intro fun fuel hfuel => ?_⟩
  exact runs_plain (hc.unaryLevel?.trans hlevel) ((hc.isWord "await" (by decide)).trans hawait)
    (h _ (Rule.bound_enter hfuel (by simp [Rule.depth])))

theorem call (hopen : c.isOp "(" = true) (inner : Carried κ (.sequence ")") c.advance items c₁)
    (rest : Carried κ (.chainTail ⟨.call, ⟨head.span.start, c₁.lastEnd⟩, head :: items⟩) c₁ [n] c₂) :
    Carried κ (.chainTail head) c [n] c₂ := by
  refine ⟨.call hopen inner.derives rest.derives, fun c' hkeep hc _ => ?_⟩
  have hlen := length_advance_isOp hopen
  have hlen₁ := inner.length_lt rfl
  have hlen₂ := rest.length_le
  have hnext := (hc.level_of_isOp hopen).solid (solid_of_isOp hopen)
  obtain ⟨c₁', hcut₁, h₁⟩ := inner.cut _ (by omega) hnext.rest (.inr hnext.lastEnd)
  obtain ⟨c₂', hcut₂, h₂⟩ := rest.cut _ hkeep hcut₁.rest (.inr hcut₁.lastEnd)
  refine ⟨c₂', hcut₂, runs_intro fun fuel hfuel => ?_⟩
  refine runs_call ((hc.isOp "(").trans hopen)
    (h₁ _ (Rule.bound_after hfuel (hc.length_lt hnext.rest (by omega) hlen))) ?_
  rw [hcut₁.lastEnd]
  exact h₂ _ (Rule.bound_after hfuel (hc.length_lt hcut₁.rest (by omega) (by omega)))

theorem member (hcall : c.isOp "(" = false) (hdot : c.isOp "." = true)
    (hword : c.advance.kind = .word)
    (rest : Carried κ (.chainTail ⟨.member c.advance.peek.text,
      ⟨head.span.start, c.advance.advance.lastEnd⟩, [head]⟩) c.advance.advance [n] c₂) :
    Carried κ (.chainTail head) c [n] c₂ := by
  refine ⟨.member hcall hdot hword rest.derives, fun c' hkeep hc _ => ?_⟩
  have hlen := length_advance_isOp hdot
  have hlen₁ := length_advance_lt (c := c.advance) (by rw [hword]; decide)
  have hlen₂ := rest.length_le
  have hnext := (hc.level_of_isOp hdot).solid (solid_of_isOp hdot)
  have hpeek := hnext.rest.level_of_lt hkeep (by omega)
  have hcut₁ := hpeek.solid (by rw [hword]; rfl)
  obtain ⟨c₂', hcut₂, h₂⟩ := rest.cut _ hkeep hcut₁.rest (.inr hcut₁.lastEnd)
  refine ⟨c₂', hcut₂, runs_intro fun fuel hfuel => ?_⟩
  refine runs_member ((hc.isOp "(").trans hcall) ((hc.isOp ".").trans hdot)
    (hpeek.kind.trans hword) ?_
  rw [hpeek.peek, hcut₁.lastEnd]
  exact h₂ _ (Rule.bound_after hfuel (hc.length_lt hcut₁.rest (by omega) (by omega)))

theorem subscript (hcall : c.isOp "(" = false) (hdot : c.isOp "." = false)
    (hopen : c.isOp "[" = true) (inner : Carried κ .expression c.advance [index] c₁)
    (hclose : c₁.isOp "]" = true)
    (rest : Carried κ (.chainTail ⟨.index, ⟨head.span.start, c₁.advance.lastEnd⟩, [head, index]⟩)
      c₁.advance [n] c₂) : Carried κ (.chainTail head) c [n] c₂ := by
  refine ⟨.subscript hcall hdot hopen inner.derives hclose rest.derives, fun c' hkeep hc _ => ?_⟩
  have hlen := length_advance_isOp hopen
  have hlen₁ := inner.length_lt rfl
  have hlen₁' := length_advance_isOp hclose
  have hlen₂ := rest.length_le
  have hnext := (hc.level_of_isOp hopen).solid (solid_of_isOp hopen)
  obtain ⟨c₁', hcut₁, h₁⟩ := inner.cut _ (by omega) hnext.rest (.inl rfl)
  have hnext₁ := (hcut₁.rest.level_of_isOp hclose).solid (solid_of_isOp hclose)
  obtain ⟨c₂', hcut₂, h₂⟩ := rest.cut _ hkeep hnext₁.rest (.inr hnext₁.lastEnd)
  refine ⟨c₂', hcut₂, runs_intro fun fuel hfuel => ?_⟩
  refine runs_subscript ((hc.isOp "(").trans hcall) ((hc.isOp ".").trans hdot)
    ((hc.isOp "[").trans hopen)
    (h₁ _ (Rule.bound_after hfuel (hc.length_lt hnext.rest (by omega) hlen)))
    ((hcut₁.rest.isOp "]").trans hclose) ?_
  rw [hnext₁.lastEnd]
  exact h₂ _ (Rule.bound_after hfuel (hc.length_lt hnext₁.rest (by omega) (by omega)))

/-- The mark that closes a list at once. -/
theorem closed (hderives : Derives r c ns c.advance) (hclose : c.isOp close = true)
    (hruns : ∀ {fuel : Nat} {c' : Cursor}, c'.isOp close = true →
      runRule (fuel + 1) c' r = .ok (ns, c'.advance)) : Carried κ r c ns c.advance := by
  refine ⟨hderives, fun c' hkeep hc _ => ?_⟩
  refine ⟨c'.advance, (hc.level_of_isOp hclose).solid (solid_of_isOp hclose),
    runs_intro fun fuel hfuel => ?_⟩
  exact hruns ((hc.isOp close).trans hclose)

theorem sequenceMore (hclose : c.isOp close = false) (first : Carried κ .expression c [item] c₁)
    (hcomma : c₁.isOp "," = true) (rest : Carried κ (.sequence close) c₁.advance items c₂) :
    Carried κ (.sequence close) c (item :: items) c₂ := by
  refine ⟨.sequenceMore hclose first.derives hcomma rest.derives, fun c' hkeep hc _ => ?_⟩
  have hlen₁ := first.length_lt rfl
  have hlen₁' := length_advance_isOp hcomma
  have hlen₂ := rest.length_le
  obtain ⟨c₁', hcut₁, h₁⟩ := first.cut c' (by omega) hc (.inl rfl)
  have hnext := (hcut₁.rest.level_of_isOp hcomma).solid (solid_of_isOp hcomma)
  obtain ⟨c₂', hcut₂, h₂⟩ := rest.cut _ hkeep hnext.rest (.inr hnext.lastEnd)
  refine ⟨c₂', hcut₂, runs_intro fun fuel hfuel => ?_⟩
  exact runs_sequenceMore ((hc.isOp close).trans hclose)
    (h₁ _ (Rule.bound_enter hfuel (by simp [Rule.depth])))
    ((hcut₁.rest.isOp ",").trans hcomma)
    (h₂ _ (Rule.bound_after hfuel (hc.length_lt hnext.rest (by omega) (by omega))))

theorem sequenceLast (hclose : c.isOp close = false) (first : Carried κ .expression c [item] c₁)
    (hcomma : c₁.isOp "," = false) (hlast : c₁.isOp close = true) :
    Carried κ (.sequence close) c [item] c₁.advance := by
  refine ⟨.sequenceLast hclose first.derives hcomma hlast, fun c' hkeep hc _ => ?_⟩
  have hlen' := length_advance_isOp hlast
  obtain ⟨c₁', hcut, h⟩ := first.cut c' (by omega) hc (.inl rfl)
  refine ⟨c₁'.advance, (hcut.rest.level_of_isOp hlast).solid (solid_of_isOp hlast),
    runs_intro fun fuel hfuel => ?_⟩
  exact runs_sequenceLast ((hc.isOp close).trans hclose)
    (h _ (Rule.bound_enter hfuel (by simp [Rule.depth])))
    ((hcut.rest.isOp ",").trans hcomma) ((hcut.rest.isOp close).trans hlast)

/-- The key and the value of a pair, which are two rules entered one after the other. -/
theorem pair (first : Carried κ .expression c [key] c₁)
    (hmark : (c₁.isOp ":" || c₁.isOp "=") = true)
    (second : Carried κ .expression c₁.advance [val] c₂)
    (hkeep : κ.tail.length ≤ c₂.rest.length) (hc : κ.Splits c.rest c'.rest) :
    ∃ c₁' c₂', κ.Cut c₂ c₂' ∧ (c₁'.isOp ":" || c₁'.isOp "=") = true ∧
      ∀ fuel, Rule.pairs.bound c'.rest.length ≤ fuel + 1 →
        runRule fuel c' .expression = .ok ([key], c₁') ∧
        runRule fuel c₁'.advance .expression = .ok ([val], c₂') := by
  have hlen₁ := first.length_lt rfl
  have hlen₁' := length_advance_le c₁
  have hlen₂ := second.length_lt rfl
  obtain ⟨c₁', hcut₁, h₁⟩ := first.cut c' (by omega) hc (.inl rfl)
  have hnext := ((Bool.or_eq_true_iff.1 hmark).elim hcut₁.rest.level_of_isOp
    hcut₁.rest.level_of_isOp).advance
  obtain ⟨c₂', hcut₂, h₂⟩ := second.cut _ hkeep hnext (.inl rfl)
  refine ⟨c₁', c₂', hcut₂, by rw [hcut₁.rest.isOp, hcut₁.rest.isOp, hmark], fun fuel hfuel => ?_⟩
  exact ⟨h₁ _ (Rule.bound_enter hfuel (by simp [Rule.depth])),
    h₂ _ (Rule.bound_after hfuel (hc.length_lt hnext (by omega) (by omega)))⟩

theorem pairsMore (hclose : c.isOp "\x7d" = false) (first : Carried κ .expression c [key] c₁)
    (hmark : (c₁.isOp ":" || c₁.isOp "=") = true)
    (second : Carried κ .expression c₁.advance [val] c₂) (hcomma : c₂.isOp "," = true)
    (rest : Carried κ .pairs c₂.advance items c₃) :
    Carried κ .pairs c (⟨.pair, key.span.hull val.span, [key, val]⟩ :: items) c₃ := by
  refine ⟨.pairsMore hclose first.derives hmark second.derives hcomma rest.derives,
    fun c' hkeep hc _ => ?_⟩
  have hlen₁ := first.length_lt rfl
  have hlen₁' := length_advance_le c₁
  have hlen₂ := second.length_lt rfl
  have hlen₂' := length_advance_isOp hcomma
  have hlen₃ := rest.length_le
  obtain ⟨c₁', c₂', hcut₂, hmark', h⟩ := first.pair hmark second (by omega) hc
  have hnext := (hcut₂.rest.level_of_isOp hcomma).solid (solid_of_isOp hcomma)
  obtain ⟨c₃', hcut₃, h₃⟩ := rest.cut _ hkeep hnext.rest (.inr hnext.lastEnd)
  refine ⟨c₃', hcut₃, runs_intro fun fuel hfuel => ?_⟩
  exact runs_pairsMore ((hc.isOp "\x7d").trans hclose) (h fuel hfuel).1 hmark' (h fuel hfuel).2
    ((hcut₂.rest.isOp ",").trans hcomma)
    (h₃ _ (Rule.bound_after hfuel (hc.length_lt hnext.rest (by omega) (by omega))))

theorem pairsLast (hclose : c.isOp "\x7d" = false) (first : Carried κ .expression c [key] c₁)
    (hmark : (c₁.isOp ":" || c₁.isOp "=") = true)
    (second : Carried κ .expression c₁.advance [val] c₂) (hcomma : c₂.isOp "," = false)
    (hlast : c₂.isOp "\x7d" = true) :
    Carried κ .pairs c [⟨.pair, key.span.hull val.span, [key, val]⟩] c₂.advance := by
  refine ⟨.pairsLast hclose first.derives hmark second.derives hcomma hlast,
    fun c' hkeep hc _ => ?_⟩
  have hlen := length_advance_isOp hlast
  obtain ⟨c₁', c₂', hcut₂, hmark', h⟩ := first.pair hmark second (by omega) hc
  refine ⟨c₂'.advance, (hcut₂.rest.level_of_isOp hlast).solid (solid_of_isOp hlast),
    runs_intro fun fuel hfuel => ?_⟩
  exact runs_pairsLast ((hc.isOp "\x7d").trans hclose) (h fuel hfuel).1 hmark' (h fuel hfuel).2
    ((hcut₂.rest.isOp ",").trans hcomma) ((hcut₂.rest.isOp "\x7d").trans hlast)

/-- A literal that is one lexeme. -/
theorem leaf {k : Node.Kind} (hderives : Derives .primary c [⟨k, c.peek.span, []⟩] c.advance)
    (hsolid : c.kind.isSolid = true)
    (hruns : ∀ {fuel : Nat} {c' : Cursor}, c'.kind = c.kind →
      runRule (fuel + 1) c' .primary = .ok ([⟨k, c'.peek.span, []⟩], c'.advance)) :
    Carried κ .primary c [⟨k, c.peek.span, []⟩] c.advance := by
  refine ⟨hderives, fun c' hkeep hc _ => ?_⟩
  have hpeek := hc.level_of_lt hkeep (hderives.length.2 rfl)
  refine ⟨c'.advance, hpeek.solid hsolid, runs_intro fun fuel hfuel => ?_⟩
  rw [← hpeek.peek]
  exact hruns hpeek.kind

theorem word (hkind : c.kind = .word) (hword : c.wordExpression = .ok (n, c₁)) :
    Carried κ .primary c [n] c₁ := by
  refine ⟨.word hkind hword, fun c' hkeep hc _ => ?_⟩
  obtain ⟨hkind', c₁', hword', hcut⟩ := hc.wordExpression hkind hword hkeep
  exact ⟨c₁', hcut, runs_intro fun fuel hfuel => runs_word hkind' hword'⟩

theorem paren (hopen : c.isOp "(" = true) (first : Carried κ .expression c.advance [inner] c₁)
    (hclose : c₁.isOp ")" = true) : Carried κ .primary c
      [⟨.paren, c₁.advance.spanFrom c.peek.span.start, [inner]⟩] c₁.advance := by
  refine ⟨.paren hopen first.derives hclose, fun c' hkeep hc _ => ?_⟩
  have hlen := length_advance_isOp hopen
  have hlen₁ := first.length_lt rfl
  have hlen₁' := length_advance_isOp hclose
  have hpeek := hc.level_of_isOp hopen
  obtain ⟨c₁', hcut, h⟩ := first.cut _ (by omega) hpeek.advance (.inl rfl)
  have hnext := (hcut.rest.level_of_isOp hclose).solid (solid_of_isOp hclose)
  refine ⟨c₁'.advance, hnext, runs_intro fun fuel hfuel => ?_⟩
  rw [← hpeek.peek, ← hnext.spanFrom]
  exact runs_paren ((hc.isOp "(").trans hopen)
    (h _ (Rule.bound_after hfuel (hc.length_lt hpeek.advance (by omega) hlen)))
    ((hcut.rest.isOp ")").trans hclose)

/-- What stands between brackets of its own. -/
theorem bracketed {k : Node.Kind} {mark : String}
    (hderives : Derives .primary c [⟨k, c₁.spanFrom c.peek.span.start, items⟩] c₁)
    (hopen : c.isOp mark = true) (first : Carried κ r c.advance items c₁)
    (hreads : r.goesOn = false)
    (hruns : ∀ {fuel : Nat} {c c₁ : Cursor}, c.isOp mark = true →
      runRule fuel c.advance r = .ok (items, c₁) → runRule (fuel + 1) c .primary =
        .ok ([⟨k, c₁.spanFrom c.peek.span.start, items⟩], c₁)) :
    Carried κ .primary c [⟨k, c₁.spanFrom c.peek.span.start, items⟩] c₁ := by
  refine ⟨hderives, fun c' hkeep hc _ => ?_⟩
  have hlen := length_advance_isOp hopen
  have hlen₁ := first.length_lt hreads
  have hpeek := hc.level_of_isOp hopen
  have hnext := hpeek.solid (solid_of_isOp hopen)
  obtain ⟨c₁', hcut, h⟩ := first.cut _ hkeep hnext.rest (.inr hnext.lastEnd)
  refine ⟨c₁', hcut, runs_intro fun fuel hfuel => ?_⟩
  rw [← hpeek.peek, ← hcut.spanFrom]
  exact hruns ((hc.isOp mark).trans hopen)
    (h _ (Rule.bound_after hfuel (hc.length_lt hnext.rest (by omega) hlen)))

theorem nodePath (hopen : (c.isOp "$" || c.isOp "%") = true) (hpath : c.nodePath = .ok (n, c₁)) :
    Carried κ .primary c [n] c₁ := by
  refine ⟨.nodePath hopen hpath, fun c' hkeep hc _ => ?_⟩
  have hkind := (Bool.or_eq_true_iff.1 hopen).elim kind_of_isOp kind_of_isOp
  obtain ⟨c₁', hpath', hcut⟩ := hc.nodePath hkind hpath hkeep
  refine ⟨c₁', hcut, runs_intro fun fuel hfuel => ?_⟩
  exact runs_nodePath (by rw [hc.isOp, hc.isOp, hopen]) hpath'

theorem parentMember (hdot : c.isOp "." = true) (hword : c.advance.kind = .word) :
    Carried κ .primary c [⟨.member c.advance.peek.text,
      c.advance.advance.spanFrom c.peek.span.start, []⟩] c.advance.advance := by
  refine ⟨.parentMember hdot hword, fun c' hkeep hc _ => ?_⟩
  have hlen₁ := length_advance_lt (c := c.advance) (by rw [hword]; decide)
  have hpeek := hc.level_of_isOp hdot
  have hpeek₁ := hpeek.advance.level_of_lt hkeep hlen₁
  have hnext := hpeek₁.solid (by rw [hword]; rfl)
  refine ⟨c'.advance.advance, hnext, runs_intro fun fuel hfuel => ?_⟩
  rw [← hpeek.peek, ← hpeek₁.peek, ← hnext.spanFrom]
  exact runs_parentMember ((hc.isOp ".").trans hdot) (hpeek₁.kind.trans hword)

end Carried

theorem Derives.carried (h : Derives r c ns c₁) : Carried κ r c ns c₁ := by
  induction h with
  | value _ hif ih => exact ih.value hif
  | ternary _ hif _ helse _ ih₁ ih₂ ih₃ => exact ih₁.ternary hif ih₂ helse ih₃
  | binary _ _ ih₁ ih₂ => exact ih₁.binary ih₂
  | binaryEnd hend => exact .binaryEnd hend
  | typeOperator hop hlevel htype _ _ ih₁ ih₂ =>
    exact .operator hop hlevel ih₁ (by rw [if_pos htype]) ih₂
  | operator hop hlevel htype _ _ ih₁ ih₂ =>
    exact .operator hop hlevel ih₁ (by rw [htype, if_neg Bool.false_ne_true]) ih₂
  | unary hlevel _ ih => exact .unary hlevel ih
  | await hlevel hawait _ ih => exact .await hlevel hawait ih
  | plain hlevel hawait _ ih => exact .plain hlevel hawait ih
  | chain _ _ ih₁ ih₂ => exact ih₁.chain ih₂
  | chainEnd hend => exact .chainEnd hend
  | call hopen _ _ ih₁ ih₂ => exact .call hopen ih₁ ih₂
  | member hcall hdot hword _ ih => exact .member hcall hdot hword ih
  | subscript hcall hdot hopen _ hclose _ ih₁ ih₂ =>
    exact .subscript hcall hdot hopen ih₁ hclose ih₂
  | sequenceEnd hclose => exact .closed (.sequenceEnd hclose) hclose runs_sequenceEnd
  | sequenceMore hclose _ hcomma _ ih₁ ih₂ => exact .sequenceMore hclose ih₁ hcomma ih₂
  | sequenceLast hclose _ hcomma hlast ih => exact .sequenceLast hclose ih hcomma hlast
  | pairsEnd hclose => exact .closed (.pairsEnd hclose) hclose runs_pairsEnd
  | pairsMore hclose _ hmark _ hcomma _ ih₁ ih₂ ih₃ =>
    exact .pairsMore hclose ih₁ hmark ih₂ hcomma ih₃
  | pairsLast hclose _ hmark _ hcomma hlast ih₁ ih₂ =>
    exact .pairsLast hclose ih₁ hmark ih₂ hcomma hlast
  | string hkind =>
    exact .leaf (.string hkind) (by rw [hkind]; rfl) fun h => runs_string (h.trans hkind)
  | number hkind =>
    exact .leaf (.number hkind) (by rw [hkind]; rfl) fun h => runs_number (h.trans hkind)
  | word hkind hword => exact .word hkind hword
  | paren hopen _ hclose ih => exact .paren hopen ih hclose
  | array hopen inner ih => exact .bracketed (.array hopen inner) hopen ih rfl runs_array
  | dictionary hopen inner ih =>
    exact .bracketed (.dictionary hopen inner) hopen ih rfl runs_dictionary
  | nodePath hopen hpath => exact .nodePath hopen hpath
  | parentMember hdot hword => exact .parentMember hdot hword

/-- An expression before the cut. -/
theorem expression_cut (h : c.expression = .ok (n, c₁)) (hkeep : κ.tail.length ≤ c₁.rest.length)
    (hc : κ.Splits c.rest c'.rest) :
    c₁.rest.length < c.rest.length ∧ ∃ c₁', c'.expression = .ok (n, c₁') ∧ κ.Cut c₁ c₁' := by
  have hderives := derives_of_expression h
  obtain ⟨c₁', hcut, hruns⟩ := hderives.carried.cut c' hkeep hc (.inl rfl)
  refine ⟨hderives.length.2 rfl, c₁', ?_, hcut⟩
  refine map_single_ok.1 (hruns _ ?_)
  simp only [Rule.bound, Rule.depth]
  omega

end Cursor

end Phrasebook
