import Phrasebook.Grammar.Expression
import Phrasebook.Proofs.Outcomes

/-!
The derivations of expressions.

`Cursor.Derives` has one constructor for each way a rule of the grammar can go through, and no bound on
the nesting. What the rules of `Grammar.Expression` return is derived
(`Cursor.derives_of_expression`), and each way is one that a rule takes when its bound is one larger
than those of its parts.
-/
namespace Phrasebook

namespace Grammar

/-- The rules of expressions; the rules that go on after a left part carry it. -/
inductive Rule where
  | expression
  | binary (level : Nat)
  | binaryTail (level : Nat) (left : Node)
  | operand
  | chain
  | chainTail (head : Node)
  | sequence (close : String)
  | pairs
  | primary

end Grammar

namespace Cursor

open Grammar

/-- Whether no operator of at least the given level comes next. -/
def endsBinary (level : Nat) (c : Cursor) : Bool :=
  match c.binaryOp? with
  | none => true
  | some (opLevel, _, _) => opLevel < level

/-- Whether neither call nor member nor subscript comes next. -/
def endsChain (c : Cursor) : Bool := !c.isOp "(" && !c.isOp "." && !c.isOp "["

/-- A rule leads from one cursor to another and gives nodes. -/
inductive Derives : Rule → Cursor → List Node → Cursor → Prop
  | value {c c₁ : Cursor} {n : Node} (first : Derives (.binary 1) c [n] c₁)
      (noIf : c₁.isWord "if" = false) : Derives .expression c [n] c₁
  | ternary {c c₁ c₂ c₃ : Cursor} {value condition other : Node}
      (first : Derives (.binary 1) c [value] c₁) (hif : c₁.isWord "if" = true)
      (second : Derives (.binary 1) c₁.advance [condition] c₂)
      (helse : c₂.isWord "else" = true) (third : Derives .expression c₂.advance [other] c₃) :
      Derives .expression c
        [⟨.ternary, value.span.hull other.span, [value, condition, other]⟩] c₃
  | binary {c c₁ c₂ : Cursor} {level : Nat} {left n : Node}
      (first : Derives .operand c [left] c₁)
      (rest : Derives (.binaryTail level left) c₁ [n] c₂) : Derives (.binary level) c [n] c₂
  | binaryEnd {c : Cursor} {level : Nat} {left : Node} (hend : c.endsBinary level = true) :
      Derives (.binaryTail level left) c [left] c
  | typeOperator {c after c₁ c₂ : Cursor} {level opLevel : Nat} {op : Text} {left right n : Node}
      (hop : c.binaryOp? = some (opLevel, op, after)) (hlevel : level ≤ opLevel)
      (htype : takesType op = true) (second : Derives .chain after [right] c₁)
      (rest : Derives (.binaryTail level
        ⟨.binary op, left.span.hull right.span, [left, right]⟩) c₁ [n] c₂) :
      Derives (.binaryTail level left) c [n] c₂
  | operator {c after c₁ c₂ : Cursor} {level opLevel : Nat} {op : Text} {left right n : Node}
      (hop : c.binaryOp? = some (opLevel, op, after)) (hlevel : level ≤ opLevel)
      (htype : takesType op = false) (second : Derives (.binary (opLevel + 1)) after [right] c₁)
      (rest : Derives (.binaryTail level
        ⟨.binary op, left.span.hull right.span, [left, right]⟩) c₁ [n] c₂) :
      Derives (.binaryTail level left) c [n] c₂
  | unary {c c₁ : Cursor} {level : Nat} {operand : Node}
      (hlevel : unaryLevel? c.peek = some level)
      (inner : Derives (.binary level) c.advance [operand] c₁) :
      Derives .operand c
        [⟨.unary c.peek.text, c.peek.span.hull operand.span, [operand]⟩] c₁
  | await {c c₁ : Cursor} {operand : Node} (hlevel : unaryLevel? c.peek = none)
      (hawait : c.isWord "await" = true) (inner : Derives .chain c.advance [operand] c₁) :
      Derives .operand c [⟨.await, c.peek.span.hull operand.span, [operand]⟩] c₁
  | plain {c c₁ : Cursor} {n : Node} (hlevel : unaryLevel? c.peek = none)
      (hawait : c.isWord "await" = false) (inner : Derives .chain c [n] c₁) :
      Derives .operand c [n] c₁
  | chain {c c₁ c₂ : Cursor} {head n : Node} (first : Derives .primary c [head] c₁)
      (rest : Derives (.chainTail head) c₁ [n] c₂) : Derives .chain c [n] c₂
  | chainEnd {c : Cursor} {head : Node} (hend : c.endsChain = true) :
      Derives (.chainTail head) c [head] c
  | call {c c₁ c₂ : Cursor} {head n : Node} {arguments : List Node} (hopen : c.isOp "(" = true)
      (inner : Derives (.sequence ")") c.advance arguments c₁)
      (rest : Derives (.chainTail ⟨.call, ⟨head.span.start, c₁.lastEnd⟩, head :: arguments⟩)
        c₁ [n] c₂) : Derives (.chainTail head) c [n] c₂
  | member {c c₂ : Cursor} {head n : Node} (hcall : c.isOp "(" = false) (hdot : c.isOp "." = true)
      (hword : c.advance.kind = .word)
      (rest : Derives (.chainTail ⟨.member c.advance.peek.text,
        ⟨head.span.start, c.advance.advance.lastEnd⟩, [head]⟩) c.advance.advance [n] c₂) :
      Derives (.chainTail head) c [n] c₂
  | subscript {c c₁ c₂ : Cursor} {head index n : Node} (hcall : c.isOp "(" = false)
      (hdot : c.isOp "." = false) (hopen : c.isOp "[" = true)
      (inner : Derives .expression c.advance [index] c₁) (hclose : c₁.isOp "]" = true)
      (rest : Derives (.chainTail ⟨.index, ⟨head.span.start, c₁.advance.lastEnd⟩, [head, index]⟩)
        c₁.advance [n] c₂) : Derives (.chainTail head) c [n] c₂
  | sequenceEnd {c : Cursor} {close : String} (hclose : c.isOp close = true) :
      Derives (.sequence close) c [] c.advance
  | sequenceMore {c c₁ c₂ : Cursor} {close : String} {item : Node} {items : List Node}
      (hclose : c.isOp close = false) (first : Derives .expression c [item] c₁)
      (hcomma : c₁.isOp "," = true) (rest : Derives (.sequence close) c₁.advance items c₂) :
      Derives (.sequence close) c (item :: items) c₂
  | sequenceLast {c c₁ : Cursor} {close : String} {item : Node} (hclose : c.isOp close = false)
      (first : Derives .expression c [item] c₁) (hcomma : c₁.isOp "," = false)
      (hlast : c₁.isOp close = true) : Derives (.sequence close) c [item] c₁.advance
  | pairsEnd {c : Cursor} (hclose : c.isOp "\x7d" = true) : Derives .pairs c [] c.advance
  | pairsMore {c c₁ c₂ c₃ : Cursor} {key value : Node} {pairs : List Node}
      (hclose : c.isOp "\x7d" = false) (first : Derives .expression c [key] c₁)
      (hmark : (c₁.isOp ":" || c₁.isOp "=") = true)
      (second : Derives .expression c₁.advance [value] c₂) (hcomma : c₂.isOp "," = true)
      (rest : Derives .pairs c₂.advance pairs c₃) :
      Derives .pairs c (⟨.pair, key.span.hull value.span, [key, value]⟩ :: pairs) c₃
  | pairsLast {c c₁ c₂ : Cursor} {key value : Node}
      (hclose : c.isOp "\x7d" = false) (first : Derives .expression c [key] c₁)
      (hmark : (c₁.isOp ":" || c₁.isOp "=") = true)
      (second : Derives .expression c₁.advance [value] c₂) (hcomma : c₂.isOp "," = false)
      (hlast : c₂.isOp "\x7d" = true) :
      Derives .pairs c [⟨.pair, key.span.hull value.span, [key, value]⟩] c₂.advance
  | string {c : Cursor} {q : Quoting} (hkind : c.kind = .str q) :
      Derives .primary c [⟨.string q, c.peek.span, []⟩] c.advance
  | number {c : Cursor} (hkind : c.kind = .number) :
      Derives .primary c [⟨.number, c.peek.span, []⟩] c.advance
  | word {c c₁ : Cursor} {n : Node} (hkind : c.kind = .word)
      (hword : c.wordExpression = .ok (n, c₁)) : Derives .primary c [n] c₁
  | paren {c c₁ : Cursor} {inner : Node} (hopen : c.isOp "(" = true)
      (first : Derives .expression c.advance [inner] c₁) (hclose : c₁.isOp ")" = true) :
      Derives .primary c [⟨.paren, c₁.advance.spanFrom c.peek.span.start, [inner]⟩] c₁.advance
  | array {c c₁ : Cursor} {items : List Node} (hopen : c.isOp "[" = true)
      (inner : Derives (.sequence "]") c.advance items c₁) :
      Derives .primary c [⟨.array, c₁.spanFrom c.peek.span.start, items⟩] c₁
  | dictionary {c c₁ : Cursor} {pairs : List Node} (hopen : c.isOp "\x7b" = true)
      (inner : Derives .pairs c.advance pairs c₁) :
      Derives .primary c [⟨.dictionary, c₁.spanFrom c.peek.span.start, pairs⟩] c₁
  | nodePath {c c₁ : Cursor} {n : Node} (hopen : (c.isOp "$" || c.isOp "%") = true)
      (hpath : c.nodePath = .ok (n, c₁)) : Derives .primary c [n] c₁
  | parentMember {c : Cursor} (hdot : c.isOp "." = true) (hword : c.advance.kind = .word) :
      Derives .primary c [⟨.member c.advance.peek.text,
        c.advance.advance.spanFrom c.peek.span.start, []⟩] c.advance.advance

variable {c c₁ : Cursor} {op : String}

theorem expectOp_eq_ok : c.expectOp op = .ok c₁ ↔ c.isOp op = true ∧ c.advance = c₁ := by
  unfold expectOp
  split <;> simp_all

theorem expectWord_eq_ok {name : Text} :
    c.expectWord = .ok (name, c₁) ↔ c.kind = .word ∧ c.peek.text = name ∧ c.advance = c₁ := by
  unfold expectWord
  split <;> simp_all

/-- An operator is of one kind only. -/
theorem kind_of_isOp (h : c.isOp op = true) : c.kind = .op := by
  simp only [isOp, Lexeme.isOp, Bool.and_eq_true, beq_iff_eq] at h
  exact h.1

/-- Runs a rule within a bound. -/
def runRule (fuel : Nat) (c : Cursor) : Rule → Except ParseError (List Node × Cursor)
  | .expression => (expressionIn fuel c).map fun (n, c) => ([n], c)
  | .binary level => (binaryIn fuel level c).map fun (n, c) => ([n], c)
  | .binaryTail level left => (binaryTailIn fuel level left c).map fun (n, c) => ([n], c)
  | .operand => (operandIn fuel c).map fun (n, c) => ([n], c)
  | .chain => (chainIn fuel c).map fun (n, c) => ([n], c)
  | .chainTail head => (chainTailIn fuel head c).map fun (n, c) => ([n], c)
  | .sequence close => sequenceIn fuel close c
  | .pairs => pairsIn fuel c
  | .primary => (primaryIn fuel c).map fun (n, c) => ([n], c)

theorem map_single_eq_ok {x : Except ParseError (Node × Cursor)} {ns : List Node} :
    (x.map fun (n, c) => ([n], c)) = .ok (ns, c₁) ↔ ∃ n, ns = [n] ∧ x = .ok (n, c₁) := by
  cases x with
  | error e => simp [Except.map]
  | ok r =>
    obtain ⟨n, c⟩ := r
    simp only [Except.map, Except.ok.injEq, Prod.mk.injEq]
    constructor
    · rintro ⟨rfl, rfl⟩
      exact ⟨n, rfl, rfl, rfl⟩
    · rintro ⟨m, rfl, rfl, rfl⟩
      exact ⟨rfl, rfl⟩

/-- What the rules return within a bound is derived. -/
def SoundWithin (fuel : Nat) : Prop :=
  ∀ r c ns c₁, runRule fuel c r = .ok (ns, c₁) → Derives r c ns c₁

section Soundness

variable {fuel level : Nat} {n left head : Node} {ns : List Node} {close : String}

theorem SoundWithin.expression (hs : SoundWithin fuel) (h : expressionIn fuel c = .ok (n, c₁)) :
    Derives .expression c [n] c₁ :=
  hs .expression c [n] c₁ (map_single_eq_ok.2 ⟨n, rfl, h⟩)

theorem SoundWithin.binary (hs : SoundWithin fuel) (h : binaryIn fuel level c = .ok (n, c₁)) :
    Derives (.binary level) c [n] c₁ :=
  hs (.binary level) c [n] c₁ (map_single_eq_ok.2 ⟨n, rfl, h⟩)

theorem SoundWithin.binaryTail (hs : SoundWithin fuel)
    (h : binaryTailIn fuel level left c = .ok (n, c₁)) : Derives (.binaryTail level left) c [n] c₁ :=
  hs (.binaryTail level left) c [n] c₁ (map_single_eq_ok.2 ⟨n, rfl, h⟩)

theorem SoundWithin.operand (hs : SoundWithin fuel) (h : operandIn fuel c = .ok (n, c₁)) :
    Derives .operand c [n] c₁ :=
  hs .operand c [n] c₁ (map_single_eq_ok.2 ⟨n, rfl, h⟩)

theorem SoundWithin.chain (hs : SoundWithin fuel) (h : chainIn fuel c = .ok (n, c₁)) :
    Derives .chain c [n] c₁ :=
  hs .chain c [n] c₁ (map_single_eq_ok.2 ⟨n, rfl, h⟩)

theorem SoundWithin.chainTail (hs : SoundWithin fuel)
    (h : chainTailIn fuel head c = .ok (n, c₁)) : Derives (.chainTail head) c [n] c₁ :=
  hs (.chainTail head) c [n] c₁ (map_single_eq_ok.2 ⟨n, rfl, h⟩)

theorem SoundWithin.primary (hs : SoundWithin fuel) (h : primaryIn fuel c = .ok (n, c₁)) :
    Derives .primary c [n] c₁ :=
  hs .primary c [n] c₁ (map_single_eq_ok.2 ⟨n, rfl, h⟩)

theorem SoundWithin.sequence (hs : SoundWithin fuel)
    (h : sequenceIn fuel close c = .ok (ns, c₁)) : Derives (.sequence close) c ns c₁ :=
  hs (.sequence close) c ns c₁ h

theorem SoundWithin.pairs (hs : SoundWithin fuel) (h : pairsIn fuel c = .ok (ns, c₁)) :
    Derives .pairs c ns c₁ :=
  hs .pairs c ns c₁ h

theorem derives_expressionIn (hs : SoundWithin fuel)
    (h : expressionIn (fuel + 1) c = .ok (n, c₁)) : Derives .expression c [n] c₁ := by
  simp only [expressionIn, bind_ok_iff] at h
  obtain ⟨⟨value, c₂⟩, hvalue, h⟩ := h
  split at h
  · next hif =>
    obtain ⟨⟨condition, c₃⟩, hcondition, h⟩ := bind_ok_iff.1 h
    simp only at h
    split at h
    · next helse =>
      obtain ⟨⟨other, c₄⟩, hother, h⟩ := bind_ok_iff.1 h
      cases h
      exact .ternary (hs.binary hvalue) hif (hs.binary hcondition) helse (hs.expression hother)
    · cases h
  · next hif =>
    cases h
    exact .value (hs.binary hvalue) (by simpa using hif)

theorem derives_binaryIn (hs : SoundWithin fuel)
    (h : binaryIn (fuel + 1) level c = .ok (n, c₁)) : Derives (.binary level) c [n] c₁ := by
  simp only [binaryIn, bind_ok_iff] at h
  obtain ⟨⟨left, c₂⟩, hleft, h⟩ := h
  exact .binary (hs.operand hleft) (hs.binaryTail h)

theorem derives_binaryTailIn (hs : SoundWithin fuel)
    (h : binaryTailIn (fuel + 1) level left c = .ok (n, c₁)) :
    Derives (.binaryTail level left) c [n] c₁ := by
  simp only [binaryTailIn] at h
  split at h
  · next hop =>
    cases h
    exact .binaryEnd (by simp [endsBinary, hop])
  · next opLevel op after hop =>
    split at h
    · next hlevel =>
      cases h
      exact .binaryEnd (by simpa [endsBinary, hop] using hlevel)
    · next hlevel =>
      split at h
      · next htype =>
        obtain ⟨⟨right, c₂⟩, hright, h⟩ := bind_ok_iff.1 h
        exact .typeOperator hop (by omega) htype (hs.chain hright) (hs.binaryTail h)
      · next htype =>
        obtain ⟨⟨right, c₂⟩, hright, h⟩ := bind_ok_iff.1 h
        exact .operator hop (by omega) (by simpa using htype) (hs.binary hright) (hs.binaryTail h)

theorem derives_operandIn (hs : SoundWithin fuel)
    (h : operandIn (fuel + 1) c = .ok (n, c₁)) : Derives .operand c [n] c₁ := by
  simp only [operandIn] at h
  split at h
  · next level hlevel =>
    obtain ⟨⟨operand, c₂⟩, hoperand, h⟩ := bind_ok_iff.1 h
    cases h
    exact .unary hlevel (hs.binary hoperand)
  · next hlevel =>
    split at h
    · next hawait =>
      obtain ⟨⟨operand, c₂⟩, hoperand, h⟩ := bind_ok_iff.1 h
      cases h
      exact .await hlevel hawait (hs.chain hoperand)
    · next hawait => exact .plain hlevel (by simpa using hawait) (hs.chain h)

theorem derives_chainIn (hs : SoundWithin fuel) (h : chainIn (fuel + 1) c = .ok (n, c₁)) :
    Derives .chain c [n] c₁ := by
  simp only [chainIn, bind_ok_iff] at h
  obtain ⟨⟨head, c₂⟩, hhead, h⟩ := h
  exact .chain (hs.primary hhead) (hs.chainTail h)

theorem derives_chainTailIn (hs : SoundWithin fuel)
    (h : chainTailIn (fuel + 1) head c = .ok (n, c₁)) : Derives (.chainTail head) c [n] c₁ := by
  simp only [chainTailIn] at h
  split at h
  · next hopen =>
    obtain ⟨⟨arguments, c₂⟩, harguments, h⟩ := bind_ok_iff.1 h
    exact .call hopen (hs.sequence harguments) (hs.chainTail h)
  · next hcall =>
    split at h
    · next hdot =>
      obtain ⟨⟨name, c₂⟩, hname, h⟩ := bind_ok_iff.1 h
      obtain ⟨hword, rfl, rfl⟩ := expectWord_eq_ok.1 hname
      exact .member (by simpa using hcall) hdot hword (hs.chainTail h)
    · next hdot =>
      split at h
      · next hopen =>
        obtain ⟨⟨index, c₂⟩, hindex, h⟩ := bind_ok_iff.1 h
        obtain ⟨c₃, hexpect, h⟩ := bind_ok_iff.1 h
        obtain ⟨hclose, rfl⟩ := expectOp_eq_ok.1 hexpect
        exact .subscript (by simpa using hcall) (by simpa using hdot) hopen (hs.expression hindex)
          hclose (hs.chainTail h)
      · next hopen =>
        cases h
        exact .chainEnd (by simp_all [endsChain])

theorem derives_sequenceIn (hs : SoundWithin fuel)
    (h : sequenceIn (fuel + 1) close c = .ok (ns, c₁)) : Derives (.sequence close) c ns c₁ := by
  simp only [sequenceIn] at h
  split at h
  · next hclose =>
    cases h
    exact .sequenceEnd hclose
  · next hclose =>
    obtain ⟨⟨item, c₂⟩, hitem, h⟩ := bind_ok_iff.1 h
    simp only at h
    split at h
    · next hcomma =>
      obtain ⟨⟨items, c₃⟩, hitems, h⟩ := bind_ok_iff.1 h
      cases h
      exact .sequenceMore (by simpa using hclose) (hs.expression hitem) hcomma (hs.sequence hitems)
    · next hcomma =>
      obtain ⟨c₃, hexpect, h⟩ := bind_ok_iff.1 h
      obtain ⟨hlast, rfl⟩ := expectOp_eq_ok.1 hexpect
      cases h
      exact .sequenceLast (by simpa using hclose) (hs.expression hitem) (by simpa using hcomma) hlast

theorem derives_pairsIn (hs : SoundWithin fuel) (h : pairsIn (fuel + 1) c = .ok (ns, c₁)) :
    Derives .pairs c ns c₁ := by
  simp only [pairsIn] at h
  split at h
  · next hclose =>
    cases h
    exact .pairsEnd hclose
  · next hclose =>
    obtain ⟨⟨key, c₂⟩, hkey, h⟩ := bind_ok_iff.1 h
    simp only at h
    split at h
    · next hmark =>
      obtain ⟨⟨value, c₃⟩, hvalue, h⟩ := bind_ok_iff.1 h
      simp only at h
      split at h
      · next hcomma =>
        obtain ⟨⟨pairs, c₄⟩, hpairs, h⟩ := bind_ok_iff.1 h
        cases h
        exact .pairsMore (by simpa using hclose) (hs.expression hkey) hmark (hs.expression hvalue)
          hcomma (hs.pairs hpairs)
      · next hcomma =>
        obtain ⟨c₄, hexpect, h⟩ := bind_ok_iff.1 h
        obtain ⟨hlast, rfl⟩ := expectOp_eq_ok.1 hexpect
        cases h
        exact .pairsLast (by simpa using hclose) (hs.expression hkey) hmark (hs.expression hvalue)
          (by simpa using hcomma) hlast
    · cases h

theorem derives_primaryIn (hs : SoundWithin fuel) (h : primaryIn (fuel + 1) c = .ok (n, c₁)) :
    Derives .primary c [n] c₁ := by
  simp only [primaryIn] at h
  split at h
  · next q hkind =>
    cases h
    exact .string hkind
  · next hkind =>
    cases h
    exact .number hkind
  · next hkind => exact .word hkind h
  · split at h
    · next hopen =>
      obtain ⟨⟨inner, c₂⟩, hinner, h⟩ := bind_ok_iff.1 h
      obtain ⟨c₃, hexpect, h⟩ := bind_ok_iff.1 h
      obtain ⟨hclose, rfl⟩ := expectOp_eq_ok.1 hexpect
      cases h
      exact .paren hopen (hs.expression hinner) hclose
    · split at h
      · next hopen =>
        obtain ⟨⟨items, c₂⟩, hitems, h⟩ := bind_ok_iff.1 h
        cases h
        exact .array hopen (hs.sequence hitems)
      · split at h
        · next hopen =>
          obtain ⟨⟨pairs, c₂⟩, hpairs, h⟩ := bind_ok_iff.1 h
          cases h
          exact .dictionary hopen (hs.pairs hpairs)
        · split at h
          · next hopen => exact .nodePath hopen h
          · split at h
            · next hdot =>
              obtain ⟨⟨name, c₂⟩, hname, h⟩ := bind_ok_iff.1 h
              obtain ⟨hword, rfl, rfl⟩ := expectWord_eq_ok.1 hname
              cases h
              exact .parentMember hdot hword
            · cases h
  · cases h

/-- By induction on the bound, which every rule hands on one less. -/
theorem soundWithin (fuel : Nat) : SoundWithin fuel := by
  induction fuel with
  | zero =>
    intro r c ns c₁ h
    cases r <;> simp [runRule, expressionIn, binaryIn, binaryTailIn, operandIn, chainIn,
      chainTailIn, sequenceIn, pairsIn, primaryIn, Except.map] at h
  | succ fuel ih =>
    intro r c ns c₁ h
    cases r with
    | sequence close => exact derives_sequenceIn ih h
    | pairs => exact derives_pairsIn ih h
    | expression =>
      obtain ⟨n, rfl, hn⟩ := map_single_eq_ok.1 h
      exact derives_expressionIn ih hn
    | binary level =>
      obtain ⟨n, rfl, hn⟩ := map_single_eq_ok.1 h
      exact derives_binaryIn ih hn
    | binaryTail level left =>
      obtain ⟨n, rfl, hn⟩ := map_single_eq_ok.1 h
      exact derives_binaryTailIn ih hn
    | operand =>
      obtain ⟨n, rfl, hn⟩ := map_single_eq_ok.1 h
      exact derives_operandIn ih hn
    | chain =>
      obtain ⟨n, rfl, hn⟩ := map_single_eq_ok.1 h
      exact derives_chainIn ih hn
    | chainTail head =>
      obtain ⟨n, rfl, hn⟩ := map_single_eq_ok.1 h
      exact derives_chainTailIn ih hn
    | primary =>
      obtain ⟨n, rfl, hn⟩ := map_single_eq_ok.1 h
      exact derives_primaryIn ih hn

theorem derives_of_expression (h : c.expression = .ok (n, c₁)) : Derives .expression c [n] c₁ :=
  (soundWithin _).expression h

end Soundness

section Completeness

variable {c c₁ c₂ c₃ after : Cursor} {fuel level opLevel : Nat} {op : Text} {close : String}
  {n left right head value condition other operand index item key inner : Node} {ns items : List Node}

theorem map_single_ok {x : Except ParseError (Node × Cursor)} :
    (x.map fun (n, c) => ([n], c)) = .ok ([n], c₁) ↔ x = .ok (n, c₁) := by
  rw [map_single_eq_ok]
  constructor
  · rintro ⟨m, hm, hx⟩
    cases hm
    exact hx
  · intro hx
    exact ⟨n, rfl, hx⟩

theorem runs_value (first : runRule fuel c (.binary 1) = .ok ([n], c₁))
    (noIf : c₁.isWord "if" = false) : runRule (fuel + 1) c .expression = .ok ([n], c₁) := by
  refine map_single_ok.2 ?_
  simp only [expressionIn, map_single_ok.1 first, noIf, bind, Except.bind, Bool.false_eq_true,
    if_false]
  rfl

theorem runs_ternary (first : runRule fuel c (.binary 1) = .ok ([value], c₁))
    (hif : c₁.isWord "if" = true)
    (second : runRule fuel c₁.advance (.binary 1) = .ok ([condition], c₂))
    (helse : c₂.isWord "else" = true)
    (third : runRule fuel c₂.advance .expression = .ok ([other], c₃)) :
    runRule (fuel + 1) c .expression =
      .ok ([⟨.ternary, value.span.hull other.span, [value, condition, other]⟩], c₃) := by
  refine map_single_ok.2 ?_
  simp only [expressionIn, map_single_ok.1 first, hif, bind, Except.bind, if_true,
    map_single_ok.1 second, helse, map_single_ok.1 third]
  rfl

theorem runs_binary (first : runRule fuel c .operand = .ok ([left], c₁))
    (rest : runRule fuel c₁ (.binaryTail level left) = .ok ([n], c₂)) :
    runRule (fuel + 1) c (.binary level) = .ok ([n], c₂) := by
  refine map_single_ok.2 ?_
  simp only [binaryIn, map_single_ok.1 first, bind, Except.bind]
  exact map_single_ok.1 rest

theorem runs_binaryEnd (hend : c.endsBinary level = true) :
    runRule (fuel + 1) c (.binaryTail level left) = .ok ([left], c) := by
  refine map_single_ok.2 ?_
  cases hop : c.binaryOp? with
  | none => simp only [binaryTailIn, hop]
  | some found =>
    simp only [endsBinary, hop] at hend
    simp only [binaryTailIn, hop, if_pos (of_decide_eq_true hend)]

theorem runs_operator (hop : c.binaryOp? = some (opLevel, op, after)) (hlevel : level ≤ opLevel)
    (second : runRule fuel after (if takesType op then .chain else .binary (opLevel + 1)) =
      .ok ([right], c₁))
    (rest : runRule fuel c₁ (.binaryTail level
      ⟨.binary op, left.span.hull right.span, [left, right]⟩) = .ok ([n], c₂)) :
    runRule (fuel + 1) c (.binaryTail level left) = .ok ([n], c₂) := by
  refine map_single_ok.2 ?_
  have hnot : ¬ opLevel < level := Nat.not_lt.2 hlevel
  simp only [binaryTailIn, hop, if_neg hnot]
  split at second
  · next htype =>
    simp only [htype, if_true, map_single_ok.1 second, bind, Except.bind]
    exact map_single_ok.1 rest
  · next htype =>
    simp only [htype, map_single_ok.1 second, bind, Except.bind]
    exact map_single_ok.1 rest

theorem runs_unary (hlevel : unaryLevel? c.peek = some level)
    (inner : runRule fuel c.advance (.binary level) = .ok ([operand], c₁)) :
    runRule (fuel + 1) c .operand =
      .ok ([⟨.unary c.peek.text, c.peek.span.hull operand.span, [operand]⟩], c₁) := by
  refine map_single_ok.2 ?_
  simp only [operandIn, hlevel, map_single_ok.1 inner]
  rfl

theorem runs_await (hlevel : unaryLevel? c.peek = none) (hawait : c.isWord "await" = true)
    (inner : runRule fuel c.advance .chain = .ok ([operand], c₁)) :
    runRule (fuel + 1) c .operand =
      .ok ([⟨.await, c.peek.span.hull operand.span, [operand]⟩], c₁) := by
  refine map_single_ok.2 ?_
  simp only [operandIn, hlevel, hawait, if_true, map_single_ok.1 inner]
  rfl

theorem runs_plain (hlevel : unaryLevel? c.peek = none) (hawait : c.isWord "await" = false)
    (inner : runRule fuel c .chain = .ok ([n], c₁)) :
    runRule (fuel + 1) c .operand = .ok ([n], c₁) := by
  refine map_single_ok.2 ?_
  simp only [operandIn, hlevel, hawait]
  exact map_single_ok.1 inner

theorem runs_chain (first : runRule fuel c .primary = .ok ([head], c₁))
    (rest : runRule fuel c₁ (.chainTail head) = .ok ([n], c₂)) :
    runRule (fuel + 1) c .chain = .ok ([n], c₂) := by
  refine map_single_ok.2 ?_
  simp only [chainIn, map_single_ok.1 first, bind, Except.bind]
  exact map_single_ok.1 rest

theorem runs_chainEnd (hend : c.endsChain = true) :
    runRule (fuel + 1) c (.chainTail head) = .ok ([head], c) := by
  refine map_single_ok.2 ?_
  simp only [endsChain, Bool.and_eq_true, Bool.not_eq_true'] at hend
  obtain ⟨⟨hcall, hdot⟩, hopen⟩ := hend
  simp only [chainTailIn, hcall, hdot, hopen, Bool.false_eq_true, if_false]

theorem runs_call (hopen : c.isOp "(" = true)
    (inner : runRule fuel c.advance (.sequence ")") = .ok (ns, c₁))
    (rest : runRule fuel c₁ (.chainTail ⟨.call, ⟨head.span.start, c₁.lastEnd⟩, head :: ns⟩) =
      .ok ([n], c₂)) :
    runRule (fuel + 1) c (.chainTail head) = .ok ([n], c₂) := by
  refine map_single_ok.2 ?_
  have inner : sequenceIn fuel ")" c.advance = .ok (ns, c₁) := inner
  simp only [chainTailIn, hopen, if_true, inner, bind, Except.bind]
  exact map_single_ok.1 rest

theorem runs_member (hcall : c.isOp "(" = false) (hdot : c.isOp "." = true)
    (hword : c.advance.kind = .word)
    (rest : runRule fuel c.advance.advance (.chainTail ⟨.member c.advance.peek.text,
      ⟨head.span.start, c.advance.advance.lastEnd⟩, [head]⟩) = .ok ([n], c₂)) :
    runRule (fuel + 1) c (.chainTail head) = .ok ([n], c₂) := by
  refine map_single_ok.2 ?_
  have hname : c.advance.expectWord = .ok (c.advance.peek.text, c.advance.advance) :=
    expectWord_eq_ok.2 ⟨hword, rfl, rfl⟩
  simp only [chainTailIn, hcall, hdot, if_true, hname, bind, Except.bind, Bool.false_eq_true,
    if_false]
  exact map_single_ok.1 rest

theorem runs_subscript (hcall : c.isOp "(" = false) (hdot : c.isOp "." = false)
    (hopen : c.isOp "[" = true)
    (inner : runRule fuel c.advance .expression = .ok ([index], c₁)) (hclose : c₁.isOp "]" = true)
    (rest : runRule fuel c₁.advance (.chainTail ⟨.index,
      ⟨head.span.start, c₁.advance.lastEnd⟩, [head, index]⟩) = .ok ([n], c₂)) :
    runRule (fuel + 1) c (.chainTail head) = .ok ([n], c₂) := by
  refine map_single_ok.2 ?_
  have hlast : c₁.expectOp "]" = .ok c₁.advance := expectOp_eq_ok.2 ⟨hclose, rfl⟩
  simp only [chainTailIn, hcall, hdot, hopen, if_true, map_single_ok.1 inner, hlast, bind,
    Except.bind, Bool.false_eq_true, if_false]
  exact map_single_ok.1 rest

theorem runs_sequenceEnd (hclose : c.isOp close = true) :
    runRule (fuel + 1) c (.sequence close) = .ok ([], c.advance) := by
  simp only [runRule, sequenceIn, hclose, if_true]

theorem runs_sequenceMore (hclose : c.isOp close = false)
    (first : runRule fuel c .expression = .ok ([item], c₁)) (hcomma : c₁.isOp "," = true)
    (rest : runRule fuel c₁.advance (.sequence close) = .ok (items, c₂)) :
    runRule (fuel + 1) c (.sequence close) = .ok (item :: items, c₂) := by
  have rest : sequenceIn fuel close c₁.advance = .ok (items, c₂) := rest
  simp only [runRule, sequenceIn, hclose, Bool.false_eq_true, if_false, map_single_ok.1 first,
    hcomma, if_true, rest, bind, Except.bind]
  rfl

theorem runs_sequenceLast (hclose : c.isOp close = false)
    (first : runRule fuel c .expression = .ok ([item], c₁)) (hcomma : c₁.isOp "," = false)
    (hlast : c₁.isOp close = true) :
    runRule (fuel + 1) c (.sequence close) = .ok ([item], c₁.advance) := by
  have hlast : c₁.expectOp close = .ok c₁.advance := expectOp_eq_ok.2 ⟨hlast, rfl⟩
  simp only [runRule, sequenceIn, hclose, Bool.false_eq_true, if_false, map_single_ok.1 first,
    hcomma, hlast, bind, Except.bind]
  rfl

theorem runs_pairsEnd (hclose : c.isOp "\x7d" = true) :
    runRule (fuel + 1) c .pairs = .ok ([], c.advance) := by
  simp only [runRule, pairsIn, hclose, if_true]

theorem runs_pairsMore (hclose : c.isOp "\x7d" = false)
    (first : runRule fuel c .expression = .ok ([key], c₁))
    (hmark : (c₁.isOp ":" || c₁.isOp "=") = true)
    (second : runRule fuel c₁.advance .expression = .ok ([value], c₂))
    (hcomma : c₂.isOp "," = true) (rest : runRule fuel c₂.advance .pairs = .ok (items, c₃)) :
    runRule (fuel + 1) c .pairs =
      .ok (⟨.pair, key.span.hull value.span, [key, value]⟩ :: items, c₃) := by
  have rest : pairsIn fuel c₂.advance = .ok (items, c₃) := rest
  simp only [runRule, pairsIn, hclose, Bool.false_eq_true, if_false, map_single_ok.1 first, hmark,
    map_single_ok.1 second, hcomma, if_true, rest, bind, Except.bind]
  rfl

theorem runs_pairsLast (hclose : c.isOp "\x7d" = false)
    (first : runRule fuel c .expression = .ok ([key], c₁))
    (hmark : (c₁.isOp ":" || c₁.isOp "=") = true)
    (second : runRule fuel c₁.advance .expression = .ok ([value], c₂))
    (hcomma : c₂.isOp "," = false) (hlast : c₂.isOp "\x7d" = true) :
    runRule (fuel + 1) c .pairs =
      .ok ([⟨.pair, key.span.hull value.span, [key, value]⟩], c₂.advance) := by
  have hlast : c₂.expectOp "\x7d" = .ok c₂.advance := expectOp_eq_ok.2 ⟨hlast, rfl⟩
  simp only [runRule, pairsIn, hclose, Bool.false_eq_true, if_false, map_single_ok.1 first, hmark,
    map_single_ok.1 second, hcomma, if_true, hlast, bind, Except.bind]
  rfl

theorem runs_string {q : Quoting} (hkind : c.kind = .str q) :
    runRule (fuel + 1) c .primary = .ok ([⟨.string q, c.peek.span, []⟩], c.advance) := by
  refine map_single_ok.2 ?_
  simp only [primaryIn, hkind, leaf]

theorem runs_number (hkind : c.kind = .number) :
    runRule (fuel + 1) c .primary = .ok ([⟨.number, c.peek.span, []⟩], c.advance) := by
  refine map_single_ok.2 ?_
  simp only [primaryIn, hkind, leaf]

theorem runs_word (hkind : c.kind = .word) (hword : c.wordExpression = .ok (n, c₁)) :
    runRule (fuel + 1) c .primary = .ok ([n], c₁) := by
  refine map_single_ok.2 ?_
  simp only [primaryIn, hkind, hword]

/-- An operator is one operator only. -/
theorem isOp_eq_false_of_isOp {op op' : String} (h : c.isOp op = true) (hne : op' ≠ op) :
    c.isOp op' = false := by
  refine Bool.eq_false_iff.2 fun h' => hne ?_
  simp only [isOp, Lexeme.isOp, Bool.and_eq_true, beq_iff_eq] at h h'
  exact String.toList_injective (h'.2.symm.trans h.2)

theorem runs_paren (hopen : c.isOp "(" = true)
    (first : runRule fuel c.advance .expression = .ok ([inner], c₁)) (hclose : c₁.isOp ")" = true) :
    runRule (fuel + 1) c .primary =
      .ok ([⟨.paren, c₁.advance.spanFrom c.peek.span.start, [inner]⟩], c₁.advance) := by
  refine map_single_ok.2 ?_
  have hlast : c₁.expectOp ")" = .ok c₁.advance := expectOp_eq_ok.2 ⟨hclose, rfl⟩
  simp only [primaryIn, kind_of_isOp hopen, hopen, if_true, map_single_ok.1 first, hlast, bind,
    Except.bind]
  rfl

theorem runs_array (hopen : c.isOp "[" = true)
    (hitems : runRule fuel c.advance (.sequence "]") = .ok (items, c₁)) :
    runRule (fuel + 1) c .primary =
      .ok ([⟨.array, c₁.spanFrom c.peek.span.start, items⟩], c₁) := by
  refine map_single_ok.2 ?_
  have hparen : c.isOp "(" = false := isOp_eq_false_of_isOp hopen (by decide)
  have hitems : sequenceIn fuel "]" c.advance = .ok (items, c₁) := hitems
  simp only [primaryIn, kind_of_isOp hopen, hparen, hopen, Bool.false_eq_true, if_false, if_true,
    hitems, bind, Except.bind]
  rfl

theorem runs_dictionary (hopen : c.isOp "\x7b" = true)
    (hpairs : runRule fuel c.advance .pairs = .ok (items, c₁)) :
    runRule (fuel + 1) c .primary =
      .ok ([⟨.dictionary, c₁.spanFrom c.peek.span.start, items⟩], c₁) := by
  refine map_single_ok.2 ?_
  have hparen : c.isOp "(" = false := isOp_eq_false_of_isOp hopen (by decide)
  have hbracket : c.isOp "[" = false := isOp_eq_false_of_isOp hopen (by decide)
  have hpairs : pairsIn fuel c.advance = .ok (items, c₁) := hpairs
  simp only [primaryIn, kind_of_isOp hopen, hparen, hbracket, hopen, Bool.false_eq_true, if_false,
    if_true, hpairs, bind, Except.bind]
  rfl

theorem runs_nodePath (hopen : (c.isOp "$" || c.isOp "%") = true)
    (hpath : c.nodePath = .ok (n, c₁)) : runRule (fuel + 1) c .primary = .ok ([n], c₁) := by
  refine map_single_ok.2 ?_
  have hkind : c.kind = .op := (Bool.or_eq_true_iff.1 hopen).elim kind_of_isOp kind_of_isOp
  have hother (op : String) (hne : op ≠ "$" ∧ op ≠ "%") : c.isOp op = false :=
    (Bool.or_eq_true_iff.1 hopen).elim (isOp_eq_false_of_isOp · hne.1)
      (isOp_eq_false_of_isOp · hne.2)
  simp only [primaryIn, hkind, hother "(" (by decide), hother "[" (by decide),
    hother "\x7b" (by decide), hopen, hpath, Bool.false_eq_true, if_false, if_true]

theorem runs_parentMember (hdot : c.isOp "." = true) (hword : c.advance.kind = .word) :
    runRule (fuel + 1) c .primary = .ok ([⟨.member c.advance.peek.text,
      c.advance.advance.spanFrom c.peek.span.start, []⟩], c.advance.advance) := by
  refine map_single_ok.2 ?_
  have hname : c.advance.expectWord = .ok (c.advance.peek.text, c.advance.advance) :=
    expectWord_eq_ok.2 ⟨hword, rfl, rfl⟩
  have hother (op : String) (hne : op ≠ ".") : c.isOp op = false := isOp_eq_false_of_isOp hdot hne
  simp only [primaryIn, kind_of_isOp hdot, hother "(" (by decide), hother "[" (by decide),
    hother "\x7b" (by decide), hother "$" (by decide), hother "%" (by decide), hdot, Bool.or_self,
    Bool.false_eq_true, if_false, if_true, parentMember, hname]
  rfl

end Completeness

end Cursor

end Phrasebook
