import Phrasebook.Grammar.Statement
import Phrasebook.Proofs.Grammar.Expression

/-!
Where the moves of a cursor lead.

A cursor reaches another by passing the lexemes in between, none of which is the end. Every move
only passes lexemes, so none goes back or beyond the end, and each stops at the place it looks for.
-/
namespace Phrasebook

namespace Cursor

open Grammar

/-- The lexemes `ls` lead from `c` to `c₁`. -/
structure Passes (c : Cursor) (ls : List Lexeme) (c₁ : Cursor) : Prop where
  rest : c.rest = ls ++ c₁.rest
  lastEnd : c₁.lastEnd = ls.foldl endAfter c.lastEnd
  inside : ∀ l ∈ ls, l.kind ≠ .eof

/-- Some lexemes before the end lead from `c` to `c₁`. -/
def Reaches (c c₁ : Cursor) : Prop := ∃ ls, Passes c ls c₁

variable {c c₁ c₂ : Cursor} {l : Lexeme} {r ls ls' : List Lexeme} {p : Lexeme → Bool}
  {last depth fuel : Nat}

theorem Passes.refl (c : Cursor) : Passes c [] c := ⟨rfl, rfl, nofun⟩

theorem Passes.cons (hl : l.kind ≠ .eof) (h : Passes ⟨r, endAfter last l⟩ ls c₁) :
    Passes ⟨l :: r, last⟩ (l :: ls) c₁ :=
  ⟨congrArg (l :: ·) h.rest, h.lastEnd, List.forall_mem_cons.2 ⟨hl, h.inside⟩⟩

theorem Passes.append (h : Passes c ls c₁) (h' : Passes c₁ ls' c₂) : Passes c (ls ++ ls') c₂ where
  rest := by rw [h.rest, h'.rest, List.append_assoc]
  lastEnd := by rw [h'.lastEnd, h.lastEnd, List.foldl_append]
  inside := List.forall_mem_append.2 ⟨h.inside, h'.inside⟩

theorem Reaches.refl (c : Cursor) : Reaches c c := ⟨[], .refl c⟩

theorem Reaches.trans (h : Reaches c c₁) (h' : Reaches c₁ c₂) : Reaches c c₂ := by
  obtain ⟨ls, hls⟩ := h
  obtain ⟨ls', hls'⟩ := h'
  exact ⟨ls ++ ls', hls.append hls'⟩

/-- What is reached behind a lexeme is reached before it. -/
theorem Reaches.cons (hl : l.kind ≠ .eof) (h : Reaches ⟨r, endAfter last l⟩ c₁) :
    Reaches ⟨l :: r, last⟩ c₁ := by
  obtain ⟨ls, hls⟩ := h
  exact ⟨l :: ls, hls.cons hl⟩

theorem Reaches.length_le (h : Reaches c c₁) : c₁.rest.length ≤ c.rest.length := by
  obtain ⟨ls, hls⟩ := h
  rw [hls.rest, List.length_append]
  exact Nat.le_add_left _ _

theorem reaches_advance (c : Cursor) : Reaches c c.advance := by
  obtain ⟨rest, last⟩ := c
  cases rest with
  | nil => exact .refl _
  | cons l r =>
    simp only [advance]
    split
    · exact .refl _
    · next hl => exact .cons hl (.refl _)

/-- What is reached behind the next lexeme is reached before it. -/
theorem Reaches.of_advance (h : Reaches c.advance c₁) : Reaches c c₁ := (reaches_advance c).trans h

theorem reaches_passWhile (p : Lexeme → Bool) (last : Nat) (r : List Lexeme) :
    Reaches ⟨r, last⟩ (passWhile p last r) := by
  fun_induction passWhile p last r with
  | case1 => exact .refl _
  | case2 last l r hp ih =>
    rw [Bool.and_eq_true, bne_iff_ne] at hp
    exact .cons hp.1 ih
  | case3 => exact .refl _

theorem passWhile_stops (p : Lexeme → Bool) (last : Nat) (r : List Lexeme) :
    (passWhile p last r).kind = .eof ∨ p (passWhile p last r).peek = false := by
  fun_induction passWhile p last r with
  | case1 => exact .inl rfl
  | case2 last l r hp ih => exact ih
  | case3 last l r hp =>
    rw [Bool.and_eq_true, bne_iff_ne, Decidable.not_and_iff_or_not, not_not,
      Bool.not_eq_true] at hp
    exact hp

theorem reaches_skipNewlines (c : Cursor) : Reaches c c.skipNewlines := reaches_passWhile _ _ _

theorem reaches_skipToStatementEnd (c : Cursor) : Reaches c c.skipToStatementEnd :=
  reaches_passWhile _ _ _

/-- The search for a colon comes to one, or is refused at the end of the line or of the text. -/
theorem toColon_cases (depth last : Nat) (r : List Lexeme) : ∃ c₁, Reaches ⟨r, last⟩ c₁ ∧
    (toColon depth last r = .ok c₁ ∧ c₁.isOp ":" = true ∨
      toColon depth last r = .error (c₁.unexpected (.exactly ":")) ∧
        (c₁.kind = .newline ∨ c₁.kind = .eof)) := by
  fun_induction toColon depth last r with
  | case1 => exact ⟨_, .refl _, .inr ⟨rfl, .inr rfl⟩⟩
  | case2 depth last l r hl => exact ⟨_, .refl _, .inr ⟨rfl, hl⟩⟩
  | case3 depth last l r hl hcolon => exact ⟨_, .refl _, .inl ⟨rfl, hcolon.2⟩⟩
  | case4 depth last l r hl hcolon ih =>
    obtain ⟨c₁, hreach, hend⟩ := ih
    exact ⟨c₁, .cons (fun he => hl (.inr he)) hreach, hend⟩

theorem skipToColon_cases (c : Cursor) : ∃ c₁, Reaches c c₁ ∧
    (c.skipToColon = .ok c₁ ∧ c₁.isOp ":" = true ∨
      c.skipToColon = .error (c₁.unexpected (.exactly ":")) ∧
        (c₁.kind = .newline ∨ c₁.kind = .eof)) :=
  toColon_cases 0 c.lastEnd c.rest

/-- Brackets are passed up to the end, or until just behind one that closes. -/
theorem pastBrackets_cases (depth last : Nat) (r : List Lexeme) : ∃ c₁, Reaches ⟨r, last⟩ c₁ ∧
    (pastBrackets depth last r = c₁ ∧ c₁.kind = .eof ∨
      pastBrackets depth last r = c₁.advance ∧ c₁.peek.closes = true) := by
  fun_induction pastBrackets depth last r with
  | case1 => exact ⟨_, .refl _, .inl ⟨rfl, rfl⟩⟩
  | case2 depth last l r hl => exact ⟨_, .refl _, .inl ⟨rfl, hl⟩⟩
  | case4 depth last l r hl hopens hcloses =>
    exact ⟨⟨l :: r, last⟩, .refl _, .inr ⟨by simp [advance, hl], hcloses⟩⟩
  | case3 depth last l r hl _ ih | case5 depth last l r hl _ _ _ ih
  | case6 depth last l r hl _ _ ih =>
    obtain ⟨c₁, hreach, hend⟩ := ih
    exact ⟨c₁, .cons hl hreach, hend⟩

theorem reaches_pastBrackets (depth last : Nat) (r : List Lexeme) :
    Reaches ⟨r, last⟩ (pastBrackets depth last r) := by
  obtain ⟨c₁, hreach, ⟨hend, -⟩ | ⟨hend, -⟩⟩ := pastBrackets_cases depth last r
  · exact hend ▸ hreach
  · exact hend ▸ hreach.trans (reaches_advance c₁)

theorem skipBrackets_cases (c : Cursor) : ∃ c₁, Reaches c c₁ ∧
    (c.skipBrackets = c₁ ∧ c₁.kind = .eof ∨ c.skipBrackets = c₁.advance ∧ c₁.peek.closes = true) :=
  pastBrackets_cases 0 c.lastEnd c.rest

theorem reaches_skipBrackets (c : Cursor) : Reaches c c.skipBrackets :=
  reaches_pastBrackets 0 c.lastEnd c.rest

/-- How many of the lexemes are of a kind. -/
def count (kind : Lexeme.Kind) (ls : List Lexeme) : Nat := ls.countP fun l => l.kind = kind

theorem count_cons (kind : Lexeme.Kind) (l : Lexeme) (ls : List Lexeme) :
    count kind (l :: ls) = count kind ls + if l.kind = kind then 1 else 0 := by
  simp [count, List.countP_cons]

/-- With `depth` blocks open, a block is open before each lexeme that is passed, so no more are closed
than are open. It ends where all are closed, or with the text before that. -/
structure Closes (depth : Nat) (c : Cursor) (ls : List Lexeme) (c₁ : Cursor) : Prop where
  passes : Passes c ls c₁
  opened (part : List Lexeme) (h : part <+: ls) (hne : part ≠ ls) :
    count .dedent part < count .indent part + depth
  ends : count .dedent ls = count .indent ls + depth ∨
    c₁.kind = .eof ∧ count .dedent ls < count .indent ls + depth

theorem Closes.nil (h : depth = 0 ∨ c.kind = .eof ∧ 0 < depth) : Closes depth c [] c where
  passes := .refl c
  opened _ hpart hne := absurd (List.prefix_nil.1 hpart) hne
  ends := by simpa [count, eq_comm] using h

/-- A lexeme in front, which opens a block, closes one or does neither. -/
theorem Closes.cons {depth' last' : Nat} (h : Closes depth' ⟨r, last'⟩ ls c₁)
    (hl : l.kind ≠ .eof) (hlast : last' = endAfter last l) (hpos : 0 < depth)
    (hdepth : depth' + (if l.kind = .dedent then 1 else 0) =
      depth + if l.kind = .indent then 1 else 0) :
    Closes depth ⟨l :: r, last⟩ (l :: ls) c₁ where
  passes := (hlast ▸ h.passes).cons hl
  opened part hpart hne := by
    cases part with
    | nil => exact Nat.lt_of_lt_of_le hpos (Nat.le_add_left _ _)
    | cons l' part =>
      obtain ⟨rfl, hmore⟩ := List.cons_prefix_cons.1 hpart
      have hlt := h.opened part hmore fun heq => hne (heq ▸ rfl)
      rw [count_cons, count_cons]
      omega
  ends := by
    rw [count_cons, count_cons]
    refine h.ends.imp (fun heq => ?_) (And.imp_right fun hlt => ?_) <;> omega

theorem endAfter_mark (h : l.kind.isSolid = false) : endAfter last l = last := by
  simp [endAfter, h]

theorem Closes.indent (h : Closes (depth + 1) ⟨r, last⟩ ls c₁) (hl : l.kind = .indent)
    (hpos : 0 < depth) : Closes depth ⟨l :: r, last⟩ (l :: ls) c₁ :=
  h.cons (by simp [hl]) (endAfter_mark (by rw [hl]; rfl)).symm hpos (by simp [hl])

theorem Closes.dedent (h : Closes depth ⟨r, last⟩ ls c₁) (hl : l.kind = .dedent) :
    Closes (depth + 1) ⟨l :: r, last⟩ (l :: ls) c₁ :=
  h.cons (by simp [hl]) (endAfter_mark (by rw [hl]; rfl)).symm (Nat.succ_pos _) (by simp [hl])

theorem closes_pastBlock (hdepth : 0 < depth) (last : Nat) (r : List Lexeme) :
    ∃ ls, Closes depth ⟨r, last⟩ ls (pastBlock depth last r) := by
  fun_induction pastBlock depth last r with
  | case1 => exact ⟨[], .nil (.inr ⟨rfl, hdepth⟩)⟩
  | case2 depth last l r hl => exact ⟨[], .nil (.inr ⟨hl, hdepth⟩)⟩
  | case3 depth last l r hl ih =>
    obtain ⟨ls, hls⟩ := ih (Nat.succ_pos depth)
    exact ⟨l :: ls, hls.indent hl hdepth⟩
  | case4 depth last l r hl hd =>
    obtain rfl : depth = 0 + 1 := by omega
    exact ⟨[l], Closes.dedent (.nil (.inl rfl)) hl⟩
  | case5 depth last l r hl hd ih =>
    obtain ⟨ls, hls⟩ := ih (by omega)
    have hclosed := hls.dedent hl
    rw [Nat.sub_add_cancel hdepth] at hclosed
    exact ⟨l :: ls, hclosed⟩
  | case6 depth last l r hl hi hd ih =>
    obtain ⟨ls, hls⟩ := ih hdepth
    exact ⟨l :: ls, hls.cons hl rfl hdepth (by rw [if_neg hi, if_neg hd])⟩

/-- The block that the next lexeme opens is passed until it is closed, or up to the end. -/
theorem closes_block (hk : c.kind = .indent) :
    ∃ ls, Closes 1 c.advance ls (pastBlock 0 c.lastEnd c.rest) := by
  obtain ⟨rest, last⟩ := c
  cases rest with
  | nil => cases hk
  | cons l r =>
    have hl : l.kind = .indent := hk
    have hnext : (⟨l :: r, last⟩ : Cursor).advance = ⟨r, last⟩ := by
      simp [advance, hl, endAfter, Lexeme.Kind.isSolid]
    rw [hnext]
    simp only [pastBlock, hl]
    exact closes_pastBlock Nat.one_pos last r

theorem reaches_skipAccessors (c : Cursor) : Reaches c c.skipAccessors := by
  unfold skipAccessors
  split
  · simp only
    split
    · next hindent =>
      obtain ⟨ls, hls⟩ := closes_block hindent
      exact .of_advance (.of_advance ⟨ls, hls.passes⟩)
    · exact reaches_advance c
  · exact reaches_skipToStatementEnd c

theorem reaches_skipOptionalBrackets (c : Cursor) : Reaches c c.skipOptionalBrackets := by
  unfold skipOptionalBrackets
  split
  · exact reaches_skipBrackets c
  · exact .refl c

theorem reaches_skipAnnotationBreaks (c : Cursor) : Reaches c c.skipAnnotationBreaks := by
  unfold skipAnnotationBreaks
  split
  · exact reaches_advance c
  · exact .refl c

theorem reaches_skipModifiers (fuel : Nat) (c : Cursor) : Reaches c (skipModifiers fuel c) := by
  induction fuel generalizing c with
  | zero => exact .refl c
  | succ fuel ih =>
    simp only [skipModifiers]
    split
    · exact .of_advance ((reaches_skipOptionalBrackets _).trans (ih _))
    · exact .refl c

theorem reaches_pathTail (last : Nat) (r : List Lexeme) : Reaches ⟨r, last⟩ (pathTail last r) := by
  fun_induction pathTail last r with
  | case1 last slash name r hp ih =>
    simp only [Bool.and_eq_true, Bool.or_eq_true, beq_iff_eq, Lexeme.isOp] at hp
    obtain ⟨⟨⟨⟨hop, -⟩, -⟩, -⟩, hname⟩ := hp
    have hsolid : name.kind.isSolid = true := by
      rcases hname with hname | hname <;> rw [hname] <;> rfl
    refine .cons (by simp [hop]) (.cons (by rcases hname with hname | hname <;> simp [hname]) ?_)
    rw [endAfter, if_pos hsolid]
    exact ih
  | case2 => exact .refl _
  | case3 => exact .refl _

/-- The operator that comes next is passed. -/
theorem reaches_binaryOp? {level : Nat} {op : Text} (hop : c.binaryOp? = some (level, op, c₁)) :
    Reaches c c₁ := by
  unfold binaryOp? at hop
  split at hop
  · cases hop
    exact .of_advance (reaches_advance _)
  · obtain ⟨level', -, he⟩ := Option.map_eq_some_iff.1 hop
    cases he
    exact reaches_advance c

end Cursor

end Phrasebook
