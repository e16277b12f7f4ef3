import Phrasebook.Proofs.Grammar.Lengths

/-!
Parses that come to an end and go on.

A parse is given as a function of the bound on its nesting. It settles where a large enough bound is
no longer felt: the result stays the same from there on, and it is no refusal for want of a bound.
The laws below follow how rules are put together, so each rule needs only those of its parts.
-/
namespace Phrasebook

/-- A result, or a refusal that is not for want of a bound on the nesting. -/
def Decided {α : Type} (x : Except ParseError α) : Prop :=
  ∀ e, x = .error e → e.cause ≠ .exhausted

theorem decided_ok {α : Type} (a : α) : Decided (.ok a) := nofun

theorem decided_error {α : Type} {e : ParseError} (h : e.cause ≠ .exhausted) :
    Decided (.error e : Except ParseError α) := by
  rintro _ ⟨rfl⟩
  exact h

theorem Decided.bind {α β : Type} {x : Except ParseError α} {k : α → Except ParseError β}
    (hx : Decided x) (hk : ∀ a, x = .ok a → Decided (k a)) : Decided (x >>= k) := by
  cases x with
  | error e => exact decided_error (hx e rfl)
  | ok a => exact hk a rfl

namespace Cursor

open Grammar

/-- From `bound` on, `f` has a result that no larger bound changes. Where it succeeds, within any
bound, it leads from `c` to a place with fewer than `limit` lexemes left. -/
structure Advances {α : Type} (c : Cursor) (bound limit : Nat) (place : α → Cursor)
    (f : Nat → Except ParseError α) : Prop where
  settles : ∃ x, Decided x ∧ ∀ fuel, bound ≤ fuel → f fuel = x
  reads (fuel : Nat) (a : α) (h : f fuel = .ok a) :
    Reaches c (place a) ∧ (place a).rest.length < limit

namespace Advances

variable {α β : Type} {c c₁ : Cursor} {bound bound' limit limit' : Nat} {place : α → Cursor}
  {place' : β → Cursor} {f g : Nat → Except ParseError α}

theorem done {a : α} (h : Reaches c (place a)) (hlt : (place a).rest.length < limit) :
    Advances c bound limit place fun _ => .ok a where
  settles := ⟨.ok a, decided_ok a, fun _ _ => rfl⟩
  reads _ _ ha := by
    cases ha
    exact ⟨h, hlt⟩

/-- The result is given at the place that has been come to. -/
theorem here {a : α} (hlt : c.rest.length < limit) :
    Advances c bound limit Prod.snd fun _ => .ok (a, c) :=
  .done (.refl c) hlt

theorem refused {e : ParseError} (h : e.cause ≠ .exhausted) :
    Advances c bound limit place fun _ => .error e where
  settles := ⟨.error e, decided_error h, fun _ _ => rfl⟩
  reads := nofun

theorem unexpected (c' : Cursor) (want : ParseError.Want) :
    Advances c bound limit place fun _ => .error (c'.unexpected want) :=
  .refused (by simp [Cursor.unexpected])

theorem mono (h : Advances c bound limit place f) (hb : bound ≤ bound') (hl : limit ≤ limit') :
    Advances c bound' limit' place f where
  settles := by
    obtain ⟨x, hx, hf⟩ := h.settles
    exact ⟨x, hx, fun fuel hfuel => hf fuel (Nat.le_trans hb hfuel)⟩
  reads fuel a ha := (h.reads fuel a ha).imp_right fun hlt => Nat.lt_of_lt_of_le hlt hl

theorem within (h : Advances c bound limit place f) (hb : bound ≤ bound') :
    Advances c bound' limit place f :=
  h.mono hb (Nat.le_refl _)

/-- What advances from a later place advances from an earlier one. -/
theorem after (on : Reaches c c₁) (h : Advances c₁ bound limit place f) :
    Advances c bound limit place f where
  settles := h.settles
  reads fuel a ha := (h.reads fuel a ha).imp_left on.trans

/-- Within a bound that is large enough for a part, the part is the same for all bounds. -/
theorem fixed (h : Advances c bound limit place f) (hb : bound ≤ bound') :
    Advances c 0 limit place fun _ => f bound' where
  settles := by
    obtain ⟨x, hx, hf⟩ := h.settles
    exact ⟨x, hx, fun _ _ => hf bound' hb⟩
  reads _ := h.reads bound'

/-- A rule is entered, which costs one of the bound. -/
theorem enter (hzero : ∀ a, f 0 = .ok a → Reaches c (place a) ∧ (place a).rest.length < limit)
    (h : Advances c bound limit place fun fuel => f (fuel + 1)) :
    Advances c (bound + 1) limit place f where
  settles := by
    obtain ⟨x, hx, hf⟩ := h.settles
    refine ⟨x, hx, fun fuel hfuel => ?_⟩
    obtain ⟨fuel, rfl⟩ := Nat.exists_eq_succ_of_ne_zero (Nat.ne_zero_of_lt hfuel)
    exact hf fuel (Nat.le_of_succ_le_succ hfuel)
  reads fuel a ha := by
    cases fuel with
    | zero => exact hzero a ha
    | succ fuel => exact h.reads fuel a ha

theorem decided (h : Advances c bound limit place f) {fuel : Nat} (hb : bound ≤ fuel) :
    Decided (f fuel) := by
  obtain ⟨x, hx, hf⟩ := h.settles
  exact hf fuel hb ▸ hx

/-- Two parses in a row: the second begins where the first ends. -/
theorem bind {k : α → Nat → Except ParseError β} (first : Advances c bound limit place f)
    (next : ∀ a, (∃ fuel, f fuel = .ok a) → (place a).rest.length < limit →
      Advances (place a) bound limit' place' (k a)) :
    Advances c bound limit' place' fun fuel => f fuel >>= fun a => k a fuel where
  settles := by
    obtain ⟨x, hx, hf⟩ := first.settles
    cases x with
    | error e =>
      exact ⟨.error e, decided_error (hx e rfl), fun fuel hfuel => by rw [hf fuel hfuel]; rfl⟩
    | ok a =>
      have hok := hf bound (Nat.le_refl _)
      obtain ⟨y, hy, hk⟩ := (next a ⟨bound, hok⟩ (first.reads bound a hok).2).settles
      exact ⟨y, hy, fun fuel hfuel => by rw [hf fuel hfuel]; exact hk fuel hfuel⟩
  reads fuel b hb := by
    obtain ⟨a, ha, hb⟩ := bind_ok_iff.1 hb
    obtain ⟨hreach, hlt⟩ := first.reads fuel a ha
    exact ((next a ⟨fuel, ha⟩ hlt).reads fuel b hb).imp_left hreach.trans

/-- A part and the place behind it, with which the rest goes on. -/
theorem part {f : Nat → Except ParseError (α × Cursor)} {k : α × Cursor → Nat → Except ParseError β}
    (first : Advances c bound limit Prod.snd f)
    (next : ∀ a c₁, c₁.rest.length < limit → Advances c₁ bound limit' place' (k (a, c₁))) :
    Advances c bound limit' place' fun fuel => f fuel >>= fun a => k a fuel :=
  first.bind fun a _ hlt => next a.1 a.2 hlt

/-- A move that may be refused, with the rest behind it. -/
theorem move {f : Nat → Except ParseError Cursor} {k : Cursor → Nat → Except ParseError β}
    (first : Advances c bound limit id f)
    (next : ∀ c₁, c₁.rest.length < limit → Advances c₁ bound limit' place' (k c₁)) :
    Advances c bound limit' place' fun fuel => f fuel >>= fun c₁ => k c₁ fuel :=
  first.bind fun c₁ _ hlt => next c₁ hlt

theorem ite {p : Prop} [Decidable p] (yes : p → Advances c bound limit place f)
    (no : ¬ p → Advances c bound limit place g) :
    Advances c bound limit place fun fuel => if p then f fuel else g fuel := by
  by_cases h : p
  · simpa only [if_pos h] using yes h
  · simpa only [if_neg h] using no h

/-- A loop that goes on while `go` holds, and passes something each time. As many rounds as lexemes
are left are enough for it. -/
theorem loop (go : Cursor → Prop) (f : Nat → Cursor → Except ParseError α) (out : Cursor → α)
    (hplace : ∀ c, place (out c) = c) (hpos : ∀ c, go c → 0 < c.rest.length)
    (hzero : ∀ c, f 0 c = .ok (out c)) (hstop : ∀ fuel c, ¬ go c → f (fuel + 1) c = .ok (out c))
    (hstep : ∀ c, go c → (∀ c', c'.rest.length < c.rest.length →
        Advances c' c'.rest.length (c'.rest.length + 1) place fun fuel => f fuel c') →
      Advances c (c.rest.length - 1) (c.rest.length + 1) place fun fuel => f (fuel + 1) c)
    (c : Cursor) : Advances c c.rest.length (c.rest.length + 1) place fun fuel => f fuel c := by
  have hout (c : Cursor) : Reaches c (place (out c)) ∧ (place (out c)).rest.length <
      c.rest.length + 1 := by
    rw [hplace]
    exact ⟨.refl c, Nat.lt_succ_self _⟩
  induction hn : c.rest.length using Nat.strongRecOn generalizing c with
  | ind n ih =>
    subst hn
    by_cases hgo : go c
    · have hlen := hpos c hgo
      have step := hstep c hgo fun c' hlt => ih _ hlt c' rfl
      refine (step.enter fun a ha => ?_).within (by omega)
      cases (hzero c).symm.trans ha
      exact hout c
    · have hsame : (fun fuel => f fuel c) = fun _ => .ok (out c) := by
        funext fuel
        cases fuel with
        | zero => exact hzero c
        | succ fuel => exact hstop fuel c hgo
      rw [hsame]
      exact .done (hout c).1 (hout c).2

end Advances

variable {c : Cursor} {bound : Nat}

theorem expectWord_advances (bound : Nat) (c : Cursor) :
    Advances c bound c.rest.length Prod.snd fun _ => c.expectWord := by
  unfold expectWord
  refine .ite (fun hk => ?_) fun _ => .unexpected _ _
  exact .done (reaches_advance c) (length_advance_lt (by simp [hk]))

theorem expectOp_advances (bound : Nat) (op : String) (c : Cursor) :
    Advances c bound c.rest.length id fun _ => c.expectOp op := by
  unfold expectOp
  refine .ite (fun hop => ?_) fun _ => .unexpected _ _
  exact .done (reaches_advance c) (length_advance_isOp hop)

/-- The search for a colon, with the rest behind it. -/
theorem Advances.colon {β : Type} {limit : Nat} {place : β → Cursor}
    {k : Cursor → Nat → Except ParseError β}
    (next : ∀ c₁, c₁.rest.length ≤ c.rest.length → c₁.isOp ":" = true →
      Advances c₁ bound limit place (k c₁)) :
    Advances c bound limit place fun fuel => c.skipToColon >>= fun c₁ => k c₁ fuel := by
  obtain ⟨c₁, hreach, ⟨hok, hcolon⟩ | ⟨herr, -⟩⟩ := skipToColon_cases c
  · rw [hok]
    exact .after hreach (next c₁ hreach.length_le hcolon)
  · rw [herr]
    exact .unexpected _ _

end Cursor

end Phrasebook
