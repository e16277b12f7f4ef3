import Phrasebook.Proofs.Pieces

/-!
Replacing a text wherever it occurs.

Where all occurrences of a text are known and apart, replacing it everywhere is the same as editing
each of them (`Edit.applyAll_eq_replaceAll`). Edits at other places may be made before
(`Edit.applyAll_append`), which moves the occurrences as `Script.remap` says.
-/
namespace Phrasebook

open Text (Stands size)

namespace Text

variable {t p q a b : Text} {span : Span}

theorem replaceFrom_length (p q a b : Text) :
    replaceFrom p q a.length (a ++ b) = replaceFrom p q 0 b := by
  induction a with
  | nil => rfl
  | cons c a ih =>
    have hskip : 0 < (c :: a).length := Nat.zero_lt_succ _
    rw [List.cons_append, replaceFrom, if_pos hskip]
    exact ih

/-- An occurrence at the very start is replaced. -/
theorem replaceAll_self_append (hp : p ≠ []) (q b : Text) :
    (p ++ b).replaceAll p q = q ++ b.replaceAll p q := by
  cases p with
  | nil => exact absurd rfl hp
  | cons c p =>
    have hhead : (c :: p).isPrefixOf (c :: (p ++ b)) = true :=
      List.isPrefixOf_iff_prefix.2 (List.prefix_append (c :: p) b)
    rw [replaceAll, List.cons_append, replaceFrom, if_neg (Nat.lt_irrefl 0), if_pos hhead]
    rw [List.length_cons, Nat.add_sub_cancel, replaceFrom_length]
    rfl

/-- A part in which no occurrence begins is kept. -/
theorem replaceAll_append (q : Text) (h : ∀ x y, a = x ++ y → y ≠ [] → ¬ p <+: y ++ b) :
    (a ++ b).replaceAll p q = a ++ b.replaceAll p q := by
  induction a with
  | nil => rfl
  | cons c a ih =>
    have hhead : ¬ p.isPrefixOf (c :: (a ++ b)) = true := by
      rw [List.isPrefixOf_iff_prefix]
      exact h [] (c :: a) rfl (List.cons_ne_nil _ _)
    have hrest := ih fun x y hxy hy => h (c :: x) y (by rw [hxy]; rfl) hy
    rw [replaceAll, List.cons_append, replaceFrom, if_neg (Nat.lt_irrefl 0), if_neg hhead]
    exact congrArg (c :: ·) hrest

theorem Stands.occurs (h : Stands t span p) : t.occurs p = true := by
  obtain ⟨a, c, rfl, -⟩ := h
  rw [List.append_assoc]
  have hprefix : p.isPrefixOf (p ++ c) = true :=
    List.isPrefixOf_iff_prefix.2 (List.prefix_append p c)
  induction a with
  | nil =>
    cases hpc : p ++ c with
    | nil =>
      rw [List.append_eq_nil_iff] at hpc
      rw [hpc.1]
      rfl
    | cons d r =>
      rw [hpc] at hprefix
      rw [List.nil_append, occurs, hprefix]
      rfl
  | cons d a ih =>
    rw [List.cons_append, occurs, ih]
    exact Bool.or_true _

/-- The spans at which `p` occurs from byte `pos` on. -/
def occurrencesFrom (p : Text) (pos : Nat) : Text → List Span
  | [] => if p = [] then [⟨pos, pos⟩] else []
  | c :: r =>
    (if p.isPrefixOf (c :: r) then [⟨pos, pos + size p⟩] else []) ++
      occurrencesFrom p (pos + c.utf8Size) r

/-- The spans at which `p` occurs. -/
def occurrences (t p : Text) : List Span := occurrencesFrom p 0 t

theorem mem_occurrencesFrom (pos : Nat) : span ∈ occurrencesFrom p pos t ↔
    ∃ a c, t = a ++ p ++ c ∧ span = ⟨pos + size a, pos + size a + size p⟩ := by
  induction t generalizing pos with
  | nil =>
    have hcut (a c : Text) : [] = a ++ p ++ c ↔ a = [] ∧ p = [] ∧ c = [] := by
      rw [eq_comm, List.append_eq_nil_iff, List.append_eq_nil_iff, and_assoc]
    rw [occurrencesFrom]
    constructor
    · intro h
      split at h
      · next hp =>
        exact ⟨[], [], (hcut [] []).2 ⟨rfl, hp, rfl⟩, by rw [List.mem_singleton.1 h, hp]; rfl⟩
      · cases h
    · rintro ⟨a, c, ht, rfl⟩
      obtain ⟨rfl, rfl, -⟩ := (hcut a c).1 ht
      exact List.mem_cons_self
  | cons d r ih =>
    rw [occurrencesFrom, List.mem_append, ih]
    constructor
    · rintro (h | ⟨a, c, rfl, rfl⟩)
      · split at h
        · next hp =>
          obtain ⟨c, hc⟩ := List.isPrefixOf_iff_prefix.1 hp
          exact ⟨[], c, hc.symm, by rw [List.mem_singleton.1 h]; rfl⟩
        · cases h
      · refine ⟨d :: a, c, rfl, ?_⟩
        rw [size, ← Nat.add_assoc]
    · rintro ⟨a, c, ht, rfl⟩
      cases a with
      | nil =>
        have hp : p.isPrefixOf (d :: r) = true := List.isPrefixOf_iff_prefix.2 ⟨c, ht.symm⟩
        rw [if_pos hp]
        exact .inl List.mem_cons_self
      | cons e a =>
        obtain ⟨rfl, rfl⟩ := List.cons.inj ht
        refine .inr ⟨a, c, rfl, ?_⟩
        rw [size, ← Nat.add_assoc]

theorem mem_occurrences : span ∈ t.occurrences p ↔ Stands t span p := by
  rw [occurrences, mem_occurrencesFrom]
  simp only [Nat.zero_add]
  rfl

end Text

namespace Piece

variable {ps : List Piece} {tail : Text}

/-- By induction on the pieces, where `before` is the text that has been gone through. -/
theorem replaceAll_weave {old new : Text} (hold : old ≠ []) (before : Text)
    (hps : ∀ p ∈ ps, p.old = old ∧ p.new = some new)
    (honly : ∀ span, size before ≤ span.start →
      Stands (before ++ weave Piece.old tail ps) span old →
        span ∈ spans Piece.old (size before) ps) :
    (weave Piece.old tail ps).replaceAll old new = weave written tail ps := by
  induction ps generalizing before with
  | nil =>
    have hkept := Text.replaceAll_append (a := tail) (b := []) (p := old) new ?_
    · simpa [weave, Text.replaceAll, Text.replaceFrom] using hkept
    · rintro x y rfl hy ⟨c, hc⟩
      have hmem := honly ⟨size (before ++ x), size (before ++ x) + size old⟩ (by simp)
        ⟨before ++ x, c, by simpa [weave] using hc.symm, rfl⟩
      cases hmem
  | cons p ps ih =>
    obtain ⟨hpold, hpnew⟩ := hps p List.mem_cons_self
    have hgap : ∀ x y, p.gap = x ++ y → y ≠ [] →
        ¬ old <+: y ++ (old ++ weave Piece.old tail ps) := by
      rintro x y hxy hy ⟨c, hc⟩
      have hmem := honly ⟨size (before ++ x), size (before ++ x) + size old⟩ (by simp)
        ⟨before ++ x, c, by simp [weave, hxy, hpold, hc], rfl⟩
      -- The first site is behind the gap, and so are the others.
      have hsize : size p.gap = size x + size y := by rw [hxy, Text.size_append]
      have hpos := Text.size_pos hy
      rcases List.mem_cons.1 hmem with heq | hmem
      · have hstart := congrArg Span.start heq
        simp only [Text.size_append] at hstart
        omega
      · have hstart := (le_start_of_mem_spans hmem).1
        simp only [Text.size_append] at hstart
        omega
    have hrest := ih (before ++ p.gap ++ p.old) (fun q hq => hps q (List.mem_cons_of_mem _ hq)) ?_
    · rw [weave, weave, written, hpold, hpnew, List.append_assoc, Text.replaceAll_append new hgap,
        Text.replaceAll_self_append hold, hrest]
      simp
    · intro span hstart hstands
      have hsize : size (before ++ p.gap ++ p.old) = size before + size p.gap + size p.old := by
        simp [Nat.add_assoc]
      rw [hsize] at hstart ⊢
      have hmem := honly span (by omega) (by simpa [weave] using hstands)
      rcases List.mem_cons.1 hmem with rfl | hmem
      · have hpos := Text.size_pos hold
        simp only [hpold] at hstart
        omega
      · exact hmem

/-! ### Some of the edits first -/

section First

variable (first : Span → Bool)

/-- The pieces with only the edits at the spans that come first. -/
def keepFirst (pos : Nat) : List Piece → List Piece
  | [] => []
  | p :: more =>
    let span : Span := ⟨pos + size p.gap, pos + size p.gap + size p.old⟩
    { p with new := if first span then p.new else none } :: keepFirst span.stop more

/-- The pieces after the edits at the spans that come first, with the other edits still to be made. -/
def afterFirst (pos : Nat) : List Piece → List Piece
  | [] => []
  | p :: more =>
    let span : Span := ⟨pos + size p.gap, pos + size p.gap + size p.old⟩
    ⟨p.gap, if first span then p.written else p.old, if first span then none else p.new⟩ ::
      afterFirst span.stop more

variable {first} {pos : Nat} {ps qs : List Piece} {tail : Text}

theorem weave_old_keepFirst (ps : List Piece) :
    weave old tail (keepFirst first pos ps) = weave old tail ps := by
  induction ps generalizing pos with
  | nil => rfl
  | cons p ps ih => simp only [keepFirst, weave, ih]

theorem old_ne_nil_keepFirst (h : ∀ p ∈ ps, p.old ≠ []) :
    ∀ p ∈ keepFirst first pos ps, p.old ≠ [] := by
  induction ps generalizing pos with
  | nil => simp [keepFirst]
  | cons p ps ih =>
    rw [List.forall_mem_cons] at h
    exact List.forall_mem_cons.2 ⟨h.1, ih h.2⟩

theorem keepFirst_append (ps qs : List Piece) (pos : Nat) :
    keepFirst first pos (ps ++ qs) =
      keepFirst first pos ps ++ keepFirst first (pos + size (weave old [] ps)) qs := by
  induction ps generalizing pos with
  | nil => simp [keepFirst, weave, size]
  | cons p ps ih => simp [keepFirst, weave, ih, Nat.add_assoc]

theorem edits_keepFirst (ps : List Piece) (pos : Nat) :
    edits pos (keepFirst first pos ps) = (edits pos ps).filter fun e => first e.span := by
  induction ps generalizing pos with
  | nil => rfl
  | cons p ps ih =>
    simp only [keepFirst, edits, List.filter_append, ih]
    congr 1
    cases p.new with
    | none => simp
    | some text => split <;> simp_all

theorem weave_old_afterFirst (ps : List Piece) (pos : Nat) :
    weave old tail (afterFirst first pos ps) = weave written tail (keepFirst first pos ps) := by
  induction ps generalizing pos with
  | nil => rfl
  | cons p ps ih =>
    simp only [afterFirst, keepFirst, weave, ih, written]
    split <;> rfl

theorem weave_written_afterFirst (ps : List Piece) (pos : Nat) :
    weave written tail (afterFirst first pos ps) = weave written tail ps := by
  induction ps generalizing pos with
  | nil => rfl
  | cons p ps ih =>
    simp only [afterFirst, weave, ih, written]
    split <;> rfl

theorem old_ne_nil_afterFirst (h : ∀ p ∈ ps, p.old ≠ [])
    (hnew : ∀ e ∈ edits pos ps, first e.span = true → e.text ≠ []) :
    ∀ p ∈ afterFirst first pos ps, p.old ≠ [] := by
  induction ps generalizing pos with
  | nil => simp [afterFirst]
  | cons p ps ih =>
    rw [List.forall_mem_cons] at h
    refine List.forall_mem_cons.2 ⟨?_, ih h.2 fun e he => hnew e (List.mem_append_right _ he)⟩
    split
    · next hfirst =>
      rw [written]
      cases hp : p.new with
      | none => exact h.1
      | some text =>
        refine hnew ⟨_, text⟩ (List.mem_append_left _ ?_) hfirst
        rw [hp]
        exact List.mem_cons_self
    · exact h.1

/-- The other edits are made where their spans are by then. -/
theorem edits_afterFirst {es : List Edit} (hold : ∀ p ∈ ps, p.old ≠ [])
    (hperm : es.Perm (edits 0 (keepFirst first 0 ps))) :
    edits 0 (afterFirst first 0 ps) = ((edits 0 ps).filter fun e => !first e.span).map fun e =>
      ⟨Script.remap es e.span, e.text⟩ := by
  suffices h : ∀ rs qs, ps = rs ++ qs →
      edits (size (weave written [] (keepFirst first 0 rs)))
          (afterFirst first (size (weave old [] rs)) qs) =
        ((edits (size (weave old [] rs)) qs).filter fun e => !first e.span).map fun e =>
          ⟨Script.remap es e.span, e.text⟩ by
    exact h [] ps rfl
  intro rs qs
  induction qs generalizing rs with
  | nil => intro _; rfl
  | cons p qs ih =>
    rintro rfl
    have hrest := ih (rs ++ [p]) (by simp)
    rw [keepFirst_append, Nat.zero_add] at hrest
    simp only [keepFirst] at hrest
    rw [size_weave_concat, size_weave_concat] at hrest
    have hmoved := hperm
    rw [keepFirst_append, Nat.zero_add] at hmoved
    have hold' := @old_ne_nil_keepFirst first 0 _ hold
    rw [keepFirst_append, Nat.zero_add] at hold'
    simp only [keepFirst] at hmoved hold'
    have hremap := remap_edits hold' hmoved
    rw [weave_old_keepFirst] at hremap
    simp only [afterFirst, edits, List.filter_append, List.map_append]
    generalize size (weave old [] rs) = a at *
    generalize size (weave written [] (keepFirst first 0 rs)) = b at *
    cases hfirst : first ⟨a + size p.gap, a + size p.gap + size p.old⟩ with
    | true =>
      simp only [hfirst, if_true] at hrest ⊢
      have hnone : ((p.new.map fun text =>
          (⟨⟨a + size p.gap, a + size p.gap + size p.old⟩, text⟩ : Edit)).toList.filter fun e =>
            !first e.span) = [] := by
        cases p.new <;> simp [hfirst]
      rw [hnone]
      exact hrest
    | false =>
      simp only [hfirst, Bool.false_eq_true, if_false, written, Option.getD_none] at hrest hremap ⊢
      rw [hrest]
      congr 1
      cases p.new <;> simp [hfirst, hremap]

end First

end Piece

namespace Edit

open Piece

variable {source x old new : Text} {sites : List Span} {es fs : List Edit}

/-- Edits may be made in two goes: those of the second are then made where their spans have moved. -/
theorem applyAll_append (hapart : sites.Pairwise Span.Apart)
    (hs : ∀ s ∈ sites, s.start < s.stop ∧ ∃ m, Stands source s m)
    (hsites : ∀ e ∈ es ++ fs, e.span ∈ sites)
    (hone : (es ++ fs).Pairwise fun a b => a.span ≠ b.span) (htext : ∀ e ∈ es, e.text ≠ [])
    (hx : applyAll source es = .ok x) :
    applyAll source (es ++ fs) =
      applyAll x (fs.map fun e => ⟨Script.remap es e.span, e.text⟩) := by
  obtain ⟨ps, tail, hsource, hold, -, hperm, -⟩ := exists_pieces_of_edits hapart hs hsites hone
  let first (span : Span) : Bool := es.any (·.span == span)
  have hfirst : ∀ e ∈ es, first e.span = true := by
    intro e he
    exact List.any_eq_true.2 ⟨e, he, beq_self_eq_true _⟩
  have hlater : ∀ f ∈ fs, first f.span = false := by
    intro f hf
    refine List.any_eq_false.2 fun e he heq => ?_
    exact (List.pairwise_append.1 hone).2.2 e he f hf (beq_iff_eq.1 heq)
  have hes : es.Perm (edits 0 (keepFirst first 0 ps)) := by
    have hfilter := hperm.filter fun e => first e.span
    rw [List.filter_append, List.filter_eq_self.2 hfirst,
      List.filter_eq_nil_iff.2 fun f hf => by rw [hlater f hf]; exact Bool.false_ne_true,
      List.append_nil] at hfilter
    rwa [edits_keepFirst]
  have hfs : (fs.map fun e => (⟨Script.remap es e.span, e.text⟩ : Edit)).Perm
      (edits 0 (afterFirst first 0 ps)) := by
    have hfilter := hperm.filter fun e => !first e.span
    rw [List.filter_append,
      List.filter_eq_nil_iff.2 fun e he => by rw [hfirst e he]; exact Bool.false_ne_true,
      List.filter_eq_self.2 fun f hf => by rw [hlater f hf]; rfl, List.nil_append] at hfilter
    rw [edits_afterFirst hold hes]
    exact hfilter.map _
  have hkeep : source = weave Piece.old tail (keepFirst first 0 ps) := by
    rw [weave_old_keepFirst, hsource]
  rw [applyAll_eq hkeep (old_ne_nil_keepFirst hold) hes] at hx
  cases hx
  have hafter : ∀ p ∈ afterFirst first 0 ps, p.old ≠ [] := by
    refine old_ne_nil_afterFirst hold fun e he hspan => ?_
    rcases List.mem_append.1 (hperm.symm.subset he) with hmem | hmem
    · exact htext e hmem
    · rw [hlater e hmem] at hspan
      cases hspan
  rw [applyAll_eq hsource hold hperm,
    applyAll_eq (weave_old_afterFirst ps 0).symm hafter hfs, weave_written_afterFirst]

/-- A text that occurs only where edits replace it, always by the same, is replaced everywhere. -/
theorem applyAll_eq_replaceAll (hold : old ≠ []) (hapart : (es.map (·.span)).Pairwise Span.Apart)
    (hes : ∀ e ∈ es, Stands x e.span old ∧ e.text = new)
    (honly : ∀ span, Stands x span old → ∃ e ∈ es, e.span = span) :
    applyAll x es = .ok (x.replaceAll old new) := by
  have hs : ∀ s ∈ es.map (·.span), s.start < s.stop ∧ ∃ m, Stands x s m := by
    refine List.forall_mem_map.2 fun e he => ?_
    have hstands := (hes e he).1
    exact ⟨hstands.lt_iff.2 hold, old, hstands⟩
  have hone : es.Pairwise fun a b => a.span ≠ b.span := by
    refine List.Pairwise.imp_of_mem ?_ (List.pairwise_map.1 hapart)
    intro a b ha _ hab
    exact hab.ne (hs a.span (List.mem_map_of_mem ha)).1
  obtain ⟨ps, tail, hx, hne, hspans, hperm, hnew⟩ :=
    exists_pieces_of_edits hapart hs (fun e he => List.mem_map_of_mem he) hone
  have hps : ∀ p ∈ ps, p.old = old ∧ p.new = some new := by
    intro p hp
    obtain ⟨k, hk, rfl⟩ := List.mem_iff_getElem.1 hp
    have hlen : k < (spans Piece.old 0 ps).length := by
      have hlen := congrArg List.length hnew
      simp only [List.length_map] at hlen
      omega
    have hmem := hspans.subset (List.getElem_mem hlen)
    obtain ⟨e, he, hspan⟩ := List.mem_map.1 hmem
    have hstands := (List.forall₂_iff_get.1 (stands_weave Piece.old [] ps tail)).2 k hk hlen
    rw [List.nil_append, ← hx] at hstands
    have hnewk : (ps.map Piece.new)[k]? = ((spans Piece.old 0 ps).map fun s =>
        (es.find? (·.span == s)).map (·.text))[k]? := by rw [hnew]
    simp only [List.getElem?_map, List.getElem?_eq_getElem hk, List.getElem?_eq_getElem hlen,
      Option.map_some, Option.some.injEq] at hnewk
    rw [← hspan, find?_span_eq hone he] at hnewk
    refine ⟨?_, ?_⟩
    · refine hstands.unique ?_
      simp only [List.get_eq_getElem]
      exact hspan ▸ (hes e he).1
    · rw [hnewk, Option.map_some, (hes e he).2]
  rw [applyAll_eq hx hne hperm, hx, replaceAll_weave hold [] hps]
  intro span _ hstands
  rw [List.nil_append, ← hx] at hstands
  obtain ⟨e, he, rfl⟩ := honly span hstands
  exact hspans.symm.subset (List.mem_map_of_mem he)

end Edit

end Phrasebook
