import Phrasebook.Proofs.Insets

/-!
Edits in front of a part of a text, in it and behind it.

Edits that each lie in one of two parts are made in each part apart (`Edit.applyAll_split`), whatever
order they are given in: those of one part are in the order of all (`Edit.filter_inOrder`). The tree of
a range, made again after edits, has a range that begins where it did and ends as far from the end of
the text. So it covers what has become of its part exactly if nothing is gained or lost outside of it
(`Tree.range_of_replaceSpans`).
-/
namespace Phrasebook

open Text (Stands size isBoundary)

namespace Edit

variable {es left right : List Edit} {e : Edit} {source u v text : Text} {cursor n : Nat}

/-- The edit where the first `n` bytes are left out of the text. -/
def back (n : Nat) (e : Edit) : Edit := ⟨⟨e.span.start - n, e.span.stop - n⟩, e.text⟩

/-- The edit is of whole characters of the text. -/
structure Proper (source : Text) (e : Edit) : Prop where
  le : e.span.start ≤ e.span.stop
  start : isBoundary e.span.start source = true
  stop : isBoundary e.span.stop source = true

/-! ### Order -/

/-- Where an edit goes among others: behind those that start before it. -/
theorem exists_inOrder_cons (e : Edit) (es : List Edit) :
    ∃ earlier later, inOrder (e :: es) = earlier ++ e :: later ∧ inOrder es = earlier ++ later ∧
      (∀ a ∈ earlier, a.span.start < e.span.start) ∧ ∀ a ∈ later, e.span.start ≤ a.span.start := by
  obtain ⟨earlier, later, hcons, htail, hlt⟩ :=
    List.mergeSort_cons startsBy_trans startsBy_total e es
  have hsorted := pairwise_inOrder (e :: es)
  rw [inOrder, hcons, List.pairwise_append, List.pairwise_cons] at hsorted
  refine ⟨earlier, later, hcons, htail, fun a ha => ?_, hsorted.2.1.1⟩
  simpa using hlt a ha

/-- Edits in order are told apart by where another one starts. -/
theorem filter_start {earlier later : List Edit} (he : ∀ a ∈ earlier, a.span.start < n)
    (hl : ∀ a ∈ later, n ≤ a.span.start) :
    (earlier ++ later).filter (·.span.start < n) = earlier ∧
      (earlier ++ later).filter (n ≤ ·.span.start) = later := by
  have hnone : later.filter (·.span.start < n) = [] :=
    List.filter_eq_nil_iff.2 fun a ha => by simpa using hl a ha
  have hnone' : earlier.filter (n ≤ ·.span.start) = [] :=
    List.filter_eq_nil_iff.2 fun a ha => by simpa using he a ha
  have hall : earlier.filter (·.span.start < n) = earlier :=
    List.filter_eq_self.2 fun a ha => decide_eq_true (he a ha)
  have hall' : later.filter (n ≤ ·.span.start) = later :=
    List.filter_eq_self.2 fun a ha => decide_eq_true (hl a ha)
  rw [List.filter_append, List.filter_append, hnone, hnone', hall, hall']
  exact ⟨List.append_nil _, rfl⟩

/-- Some of the edits are in the order of all. By induction on the edits: the first of them stands
at the one place where those that start before it end. -/
theorem filter_inOrder (p : Edit → Bool) (es : List Edit) :
    (inOrder es).filter p = inOrder (es.filter p) := by
  induction es with
  | nil => simp [inOrder]
  | cons e es ih =>
    obtain ⟨earlier, later, hcons, htail, hearlier, hlater⟩ := exists_inOrder_cons e es
    rw [htail, List.filter_append] at ih
    rw [hcons, List.filter_append]
    cases hp : p e with
    | false =>
      rw [List.filter_cons_of_neg (by simp [hp]), List.filter_cons_of_neg (by simp [hp]), ih]
    | true =>
      rw [List.filter_cons_of_pos hp, List.filter_cons_of_pos hp]
      obtain ⟨earlier', later', hcons', htail', hearlier', hlater'⟩ :=
        exists_inOrder_cons e (es.filter p)
      have hours := @filter_start _ (earlier.filter p) (later.filter p)
        (fun a ha => hearlier a (List.mem_filter.1 ha).1)
        (fun a ha => hlater a (List.mem_filter.1 ha).1)
      have htheirs := filter_start hearlier' hlater'
      rw [ih, htail'] at hours
      rw [hcons', ← hours.1, ← hours.2, htheirs.1, htheirs.2]

theorem map_inOrder (n : Nat) (h : ∀ e ∈ es, n ≤ e.span.start) :
    (inOrder es).map (back n) = inOrder (es.map (back n)) := by
  refine List.map_mergeSort fun a ha b hb => ?_
  have := h a ha
  have := h b hb
  rw [Bool.eq_iff_iff, decide_eq_true_iff, decide_eq_true_iff]
  simp only [back]
  omega

/-- Edits that can be made together follow one another. -/
theorem pairwise_of_overlap? (hle : ∀ e ∈ es, e.span.start ≤ e.span.stop)
    (h : overlap? es = none) : es.Pairwise fun a b => a.span.stop ≤ b.span.start := by
  fun_induction overlap? es with
  | case1 => cases h
  | case2 a b more hc ih =>
    have hmore := ih (fun e he => hle e (List.mem_cons_of_mem _ he)) h
    have hab : a.span.stop ≤ b.span.start := by
      simp only [Bool.or_eq_true, decide_eq_true_eq, not_or] at hc
      omega
    have hb := hle b (by simp)
    refine List.pairwise_cons.2 ⟨List.forall_mem_cons.2 ⟨hab, fun c hc => ?_⟩, hmore⟩
    have := (List.pairwise_cons.1 hmore).1 c hc
    omega
  | case3 xs hxs =>
    rcases xs with _ | ⟨a, _ | ⟨b, more⟩⟩
    · exact .nil
    · exact List.pairwise_singleton _ a
    · exact absurd rfl (hxs a b more)

/-- Some edits come before all others if each one has those before it among them. -/
theorem inOrder_eq_append {p : Edit → Bool}
    (h : (inOrder es).Pairwise fun a b => a.span.stop ≤ b.span.start)
    (hp : ∀ a ∈ es, ∀ b ∈ es, a.span.stop ≤ b.span.start → p b = true → p a = true) :
    inOrder es = inOrder (es.filter p) ++ inOrder (es.filter fun e => !p e) := by
  rw [← filter_inOrder, ← filter_inOrder]
  have hp' : ∀ a ∈ inOrder es, ∀ b ∈ inOrder es,
      a.span.stop ≤ b.span.start → p b = true → p a = true :=
    fun a ha b hb => hp a (mem_inOrder.1 ha) b (mem_inOrder.1 hb)
  generalize inOrder es = xs at h hp'
  induction xs with
  | nil => rfl
  | cons a xs ih =>
    obtain ⟨ha, hxs⟩ := List.pairwise_cons.1 h
    cases hpa : p a with
    | true =>
      have hrest := ih hxs fun e he d hd =>
        hp' e (List.mem_cons_of_mem _ he) d (List.mem_cons_of_mem _ hd)
      rw [List.filter_cons_of_pos hpa, List.filter_cons_of_neg (by simp [hpa]), List.cons_append,
        ← hrest]
    | false =>
      have hnone : ∀ e ∈ a :: xs, ¬ p e = true := by
        refine List.forall_mem_cons.2 ⟨by simp [hpa], fun e he hpe => ?_⟩
        rw [hp' a List.mem_cons_self e (List.mem_cons_of_mem _ he) (ha e he) hpe] at hpa
        cases hpa
      rw [List.filter_eq_nil_iff.2 hnone, List.nil_append,
        List.filter_eq_self.2 fun e he => by simpa using hnone e he]

theorem pairwise_of_applyAll (hle : ∀ e ∈ es, e.span.start ≤ e.span.stop)
    (h : applyAll source es = .ok text) :
    (inOrder es).Pairwise (fun a b => a.span.stop ≤ b.span.start) ∧
      splice source 0 (inOrder es) = .ok text := by
  cases ho : overlap? (inOrder es) with
  | some conflict => simp [applyAll, ho] at h
  | none =>
    refine ⟨pairwise_of_overlap? (fun e he => hle e (mem_inOrder.1 he)) ho, ?_⟩
    simpa [applyAll, ho] using h

theorem applyAll_eq_splice (h : (inOrder es).Pairwise fun a b => a.span.stop ≤ b.span.start) :
    applyAll source es = splice source 0 (inOrder es) := by
  simp [applyAll, Piece.overlap?_eq_none h]

/-! ### Two parts of a text -/

/-- What stands between a place in one part and a place in the next. -/
theorem slice_across (hc : isBoundary cursor u = true) :
    (u ++ v).slice cursor (Text.size u + n) = u.dropBytes cursor ++ v.takeBytes n := by
  obtain ⟨a, w, rfl, rfl⟩ := Text.isBoundary_iff.1 hc
  have hsum : size (a ++ w) + n - size a = size w + n := by
    rw [Text.size_append]
    omega
  rw [Text.slice, hsum, List.append_assoc, Text.dropBytes_size_append, Text.dropBytes_size_append,
    Text.takeBytes_size_add]

theorem slice_append (hc : isBoundary cursor u = true) (hle : cursor ≤ n) (hn : n ≤ size u) :
    (u ++ v).slice cursor n = u.slice cursor n := by
  obtain ⟨a, w, rfl, rfl⟩ := Text.isBoundary_iff.1 hc
  rw [Text.size_append] at hn
  rw [Text.slice, Text.slice, List.append_assoc, Text.dropBytes_size_append,
    Text.dropBytes_size_append, Inset.takeBytes_of_le (by omega)]

/-- Edits behind a part do not depend on it. -/
theorem splice_back (u v : Text) (cursor : Nat) (es : List Edit)
    (h : ∀ e ∈ es, size u ≤ e.span.start ∧ e.span.start ≤ e.span.stop) :
    splice (u ++ v) (size u + cursor) es = splice v cursor (es.map (back (size u))) := by
  induction es generalizing cursor with
  | nil => simp [splice, Text.dropBytes_size_add]
  | cons e es ih =>
    obtain ⟨hstart, hle⟩ := h e List.mem_cons_self
    obtain ⟨i, hi⟩ := Nat.exists_eq_add_of_le hstart
    obtain ⟨j, hj⟩ := Nat.exists_eq_add_of_le (Nat.le_trans hstart hle)
    have hrest := ih j fun e he => h e (List.mem_cons_of_mem _ he)
    have hno : size (u ++ v) < e.span.stop ∨ e.span.start < size u + cursor ↔
        size v < j ∨ i < cursor := by
      rw [Text.size_append]
      omega
    have hcut : (u ++ v).slice (size u + cursor) (size u + i) = v.slice cursor i := by
      rw [Text.slice, Text.slice, Text.dropBytes_size_add, Nat.add_sub_add_left]
    simp only [List.map_cons, splice, back, hi, hj, Nat.add_sub_cancel_left] at hno hrest ⊢
    rw [hrest, hcut]
    simp only [hno]

/-- Behind all edits of the first part come those of the second. -/
theorem splice_across (hc : isBoundary cursor u = true) (hcu : cursor ≤ size u)
    (h : ∀ e ∈ es, size u ≤ e.span.start ∧ e.span.start ≤ e.span.stop) :
    splice (u ++ v) cursor es =
      (splice v 0 (es.map (back (size u)))).map (u.dropBytes cursor ++ ·) := by
  cases es with
  | nil =>
    obtain ⟨a, w, rfl, rfl⟩ := Text.isBoundary_iff.1 hc
    simp [splice, Except.map]
  | cons e es =>
    obtain ⟨hstart, hle⟩ := h e List.mem_cons_self
    obtain ⟨i, hi⟩ := Nat.exists_eq_add_of_le hstart
    obtain ⟨j, hj⟩ := Nat.exists_eq_add_of_le (Nat.le_trans hstart hle)
    have hrest := splice_back u v j es fun e he => h e (List.mem_cons_of_mem _ he)
    have hno : size (u ++ v) < e.span.stop ∨ e.span.start < cursor ↔ size v < j ∨ i < 0 := by
      rw [Text.size_append]
      omega
    have hcut : v.slice 0 i = v.takeBytes i := by rw [Text.slice, Text.dropBytes_zero, Nat.sub_zero]
    simp only [List.map_cons, splice, back, hi, hj, Nat.add_sub_cancel_left] at hno ⊢
    rw [hrest, slice_across hc, hcut]
    simp only [hno]
    split
    · rfl
    · cases splice v j (es.map (back (size u))) <;>
        simp [bind, Except.bind, Except.map, pure, Except.pure]

/-- Edits of the first part, then those of the second. -/
theorem splice_append (hc : isBoundary cursor u = true) (hcu : cursor ≤ size u)
    (hl : ∀ e ∈ left, Proper (u ++ v) e ∧ e.span.stop ≤ size u)
    (hr : ∀ e ∈ right, size u ≤ e.span.start ∧ e.span.start ≤ e.span.stop)
    (h : splice (u ++ v) cursor (left ++ right) = .ok text) :
    ∃ s t, splice u cursor left = .ok s ∧ splice v 0 (right.map (back (size u))) = .ok t ∧
      text = s ++ t := by
  induction left generalizing cursor text with
  | nil =>
    rw [List.nil_append, splice_across hc hcu hr] at h
    cases ht : splice v 0 (right.map (back (size u))) with
    | error => rw [ht] at h; cases h
    | ok t =>
      rw [ht] at h
      cases h
      exact ⟨_, t, rfl, rfl, rfl⟩
  | cons e left ih =>
    obtain ⟨he, hstop⟩ := hl e List.mem_cons_self
    rw [List.cons_append, splice] at h
    split at h
    · cases h
    next hno =>
      have hstopb : isBoundary e.span.stop u = true := by
        rw [← Inset.isBoundary_of_le hstop v]
        exact he.stop
      have hno' : ¬ (size u < e.span.stop ∨ e.span.start < cursor) := by omega
      cases hrest : splice (u ++ v) e.span.stop (left ++ right) with
      | error => rw [hrest] at h; cases h
      | ok rest =>
        rw [hrest, slice_append hc (by omega) (Nat.le_trans he.le hstop)] at h
        cases h
        obtain ⟨s, t, hs, ht, rfl⟩ :=
          ih hstopb hstop (fun e he => hl e (List.mem_cons_of_mem _ he)) hrest
        refine ⟨u.slice cursor e.span.start ++ e.text ++ s, t, ?_, ht, by simp⟩
        rw [splice, if_neg hno', hs]
        rfl

/-- Edits of two parts, the first of which are told by `p`, are made in each part apart. -/
theorem applyAll_split {p : Edit → Bool} (hes : ∀ e ∈ es, Proper (u ++ v) e)
    (hp : ∀ e ∈ es, p e = true → e.span.stop ≤ size u)
    (hnp : ∀ e ∈ es, p e = false → size u ≤ e.span.start)
    (hdown : ∀ a ∈ es, ∀ b ∈ es, a.span.stop ≤ b.span.start → p b = true → p a = true)
    (h : applyAll (u ++ v) es = .ok text) :
    ∃ s t, applyAll u (es.filter p) = .ok s ∧
      applyAll v ((es.filter fun e => !p e).map (back (size u))) = .ok t ∧ text = s ++ t := by
  obtain ⟨hpair, hsplice⟩ := pairwise_of_applyAll (fun e he => (hes e he).le) h
  have hfirst : ∀ e ∈ es.filter p, Proper (u ++ v) e ∧ e.span.stop ≤ size u := by
    intro e he
    obtain ⟨he, hpe⟩ := List.mem_filter.1 he
    exact ⟨hes e he, hp e he hpe⟩
  have hsecond : ∀ e ∈ es.filter fun e => !p e,
      size u ≤ e.span.start ∧ e.span.start ≤ e.span.stop := by
    intro e he
    obtain ⟨he, hpe⟩ := List.mem_filter.1 he
    exact ⟨hnp e he (by simpa using hpe), (hes e he).le⟩
  have hsplit := inOrder_eq_append hpair hdown
  rw [hsplit] at hpair hsplice
  obtain ⟨s, t, hs, ht, rfl⟩ := splice_append (Text.isBoundary_zero u) (Nat.zero_le _)
    (fun e he => hfirst e (mem_inOrder.1 he)) (fun e he => hsecond e (mem_inOrder.1 he)) hsplice
  obtain ⟨hleft, hright, -⟩ := List.pairwise_append.1 hpair
  have hback : ((inOrder (es.filter fun e => !p e)).map (back (size u))).Pairwise
      fun a b => a.span.stop ≤ b.span.start := by
    refine List.pairwise_map.2 (hright.imp fun hab => ?_)
    simp only [back]
    omega
  rw [map_inOrder _ fun e he => (hsecond e he).1] at hback ht
  exact ⟨s, t, by rw [applyAll_eq_splice hleft, hs], by rw [applyAll_eq_splice hback, ht], rfl⟩

/-- A text grows by what is gained. -/
theorem size_splice (hes : ∀ e ∈ es, Proper source e) (hc : isBoundary cursor source = true)
    (h : splice source cursor es = .ok text) :
    (size text : Int) + cursor = size source + gain es := by
  induction es generalizing cursor text with
  | nil =>
    cases h
    obtain ⟨a, w, rfl, rfl⟩ := Text.isBoundary_iff.1 hc
    simp only [Text.dropBytes_size_append, Text.size_append, gain]
    omega
  | cons e es ih =>
    rw [splice] at h
    split at h
    · cases h
    next hno =>
      have he := hes e List.mem_cons_self
      cases hrest : splice source e.span.stop es with
      | error => rw [hrest] at h; cases h
      | ok rest =>
        rw [hrest] at h
        cases h
        have hsum := ih (fun e he => hes e (List.mem_cons_of_mem _ he)) he.stop hrest
        have hcut := (Text.stands_slice hc he.start (by omega)).size_eq
        have := he.le
        simp only [Text.size_append, gain] at hcut ⊢
        omega

theorem size_applyAll (hes : ∀ e ∈ es, Proper source e) (h : applyAll source es = .ok text) :
    (size text : Int) = size source + gain es := by
  obtain ⟨-, hsplice⟩ := pairwise_of_applyAll (fun e he => (hes e he).le) h
  have hsum := size_splice (fun e he => hes e (mem_inOrder.1 he)) (Text.isBoundary_zero source)
    hsplice
  have hgain : gain (inOrder es) = gain es := Piece.gain_perm (List.mergeSort_perm _ _)
  rw [hgain] at hsum
  omega

/-! ### Three parts of a text -/

/-- The edits that start in front of byte `n`. -/
def before (n : Nat) (es : List Edit) : List Edit := es.filter (·.span.start < n)

/-- The edits that end behind byte `n`, in the text from there on. -/
def behind (n : Nat) (es : List Edit) : List Edit :=
  (es.filter fun e => !decide (e.span.stop ≤ n)).map (back n)

/-- The edits from one place to another, in the text between them. What is inserted at either place
counts as between them. -/
def within (start stop : Nat) (es : List Edit) : List Edit :=
  ((es.filter (·.span.stop ≤ stop)).filter fun e => !decide (e.span.start < start)).map (back start)

/-- Every edit is of whole characters and lies in front of a part, in it or behind it. -/
structure Sorted (front part rear : Text) (es : List Edit) : Prop where
  proper : ∀ e ∈ es, Proper (front ++ part ++ rear) e
  lies : ∀ e ∈ es, e.span.stop ≤ size front ∨
    (size front ≤ e.span.start ∧ e.span.stop ≤ size (front ++ part)) ∨
    size (front ++ part) ≤ e.span.start

/-- What edits make of the three parts of a text. -/
structure Parted (front part rear : Text) (es : List Edit) (front' part' rear' : Text) : Prop where
  ahead : applyAll front (before (size front) es) = .ok front'
  inside : applyAll part (within (size front) (size (front ++ part)) es) = .ok part'
  behind : applyAll rear (behind (size (front ++ part)) es) = .ok rear'

variable {front part rear : Text}

theorem Sorted.proper_upTo (h : Sorted front part rear es) :
    ∀ e ∈ es.filter (·.span.stop ≤ size (front ++ part)), Proper (front ++ part) e := by
  intro e he
  obtain ⟨he, hle⟩ := List.mem_filter.1 he
  have hstop := of_decide_eq_true hle
  obtain ⟨hspan, hstartb, hstopb⟩ := h.proper e he
  rw [Inset.isBoundary_of_le (Nat.le_trans hspan hstop)] at hstartb
  rw [Inset.isBoundary_of_le hstop] at hstopb
  exact ⟨hspan, hstartb, hstopb⟩

/-- Edits of three parts are made in each part apart. -/
theorem applyAll_parts (hes : Sorted front part rear es)
    (h : applyAll (front ++ part ++ rear) es = .ok text) : ∃ front' part' rear',
      Parted front part rear es front' part' rear' ∧ text = front' ++ part' ++ rear' := by
  have hgrow := Text.size_append front part
  obtain ⟨s, rear', hs, hrear, rfl⟩ := applyAll_split hes.proper
    (fun e he hp => of_decide_eq_true hp)
    (fun e he hp => by
      have := of_decide_eq_false hp
      have := hes.lies e he
      omega)
    (fun a ha b hb hab hp => by
      have := of_decide_eq_true hp
      have := (hes.proper b hb).le
      exact decide_eq_true (by omega)) h
  obtain ⟨front', part', hfront, hpart, rfl⟩ := applyAll_split hes.proper_upTo
    (fun e he hp => by
      have := of_decide_eq_true hp
      have := (hes.proper_upTo e he).le
      have := hes.lies e (List.mem_filter.1 he).1
      omega)
    (fun e he hp => Nat.le_of_not_lt (of_decide_eq_false hp))
    (fun a ha b hb hab hp => by
      have := of_decide_eq_true hp
      have := (hes.proper_upTo a ha).le
      exact decide_eq_true (by omega)) hs
  have htwice : (es.filter (·.span.stop ≤ size (front ++ part))).filter
      (·.span.start < size front) = before (size front) es := by
    rw [before, List.filter_filter]
    refine List.filter_congr fun e he => ?_
    have := hes.lies e he
    have := (hes.proper e he).le
    rw [Bool.eq_iff_iff, Bool.and_eq_true, decide_eq_true_iff, decide_eq_true_iff]
    omega
  rw [htwice] at hfront
  exact ⟨front', part', rear', ⟨hfront, hpart, hrear⟩, rfl⟩

end Edit

namespace Tree

open Edit (Parted)

variable {front part rear : Text} {es : List Edit} {t next : Tree} {source : Text}

/-- The range after edits, as it is computed from the range before. -/
theorem replaceSpans_eq_ok {start stop : Nat} (ht : ofRange source ⟨start, stop⟩ = .ok t)
    (h : t.replaceSpans es = .ok next) :
    Edit.applyAll source es = .ok next.source ∧
      next.range = ⟨start, offsetIn next.source (stop + Edit.gain es)⟩ := by
  obtain ⟨_, _, _, -, -, rfl⟩ := ofRange_eq_ok ht
  unfold replaceSpans at h
  split at h
  · cases h
  next text htext =>
    cases hnext : ofRange text ⟨start, offsetIn text (stop + Edit.gain es)⟩ with
    | error => simp [hnext, Except.mapError] at h
    | ok found =>
      obtain ⟨_, _, _, -, -, rfl⟩ := ofRange_eq_ok hnext
      simp only [hnext, Except.mapError, Except.ok.injEq] at h
      subst h
      exact ⟨htext, rfl⟩

theorem offsetIn_of_le {x : Nat} (h : x ≤ size source) : offsetIn source x = x := by
  rw [offsetIn, if_pos ⟨Int.natCast_nonneg x, Int.ofNat_le.2 h⟩, Int.toNat_natCast]

/-- An offset counted from the end is found only where it is, although offsets wrap around. -/
theorem eq_of_offsetIn {rest x : Nat} (hrest : rest < UInt64.size) (hx : x ≤ size source)
    (h : offsetIn source ((size source : Int) - rest) = x) : size source = x + rest := by
  unfold offsetIn at h
  split at h
  · omega
  · simp only [UInt64.size] at h hrest
    omega

/-- After edits a range begins where it did, and ends as far from the end of the text as it did. So
it is the range of what has become of its part exactly if nothing was gained or lost in front of the
part, and nothing behind it. -/
theorem range_of_replaceSpans (hsize : size (front ++ part ++ rear) < UInt64.size)
    (ht : ofRange (front ++ part ++ rear) ⟨size front, size (front ++ part)⟩ = .ok t)
    (hes : Edit.Sorted front part rear es) (h : t.replaceSpans es = .ok next) :
    ∃ front' part' rear', Parted front part rear es front' part' rear' ∧
      next.source = front' ++ part' ++ rear' ∧
      (next.range = ⟨size front', size (front' ++ part')⟩ ↔
        size front' = size front ∧ size rear' = size rear) := by
  obtain ⟨happly, hrange⟩ := replaceSpans_eq_ok ht h
  obtain ⟨front', part', rear', hparts, hsource⟩ := Edit.applyAll_parts hes happly
  have hgain := Edit.size_applyAll hes.proper happly
  have hstop : ((size (front ++ part) : Int) + Edit.gain es) = size next.source - size rear := by
    rw [hgain, Text.size_append _ rear]
    omega
  refine ⟨front', part', rear', hparts, hsource, ?_⟩
  have hsum : size next.source = size (front' ++ part') + size rear' := by
    rw [hsource, Text.size_append _ rear']
  have hle : size (front' ++ part') ≤ size next.source := Nat.le.intro hsum.symm
  rw [hrange, hstop, Span.mk.injEq]
  constructor
  · rintro ⟨hfront, hend⟩
    have hrest : size rear < UInt64.size := by
      rw [Text.size_append _ rear] at hsize
      omega
    have := eq_of_offsetIn hrest hle hend
    omega
  · rintro ⟨hfront, hrear⟩
    have hfar : (size next.source : Int) - size rear = size (front' ++ part') := by omega
    rw [hfar, offsetIn_of_le hle]
    exact ⟨hfront.symm, rfl⟩

/-- When all edits lie in its part, the range after them is that of the edited part. -/
theorem range_of_edits_within (hsize : size (front ++ part ++ rear) < UInt64.size)
    (ht : ofRange (front ++ part ++ rear) ⟨size front, size (front ++ part)⟩ = .ok t)
    (hproper : ∀ e ∈ es, Edit.Proper (front ++ part ++ rear) e)
    (hin : ∀ e ∈ es, size front ≤ e.span.start ∧ e.span.stop ≤ size (front ++ part))
    (h : t.replaceSpans es = .ok next) :
    ∃ part', Edit.applyAll part (es.map (Edit.back (size front))) = .ok part' ∧
      next.source = front ++ part' ++ rear ∧
      next.range = ⟨size front, size (front ++ part')⟩ := by
  obtain ⟨front', part', rear', ⟨hahead, hinside, hbehind⟩, hsource, hiff⟩ :=
    range_of_replaceSpans hsize ht ⟨hproper, fun e he => .inr (.inl (hin e he))⟩ h
  have hfront : Edit.before (size front) es = [] :=
    List.filter_eq_nil_iff.2 fun e he => by simpa using (hin e he).1
  have hrear : Edit.behind (size (front ++ part)) es = [] := by
    rw [Edit.behind, List.map_eq_nil_iff]
    exact List.filter_eq_nil_iff.2 fun e he => by simpa using (hin e he).2
  have hall : Edit.within (size front) (size (front ++ part)) es =
      es.map (Edit.back (size front)) := by
    rw [Edit.within, List.filter_filter, List.filter_eq_self.2 fun e he => by simpa using hin e he]
  rw [hfront, Edit.applyAll_nil] at hahead
  rw [hrear, Edit.applyAll_nil] at hbehind
  rw [hall] at hinside
  cases hahead
  cases hbehind
  exact ⟨part', hinside, hsource, hiff.2 ⟨rfl, rfl⟩⟩

/-- Two bytes gained in front of a part move the part, but the range after the edit begins where it
did, inside the line before. -/
theorem range_off_by_gain_before :
    (((ofRange (Text.of "x = 1\nsay(2)\ny = 3\n") ⟨6, 13⟩).toOption.bind fun t =>
        (t.replaceSpans [⟨⟨0, 1⟩, Text.of "abc"⟩]).toOption).map fun next =>
      (next.range, next.source.slice 8 15, next.source.slice 6 15)) =
      some (⟨6, 15⟩, Text.of "say(2)\n", Text.of "1\nsay(2)\n") := by
  decide +kernel

end Tree

end Phrasebook
