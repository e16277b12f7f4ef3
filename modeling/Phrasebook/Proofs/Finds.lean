import Mathlib.Data.List.Nodup
import Phrasebook.Script.Finds
import Phrasebook.Script.Plan
import Phrasebook.Proofs.Located

/-!
What is found in a part of a tree.

`Finds.Yields` relates the finds of a part to its nodes: the sites lie in the part and are apart, each
holds a literal that is text, and every such literal that no denied call surrounds lies in one of them.
It is proved for every way in which finds are made.
-/
namespace Phrasebook

open Text (Stands size)

namespace Site.Form

/-- A phrase as it is written in the code. -/
def write : Form → Text → Text
  | .literal q, phrase => q.wrap phrase
  | .expression, phrase | .statement, phrase => phrase

/-- What is found of a text in the code. -/
def read : Form → Text → Text
  | .literal q, current => Script.contentOf q current
  | .expression, current | .statement, current => current

end Site.Form

theorem Text.slice_wrap {source : Text} {span : Span} {q : Quoting} {content : Text}
    (h : Stands source span (q.wrap content)) :
    source.slice (span.start + (size q.sigil + size q.delimiter))
      (span.stop - size q.delimiter) = content := by
  obtain ⟨before, after, hsource, hspan⟩ := h
  have hstands := stands_append (before ++ q.sigil ++ q.delimiter) content (q.delimiter ++ after)
  have hslice := hstands.slice_eq
  have hstop : size before + size (q.wrap content) - size q.delimiter =
      size before + (size q.sigil + size q.delimiter) + size content := by
    simp only [Quoting.wrap, size_append]
    omega
  simp only [hspan, hstop, hsource]
  simpa [Quoting.wrap, Nat.add_assoc] using hslice

theorem Script.contentOf_wrap (q : Quoting) (content : Text) :
    contentOf q (q.wrap content) = content := by
  have hstands := Text.stands_append (q.sigil ++ q.delimiter) content q.delimiter
  have hstop : size (q.wrap content) - size q.delimiter =
      size (q.sigil ++ q.delimiter) + size content := by
    simp only [Quoting.wrap, Text.size_append]
    omega
  have hslice : (q.wrap content).slice? (size (q.sigil ++ q.delimiter))
      (size (q.sigil ++ q.delimiter) + size content) = some content := hstands.slice?_eq
  simp only [contentOf, hstop]
  rw [← Text.size_append, hslice]
  rfl

theorem Site.Form.read_write (form : Form) (phrase : Text) :
    form.read (form.write phrase) = phrase := by
  cases form with
  | literal q => exact Script.contentOf_wrap q phrase
  | expression => rfl
  | statement => rfl

namespace Finds

variable (rules : CallRules) (source : Text)

/-- Whether no call around a node is denied. -/
def Admitted (n : Node.Located) : Prop :=
  ∀ p ∈ n.above, p.1.kind = .call → rules.denies (calleeOf source p.1) = false

/-- Finds at places between `lo` and `hi`, made of the nodes of `pool`. -/
structure Yields (lo hi : Nat) (pool : List Node.Located) (fs : List Find) : Prop where
  inside : ∀ f ∈ fs, lo ≤ f.site.span.start ∧ f.site.span.stop ≤ hi
  apart : fs.Pairwise fun f g => f.site.span.Apart g.site.span
  exact_ : ∀ f ∈ fs, f.site.span.start < f.site.span.stop ∧
    Stands source f.site.span (f.site.form.write f.entry.phrase)
  sound : ∀ f ∈ fs, ∃ lit ∈ pool, isText rules source lit = true ∧
    f.site.span.contains lit.node.span = true
  quoted : ∀ f ∈ fs, ∀ q, f.site.form = .literal q → ∃ lit ∈ pool,
    isText rules source lit = true ∧ lit.node.kind = .string q ∧ f.site.span = lit.node.span
  complete : ∀ lit ∈ pool, isText rules source lit = true → Admitted rules source lit →
    ∃ f ∈ fs, f.site.span.contains lit.node.span = true

variable {rules source} {lo mid hi : Nat} {pool pool' : List Node.Located} {fs fs' : List Find}
  {n m : Node.Located} {context : Text}

theorem yields_nil (h : ∀ lit ∈ pool, isText rules source lit = true →
    ¬ Admitted rules source lit) : Yields rules source lo hi pool [] where
  inside := by simp
  apart := List.Pairwise.nil
  exact_ := by simp
  sound := by simp
  quoted := by simp
  complete := fun lit hlit ht ha => absurd ha (h lit hlit ht)

theorem Yields.mono {lo' hi' : Nat} (h : Yields rules source lo hi pool fs) (hlo : lo' ≤ lo)
    (hhi : hi ≤ hi') : Yields rules source lo' hi' pool fs where
  inside f hf := by
    have := h.inside f hf
    omega
  apart := h.apart
  exact_ := h.exact_
  sound := h.sound
  quoted := h.quoted
  complete := h.complete

theorem Yields.append (h : Yields rules source lo mid pool fs)
    (h' : Yields rules source mid hi pool' fs') (hlo : lo ≤ mid) (hhi : mid ≤ hi) :
    Yields rules source lo hi (pool ++ pool') (fs ++ fs') where
  inside := by
    refine List.forall_mem_append.2 ⟨fun f hf => ?_, fun f hf => ?_⟩
    · have := h.inside f hf
      omega
    · have := h'.inside f hf
      omega
  apart := by
    refine List.pairwise_append.2 ⟨h.apart, h'.apart, fun f hf g hg => .inl ?_⟩
    have := h.inside f hf
    have := h'.inside g hg
    omega
  exact_ := List.forall_mem_append.2 ⟨h.exact_, h'.exact_⟩
  sound := by
    refine List.forall_mem_append.2 ⟨fun f hf => ?_, fun f hf => ?_⟩
    · obtain ⟨lit, hlit, hrest⟩ := h.sound f hf
      exact ⟨lit, List.mem_append_left _ hlit, hrest⟩
    · obtain ⟨lit, hlit, hrest⟩ := h'.sound f hf
      exact ⟨lit, List.mem_append_right _ hlit, hrest⟩
  quoted := by
    refine List.forall_mem_append.2 ⟨fun f hf q hq => ?_, fun f hf q hq => ?_⟩
    · obtain ⟨lit, hlit, hrest⟩ := h.quoted f hf q hq
      exact ⟨lit, List.mem_append_left _ hlit, hrest⟩
    · obtain ⟨lit, hlit, hrest⟩ := h'.quoted f hf q hq
      exact ⟨lit, List.mem_append_right _ hlit, hrest⟩
  complete := by
    refine List.forall_mem_append.2 ⟨fun lit hlit ht ha => ?_, fun lit hlit ht ha => ?_⟩
    · obtain ⟨f, hf, hc⟩ := h.complete lit hlit ht ha
      exact ⟨f, List.mem_append_left _ hf, hc⟩
    · obtain ⟨f, hf, hc⟩ := h'.complete lit hlit ht ha
      exact ⟨f, List.mem_append_right _ hf, hc⟩

theorem isString_of_isText (h : isText rules source n = true) : n.node.kind.isString = true := by
  unfold isText at h
  split at h
  · next q hq => simp [hq, Node.Kind.isString]
  · cases h

/-- A node that is no string adds nothing to what is below it. -/
theorem Yields.cons (h : Yields rules source lo hi pool fs) (hn : n.node.kind.isString = false) :
    Yields rules source lo hi (n :: pool) fs where
  inside := h.inside
  apart := h.apart
  exact_ := h.exact_
  sound f hf := by
    obtain ⟨lit, hlit, hrest⟩ := h.sound f hf
    exact ⟨lit, List.mem_cons_of_mem _ hlit, hrest⟩
  quoted f hf q hq := by
    obtain ⟨lit, hlit, hrest⟩ := h.quoted f hf q hq
    exact ⟨lit, List.mem_cons_of_mem _ hlit, hrest⟩
  complete := by
    refine List.forall_mem_cons.2 ⟨fun ht => ?_, h.complete⟩
    rw [isString_of_isText ht] at hn
    cases hn

/-- The finds of a node, in its own extent. -/
abbrev YieldsAt (rules : CallRules) (source : Text) (n : Node.Located) (fs : List Find) : Prop :=
  Yields rules source n.node.span.start n.node.span.stop (n.node.locate n.above) fs

/-- A literal that is text is a site with its content as the phrase. -/
theorem literal_eq (hl : n.node.Laid source) (ht : isText rules source n = true)
    (context : Text) :
    ∃ f, literal rules source context n = [f] ∧ f.site.span = n.node.span ∧
      f.site.span.start < f.site.span.stop ∧
      Stands source f.site.span (f.site.form.write f.entry.phrase) := by
  have hs := isString_of_isText ht
  cases hk : n.node.kind with
  | string q =>
    obtain ⟨-, content, hstands⟩ := hl.fit.quoted q hk
    have hbounds := hl.fit.bounds (.inl (by simp [hk, Node.Kind.isExpression]))
    have hinner := Text.slice_wrap hstands
    simp only [literal, ht, if_true, hk, Node.contentSpan?]
    refine ⟨_, rfl, rfl, hbounds.1, ?_⟩
    simp only [find, Site.Form.write, Entry.new, hinner]
    exact hstands
  | _ => simp [hk, Node.Kind.isString] at hs

theorem literal_of_not_isText (ht : isText rules source n = false) :
    literal rules source context n = [] := by
  simp [literal, ht]

theorem span_of_mem_literal {f : Find} (h : f ∈ literal rules source context n) :
    f.site.span = n.node.span := by
  unfold literal at h
  split at h
  · split at h
    · rw [List.mem_singleton.1 h]
      rfl
    · cases h
  · cases h

theorem kind_of_mem_literal {f : Find} {q : Quoting} (h : f ∈ literal rules source context n)
    (hq : f.site.form = .literal q) : n.node.kind = .string q := by
  unfold literal at h
  split at h
  · split at h
    · next q' _ hk _ =>
      rw [List.mem_singleton.1 h] at hq
      cases hq
      exact hk
    · cases h
  · cases h

theorem mem_literals {f : Find} :
    f ∈ literals rules source context n ↔
      ∃ lit ∈ n.node.locate n.above, isText rules source lit = true ∧
        f ∈ literal rules source context lit := by
  simp only [literals, stringsOf, List.mem_flatMap, List.mem_filter]
  constructor
  · rintro ⟨lit, ⟨hlit, -⟩, hf⟩
    by_cases ht : isText rules source lit = true
    · exact ⟨lit, hlit, ht, hf⟩
    · rw [literal_of_not_isText (by simpa using ht)] at hf
      cases hf
  · rintro ⟨lit, hlit, ht, hf⟩
    exact ⟨lit, ⟨hlit, isString_of_isText ht⟩, hf⟩

/-- Two literals are apart. -/
theorem strings_apart {lit lit' : Node.Located} (hl : n.node.Laid source)
    (hlit : lit ∈ n.node.locate n.above) (hs : lit.node.kind.isString = true)
    (hlit' : lit' ∈ n.node.locate n.above) (hs' : lit'.node.kind.isString = true)
    (hne : lit ≠ lit') : lit.node.span.Apart lit'.node.span := by
  rcases hl.apart_or hlit hlit' with h | h | h
  · exact h
  · rw [(hl.of_mem_locate hlit').locate_string hs', List.mem_singleton] at h
    exact absurd h hne
  · rw [(hl.of_mem_locate hlit).locate_string hs, List.mem_singleton] at h
    exact absurd h.symm hne

/-- The literals of a part, each a site of its own. -/
theorem literals_yields (hl : n.node.Laid source) (context : Text) :
    YieldsAt rules source n (literals rules source context n) := by
  have hone {f : Find} (hf : f ∈ literals rules source context n) :
      ∃ lit ∈ n.node.locate n.above, isText rules source lit = true ∧
        f.site.span = lit.node.span ∧ f.site.span.start < f.site.span.stop ∧
        Stands source f.site.span (f.site.form.write f.entry.phrase) := by
    obtain ⟨lit, hlit, ht, hf⟩ := mem_literals.1 hf
    obtain ⟨g, hg, hrest⟩ := literal_eq (hl.of_mem_locate hlit) ht context
    rw [hg, List.mem_singleton] at hf
    subst hf
    exact ⟨lit, hlit, ht, hrest⟩
  refine ⟨fun f hf => ?_, ?_, fun f hf => ?_, fun f hf => ?_, fun f hf q hq => ?_,
    fun lit hlit ht _ => ?_⟩
  · obtain ⟨lit, hlit, -, hspan, -⟩ := hone hf
    rw [hspan]
    exact hl.contains hlit
  · refine List.pairwise_flatMap.2 ⟨fun lit hlit => ?_, ?_⟩
    · by_cases ht : isText rules source lit = true
      · obtain ⟨g, hg, -⟩ :=
          literal_eq (hl.of_mem_locate (List.mem_filter.1 hlit).1) ht context
        rw [hg]
        exact List.pairwise_singleton _ _
      · rw [literal_of_not_isText (by simpa using ht)]
        exact List.Pairwise.nil
    · refine ((Node.nodup_locate _ _).filter _).pairwise_of_forall_ne fun lit hlit lit' hlit' hne => ?_
      obtain ⟨hlit, hs⟩ := List.mem_filter.1 hlit
      obtain ⟨hlit', hs'⟩ := List.mem_filter.1 hlit'
      have hapart := strings_apart hl hlit hs hlit' hs' hne
      intro f hf g hg
      rw [span_of_mem_literal hf, span_of_mem_literal hg]
      exact hapart
  · obtain ⟨lit, -, -, -, hrest⟩ := hone hf
    exact hrest
  · obtain ⟨lit, hlit, ht, hspan, -⟩ := hone hf
    exact ⟨lit, hlit, ht, by simp [hspan, Span.contains]⟩
  · obtain ⟨lit, hlit, ht, hf⟩ := mem_literals.1 hf
    exact ⟨lit, hlit, ht, kind_of_mem_literal hf hq, span_of_mem_literal hf⟩
  · obtain ⟨f, hf, hspan, -⟩ := literal_eq (hl.of_mem_locate hlit) ht context
    refine ⟨f, mem_literals.2 ⟨lit, hlit, ht, by simp [hf]⟩, ?_⟩
    simp [hspan, Span.contains]

/-- A part as a whole. -/
theorem whole_yields {form : Site.Form} {context : Option Text} (hl : n.node.Laid source)
    (hk : n.node.kind.isExpression = true ∨ n.node.kind.isSimple = true)
    (hform : ∀ q, form ≠ .literal q) :
    YieldsAt rules source n (whole rules source form context n) := by
  have hbounds := hl.fit.bounds hk
  have hwrite (phrase : Text) : form.write phrase = phrase := by
    cases form with
    | literal q => exact absurd rfl (hform q)
    | expression => rfl
    | statement => rfl
  unfold whole
  split
  · next h =>
    obtain ⟨lit, hlit, ht⟩ := List.any_eq_true.1 h
    obtain ⟨hlit, -⟩ := List.mem_filter.1 hlit
    refine ⟨by simp [find], List.pairwise_singleton _ _, ?_, ?_, ?_, fun lit hlit _ _ => ?_⟩
    · simp only [List.mem_singleton, forall_eq, find, hwrite, Entry.new]
      exact ⟨hbounds.1, Text.stands_slice hbounds.2.1 hbounds.2.2 hl.fit.le⟩
    · simp only [List.mem_singleton, forall_eq, find]
      exact ⟨lit, hlit, ht, Span.contains_iff.2 (hl.contains hlit)⟩
    · simp only [List.mem_singleton, forall_eq, find]
      exact fun q hq => absurd hq (hform q)
    · simp only [List.mem_singleton, exists_eq_left, find]
      exact Span.contains_iff.2 (hl.contains hlit)
  · next h =>
    refine yields_nil fun lit hlit ht => absurd ?_ h
    exact List.any_eq_true.2 ⟨lit, List.mem_filter.2 ⟨hlit, isString_of_isText ht⟩, ht⟩

/-- A part without literals has no finds. -/
theorem yields_of_not_hasString (h : n.node.hasString = false) : YieldsAt rules source n [] := by
  refine yields_nil fun lit hlit ht _ => ?_
  rw [Node.hasString_iff.2 ⟨lit, hlit, isString_of_isText ht⟩] at h
  cases h

theorem locate_cons (kind : Node.Kind) (span : Span) (children : List Node)
    (above : List (Node × Nat)) :
    Node.locate above ⟨kind, span, children⟩ =
      ⟨⟨kind, span, children⟩, above⟩ ::
        Node.locateAll ⟨kind, span, children⟩ above 0 children := by
  rw [Node.locate]

/-- A string by itself. -/
theorem literal_yields (hl : n.node.Laid source) (hs : n.node.kind.isString = true)
    (context : Text) : YieldsAt rules source n (literal rules source context n) := by
  have hone : literals rules source context n = literal rules source context n := by
    simp [literals, stringsOf, hl.locate_string hs, hs]
  rw [← hone]
  exact literals_yields hl context

section Calls

variable {call_ : Node} {above : List (Node × Nat)}

/-- What lies in a skipped argument is no text. -/
theorem not_isText_of_skips {i : Nat} {arg : Node} {lit : Node.Located}
    (hk : call_.kind = .call)
    (hs : rules.skips (calleeOf source call_) i call_.arguments.length = true)
    (hlit : lit ∈ arg.locate ((call_, i + 1) :: above)) : isText rules source lit = false := by
  have hmem : (call_, i + 1) ∈ lit.above :=
    (Node.suffix_of_mem_locate hlit).subset List.mem_cons_self
  have hskipped : isSkipped rules source lit = true :=
    List.any_eq_true.2 ⟨_, hmem, by simp [hk, hs]⟩
  unfold isText
  split
  · simp [hskipped]
  · rfl

/-- The arguments of a call; those that are calls themselves are given. -/
theorem arguments_yields {args : List Node} {i : Nat} (hk : call_.kind = .call)
    (hrow : Node.Row source lo hi args) (hexpr : ∀ arg ∈ args, arg.kind.isExpression = true)
    (hcalls : ∀ arg ∈ args, arg.kind = .call → ∀ above,
      YieldsAt rules source ⟨arg, above⟩ (call rules source context above arg)) :
    Yields rules source lo hi (Node.locateAll call_ above (i + 1) args)
      (arguments rules source context call_ above i args) := by
  induction args generalizing lo i with
  | nil => exact yields_nil (by simp [Node.locateAll])
  | cons arg args ih =>
    obtain ⟨hlo, hlaid, hrest⟩ := Node.row_cons.1 hrow
    rw [Node.locateAll, arguments]
    have hmore := ih (i := i + 1) hrest (fun a ha => hexpr a (List.mem_cons_of_mem _ ha))
      (fun a ha => hcalls a (List.mem_cons_of_mem _ ha))
    refine Yields.append (Yields.mono ?_ hlo (Nat.le_refl _)) hmore
      (Nat.le_trans hlo hlaid.fit.le) hrest.le
    have hhere : (⟨arg, (call_, i + 1) :: above⟩ : Node.Located).node.Laid source := hlaid
    split
    · next hno =>
      rcases Bool.or_eq_true_iff.1 hno with hskip | hno
      · refine yields_nil fun lit hlit ht => ?_
        rw [not_isText_of_skips hk hskip hlit] at ht
        cases ht
      · exact yields_of_not_hasString (n := ⟨arg, (call_, i + 1) :: above⟩) (by simpa using hno)
    · split
      · next q hq =>
        exact literal_yields hhere (by simp [hq, Node.Kind.isString]) context
      · next op hop =>
        exact whole_yields hhere (.inl (hexpr arg List.mem_cons_self)) (by simp)
      · next hcall => exact hcalls arg List.mem_cons_self hcall _
      · exact literals_yields hhere context

/-- The texts of a call, by induction on the calls in its arguments. -/
theorem call_yields (hl : call_.Laid source) (hk : call_.kind = .call) (context : Text)
    (above : List (Node × Nat)) :
    YieldsAt rules source ⟨call_, above⟩ (call rules source context above call_) := by
  induction call_ using Node.childrenFirst generalizing above with
  | h n ih =>
    obtain ⟨kind, span, children⟩ := n
    have hexpr := hl.fit.expressions (.inl (by rw [hk]; rfl))
    simp only at hk
    subst hk
    cases children with
    | nil =>
      rw [YieldsAt, locate_cons, call]
      exact Yields.cons (yields_nil (by simp [Node.locateAll])) rfl
    | cons callee args =>
      rw [YieldsAt, locate_cons, call]
      refine Yields.cons ?_ rfl
      split
      · next hdenied =>
        refine yields_nil fun lit hlit _ ha => ?_
        obtain ⟨i, c, -, hlit⟩ := Node.mem_locateAll.1 hlit
        have hmem := (Node.suffix_of_mem_locate hlit).subset List.mem_cons_self
        rw [ha _ hmem rfl] at hdenied
        cases hdenied
      · obtain ⟨hlo, hcallee, hargs⟩ := Node.row_cons.1 hl.row
        rw [Node.locateAll]
        have hfirst : (⟨callee, (⟨.call, span, callee :: args⟩, 0) :: above⟩ :
            Node.Located).node.Laid source := hcallee
        refine Yields.append ((literals_yields hfirst context).mono hlo (Nat.le_refl _)) ?_
          (Nat.le_trans hlo hcallee.fit.le) hargs.le
        refine arguments_yields rfl hargs (fun arg ha => hexpr arg (List.mem_cons_of_mem _ ha)) ?_
        intro arg ha hcall above
        have hmem := List.mem_cons_of_mem callee ha
        exact ih arg hmem (hl.of_mem_children hmem) hcall above

end Calls

end Finds

end Phrasebook
