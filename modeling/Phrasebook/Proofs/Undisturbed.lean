import Phrasebook.Proofs.Tracking
import Phrasebook.Proofs.Wrapping

/-!
What writing leaves as it is.

Where every edit of a call writes one literal in place of another, between the same quotes, the tree
stays: each node is found again, and a statement or an expression that no edit is in has its text
(`Script.undisturbed_of_parse`). What is checked of a rendition does not ensure this: one that closes
its literal and opens a comment takes the statements behind it along (`Script.translate_swallows`).
-/
namespace Phrasebook

open Text (Stands)

namespace Node

variable {f : Nat → Nat} {source : Text} {root n m : Node}

theorem preorderAll_map_of {ns : List Node}
    (h : ∀ c ∈ ns, (c.moved f).preorder = c.preorder.map (moved f)) :
    preorderAll (ns.map (moved f)) = (preorderAll ns).map (moved f) := by
  induction ns with
  | nil => rfl
  | cons c ns ih =>
    rw [List.map_cons, preorderAll, preorderAll, List.map_append, h c List.mem_cons_self,
      ih fun d hd => h d (List.mem_cons_of_mem _ hd)]

/-- The nodes of a tree that is carried over are those of the tree, carried over. -/
theorem preorder_moved (n : Node) : (n.moved f).preorder = n.preorder.map (moved f) := by
  induction n using childrenFirst with
  | h n ih =>
    obtain ⟨kind, span, children⟩ := n
    rw [moved_mk, preorder, preorder, List.map_cons, moved_mk, preorderAll_map_of ih]

/-- A node that does not hold a literal of the tree is apart from it. -/
theorem Laid.apart_of_string (h : root.Laid source) (hn : n ∈ root.preorder)
    (hm : m ∈ root.preorder) (hs : m.kind.isString = true)
    (hout : n.span.contains m.span = false) : n.span.Apart m.span := by
  rw [← map_node_locate root []] at hn hm
  obtain ⟨a, ha, rfl⟩ := List.mem_map.1 hn
  obtain ⟨b, hb, rfl⟩ := List.mem_map.1 hm
  have hheld (hin : b ∈ a.node.locate a.above) : a.node.span.contains b.node.span = true :=
    Span.contains_iff.2 ((h.of_mem_locate ha).contains hin)
  rcases h.apart_or ha hb with hapart | hbelow | hbelow
  · exact hapart
  · rw [(h.of_mem_locate hb).locate_string hs, List.mem_singleton] at hbelow
    rw [hbelow] at hheld
    exact absurd (hheld (self_mem_locate _ _)) (by simp [hbelow ▸ hout])
  · exact absurd (hheld hbelow) (by simp [hout])

end Node

namespace Edit

variable {es : List Edit} {source x m : Text} {span : Span}

/-- No edit is at a span that is apart from all of them. -/
theorem find?_eq_none_of_apart (hlt : span.start < span.stop) (hout : ∀ e ∈ es, span.Apart e.span) :
    es.find? (·.span == span) = none := by
  refine List.find?_eq_none.2 fun e he => ?_
  simpa using ((hout e he).ne hlt).symm

/-- What is apart from all edits stands there afterwards. -/
theorem stands_of_apart (hapart : (es.map (·.span)).Pairwise Span.Apart)
    (hstands : ∀ a ∈ es.map (·.span), a.start < a.stop ∧ ∃ m, Stands source a m)
    (hx : applyAll source es = .ok x) (hlt : span.start < span.stop)
    (hout : ∀ e ∈ es, span.Apart e.span) (hm : Stands source span m) :
    Stands x (Script.remap es span) m := by
  have hne : es.Pairwise fun a b => a.span ≠ b.span :=
    pairwise_span_ne hapart fun e he => (hstands e.span (List.mem_map_of_mem he)).1
  have hrow : (span :: es.map (·.span)).Pairwise Span.Apart :=
    List.pairwise_cons.2 ⟨List.forall_mem_map.2 hout, hapart⟩
  obtain ⟨y, hy, -, hafter, -⟩ := exists_applyAll hrow
    (List.forall_mem_cons.2 ⟨⟨hlt, m, hm⟩, hstands⟩)
    (fun e he => List.mem_cons_of_mem _ (List.mem_map_of_mem he)) hne
  cases hx.symm.trans hy
  have hthere := hafter span List.mem_cons_self m hm
  rwa [textAfter, find?_eq_none_of_apart hlt hout] at hthere

end Edit

/-- What edits leave of a tree: every node, at the place to which it is shifted, and the texts of the
expressions and simple statements that no edit is in. -/
structure Tree.Undisturbed (t t' : Tree) (es : List Edit) : Prop where
  nodes : t'.root = t.root.moved (Script.shifted es)
  texts : ∀ n ∈ t.root.preorder, n.kind.isExpression = true ∨ n.kind.isSimple = true →
    (∀ e ∈ es, n.span.contains e.span = false) →
      ∃ n' ∈ t'.root.preorder, n'.kind = n.kind ∧ n'.span = Script.remap es n.span ∧
        n'.text t'.source = n.text t.source

/-- A simple statement that no edit is in has this text, which no node has afterwards. -/
def Tree.Loses (t t' : Tree) (es : List Edit) (text : Text) : Prop :=
  ∃ n ∈ t.root.preorder, n.kind.isSimple = true ∧ n.text t.source = text ∧
    (∀ e ∈ es, n.span.contains e.span = false) ∧ ∀ n' ∈ t'.root.preorder, n'.text t'.source ≠ text

instance (t t' : Tree) (es : List Edit) (text : Text) : Decidable (t.Loses t' es text) :=
  inferInstanceAs (Decidable (∃ n ∈ t.root.preorder, n.kind.isSimple = true ∧
    n.text t.source = text ∧ (∀ e ∈ es, n.span.contains e.span = false) ∧
    ∀ n' ∈ t'.root.preorder, n'.text t'.source ≠ text))

namespace Tree

variable {t t' : Tree} {es : List Edit} {s : Scanner}

/-- Literals that are edited between their quotes leave everything else as it is. -/
theorem undisturbed_of_requotes (h : ofScript t.source = .ok t)
    (hs : (Scanner.fresh t.source 0).run none = .ok s)
    (hes : ∀ e ∈ es, Requotes t.source s.out e)
    (hlit : ∀ e ∈ es, ∃ m ∈ t.root.preorder, m.kind.isString = true ∧ e.span = m.span)
    (hapart : (es.map (·.span)).Pairwise Span.Apart) :
    ∃ t', Edit.applyAll t.source es = .ok t'.source ∧ ofScript t'.source = .ok t' ∧
      t.Undisturbed t' es := by
  obtain ⟨x, hx, hrecast, -⟩ := exists_recast hes h hapart
  obtain ⟨t', ht', rfl, hroot⟩ := exists_moved_of_recast h hs hrecast
  refine ⟨t', hx, ht', hroot, fun n hn hk hout => ?_⟩
  obtain ⟨-, -, -, hlaid⟩ := laid_of_ofScript h
  obtain ⟨hlt, hstart, hstop⟩ := (hlaid.of_mem_preorder hn).fit.bounds hk
  have hapart' : ∀ e ∈ es, n.span.Apart e.span := by
    intro e he
    obtain ⟨m, hm, hstring, hspan⟩ := hlit e he
    rw [hspan]
    exact hlaid.apart_of_string hn hm hstring (hspan ▸ hout e he)
  have hthere := Edit.stands_of_apart hapart (stands_of_requotes hes) hx hlt hapart'
    (Text.stands_slice hstart hstop (Nat.le_of_lt hlt))
  have hremap : Script.remap es n.span = n.span.moved (Script.shifted es) := by
    rw [Script.remap, Edit.find?_eq_none_of_apart hlt hapart']
    rfl
  refine ⟨n.moved (Script.shifted es), ?_, Node.moved_kind n, ?_, ?_⟩
  · rw [hroot, Node.preorder_moved]
    exact List.mem_map_of_mem hn
  · rw [Node.moved_span, hremap]
  · rw [Node.text, Node.moved_span, ← hremap]
    exact hthere.slice_eq

end Tree

/-- A site of a literal is a literal of the tree. -/
theorem Tree.node_of_site {source : Text} {t : Tree} {rules : CallRules} {site : Site}
    {q : Quoting} (h : ofScript source = .ok t) (hsite : site ∈ t.sites rules)
    (hform : site.form = .literal q) :
    ∃ n ∈ t.root.preorder, n.kind = .string q ∧ site.span = n.span := by
  obtain ⟨f, hf, rfl⟩ := mem_sites.1 hsite
  obtain ⟨lit, hin, -, hkind, hat⟩ := finds_quoted h hf hform
  refine ⟨lit.node, ?_, hkind, hat⟩
  rw [← Node.map_node_locate t.root []]
  exact List.mem_map_of_mem hin

namespace Script

variable {s : Script} {rules : CallRules} {stem content : Text} {index index' : Index}
  {renditions : List Entry} {e : Edit} {r : Text}

/-- Each edit writes one literal at the site of another, between the same quotes. -/
def WritesLiterals (s : Script) (es : List Edit) : Prop :=
  ∀ e ∈ es, ∃ site ∈ Item.sitesOf s.items, ∃ q content, e.span = site.span ∧
    site.form = .literal q ∧ e.text = q.wrap content ∧ ∀ more, q.Encloses content more

/-- A call that writes literals only leaves everything else in the script as it is. -/
theorem undisturbed_of_parse (h : parse rules stem content index = .ok (s, index'))
    (renditions : List Entry) (hwrites : s.WritesLiterals (s.edits renditions)) :
    ∃ t t', s.body = .tree t ∧ (s.translate renditions).1.body = .tree t' ∧
      t.Undisturbed t' (s.edits renditions) := by
  obtain ⟨t, hb, htree, hsites⟩ := sitesOf_of_parse h
  obtain ⟨t₀, hb₀, htracks⟩ := tracked_of_parse h
  cases hb.symm.trans hb₀
  have hspec := applyPlanned_spec htracks (usable renditions)
  obtain ⟨hmem, hone⟩ := htracks.fit_of_accepts hspec
  have hedits : s.edits renditions = (made t s.items (usable renditions)).2.1.map (·.edit) := by
    simp only [edits, hb]
  obtain ⟨sc, hsc, hnodes⟩ := Tree.literals_of_ofScript htree
  -- Each edit is at a literal of the tree, with another content between its quotes.
  have hlit : ∀ e ∈ s.edits renditions, Tree.Requotes t.source sc.out e ∧
      ∃ m ∈ t.root.preorder, m.kind.isString = true ∧ e.span = m.span := by
    intro e he
    obtain ⟨site, hsite, q, new, hspan, hform, htext, hencloses⟩ := hwrites e he
    obtain ⟨m, hm, hkind, hat⟩ := Tree.node_of_site htree (hsites ▸ hsite) hform
    obtain ⟨old, hliteral⟩ := hnodes m hm q hkind
    exact ⟨⟨q, old, new, hspan.trans hat ▸ hliteral, htext, hencloses⟩, m, hm, by rw [hkind]; rfl,
      hspan.trans hat⟩
  have hapart : ((s.edits renditions).map (·.span)).Pairwise Span.Apart :=
    Edit.pairwise_apart htracks.apart_spans (hedits ▸ hmem) (hedits ▸ hone)
  obtain ⟨t', hmade, hwhole, hkept⟩ := Tree.undisturbed_of_requotes htree hsc
    (fun e he => (hlit e he).1) (fun e he => (hlit e he).2) hapart
  have hnext : (made t s.items (usable renditions)).1 = t' := by
    have hsource := Except.ok.inj ((hedits ▸ hspec.made).symm.trans hmade)
    exact Except.ok.inj (hspec.whole.symm.trans (hsource ▸ hwhole))
  refine ⟨t, t', hb, ?_, hkept⟩
  rw [(translate_eq hb htracks renditions).1, ← hnext]

/-- What an edit of a call writes is one of the renditions, in the form of its site. -/
theorem exists_plan_of_mem_edits {t : Tree} (hb : s.body = .tree t) (ht : Tracks t s.items)
    (he : e ∈ s.edits renditions) :
    ∃ site ∈ Item.sitesOf s.items, ∃ phrase, ∃ entry ∈ renditions, entry.rendition ≠ [] ∧
      planEdit t site phrase entry.rendition = .ok (some e) := by
  simp only [edits, hb] at he
  obtain ⟨p, hp, rfl⟩ := List.mem_map.1 he
  obtain ⟨τ, hτ, hplan, -⟩ :=
    mem_plannedEdits ((applyPlanned_spec ht (usable renditions)).sublist.subset hp)
  obtain ⟨-, -, -, -, hget⟩ := mem_tasks hτ
  obtain ⟨entry, hentry, -, hsame⟩ := exists_entry_of_usable hget
  exact ⟨τ.site, (sites_tasks_sublist _ 0 s.items).subset (List.mem_map_of_mem hτ),
    τ.item.entry.phrase, entry, hentry, hsame ▸ ne_nil_of_usable hget, hsame ▸ hplan⟩

/-- Renditions without a number sign, and without two quotes in front, are written as literals
wherever they are written at the sites of literals. -/
theorem writesLiterals_of_plain (h : parse rules stem content index = .ok (s, index'))
    (hforms : ∀ e ∈ s.edits renditions, ∀ site ∈ Item.sitesOf s.items, e.span = site.span →
      ∃ q, site.form = .literal q)
    (hplain : ∀ entry ∈ renditions, '#' ∉ entry.rendition ∧
      ∀ d, Lexeme.isQuote d = true → ¬ [d, d] <+: entry.rendition) :
    s.WritesLiterals (s.edits renditions) := by
  intro e he
  obtain ⟨t, hb, htree, hsites⟩ := sitesOf_of_parse h
  obtain ⟨t₀, hb₀, htracks⟩ := tracked_of_parse h
  cases hb.symm.trans hb₀
  obtain ⟨site, hsite, phrase, entry, hentry, hne, hplan⟩ :=
    exists_plan_of_mem_edits hb htracks he
  obtain ⟨hedit, -⟩ := planEdit_eq_some hplan
  obtain ⟨q, hform⟩ := hforms e he site hsite (congrArg Edit.span hedit)
  obtain ⟨sc, -, hnodes⟩ := Tree.literals_of_ofScript htree
  obtain ⟨n, hn, hkind, -⟩ := Tree.node_of_site htree (hsites ▸ hsite) hform
  obtain ⟨old, hliteral⟩ := hnodes n hn q hkind
  have hproper := hliteral.proper
  obtain ⟨hcomment, hopen⟩ := hplain entry hentry
  have hencloses := (reading_of_planLiteral hproper (planLiteral_of_planEdit hform hplan)).encloses
    hproper hcomment fun d hd => hopen d (hproper.isQuote_of_mem (by simp [hd]))
  refine ⟨site, hsite, q, entry.rendition, congrArg Edit.span hedit, hform, ?_,
    hencloses.of_ne_nil hproper hne⟩
  rw [congrArg Edit.text hedit, hform, Site.Form.write]

/-- The statement behind one that is written stays. -/
theorem undisturbed_of_parse_neighbour :
    let entry := { Entry.new (Text.of "Hi") (some (Text.of "var x = \"Hi\"")) with
      rendition := Text.of "Hello; you" }
    ∃ s index' t t', parse .builtin [] (Text.of "var x = \"Hi\"; var y = \"Bye\"\n") .empty =
        .ok (s, index') ∧ s.body = .tree t ∧ (s.translate [entry]).1.body = .tree t' ∧
      t.Undisturbed t' (s.edits [entry]) ∧
      t'.source = Text.of "var x = \"Hello; you\"; var y = \"Bye\"\n" := by
  intro entry
  obtain ⟨s, index', h, hfacts⟩ := @exists_parse_of .builtin []
    (Text.of "var x = \"Hi\"; var y = \"Bye\"\n") .empty
    (fun s => decide ((∀ site ∈ Item.sitesOf s.items, site.form = .literal ⟨[], ['"']⟩) ∧
      (s.translate [entry]).1.render = Text.of "var x = \"Hello; you\"; var y = \"Bye\"\n"))
    (by decide +kernel)
  obtain ⟨hforms, hrender⟩ := of_decide_eq_true hfacts
  have hwrites : s.WritesLiterals (s.edits [entry]) := by
    refine writesLiterals_of_plain h (fun _ _ site hsite _ => ⟨_, hforms site hsite⟩) ?_
    simp only [List.mem_singleton, forall_eq]
    refine ⟨by decide, fun d hd hopen => ?_⟩
    obtain ⟨rest, hrest⟩ := hopen
    cases (List.cons.inj hrest).1
    cases hd
  obtain ⟨t, t', hb, hb', hkept⟩ := undisturbed_of_parse h [entry] hwrites
  refine ⟨s, index', t, t', h, hb, hb', hkept, ?_⟩
  rwa [render, hb'] at hrender

/-- A rendition that closes its literal and opens a comment takes the statement behind it along. -/
theorem translate_swallows :
    let entry := { Entry.new (Text.of "Hi") (some (Text.of "var x = \"Hi\"")) with
      rendition := Text.of "a\" #" }
    ∃ s index' t t', parse .builtin [] (Text.of "var x = \"Hi\"; var y = \"Bye\"\n") .empty =
        .ok (s, index') ∧ s.body = .tree t ∧ (s.translate [entry]).1.body = .tree t' ∧
      t'.source = Text.of "var x = \"a\" #\"; var y = \"Bye\"\n" ∧
      t.Loses t' (s.edits [entry]) (Text.of "var y = \"Bye\"") := by
  intro entry
  obtain ⟨s, index', h, hfacts⟩ := @exists_parse_of .builtin []
    (Text.of "var x = \"Hi\"; var y = \"Bye\"\n") .empty
    (fun s => match s.body, (s.translate [entry]).1.body with
      | .tree t, .tree t' => decide
          (t'.source = Text.of "var x = \"a\" #\"; var y = \"Bye\"\n" ∧
            t.Loses t' (s.edits [entry]) (Text.of "var y = \"Bye\""))
      | _, _ => false)
    (by decide +kernel)
  cases hb : s.body with
  | raw text => simp [hb] at hfacts
  | tree t =>
    cases hb' : (s.translate [entry]).1.body with
    | raw text => simp [hb, hb'] at hfacts
    | tree t' =>
      rw [hb, hb'] at hfacts
      exact ⟨s, index', t, t', h, hb, hb', of_decide_eq_true hfacts⟩

end Script

end Phrasebook
