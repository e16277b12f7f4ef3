import Phrasebook.Proofs.Chunks
import Phrasebook.Proofs.Grafts
import Phrasebook.Proofs.Seams

/-!
A script parsed as a whole and function by function.

A `Seam` is a place where a script can be cut: both parts are then scripts, whose statements are
together those of the whole (`Chunk.cut_at`). If a script is cut at seams only, its chunks are read
as its statements (`Chunk.reads_chunks`), so by `Script.parseChunks_of_regular` the same texts are
found with the same keys.
-/
namespace Phrasebook

open Text (size Stands)

namespace Text

variable {a b c d source before part after m line : Text} {span : Span}

/-- Of two beginnings of a text the longer one goes on where the shorter one ends. -/
theorem exists_append_of_size_le (h : a ++ b = c ++ d) (hs : size a ≤ size c) :
    ∃ x, c = a ++ x ∧ b = x ++ d := by
  rcases List.append_eq_append_iff.1 h with ⟨x, hc, hb⟩ | ⟨x, ha, hd⟩
  · exact ⟨x, hc, hb⟩
  · have hx : x = [] := by
      by_contra hne
      have := size_pos hne
      rw [ha, size_append] at hs
      omega
    subst hx
    exact ⟨[], by simpa using ha.symm, by simpa using hd.symm⟩

/-- What stands inside a part of a text is of the characters of the part. -/
theorem Stands.subset (h : Stands (before ++ part ++ after) span m)
    (hstart : size before ≤ span.start) (hstop : span.stop ≤ size before + size part) :
    m ⊆ part := by
  obtain ⟨x, y, hsource, rfl⟩ := h
  simp only [List.append_assoc] at hsource
  obtain ⟨u, rfl, hrest⟩ := exists_append_of_size_le hsource hstart
  rw [← List.append_assoc] at hrest
  obtain ⟨v, hv, -⟩ := exists_append_of_size_le hrest.symm (by
    simp only [size_append] at hstop ⊢
    omega)
  rw [hv]
  simp

theorem declares_of_functionName? {f : Text} (h : line.functionName? = some f)
    (hflush : line.head?.any isBlankChar = false) :
    ∃ w r, (w = of "func" ∨ w = of "static") ∧ line = w ++ ' ' :: r := by
  have htrim : line.trimStart = line := by
    cases line with
    | nil => rfl
    | cons c r =>
      have hc : isBlankChar c = false := hflush
      simp [trimStart, hc]
  simp only [functionName?, htrim, Option.map_eq_some_iff, Option.or_eq_some_iff] at h
  obtain ⟨rest, hrest | ⟨-, hrest⟩, -⟩ := h
  · exact ⟨of "static", of "func " ++ rest, .inr rfl, by rw [eq_append_of_afterLeading? hrest]; rfl⟩
  · exact ⟨of "func", rest, .inl rfl, by rw [eq_append_of_afterLeading? hrest]; rfl⟩

end Text

namespace Chunk

variable {name : Option Text} {start pos : Nat}

/-- A chunk that is open is closed at some time. -/
theorem exists_mem_ofLines (name : Option Text) (h : start < pos) (lines : List Text) :
    ∃ c ∈ ofLines name start pos lines, c.name = name ∧ c.range.start = start := by
  have hclosed {pos : Nat} (h : start < pos) : ⟨name, ⟨start, pos⟩⟩ ∈ close name start pos := by
    rw [close, if_pos h]
    exact List.mem_singleton_self _
  induction lines generalizing pos with
  | nil => exact ⟨_, hclosed h, rfl, rfl⟩
  | cons line lines ih =>
    rw [ofLines]
    split
    · exact ih (Nat.lt_add_right _ h)
    · exact ⟨_, List.mem_append_left _ (hclosed h), rfl, rfl⟩

end Chunk

/-- A place where a script may be cut: the line that begins there is not indented, lies outside of
strings and brackets, and a statement of the script begins with it. -/
structure Seam (source : Text) (ls : List Lexeme) (items : List Node) (p : Nat) : Prop where
  flush : (source.dropBytes p).head?.any Text.isBlankChar = false
  outside : ∀ l ∈ ls, (∃ q, l.kind = .str q) → ¬ (l.span.start < p ∧ p < l.span.stop)
  depth : Lexeme.depth (Lexeme.upTo p ls) = 0
  child : ∃ n ∈ items, n.span.start = p

/-- Whether a lexeme is a string can be decided. -/
instance Lexeme.decidableString : (k : Lexeme.Kind) → Decidable (∃ q, k = .str q)
  | .str q => .isTrue ⟨q, rfl⟩
  | .word | .number | .op | .newline | .indent | .dedent | .eof => .isFalse nofun

namespace Seam

instance (source : Text) (ls : List Lexeme) (items : List Node) (p : Nat) :
    Decidable (Seam source ls items p) :=
  decidable_of_iff
    ((source.dropBytes p).head?.any Text.isBlankChar = false ∧
      (∀ l ∈ ls, (∃ q, l.kind = .str q) → ¬ (l.span.start < p ∧ p < l.span.stop)) ∧
      Lexeme.depth (Lexeme.upTo p ls) = 0 ∧ ∃ n ∈ items, n.span.start = p)
    ⟨fun h => ⟨h.1, h.2.1, h.2.2.1, h.2.2.2⟩, fun h => ⟨h.flush, h.outside, h.depth, h.child⟩⟩

open Lexeme

variable {source : Text} {old new : List Lexeme} {ns ms : List Node} {p q : Nat}

/-- A seam of a script is one of what is left after an earlier seam. -/
theorem drop (h : Seam source (old ++ new) (ns ++ ms) q) (hpq : p ≤ q) (hdepth : Lexeme.depth old = 0)
    (hold : ∀ x ∈ old, x.kind.isSolid = true → x.span.start < p)
    (hns : ∀ n ∈ ns, n.span.start < p) : Seam source new ms q where
  flush := h.flush
  outside := fun l hl => h.outside l (List.mem_append_right _ hl)
  depth := by
    have hdepth' := h.depth
    rwa [upTo_append fun x hx hsolid => Nat.lt_of_lt_of_le (hold x hx hsolid) hpq,
      depth_append hdepth] at hdepth'
  child := by
    obtain ⟨n, hn, hstart⟩ := h.child
    rcases List.mem_append.1 hn with hn | hn
    · have := hns n hn
      omega
    · exact ⟨n, hn, hstart⟩

theorem outdented_drop (h : Outdented (upTo q (old ++ new))) (hpq : p ≤ q) (hbal : Outdented old)
    (hold : ∀ x ∈ old, x.kind.isSolid = true → x.span.start < p) : Outdented (upTo q new) := by
  rw [upTo_append fun x hx hsolid => Nat.lt_of_lt_of_le (hold x hx hsolid) hpq] at h
  unfold Outdented at h hbal ⊢
  simp only [List.countP_append] at h
  omega

end Seam

/-- What a range of a text is read as. -/
def Reads (source : Text) (range : Span) (items : List Node) : Prop :=
  ∃ ls c, source.lexemes range = .ok ls ∧ Cursor.statements ⟨ls, 0⟩ = .ok (items, c)

namespace Reads

variable {source : Text} {range : Span} {items : List Node}

theorem ofRange (h : Reads source range items) :
    Tree.ofRange source range = .ok ⟨source, range, ⟨.script, range, items⟩⟩ := by
  obtain ⟨ls, c, hls, hitems⟩ := h
  simp only [Tree.ofRange, hls, hitems, bind, Except.bind]
  rfl

end Reads

namespace Chunk

variable {source before part rest : Text} {name : Option Text} {ls : List Lexeme}
  {items : List Node} {c : Cursor}

theorem start_lt_of_closing {old stop : List Lexeme} {p : Nat} (hstop : Lexeme.Closing stop)
    (hready : Cursor.Ready source ⟨old ++ stop, 0⟩)
    (hold : ∀ x ∈ old, x.kind.isSolid = true → x.span.start < p)
    (hitems : Cursor.statements ⟨old ++ stop, 0⟩ = .ok (items, c)) :
    ∀ n ∈ items, n.span.start < p := by
  intro n hn
  obtain ⟨x, hx, hsolid, hstart⟩ := (Cursor.run_of_blockIn hitems).1.starts hready hn
  rcases List.mem_append.1 hx with hx | hx
  · rw [hstart]
    exact hold x hx hsolid
  · cases hstop with
    | eof he =>
      rw [List.mem_singleton.1 hx, he] at hsolid
      cases hsolid
    | newline hn he =>
      rcases List.mem_cons.1 hx with rfl | hx
      · rw [hn] at hsolid
        cases hsolid
      · rw [List.mem_singleton.1 hx, he] at hsolid
        cases hsolid

/-- An empty range is read as nothing. -/
theorem eq_nil_of_empty (hsource : source = before)
    (hls : source.lexemes ⟨size before, size source⟩ = .ok ls)
    (hitems : Cursor.statements ⟨ls, 0⟩ = .ok (items, c)) : items = [] := by
  subst hsource
  obtain ⟨s, hs, -, rfl⟩ := (Text.lexemes_eq_ok_iff source [] []).1 (by simpa [size] using hls)
  have hnil : (Scanner.fresh [] (size source)).rest = [] := rfl
  rw [Scanner.run, dif_pos hnil] at hs
  cases hs
  have hend : (⟨Scanner.finish (size source) (.fresh [] (size source)), 0⟩ : Cursor).kind = .eof := rfl
  exact (Cursor.run_of_blockIn hitems).1.eq_nil hend

/-- Cutting at a seam: what comes before it is read as the chunk that ends there. -/
theorem cut_at {w r tail : Text} (name : Option Text) (hsource : source = before ++ (part ++ tail))
    (hpart : part = [] ∨ part.EndsLine) (hw : w = Text.of "func" ∨ w = Text.of "static")
    (htail : tail = w ++ ' ' :: r) (hlead : Text.lead (part ++ tail) = 0)
    (hls : source.lexemes ⟨size before, size source⟩ = .ok ls)
    (hitems : Cursor.statements ⟨ls, 0⟩ = .ok (items, c))
    (hseam : Seam source ls items (size before + size part))
    (hbal : Lexeme.Outdented (Lexeme.upTo (size before + size part) ls)) :
    ∃ parts ls' items' c', items = parts.flatten ++ items' ∧
      List.Forall₂ (fun d ns => Reads source d.range ns)
        (close name (size before) (size before + size part)) parts ∧
      source.lexemes ⟨size before + size part, size source⟩ = .ok ls' ∧
      Cursor.statements ⟨ls', 0⟩ = .ok (items', c') ∧
      ∀ q, size before + size part ≤ q → Seam source ls items q →
        Lexeme.Outdented (Lexeme.upTo q ls) →
          Seam source ls' items' q ∧ Lexeme.Outdented (Lexeme.upTo q ls') := by
  by_cases hempty : part = []
  · subst hempty
    refine ⟨[], ls, items, c, rfl, ?_, hls, hitems, fun q _ h hb => ⟨h, hb⟩⟩
    simp [close, size]
  · have hlt : size before < size before + size part := by
      have := Text.size_pos hempty
      omega
    have hend : size source = size before + size (part ++ tail) := by
      rw [hsource, Text.size_append]
    have hsource' : source = before ++ (part ++ tail) ++ [] := by rw [hsource, List.append_nil]
    have hwhole : (before ++ (part ++ tail) ++ []).lexemes
        ⟨size before, size before + size (part ++ tail)⟩ = .ok ls := by
      rw [← hsource', ← hend]
      exact hls
    obtain ⟨old, l, more, stop, rfl, hl, hstart, hold, hstop, hfirst, hsecond⟩ :=
      Text.lexemes_split hpart hw htail hlead rfl hwhole hseam.outside hseam.depth hbal
    have hready := (Text.stream_of_lexemes before (part ++ tail) [] hwhole).ready
    have hready₁ := (Text.stream_of_lexemes before part (tail ++ []) hfirst).ready
    have hsource₁ : before ++ part ++ (tail ++ []) = source := by rw [hsource]; simp
    have hsource₂ : before ++ part ++ tail ++ [] = source := by rw [hsource]; simp
    rw [← hsource'] at hready
    rw [hsource₁] at hready₁ hfirst
    rw [hsource₂] at hsecond
    obtain ⟨n, hn, hnstart⟩ := hseam.child
    obtain ⟨ns₁, ns₂, c₁, c₂, rfl, h₁, h₂⟩ :=
      Cursor.statements_split hready hitems hl ⟨n, hn, hnstart.trans hstart.symm⟩ hstop
    have hsolid : l.kind.isSolid = true := by
      rw [(Lexeme.beginsFunction_iff.1 hl).1]
      rfl
    have hupTo : Lexeme.upTo (size before + size part) (old ++ l :: more) = old := by
      rw [Lexeme.upTo_append hold, Lexeme.upTo_cons hsolid (Nat.le_of_eq hstart.symm),
        List.append_nil]
    have hdepth := hseam.depth
    rw [hupTo] at hdepth hbal
    have hns := start_lt_of_closing hstop hready₁ hold h₁
    refine ⟨[ns₁], l :: more, ns₂, c₂, by simp, ?_, ?_, h₂, fun q hq h hb => ?_⟩
    · rw [close, if_pos hlt]
      exact .cons ⟨_, _, hfirst, h₁⟩ .nil
    · rw [hend, Text.size_append, ← Nat.add_assoc]
      exact hsecond
    · exact ⟨h.drop hq hdepth hold hns, Seam.outdented_drop hb hq hbal hold⟩

theorem reads_chunks (name : Option Text) (hsource : source = before ++ (part ++ rest))
    (hpart : part = [] ∨ part.EndsLine ∨ rest = []) (hlead : Text.lead (part ++ rest) = 0)
    (hls : source.lexemes ⟨size before, size source⟩ = .ok ls)
    (hitems : Cursor.statements ⟨ls, 0⟩ = .ok (items, c))
    (hseams : ∀ d ∈ ofLines name (size before) (size before + size part) rest.linesWithBreaks,
      d.name ≠ none → size before + size part ≤ d.range.start →
        Seam source ls items d.range.start ∧ Lexeme.Outdented (Lexeme.upTo d.range.start ls)) :
    ∃ parts, List.Forall₂ (fun d ns => Reads source d.range ns)
      (ofLines name (size before) (size before + size part) rest.linesWithBreaks) parts ∧
      parts.flatten = items := by
  induction hlen : rest.length using Nat.strong_induction_on
    generalizing before part rest name ls items c with
  | _ n ih =>
    subst hlen
    by_cases hrest : rest = []
    · subst hrest
      have hstop : size source = size before + size part := by simp [hsource]
      rw [show Text.linesWithBreaks [] = [] from rfl, ofLines, close]
      split
      · exact ⟨[items], .cons ⟨ls, c, hstop ▸ hls, hitems⟩ .nil, by simp⟩
      · next hlt =>
        have hempty : part = [] := by
          by_contra hne
          have := Text.size_pos hne
          omega
        subst hempty
        exact ⟨[], .nil, (eq_nil_of_empty (by simpa using hsource) hls hitems).symm⟩
    · obtain ⟨line, r, rfl, hline, hlines, hends⟩ := Text.exists_line hrest
      have hlt : r.length < (line ++ r).length := by
        have := List.length_pos_iff.2 hline
        rw [List.length_append]
        omega
      rw [hlines, ofLines] at hseams ⊢
      cases hf : line.functionName? with
      | none =>
        simp only [hf] at hseams ⊢
        rw [Nat.add_assoc, ← Text.size_append] at hseams ⊢
        refine ih r.length hlt name (by rw [hsource, List.append_assoc]) ?_
          (by rwa [List.append_assoc]) hls hitems (fun d hd hname hstart => hseams d hd hname ?_) rfl
        · exact .inr (hends.imp_left fun hends => hends.append part)
        · rw [Text.size_append] at hstart
          omega
      | some f =>
        simp only [hf] at hseams ⊢
        have hlonger : size before + size part < size before + size part + size line := by
          have := Text.size_pos hline
          omega
        obtain ⟨d, hd, hname, hstart⟩ := exists_mem_ofLines (some f) hlonger r.linesWithBreaks
        obtain ⟨hseam, hbal⟩ := hseams d (List.mem_append_right _ hd) (by simp [hname])
          (Nat.le_of_eq hstart.symm)
        rw [hstart] at hseam hbal
        have hdrop : source.dropBytes (size before + size part) = line ++ r := by
          rw [hsource, ← List.append_assoc, ← Text.size_append, Text.dropBytes_size_append]
        have hflush := hseam.flush
        rw [hdrop, List.head?_append_of_ne_nil _ hline] at hflush
        obtain ⟨w, r', hw, hline'⟩ := Text.declares_of_functionName? hf hflush
        have htail : line ++ r = w ++ ' ' :: (r' ++ r) := by rw [hline']; simp
        obtain ⟨parts, ls', items', c', hitems_eq, hparts, hls', hitems', hlater⟩ :=
          cut_at name hsource (hpart.imp_right (·.resolve_right hrest)) hw htail hlead hls hitems
            hseam hbal
        rw [← Text.size_append] at hseams hparts hls' hlater ⊢
        have hsource' : source = before ++ part ++ (line ++ r) := by rw [hsource, List.append_assoc]
        obtain ⟨parts', hparts', hflat⟩ := ih r.length hlt (some f) hsource' (.inr hends)
          (by rw [htail, Text.lead_eq]; rcases hw with rfl | rfl <;> rfl) hls' hitems'
          (fun d hd hname hstart => by
            have hle : size (before ++ part) ≤ d.range.start := by omega
            obtain ⟨hseam, hbal⟩ := hseams d (List.mem_append_right _ hd) hname hle
            exact hlater d.range.start hle hseam hbal) rfl
        refine ⟨parts ++ parts', List.rel_append hparts hparts', ?_⟩
        rw [List.flatten_append, hflat, hitems_eq]

end Chunk

namespace Tree

/-- The lexemes that a tree is made of. -/
def lexemes (t : Tree) : List Lexeme := (t.source.lexemes t.range).toOption.getD []

/-- The first line with code is not indented, and the script is cut at seams only. -/
structure Regular (t : Tree) : Prop where
  lead : t.source.lead = 0
  seams : ∀ d ∈ Chunk.ofText t.source, d.name ≠ none →
    Seam t.source t.lexemes t.root.children d.range.start

/-- Where the script is cut no indentation is open. -/
def Settled (t : Tree) : Prop := ∀ d ∈ Chunk.ofText t.source, d.name ≠ none →
  Lexeme.Outdented (Lexeme.upTo d.range.start t.lexemes)

instance (t : Tree) : Decidable t.Regular :=
  decidable_of_iff (t.source.lead = 0 ∧ ∀ d ∈ Chunk.ofText t.source, d.name ≠ none →
      Seam t.source t.lexemes t.root.children d.range.start)
    ⟨fun h => ⟨h.1, h.2⟩, fun h => ⟨h.lead, h.seams⟩⟩

instance (t : Tree) : Decidable t.Settled :=
  inferInstanceAs (Decidable (∀ d ∈ Chunk.ofText t.source, d.name ≠ none →
    List.countP _ _ = List.countP _ _))

end Tree

namespace Script

variable {rules : CallRules} {source : Text} {d : Chunk} {ns : List Node}

theorem chunkFinds_of_reads (h : Reads source d.range ns) :
    chunkFinds rules source d = ns.flatMap (·.finds rules source) := by
  rw [chunkFinds, h.ofRange]
  exact Tree.finds_eq_flatMap rules rfl

/-- What is text is shown to people. -/
theorem content_of_isText {n : Node.Located} (hl : n.node.Laid source)
    (h : Finds.isText rules source n = true) : ∃ q, n.node.kind = .string q ∧ ∃ content,
      Stands source n.node.span (q.wrap content) ∧ content.isTranslatable = true := by
  unfold Finds.isText at h
  split at h
  · next q hq =>
    obtain ⟨-, content, hstands⟩ := hl.fit.quoted q hq
    simp only [Node.content?_eq hq hstands, Option.any_some, Bool.and_eq_true] at h
    exact ⟨q, hq, content, hstands, h.1.1.2⟩
  · cases h

/-- In a blank chunk nothing is found. -/
theorem chunkFinds_of_isBlank (hd : d ∈ Chunk.ofText source)
    (hblank : (source.slice d.range.start d.range.stop).isBlank = true) :
    chunkFinds rules source d = [] := by
  refine List.eq_nil_iff_forall_not_mem.2 fun f hf => ?_
  obtain ⟨t, hfinds, hrooted, hspan⟩ := exists_rooted hd hf
  rw [hfinds] at hf
  obtain ⟨n, hn, hf⟩ := hrooted.mem_finds.1 hf
  obtain ⟨lit, hlit, htext, -⟩ := (hrooted.candidate_yields rules hn).sound f hf
  have hlit := Node.locate_trans (List.mem_filter.1 hn).1 hlit
  have hinside := hrooted.laid.contains hlit
  rw [hspan] at hinside
  obtain ⟨q, hq, content, hstands, hshown⟩ :=
    content_of_isText (hrooted.laid.of_mem_locate hlit) htext
  obtain ⟨hle, hstart, hstop⟩ := (Chunk.inOrder_ofText source).cut d hd
  obtain ⟨before, after, hsource, hrange⟩ := Text.stands_slice hstart hstop hle
  generalize source.slice d.range.start d.range.stop = part at hblank hsource hrange
  have hbounds := Span.mk.inj hrange
  rw [hsource] at hstands
  have hsubset := hstands.subset (by omega) (by omega)
  simp only [Text.isTranslatable, Bool.and_eq_true, Bool.not_eq_true'] at hshown
  rw [Text.isBlank, List.all_eq_false] at hshown
  obtain ⟨⟨⟨c, hc, hno⟩, -⟩, -⟩ := hshown
  rw [Text.isBlank, List.all_eq_true] at hblank
  exact hno (hblank c (hsubset (by simp [Quoting.wrap, hc])))

/-- The finds of the chunks are those of the statements they are read as. -/
theorem flatMap_chunkFinds {parts : List (List Node)} {chunks : List Chunk}
    (h : List.Forall₂ (fun d ns => Reads source d.range ns) chunks parts) :
    chunks.flatMap (chunkFinds rules source) = parts.flatten.flatMap (·.finds rules source) := by
  induction h with
  | nil => rfl
  | cons hd _ ih =>
    rw [List.flatMap_cons, ih, chunkFinds_of_reads hd, List.flatten_cons, List.flatMap_append]

theorem flatMap_keptChunks (rules : CallRules) (source : Text) :
    (keptChunks [] source).flatMap (chunkFinds rules source) =
      (Chunk.ofText source).flatMap (chunkFinds rules source) := by
  have hblank : ∀ d ∈ Chunk.ofText source,
      (source.slice d.range.start d.range.stop).isBlank = true → chunkFinds rules source d = [] :=
    fun d hd => chunkFinds_of_isBlank hd
  rw [keptChunks]
  generalize Chunk.ofText source = chunks at hblank
  induction chunks with
  | nil => rfl
  | cons d chunks ih =>
    have ih := ih fun e he => hblank e (List.mem_cons_of_mem _ he)
    rw [List.filter_cons, List.flatMap_cons]
    split
    · rw [List.flatMap_cons, ih]
    · next hb =>
      have hb : (source.slice d.range.start d.range.stop).isBlank = true := by simpa using hb
      rw [ih, hblank d List.mem_cons_self hb, List.nil_append]

theorem faultsOfChunks_eq_nil {parts : List (List Node)} (discarded : List Text)
    (h : List.Forall₂ (fun d ns => Reads source d.range ns) (Chunk.ofText source) parts) :
    faultsOfChunks discarded source = [] := by
  refine List.filterMap_eq_nil_iff.2 fun x hx => ?_
  obtain ⟨d, hd, rfl⟩ := List.mem_map.1 hx
  obtain ⟨ns, hns⟩ : ∃ ns, Reads source d.range ns := by
    have hd := (List.mem_filter.1 hd).1
    generalize Chunk.ofText source = chunks at h hd
    induction h with
    | nil => cases hd
    | cons hfirst _ ih =>
      rcases List.mem_cons.1 hd with rfl | hd
      · exact ⟨_, hfirst⟩
      · exact ih hd
  rw [hns.ofRange]
  rfl

variable {stem content : Text} {index : Index} {tree : Tree}

/-- The chunks of a script with a regular tree are read as its statements. -/
theorem reads_of_regular (h : Tree.ofScript source = .ok tree) (hregular : tree.Regular)
    (hsettled : tree.Settled) : ∃ parts,
      List.Forall₂ (fun d ns => Reads source d.range ns) (Chunk.ofText source) parts ∧
        parts.flatten = tree.root.children := by
  obtain ⟨ls, its, c, hls, hits, rfl⟩ := Tree.ofRange_eq_ok h
  have hlexemes : Tree.lexemes ⟨source, ⟨0, size source⟩, ⟨.script, ⟨0, size source⟩, its⟩⟩ = ls := by
    rw [Tree.lexemes, hls]
    rfl
  have hchunks := Chunk.ofText_eq source
  rw [hchunks]
  refine Chunk.reads_chunks none (List.nil_append ([] ++ source)).symm (.inl rfl)
    hregular.lead hls hits fun d hd hname _ => ?_
  have hd : d ∈ Chunk.ofText source := hchunks ▸ hd
  have hseam := hregular.seams d hd hname
  have hbal := hsettled d hd hname
  rw [hlexemes] at hseam hbal
  exact ⟨hseam, hbal⟩

/-- A script whose tree is regular, and that is cut only where no indentation is open, has the same
items with the same keys whether it is parsed as a whole or function by function, and every function
can be parsed. Either way nothing fails, unless the numbers for the keys run out. -/
theorem parseChunks_of_regular (h : Tree.ofScript content.normalize = .ok tree)
    (hregular : tree.Regular) (hsettled : tree.Settled) :
    parseChunks rules [] stem content index = (parse rules stem content index).map
        (fun (s, index') => (⟨stem, .raw content.normalize, s.items, []⟩, index')) ∧
      ∀ fault, parse rules stem content index = .error fault → fault = .overflow ∧
        index.RunsOut ((Item.collect (tree.finds rules)).map (·.entry.fingerprint)) := by
  rw [parse_of_ofScript h]
  refine ⟨?_, fun fault hfault => assignKeys_eq_error_iff.1 (map_error_iff.1 hfault)⟩
  obtain ⟨parts, hparts, hflat⟩ := reads_of_regular h hregular hsettled
  have hrooted := Tree.rooted_of_ofScript h
  have hfinds : findsOfChunks rules [] content.normalize = tree.finds rules := by
    rw [findsOfChunks, flatMap_keptChunks, flatMap_chunkFinds hparts, hflat,
      Tree.finds_eq_flatMap rules hrooted.kind_eq, hrooted.source_eq]
  rw [parseChunks_eq, hfinds, faultsOfChunks_eq_nil [] hparts]
  cases assignKeys stem index (Item.collect (tree.finds rules)) <;> rfl

theorem parseChunks_of_regular_three :
    let content := Text.of "var x = \"A\"\nfunc f():\n\tsay(\"B\")\nstatic func g(): say(\"A\")\n"
    ∃ tree s index', Tree.ofScript content.normalize = .ok tree ∧ tree.Regular ∧ tree.Settled ∧
      parse .builtin ['s'] content .empty = .ok (s, index') ∧
      parseChunks .builtin [] ['s'] content .empty =
        .ok (⟨['s'], .raw content.normalize, s.items, []⟩, index') := by
  intro content
  have hruns : ((Tree.ofScript content.normalize).toOption.any fun tree =>
        decide (tree.Regular ∧ tree.Settled)) = true ∧
      (parse .builtin ['s'] content .empty).toOption.isSome = true := by
    decide +kernel
  obtain ⟨tree, h, htree⟩ := exists_ok_of_any hruns.1
  obtain ⟨hregular, hsettled⟩ := of_decide_eq_true htree
  obtain ⟨⟨s, index'⟩, hparse⟩ := exists_ok_of_isSome hruns.2
  refine ⟨tree, s, index', h, hregular, hsettled, hparse, ?_⟩
  rw [(parseChunks_of_regular h hregular hsettled).1, hparse]
  rfl

/-- Regularity is not enough: a backslash may continue an indented line by that of a function, whose
chunk is then indented as if it began a line of its own. -/
theorem parseChunks_continued :
    let content := Text.of
      "var x\n\t\\\nfunc f(): if a:\n\t\tpass\n\telse:\n\t\tsay(\"A\")\n"
    ∃ tree s s' index' index'', Tree.ofScript content.normalize = .ok tree ∧ tree.Regular ∧
      parse .builtin ['s'] content .empty = .ok (s, index') ∧
      parseChunks .builtin [] ['s'] content .empty = .ok (s', index'') ∧
      s.items ≠ [] ∧ s'.items = [] ∧ s'.chunkFaults ≠ [] := by
  intro content
  have hruns : ((Tree.ofScript content.normalize).toOption.any fun tree =>
        decide tree.Regular) = true ∧
      ((parse .builtin ['s'] content .empty).toOption.any fun r => !r.1.items.isEmpty) = true ∧
      ((parseChunks .builtin [] ['s'] content .empty).toOption.any fun r =>
        r.1.items.isEmpty && !r.1.chunkFaults.isEmpty) = true := by
    decide +kernel
  obtain ⟨hscript, hparse, hchunks⟩ := hruns
  obtain ⟨tree, h, hregular⟩ := exists_ok_of_any hscript
  obtain ⟨⟨s, index'⟩, hparse, hitems⟩ := exists_ok_of_any hparse
  obtain ⟨⟨s', index''⟩, hchunks, hfacts⟩ := exists_ok_of_any hchunks
  refine ⟨tree, s, s', index', index'', h, of_decide_eq_true hregular, hparse, hchunks, ?_⟩
  simp_all

end Script

end Phrasebook
