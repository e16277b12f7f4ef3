import Phrasebook.Proofs.ByFunction
import Phrasebook.Proofs.LineIndex

/-!
Lines put into a text, and what is found in it then.

An `Inset` tells where lines are put in, of how many bytes, and how many. What stands at a span with the
place on either side still stands there (`Inset.Puts.stands`), and every position moves down by the
lines from the place on (`Inset.Puts.position`). So a node with the place on either side has the same
texts, and only their positions and sites move (`Inset.Puts.ofNode`).
-/
namespace Phrasebook

open Text (Stands size isBoundary takeBytes lastLine)

/-- Lines put into a text: before which offset and which line, of how many bytes, and how many. -/
structure Inset where
  place : Nat
  line : Nat
  bytes : Nat
  lines : Nat

namespace Inset

variable (i : Inset)

/-- Where an offset comes to be. -/
def carry (x : Nat) : Nat := if x < i.place then x else x + i.bytes

/-- Where a line comes to be. -/
def row (line : Nat) : Nat := if line < i.line then line else line + i.lines

/-- Whether the place is on either side of a span. -/
def Clear (a : Span) : Prop := a.stop < i.place ∨ i.place ≤ a.start

def position (q : Position) : Position :=
  { q with startLine := i.row q.startLine, endLine := i.row q.endLine }

def site (s : Site) : Site := ⟨s.span.moved i.carry, s.form⟩

/-- An entry with its positions where they come to be. -/
def entry (e : Entry) : Entry := { e with positions := e.positions.map i.position }

def find (f : Find) : Find := ⟨i.entry f.entry, i.site f.site⟩

/-- Whole lines are put in at the beginning of a line. -/
inductive Puts : Inset → Text → Text → Prop
  | mk (before lines after : Text) (hbefore : before = [] ∨ before.EndsLine)
      (hlines : lines = [] ∨ lines.EndsLine) :
      Puts ⟨size before, before.count '\n' + 1, size lines, lines.count '\n'⟩ (before ++ after)
        (before ++ lines ++ after)

variable {i} {old new m : Text} {a b : Span} {x : Nat}

theorem strictMono_carry : StrictMono i.carry := by
  intro x y hxy
  simp only [carry]
  split <;> split <;> omega

theorem carry_of_lt (h : x < i.place) : i.carry x = x := if_pos h

theorem carry_of_le (h : i.place ≤ x) : i.carry x = x + i.bytes := if_neg (Nat.not_lt.2 h)

/-! ### Texts and positions -/

theorem Clear.mono (h : i.Clear a) (hstart : a.start ≤ b.start) (hstop : b.stop ≤ a.stop) :
    i.Clear b := by
  unfold Clear at h ⊢
  omega

theorem Puts.stands (h : i.Puts old new) (hm : Stands old a m) (hc : i.Clear a) :
    Stands new (a.moved i.carry) m := by
  obtain ⟨before, lines, after, hbefore, hlines⟩ := h
  obtain ⟨u, v, huv, rfl⟩ := hm
  rcases hc with hc | hc
  · simp only at hc
    obtain ⟨w, rfl, -⟩ := Text.exists_append_of_size_le huv.symm (by
      rw [Text.size_append]
      exact Nat.le_of_lt hc)
    refine ⟨u, w ++ lines ++ after, by simp, ?_⟩
    have hu : size u < size (u ++ m ++ w) := Nat.lt_of_le_of_lt (Nat.le_add_right _ _) hc
    exact congrArg₂ Span.mk (carry_of_lt hu) (carry_of_lt hc)
  · rw [List.append_assoc] at huv
    obtain ⟨w, rfl, rfl⟩ := Text.exists_append_of_size_le huv hc
    refine ⟨before ++ lines ++ w, v, by simp, ?_⟩
    rw [Span.moved, carry_of_le hc, carry_of_le (Nat.le_trans hc (Nat.le_add_right _ _))]
    simp only [Text.size_append, Span.mk.injEq]
    omega

theorem takeBytes_of_le {s : Text} (h : x ≤ size s) (t : Text) :
    takeBytes x (s ++ t) = takeBytes x s := by
  induction s generalizing x with
  | nil =>
    obtain rfl : x = 0 := Nat.le_zero.1 h
    rw [Text.takeBytes_zero, Text.takeBytes_zero]
  | cons c s ih =>
    simp only [size] at h
    rw [List.cons_append, takeBytes, takeBytes, ih (by omega)]

theorem isBoundary_of_le {s : Text} (h : x ≤ size s) (t : Text) :
    isBoundary x (s ++ t) = isBoundary x s := by
  induction s generalizing x with
  | nil =>
    obtain rfl : x = 0 := Nat.le_zero.1 h
    cases t <;> rfl
  | cons c s ih =>
    simp only [size] at h
    rw [List.cons_append, isBoundary, isBoundary, ih (by omega)]

/-- Before the end of the last line there is one line feed less. -/
theorem count_takeBytes_lt {s : Text} (h : s.EndsLine) (hx : x < size s) :
    (takeBytes x s).count '\n' < s.count '\n' := by
  obtain ⟨u, rfl⟩ := List.getLast?_eq_some_iff.1 h
  have hle : x ≤ size u := by
    rw [Text.size_append] at hx
    exact Nat.le_of_lt_succ hx
  have hsublist : (takeBytes x u).Sublist u := by
    conv_rhs => rw [← Text.takeBytes_append_dropBytes x u]
    exact List.sublist_append_left _ _
  have hcount := hsublist.count_le '\n'
  rw [takeBytes_of_le hle, List.count_append, List.count_singleton_self]
  exact Nat.lt_succ_of_le hcount

/-- The lines from that of the place on are those of the offsets from the place on. -/
theorem Puts.line_lt_iff (h : i.Puts old new) (x : Nat) :
    (old.place x).line < i.line ↔ x < i.place := by
  obtain ⟨before, lines, after, hbefore, hlines⟩ := h
  by_cases hx : x < size before
  · have hends : before.EndsLine := hbefore.resolve_left fun hnil => by
      rw [hnil] at hx
      cases hx
    have hcount := count_takeBytes_lt hends hx
    simp only [Text.place_eq, takeBytes_of_le (Nat.le_of_lt hx)]
    omega
  · obtain ⟨y, rfl⟩ := Nat.exists_eq_add_of_le (Nat.not_lt.1 hx)
    simp only [Text.place_eq, Text.takeBytes_size_add, List.count_append]
    omega

/-- Places stay in their columns, and move down by the lines from the place on. -/
theorem Puts.place (h : i.Puts old new) (x : Nat) : new.place (i.carry x) =
    { old.place x with line := i.row (old.place x).line } := by
  have hline := h.line_lt_iff x
  obtain ⟨before, lines, after, hbefore, hlines⟩ := h
  by_cases hx : x < size before
  · have hle : x ≤ size before := Nat.le_of_lt hx
    have hmin (t : Text) : min x (size (before ++ t)) = x := by
      rw [Text.size_append]
      omega
    rw [row, if_pos (hline.2 hx), carry_of_lt hx]
    simp only [Text.place_eq, List.append_assoc, takeBytes_of_le hle, hmin, isBoundary_of_le hle]
  · rw [row, if_neg (mt hline.1 hx), carry_of_le (Nat.not_lt.1 hx)]
    obtain ⟨y, rfl⟩ := Nat.exists_eq_add_of_le (Nat.not_lt.1 hx)
    have hsum : size before + y + size lines = size (before ++ lines) + y := by
      rw [Text.size_append]
      omega
    have hmin (s : Text) : min (size s + y) (size (s ++ after)) = size s + min y (size after) := by
      rw [Text.size_append]
      omega
    have hlines' : before ++ lines = [] ∨ (before ++ lines).EndsLine := by
      rcases hlines with rfl | hlines
      · rwa [List.append_nil]
      · exact .inr (hlines.append before)
    rw [hsum]
    simp only [Text.place_eq, Text.takeBytes_size_add, hmin, Text.isBoundary_size_add,
      Text.lastLine_append hbefore, Text.lastLine_append hlines', List.count_append]
    rw [Place.mk.injEq]
    exact ⟨by omega, rfl⟩

theorem Puts.position (h : i.Puts old new) (a : Span) :
    new.position (a.moved i.carry) = i.position (old.position a) := by
  simp only [Text.position_eq, Span.moved, h.place, Inset.position]

/-! ### Nodes -/

/-- An expression or a simple statement that lies as it should, with the place on either side. -/
structure Spares (i : Inset) (source : Text) (n : Node) : Prop where
  laid : n.Laid source
  sort : n.kind.isExpression = true ∨ n.kind.isSimple = true
  clear : i.Clear n.span

/-- A located node whose texts are the same when lines are put in: the calls above it count, since they
tell which arguments are text. -/
structure Settles (i : Inset) (source : Text) (n : Node.Located) : Prop where
  node : i.Spares source n.node
  calls : ∀ a ∈ n.above, a.1.kind = .call → i.Spares source a.1

variable {source : Text} {n c : Node} {l l' : Node.Located}

theorem Spares.child (h : i.Spares source n) (hc : c ∈ n.children) : i.Spares source c := by
  obtain ⟨hlaid, hstart, hstop⟩ := h.laid.row.of_mem hc
  exact ⟨hlaid, .inl (h.laid.fit.expressions h.sort c hc), h.clear.mono hstart hstop⟩

theorem Settles.child (h : i.Settles source l) {j : Nat} (hc : c ∈ l.node.children) :
    i.Settles source ⟨c, (l.node, j) :: l.above⟩ :=
  ⟨h.node.child hc, List.forall_mem_cons.2 ⟨fun _ => h.node, h.calls⟩⟩

theorem Settles.below (h : i.Settles source l) (hl : l' ∈ l.node.locate l.above) :
    i.Settles source l' := by
  obtain ⟨n, above⟩ := l
  induction n using Node.childrenFirst generalizing above with
  | h n ih =>
    rcases Node.mem_locate.1 hl with rfl | ⟨j, c, hc, hl⟩
    · exact h
    · have hmem := List.mem_of_getElem? hc
      exact ih c hmem _ (h.child hmem) hl

theorem Spares.stands (h : i.Spares source n) : Stands source n.span (n.text source) := by
  obtain ⟨hlt, hstart, hstop⟩ := h.laid.fit.bounds h.sort
  exact Text.stands_slice hstart hstop (Nat.le_of_lt hlt)

theorem Puts.text (hp : i.Puts old new) (h : i.Spares old n) :
    (n.moved i.carry).text new = n.text old := by
  have hstands := (hp.stands h.stands h.clear).slice_eq
  rwa [Node.text, Node.moved_span]

/-- The content of a string literal moves with it. -/
theorem Puts.contentSpan? {q : Quoting} (hp : i.Puts old new) (h : i.Spares old n)
    (hq : n.kind = .string q) : ∃ inner, n.contentSpan? = some inner ∧
      (n.moved i.carry).contentSpan? = some (inner.moved i.carry) ∧
      new.slice (i.carry inner.start) (i.carry inner.stop) = old.slice inner.start inner.stop := by
  obtain ⟨-, content, hcontent⟩ := h.laid.fit.quoted q hq
  have hsize := hcontent.size_eq
  simp only [Quoting.wrap, Text.size_append] at hsize
  let inner : Span :=
    ⟨n.span.start + (size q.sigil + size q.delimiter), n.span.stop - size q.delimiter⟩
  have hinner : inner.start = n.span.start + (size q.sigil + size q.delimiter) ∧
      inner.stop = n.span.stop - size q.delimiter := ⟨rfl, rfl⟩
  have hmoved : (n.moved i.carry).contentSpan? = some (inner.moved i.carry) := by
    simp only [Node.contentSpan?, Node.moved_kind, hq, Node.moved_span, Span.moved,
      Option.some.injEq, Span.mk.injEq]
    rcases h.clear with hlt | hle
    · rw [carry_of_lt (x := n.span.start) (by omega), carry_of_lt hlt,
        carry_of_lt (x := inner.start) (by omega), carry_of_lt (x := inner.stop) (by omega)]
      omega
    · rw [carry_of_le hle, carry_of_le (x := n.span.stop) (by omega),
        carry_of_le (x := inner.start) (by omega), carry_of_le (x := inner.stop) (by omega)]
      omega
  refine ⟨inner, by simp only [Node.contentSpan?, hq, inner], hmoved, ?_⟩
  have hold := Text.slice_wrap hcontent
  have hnew := Text.slice_wrap (hp.stands hcontent h.clear)
  simp only [Node.contentSpan?, Node.moved_kind, hq, Node.moved_span, Option.some.injEq] at hmoved
  rw [show old.slice inner.start inner.stop = content from hold,
    show i.carry inner.start = (inner.moved i.carry).start from rfl,
    show i.carry inner.stop = (inner.moved i.carry).stop from rfl, ← hmoved]
  exact hnew

end Inset

namespace Node

variable {f : Nat → Nat} {n : Node}

/-- Ancestors with all spans carried over. -/
def movedAbove (f : Nat → Nat) (above : List (Node × Nat)) : List (Node × Nat) :=
  above.map fun a => (a.1.moved f, a.2)

def Located.moved (f : Nat → Nat) (l : Located) : Located :=
  ⟨l.node.moved f, movedAbove f l.above⟩

@[simp] theorem moved_children (n : Node) : (n.moved f).children = n.children.map (moved f) := by
  cases n
  rw [moved_mk]

theorem arguments_moved (n : Node) : (n.moved f).arguments = n.arguments.map (moved f) := by
  rw [arguments, arguments, moved_kind, moved_children]
  split
  · exact List.map_tail.symm
  · rfl

theorem value?_moved (n : Node) :
    (n.moved f).value? = n.value?.map (moved f) := by
  rw [value?, value?, moved_kind, moved_children]
  split
  · exact List.head?_map
  · exact List.head?_map
  · exact List.head?_map
  · exact List.getElem?_map
  · rfl

theorem value?_mem {v : Node} (h : n.value? = some v) : v ∈ n.children := by
  unfold value? at h
  split at h
  · exact List.mem_of_head? h
  · exact List.mem_of_head? h
  · exact List.mem_of_head? h
  · exact List.mem_of_getElem? h
  · cases h

theorem condition?_moved (n : Node) :
    (n.moved f).condition? = n.condition?.map (moved f) := by
  rw [condition?, condition?, moved_kind, moved_children]
  split
  · exact List.head?_map
  · exact List.head?_map
  · rfl

theorem locate_moved (n : Node) (above : List (Node × Nat)) :
    (n.moved f).locate (movedAbove f above) = (n.locate above).map (·.moved f) := by
  induction n using childrenFirst generalizing above with
  | h n ih =>
    obtain ⟨kind, span, children⟩ := n
    rw [moved_mk, Finds.locate_cons, Finds.locate_cons, ← moved_mk, locateAll_eq_flatMap,
      locateAll_eq_flatMap, List.zipIdx_map, List.map_cons, List.map_flatMap, List.flatMap_map]
    refine congrArg _ (List.flatMap_congr fun p hp => ?_)
    exact ih p.1 (List.fst_mem_of_mem_zipIdx hp) ((_, p.2) :: above)

theorem hasString_moved (n : Node) : (n.moved f).hasString = n.hasString := by
  rw [hasString, hasString, ← map_node_locate (n.moved f) (movedAbove f []), locate_moved,
    ← map_node_locate n [], List.map_map, List.any_map, List.any_map]
  refine congrArg (List.any _) (funext fun l => ?_)
  exact congrArg Kind.isString (moved_kind l.node)

end Node

namespace Inset

open Finds

variable {i : Inset} {old new context : Text} {n : Node} {l : Node.Located} {rules : CallRules}

/-! ### What is found -/

theorem any_congr_mem {α : Type} {xs : List α} {p q : α → Bool} (h : ∀ a ∈ xs, p a = q a) :
    xs.any p = xs.any q := by
  rw [Bool.eq_iff_iff, List.any_eq_true, List.any_eq_true]
  exact exists_congr fun a => and_congr_right fun ha => by rw [h a ha]

theorem isName_moved : isName (l.moved i.carry) = isName l := by
  obtain ⟨node, above⟩ := l
  cases above with
  | nil => rfl
  | cons a above => simp [isName, Node.Located.moved, Node.movedAbove]

theorem Puts.calleeOf (hp : i.Puts old new) (h : i.Spares old n) :
    calleeOf new (n.moved i.carry) = calleeOf old n := by
  rw [Finds.calleeOf, Finds.calleeOf, Node.calleeName?, Node.calleeName?, Node.moved_children,
    List.head?_map]
  cases hc : n.children.head? with
  | none => rfl
  | some callee =>
    have htext := hp.text (h.child (List.mem_of_head? hc))
    simp only [Option.map_some, Node.moved_kind, htext]

theorem Puts.isSkipped (hp : i.Puts old new) (h : i.Settles old l) :
    isSkipped rules new (l.moved i.carry) = isSkipped rules old l := by
  rw [Finds.isSkipped, Finds.isSkipped, Node.Located.moved, Node.movedAbove, List.any_map]
  refine any_congr_mem fun a ha => ?_
  by_cases hk : a.1.kind = .call
  · simp [hp.calleeOf (h.calls a ha hk), Node.arguments_moved]
  · simp [beq_eq_false_iff_ne.2 hk]

theorem Puts.isText (hp : i.Puts old new) (h : i.Settles old l) :
    isText rules new (l.moved i.carry) = isText rules old l := by
  have hnode : (l.moved i.carry).node = l.node.moved i.carry := rfl
  rw [Finds.isText, Finds.isText, isName_moved, hp.isSkipped h, hnode, Node.moved_kind]
  cases hk : l.node.kind with
  | string q =>
    obtain ⟨inner, hold, hnew, hslice⟩ := hp.contentSpan? h.node hk
    simp only [Node.content?, hold, hnew, Option.map_some, Span.moved, hslice]
  | _ => rfl

theorem stringsOf_moved : stringsOf (l.moved i.carry) = (stringsOf l).map (·.moved i.carry) := by
  have hlocate : (l.moved i.carry).node.locate (l.moved i.carry).above =
      (l.node.locate l.above).map (·.moved i.carry) := Node.locate_moved l.node l.above
  rw [stringsOf, stringsOf, hlocate, List.filter_map]
  refine congrArg (List.map _) (List.filter_congr fun m _ => ?_)
  exact congrArg Node.Kind.isString (Node.moved_kind m.node)

/-- A part of a node that is found is found again. -/
theorem Puts.find (hp : i.Puts old new) (part : Span) (form : Site.Form) (phrase : Text)
    (context : Option Text) :
    Finds.find new form phrase context (n.moved i.carry) (part.moved i.carry) =
      i.find (Finds.find old form phrase context n part) := by
  simp only [Finds.find, Inset.find, Inset.entry, Inset.site, Node.moved_kind, Node.moved_span,
    hp.position, List.map_cons, List.map_nil]

variable (rules)

theorem Puts.literal (hp : i.Puts old new) (h : i.Settles old l) (context : Text) :
    literal rules new context (l.moved i.carry) = (literal rules old context l).map i.find := by
  have hnode : (l.moved i.carry).node = l.node.moved i.carry := rfl
  rw [Finds.literal, Finds.literal, hp.isText h, hnode, Node.moved_kind]
  split
  · cases hk : l.node.kind with
    | string q =>
      obtain ⟨inner, hold, hnew, hslice⟩ := hp.contentSpan? h.node hk
      simp only [hold, hnew, Span.moved_start, Span.moved_stop, hslice, List.map_cons, List.map_nil,
        hp.find]
    | _ => rfl
  · rfl

theorem Puts.literals (hp : i.Puts old new) (h : i.Settles old l) (context : Text) :
    literals rules new context (l.moved i.carry) = (literals rules old context l).map i.find := by
  rw [Finds.literals, Finds.literals, stringsOf_moved, List.flatMap_map, List.map_flatMap]
  refine List.flatMap_congr fun m hm => ?_
  exact hp.literal rules (h.below (List.mem_of_mem_filter hm)) context

theorem Puts.whole (hp : i.Puts old new) (h : i.Settles old l) (form : Site.Form)
    (context : Option Text) : whole rules new form context (l.moved i.carry) =
      (whole rules old form context l).map i.find := by
  have hany : (stringsOf (l.moved i.carry)).any (Finds.isText rules new) =
      (stringsOf l).any (Finds.isText rules old) := by
    rw [stringsOf_moved, List.any_map]
    refine any_congr_mem fun m hm => ?_
    exact hp.isText (h.below (List.mem_of_mem_filter hm))
  have hnode : (l.moved i.carry).node = l.node.moved i.carry := rfl
  rw [Finds.whole, Finds.whole, hany, hnode, hp.text h.node, Node.moved_span, hp.find]
  split <;> rfl

theorem call_eq {source : Text} {callee : Node} {args : List Node} (h : n.children = callee :: args)
    (above : List (Node × Nat)) : call rules source context above n =
      if rules.denies (Finds.calleeOf source n) then []
      else Finds.literals rules source context ⟨callee, (n, 0) :: above⟩ ++
        arguments rules source context n above 0 args := by
  obtain ⟨kind, span, children⟩ := n
  cases h
  simp only [call]

/-- The arguments of a call, when the calls within them have the same finds. -/
theorem Puts.argumentList (hp : i.Puts old new) (context : Text) {above : List (Node × Nat)}
    (h : i.Settles old ⟨n, above⟩)
    (hcalls : ∀ arg ∈ n.children, ∀ {above}, i.Settles old ⟨arg, above⟩ →
      call rules new context (Node.movedAbove i.carry above) (arg.moved i.carry) =
        (call rules old context above arg).map i.find)
    (j : Nat) {args : List Node} (hargs : ∀ arg ∈ args, arg ∈ n.children) :
    arguments rules new context (n.moved i.carry) (Node.movedAbove i.carry above) j
        (args.map (·.moved i.carry)) =
      (arguments rules old context n above j args).map i.find := by
  have hcallee := hp.calleeOf h.node
  have hcount : (n.moved i.carry).arguments.length = n.arguments.length := by
    rw [Node.arguments_moved, List.length_map]
  induction args generalizing j with
  | nil => simp only [List.map_nil, arguments]
  | cons arg rest ih =>
    have harg := hargs arg List.mem_cons_self
    have hhere : i.Settles old ⟨arg, (n, j + 1) :: above⟩ := h.child harg
    have hmore := ih (j + 1) fun a ha => hargs a (List.mem_cons_of_mem _ ha)
    have hlit := hp.literal rules hhere context
    have hlits := hp.literals rules hhere context
    have hwhole := hp.whole rules hhere .expression (some context)
    have hcall := hcalls arg harg hhere
    simp only [Node.Located.moved, Node.movedAbove, List.map_cons] at hlit hlits hwhole hcall
    simp only [List.map_cons, arguments, hcallee, hcount, Node.hasString_moved, Node.moved_kind,
      List.map_append]
    refine congrArg₂ (· ++ ·) ?_ hmore
    split
    · rfl
    · split
      · exact hlit
      · exact hwhole
      · exact hcall
      · exact hlits

/-- By induction on the tree. -/
theorem Puts.call (hp : i.Puts old new) (context : Text) {above : List (Node × Nat)}
    (h : i.Settles old ⟨n, above⟩) :
    call rules new context (Node.movedAbove i.carry above) (n.moved i.carry) =
      (call rules old context above n).map i.find := by
  induction n using Node.childrenFirst generalizing above with
  | h n ih =>
    cases hchildren : n.children with
    | nil =>
      obtain ⟨kind, span, children⟩ := n
      cases hchildren
      simp only [Node.moved_mk, List.map_nil, Finds.call]
    | cons callee args =>
      have hmoved : (n.moved i.carry).children =
          callee.moved i.carry :: args.map (·.moved i.carry) := by
        rw [Node.moved_children, hchildren, List.map_cons]
      have hmem : callee ∈ n.children := by rw [hchildren]; exact List.mem_cons_self
      have hfirst := hp.literals rules (h.child (j := 0) hmem) context
      rw [call_eq rules hmoved, call_eq rules hchildren, hp.calleeOf h.node]
      split
      · rfl
      · rw [List.map_append]
        refine congrArg₂ (· ++ ·) hfirst (hp.argumentList rules context h ih 0 fun a ha => ?_)
        rw [hchildren]
        exact List.mem_cons_of_mem _ ha

theorem Puts.statement (hp : i.Puts old new) (h : i.Settles old l) :
    statement rules new (l.moved i.carry) = (statement rules old l).map i.find := by
  have hnode : (l.moved i.carry).node = l.node.moved i.carry := rfl
  unfold Finds.statement
  rw [hnode, Node.value?_moved, hp.text h.node]
  cases hv : l.node.value? with
  | none => rfl
  | some value =>
    have hinner : i.Settles old ⟨value, (l.node, 0) :: l.above⟩ := h.child (Node.value?_mem hv)
    have hlits := hp.literals rules hinner (l.node.text old)
    have hcall := hp.call rules (l.node.text old) hinner
    simp only [Option.map_some, Node.moved_kind, hp.whole rules h]
    split
    · exact hlits
    · exact hlits
    · rfl
    · exact hcall
    · rfl
    · rfl
    · exact hlits

/-- What is asked of a condition: it is settled, and so is the header in front of it. -/
structure SettlesGuard (i : Inset) (source : Text) (branch : Node.Located) (condition : Node) :
    Prop where
  inner : i.Settles source ⟨condition, (branch.node, 0) :: branch.above⟩
  header : ∃ m, Stands source ⟨branch.node.span.start, condition.span.stop⟩ m
  clear : i.Clear ⟨branch.node.span.start, condition.span.stop⟩

theorem Puts.guard (hp : i.Puts old new) {condition : Node} (h : i.SettlesGuard old l condition) :
    guard rules new (l.moved i.carry) (condition.moved i.carry) =
      (guard rules old l condition).map i.find := by
  obtain ⟨m, hm⟩ := h.header
  have hslice := (hp.stands hm h.clear).slice_eq.trans hm.slice_eq.symm
  simp only [Span.moved] at hslice
  have hlits := hp.literals rules h.inner
  have hwhole := hp.whole rules h.inner
  have hcall := fun context => hp.call rules context h.inner
  simp only [Node.Located.moved, Node.movedAbove, List.map_cons] at hlits hwhole hcall
  simp only [Finds.guard, Node.Located.moved, Node.movedAbove, Node.moved_kind, Node.moved_span,
    Span.moved, hslice]
  split
  · exact hwhole _ _
  · exact hcall _
  · exact hlits _

theorem Puts.guards (hp : i.Puts old new) (j : Nat) {branches : List Node}
    (h : ∀ branch ∈ branches, ∀ k, ∀ condition ∈ branch.condition?,
      i.SettlesGuard old ⟨branch, (l.node, k) :: l.above⟩ condition) :
    guards rules new (l.moved i.carry) j (branches.map (·.moved i.carry)) =
      (guards rules old l j branches).map i.find := by
  induction branches generalizing j with
  | nil => rfl
  | cons branch more ih =>
    have hmore := ih (j + 1) fun b hb => h b (List.mem_cons_of_mem _ hb)
    rw [List.map_cons, Finds.guards, Finds.guards, List.map_append, Node.condition?_moved]
    refine congrArg₂ (· ++ ·) ?_ hmore
    cases hc : branch.condition? with
    | none => rfl
    | some condition =>
      have hguard := hp.guard rules (h branch List.mem_cons_self j condition hc)
      simp only [Option.map_some, Node.hasString_moved]
      split
      · exact hguard
      · rfl

/-- What is asked of a node in which texts are looked for. -/
structure Admits (i : Inset) (source : Text) (l : Node.Located) : Prop where
  simple : l.node.kind.isSimple = true → i.Settles source l
  guards : l.node.kind = .ifStmt → ∀ branch ∈ l.node.children, ∀ k,
    ∀ condition ∈ branch.condition?,
      i.SettlesGuard source ⟨branch, (l.node, k) :: l.above⟩ condition

theorem Puts.ofNode (hp : i.Puts old new) (h : i.Admits old l) :
    ofNode rules new (l.moved i.carry) = (ofNode rules old l).map i.find := by
  have hnode : (l.moved i.carry).node = l.node.moved i.carry := rfl
  have hlone (hk : l.node.kind.isSimple = true) :
      (if l.node.hasString then Finds.statement rules new (l.moved i.carry) else []) =
        (if l.node.hasString then Finds.statement rules old l else []).map i.find := by
    rw [hp.statement rules (h.simple hk)]
    split <;> rfl
  unfold Finds.ofNode
  rw [hnode, Node.moved_kind, Node.moved_children, Node.hasString_moved]
  split
  · next hk => exact hp.guards rules 0 (h.guards hk)
  · next hk => exact hlone (by rw [hk]; rfl)
  · next hk => exact hlone (by rw [hk]; rfl)
  · next hk => exact hlone (by rw [hk]; rfl)
  · next op hk =>
    rw [hp.whole rules (h.simple (by rw [hk]; rfl)), List.head?_map, Option.any_map]
    simp only [Node.moved_kind]
    split <;> rfl
  · rfl

end Inset

end Phrasebook
