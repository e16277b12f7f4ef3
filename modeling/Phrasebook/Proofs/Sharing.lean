import Mathlib.Logic.Function.Basic
import Phrasebook.Proofs.Numbering

/-!
An index that workers share.

The number of an entry is asked for in two steps, and other workers may come between them: first the
places of the entry are noted, then its fingerprint is asked for. `Step` has one case for each step that
a worker makes alone, and `Kept` is what every order of them keeps up.
-/
namespace Phrasebook

namespace Index

/-- What is seen of a step. -/
inductive Event where
  /-- A worker noted where an entry was seen. -/
  | noted (worker : Nat) (entry : Entry)
  /-- A worker asked for a fingerprint and was given its number. -/
  | given (worker : Nat) (fingerprint : Text) (number : UInt64)
  /-- The positions were cleared. -/
  | cleared
  /-- The index was written and read again. -/
  | reloaded

namespace Event

/-- The fingerprint that was asked for. -/
def asked? : Event → Option Text
  | .given _ f _ => some f
  | _ => none

/-- Whether positions are forgotten. -/
def forgets : Event → Bool
  | .cleared | .reloaded => true
  | _ => false

/-- The positions noted for a fingerprint. -/
def positions (f : Text) : Event → List Position
  | .noted _ e => if e.fingerprint = f then e.positions else []
  | _ => []

end Event

/-- The fingerprints asked for, in order. -/
def asked (events : List Event) : List Text := events.filterMap Event.asked?

/-- The events since positions were last forgotten. -/
def recent (events : List Event) : List Event :=
  (events.reverse.takeWhile fun e => !e.forgets).reverse

/-- An index, with the fingerprint of each worker that has noted an entry and not asked for its number
yet. -/
structure Shared where
  index : Index
  waiting : Nat → Option Text

/-- Nothing has been asked for. -/
def Shared.start : Shared := ⟨empty, fun _ => none⟩

inductive Step : Shared → Event → Shared → Prop where
  | ask {s : Shared} {w : Nat} {f : Text} {n : UInt64} {x : Index} (hw : s.waiting w = none)
      (hx : s.index.assign f = .ok (n, x)) : Step s (.given w f n) ⟨x, s.waiting⟩
  | note {s : Shared} {w : Nat} (e : Entry) (hw : s.waiting w = none) :
      Step s (.noted w e)
        ⟨s.index.note e.fingerprint e.positions,
          Function.update s.waiting w (some e.fingerprint)⟩
  | askNoted {s : Shared} {w : Nat} {f : Text} {n : UInt64} {x : Index} (hw : s.waiting w = some f)
      (hx : s.index.assign f = .ok (n, x)) :
      Step s (.given w f n) ⟨x, Function.update s.waiting w none⟩
  | clear {s : Shared} : Step s .cleared ⟨s.index.clearPositions, s.waiting⟩
  | reload {s : Shared} {x : Index} (hx : parse s.index.render = .ok x) :
      Step s .reloaded ⟨x, s.waiting⟩

inductive Run (s : Shared) : List Event → Shared → Prop where
  | refl : Run s [] s
  | step {t u : Shared} {events : List Event} {event : Event} (h : Run s events t)
      (hstep : Step t event u) : Run s (events ++ [event]) u

variable {s t : Shared} {events more : List Event} {event : Event}

/-- A worker that nobody interrupts is given the number of its entry. -/
theorem run_assignEntry {w : Nat} {e : Entry} {n : UInt64} {x : Index} (hw : s.waiting w = none)
    (hx : s.index.assignEntry e = .ok (n, x)) :
    Run s [.noted w e, .given w e.fingerprint n] ⟨x, s.waiting⟩ := by
  have hback : Function.update (Function.update s.waiting w (some e.fingerprint)) w none =
      s.waiting := by
    rw [Function.update_idem, ← hw, Function.update_eq_self]
  have hgiven := (Run.refl.step (Step.note e hw)).step
    (Step.askNoted (Function.update_self _ _ _) hx)
  rw [hback] at hgiven
  exact hgiven

/-! ### What every run keeps up -/

theorem asked_append (events more : List Event) :
    asked (events ++ more) = asked events ++ asked more := List.filterMap_append

theorem asked_concat (events : List Event) (event : Event) :
    asked (events ++ [event]) = asked events ++ event.asked?.toList := by
  rw [asked_append]
  cases h : event.asked? <;> simp [asked, h]

theorem recent_concat (events : List Event) (event : Event) :
    recent (events ++ [event]) = if event.forgets then [] else recent events ++ [event] := by
  cases h : event.forgets <;> simp [recent, h]

structure Kept (events : List Event) (x : Index) : Prop where
  numbered : x.Numbered (asked events)
  given : ∀ w f n, .given w f n ∈ events → x.lookup f = some n
  seen : ∀ f, x.positions f = (recent events).flatMap (Event.positions f)

theorem kept_start : Kept [] empty where
  numbered := numbered_empty
  given := by simp
  seen _ := rfl

variable {x y : Index} {f : Text} {n : UInt64}

/-- Asking changes no positions. -/
theorem positions_assign (h : x.assign f = .ok (n, y)) (g : Text) :
    y.positions g = x.positions g := by
  rcases eq_of_assign h with ⟨-, rfl⟩ | ⟨-, -, -, rfl⟩ <;> rfl

theorem positions_note (x : Index) (f g : Text) (ps : List Position) :
    (x.note f ps).positions g = x.positions g ++ if f = g then ps else [] := by
  rw [note, positions, Table.get?_put]
  by_cases h : f = g
  · subst h
    simp
  · simp [h, Ne.symm h, positions]

theorem Kept.assign (h : Kept events x) (w : Nat) (hx : x.assign f = .ok (n, y)) :
    Kept (events ++ [.given w f n]) y := by
  refine ⟨?_, ?_, ?_⟩
  · rw [asked_concat]
    exact h.numbered.assign hx
  · intro v g m hmem
    rcases List.mem_append.1 hmem with hmem | hmem
    · exact lookup_assign hx (h.given v g m hmem)
    · cases List.mem_singleton.1 hmem
      exact lookup_self_assign hx
  · intro g
    rw [positions_assign hx, h.seen, recent_concat]
    simp [Event.forgets, Event.positions]

/-- Any step that asks for nothing: the numbers are the same as before. -/
theorem Kept.silent (h : Kept events x) (hasked : event.asked? = none)
    (hnumbered : y.Numbered (asked events)) (hlookup : ∀ f, y.lookup f = x.lookup f)
    (hseen : ∀ f, y.positions f = (recent (events ++ [event])).flatMap (Event.positions f)) :
    Kept (events ++ [event]) y := by
  refine ⟨?_, ?_, hseen⟩
  · rw [asked_concat, hasked, Option.toList_none, List.append_nil]
    exact hnumbered
  · intro w f n hmem
    rcases List.mem_append.1 hmem with hmem | hmem
    · rw [hlookup]
      exact h.given w f n hmem
    · rw [← List.mem_singleton.1 hmem] at hasked
      cases hasked

theorem Kept.note (h : Kept events x) (w : Nat) (e : Entry) :
    Kept (events ++ [.noted w e]) (x.note e.fingerprint e.positions) := by
  refine h.silent rfl (h.numbered.congr rfl rfl) (fun _ => rfl) fun f => ?_
  rw [positions_note, h.seen, recent_concat]
  simp [Event.forgets, Event.positions]

theorem Kept.clear (h : Kept events x) : Kept (events ++ [.cleared]) x.clearPositions := by
  refine h.silent rfl (h.numbered.congr rfl rfl) (fun _ => rfl) fun f => ?_
  rw [recent_concat]
  rfl

theorem Kept.reread (h : Kept events x) : Kept (events ++ [.reloaded]) x.reread := by
  obtain ⟨hnumbered, hlookup⟩ := h.numbered.reread
  refine h.silent rfl hnumbered hlookup fun f => ?_
  rw [recent_concat]
  rfl

theorem Kept.step (h : Kept events s.index) (hstep : Step s event t) :
    Kept (events ++ [event]) t.index := by
  cases hstep with
  | ask _ hx => exact h.assign _ hx
  | askNoted _ hx => exact h.assign _ hx
  | note e _ => exact h.note _ e
  | clear => exact h.clear
  | reload hx =>
    rw [parse_render h.numbered.sound] at hx
    cases hx
    exact h.reread

theorem Kept.run (h : Kept events s.index) (hrun : Run s more t) :
    Kept (events ++ more) t.index := by
  induction hrun with
  | refl => simpa using h
  | step _ hstep ih =>
    rw [← List.append_assoc]
    exact ih.step hstep

/-- A number that was given stays, whatever is done next. -/
theorem Kept.lookup_run (h : Kept events s.index) (hrun : Run s more t)
    (hf : s.index.lookup f = some n) : t.index.lookup f = some n := by
  have hafter := (h.run hrun).numbered
  rw [asked_append] at hafter
  obtain ⟨rest, hrest⟩ := eraseDups_isPrefix (asked events) (asked more)
  rw [h.numbered.lookup] at hf
  rw [hafter.lookup, ← hrest, List.getElem?_append_left (List.getElem?_eq_some_iff.1 hf).1, hf]

/-- What holds of a shared index after any number of steps: the numbers given are those below the
counter, in the order in which their fingerprints were first asked for; what a worker was given is still
so, and stays so in any further steps; the positions are those noted since they were last forgotten; the
index can be written and read again, whereby only the positions are lost; and there is a number for every
fingerprint as long as fewer than all of them have been given. -/
theorem shared_index_kept (h : Run .start events s) (hmore : Run s more t) :
    (s.index.counter.toNat = (asked events).eraseDups.length ∧
      s.index.size = s.index.counter.toNat ∧
      ∀ f n, s.index.lookup f = some n ↔ (asked events).eraseDups[n.toNat]? = some f) ∧
    (∀ w f n, .given w f n ∈ events → s.index.lookup f = some n) ∧
    (∀ f n, s.index.lookup f = some n → t.index.lookup f = some n) ∧
    (∀ f g n, s.index.lookup f = some n → s.index.lookup g = some n → f = g) ∧
    (∀ f, s.index.positions f = (recent events).flatMap (Event.positions f)) ∧
    (∃ x, parse s.index.render = .ok x ∧ x.counter = s.index.counter ∧
      (∀ f, x.lookup f = s.index.lookup f) ∧ ∀ f, x.positions f = []) ∧
    ∀ f, (asked events ++ [f]).eraseDups.length < UInt64.size →
      ∃ n x, s.index.assign f = .ok (n, x) := by
  have hkept : Kept events s.index := Kept.run (s := .start) kept_start h
  have hnumbered := hkept.numbered
  obtain ⟨-, hlookup⟩ := hnumbered.reread
  refine ⟨⟨hnumbered.counter, ?_, hnumbered.lookup⟩, hkept.given, ?_, ?_, hkept.seen, ?_, ?_⟩
  · rw [hnumbered.size, hnumbered.counter]
  · intro f n hf
    exact hkept.lookup_run hmore hf
  · intro f g n hf hg
    exact hnumbered.unique hf hg
  · exact ⟨_, parse_render hnumbered.sound, rfl, hlookup, fun _ => rfl⟩
  · intro f hfew
    exact hnumbered.exists_assign hfew

/-- Two workers, of which the second asks while the first is between its two steps. -/
theorem shared_index_kept_between :
    let e : Entry := { Entry.new ['A'] none with positions := [⟨1, 0, 1, 1⟩] }
    let f : Text := ['B']
    let events : List Event := [.noted 0 e, .given 1 f 0, .given 0 e.fingerprint 1]
    ∃ s, Run .start events s ∧ s.index.lookup f = some 0 ∧
      s.index.lookup e.fingerprint = some 1 ∧ s.index.positions e.fingerprint = [⟨1, 0, 1, 1⟩] := by
  intro e f events
  have hfirst : (empty.note e.fingerprint e.positions).assign f =
      .ok (0, (empty.note e.fingerprint e.positions).give f) := by
    decide +kernel
  have hsecond : ((empty.note e.fingerprint e.positions).give f).assign e.fingerprint =
      .ok (1, ((empty.note e.fingerprint e.positions).give f).give e.fingerprint) := by
    decide +kernel
  have hrun : ∃ s, Run .start events s := by
    have hnoted := Run.refl.step (Step.note (s := .start) (w := 0) e rfl)
    have hasked := hnoted.step (Step.ask (w := 1) rfl hfirst)
    exact ⟨_, hasked.step (Step.askNoted (w := 0) rfl hsecond)⟩
  obtain ⟨s, hrun⟩ := hrun
  obtain ⟨-, hgiven, -, -, hseen, -⟩ := shared_index_kept hrun .refl
  refine ⟨s, hrun, hgiven 1 f 0 (by simp [events]), hgiven 0 _ 1 (by simp [events]), ?_⟩
  rw [hseen]
  simp [events, recent, Event.forgets, Event.positions, e]

end Index

end Phrasebook
