import Phrasebook.Proofs.Numbering
import Phrasebook.Scene
import Phrasebook.Script

/-!
The keys of entries that are found together.

Entries are numbered one after another (`Index.assignAll`), which fails only where the numbers run out
(`Index.assignAll_eq_error_iff`). What is found in a script and what is found in a scene is given keys by
these numbers, and nothing else of it is changed (`Script.map_assignKeys`, `Scene.map_assignKeys`).
-/
namespace Phrasebook

namespace Index

variable {x y z : Index} {e d : Entry} {es ds : List Entry} {ns ms : List UInt64} {n : UInt64}
  {asked fs : List Text} {f : Text} {fault : Fault}

/-- The numbers of entries, one after another. -/
def assignAll (x : Index) : List Entry → Except Fault (List UInt64 × Index)
  | [] => .ok ([], x)
  | e :: es => do
    let (n, x) ← x.assignEntry e
    let (ns, x) ← assignAll x es
    return (n :: ns, x)

theorem assignAll_cons_eq_ok_iff : x.assignAll (e :: es) = .ok (ms, z) ↔
    ∃ n y ns, x.assignEntry e = .ok (n, y) ∧ y.assignAll es = .ok (ns, z) ∧ ms = n :: ns := by
  simp only [assignAll, bind_ok_iff, Prod.exists]
  constructor
  · rintro ⟨n, y, hy, ns, z', hz, h⟩
    cases h
    exact ⟨n, y, ns, hy, hz, rfl⟩
  · rintro ⟨n, y, ns, hy, hz, rfl⟩
    exact ⟨n, y, hy, ns, z, hz, rfl⟩

theorem assignAll_cons_eq_error_iff : x.assignAll (e :: es) = .error fault ↔
    x.assignEntry e = .error fault ∨
      ∃ n y, x.assignEntry e = .ok (n, y) ∧ y.assignAll es = .error fault := by
  simp only [assignAll, bind_error_iff, Prod.exists]
  simp [pure, Except.pure]

theorem length_assignAll (h : x.assignAll es = .ok (ns, y)) : ns.length = es.length := by
  induction es generalizing x ns with
  | nil =>
    cases h
    rfl
  | cons e es ih =>
    obtain ⟨n, z, ms, -, hz, rfl⟩ := assignAll_cons_eq_ok_iff.1 h
    rw [List.length_cons, List.length_cons, ih hz]

/-- What is kept up by every number that is given is kept up by all of them. -/
theorem assignAll_induction {P : Index → Prop} (hx : P x) (h : x.assignAll es = .ok (ns, y))
    (hstep : ∀ e n y z, P y → y.assignEntry e = .ok (n, z) → P z) : P y := by
  induction es generalizing x ns with
  | nil =>
    cases h
    exact hx
  | cons e es ih =>
    obtain ⟨n, z, ms, hz, hy, -⟩ := assignAll_cons_eq_ok_iff.1 h
    exact ih (hstep e n x z hx hz) hy

theorem Sound.assignAll (hx : x.Sound) (h : x.assignAll es = .ok (ns, y)) : y.Sound :=
  assignAll_induction hx h fun e _ _ _ hy hz => (hy.note e.fingerprint e.positions).assign hz

theorem lookup_assignAll (h : x.assignAll es = .ok (ns, y)) (hf : x.lookup f = some n) :
    y.lookup f = some n :=
  assignAll_induction (P := fun y => y.lookup f = some n) hf h
    fun _ _ _ _ hy hz => lookup_assign hz hy

/-- The numbers given are those that are found afterwards. -/
theorem forall₂_assignAll (h : x.assignAll es = .ok (ns, y)) :
    List.Forall₂ (fun e n => y.lookup e.fingerprint = some n) es ns := by
  induction es generalizing x ns with
  | nil =>
    cases h
    exact .nil
  | cons e es ih =>
    obtain ⟨n, z, ms, hz, hy, rfl⟩ := assignAll_cons_eq_ok_iff.1 h
    exact .cons (lookup_assignAll hy (lookup_self_assign hz)) (ih hy)

theorem Numbered.assignAll (hx : x.Numbered asked) (h : x.assignAll es = .ok (ns, y)) :
    y.Numbered (asked ++ es.map Entry.fingerprint) := by
  induction es generalizing x ns asked with
  | nil =>
    cases h
    simpa using hx
  | cons e es ih =>
    obtain ⟨n, z, ms, hz, hy, -⟩ := assignAll_cons_eq_ok_iff.1 h
    have hnoted : (x.note e.fingerprint e.positions).Numbered asked := hx.congr rfl rfl
    rw [List.map_cons, List.append_cons]
    exact ih (hnoted.assign hz) hy

/-! ### Running out of numbers -/

/-- The fingerprints that have no number yet, each once. -/
def unnumbered (x : Index) (fs : List Text) : List Text :=
  (fs.filter fun f => (x.lookup f).isNone).eraseDups

/-- There are not enough numbers above the counter for fingerprints that have none. -/
def RunsOut (x : Index) (fs : List Text) : Prop :=
  UInt64.size ≤ x.counter.toNat + (x.unnumbered fs).length

theorem length_unnumbered_le (x : Index) (fs : List Text) : (x.unnumbered fs).length ≤ fs.length :=
  Nat.le_trans (length_eraseDups_le _) (List.length_filter_le _ _)

theorem unnumbered_cons_of_some (h : x.lookup f = some n) :
    x.unnumbered (f :: fs) = x.unnumbered fs := by
  rw [unnumbered, List.filter_cons_of_neg (by simp [h])]
  rfl

theorem unnumbered_cons_of_none (h : x.lookup f = none) :
    x.unnumbered (f :: fs) = f :: (x.give f).unnumbered fs := by
  rw [unnumbered, List.filter_cons_of_pos (by simp [h]), List.eraseDups_cons, List.filter_filter,
    unnumbered]
  congr 2
  refine List.filter_congr fun g _ => ?_
  rw [lookup_give]
  by_cases hg : f = g
  · simp [hg]
  · simp [hg, Ne.symm hg]

/-- Numbering fails only where the numbers run out. -/
theorem assignAll_eq_error_iff : x.assignAll es = .error fault ↔
    fault = .overflow ∧ x.RunsOut (es.map Entry.fingerprint) := by
  induction es generalizing x with
  | nil =>
    have hroom : ¬ x.RunsOut [] := Nat.not_le.2 x.counter.toNat_lt_size
    simp [assignAll, hroom]
  | cons e es ih =>
    rw [assignAll_cons_eq_error_iff, assignEntry, List.map_cons]
    -- Where entries were seen has no part in any of the numbers.
    have hnoted : (x.note e.fingerprint e.positions).RunsOut = x.RunsOut := rfl
    rw [← hnoted]
    generalize x.note e.fingerprint e.positions = x
    rcases x.assign_cases e.fingerprint with ⟨n, hf, h⟩ | ⟨hf, hroom, h⟩ | ⟨hf, hfull, h⟩
    · have hsame : x.RunsOut (e.fingerprint :: es.map Entry.fingerprint) ↔
          x.RunsOut (es.map Entry.fingerprint) := by
        rw [RunsOut, unnumbered_cons_of_some hf, RunsOut]
      rw [h, hsame]
      simpa using ih
    · have hmore : (x.give e.fingerprint).RunsOut (es.map Entry.fingerprint) ↔
          x.RunsOut (e.fingerprint :: es.map Entry.fingerprint) := by
        have hnext : (x.give e.fingerprint).counter.toNat = x.counter.toNat + 1 :=
          toNat_succ hroom
        rw [RunsOut, RunsOut, unnumbered_cons_of_none hf, hnext, List.length_cons]
        omega
      rw [h, ← hmore]
      simpa using ih
    · have hout : x.RunsOut (e.fingerprint :: es.map Entry.fingerprint) := by
        rw [RunsOut, unnumbered_cons_of_none hf, List.length_cons]
        omega
      rw [h]
      simp [hout, eq_comm]

/-! ### Indexes with the same numbers -/

/-- Two indexes that give the same numbers, whatever was seen where. -/
structure Same (x y : Index) : Prop where
  counter : x.counter = y.counter
  numbers : x.numbers = y.numbers

theorem Same.assignEntry (h : x.Same y) (he : d.fingerprint = e.fingerprint) :
    (∃ n x' y', x.assignEntry e = .ok (n, x') ∧ y.assignEntry d = .ok (n, y') ∧ x'.Same y') ∨
    (x.assignEntry e = .error .overflow ∧ y.assignEntry d = .error .overflow) := by
  obtain ⟨counter, numbers, seen⟩ := x
  obtain ⟨counter', numbers', seen'⟩ := y
  obtain ⟨hc, hn⟩ := h
  cases hc
  cases hn
  simp only [Index.assignEntry, he, note, assign, lookup]
  cases Table.get? numbers e.fingerprint with
  | some n => exact .inl ⟨n, _, _, rfl, rfl, rfl, rfl⟩
  | none =>
    simp only [succ]
    split
    · exact .inl ⟨_, _, _, rfl, rfl, rfl, rfl⟩
    · exact .inr ⟨rfl, rfl⟩

/-- They number the same fingerprints in the same way. -/
theorem Same.assignAll (h : x.Same y) (hes : ds.map Entry.fingerprint = es.map Entry.fingerprint) :
    (∃ ns x' y', x.assignAll es = .ok (ns, x') ∧ y.assignAll ds = .ok (ns, y') ∧ x'.Same y') ∨
    (x.assignAll es = .error .overflow ∧ y.assignAll ds = .error .overflow) := by
  induction es generalizing x y ds with
  | nil =>
    obtain rfl := List.map_eq_nil_iff.1 hes
    exact .inl ⟨[], x, y, rfl, rfl, h⟩
  | cons e es ih =>
    obtain ⟨d, ds, rfl, he, hes⟩ := List.map_eq_cons_iff.1 hes
    simp only [assignAll_cons_eq_ok_iff, assignAll_cons_eq_error_iff]
    rcases h.assignEntry he with ⟨n, x', y', hx, hy, hsame⟩ | ⟨hx, hy⟩
    · rcases ih hsame hes with ⟨ns, x'', y'', hx', hy', hsame'⟩ | ⟨hx', hy'⟩
      · exact .inl ⟨n :: ns, x'', y'', ⟨n, x', ns, hx, hx', rfl⟩, ⟨n, y', ns, hy, hy', rfl⟩, hsame'⟩
      · exact .inr ⟨.inr ⟨n, x', hx, hx'⟩, .inr ⟨n, y', hy, hy'⟩⟩
    · exact .inr ⟨.inl hx, .inl hy⟩

/-- All numbers of one index are numbers of another. -/
def Within (x y : Index) : Prop := ∀ f n, x.lookup f = some n → y.lookup f = some n

/-- An index in which all numbers were given already gives the same ones, and gives none anew. -/
theorem Within.assignAll (h : x.assignAll es = .ok (ns, z)) (hy : z.Within y) :
    ∃ y', y.assignAll es = .ok (ns, y') ∧ y.Same y' := by
  have hnumbers := forall₂_assignAll h
  clear h
  induction hnumbers generalizing y with
  | nil => exact ⟨y, rfl, rfl, rfl⟩
  | @cons e n es ns he _ ih =>
    have hfirst : y.assignEntry e = .ok (n, y.note e.fingerprint e.positions) :=
      assign_of_some (hy _ _ he)
    obtain ⟨y', hy', hcounter, hnumbers⟩ := @ih (y.note e.fingerprint e.positions) hy
    exact ⟨y', assignAll_cons_eq_ok_iff.2 ⟨n, _, ns, hfirst, hy', rfl⟩, hcounter, hnumbers⟩

end Index

/-- Of pairs only the first members count, if there are enough of the second. -/
theorem map_zipWith_left {α β γ δ : Type} {f : γ → δ} {g : α → β → γ} {k : α → δ}
    (h : ∀ a b, f (g a b) = k a) {as : List α} {bs : List β} (hlen : bs.length = as.length) :
    (List.zipWith g as bs).map f = as.map k := by
  rw [List.map_zipWith]
  induction as generalizing bs with
  | nil => rfl
  | cons a as ih =>
    cases bs with
    | nil => cases hlen
    | cons b bs =>
      rw [List.zipWith_cons_cons, h, ih (Nat.succ.inj hlen), List.map_cons]

namespace Scene

variable {stem : Text} {x y : Index} {es keyed : List Entry} {fault : Fault} {α : Type}

/-- Keys are made of numbers. -/
theorem assignKeys_eq (stem : Text) (x : Index) (es : List Entry) :
    assignKeys stem x es = (x.assignAll es).map fun (ns, y) =>
      (List.zipWith (fun e n => e.withKey stem n.toNat) es ns, y) := by
  induction es generalizing x with
  | nil => rfl
  | cons e es ih =>
    rw [assignKeys, Index.assignAll]
    cases x.assignEntry e with
    | error fault => rfl
    | ok r =>
      obtain ⟨n, y⟩ := r
      simp only [bind, Except.bind, ih]
      cases y.assignAll es <;> rfl

theorem assignKeys_eq_ok_iff : assignKeys stem x es = .ok (keyed, y) ↔
    ∃ ns, x.assignAll es = .ok (ns, y) ∧
      keyed = List.zipWith (fun e n => e.withKey stem n.toNat) es ns := by
  rw [assignKeys_eq, map_ok_iff]
  simp [eq_comm]

theorem assignKeys_eq_error_iff : assignKeys stem x es = .error fault ↔
    fault = .overflow ∧ x.RunsOut (es.map Entry.fingerprint) := by
  rw [assignKeys_eq, map_error_iff, Index.assignAll_eq_error_iff]

/-- Keys change nothing else. -/
theorem map_assignKeys {f : Entry → α} (hf : ∀ e n, f (e.withKey stem n) = f e)
    (h : assignKeys stem x es = .ok (keyed, y)) : keyed.map f = es.map f := by
  obtain ⟨ns, hns, rfl⟩ := assignKeys_eq_ok_iff.1 h
  exact map_zipWith_left (fun e n => hf e n.toNat) (Index.length_assignAll hns)

end Scene

namespace Script

variable {stem : Text} {x y : Index} {items keyed : List Item} {fault : Fault} {α : Type}

/-- Keys are made of numbers. -/
theorem assignKeys_eq (stem : Text) (x : Index) (items : List Item) :
    assignKeys stem x items = (x.assignAll (items.map (·.entry))).map fun (ns, y) =>
      (List.zipWith (fun item n => { item with entry := item.entry.withKey stem n.toNat }) items ns,
        y) := by
  induction items generalizing x with
  | nil => rfl
  | cons item items ih =>
    rw [assignKeys, List.map_cons, Index.assignAll]
    cases x.assignEntry item.entry with
    | error fault => rfl
    | ok r =>
      obtain ⟨n, y⟩ := r
      simp only [bind, Except.bind, ih]
      cases y.assignAll (items.map (·.entry)) <;> rfl

theorem assignKeys_eq_ok_iff : assignKeys stem x items = .ok (keyed, y) ↔
    ∃ ns, x.assignAll (items.map (·.entry)) = .ok (ns, y) ∧
      keyed = List.zipWith
        (fun item n => { item with entry := item.entry.withKey stem n.toNat }) items ns := by
  rw [assignKeys_eq, map_ok_iff]
  simp [eq_comm]

theorem assignKeys_eq_error_iff : assignKeys stem x items = .error fault ↔
    fault = .overflow ∧ x.RunsOut (items.map (·.entry.fingerprint)) := by
  rw [assignKeys_eq, map_error_iff, Index.assignAll_eq_error_iff, List.map_map]
  rfl

/-- Keys change nothing else. -/
theorem map_assignKeys {f : Item → α}
    (hf : ∀ item n, f { item with entry := item.entry.withKey stem n } = f item)
    (h : assignKeys stem x items = .ok (keyed, y)) : keyed.map f = items.map f := by
  obtain ⟨ns, hns, rfl⟩ := assignKeys_eq_ok_iff.1 h
  refine map_zipWith_left (fun item (n : UInt64) => hf item n.toNat) ?_
  rw [Index.length_assignAll hns, List.length_map]

/-- The items of a script are given keys as their entries are. -/
theorem assignKeys_entries (stem : Text) (x : Index) (items : List Item) :
    Scene.assignKeys stem x (items.map (·.entry)) =
      (assignKeys stem x items).map fun (keyed, y) => (keyed.map (·.entry), y) := by
  rw [assignKeys_eq, Scene.assignKeys_eq]
  cases x.assignAll (items.map (·.entry)) with
  | error fault => rfl
  | ok r => simp [Except.map, List.map_zipWith, List.zipWith_map_left]

/-! ### Scripts that are parsed as a whole -/

variable {rules : CallRules} {content : Text} {x' : Index} {script : Script}

/-- A script with a tree has the items of the tree, with keys. -/
theorem parse_of_ofScript {t : Tree} (ht : Tree.ofScript content.normalize = .ok t) :
    parse rules stem content x = (assignKeys stem x (Item.collect (t.finds rules))).map
      fun (items, x') => (⟨stem, .tree t, items, []⟩, x') := by
  simp only [parse, ht]
  cases assignKeys stem x (Item.collect (t.finds rules)) <;> rfl

theorem parse_eq_ok_iff : parse rules stem content x = .ok (script, x') ↔
    ∃ t items, Tree.ofScript content.normalize = .ok t ∧
      assignKeys stem x (Item.collect (t.finds rules)) = .ok (items, x') ∧
      script = ⟨stem, .tree t, items, []⟩ := by
  cases ht : Tree.ofScript content.normalize with
  | error e => simp [parse, ht]
  | ok t =>
    rw [parse_of_ofScript ht, map_ok_iff]
    simp [eq_comm]

theorem parse_eq_error_iff : parse rules stem content x = .error fault ↔
    (∃ e, Tree.ofScript content.normalize = .error e ∧ fault = .ofParseError content.normalize e) ∨
    ∃ t, Tree.ofScript content.normalize = .ok t ∧ fault = .overflow ∧
      x.RunsOut ((Item.collect (t.finds rules)).map (·.entry.fingerprint)) := by
  cases ht : Tree.ofScript content.normalize with
  | error e => simp [parse, ht, eq_comm]
  | ok t =>
    rw [parse_of_ofScript ht, map_error_iff, assignKeys_eq_error_iff]
    simp

end Script

end Phrasebook
