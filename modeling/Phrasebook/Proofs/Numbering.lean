import Mathlib.Data.List.Induction
import Mathlib.Data.List.Nodup
import Phrasebook.Index
import Phrasebook.Proofs.JsonText
import Phrasebook.Proofs.Outcomes
import Phrasebook.Proofs.Tables

/-!
The numbers of fingerprints.

The counter of an index is above all numbers given (`Index.Sound`). Asking keeps this up unless there
is no next number (`Index.assign_cases`), and so does writing the index and reading it again, where the
counter need not be repaired (`Index.parse_render`).

`Index.Numbered asked x` ties an index to the fingerprints that it was asked for: those have the numbers
0, 1, 2 and so on, in the order in which they were first asked for. Asking keeps this up as well
(`Index.Numbered.assign`).
-/
namespace Phrasebook

namespace Json

/-- The fields of an object without repeated keys make a table in the same order. -/
theorem map?_object {α : Type} {decode : Json → Option α} {fields : List (Text × Json)}
    {table : Table α}
    (h : List.Forall₂ (fun f e => f.1 = e.1 ∧ decode f.2 = some e.2) fields table)
    (hkeys : (table.map (·.1)).Nodup) :
    map? decode (.object (fields.map fun f => (some f.1, f.2))) = some table := by
  refine Table.foldlM_put (List.forall₂_map_left_iff.2 (h.imp ?_)) hkeys
  rintro ⟨key, value⟩ ⟨_, a⟩ ⟨rfl, hvalue⟩ t
  simp [hvalue]

theorem word?_nat (n : UInt64) : (nat n.toNat).word? = some n := by
  have hdigits : (Text.ofNat n.toNat).all Char.isDigit = true :=
    List.all_eq_true.2 fun c hc => isDigit_of_mem_ofNat hc
  have hvalue : ofDigits (Text.ofNat n.toNat) = n.toNat := by
    have hnat := @Nat.ofDigitChars_ten_toDigits n.toNat
    rw [Nat.ofDigitChars_eq_foldl] at hnat
    exact hnat
  rw [nat, word?, hvalue, if_pos ⟨hdigits, n.toNat_lt_size⟩, UInt64.ofNat_toNat]

end Json

namespace Index

variable {x y : Index} {asked : List Text} {f g : Text} {n m : UInt64}

/-- The counter is above all numbers given. -/
def Clear (x : Index) : Prop := ∀ e ∈ x.numbers, e.2.toNat < x.counter.toNat

/-- No fingerprint is repeated, and the next number is free. -/
structure Sound (x : Index) : Prop where
  nodup : (x.numbers.map (·.1)).Nodup
  clear : x.Clear

theorem sound_empty : empty.Sound := ⟨List.nodup_nil, by simp [Clear, empty]⟩

/-- Where fingerprints were seen has no part in it. -/
theorem Sound.note (h : x.Sound) (f : Text) (ps : List Position) : (x.note f ps).Sound :=
  ⟨h.nodup, h.clear⟩

theorem Sound.clearPositions (h : x.Sound) : x.clearPositions.Sound := ⟨h.nodup, h.clear⟩

/-! ### Asking -/

theorem toNat_succ (h : n.toNat + 1 < UInt64.size) : (n + 1).toNat = n.toNat + 1 := by
  rw [UInt64.toNat_add]
  exact Nat.mod_eq_of_lt h

/-- The index after a new fingerprint has been given the counter. -/
def give (x : Index) (f : Text) : Index :=
  { x with counter := x.counter + 1, numbers := x.numbers ++ [(f, x.counter)] }

theorem assign_of_some (h : x.lookup f = some n) : x.assign f = .ok (n, x) := by rw [assign, h]

theorem assign_of_none (h : x.lookup f = none) (hroom : x.counter.toNat + 1 < UInt64.size) :
    x.assign f = .ok (x.counter, x.give f) := by
  rw [assign, h, succ, if_pos hroom]
  rfl

theorem assign_of_full (h : x.lookup f = none) (hfull : ¬ x.counter.toNat + 1 < UInt64.size) :
    x.assign f = .error .overflow := by
  rw [assign, h, succ, if_neg hfull]
  rfl

/-- All that asking can come to: the number that is there, the counter, or none. -/
theorem assign_cases (x : Index) (f : Text) :
    (∃ n, x.lookup f = some n ∧ x.assign f = .ok (n, x)) ∨
    (x.lookup f = none ∧ x.counter.toNat + 1 < UInt64.size ∧
      x.assign f = .ok (x.counter, x.give f)) ∨
    (x.lookup f = none ∧ x.counter.toNat + 1 = UInt64.size ∧ x.assign f = .error .overflow) := by
  cases h : x.lookup f with
  | some n => exact .inl ⟨n, rfl, assign_of_some h⟩
  | none =>
    by_cases hroom : x.counter.toNat + 1 < UInt64.size
    · exact .inr (.inl ⟨rfl, hroom, assign_of_none h hroom⟩)
    · have hsize := x.counter.toNat_lt_size
      exact .inr (.inr ⟨rfl, by omega, assign_of_full h hroom⟩)

/-- What asking has come to, if it has come to a number. -/
theorem eq_of_assign (h : x.assign f = .ok (n, y)) :
    (x.lookup f = some n ∧ y = x) ∨
    (x.lookup f = none ∧ x.counter.toNat + 1 < UInt64.size ∧ n = x.counter ∧ y = x.give f) := by
  rcases x.assign_cases f with ⟨m, hf, hm⟩ | ⟨hf, hroom, hm⟩ | ⟨-, -, hm⟩ <;>
    rw [hm] at h <;> cases h
  · exact .inl ⟨hf, rfl⟩
  · exact .inr ⟨hf, hroom, rfl, rfl⟩

theorem lookup_give (x : Index) (f g : Text) :
    (x.give f).lookup g = (x.lookup g).or (if f = g then some x.counter else none) := by
  rw [lookup, give, Table.get?_append, Table.get?_singleton]
  rfl

theorem lookup_self_assign (h : x.assign f = .ok (n, y)) : y.lookup f = some n := by
  rcases eq_of_assign h with ⟨hf, rfl⟩ | ⟨hf, -, rfl, rfl⟩
  · exact hf
  · rw [lookup_give, hf, if_pos rfl]
    rfl

/-- Asking changes no number that is there. -/
theorem lookup_assign (h : x.assign f = .ok (n, y)) (hg : x.lookup g = some m) :
    y.lookup g = some m := by
  rcases eq_of_assign h with ⟨-, rfl⟩ | ⟨-, -, -, rfl⟩
  · exact hg
  · rw [lookup_give, hg]
    rfl

theorem Clear.assign (hx : x.Clear) (h : x.assign f = .ok (n, y)) : y.Clear := by
  rcases eq_of_assign h with ⟨-, rfl⟩ | ⟨-, hroom, -, rfl⟩
  · exact hx
  · intro e he
    have hnext : (x.give f).counter.toNat = x.counter.toNat + 1 := toNat_succ hroom
    rw [hnext]
    rcases List.mem_append.1 he with he | he
    · exact Nat.lt_succ_of_lt (hx e he)
    · rw [List.mem_singleton.1 he]
      exact Nat.lt_succ_self _

theorem Sound.assign (hx : x.Sound) (h : x.assign f = .ok (n, y)) : y.Sound := by
  refine ⟨?_, hx.clear.assign h⟩
  rcases eq_of_assign h with ⟨-, rfl⟩ | ⟨hf, -, -, rfl⟩
  · exact hx.nodup
  · rw [give, ← Table.put_eq (Table.get?_eq_none_iff.1 hf)]
    exact Table.nodup_put hx.nodup f x.counter

/-! ### Writing and reading -/

/-- The index as it is when it has been written and read again. -/
def reread (x : Index) : Index := ⟨x.counter, x.numbers.sorted, []⟩

theorem reread_empty : empty.reread = empty := by decide +kernel

theorem Sound.reread (h : x.Sound) : x.reread.Sound where
  nodup := (x.numbers.sorted_perm.map _).nodup_iff.2 h.nodup
  clear e he := h.clear e (x.numbers.sorted_perm.mem_iff.1 he)

theorem proper_toJson (x : Index) : x.toJson.Proper := by
  refine Json.proper_record fun e he => ?_
  rcases List.mem_cons.1 he with rfl | he
  · exact .nat _
  · obtain rfl := List.mem_singleton.1 he
    have hnumbers : ∀ e ∈ x.numbers.sorted.map fun e => (e.1, Json.nat e.2.toNat), e.2.Proper :=
      List.forall_mem_map.2 fun e _ => .nat e.2.toNat
    have hobject := Json.Proper.object hnumbers
    rw [List.map_map] at hobject
    exact hobject

theorem stored?_toJson (h : (x.numbers.map (·.1)).Nodup) : stored? x.toJson = some x.reread := by
  have hkeys : (x.numbers.sorted.map (·.1)).Nodup :=
    (x.numbers.sorted_perm.map _).nodup_iff.2 h
  have hnumbers : Json.map? Json.word?
      (.object (x.numbers.sorted.map fun e => (some e.1, Json.nat e.2.toNat))) =
        some x.numbers.sorted := by
    have hrow : List.Forall₂ (fun (f : Text × Json) (e : Text × UInt64) =>
        f.1 = e.1 ∧ f.2.word? = some e.2)
        (x.numbers.sorted.map fun e => (e.1, Json.nat e.2.toNat)) x.numbers.sorted := by
      rw [List.forall₂_map_left_iff, List.forall₂_same]
      exact fun e _ => ⟨rfl, Json.word?_nat e.2⟩
    have hmap := Json.map?_object hrow hkeys
    rw [List.map_map] at hmap
    exact hmap
  have hmembers : x.toJson.members? ["counter", "indexes"] =
      some [some (.nat x.counter.toNat),
        some (.object (x.numbers.sorted.map fun e => (some e.1, Json.nat e.2.toNat)))] := rfl
  simp only [stored?, hmembers, Json.orElse, Json.word?_nat, hnumbers, Option.bind_eq_bind,
    Option.bind_some]
  rfl

instance : Std.MaxEqOr UInt64 where
  max_eq_or a b := by
    change (if a ≤ b then b else a) = a ∨ (if a ≤ b then b else a) = b
    split
    · exact .inr rfl
    · exact .inl rfl

instance : Std.LawfulOrderSup UInt64 where
  max_le_iff a b c := by
    change (if a ≤ b then b else a) ≤ c ↔ _
    simp only [UInt64.le_iff_toNat_le]
    split <;> omega

theorem toNat_max (a b : UInt64) : (max a b).toNat = max a.toNat b.toNat := by
  change (if a ≤ b then b else a).toNat = _
  simp only [UInt64.le_iff_toNat_le]
  split <;> omega

/-- The counter is put where it is above all numbers, and not moved if it is there. -/
structure Repaired (x y : Index) : Prop where
  numbers : y.numbers = x.numbers
  clear : y.Clear
  eq_of_clear : x.Clear → y = x

/-- All that repairing can come to. -/
theorem repair_cases (x : Index) : (∃ y, x.repair = .ok y ∧ x.Repaired y) ∨
    (x.repair = .error .overflow ∧ ∃ e ∈ x.numbers, e.2.toNat + 1 = UInt64.size) := by
  rw [repair]
  cases hmax : (x.numbers.map (·.2)).max? with
  | none =>
    rw [List.max?_eq_none_iff, List.map_eq_nil_iff] at hmax
    have hcounter : max x.counter 0 = x.counter := UInt64.toNat_inj.1 (by simp [toNat_max])
    refine .inl ⟨_, rfl, rfl, ?_, fun _ => ?_⟩
    · simp [Clear, hmax]
    · rw [hcounter]
  | some n =>
    obtain ⟨top, htop, rfl⟩ := List.mem_map.1 (List.max?_mem hmax)
    have hle : ∀ e ∈ x.numbers, e.2.toNat ≤ top.2.toNat := fun e he =>
      UInt64.le_iff_toNat_le.1
        ((List.max?_le_iff hmax).1 (Std.le_refl _) e.2 (List.mem_map_of_mem he))
    by_cases hroom : top.2.toNat + 1 < UInt64.size
    · have hnext := toNat_succ hroom
      refine .inl ⟨{ x with counter := max x.counter (top.2 + 1) }, ?_, rfl, ?_, fun hclear => ?_⟩
      · simp only [succ, if_pos hroom]
        rfl
      · intro e he
        have hlt : e.2.toNat < (top.2 + 1).toNat := hnext ▸ Nat.lt_succ_of_le (hle e he)
        exact (toNat_max _ _).symm ▸ Nat.lt_of_lt_of_le hlt (Nat.le_max_right _ _)
      · have hlt := hclear top htop
        have hcounter : max x.counter (top.2 + 1) = x.counter :=
          UInt64.toNat_inj.1 (by rw [toNat_max, hnext, Nat.max_eq_left hlt])
        rw [hcounter]
    · have hsize := top.2.toNat_lt_size
      refine .inr ⟨?_, top, htop, by omega⟩
      simp only [succ, if_neg hroom]
      rfl

/-- A counter above all numbers is not moved. -/
theorem repair_of_clear (h : x.Clear) : x.repair = .ok x := by
  rcases x.repair_cases with ⟨y, hy, hrepaired⟩ | ⟨-, e, he, hfull⟩
  · rw [hy, hrepaired.eq_of_clear h]
  · have hlt := h e he
    have hsize := x.counter.toNat_lt_size
    omega

theorem ofJson_toJson (h : x.Sound) : ofJson x.toJson = .ok x.reread := by
  rw [ofJson, stored?_toJson h.nodup]
  exact repair_of_clear h.reread.clear

/-- An index can be read again. -/
theorem parse_render (h : x.Sound) : parse x.render = .ok x.reread := by
  have hleading := Json.leading?_of_written (Json.written_compact x.proper_toJson)
  rw [parse, render, hleading]
  simp only [ofJson_toJson h]
  rfl

/-! ### Order of first request -/

theorem getElem?_concat_eq_some_iff (fs : List Text) (f g : Text) (i : Nat) :
    (fs ++ [f])[i]? = some g ↔ fs[i]? = some g ∨ f = g ∧ i = fs.length := by
  rw [List.getElem?_append]
  split
  · next h =>
    have hne : i ≠ fs.length := Nat.ne_of_lt h
    simp [hne]
  · next h =>
    have hnone : fs[i]? = none := List.getElem?_eq_none (Nat.le_of_not_lt h)
    have hi : i - fs.length = 0 ↔ i = fs.length := by omega
    rw [List.getElem?_singleton, hnone]
    simp only [hi]
    by_cases heq : i = fs.length <;> simp [heq]

theorem eraseDups_concat (asked : List Text) (f : Text) :
    (asked ++ [f]).eraseDups = if f ∈ asked then asked.eraseDups else asked.eraseDups ++ [f] := by
  rw [List.eraseDups_append]
  by_cases h : f ∈ asked
  · simp [List.removeAll, h]
  · simp only [List.removeAll, h, if_false, List.filter_cons, List.elem_eq_mem, decide_false,
      Bool.not_false, if_true, List.filter_nil]
    rfl

theorem eraseDups_isPrefix (asked more : List Text) :
    asked.eraseDups <+: (asked ++ more).eraseDups := by
  rw [List.eraseDups_append]
  exact List.prefix_append _ _

theorem length_eraseDups_le (asked : List Text) : asked.eraseDups.length ≤ asked.length := by
  induction asked using List.reverseRecOn with
  | nil => exact Nat.le_refl _
  | append_singleton asked f ih =>
    rw [eraseDups_concat, List.length_append]
    split
    · exact Nat.le_succ_of_le ih
    · rw [List.length_append]
      exact Nat.add_le_add_right ih _

/-- The fingerprints asked for have the numbers from zero on, in the order in which they were first asked
for. -/
structure Numbered (asked : List Text) (x : Index) : Prop where
  nodup : (x.numbers.map (·.1)).Nodup
  counter : x.counter.toNat = asked.eraseDups.length
  size : x.size = asked.eraseDups.length
  lookup : ∀ f n, x.lookup f = some n ↔ asked.eraseDups[n.toNat]? = some f

theorem numbered_empty : empty.Numbered [] where
  nodup := List.nodup_nil
  counter := rfl
  size := rfl
  lookup := by simp [Index.lookup, empty, Table.get?]

/-- Where fingerprints were seen has no part in their numbers. -/
theorem Numbered.congr {y : Index} (h : x.Numbered asked) (hcounter : y.counter = x.counter)
    (hnumbers : y.numbers = x.numbers) : y.Numbered asked := by
  obtain ⟨counter, numbers, seen⟩ := y
  cases hcounter
  cases hnumbers
  exact ⟨h.nodup, h.counter, h.size, h.lookup⟩

/-- Two fingerprints never share a number. -/
theorem Numbered.unique (h : x.Numbered asked) (hf : x.lookup f = some n)
    (hg : x.lookup g = some n) : f = g := by
  have hf := (h.lookup f n).1 hf
  rw [(h.lookup g n).1 hg] at hf
  exact (Option.some.inj hf).symm

theorem Numbered.sound (h : x.Numbered asked) : x.Sound := by
  refine ⟨h.nodup, fun e he => ?_⟩
  have hlookup := (h.lookup e.1 e.2).1 ((Table.get?_eq_some_iff h.nodup).2 he)
  rw [h.counter]
  exact (List.getElem?_eq_some_iff.1 hlookup).1

/-- What was asked for has a number. -/
theorem Numbered.mem_iff (h : x.Numbered asked) : f ∈ asked ↔ (x.lookup f).isSome = true := by
  rw [← List.mem_eraseDups, Option.isSome_iff_exists, List.mem_iff_getElem?]
  constructor
  · rintro ⟨i, hi⟩
    have hlt := (List.getElem?_eq_some_iff.1 hi).1
    have hsize := x.counter.toNat_lt_size
    have hcounter := h.counter
    refine ⟨UInt64.ofNat i, (h.lookup f _).2 ?_⟩
    rw [UInt64.toNat_ofNat_of_lt' (by omega)]
    exact hi
  · rintro ⟨n, hn⟩
    exact ⟨n.toNat, (h.lookup f n).1 hn⟩

/-- Asking for a fingerprint gives it the next number if it is new, and changes nothing otherwise. -/
theorem Numbered.assign (hx : x.Numbered asked) (h : x.assign f = .ok (n, y)) :
    y.Numbered (asked ++ [f]) := by
  rcases eq_of_assign h with ⟨hf, rfl⟩ | ⟨hf, hroom, -, rfl⟩
  · have hmem : f ∈ asked := hx.mem_iff.2 (by rw [hf]; rfl)
    refine ⟨hx.nodup, ?_, ?_, ?_⟩ <;> rw [eraseDups_concat, if_pos hmem]
    · exact hx.counter
    · exact hx.size
    · exact hx.lookup
  · have hnew : f ∉ asked := by
      rw [hx.mem_iff, hf]
      simp
    have hasked : (asked ++ [f]).eraseDups = asked.eraseDups ++ [f] := by
      rw [eraseDups_concat, if_neg hnew]
    refine ⟨(hx.sound.assign h).nodup, ?_, ?_, ?_⟩
    · rw [hasked, List.length_append, ← hx.counter]
      exact toNat_succ hroom
    · rw [hasked, List.length_append, ← hx.size]
      exact List.length_append
    · intro g m
      have hcounter : m.toNat = asked.eraseDups.length ↔ x.counter = m := by
        rw [← hx.counter, ← UInt64.toNat_inj, eq_comm]
      rw [lookup_give, hasked, getElem?_concat_eq_some_iff, ← hx.lookup, hcounter]
      by_cases hg : f = g
      · subst hg
        simp [hf]
      · simp [hg]

/-- The numbers run out only after all of them have been given. -/
theorem Numbered.exists_assign (hx : x.Numbered asked)
    (hfew : (asked ++ [f]).eraseDups.length < UInt64.size) : ∃ n y, x.assign f = .ok (n, y) := by
  rcases x.assign_cases f with ⟨n, -, h⟩ | ⟨-, -, h⟩ | ⟨hf, hfull, -⟩
  · exact ⟨n, x, h⟩
  · exact ⟨_, _, h⟩
  · have hnew : f ∉ asked := by
      rw [hx.mem_iff, hf]
      simp
    rw [eraseDups_concat, if_neg hnew, List.length_append, ← hx.counter] at hfew
    exact absurd hfull (Nat.ne_of_lt hfew)

/-- Writing and reading again keeps all numbers. -/
theorem Numbered.reread (h : x.Numbered asked) :
    x.reread.Numbered asked ∧ ∀ f, x.reread.lookup f = x.lookup f := by
  have hlookup (f : Text) : x.reread.lookup f = x.lookup f :=
    Table.get?_perm x.numbers.sorted_perm h.nodup f
  refine ⟨⟨h.sound.reread.nodup, h.counter, ?_, ?_⟩, hlookup⟩
  · rw [← h.size]
    exact x.numbers.sorted_perm.length_eq
  · intro f n
    rw [hlookup, h.lookup]

end Index

end Phrasebook
