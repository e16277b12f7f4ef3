import Phrasebook.Proofs.Numbering

/-!
New numbers.

A new fingerprint is given the counter, which no fingerprint has as long as the counter is above all
numbers. It is above them in every index that is read from a text (`Index.clear_of_parse`), and stays
there whatever is asked for (`Index.Clear.ask`), so that no number is given twice
(`Index.fresh_of_parse`). But the numbers can run out: a text with the greatest number of all ends the
program when it is read (`Index.parse_eq_overflow_iff`), and one with the greatest counter when the next
new fingerprint is asked for.
-/
namespace Phrasebook

namespace Index

variable {x y z : Index} {t f : Text} {n : UInt64} {asked : List Text}

/-! ### Reading -/

/-- All that reading a text can come to once it is known which index is written in it. -/
theorem parse_of_stored {value : Json} {rest : Text} (hleading : Json.leading? t = some (value, rest))
    (hstored : stored? value = some x) : parse t =
      (x.repair.bind fun y => if (Json.skipGap rest).isEmpty then .ok y else .error .data) := by
  simp only [parse, hleading, ofJson, hstored]
  rfl

/-- A text that can be read at all begins with an index. -/
theorem exists_stored (h : parse t ≠ .error .data) : ∃ value rest x,
    Json.leading? t = some (value, rest) ∧ stored? value = some x := by
  rw [parse] at h
  cases hleading : Json.leading? t with
  | none =>
    rw [hleading] at h
    exact absurd rfl h
  | some read =>
    obtain ⟨value, rest⟩ := read
    cases hstored : stored? value with
    | none =>
      simp only [hleading, ofJson, hstored] at h
      exact absurd rfl h
    | some x => exact ⟨value, rest, x, rfl, hstored⟩

/-- The counter of an index that was read is above all its numbers. -/
theorem clear_of_parse (h : parse t = .ok x) : x.Clear := by
  obtain ⟨value, rest, y, hleading, hstored⟩ := exists_stored (t := t) (by rw [h]; nofun)
  rw [parse_of_stored hleading hstored] at h
  rcases y.repair_cases with ⟨z, hz, hrepaired⟩ | ⟨hfull, -⟩
  · rw [hz] at h
    simp only [Except.bind] at h
    split at h
    · cases h
      exact hrepaired.clear
    · cases h
  · rw [hfull] at h
    cases h

/-- There is no place for the counter exactly if the greatest number of all is taken. -/
theorem parse_eq_overflow_iff : parse t = .error .overflow ↔ ∃ value rest x,
    Json.leading? t = some (value, rest) ∧ stored? value = some x ∧
      ∃ e ∈ x.numbers, e.2.toNat + 1 = UInt64.size := by
  constructor
  · intro h
    obtain ⟨value, rest, y, hleading, hstored⟩ := exists_stored (t := t) (by rw [h]; nofun)
    refine ⟨value, rest, y, hleading, hstored, ?_⟩
    rw [parse_of_stored hleading hstored] at h
    rcases y.repair_cases with ⟨z, hz, -⟩ | ⟨-, hfull⟩
    · rw [hz] at h
      simp only [Except.bind] at h
      split at h <;> cases h
    · exact hfull
  · rintro ⟨value, rest, y, hleading, hstored, e, he, hfull⟩
    rw [parse_of_stored hleading hstored]
    rcases y.repair_cases with ⟨z, -, hrepaired⟩ | ⟨hover, -⟩
    · have hlt := hrepaired.clear e (hrepaired.numbers ▸ he)
      have hsize := z.counter.toNat_lt_size
      omega
    · rw [hover]
      rfl

/-- With the greatest number taken, the number after it is asked for when the text is read. -/
theorem parse_greatest :
    let t := Text.of "\x7b\"counter\":0,\"indexes\":\x7b\"A\":18446744073709551615,\"Z\":0\x7d\x7d"
    (Json.read t).bind stored? =
        some ⟨0, [(Text.of "A", 18446744073709551615), (Text.of "Z", 0)], []⟩ ∧
      parse t = .error .overflow := by
  decide +kernel

/-! ### Asking -/

/-- The index after requests for fingerprints. -/
def ask (x : Index) (asked : List Text) : Except Fault Index :=
  asked.foldlM (fun x f => (x.assign f).map (·.2)) x

/-- The last request comes after the others. -/
theorem ask_concat_eq_ok_iff : x.ask (asked ++ [f]) = .ok z ↔
    ∃ y n, x.ask asked = .ok y ∧ y.assign f = .ok (n, z) := by
  rw [ask, List.foldlM_append, ← ask, bind_ok_iff]
  simp only [List.foldlM_cons, List.foldlM_nil, bind_pure, map_ok_iff]
  constructor
  · rintro ⟨y, hy, ⟨n, z⟩, hz, rfl⟩
    exact ⟨y, n, hy, hz⟩
  · rintro ⟨y, n, hy, hz⟩
    exact ⟨y, hy, (n, z), hz, rfl⟩

/-- A new fingerprint is given a number that no other has, and the counter moves on by one. -/
theorem Clear.fresh (h : x.Clear) (hf : x.lookup f = none) (ha : x.assign f = .ok (n, y)) :
    (∀ e ∈ x.numbers, e.2 ≠ n) ∧ y.counter.toNat = x.counter.toNat + 1 := by
  rcases eq_of_assign ha with ⟨hsome, -⟩ | ⟨-, hroom, rfl, rfl⟩
  · rw [hf] at hsome
    cases hsome
  · refine ⟨?_, toNat_succ hroom⟩
    rintro e he heq
    have hlt := h e he
    rw [heq] at hlt
    exact Nat.lt_irrefl _ hlt

/-- The counter stays above all numbers, and grows with the number of fingerprints. -/
theorem Clear.ask (h : x.Clear) (hask : x.ask asked = .ok y) :
    y.Clear ∧ y.counter.toNat + x.size = x.counter.toNat + y.size := by
  induction asked using List.reverseRecOn generalizing y with
  | nil =>
    cases hask
    exact ⟨h, rfl⟩
  | append_singleton asked f ih =>
    obtain ⟨z, n, hz, hy⟩ := ask_concat_eq_ok_iff.1 hask
    obtain ⟨hclear, hcounter⟩ := ih hz
    refine ⟨hclear.assign hy, ?_⟩
    rcases eq_of_assign hy with ⟨-, rfl⟩ | ⟨-, hroom, -, rfl⟩
    · exact hcounter
    · have hnext : (z.give f).counter.toNat = z.counter.toNat + 1 := toNat_succ hroom
      have hsize : (z.give f).size = z.size + 1 := List.length_append
      rw [hnext, hsize]
      omega

/-- Whatever an index that was read is asked for, a new fingerprint is given a number that no other has
and the counter moves on by one, or there is no next number. -/
theorem fresh_of_parse (h : parse t = .ok x) (hask : x.ask asked = .ok y)
    (hnew : y.lookup f = none) :
    (∃ n z, y.assign f = .ok (n, z) ∧ (∀ e ∈ y.numbers, e.2 ≠ n) ∧
      z.counter.toNat = y.counter.toNat + 1) ∨
    (y.assign f = .error .overflow ∧ y.counter.toNat + 1 = UInt64.size) := by
  obtain ⟨hclear, -⟩ := (clear_of_parse h).ask hask
  rcases y.assign_cases f with ⟨n, hf, -⟩ | ⟨hf, -, ha⟩ | ⟨-, hfull, ha⟩
  · rw [hnew] at hf
    cases hf
  · exact .inl ⟨_, _, ha, hclear.fresh hf ha⟩
  · exact .inr ⟨ha, hfull⟩

/-- From the greatest counter there is no next one, and no new fingerprint is given a number. -/
theorem parse_last :
    let t := Text.of "\x7b\"counter\":18446744073709551615,\"indexes\":\x7b\"Z\":0\x7d\x7d"
    ∃ x, parse t = .ok x ∧ x.Clear ∧ x.lookup (Text.of "A") = none ∧
      x.assign (Text.of "A") = .error .overflow := by
  intro t
  have hx : parse t = .ok ⟨18446744073709551615, [(Text.of "Z", 0)], []⟩ := by decide +kernel
  exact ⟨_, hx, clear_of_parse hx, by decide +kernel⟩

end Index

end Phrasebook
