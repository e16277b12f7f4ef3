import Mathlib.Tactic.Common
import Phrasebook.Json.Decode
import Phrasebook.Json.Read
import Phrasebook.Json.Write

/-!
Reading what has been written.

`Json.Written j t` says that `t` is a text of the value `j`, with any blanks between its marks. Both ways
of writing give such a text (`Json.written_compact`, `Json.written_pretty`), and reading any of them gives
the value back (`Json.read_of_written`).
-/
namespace Phrasebook

namespace Json

variable {t rest g : Text} {c : Char} {j : Json} {n : Nat}

/-! ### Strings -/

/-- How a character stands in a string: behind a backslash as a letter, as a unit, or as itself. -/
theorem escape_cases (c : Char) :
    (∃ e, escape c = ['\\', e] ∧ escaped? e = some c) ∨
      (c.toNat < 0x20 ∧ escape c =
        ['\\', 'u', '0', '0', Nat.digitChar (c.toNat / 16), Nat.digitChar (c.toNat % 16)]) ∨
      (c ≠ '"' ∧ c ≠ '\\' ∧ ¬ c.toNat < 0x20 ∧ escape c = [c]) := by
  unfold escape
  split
  · next h => exact .inl ⟨'"', rfl, by rw [h]; rfl⟩
  split
  · next h => exact .inl ⟨'\\', rfl, by rw [h]; rfl⟩
  split
  · next h => exact .inl ⟨'b', rfl, by rw [h]; rfl⟩
  split
  · next h => exact .inl ⟨'f', rfl, by rw [h]; rfl⟩
  split
  · next h => exact .inl ⟨'n', rfl, by rw [h]; rfl⟩
  split
  · next h => exact .inl ⟨'r', rfl, by rw [h]; rfl⟩
  split
  · next h => exact .inl ⟨'t', rfl, by rw [h]; rfl⟩
  split
  · next h => exact .inr (.inl ⟨h, rfl⟩)
  · next h _ _ _ _ _ _ h' => exact .inr (.inr ⟨by assumption, by assumption, h', rfl⟩)

theorem hexValue?_digitChar (h : n < 16) : hexValue? (Nat.digitChar n) = some n := by
  revert n
  decide

/-- A character is read as one piece, which stands for it. -/
theorem exists_piece (c : Char) : ∃ p,
    (∀ rest, pieces (escape c ++ rest) = (pieces rest).map fun (ps, r) => (p :: ps, r)) ∧
      ∀ ps, assemble none (p :: ps) = (assemble none ps).map (c :: ·) := by
  rcases escape_cases c with ⟨e, he, hc⟩ | ⟨hlow, he⟩ | ⟨hquote, hslash, hlow, he⟩
  · refine ⟨.char c, fun rest => ?_, fun ps => rfl⟩
    have hu : e ≠ 'u' := by
      rintro rfl
      cases hc
    rw [he]
    simp only [List.cons_append, List.nil_append]
    rw [pieces.eq_4 e rest (fun _ _ _ _ _ h => absurd h hu), hc]
    cases pieces rest <;> rfl
  · have hunit : unitOf? '0' '0' (Nat.digitChar (c.toNat / 16)) (Nat.digitChar (c.toNat % 16)) =
        some c.toNat := by
      have hhigh := hexValue?_digitChar (n := c.toNat / 16) (by omega)
      have hlow := hexValue?_digitChar (n := c.toNat % 16) (by omega)
      have hzero : hexValue? '0' = some 0 := rfl
      simp only [unitOf?, hhigh, hlow, hzero, bind, Option.bind, pure]
      congr 1
      omega
    refine ⟨.unit c.toNat, fun rest => ?_, fun ps => ?_⟩
    · rw [he]
      simp only [List.cons_append, List.nil_append, pieces, hunit]
      cases pieces rest <;> rfl
    · have hhigh : isHigh c.toNat = false := by simp [isHigh]; omega
      have hlow : isLow c.toNat = false := by simp [isLow]; omega
      simp [assemble, hhigh, hlow]
  · refine ⟨.char c, fun rest => ?_, fun ps => rfl⟩
    rw [he, List.singleton_append, pieces.eq_5 c rest hquote (fun _ _ _ _ _ h => absurd h hslash)
      (fun _ _ h => absurd h hslash), if_neg (by simp [hslash, hlow])]
    cases pieces rest <;> rfl

/-- A string is read again, and what follows it stays. -/
theorem readString_quote (t rest : Text) :
    readString (t.flatMap escape ++ '"' :: rest) = some (some t, rest) := by
  induction t with
  | nil => rfl
  | cons c t ih =>
    obtain ⟨p, hpieces, hassemble⟩ := exists_piece c
    simp only [readString, Option.map_eq_some_iff, Prod.exists, Prod.mk.injEq] at ih ⊢
    obtain ⟨ps, r, hread, htext, rfl⟩ := ih
    refine ⟨p :: ps, r, ?_, ?_, rfl⟩
    · rw [List.flatMap_cons, List.append_assoc, hpieces, hread]
      rfl
    · rw [hassemble, htext]
      rfl

/-! ### Numbers -/

/-- Whether nothing that goes on with a number follows. -/
def Ends (rest : Text) : Prop :=
  ∀ c r, rest = c :: r → c.isDigit = false ∧ c ≠ '.' ∧ c ≠ 'e' ∧ c ≠ 'E'

theorem isDigit_of_mem_ofNat (h : c ∈ Text.ofNat n) : c.isDigit = true :=
  Nat.isDigit_of_mem_toDigits (by decide) (by decide) h

theorem ofNat_ne_nil (n : Nat) : Text.ofNat n ≠ [] := Nat.toDigits_ne_nil

/-- Only zero is written with a zero at its start. -/
theorem eq_zero_of_ofNat_cons {r : Text} (h : Text.ofNat n = '0' :: r) : n = 0 ∧ r = [] := by
  induction n using Nat.strongRecOn generalizing r with
  | ind n ih =>
    rw [Text.ofNat, Nat.toDigits_eq_if (by decide)] at h
    split at h
    · next hlt =>
      obtain ⟨hdigit, rfl⟩ := List.cons.inj h
      have hzero : ∀ k, k < 10 → Nat.digitChar k = '0' → k = 0 := by decide
      exact ⟨hzero n hlt hdigit, rfl⟩
    · next hge =>
      obtain ⟨d, ds, hds⟩ := List.exists_cons_of_ne_nil (ofNat_ne_nil (n / 10))
      rw [Text.ofNat] at hds
      rw [hds] at h
      obtain ⟨rfl, -⟩ := List.cons.inj h
      have := (ih (n / 10) (by omega) hds).1
      omega

theorem readDigits_append {ds : Text} (hne : ds ≠ []) (hds : ∀ c ∈ ds, c.isDigit = true)
    (hrest : Ends rest) : readDigits (ds ++ rest) = some (ds, rest) := by
  have htail : rest.takeWhile Char.isDigit = [] ∧ rest.dropWhile Char.isDigit = rest := by
    cases rest with
    | nil => exact ⟨rfl, rfl⟩
    | cons c r => simp [(hrest c r rfl).1]
  have htake : (ds ++ rest).takeWhile Char.isDigit = ds := by
    rw [List.takeWhile_append_of_pos hds, htail.1, List.append_nil]
  have hdrop : (ds ++ rest).dropWhile Char.isDigit = rest := by
    rw [List.dropWhile_append_of_pos hds, htail.2]
  rw [readDigits, htake, hdrop]
  cases ds with
  | nil => exact absurd rfl hne
  | cons => rfl

theorem readWhole_ofNat (n : Nat) (hrest : Ends rest) :
    readWhole (Text.ofNat n ++ rest) = some (Text.ofNat n, rest) := by
  obtain ⟨d, ds, hds⟩ := List.exists_cons_of_ne_nil (ofNat_ne_nil n)
  by_cases hzero : d = '0'
  · subst hzero
    obtain ⟨rfl, rfl⟩ := eq_zero_of_ofNat_cons hds
    rw [hds]
    rfl
  · have hread := readDigits_append (ofNat_ne_nil n) (fun c => isDigit_of_mem_ofNat) hrest
    unfold readWhole
    split
    · next h => simp_all
    · exact hread

theorem readNumber_ofNat (n : Nat) (hrest : Ends rest) :
    readNumber (Text.ofNat n ++ rest) = some (Text.ofNat n, rest) := by
  obtain ⟨d, ds, hds⟩ := List.exists_cons_of_ne_nil (ofNat_ne_nil n)
  have hdigit : d.isDigit = true := isDigit_of_mem_ofNat (n := n) (by simp [hds])
  have hsign : d ≠ '-' := by
    rintro rfl
    cases hdigit
  have hfraction : readFraction rest = some ([], rest) := by
    unfold readFraction
    split
    · next r => exact absurd rfl (hrest _ r rfl).2.1
    · rfl
  have hexponent : readExponent rest = some ([], rest) := by
    unfold readExponent
    split
    · next e r => simp [hrest e r rfl]
    · rfl
  have hwhole := readWhole_ofNat n hrest
  unfold readNumber
  split
  next sign u hu =>
  have hu : sign = [] ∧ u = Text.ofNat n ++ rest := by
    rw [hds] at hu ⊢
    split at hu <;> simp_all
  rw [hu.1, hu.2]
  simp [hwhole, hfraction, hexponent]

/-! ### Values -/

/-- Nothing but blanks. -/
def Gap (g : Text) : Prop := ∀ c ∈ g, isGap c = true

theorem gap_nil : Gap [] := by simp [Gap]

theorem skipGap_append (hg : Gap g) (hc : isGap c = false) (r : Text) :
    skipGap (g ++ c :: r) = c :: r := by
  rw [skipGap, List.dropWhile_append_of_pos hg, List.dropWhile_cons_of_neg (by simp [hc])]

mutual

/-- A text of a value. -/
inductive Written : Json → Text → Prop
  | null : Written .null (Text.of "null")
  | bool (b : Bool) : Written (.bool b) (Text.of (if b then "true" else "false"))
  | nat (n : Nat) : Written (.nat n) (Text.ofNat n)
  | string (t : Text) : Written (.string (some t)) (quote t)
  | noItems {g : Text} (hg : Gap g) : Written (.array []) ('[' :: (g ++ [']']))
  | array {items : List Json} {t : Text} (h : WrittenItems items t) :
      Written (.array items) ('[' :: t)
  | noFields {g : Text} (hg : Gap g) : Written (.object []) ('\x7b' :: (g ++ ['\x7d']))
  | object {fields : List (Option Text × Json)} {t : Text} (h : WrittenFields fields t) :
      Written (.object fields) ('\x7b' :: t)

/-- A text of items, with the bracket that closes them. -/
inductive WrittenItems : List Json → Text → Prop
  | last {j : Json} {g t g' : Text} (hg : Gap g) (h : Written j t) (hg' : Gap g') :
      WrittenItems [j] (g ++ (t ++ (g' ++ [']'])))
  | more {j : Json} {g t g' more : Text} {js : List Json} (hg : Gap g) (h : Written j t)
      (hg' : Gap g') (hmore : WrittenItems js more) :
      WrittenItems (j :: js) (g ++ (t ++ (g' ++ ',' :: more)))

/-- A text of fields, with the brace that closes them. -/
inductive WrittenFields : List (Option Text × Json) → Text → Prop
  | last {j : Json} {key g colon g' t g'' : Text} (hg : Gap g) (hcolon : Gap colon) (hg' : Gap g')
      (h : Written j t) (hg'' : Gap g'') :
      WrittenFields [(some key, j)]
        (g ++ (quote key ++ (colon ++ ':' :: (g' ++ (t ++ (g'' ++ ['\x7d']))))))
  | more {j : Json} {key g colon g' t g'' more : Text} {fields : List (Option Text × Json)}
      (hg : Gap g) (hcolon : Gap colon) (hg' : Gap g') (h : Written j t) (hg'' : Gap g'')
      (hmore : WrittenFields fields more) :
      WrittenFields ((some key, j) :: fields)
        (g ++ (quote key ++ (colon ++ ':' :: (g' ++ (t ++ (g'' ++ ',' :: more))))))

end

/-- The first character of a value shows that one begins. -/
theorem Written.head (h : Written j t) : ∃ c r, t = c :: r ∧ isGap c = false ∧ c ≠ ']' := by
  cases h with
  | null => exact ⟨'n', _, rfl, rfl, by decide⟩
  | bool b => cases b <;> exact ⟨_, _, rfl, rfl, by decide⟩
  | nat n =>
    obtain ⟨d, ds, hds⟩ := List.exists_cons_of_ne_nil (ofNat_ne_nil n)
    have hdigit : d.isDigit = true := isDigit_of_mem_ofNat (n := n) (by simp [hds])
    refine ⟨d, ds, hds, ?_, ?_⟩
    · simp only [isGap, Bool.or_eq_false_iff, beq_eq_false_iff_ne]
      refine ⟨⟨⟨?_, ?_⟩, ?_⟩, ?_⟩ <;> rintro rfl <;> cases hdigit
    · rintro rfl
      cases hdigit
  | string t => exact ⟨'"', _, rfl, rfl, by decide⟩
  | noItems => exact ⟨'[', _, rfl, rfl, by decide⟩
  | array => exact ⟨'[', _, rfl, rfl, by decide⟩
  | noFields => exact ⟨'\x7b', _, rfl, rfl, by decide⟩
  | object => exact ⟨'\x7b', _, rfl, rfl, by decide⟩

theorem WrittenItems.head {items : List Json} (h : WrittenItems items t) :
    ∃ g c r, Gap g ∧ t = g ++ c :: r ∧ isGap c = false ∧ c ≠ ']' := by
  cases h with
  | last hg h =>
    obtain ⟨c, r, rfl, hc⟩ := h.head
    exact ⟨_, c, _, hg, rfl, hc⟩
  | more hg h =>
    obtain ⟨c, r, rfl, hc⟩ := h.head
    exact ⟨_, c, _, hg, rfl, hc⟩

theorem WrittenFields.head {fields : List (Option Text × Json)} (h : WrittenFields fields t) :
    ∃ g r, Gap g ∧ t = g ++ '"' :: r := by
  cases h with
  | last hg => exact ⟨_, _, hg, rfl⟩
  | more hg => exact ⟨_, _, hg, rfl⟩

/-- A blank or a mark ends a number. -/
theorem ends_append (hg : Gap g) (hc : c = ',' ∨ c = ']' ∨ c = '\x7d') (r : Text) :
    Ends (g ++ c :: r) := by
  intro d r' h
  cases g with
  | nil =>
    obtain ⟨rfl, -⟩ := List.cons.inj h
    rcases hc with rfl | rfl | rfl <;> decide
  | cons e g =>
    obtain ⟨rfl, -⟩ := List.cons.inj h
    have hgap := hg e List.mem_cons_self
    simp only [isGap, Bool.or_eq_true, beq_iff_eq] at hgap
    rcases hgap with ((rfl | rfl) | rfl) | rfl <;> decide

theorem ends_nil : Ends [] := by
  intro c r h
  cases h

theorem valueIn_ofNat {fuel : Nat} (hg : Gap g) (hrest : Ends rest) (n : Nat) :
    valueIn (fuel + 1) (g ++ (Text.ofNat n ++ rest)) = some (.nat n, rest) := by
  obtain ⟨d, ds, hds⟩ := List.exists_cons_of_ne_nil (ofNat_ne_nil n)
  have hdigit : d.isDigit = true := isDigit_of_mem_ofNat (n := n) (by simp [hds])
  obtain ⟨c, r, hcr, hgap, -⟩ := (Written.nat n).head
  have hread := readNumber_ofNat n hrest
  rw [hds] at hcr
  obtain ⟨rfl, rfl⟩ := List.cons.inj hcr
  have hne : d ≠ '"' ∧ d ≠ '[' ∧ d ≠ '\x7b' := by
    refine ⟨?_, ?_, ?_⟩ <;> rintro rfl <;> cases hdigit
  rw [hds, List.cons_append] at hread
  rw [valueIn, hds, List.cons_append, skipGap_append hg hgap]
  simp only [hne, hdigit, hread, or_true, if_true, if_false, Option.map_some]
  rw [nat, hds]

theorem quote_append (t rest : Text) :
    quote t ++ rest = '"' :: (t.flatMap escape ++ '"' :: rest) := by
  simp [quote]

/-- What is read again within a bound on the nesting of the rules. -/
structure ReadsWithin (fuel : Nat) : Prop where
  value : ∀ {j t g r}, Written j t → t.length ≤ fuel → Gap g → Ends r →
    valueIn fuel (g ++ (t ++ r)) = some (j, r)
  items : ∀ {items t} r, WrittenItems items t → t.length ≤ fuel →
    itemsIn fuel (t ++ r) = some (items, r)
  fields : ∀ {fields t} r, WrittenFields fields t → t.length ≤ fuel →
    fieldsIn fuel (t ++ r) = some (fields, r)

namespace ReadsWithin

variable {fuel : Nat}

theorem value_succ (ih : ReadsWithin fuel) (h : Written j t) (hle : t.length ≤ fuel + 1)
    (hg : Gap g) (hrest : Ends rest) : valueIn (fuel + 1) (g ++ (t ++ rest)) = some (j, rest) := by
  cases h with
  | null =>
    have hskip := skipGap_append (c := 'n') hg rfl (Text.of "ull" ++ rest)
    rw [valueIn, show Text.of "null" ++ rest = 'n' :: (Text.of "ull" ++ rest) from rfl, hskip]
    rfl
  | bool b =>
    cases b with
    | true =>
      have hskip := skipGap_append (c := 't') hg rfl (Text.of "rue" ++ rest)
      rw [valueIn, if_pos rfl, show Text.of "true" ++ rest = 't' :: (Text.of "rue" ++ rest) from rfl,
        hskip]
      rfl
    | false =>
      have hskip := skipGap_append (c := 'f') hg rfl (Text.of "alse" ++ rest)
      rw [valueIn, if_neg Bool.false_ne_true,
        show Text.of "false" ++ rest = 'f' :: (Text.of "alse" ++ rest) from rfl, hskip]
      rfl
  | nat n => exact valueIn_ofNat hg hrest n
  | string t =>
    rw [valueIn, quote_append, skipGap_append hg rfl]
    simp [readString_quote]
  | noItems hg' =>
    rw [valueIn, List.cons_append, skipGap_append hg rfl, List.append_assoc, List.singleton_append]
    simp [skipGap_append hg' (c := ']') rfl]
  | @array items t h =>
    obtain ⟨g', c, r, hg', rfl, hc, hclose⟩ := h.head
    have hitems := ih.items rest h (by simpa using hle)
    rw [List.append_assoc, List.cons_append] at hitems
    rw [valueIn, List.cons_append, skipGap_append hg rfl, List.append_assoc, List.cons_append]
    simp [skipGap_append hg' hc, hclose, hitems]
  | noFields hg' =>
    rw [valueIn, List.cons_append, skipGap_append hg rfl, List.append_assoc, List.singleton_append]
    simp [skipGap_append hg' (c := '\x7d') rfl]
  | @object fields t h =>
    obtain ⟨g', r, hg', rfl⟩ := h.head
    have hfields := ih.fields rest h (by simpa using hle)
    rw [List.append_assoc, List.cons_append] at hfields
    rw [valueIn, List.cons_append, skipGap_append hg rfl, List.append_assoc, List.cons_append]
    simp [skipGap_append hg' (c := '"') rfl, hfields]

theorem items_succ {items : List Json} (ih : ReadsWithin fuel) (h : WrittenItems items t)
    (hle : t.length ≤ fuel + 1) : itemsIn (fuel + 1) (t ++ rest) = some (items, rest) := by
  cases h with
  | @last j g t g' hg h hg' =>
    simp only [List.length_append, List.length_singleton] at hle
    have hvalue := ih.value h (by omega) hg (ends_append hg' (c := ']') (by simp) rest)
    simp only [List.append_assoc, List.singleton_append, itemsIn, hvalue, bind, Option.bind]
    rw [skipGap_append hg' rfl]
    rfl
  | @more j g t g' more js hg h hg' hmore =>
    simp only [List.length_append, List.length_cons] at hle
    have hvalue := ih.value h (by omega) hg (ends_append hg' (c := ',') (by simp) (more ++ rest))
    have hitems := ih.items rest hmore (by omega)
    simp only [List.append_assoc, List.cons_append, itemsIn, hvalue, bind, Option.bind]
    rw [skipGap_append hg' rfl]
    simp [hitems]

theorem fields_succ {fields : List (Option Text × Json)} (ih : ReadsWithin fuel)
    (h : WrittenFields fields t) (hle : t.length ≤ fuel + 1) :
    fieldsIn (fuel + 1) (t ++ rest) = some (fields, rest) := by
  cases h with
  | @last j key g colon g' t g'' hg hcolon hg' h hg'' =>
    simp only [List.length_append, List.length_cons, List.length_nil] at hle
    have hvalue := ih.value h (by omega) hg' (ends_append hg'' (c := '\x7d') (by simp) rest)
    simp only [List.append_assoc, List.cons_append, List.nil_append, quote_append, fieldsIn,
      skipGap_append hg (c := '"') rfl, readString_quote, bind, Option.bind,
      skipGap_append hcolon (c := ':') rfl, hvalue, skipGap_append hg'' (c := '\x7d') rfl]
    rfl
  | @more j key g colon g' t g'' more fields hg hcolon hg' h hg'' hmore =>
    simp only [List.length_append, List.length_cons] at hle
    have hvalue := ih.value h (by omega) hg' (ends_append hg'' (c := ',') (by simp) (more ++ rest))
    have hfields := ih.fields rest hmore (by omega)
    simp only [List.append_assoc, List.cons_append, quote_append, fieldsIn,
      skipGap_append hg (c := '"') rfl, readString_quote, bind, Option.bind,
      skipGap_append hcolon (c := ':') rfl, hvalue, skipGap_append hg'' (c := ',') rfl, hfields]
    rfl

end ReadsWithin

/-- By induction on the bound, as the rules recurse. -/
theorem readsWithin (fuel : Nat) : ReadsWithin fuel := by
  induction fuel with
  | zero =>
    refine ⟨fun h hle => ?_, fun _ h hle => ?_, fun _ h hle => ?_⟩
    · obtain ⟨c, r, rfl, -⟩ := h.head
      simp at hle
    · obtain ⟨g, c, r, -, rfl, -⟩ := h.head
      simp at hle
    · obtain ⟨g, r, -, rfl⟩ := h.head
      simp at hle
  | succ fuel ih => exact ⟨ih.value_succ, fun _ => ih.items_succ, fun _ => ih.fields_succ⟩

theorem leading?_of_written (h : Written j t) : leading? t = some (j, []) := by
  have hvalue := (readsWithin (2 * t.length + 2)).value h (by omega) gap_nil ends_nil
  rwa [List.nil_append, List.append_nil] at hvalue

/-- A text of a value is read as that value. -/
theorem read_of_written (h : Written j t) : read t = some j := by
  rw [read, leading?_of_written h]
  rfl

/-- Where the fields of an object can be read, nothing is wrong. -/
theorem soundFieldsIn_of_fieldsIn {fuel : Nat} {fields : List (Option Text × Json)} {rest : Text}
    (h : fieldsIn fuel t = some (fields, rest)) : soundFieldsIn fuel t = (fields, some rest) := by
  induction fuel generalizing t fields with
  | zero => cases h
  | succ fuel ih =>
    rw [fieldsIn] at h
    rw [soundFieldsIn]
    split at h
    · obtain ⟨⟨key, u⟩, hkey, h⟩ := Option.bind_eq_some_iff.1 h
      dsimp only at h
      simp only [hkey]
      split at h
      · obtain ⟨⟨value, v⟩, hvalue, h⟩ := Option.bind_eq_some_iff.1 h
        dsimp only at h
        simp only [hvalue]
        split at h
        · obtain ⟨⟨more, w⟩, hmore, h⟩ := Option.bind_eq_some_iff.1 h
          cases h
          simp only [ih hmore]
        · cases h
          rfl
        · cases h
      · cases h
    · cases h

/-- Only a text that begins with a brace holds an object. -/
theorem head_of_object {c : Char} {r rest : Text} {fuel : Nat} {fields : List (Option Text × Json)}
    (hgap : skipGap t = c :: r) (h : valueIn (fuel + 1) t = some (.object fields, rest)) :
    c = '\x7b' := by
  by_contra hc
  rw [valueIn, hgap] at h
  simp only [if_neg hc] at h
  repeat' split at h
  all_goals simp at h

/-- The fields of an object are read behind its brace. -/
theorem soundFields_of_brace {r : Text} (h : skipGap t = '\x7b' :: r) : soundFields t =
    match skipGap r with
    | '\x7d' :: rest => ([], some rest)
    | _ => soundFieldsIn (2 * t.length + 1) r := by
  rw [soundFields, h]
  rfl

theorem soundFields_of_leading? {fields : List (Option Text × Json)} {rest : Text}
    (h : leading? t = some (.object fields, rest)) : soundFields t = (fields, some rest) := by
  rw [leading?] at h
  cases hgap : skipGap t with
  | nil => simp [valueIn, hgap] at h
  | cons c r =>
    obtain rfl := head_of_object hgap h
    rw [valueIn, hgap] at h
    simp only [if_neg (show '\x7b' ≠ '"' by decide), if_neg (show '\x7b' ≠ '[' by decide),
      if_true] at h
    have hread : (skipGap r = '\x7d' :: rest ∧ fields = []) ∨
        (∀ s, skipGap r ≠ '\x7d' :: s) ∧
          fieldsIn (2 * t.length + 1) r = some (fields, rest) := by
      split at h
      · next hbrace =>
        cases h
        exact .inl ⟨hbrace, rfl⟩
      · next hbrace =>
        obtain ⟨⟨more, u⟩, hmore, h⟩ := Option.map_eq_some_iff.1 h
        cases h
        exact .inr ⟨hbrace, hmore⟩
    rw [soundFields_of_brace hgap]
    rcases hread with ⟨hbrace, rfl⟩ | ⟨hbrace, hmore⟩
    · simp only [hbrace]
    · split
      · next hnot => exact absurd hnot (hbrace _)
      · exact soundFieldsIn_of_fieldsIn hmore

/-! ### Writing -/

/-- The values that are written as they are: every string is a text, and numbers are natural. -/
inductive Proper : Json → Prop
  | null : Proper .null
  | bool (b : Bool) : Proper (.bool b)
  | nat (n : Nat) : Proper (.nat n)
  | text (t : Text) : Proper (.text t)
  | array {items : List Json} (h : ∀ j ∈ items, Proper j) : Proper (.array items)
  | object {fields : List (Text × Json)} (h : ∀ f ∈ fields, Proper f.2) :
      Proper (.object (fields.map fun f => (some f.1, f.2)))

theorem proper_record {fields : List (String × Json)} (h : ∀ f ∈ fields, Proper f.2) :
    Proper (.record fields) := by
  have hfields : ∀ f ∈ fields.map fun f => (Text.of f.1, f.2), Proper f.2 :=
    List.forall_mem_map.2 h
  have hobject := Proper.object hfields
  rw [List.map_map] at hobject
  exact hobject

section Rows

variable {write : Json → Text} {g' g'' : Text}

/-- Items with commas and equal gaps between them. -/
theorem writtenItems_row {items : List Json} (hg : Gap g) (hg' : Gap g')
    (hj : Written j (write j)) (hitems : ∀ j ∈ items, Written j (write j)) :
    WrittenItems (j :: items)
      (g ++ (write j ++ (items.flatMap (fun j => ',' :: (g ++ write j)) ++ (g' ++ [']'])))) := by
  induction items generalizing j with
  | nil => exact .last hg hj hg'
  | cons k items ih =>
    have hrest := ih (hitems k List.mem_cons_self) fun j h => hitems j (List.mem_cons_of_mem _ h)
    simpa using WrittenItems.more hg hj gap_nil hrest

/-- Fields with commas and equal gaps between them. -/
theorem writtenFields_row {fields : List (Text × Json)} (key : Text) (hg : Gap g) (hg' : Gap g')
    (hg'' : Gap g'') (hj : Written j (write j)) (hfields : ∀ f ∈ fields, Written f.2 (write f.2)) :
    WrittenFields ((some key, j) :: fields.map fun f => (some f.1, f.2))
      (g ++ (quote key ++ ':' :: (g' ++ (write j ++
        (fields.flatMap (fun f => ',' :: (g ++ (quote f.1 ++ ':' :: (g' ++ write f.2)))) ++
          (g'' ++ ['\x7d'])))))) := by
  induction fields generalizing j key with
  | nil => simpa using WrittenFields.last hg gap_nil hg' hj hg''
  | cons f fields ih =>
    have hrest := ih f.1 (hfields f List.mem_cons_self)
      fun f h => hfields f (List.mem_cons_of_mem _ h)
    simpa using WrittenFields.more hg gap_nil hg' hj gap_nil hrest

end Rows

theorem compactItems_eq (items : List Json) :
    compactItems items = items.flatMap fun j => ',' :: j.compact := by
  induction items with
  | nil => rfl
  | cons j items ih => simp [compactItems, ih]

theorem compactFields_eq (fields : List (Text × Json)) :
    compactFields (fields.map fun f => (some f.1, f.2)) =
      fields.flatMap fun f => ',' :: (quote f.1 ++ ':' :: f.2.compact) := by
  induction fields with
  | nil => rfl
  | cons f fields ih => simp [compactFields, quoteValue, ih]

theorem written_compact (h : Proper j) : Written j j.compact := by
  induction h with
  | null => exact .null
  | bool b => exact .bool b
  | nat n => exact .nat n
  | text t => exact .string t
  | @array items _ ih =>
    cases items with
    | nil => exact .noItems gap_nil
    | cons k items =>
      have hrow := writtenItems_row gap_nil gap_nil (ih k List.mem_cons_self)
        fun j h => ih j (List.mem_cons_of_mem _ h)
      simpa [compact, compactItems_eq] using Written.array hrow
  | @object fields _ ih =>
    cases fields with
    | nil => exact .noFields gap_nil
    | cons f fields =>
      have hrow := writtenFields_row f.1 gap_nil gap_nil gap_nil (ih f List.mem_cons_self)
        fun f h => ih f (List.mem_cons_of_mem _ h)
      simpa [compact, compactFields_eq, quoteValue] using Written.object hrow

theorem gap_newLine (depth : Nat) : Gap (newLine depth) := by
  intro c hc
  rcases List.mem_cons.1 hc with rfl | hc
  · rfl
  · rw [List.eq_of_mem_replicate hc]
    rfl

theorem prettyItems_eq (depth : Nat) (items : List Json) :
    prettyItems depth items = items.flatMap fun j => ',' :: (newLine depth ++ j.pretty depth) := by
  induction items with
  | nil => rfl
  | cons j items ih => simp [prettyItems, ih]

theorem prettyFields_eq (depth : Nat) (fields : List (Text × Json)) :
    prettyFields depth (fields.map fun f => (some f.1, f.2)) =
      fields.flatMap fun f =>
        ',' :: (newLine depth ++ (quote f.1 ++ ':' :: ([' '] ++ f.2.pretty depth))) := by
  induction fields with
  | nil => rfl
  | cons f fields ih => simp [prettyFields, quoteValue, ih]

theorem written_pretty (h : Proper j) (depth : Nat) : Written j (j.pretty depth) := by
  induction h generalizing depth with
  | null => exact .null
  | bool b => exact .bool b
  | nat n => exact .nat n
  | text t => exact .string t
  | @array items _ ih =>
    cases items with
    | nil => exact .noItems gap_nil
    | cons k items =>
      have hrow := writtenItems_row (gap_newLine (depth + 1)) (gap_newLine depth)
        (ih k List.mem_cons_self (depth + 1)) fun j h => ih j (List.mem_cons_of_mem _ h) (depth + 1)
      simpa [pretty, prettyItems_eq] using Written.array hrow
  | @object fields _ ih =>
    have hblank : Gap [' '] := by simp [Gap, isGap]
    cases fields with
    | nil => exact .noFields gap_nil
    | cons f fields =>
      have hrow := writtenFields_row f.1 (gap_newLine (depth + 1)) hblank
        (gap_newLine depth) (ih f List.mem_cons_self (depth + 1))
        fun f h => ih f (List.mem_cons_of_mem _ h) (depth + 1)
      simpa [pretty, prettyFields_eq, quoteValue] using Written.object hrow

end Json

end Phrasebook
