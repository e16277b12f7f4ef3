import Mathlib.Data.List.Nodup
import Phrasebook.Table

/-!
What is under the keys of a table.

Tables are lists, and a key may be repeated in one that was not made by `Table.put`. Where keys are not
repeated, the order of a table does not matter (`Table.get?_perm`).
-/
namespace Phrasebook

namespace Table

variable {α β : Type} {t t' : Table α} {key key' : Text} {value : α}

theorem get?_append (s t : Table α) (key : Text) :
    get? (s ++ t) key = (s.get? key).or (t.get? key) := by
  simp only [get?, List.find?_append]
  cases s.find? (·.1 == key) <;> rfl

theorem get?_singleton (key' : Text) (value : α) (key : Text) :
    get? [(key', value)] key = if key' = key then some value else none := by
  by_cases h : key' = key <;> simp [get?, h]

theorem get?_eq_none_iff : t.get? key = none ↔ key ∉ t.map (·.1) := by
  rw [get?, Option.map_eq_none_iff, List.find?_eq_none]
  constructor
  · intro h hmem
    obtain ⟨e, he, rfl⟩ := List.mem_map.1 hmem
    exact h e he (beq_self_eq_true _)
  · intro h e he hkey
    exact h (List.mem_map.2 ⟨e, he, beq_iff_eq.1 hkey⟩)

theorem mem_of_get? (h : t.get? key = some value) : (key, value) ∈ t := by
  obtain ⟨⟨k, v⟩, hfind, rfl⟩ := Option.map_eq_some_iff.1 h
  have hk : k = key := by simpa using List.find?_some hfind
  rw [← hk]
  exact List.mem_of_find?_eq_some hfind

/-- Where no key is repeated, each value is the one under its key. -/
theorem get?_eq_some_iff (hkeys : (t.map (·.1)).Nodup) :
    t.get? key = some value ↔ (key, value) ∈ t := by
  refine ⟨mem_of_get?, fun hmem => ?_⟩
  induction t with
  | nil => simp at hmem
  | cons e t ih =>
    rw [List.map_cons, List.nodup_cons] at hkeys
    rw [← List.singleton_append, get?_append]
    rcases List.mem_cons.1 hmem with rfl | hmem
    · rw [get?_singleton, if_pos rfl]
      rfl
    · have hne : e.1 ≠ key := by
        rintro rfl
        exact hkeys.1 (List.mem_map_of_mem (f := (·.1)) hmem)
      rw [get?_singleton, if_neg hne]
      exact ih hkeys.2 hmem

theorem get?_perm (hperm : t'.Perm t) (hkeys : (t.map (·.1)).Nodup) (key : Text) :
    t'.get? key = t.get? key := by
  have hkeys' : (t'.map (·.1)).Nodup := (hperm.map _).nodup_iff.2 hkeys
  ext value
  rw [get?_eq_some_iff hkeys', get?_eq_some_iff hkeys, hperm.mem_iff]

theorem get?_filter (p : Text → Bool) (t : Table α) (hp : p key = true) :
    get? (t.filter fun e => p e.1) key = t.get? key := by
  induction t with
  | nil => rfl
  | cons e t ih =>
    rw [← List.singleton_append, List.filter_append, get?_append, get?_append, ih]
    congr 1
    by_cases he : e.1 = key
    · rw [List.filter_cons_of_pos (by rw [he]; exact hp)]
      rfl
    · rw [get?_singleton, if_neg he, get?_eq_none_iff]
      intro hmem
      obtain ⟨e', he', rfl⟩ := List.mem_map.1 hmem
      rw [List.mem_singleton.1 (List.mem_filter.1 he').1] at he
      exact he rfl

theorem get?_map (f : α → β) (t : Table α) (key : Text) :
    get? (t.map fun e => (e.1, f e.2)) key = (t.get? key).map f := by
  simp only [get?, List.find?_map, Option.map_map]
  rfl

theorem put_eq (h : key ∉ t.map (·.1)) (value : α) : t.put key value = t ++ [(key, value)] := by
  have hall : t.filter (·.1 != key) = t := by
    refine List.filter_eq_self.2 fun e he => ?_
    have hne : e.1 ≠ key := by
      rintro rfl
      exact h (List.mem_map_of_mem he)
    simpa using hne
  rw [put, hall]

theorem get?_put (t : Table α) (key : Text) (value : α) (key' : Text) :
    (t.put key value).get? key' = if key' = key then some value else t.get? key' := by
  rw [put, get?_append, get?_singleton]
  by_cases h : key' = key
  · subst h
    have hnone : get? (t.filter (·.1 != key')) key' = none := by
      rw [get?_eq_none_iff]
      intro hmem
      obtain ⟨e, he, rfl⟩ := List.mem_map.1 hmem
      simpa using (List.mem_filter.1 he).2
    rw [hnone, if_pos rfl, if_pos rfl]
    rfl
  · rw [get?_filter (· != key) t (by simpa using h), if_neg (Ne.symm h), if_neg h, Option.or_none]

theorem nodup_put (h : (t.map (·.1)).Nodup) (key : Text) (value : α) :
    ((t.put key value).map (·.1)).Nodup := by
  rw [put, List.map_append, List.map_singleton, List.nodup_append]
  refine ⟨h.sublist (List.filter_sublist.map _), List.nodup_singleton _, ?_⟩
  rintro _ hmem _ hkey rfl
  obtain ⟨e, he, hek⟩ := List.mem_map.1 hmem
  have hne := (List.mem_filter.1 he).2
  rw [hek, List.mem_singleton.1 hkey] at hne
  simp at hne

/-- Tables with the same values under all keys are empty together. -/
theorem isEmpty_congr (h : ∀ key, t.get? key = t'.get? key) : t.isEmpty = t'.isEmpty := by
  have hempty : ∀ {s s' : Table α}, (∀ key, s.get? key = s'.get? key) → s = [] → s' = [] := by
    rintro _ (_ | ⟨e, s'⟩) h rfl
    · rfl
    · have hnone : get? (e :: s') e.1 = none := (h e.1).symm
      rw [get?_eq_none_iff] at hnone
      exact absurd (List.mem_map_of_mem List.mem_cons_self) hnone
  rw [Bool.eq_iff_iff, List.isEmpty_iff, List.isEmpty_iff]
  exact ⟨hempty h, hempty fun key => (h key).symm⟩

theorem sorted_perm (t : Table α) : t.sorted.Perm t := List.mergeSort_perm _ _

/-- Values put under keys of which none is repeated make a table in the same order. -/
theorem foldlM_put {m : Type → Type} [Monad m] [LawfulMonad m]
    {add : Table α → β → m (Table α)} {xs : List β} {start : Table α}
    (h : List.Forall₂ (fun x e => ∀ t, add t x = pure (put t e.1 e.2)) xs t)
    (hkeys : ((start ++ t).map (·.1)).Nodup) : xs.foldlM add start = pure (start ++ t) := by
  induction h generalizing start with
  | nil => simp
  | @cons x e xs t hfirst _ ih =>
    have hnew : e.1 ∉ start.map (·.1) := by
      intro hmem
      rw [List.map_append, List.nodup_append] at hkeys
      exact hkeys.2.2 _ hmem _ (by simp) rfl
    rw [List.foldlM_cons, hfirst, pure_bind, put_eq hnew, ih (by simpa using hkeys)]
    simp

end Table

end Phrasebook
