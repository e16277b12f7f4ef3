import Mathlib.Data.List.Infix
import Phrasebook.Proofs.Keys
import Phrasebook.Proofs.Reformatting

/-!
Scripts that are written out and parsed again.

A parsed script renders the normalized text, and parsing normalizes once more. A text whose normal
form is normal (`Text.normalize_normalize_iff` says which) is parsed to the very same script again, from
the index that the first time has left (`Script.parse_render_of_settled`); any other is written out
differently the second time, if it is a script at all (`Script.parse_render_iff`).
-/
namespace Phrasebook

namespace Text

variable {t u r : Text} {c : Char}

/-- Normalizing a second time finds nothing: there is no second mark at the start, and no carriage
return before one that goes with a line feed. -/
structure Settled (t : Text) : Prop where
  mark : t.dropMark.head? ≠ some '\ufeff'
  breaks : ¬ ['\r', '\r', '\n'] <:+: t

theorem settled_iff : t.Settled ↔
    t.dropMark.head? ≠ some '\ufeff' ∧ ¬ ['\r', '\r', '\n'] <:+: t :=
  ⟨fun h => ⟨h.mark, h.breaks⟩, fun h => ⟨h.1, h.2⟩⟩

instance (t : Text) : Decidable t.Settled := decidable_of_iff _ settled_iff.symm

theorem length_unifyBreaks_le (t : Text) : (unifyBreaks t).length ≤ t.length := by
  fun_induction unifyBreaks t with
  | case1 => exact Nat.le_refl _
  | case2 r ih => exact Nat.le_succ_of_le ih
  | case3 c r _ ih => exact Nat.succ_le_succ ih

theorem not_prefix_of_kept (h : ∀ r', c = '\r' → r = '\n' :: r' → False) :
    ¬ ['\r', '\n'] <+: c :: r := by
  rintro ⟨r', hr⟩
  obtain ⟨rfl, rfl⟩ := List.cons.inj hr.symm
  exact h r' rfl rfl

theorem unifyBreaks_eq_self_iff : unifyBreaks t = t ↔ ¬ ['\r', '\n'] <:+: t := by
  fun_induction unifyBreaks t with
  | case1 => simp
  | case2 r ih =>
    have hlen := length_unifyBreaks_le ('\n' :: r)
    constructor
    · intro h
      rw [h] at hlen
      exact absurd hlen (Nat.not_succ_le_self _)
    · intro h
      exact absurd (List.prefix_append ['\r', '\n'] r).isInfix h
  | case3 c r hkept ih =>
    rw [List.cons.injEq, List.infix_cons_iff, not_or, ih]
    exact and_congr_left fun _ => iff_of_true rfl (not_prefix_of_kept hkept)

theorem prefix_unifyBreaks_iff (h : t.head? ≠ some '\n') :
    ['\n'] <+: unifyBreaks t ↔ ['\r', '\n'] <+: t := by
  fun_cases unifyBreaks t with
  | case1 => simp
  | case2 r => simp [unifyBreaks_cons]
  | case3 c r hkept =>
    have hc : c ≠ '\n' := fun hc => h (congrArg some hc)
    refine iff_of_false (fun hn => hc ?_) (not_prefix_of_kept hkept)
    exact (List.cons_prefix_cons.1 hn).1.symm

/-- A line feed comes to stand behind a carriage return only if there were two of these. -/
theorem infix_unifyBreaks_iff : ['\r', '\n'] <:+: unifyBreaks t ↔ ['\r', '\r', '\n'] <:+: t := by
  fun_induction unifyBreaks t with
  | case1 => simp
  | case2 r ih =>
    have hno : ¬ ['\r', '\r', '\n'] <+: '\r' :: '\n' :: r := by simp
    exact ih.trans (List.infix_cons_iff.trans (or_iff_right hno)).symm
  | case3 c r hkept ih =>
    rw [List.infix_cons_iff, List.infix_cons_iff, ih, List.cons_prefix_cons, List.cons_prefix_cons]
    refine or_congr_left (and_congr_right fun hc => prefix_unifyBreaks_iff fun hr => ?_)
    obtain ⟨r', rfl⟩ := List.head?_eq_some_iff.1 hr
    exact hkept r' hc.symm rfl

/-- A mark at the start is not touched by the unifying of breaks, and none comes to be there. -/
theorem head?_unifyBreaks_mark :
    (unifyBreaks t).head? = some '\ufeff' ↔ t.head? = some '\ufeff' := by
  fun_cases unifyBreaks t with
  | case1 => rfl
  | case2 r => simp [unifyBreaks_cons]
  | case3 c r => rfl

theorem infix_dropMark_iff {p : Text} :
    '\r' :: p <:+: dropMark t ↔ '\r' :: p <:+: t := by
  cases t with
  | nil => rfl
  | cons c t =>
    rw [dropMark]
    split
    · next hc =>
      subst hc
      have hno : ¬ '\r' :: p <+: '\ufeff' :: t := by simp
      rw [List.infix_cons_iff, or_iff_right hno]
    · rfl

/-- Which texts have a normal form that is normal. -/
theorem normalize_normalize_iff : t.normalize.normalize = t.normalize ↔ t.Settled := by
  rw [settled_iff, ← infix_dropMark_iff, normalize, normalize]
  generalize dropMark t = u
  by_cases hmark : u.head? = some '\ufeff'
  · obtain ⟨r, rfl⟩ := List.head?_eq_some_iff.1 hmark
    refine iff_of_false (fun h => ?_) fun h => h.1 rfl
    rw [unifyBreaks_cons (by decide), dropMark, if_pos rfl] at h
    have hlen := length_unifyBreaks_le (unifyBreaks r)
    rw [h] at hlen
    exact Nat.not_succ_le_self _ hlen
  · rw [dropMark_eq_self (mt head?_unifyBreaks_mark.1 hmark), unifyBreaks_eq_self_iff,
      infix_unifyBreaks_iff]
    exact (and_iff_right hmark).symm

end Text

namespace Script

variable {rules : CallRules} {content stem : Text} {x x' : Index} {s : Script}

theorem render_of_parse (h : parse rules stem content x = .ok (s, x')) :
    s.render = content.normalize := by
  obtain ⟨t, items, ht, -, rfl⟩ := parse_eq_ok_iff.1 h
  obtain ⟨_, _, _, -, -, rfl⟩ := Tree.ofRange_eq_ok ht
  rfl

/-- A script is the same when it is parsed from what it renders, and no number is given. -/
theorem parse_render_of_settled (hc : content.Settled)
    (h : parse rules stem content x = .ok (s, x')) :
    ∃ x'', parse rules stem s.render x' = .ok (s, x'') ∧ x'.Same x'' := by
  have hrender := render_of_parse h
  obtain ⟨t, items, ht, hitems, rfl⟩ := parse_eq_ok_iff.1 h
  obtain ⟨ns, hns, rfl⟩ := assignKeys_eq_ok_iff.1 hitems
  obtain ⟨x'', hagain, hsame⟩ := Index.Within.assignAll hns fun _ _ hn => hn
  rw [← Text.normalize_normalize_iff.2 hc, ← hrender] at ht
  exact ⟨x'', parse_eq_ok_iff.2 ⟨t, _, ht, assignKeys_eq_ok_iff.2 ⟨ns, hagain, rfl⟩, rfl⟩, hsame⟩

/-- A script can be parsed from what it renders, and renders the same again, exactly if its normal
form is normal. -/
theorem parse_render_iff (h : parse rules stem content x = .ok (s, x')) :
    (∃ s' x'', parse rules stem s.render x' = .ok (s', x'') ∧ s'.render = s.render) ↔
      content.Settled := by
  constructor
  · rintro ⟨s', x'', h', hsame⟩
    rw [render_of_parse h', render_of_parse h] at hsame
    exact Text.normalize_normalize_iff.1 hsame
  · intro hc
    obtain ⟨x'', h', -⟩ := parse_render_of_settled hc h
    exact ⟨s, x'', h', rfl⟩

/-- A carriage return in a string is left in front of a line feed, and is lost when the script is
parsed again: the string has a new key then. -/
theorem parse_render_return :
    ((parse .builtin ['T'] (Text.of "say(\"A\r\r\nB\")\n") .empty).toOption.bind fun (s, x) =>
      (parse .builtin ['T'] s.render x).toOption.map fun (s', _) =>
        (s.entries ++ s'.entries).map fun e => (e.key, e.phrase)) =
      some [(Text.of "T_0", Text.of "A\r\nB"), (Text.of "T_1", Text.of "A\nB")] := by
  decide +kernel

/-- Of two marks the second is part of a name, and what is left without it need not be a script. -/
theorem parse_render_marks :
    ((parse .builtin ['T'] (Text.of "\ufeff\ufefffunc\n") .empty).toOption.map fun (s, x) =>
      (s.render, (parse .builtin ['T'] s.render x).toBool)) =
      some (Text.of "\ufefffunc\n", false) := by
  decide +kernel

end Script

end Phrasebook
