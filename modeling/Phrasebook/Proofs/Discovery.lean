import Phrasebook.Project
import Phrasebook.Proofs.Keeping
import Phrasebook.Proofs.Unpacking

/-!
The names of the source files of a project, of their entry files and of their indexes.

Names in a directory are never empty, never points alone and have no slash, so a path made of them is
cut into the same names again. The file with the entries of a source file is in the same directory
(`Path.entryFile_ofNames`), but extensions count in any case and a script may end in `.tscn.gd`:
`Project.entryFile_eq_iff` says which source files have one entry file. The key of a source file in
the store is its path, as long as no name has a backslash.
-/
namespace Phrasebook

namespace Text

variable {sep : Char} {t : Text} {names : List Text}

theorem splitOn_of_notMem (h : sep ∉ t) : splitOn sep t = [t] := by
  rcases splitOn_cases sep t with hone | ⟨piece, r, rfl, -⟩
  · exact hone
  · simp at h

theorem splitOn_join (hne : names ≠ []) (h : ∀ n ∈ names, sep ∉ n) :
    splitOn sep (join [sep] names) = names := by
  fun_induction join [sep] names with
  | case1 => simp at hne
  | case2 t => exact splitOn_of_notMem (h t (by simp))
  | case3 t more hmore ih =>
    have hfirst := splitOn_of_notMem (h t (by simp))
    have hrest := ih (fun hnil => hmore hnil) (fun n hn => h n (by simp [hn]))
    rw [List.append_assoc, List.singleton_append, splitOn_append, hfirst, hrest]
    rfl

/-- What comes before the last of joined pieces does not depend on it. -/
theorem exists_join_concat (sep : Text) (names : List Text) :
    ∃ before, ∀ t, join sep (names ++ [t]) = before ++ t := by
  induction names with
  | nil => exact ⟨[], fun t => rfl⟩
  | cons n names ih =>
    obtain ⟨before, hbefore⟩ := ih
    refine ⟨n ++ sep ++ before, fun t => ?_⟩
    have hjoin : join sep (n :: (names ++ [t])) = n ++ sep ++ join sep (names ++ [t]) := by
      cases names <;> rfl
    rw [List.cons_append, hjoin, hbefore t, List.append_assoc _ before t]

end Text

namespace Path

variable {n m s s' e e' : Text} {dir dir' names names' : List Text}

/-- A name that something in a directory can have. -/
def Plain (n : Text) : Prop := n ≠ [] ∧ n ≠ ['.'] ∧ n ≠ ['.', '.'] ∧ '/' ∉ n

instance (n : Text) : Decidable (Plain n) := inferInstanceAs (Decidable (_ ∧ _ ∧ _ ∧ _))

theorem Plain.partOf? (h : Plain n) : partOf? n = some (.name n) := by
  obtain ⟨hne, hpoint, hpoints, -⟩ := h
  simp [Path.partOf?, hne, hpoint, hpoints]

theorem ofNames_inj (hne : names ≠ []) (hne' : names' ≠ []) (h : ∀ n ∈ names, '/' ∉ n)
    (h' : ∀ n ∈ names', '/' ∉ n) : ofNames names = ofNames names' ↔ names = names' := by
  refine ⟨fun heq => ?_, fun heq => by rw [heq]⟩
  have hsplit := congrArg (Text.splitOn '/') heq
  rwa [ofNames, ofNames, Text.splitOn_join hne h, Text.splitOn_join hne' h'] at hsplit

/-- The last name need not be plain: it may still lead up. -/
theorem parts_ofNames_concat (hdir : ∀ n ∈ dir, Plain n) (hn : n ≠ [] ∧ n ≠ ['.'] ∧ '/' ∉ n) :
    parts (ofNames (dir ++ [n])) = dir.map .name ++ (partOf? n).toList := by
  have hslash : ∀ m ∈ dir ++ [n], '/' ∉ m := by
    intro m hm
    rcases List.mem_append.1 hm with hm | hm
    · exact (hdir m hm).2.2.2
    · rw [List.mem_singleton.1 hm]
      exact hn.2.2
  have hsplit : Text.splitOn '/' (ofNames (dir ++ [n])) = dir ++ [n] :=
    Text.splitOn_join (by simp) hslash
  -- The first name is neither empty nor a point.
  have hfirst : ∀ m, (dir ++ [n]).head? = some m → m ≠ [] ∧ m ≠ ['.'] := by
    intro m hm
    cases dir with
    | nil =>
      obtain rfl : n = m := by simpa using hm
      exact ⟨hn.1, hn.2.1⟩
    | cons d dir =>
      obtain rfl : d = m := by simpa using hm
      have hd := hdir d (by simp)
      exact ⟨hd.1, hd.2.1⟩
  have hroot : (ofNames (dir ++ [n])).head? ≠ some '/' := by
    intro hr
    obtain ⟨r, hr⟩ := List.head?_eq_some_iff.1 hr
    rw [hr, Text.splitOn, if_pos rfl] at hsplit
    exact (hfirst [] (by rw [← hsplit]; rfl)).1 rfl
  have hhere : (Text.splitOn '/' (ofNames (dir ++ [n]))).head? ≠ some ['.'] := by
    rw [hsplit]
    exact fun hh => (hfirst _ hh).2 rfl
  have hnames : dir.filterMap partOf? = dir.map .name := by
    rw [← List.filterMap_eq_map]
    exact List.filterMap_congr fun m hm => (hdir m hm).partOf?
  rw [parts_eq_steps hroot hhere, steps, hsplit, List.filterMap_append, hnames]
  cases hpart : partOf? n <;> simp [hpart]

theorem parts_ofNames (hne : names ≠ []) (h : ∀ n ∈ names, Plain n) :
    parts (ofNames names) = names.map .name := by
  obtain ⟨dir, n, rfl⟩ := List.eq_nil_or_concat names |>.resolve_left hne
  simp only [List.concat_eq_append] at h ⊢
  have hn := h n (by simp)
  rw [parts_ofNames_concat (fun m hm => h m (by simp [hm])) ⟨hn.1, hn.2.1, hn.2.2.2⟩, hn.partOf?,
    List.map_append]
  rfl

theorem fileName?_ofNames (h : ∀ m ∈ dir ++ [n], Plain m) :
    fileName? (ofNames (dir ++ [n])) = some n := by
  rw [fileName?, parts_ofNames (by simp) h, List.map_append, List.map_singleton,
    List.getLast?_concat]

/-! ### Extensions -/

/-- A file name is cut at its last point, unless it begins there. -/
theorem splitName_eq_iff :
    splitName n = (s, some e) ↔ n = s ++ '.' :: e ∧ s ≠ [] ∧ '.' ∉ e := by
  constructor
  · intro h
    unfold splitName at h
    extract_lets after before at h
    split at h
    · cases h
    · next hcut =>
      obtain ⟨hlength, hbefore⟩ := not_or.1 hcut
      obtain ⟨rfl, rfl⟩ : before = s ∧ after = e := by simpa using h
      have hjoin := List.takeWhile_append_dropWhile (p := (· != '.')) (l := n.reverse)
      cases hdrop : n.reverse.dropWhile (· != '.') with
      | nil =>
        rw [hdrop, List.append_nil] at hjoin
        simp [after, hjoin] at hlength
      | cons c r =>
        have hc : c = '.' := by
          have hhead := List.head?_dropWhile_not (· != '.') n.reverse
          rw [hdrop] at hhead
          simpa using hhead
        subst hc
        have hr : before = r.reverse := by simp only [before, hdrop, List.tail_cons]
        refine ⟨?_, hbefore, ?_⟩
        · rw [hdrop] at hjoin
          rw [hr, ← List.reverse_reverse n, ← hjoin]
          simp [after]
        · intro hmem
          have hpoint := List.all_eq_true.1 List.all_takeWhile '.' (List.mem_reverse.1 hmem)
          simp at hpoint
  · rintro ⟨rfl, hs, he⟩
    have hall : ∀ c ∈ e.reverse, (c != '.') = true := by
      intro c hc
      rw [bne_iff_ne]
      rintro rfl
      exact he (List.mem_reverse.1 hc)
    have hreverse : (s ++ '.' :: e).reverse = e.reverse ++ '.' :: s.reverse := by simp
    have hafter : (s ++ '.' :: e).reverse.takeWhile (· != '.') = e.reverse := by
      rw [hreverse, List.takeWhile_append_of_pos hall]
      simp
    have hbefore : (s ++ '.' :: e).reverse.dropWhile (· != '.') = '.' :: s.reverse := by
      rw [hreverse, List.dropWhile_append_of_pos hall]
      simp
    have hlength : e.length ≠ (s ++ '.' :: e).length := by
      rw [List.length_append, List.length_cons]
      omega
    simp only [splitName, hafter, hbefore, List.reverse_reverse, List.tail_cons]
    rw [if_neg (not_or.2 ⟨hlength, hs⟩)]

/-- Lower case of an extension. -/
def lowered (e : Text) : Text := e.map Char.toLower

theorem extension?_ofNames (h : ∀ m ∈ dir ++ [n], Plain m) :
    extension? (ofNames (dir ++ [n])) = (splitName n).2 := by
  rw [extension?, fileName?_ofNames h, Option.bind_some]

theorem hasExtension_ofNames (h : ∀ m ∈ dir ++ [n], Plain m) (hn : splitName n = (s, some e))
    (extension : String) :
    hasExtension (ofNames (dir ++ [n])) extension = true ↔ lowered e = Text.of extension := by
  rw [hasExtension, extension?_ofNames h, hn, Option.any_some, beq_iff_eq, lowered]

/-- The name of a script or a scene, cut into stem and extension. -/
structure Source (n s e : Text) : Prop where
  split : splitName n = (s, some e)
  kind : lowered e = Text.of "gd" ∨ lowered e = Text.of "tscn"

theorem exists_source_of_isSupported (h : ∀ m ∈ dir ++ [n], Plain m)
    (hsupported : isSupported (ofNames (dir ++ [n])) = true) : ∃ s e, Source n s e := by
  cases hn : splitName n with
  | mk s extension =>
    cases extension with
    | none => simp [isSupported, hasExtension, extension?_ofNames h, hn] at hsupported
    | some e =>
      rw [isSupported, Bool.or_eq_true, hasExtension_ofNames h hn, hasExtension_ofNames h hn]
        at hsupported
      exact ⟨s, e, hn, hsupported⟩

/-! ### Entry files -/

/-- The name of the file with the entries of a source file. After a point alone nothing can be cut,
so there the extension is lost. -/
def entryName (s e : Text) : Text :=
  if s = ['.'] then ['.', '.']
  else s ++ '.' :: Text.of (if lowered e = Text.of "tscn" then "tscn.json" else "json")

theorem dropTail_of_ne {c : Char} {t : Text} (hc : c ≠ '/') :
    dropTail ('.' :: c :: t) = '.' :: c :: t := by
  unfold dropTail
  split
  · next heq => simp at heq
  · next heq =>
    simp only [List.cons.injEq, true_and] at heq
    exact absurd heq.1 hc
  · rfl

/-- What takes the place of an extension stands after the point before it. -/
theorem withExtension_ofNames (h : ∀ m ∈ dir ++ [n], Plain m) (hn : splitName n = (s, some e))
    (extension : Text) : withExtension (ofNames (dir ++ [n])) extension =
      ofNames (dir ++ [if s = ['.'] then ['.', '.'] else s ++ '.' :: extension]) := by
  obtain ⟨before, hbefore⟩ := Text.exists_join_concat ['/'] dir
  obtain ⟨rfl, hs, -⟩ := splitName_eq_iff.1 hn
  have hslash : '/' ∉ s ++ ['.'] := by
    have hname := (h (s ++ '.' :: e) (by simp)).2.2.2
    simp only [List.mem_append, List.mem_cons, not_or] at hname ⊢
    exact ⟨hname.1, by decide⟩
  have hcut : List.take ((ofNames (dir ++ [s ++ '.' :: e])).length - e.length)
      (ofNames (dir ++ [s ++ '.' :: e])) = ofNames (dir ++ [s ++ ['.']]) := by
    have hpath : ofNames (dir ++ [s ++ '.' :: e]) = ofNames (dir ++ [s ++ ['.']]) ++ e := by
      simp [ofNames, hbefore]
    rw [hpath, List.length_append, Nat.add_sub_cancel, List.take_left]
  have hdir : ∀ m ∈ dir, Plain m := fun m hm => h m (by simp [hm])
  have hparts : parts (ofNames (dir ++ [s ++ ['.']])) =
      dir.map .name ++ (partOf? (s ++ ['.'])).toList :=
    parts_ofNames_concat hdir ⟨by simp, by simp [hs], hslash⟩
  rw [withExtension, extension?_ofNames h, hn, Option.getD_some, hcut]
  by_cases hpoint : s = ['.']
  · subst hpoint
    have hname : fileName? (ofNames (dir ++ [['.', '.']])) = none := by
      rw [fileName?, show ['.', '.'] = ['.'] ++ ['.'] from rfl, hparts]
      simp [partOf?]
    rw [if_pos rfl, setExtension, List.singleton_append, hname]
  · have hname : fileName? (ofNames (dir ++ [s ++ ['.']])) = some (s ++ ['.']) := by
      have hpart : partOf? (s ++ ['.']) = some (.name (s ++ ['.'])) := by
        simp [partOf?, hs, List.append_eq_cons_iff, hpoint]
      rw [fileName?, hparts, hpart]
      simp
    have hsplit : splitName (s ++ ['.']) = (s, some []) := splitName_eq_iff.2 ⟨rfl, hs, by simp⟩
    have hkept : dropTail (ofNames (dir ++ [s ++ ['.']])).reverse =
        (ofNames (dir ++ [s ++ ['.']])).reverse := by
      obtain ⟨init, last, rfl⟩ := List.eq_nil_or_concat s |>.resolve_left hs
      have hlast : last ≠ '/' := by
        rintro rfl
        simp at hslash
      simp [ofNames, hbefore, dropTail_of_ne hlast]
    rw [if_neg hpoint, setExtension, hname]
    simp only [hsplit, hkept, List.length_append, List.length_singleton, Nat.add_sub_cancel_left]
    simp [ofNames, hbefore]

theorem entryFile_ofNames (h : ∀ m ∈ dir ++ [n], Plain m) (hn : Source n s e) :
    entryFile (ofNames (dir ++ [n])) = ofNames (dir ++ [entryName s e]) := by
  rw [entryFile, withExtension_ofNames h hn.split, entryName]
  simp only [hasExtension_ofNames h hn.split]

theorem notMem_entryName (hn : Source n s e) (h : '/' ∉ n) : '/' ∉ entryName s e := by
  obtain ⟨rfl, -, -⟩ := splitName_eq_iff.1 hn.split
  have hs : '/' ∉ s := fun hmem => h (by simp [hmem])
  unfold entryName
  split
  · decide
  · rw [List.mem_append, not_or]
    refine ⟨hs, ?_⟩
    split <;> decide

theorem entryName_of_scene (hs : s ≠ ['.']) (he : lowered e = Text.of "tscn") :
    entryName s e = s ++ Text.of ".tscn" ++ Text.of ".json" := by
  rw [entryName, if_neg hs, if_pos he, List.append_assoc]
  rfl

theorem entryName_of_script (hs : s ≠ ['.']) (he : lowered e = Text.of "gd") :
    entryName s e = s ++ Text.of ".json" := by
  rw [entryName, if_neg hs, if_neg (by rw [he]; decide)]
  rfl

/-- A name that is not lost ends as entry files do. -/
theorem entryName_ne (hs : s ≠ ['.']) : entryName s e ≠ ['.', '.'] := by
  intro h
  have hlength := congrArg List.length h
  rw [entryName, if_neg hs, List.length_append, List.length_cons] at hlength
  have hlong : 4 ≤ (Text.of (if lowered e = Text.of "tscn" then "tscn.json" else "json")).length := by
    split <;> decide
  simp only [List.length_cons, List.length_nil] at hlength
  omega

/-- Whether a script has the name of a scene before its own extension. -/
def ScriptOfScene (s e s' e' : Text) : Prop :=
  s ≠ ['.'] ∧ lowered e = Text.of "tscn" ∧ lowered e' = Text.of "gd" ∧ s' = s ++ Text.of ".tscn"

/-- Whether the names of two source files have one entry name: their extensions differ in spelling
only or are both lost, or one is a script with the name of the other, a scene. -/
def OneEntryName (s e s' e' : Text) : Prop :=
  s = s' ∧ (lowered e = lowered e' ∨ s = ['.']) ∨
    ScriptOfScene s e s' e' ∨ ScriptOfScene s' e' s e

theorem entryName_eq_iff (hn : Source n s e) (hm : Source m s' e') :
    entryName s e = entryName s' e' ↔ OneEntryName s e s' e' := by
  unfold OneEntryName ScriptOfScene
  have hpoint : entryName ['.'] e = ['.', '.'] := rfl
  have hlong (t : Text) : t ++ Text.of ".tscn" ≠ ['.'] := by
    intro h
    have hlength := congrArg List.length h
    simp [Text.of] at hlength
  have hgd : Text.of "tscn" ≠ Text.of "gd" := by decide
  by_cases hs : s = ['.']
  · subst hs
    by_cases hs' : s' = ['.']
    · subst hs'
      exact iff_of_true rfl (.inl ⟨rfl, .inr rfl⟩)
    · have hne : entryName ['.'] e ≠ entryName s' e' := fun h => entryName_ne hs' h.symm
      simp [hne, Ne.symm hs', (hlong s').symm]
  · by_cases hs' : s' = ['.']
    · subst hs'
      have hne : entryName s e ≠ entryName ['.'] e' := entryName_ne hs
      simp [hne, hs, (hlong s).symm]
    · rcases hn.kind with he | he <;> rcases hm.kind with he' | he'
      · rw [entryName_of_script hs he, entryName_of_script hs' he', List.append_left_inj]
        simp [he, he', hgd.symm]
      · rw [entryName_of_script hs he, entryName_of_scene hs' he', List.append_left_inj]
        simp [he, he', hs, hs', hgd.symm]
      · rw [entryName_of_scene hs he, entryName_of_script hs' he', List.append_left_inj]
        simp [he, he', hs, hgd, eq_comm]
      · rw [entryName_of_scene hs he, entryName_of_scene hs' he', List.append_left_inj,
          List.append_left_inj]
        simp [he, he', hgd]

/-- Two source files have one entry file exactly if they are in one directory and their names have one
entry name. -/
theorem entryFile_eq_iff (h : ∀ k ∈ dir ++ [n], Plain k) (h' : ∀ k ∈ dir' ++ [m], Plain k)
    (hn : Source n s e) (hm : Source m s' e') :
    entryFile (ofNames (dir ++ [n])) = entryFile (ofNames (dir' ++ [m])) ↔
      dir = dir' ∧ OneEntryName s e s' e' := by
  have hslash {dir : List Text} {n s e : Text} (h : ∀ k ∈ dir ++ [n], Plain k)
      (hn : Source n s e) : ∀ k ∈ dir ++ [entryName s e], '/' ∉ k := by
    intro k hk
    rcases List.mem_append.1 hk with hk | hk
    · exact (h k (List.mem_append_left _ hk)).2.2.2
    · rw [List.mem_singleton.1 hk]
      exact notMem_entryName hn (h n (by simp)).2.2.2
  rw [entryFile_ofNames h hn, entryFile_ofNames h' hm,
    ofNames_inj (by simp) (by simp) (hslash h hn) (hslash h' hm), ← entryName_eq_iff hn hm,
    ← List.concat_eq_append, ← List.concat_eq_append, List.concat_inj]

/-- Spellings of the extension are lost. -/
theorem entryFile_spelling : entryFile (Text.of "x.gd") = entryFile (Text.of "x.GD") := by decide

/-- A script can take the entry file of a scene. -/
theorem entryFile_scene : entryFile (Text.of "x.tscn") = entryFile (Text.of "x.tscn.gd") := by decide

end Path

namespace FileTree

/-- All names are such as directories can hold. -/
def Proper (t : FileTree) : Prop := ∀ file ∈ t.files, ∀ n ∈ file.1, Path.Plain n

instance (t : FileTree) : Decidable t.Proper := inferInstanceAs (Decidable (∀ file ∈ t.files, _))

theorem mem_files_of_mem_below {t : FileTree} {place : List Text} {file : List Text × Bytes}
    (h : file ∈ t.below place) : (place ++ file.1, file.2) ∈ t.files ∧ file.1 ≠ [] := by
  rw [below, List.mem_mergeSort, List.mem_filterMap] at h
  obtain ⟨⟨names, bytes⟩, hmem, hfile⟩ := h
  simp only [Option.ite_none_right_eq_some, Option.some.injEq, Bool.and_eq_true,
    List.isPrefixOf_iff_prefix, bne_iff_ne] at hfile
  obtain ⟨⟨⟨rest, rfl⟩, hne⟩, rfl⟩ := hfile
  rw [List.drop_left]
  refine ⟨hmem, ?_⟩
  rintro rfl
  simp at hne

end FileTree

namespace Project

variable {p : Project} {tree : FileTree} {found : List (List Text)} {a b : List Text}

/-- A source file has plain names below the root. -/
theorem plain_of_discover (htree : tree.Proper) (hroot : tree.isDir p.root = true)
    (hfound : p.discover tree = .ok found) (ha : a ∈ found) :
    a ≠ [] ∧ (∀ n ∈ a, Path.Plain n) ∧ (Path.ofNames a).isSupported = true := by
  obtain ⟨top, htop, hdir⟩ := (Option.any_eq_true _ _).1 hroot
  simp only [discover, htop, if_pos hdir, Except.ok.injEq] at hfound
  subst hfound
  obtain ⟨hbelow, hkept⟩ := List.mem_filter.1 ha
  obtain ⟨file, hfile, rfl⟩ := List.mem_map.1 hbelow
  obtain ⟨hmem, hne⟩ := FileTree.mem_files_of_mem_below hfile
  exact ⟨hne, fun n hn => htree _ hmem n (List.mem_append_right _ hn),
    (Bool.and_eq_true_iff.1 hkept).1⟩

theorem exists_source_of_discover (htree : tree.Proper) (hroot : tree.isDir p.root = true)
    (hfound : p.discover tree = .ok found) (ha : a ∈ found) :
    ∃ dir n s e, a = dir ++ [n] ∧ (∀ m ∈ dir ++ [n], Path.Plain m) ∧ Path.Source n s e := by
  obtain ⟨hne, hplain, hsupported⟩ := plain_of_discover htree hroot hfound ha
  obtain ⟨dir, n, rfl⟩ := List.eq_nil_or_concat a |>.resolve_left hne
  rw [List.concat_eq_append] at hplain hsupported ⊢
  obtain ⟨s, e, hsource⟩ := Path.exists_source_of_isSupported hplain hsupported
  exact ⟨dir, n, s, e, rfl, hplain, hsource⟩

/-- Entry files of source files overwrite each other in these cases and in no others. -/
theorem entryFile_eq_iff_of_discover (htree : tree.Proper) (hroot : tree.isDir p.root = true)
    (hfound : p.discover tree = .ok found) (ha : a ∈ found) (hb : b ∈ found) :
    (Path.ofNames a).entryFile = (Path.ofNames b).entryFile ↔
      ∃ dir n m s e s' e', a = dir ++ [n] ∧ b = dir ++ [m] ∧ Path.Source n s e ∧
        Path.Source m s' e' ∧ Path.OneEntryName s e s' e' := by
  obtain ⟨dir, n, s, e, rfl, hplain, hn⟩ := exists_source_of_discover htree hroot hfound ha
  obtain ⟨dir', m, s', e', rfl, hplain', hm⟩ := exists_source_of_discover htree hroot hfound hb
  constructor
  · intro h
    obtain ⟨rfl, hone⟩ := (Path.entryFile_eq_iff hplain hplain' hn hm).1 h
    exact ⟨dir, n, m, s, e, s', e', rfl, rfl, hn, hm, hone⟩
  · rintro ⟨dir₁, n₁, m₁, s₁, e₁, s₁', e₁', hnames, hnames', hn₁, hm₁, hone⟩
    rw [hnames] at hplain ⊢
    rw [hnames'] at hplain' ⊢
    exact (Path.entryFile_eq_iff hplain hplain' hn₁ hm₁).2 ⟨rfl, hone⟩

end Project

/-! ### Keys in the store -/

namespace Store

variable {key : Text} {names : List Text} {p : Path}

/-- The key of what is kept for good: it is valid, and neither clearing up nor writing and reading a
store again loses what is under it. -/
structure Lasting (key : Text) : Prop where
  valid : isValidKey key = true
  pruned (s : Store) : s.prune.indexes.get? key = s.indexes.get? key
  loaded {s : Store} {file : Path} {tree tree' : FileTree} (h : s.Sound)
    (hsave : (s.save file).on tree = (.ok (), tree')) :
    ∃ t, load tree' file = .ok t ∧ t.indexes.get? key = (s.indexes.get? key).map Index.reread

theorem lasting_of_isValidKey (h : isValidKey key = true) : Lasting key where
  valid := h
  pruned s := Table.get?_filter isValidKey s.indexes h
  loaded {s _ _ _} hsound hsave :=
    ⟨s.reread, load_of_save hsound hsave, get?_reread hsound h⟩

theorem keyOf_eq_self (h : '\\' ∉ p) : keyOf p = p := by
  conv_rhs => rw [← List.map_id p]
  refine List.map_congr_left fun c hc => if_neg ?_
  rintro rfl
  exact h hc

/-- A supported path with plain names is a valid key. -/
theorem isValidKey_ofNames (hne : names ≠ []) (h : ∀ n ∈ names, Path.Plain n)
    (hsupported : (Path.ofNames names).isSupported = true) :
    isValidKey (Path.ofNames names) = true := by
  have hparts := Path.parts_ofNames hne h
  have hkey : (Path.ofNames names).isEmpty = false := by
    rw [List.isEmpty_eq_false_iff]
    intro hempty
    rw [hempty] at hsupported
    exact absurd hsupported (by decide)
  simp only [isValidKey, hkey, hsupported, hparts, Bool.not_false, Bool.true_and, List.all_map,
    List.all_eq_true]
  exact fun _ _ => rfl

end Store

namespace Project

variable {p : Project} {tree : FileTree} {found : List (List Text)}

/-- Without backslashes in names, every source file has its own lasting key. -/
theorem lasting_keys (htree : tree.Proper) (hroot : tree.isDir p.root = true)
    (hfound : p.discover tree = .ok found) :
    (∀ a ∈ found, '\\' ∉ Path.ofNames a → Store.Lasting (Store.keyOf (Path.ofNames a))) ∧
      ∀ a ∈ found, ∀ b ∈ found, '\\' ∉ Path.ofNames a → '\\' ∉ Path.ofNames b →
        Store.keyOf (Path.ofNames a) = Store.keyOf (Path.ofNames b) → a = b := by
  constructor
  · intro a ha hslash
    obtain ⟨hne, hplain, hsupported⟩ := plain_of_discover htree hroot hfound ha
    rw [Store.keyOf_eq_self hslash]
    exact Store.lasting_of_isValidKey (Store.isValidKey_ofNames hne hplain hsupported)
  · intro a ha b hb hslash hslash' hkey
    obtain ⟨hne, hplain, -⟩ := plain_of_discover htree hroot hfound ha
    obtain ⟨hne', hplain', -⟩ := plain_of_discover htree hroot hfound hb
    rw [Store.keyOf_eq_self hslash, Store.keyOf_eq_self hslash'] at hkey
    exact (Path.ofNames_inj hne hne' (fun n hn => (hplain n hn).2.2.2)
      fun n hn => (hplain' n hn).2.2.2).1 hkey

/-- Two files with the same name in two directories have a lasting key each. -/
theorem lasting_keys_two :
    let p : Project := { (default : Project) with root := ['.'] }
    let a : List Text := [Text.of "A", Text.of "Intro.gd"]
    let b : List Text := [Text.of "B", Text.of "Intro.gd"]
    let tree : FileTree := ⟨[], [[Text.of "A"], [Text.of "B"]], [(b, []), (a, [])]⟩
    p.discover tree = .ok [a, b] ∧ Store.Lasting (Store.keyOf (Path.ofNames a)) ∧
      Store.Lasting (Store.keyOf (Path.ofNames b)) ∧
      Store.keyOf (Path.ofNames a) ≠ Store.keyOf (Path.ofNames b) := by
  intro p a b tree
  have hbelow : tree.below [] = [(a, []), (b, [])] := by
    have hba : Path.notAfter b a = false := by decide
    change List.mergeSort [(b, []), (a, [])] _ = _
    simp [List.mergeSort, hba]
  have hfound : p.discover tree = .ok [a, b] := by
    have hplace : tree.place? p.root = some [] := by decide
    have hdir : tree.isDirAt [] = true := by decide
    simp only [discover, hplace, hdir, hbelow, if_true]
    decide
  have htree : tree.Proper := by decide
  have hroot : tree.isDir p.root = true := by decide
  obtain ⟨hlasting, hkeys⟩ := lasting_keys htree hroot hfound
  refine ⟨hfound, hlasting a (by simp) (by decide), hlasting b (by simp) (by decide), ?_⟩
  intro hkey
  exact absurd (hkeys a (by simp) b (by simp) (by decide) (by decide) hkey) (by decide)

/-- A backslash in a name counts as a slash: the key of such a file may lead out of the project, and
it may be that of another file. -/
theorem keys_backslash :
    let p : Project := { (default : Project) with root := ['.'] }
    let tree : FileTree := ⟨[], [[Text.of "a"]],
      [([Text.of "a", Text.of "b.gd"], []), ([Text.of "a\\b.gd"], []), ([Text.of "..\\c.gd"], [])]⟩
    tree.Proper ∧ p.discover tree =
        .ok [[Text.of "..\\c.gd"], [Text.of "a", Text.of "b.gd"], [Text.of "a\\b.gd"]] ∧
      Store.isValidKey (Store.keyOf (Path.ofNames [Text.of "..\\c.gd"])) = false ∧
      Store.keyOf (Path.ofNames [Text.of "a", Text.of "b.gd"]) =
        Store.keyOf (Path.ofNames [Text.of "a\\b.gd"]) := by
  intro p tree
  let a := [Text.of "a", Text.of "b.gd"]
  let b := [Text.of "a\\b.gd"]
  let c := [Text.of "..\\c.gd"]
  have hbelow : tree.below [] = [(c, []), (a, []), (b, [])] := by
    have hab : Path.notAfter a b = true := by decide
    have hac : Path.notAfter a c = false := by decide
    change List.mergeSort [(a, []), (b, []), (c, [])] _ = _
    simp [List.mergeSort, hab, hac]
  have hfound : p.discover tree = .ok [c, a, b] := by
    have hplace : tree.place? p.root = some [] := by decide
    have hdir : tree.isDirAt [] = true := by decide
    simp only [discover, hplace, hdir, hbelow, if_true]
    decide
  exact ⟨by decide, hfound, by decide, by decide⟩

end Project

end Phrasebook
