import Phrasebook.Project
import Phrasebook.Proofs.Files
import Phrasebook.Proofs.Keys

/-!
Keys from run to run.

A run reads the store, extracts files in any order and writes the store again. The key of an entry is
the stem of its file with the number of its fingerprint, so it stays the same as long as the number
does. `Store.Kept` ties the index of one key to all extractions so far; work in a run keeps it up
(`Store.Kept.work`), and so does a store that is written and read (`Store.Kept.reread`).
-/
namespace Phrasebook

theorem Text.ofNat_inj {m n : Nat} (h : Text.ofNat m = Text.ofNat n) : m = n := by
  have hm := @Nat.ofDigitChars_ten_toDigits m
  rw [show Nat.toDigits 10 m = Nat.toDigits 10 n from h, Nat.ofDigitChars_ten_toDigits] at hm
  exact hm.symm

namespace Index

/-- The key of an entry is made of its stem and the number of its fingerprint. -/
def Names (x : Index) (stem : Text) (e : Entry) : Prop :=
  ∃ n, x.lookup e.fingerprint = some n ∧ e.key = stem ++ '_' :: Text.ofNat n.toNat

variable {x : Index} {asked : List Text} {stem : Text} {e e' : Entry}

/-- Entries of one stem have one key exactly if they have one fingerprint. -/
theorem Numbered.key_eq_iff (h : x.Numbered asked) (he : x.Names stem e) (he' : x.Names stem e') :
    e.fingerprint = e'.fingerprint ↔ e.key = e'.key := by
  obtain ⟨n, hn, hkey⟩ := he
  obtain ⟨n', hn', hkey'⟩ := he'
  rw [hkey, hkey', List.append_cancel_left_eq, List.cons.injEq]
  constructor
  · intro heq
    rw [heq, hn'] at hn
    rw [Option.some.inj hn]
    exact ⟨rfl, rfl⟩
  · rintro ⟨-, heq⟩
    rw [← UInt64.toNat_inj.1 (Text.ofNat_inj heq)] at hn'
    exact h.unique hn hn'

end Index

namespace Scene

variable {x y : Index} {asked : List Text} {stem : Text} {es keyed : List Entry}

/-- Entries are given keys as their fingerprints are numbered. -/
theorem names_assignKeys (h : assignKeys stem x es = .ok (keyed, y)) :
    ∀ e ∈ keyed, y.Names stem e := by
  obtain ⟨ns, hns, rfl⟩ := assignKeys_eq_ok_iff.1 h
  have hnumbers := Index.forall₂_assignAll hns
  clear hns h
  induction hnumbers with
  | nil => simp
  | @cons e n es ns he _ ih => exact List.forall_mem_cons.2 ⟨⟨n, he, rfl⟩, ih⟩

theorem numbered_assignKeys (hx : x.Numbered asked) (h : assignKeys stem x es = .ok (keyed, y)) :
    y.Numbered (asked ++ keyed.map Entry.fingerprint) := by
  have hsame : keyed.map Entry.fingerprint = es.map Entry.fingerprint :=
    map_assignKeys (fun _ _ => rfl) h
  obtain ⟨ns, hns, -⟩ := assignKeys_eq_ok_iff.1 h
  rw [hsame]
  exact hx.assignAll hns

end Scene

namespace Project

variable {p : Project} {file : Path} {stem content : Text} {x x' : Index}

theorem exists_items {script : Script} (h : p.parseScript stem content x = .ok (script, x')) :
    ∃ items, Script.assignKeys stem x items = .ok (script.items, x') := by
  rw [parseScript] at h
  split at h
  · obtain ⟨⟨items, y⟩, hitems, h⟩ := bind_ok_iff.1 h
    cases h
    exact ⟨_, hitems⟩
  · obtain ⟨t, items, -, hitems, rfl⟩ := Script.parse_eq_ok_iff.1 h
    exact ⟨_, hitems⟩

variable {entries : List Entry} {notes : List Note}

/-- Whatever a source file is, its entries are found first and then given their keys. -/
theorem exists_found (h : p.entriesOf file content x = .ok (entries, x', notes)) :
    ∃ found, Scene.assignKeys (stemOf file) x found = .ok (entries, x') := by
  simp only [entriesOf] at h
  split at h
  · obtain ⟨⟨script, y⟩, hparse, h⟩ := map_ok_iff.1 h
    cases h
    obtain ⟨items, hitems⟩ := exists_items hparse
    refine ⟨items.map (·.entry), ?_⟩
    rw [Script.assignKeys_entries, hitems]
    rfl
  · obtain ⟨⟨found, y⟩, hfound, h⟩ := map_ok_iff.1 h
    cases h
    exact ⟨_, hfound⟩

theorem sound_entriesOf (h : p.entriesOf file content x = .ok (entries, x', notes)) (hx : x.Sound) :
    x'.Sound := by
  obtain ⟨found, hfound⟩ := exists_found h
  obtain ⟨ns, hns, -⟩ := Scene.assignKeys_eq_ok_iff.1 hfound
  exact hx.assignAll hns

theorem names_entriesOf {e : Entry} {stem : Text}
    (h : p.entriesOf file content x = .ok (entries, x', notes)) (he : x.Names stem e) :
    x'.Names stem e := by
  obtain ⟨found, hfound⟩ := exists_found h
  obtain ⟨ns, hns, -⟩ := Scene.assignKeys_eq_ok_iff.1 hfound
  obtain ⟨n, hn, hkey⟩ := he
  exact ⟨n, Index.lookup_assignAll hns hn, hkey⟩

theorem numbered_entriesOf {asked : List Text}
    (h : p.entriesOf file content x = .ok (entries, x', notes)) (hx : x.Numbered asked) :
    x'.Numbered (asked ++ entries.map Entry.fingerprint) ∧
      ∀ e ∈ entries, x'.Names (stemOf file) e := by
  obtain ⟨found, hfound⟩ := exists_found h
  exact ⟨Scene.numbered_assignKeys hx hfound, Scene.names_assignKeys hfound⟩

end Project

namespace Store

variable {s t : Store} {p file : Path} {k : Text} {x : Index}

/-- The index under a key, empty if there is none. -/
def under (s : Store) (k : Text) : Index := (s.indexes.get? k).getD .empty

theorem under_setIndex (s : Store) (file : Path) (x : Index) (k : Text) :
    (s.setIndex file x).under k = if k = keyOf file then x else s.under k := by
  rw [under, setIndex, Table.get?_put]
  split <;> rfl

theorem under_clearPositions (s : Store) (k : Text) :
    s.clearPositions.under k = (s.under k).clearPositions := by
  rw [under, clearPositions, Table.get?_map Index.clearPositions, under]
  cases s.indexes.get? k <;> rfl

/-- No key is repeated, and in every index the next number is free. -/
structure Sound (s : Store) : Prop where
  keys : (s.indexes.map (·.1)).Nodup
  indexes : ∀ e ∈ s.indexes, e.2.Sound

theorem sound_empty : empty.Sound := ⟨List.nodup_nil, by simp [empty]⟩

theorem Sound.under (h : s.Sound) (k : Text) : (s.under k).Sound := by
  rw [Store.under]
  cases hk : s.indexes.get? k with
  | none => exact Index.sound_empty
  | some x => exact h.indexes _ (Table.mem_of_get? hk)

theorem Sound.setIndex (h : s.Sound) (file : Path) (hx : x.Sound) :
    (s.setIndex file x).Sound := by
  refine ⟨Table.nodup_put h.keys _ _, ?_⟩
  intro e he
  rcases List.mem_append.1 he with he | he
  · exact h.indexes e (List.mem_filter.1 he).1
  · rw [List.mem_singleton.1 he]
    exact hx

theorem Sound.clearPositions (h : s.Sound) : s.clearPositions.Sound := by
  refine ⟨?_, ?_⟩
  · rw [Store.clearPositions, List.map_map]
    exact h.keys
  · intro e he
    obtain ⟨e', he', rfl⟩ := List.mem_map.1 he
    exact (h.indexes e' he').clearPositions

/-! ### Writing and reading -/

/-- The store as it is when it has been written and read again. -/
def reread (s : Store) : Store := prune ⟨s.indexes.sorted.map fun e => (e.1, e.2.reread)⟩

theorem Sound.reread (h : s.Sound) : s.reread.Sound := by
  have hperm := s.indexes.sorted_perm
  have hkeys : (s.indexes.sorted.map (·.1)).Nodup := (hperm.map _).nodup_iff.2 h.keys
  refine ⟨?_, ?_⟩
  · refine List.Nodup.sublist (List.filter_sublist.map _) ?_
    rw [List.map_map]
    exact hkeys
  · intro e he
    obtain ⟨e', he', rfl⟩ := List.mem_map.1 (List.mem_filter.1 he).1
    exact (h.indexes e' (hperm.mem_iff.1 he')).reread

/-- Only keys that are not valid are lost. -/
theorem get?_reread (h : s.Sound) (hk : isValidKey k = true) :
    s.reread.indexes.get? k = (s.indexes.get? k).map Index.reread := by
  rw [reread, prune, Table.get?_filter isValidKey _ hk, Table.get?_map Index.reread,
    Table.get?_perm s.indexes.sorted_perm h.keys]

theorem under_reread (h : s.Sound) (hk : isValidKey k = true) :
    s.reread.under k = (s.under k).reread := by
  rw [under, get?_reread h hk, under]
  cases s.indexes.get? k with
  | none => exact Index.reread_empty.symm
  | some x => rfl

theorem parse_render (h : s.Sound) : parse s.render = .ok s.reread := by
  have hperm := s.indexes.sorted_perm
  have hkeys : ((s.indexes.sorted.map fun e => (e.1, e.2.reread)).map (·.1)).Nodup := by
    rw [List.map_map]
    exact (hperm.map _).nodup_iff.2 h.keys
  have hproper : (Json.object (s.indexes.sorted.map fun e => (some e.1, e.2.toJson))).Proper := by
    have hindexes : ∀ e ∈ s.indexes.sorted.map fun e => (e.1, e.2.toJson), e.2.Proper :=
      List.forall_mem_map.2 fun e _ => e.2.proper_toJson
    have hobject := Json.Proper.object hindexes
    rw [List.map_map] at hobject
    exact hobject
  have hfold : (s.indexes.sorted.map fun e => (some e.1, e.2.toJson)).foldlM addField [] =
      Except.ok (s.indexes.sorted.map fun e => (e.1, e.2.reread)) := by
    refine Table.foldlM_put ?_ hkeys
    rw [List.forall₂_map_left_iff, List.forall₂_map_right_iff, List.forall₂_same]
    intro e he table
    rw [addField, Index.ofJson_toJson (h.indexes e (hperm.mem_iff.1 he))]
    rfl
  have hblank : s.render.isBlank = false := by
    rw [render]
    cases s.indexes.sorted <;> rfl
  have hfields := Json.soundFields_of_leading?
    (Json.leading?_of_written (Json.written_pretty hproper 0))
  rw [parse, hblank, if_neg Bool.false_ne_true, render, hfields]
  simp only [hfold]
  rfl

theorem load_of_save {tree tree' : FileTree} (h : s.Sound)
    (hsave : (s.save p).on tree = (.ok (), tree')) : load tree' p = .ok s.reread := by
  obtain ⟨hexists, hread⟩ := FileTree.readText_of_writeDeep hsave
  rw [load, if_pos hexists, hread]
  exact parse_render h

/-! ### Runs -/

/-- A source file with the entries that came of it. -/
structure Extraction where
  file : Path
  entries : List Entry

/-- The fingerprints that came of the files with a key, in order. -/
def asked (k : Text) (done : List Extraction) : List Text :=
  (done.filter fun a => keyOf a.file = k).flatMap fun a => a.entries.map Entry.fingerprint

/-- What is done with a store between reading and writing it: files with any content are extracted in
any order, by any settings. -/
inductive Work (s : Store) : List Extraction → Store → Prop where
  | refl : Work s [] s
  | extract {t : Store} {done : List Extraction} {project : Project} {file : Path} {content : Text}
      {entries : List Entry} {x : Index} {notes : List Project.Note} (h : Work s done t)
      (hfile : project.entriesOf file content (t.index file) = .ok (entries, x, notes)) :
      Work s (done ++ [⟨file, entries⟩]) (t.setIndex file x)
  /-- A file that cannot be parsed has an index all the same. -/
  | fail {t : Store} {done : List Extraction} (h : Work s done t) (file : Path) :
      Work s done (t.setIndex file (t.index file))
  | clear {t : Store} {done : List Extraction} (h : Work s done t) : Work s done t.clearPositions

/-- Runs one after another with the store at `p`, which is not there at first. Other files may change in
any way between runs and while they last. -/
inductive Runs (p : Path) : List Extraction → FileTree → Prop where
  | start {tree : FileTree} (h : tree.exists? p = false) : Runs p [] tree
  | other {tree tree' : FileTree} {done : List Extraction} (h : Runs p done tree)
      (hexists : tree'.exists? p = tree.exists? p) (hread : tree'.readText p = tree.readText p) :
      Runs p done tree'
  | run {tree before after : FileTree} {done more : List Extraction} {s t : Store}
      (h : Runs p done tree) (hload : load tree p = .ok s) (hwork : Work s more t)
      (hsave : (t.save p).on before = (.ok (), after)) : Runs p (done ++ more) after

variable {done more : List Extraction}

theorem asked_append (k : Text) (done more : List Extraction) :
    asked k (done ++ more) = asked k done ++ asked k more := by
  rw [asked, List.filter_append, List.flatMap_append]
  rfl

theorem Sound.work (h : s.Sound) (hwork : Work s done t) : t.Sound := by
  induction hwork with
  | refl => exact h
  | extract _ hfile ih => exact ih.setIndex _ (Project.sound_entriesOf hfile (ih.under _))
  | fail _ file ih => exact ih.setIndex file (ih.under _)
  | clear _ ih => exact ih.clearPositions

/-- The index under a key has numbered the fingerprints of all extractions with that key, and the keys of
their entries are still as they were given. -/
structure Kept (k : Text) (done : List Extraction) (s : Store) : Prop where
  numbered : (s.under k).Numbered (asked k done)
  names : ∀ a ∈ done, keyOf a.file = k → ∀ e ∈ a.entries,
    (s.under k).Names (Project.stemOf a.file) e

theorem kept_empty (k : Text) : Kept k [] empty := ⟨Index.numbered_empty, by simp⟩

/-- What matters for a key is only what is under it. -/
theorem Kept.congr (h : Kept k done s) (hnumbered : (t.under k).Numbered (asked k done))
    (hlookup : ∀ f, (t.under k).lookup f = (s.under k).lookup f) : Kept k done t := by
  refine ⟨hnumbered, ?_⟩
  intro a ha hk e he
  obtain ⟨n, hn, hkey⟩ := h.names a ha hk e he
  exact ⟨n, by rw [hlookup, hn], hkey⟩

theorem Kept.extract {project : Project} {content : Text} {entries : List Entry}
    {notes : List Project.Note} (h : Kept k done s)
    (hfile : project.entriesOf file content (s.index file) = .ok (entries, x, notes)) :
    Kept k (done ++ [⟨file, entries⟩]) (s.setIndex file x) := by
  by_cases hk : keyOf file = k
  · subst hk
    have hasked : asked (keyOf file) [⟨file, entries⟩] = entries.map Entry.fingerprint := by
      simp [asked]
    obtain ⟨hnumbered, hnames⟩ := Project.numbered_entriesOf hfile h.numbered
    have hunder : (s.setIndex file x).under (keyOf file) = x := by
      rw [under_setIndex, if_pos rfl]
    refine ⟨?_, ?_⟩
    · rw [hunder, asked_append, hasked]
      exact hnumbered
    · intro a ha hak e he
      rw [hunder]
      rcases List.mem_append.1 ha with ha | ha
      · exact Project.names_entriesOf hfile (h.names a ha hak e he)
      · cases List.mem_singleton.1 ha
        exact hnames e he
  · have hasked : asked k [⟨file, entries⟩] = [] := by simp [asked, hk]
    have hunder : (s.setIndex file x).under k = s.under k := by
      rw [under_setIndex, if_neg (Ne.symm hk)]
    refine ⟨?_, ?_⟩
    · rw [hunder, asked_append, hasked, List.append_nil]
      exact h.numbered
    · intro a ha hak e he
      rw [hunder]
      rcases List.mem_append.1 ha with ha | ha
      · exact h.names a ha hak e he
      · cases List.mem_singleton.1 ha
        exact absurd hak hk

theorem Kept.work (h : Kept k done s) (hwork : Work s more t) : Kept k (done ++ more) t := by
  induction hwork with
  | refl => simpa using h
  | extract _ hfile ih =>
    rw [← List.append_assoc]
    exact ih.extract hfile
  | @fail t _ _ file ih =>
    have hunder : (t.setIndex file (t.index file)).under k = t.under k := by
      rw [under_setIndex]
      split
      · next hk => rw [hk]; rfl
      · rfl
    refine ih.congr ?_ ?_
    · rw [hunder]
      exact ih.numbered
    · intro f
      rw [hunder]
  | clear _ ih =>
    refine ih.congr ?_ ?_
    · rw [under_clearPositions]
      exact ih.numbered.congr rfl rfl
    · intro f
      rw [under_clearPositions]
      rfl

theorem Kept.reread (h : Kept k done s) (hs : s.Sound) (hk : isValidKey k = true) :
    Kept k done s.reread := by
  obtain ⟨hnumbered, hlookup⟩ := h.numbered.reread
  refine h.congr ?_ ?_ <;> rw [under_reread hs hk]
  · exact hnumbered
  · exact hlookup

/-- However many runs there were, the store can be read, and everything is kept in it. -/
theorem Runs.exists_load {tree : FileTree} (h : Runs p done tree) :
    ∃ s, load tree p = .ok s ∧ s.Sound ∧ ∀ k, isValidKey k = true → Kept k done s := by
  induction h with
  | start hnone =>
    refine ⟨empty, ?_, sound_empty, fun k _ => kept_empty k⟩
    rw [load, hnone]
    rfl
  | other _ hexists hread ih =>
    obtain ⟨s, hload, hs⟩ := ih
    refine ⟨s, ?_, hs⟩
    rw [load, hexists, hread]
    exact hload
  | run _ hload hwork hsave ih =>
    obtain ⟨s, hload', hsound, hkept⟩ := ih
    rw [hload] at hload'
    cases hload'
    have ht := hsound.work hwork
    refine ⟨_, load_of_save ht hsave, ht.reread, ?_⟩
    intro k hk
    exact Kept.reread ((hkept k hk).work hwork) ht hk

/-- Keys are stable. After any runs the store can be read, and in whatever is extracted by then and in
the run that follows, entries of one file have one key exactly if they have one fingerprint. -/
theorem keys_stable {tree : FileTree} (h : Runs p done tree) :
    (∃ s, load tree p = .ok s) ∧
      ∀ s more t, load tree p = .ok s → Work s more t →
        ∀ a ∈ done ++ more, ∀ b ∈ done ++ more, a.file = b.file →
          isValidKey (keyOf a.file) = true →
          ∀ e ∈ a.entries, ∀ e' ∈ b.entries, e.fingerprint = e'.fingerprint ↔ e.key = e'.key := by
  obtain ⟨s, hload, -, hkept⟩ := h.exists_load
  refine ⟨⟨s, hload⟩, ?_⟩
  intro s' more t hload' hwork a ha b hb hfile hk e he e' he'
  rw [hload] at hload'
  cases hload'
  have hafter := (hkept _ hk).work hwork
  have hnames := hafter.names a ha rfl e he
  rw [hfile] at hafter hnames
  exact hafter.numbered.key_eq_iff hnames (hafter.names b hb rfl e' he')

/-- A text keeps its key although another one has been put before it. -/
theorem keys_stable_twice :
    let file : Path := Text.of "a.tscn"
    let old : Entry :=
      { Entry.new (Text.of "Hi") (some (Text.of "text = \"Hi\"")) with
        key := Text.of "a_0", positions := [⟨1, 8, 1, 10⟩] }
    ∃ tree s, Runs ['i'] [⟨file, [old]⟩] tree ∧ load tree ['i'] = .ok s ∧
      ∃ more t, Work s [⟨file, more⟩] t ∧ (more.map Entry.phrase = [Text.of "Yo", Text.of "Hi"]) ∧
        ∀ e ∈ more, old.fingerprint = e.fingerprint ↔ old.key = e.key := by
  intro file old
  let content : Text := Text.of "text = \"Hi\"\n"
  let content' : Text := Text.of "text = \"Yo\"\ntext = \"Hi\"\n"
  have hscene (x : Index) (c : Text) : (default : Project).entriesOf file c x =
      (Scene.parse ['a'] c x).map fun r => (r.1, r.2, []) := rfl
  have hparsed : (Scene.parse ['a'] content .empty).toOption.any (fun r => r.1 == [old] &&
      (Scene.parse ['a'] content' ((empty.setIndex file r.2).reread.index file)).toOption.any fun r' =>
        r'.1.map Entry.phrase == [Text.of "Yo", Text.of "Hi"]) = true := by
    decide +kernel
  obtain ⟨⟨first, x⟩, hfirst, hparsed⟩ := exists_ok_of_any hparsed
  obtain ⟨hold, hparsed⟩ := Bool.and_eq_true_iff.1 hparsed
  obtain ⟨⟨more, y⟩, hmore, hphrases⟩ := exists_ok_of_any hparsed
  have hold : first = [old] := beq_iff_eq.1 hold
  subst hold
  have hs : Work empty [⟨file, [old]⟩] (empty.setIndex file x) :=
    Work.refl.extract (by
      rw [hscene]
      exact congrArg (Except.map _) hfirst)
  have hstart : Runs ['i'] [] ⟨[], [], []⟩ := .start rfl
  have hsave : ((empty.setIndex file x).save ['i']).on ⟨[], [], []⟩ =
      (.ok (), ⟨[], [], [([['i']], (empty.setIndex file x).render.bytes)]⟩) := rfl
  have hruns := hstart.run rfl hs hsave
  have hload := load_of_save (sound_empty.work hs) hsave
  have hwork : Work (empty.setIndex file x).reread [⟨file, more⟩] _ :=
    Work.refl.extract (by
      rw [hscene]
      exact congrArg (Except.map _) hmore)
  refine ⟨_, _, hruns, hload, more, _, hwork, beq_iff_eq.1 hphrases, ?_⟩
  intro e he
  exact (keys_stable hruns).2 _ _ _ hload hwork ⟨file, [old]⟩ (by simp) ⟨file, more⟩ (by simp) rfl
    (by decide +kernel) old (by simp) e he

end Store

namespace Project

variable {p : Project} {output : Path} {s : Store} {done : List Store.Extraction}

theorem work_extractFile {w : Workspace} (h : s.Work done w.store) (file : Path) :
    ∃ more, s.Work (done ++ more) (p.extractFile output w file).workspace.store := by
  have hsame : s.Work (done ++ []) w.store := by simpa using h
  have hopen : s.Work done (openIndex w file).2.store := h.fail file
  simp only [extractFile]
  split
  · exact ⟨[], hsame⟩
  · split
    · exact ⟨[], hsame⟩
    · next content _ =>
      split
      · exact ⟨[], by simpa using hopen⟩
      · next entries x notes hfile =>
        have hindex : (openIndex w file).2.store.index file = (openIndex w file).1 := by
          have hunder := Store.under_setIndex w.store file (w.store.index file) (Store.keyOf file)
          rwa [if_pos rfl] at hunder
        rw [← hindex] at hfile
        have hdone := hopen.extract hfile
        split <;> exact ⟨_, hdone⟩

/-- The extraction of a project is a run's work with its store. -/
theorem work_extract (p : Project) (output : Path) (w : Workspace) :
    ∃ done, w.store.Work done (p.extract output w).2.store := by
  have hfiles (files : List (List Text)) : ∀ r (v : Workspace) (done : List Store.Extraction),
      w.store.Work done v.store →
        ∃ more, w.store.Work more (runFiles (p.extractFile output) r v files).2.store := by
    induction files with
    | nil => exact fun r v done hv => ⟨done, hv⟩
    | cons names files ih =>
      intro r v done hv
      obtain ⟨more, hmore⟩ := work_extractFile hv (Path.ofNames names)
      rw [runFiles]
      split
      · exact ⟨_, hmore⟩
      · exact ih _ _ _ hmore
  rw [extract]
  cases p.discover w.tree with
  | error fault => exact ⟨[], .refl⟩
  | ok files => exact hfiles files _ _ [] Store.Work.refl.clear

end Project

end Phrasebook
