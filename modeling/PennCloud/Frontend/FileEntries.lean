import PennCloud.Frontend.StorageIndex

/-!
# The entries of files

An entry with a colon is that of a file: its path in front of the first colon, and behind it the keys
of the chunks. The chunks are cells of the row of the path. The lemmas say which files an index
names after an entry has been added, replaced or left out.
-/

open PennCloud.Library.CppString PennCloud.Library.TextSearch PennCloud.Library.Programs
open PennCloud.KV.TabletCells PennCloud.Frontend.KVClient PennCloud.Frontend.HttpText
open PennCloud.Frontend.Storage PennCloud.Frontend.StorageIndex

namespace PennCloud.Frontend.FileEntries

/-- The path of a file; a folder has none. -/
def filePath (entry : Bytes) : Option Bytes := (cutEntry entry).map Prod.fst

/-- The keys of a file's chunks; a file may have no chunk. -/
def fileKeys (entry : Bytes) : List Bytes :=
  match cutEntry entry with
  | some (_, keys) => if keys = [] then [] else split keys plus
  | none => []

/-- Every chunk of the file is stored. -/
def Stored (user : Bytes) (store : Store) (entry : Bytes) : Prop :=
  ∀ path key, filePath entry = some path → key ∈ fileKeys entry →
    store (fileRow user path, key) ≠ none

/-- The number of entries of this file. -/
def fileCount (path index : Bytes) : ℕ := (entries index).countP (namesFile path)

/-! ## Pieces -/

theorem not_mem_of_mem_split {text piece : Bytes} {delimiter : UInt8}
    (h : piece ∈ split text delimiter) : delimiter ∉ piece :=
  fun hb ↦ (mem_of_mem_splitOn h hb).2 rfl

theorem join_split (text : Bytes) : join (split text comma) (lit ",") = text :=
  List.intercalate_splitOn comma

theorem entries_join {pieces : List Bytes} (h : ∀ piece ∈ pieces, comma ∉ piece) :
    entries (join pieces (lit ",")) = pieces.filter (· ≠ []) := by
  cases pieces with
  | nil => rfl
  | cons piece pieces =>
    have hsplit : split (join (piece :: pieces) (lit ",")) comma = piece :: pieces :=
      List.splitOn_intercalate comma h (List.cons_ne_nil piece pieces)
    rw [entries, hsplit]

theorem mem_entries {index entry : Bytes} :
    entry ∈ entries index ↔ entry ∈ split index comma ∧ entry ≠ [] := by
  rw [entries, List.mem_filter, decide_eq_true_iff]

/-! ## Empty pieces -/

theorem entries_cons_comma (text : Bytes) : entries (comma :: text) = entries text :=
  entries_append_comma [] text

theorem entries_comma (text : Bytes) : entries (text ++ [comma]) = entries text := by
  have h := entries_append_comma text []
  rwa [List.append_nil, entries_nil, List.append_nil] at h

/-- Two commas or one, the entries are the same. -/
theorem entries_replaceFirst (text : Bytes) :
    entries (replaceFirst text (lit ",,") (lit ",")) = entries text := by
  unfold replaceFirst
  split
  · next p hfind =>
    have htext := eq_of_find? hfind
    have hcut : text.take p ++ lit ",," ++ text.drop (p + (lit ",,").length) =
        text.take p ++ lit "," ++ (comma :: text.drop (p + (lit ",,").length)) := by
      rw [List.append_assoc, List.append_assoc]
      rfl
    conv_rhs => rw [htext, hcut, entries_append_comma, entries_cons_comma]
    exact entries_append_comma _ _
  · rfl

theorem length_replaceFirst {text : Bytes} (h : find? (lit ",,") text ≠ none) :
    (replaceFirst text (lit ",,") (lit ",")).length + 1 = text.length := by
  unfold replaceFirst
  split
  · next p hfind =>
    have hlength := add_length_le_of_find? hfind
    have htwo : (lit ",,").length = 2 := rfl
    have hone : (lit ",").length = 1 := rfl
    rw [List.length_append, List.length_append, List.length_take, List.length_drop, htwo, hone]
    omega
  · next hfind => exact absurd hfind h

/-- Induction over the rounds: a text without double commas stays, and another one has its first
double comma replaced. -/
theorem collapseCommas_induct {P : Bytes → Bytes → Prop}
    (hdone : ∀ text, find? (lit ",,") text = none → P text text)
    (hround : ∀ text result, find? (lit ",,") text ≠ none →
      P (replaceFirst text (lit ",,") (lit ",")) result → P text result) (text : Bytes) :
    P text (collapseCommas text) := by
  have hall : ∀ (n : ℕ) (text : Bytes), text.length ≤ n →
      P text ((fun text ↦ replaceFirst text (lit ",,") (lit ","))^[n] text) := by
    intro n
    induction n with
    | zero =>
      intro text hn
      obtain rfl := List.length_eq_zero_iff.mp (Nat.le_zero.mp hn)
      exact hdone [] rfl
    | succ n ih =>
      intro text hn
      rw [Function.iterate_succ_apply]
      by_cases hfind : find? (lit ",,") text = none
      · have hfixed : replaceFirst text (lit ",,") (lit ",") = text := by
          rw [replaceFirst, hfind]
        rw [hfixed, Function.iterate_fixed hfixed]
        exact hdone text hfind
      · have hlength := length_replaceFirst hfind
        exact hround text _ hfind (ih _ (by omega))
  exact hall text.length text le_rfl

theorem find?_collapseCommas (text : Bytes) : find? (lit ",,") (collapseCommas text) = none :=
  collapseCommas_induct (P := fun _ result ↦ find? (lit ",,") result = none)
    (fun _ hnone ↦ hnone) (fun _ _ _ hnone ↦ hnone) text

theorem entries_collapseCommas (text : Bytes) : entries (collapseCommas text) = entries text :=
  collapseCommas_induct (P := fun text result ↦ entries result = entries text) (fun _ _ ↦ rfl)
    (fun text _ _ hentries ↦ hentries.trans (entries_replaceFirst text)) text

theorem length_collapseCommas_le (text : Bytes) : (collapseCommas text).length ≤ text.length := by
  refine collapseCommas_induct (P := fun text result ↦ result.length ≤ text.length)
    (fun _ _ ↦ le_rfl) (fun text result hfind hle ↦ ?_) text
  have hlength := length_replaceFirst hfind
  omega

/-- An empty piece is at one of the ends, or between two commas. -/
theorem nil_mem_split {text : Bytes} (h : [] ∈ split text comma) :
    text = [] ∨ text.head? = some comma ∨ text.getLast? = some comma ∨ lit ",," <:+: text := by
  induction hn : text.length using Nat.strong_induction_on generalizing text with
  | _ n ih =>
    by_cases hcomma : comma ∈ text
    · obtain ⟨front, rest, rfl, hfront⟩ := List.eq_append_cons_of_mem hcomma
      rw [split, List.splitOn_append_cons_self_of_not_mem hfront, List.mem_cons] at h
      rcases h with rfl | hrest
      · exact .inr (.inl rfl)
      · have hshort : rest.length < n := by
          rw [← hn, List.length_append, List.length_cons]
          omega
        rcases ih _ hshort hrest rfl with rfl | hhead | hlast | hwithin
        · exact .inr (.inr (.inl List.getLast?_concat))
        · obtain ⟨more, rfl⟩ := List.head?_eq_some_iff.mp hhead
          exact .inr (.inr (.inr ⟨front, more, by simp [lit, comma]⟩))
        · obtain ⟨more, rfl⟩ := List.getLast?_eq_some_iff.mp hlast
          refine .inr (.inr (.inl ?_))
          rw [← List.cons_append, ← List.append_assoc]
          exact List.getLast?_concat
        · refine .inr (.inr (.inr (hwithin.trans ?_)))
          exact ((List.suffix_cons comma rest).trans (List.suffix_append front _)).isInfix
    · rw [split, List.splitOn_eq_singleton hcomma, List.mem_singleton] at h
      exact .inl h.symm

/-- Without empty pieces the entries make up the text. -/
theorem join_entries {text : Bytes} (hhead : text.head? ≠ some comma)
    (hlast : text.getLast? ≠ some comma) (hnone : ¬lit ",," <:+: text) :
    join (entries text) (lit ",") = text := by
  by_cases hempty : text = []
  · rw [hempty]
    rfl
  · rw [entries, List.filter_eq_self.mpr, join_split]
    intro piece hpiece
    refine decide_eq_true fun hnil ↦ ?_
    subst hnil
    rcases nil_mem_split hpiece with hnil | hfirst | hend | hwithin
    · exact hempty hnil
    · exact hhead hfirst
    · exact hlast hend
    · exact hnone hwithin

theorem infix_of_commas {text : Bytes} (front rest : Bytes)
    (h : text = front ++ comma :: comma :: rest) : lit ",," <:+: text :=
  ⟨front, rest, by simp [h, lit, comma]⟩

/-- A text with single commas loses the one at its end. -/
theorem dropLast_eq_join {text : Bytes} (hhead : text.head? ≠ some comma)
    (hnone : ¬lit ",," <:+: text) :
    (if text.getLast? = some comma then text.dropLast else text) = join (entries text) (lit ",") := by
  split
  · next hlast =>
    obtain ⟨front, rfl⟩ := List.getLast?_eq_some_iff.mp hlast
    rw [List.dropLast_concat, entries_comma, join_entries]
    · cases front with
      | nil => exact absurd rfl hhead
      | cons b front => exact hhead
    · intro hend
      obtain ⟨more, rfl⟩ := List.getLast?_eq_some_iff.mp hend
      exact hnone (infix_of_commas more [] (by simp))
    · exact fun hwithin ↦ hnone (hwithin.trans (List.prefix_append front [comma]).isInfix)
  · next hlast => exact (join_entries hhead hlast hnone).symm

/-- The clean-up leaves the entries between single commas. -/
theorem trim_collapse (text : Bytes) :
    trimCommas (collapseCommas text) = join (entries text) (lit ",") := by
  rw [← entries_collapseCommas]
  have hnone := find?_eq_none_iff_not_isInfix.mp (find?_collapseCommas text)
  generalize collapseCommas text = cleaned at hnone
  unfold trimCommas
  by_cases hhead : cleaned.head? = some comma
  · obtain ⟨rest, rfl⟩ := List.head?_eq_some_iff.mp hhead
    rw [if_pos hhead, List.tail_cons, entries_cons_comma]
    apply dropLast_eq_join
    · intro hfirst
      obtain ⟨more, rfl⟩ := List.head?_eq_some_iff.mp hfirst
      exact hnone (infix_of_commas [] more rfl)
    · exact fun hwithin ↦ hnone (hwithin.trans (List.suffix_cons comma rest).isInfix)
  · rw [if_neg hhead]
    exact dropLast_eq_join hhead hnone

/-! ## Entries of files -/

theorem cutEntry_of_not_mem {entry : Bytes} (h : colon ∉ entry) : cutEntry entry = none := by
  rw [cutEntry, find?_singleton_of_not_mem h]
  rfl

theorem cutEntry_append {path : Bytes} (h : colon ∉ path) (keys : Bytes) :
    cutEntry (path ++ colon :: keys) = some (path, keys) := by
  rw [cutEntry, find?_singleton_append h, Option.map_some, List.take_left, ← List.drop_drop,
    List.drop_left]
  rfl

theorem filePath_of_not_mem {entry : Bytes} (h : colon ∉ entry) : filePath entry = none := by
  rw [filePath, cutEntry_of_not_mem h]
  rfl

theorem filePath_append {path : Bytes} (h : colon ∉ path) (keys : Bytes) :
    filePath (path ++ colon :: keys) = some path := by
  rw [filePath, cutEntry_append h]
  rfl

theorem fileKeys_append {path : Bytes} (h : colon ∉ path) (keys : Bytes) :
    fileKeys (path ++ colon :: keys) = if keys = [] then [] else split keys plus := by
  rw [fileKeys, cutEntry_append h]

theorem filePath_eq_some_iff {entry path : Bytes} :
    filePath entry = some path ↔ ∃ keys, entry = path ++ colon :: keys ∧ colon ∉ path := by
  constructor
  · intro h
    by_cases hcolon : colon ∈ entry
    · obtain ⟨front, keys, rfl, hfront⟩ := List.eq_append_cons_of_mem hcolon
      rw [filePath_append hfront] at h
      obtain rfl := Option.some.inj h
      exact ⟨keys, rfl, hfront⟩
    · rw [filePath_of_not_mem hcolon] at h
      cases h
  · rintro ⟨keys, rfl, hpath⟩
    exact filePath_append hpath keys

theorem namesFile_iff {path entry : Bytes} :
    namesFile path entry = true ↔ filePath entry = some path := decide_eq_true_iff

theorem uploadEntry_eq (body : Bytes) : uploadEntry body = lit "untitled" ++ colon ::
    join ((List.range (chunkCount body.length)).map chunkKey) (lit "+") := by
  have hname : lit "untitled:" = lit "untitled" ++ [colon] := by decide
  rw [uploadEntry, hname, List.append_assoc, List.singleton_append]

theorem filePath_uploadEntry (body : Bytes) : filePath (uploadEntry body) = some (lit "untitled") := by
  rw [uploadEntry_eq]
  exact filePath_append (by decide) _

theorem chunkKey_ne_nil (n : ℕ) : chunkKey n ≠ [] :=
  List.append_ne_nil_of_left_ne_nil (by decide) _

/-- A list of chunk keys is read back from the entry, unless it is empty. -/
theorem split_chunkKeys {ns : List ℕ} (h : ns ≠ []) :
    split (join (ns.map chunkKey) (lit "+")) plus = ns.map chunkKey := by
  have hplus : ∀ key ∈ ns.map chunkKey, plus ∉ key := by
    intro key hkey
    obtain ⟨n, -, rfl⟩ := List.mem_map.mp hkey
    exact not_mem_chunkKey (by decide) (by decide) n
  exact List.splitOn_intercalate plus hplus fun hnil ↦ h (List.map_eq_nil_iff.mp hnil)

theorem fileKeys_uploadEntry (body : Bytes) :
    fileKeys (uploadEntry body) = (List.range (chunkCount body.length)).map chunkKey := by
  rw [uploadEntry_eq, fileKeys_append (by decide)]
  by_cases hnil : List.range (chunkCount body.length) = []
  · rw [hnil]
    rfl
  · have hsplit := split_chunkKeys hnil
    rw [if_neg, hsplit]
    intro hempty
    rw [hempty] at hsplit
    have hmem : [] ∈ (List.range (chunkCount body.length)).map chunkKey := by
      rw [← hsplit]
      exact List.mem_singleton_self []
    obtain ⟨n, -, hkey⟩ := List.mem_map.mp hmem
    exact chunkKey_ne_nil n hkey

/-- An entry is stored by default unless it is that of a file. -/
theorem stored_of_filePath {user entry : Bytes} (h : filePath entry = none) (store : Store) :
    Stored user store entry := by
  intro path key hpath
  rw [h] at hpath
  cases hpath

theorem fileRow_injective (user : Bytes) : Function.Injective (fileRow user) :=
  fun _ _ h ↦ List.append_cancel_left h

/-! ## Counting -/

theorem eq_of_fileCount {path index entry other : Bytes} (hcount : fileCount path index ≤ 1)
    (hentry : entry ∈ entries index) (hother : other ∈ entries index)
    (hpath : filePath entry = some path) (hpath' : filePath other = some path) : other = entry := by
  rw [fileCount, List.countP_eq_length_filter] at hcount
  have hmem : ∀ e ∈ entries index, filePath e = some path →
      e ∈ (entries index).filter (namesFile path) :=
    fun e he hp ↦ List.mem_filter.mpr ⟨he, namesFile_iff.mpr hp⟩
  have hpos := List.length_pos_of_mem (hmem entry hentry hpath)
  have hone : ((entries index).filter (namesFile path)).length = 1 := by omega
  obtain ⟨only, honly⟩ := List.length_eq_one_iff.mp hone
  rw [honly] at hmem
  rw [List.mem_singleton.mp (hmem other hother hpath'),
    List.mem_singleton.mp (hmem entry hentry hpath)]

theorem fileCount_eq_zero_iff {path index : Bytes} :
    fileCount path index = 0 ↔ ∀ entry ∈ entries index, filePath entry ≠ some path := by
  rw [fileCount, List.countP_eq_zero]
  simp only [namesFile_iff, ne_eq]

/-- The entries beside the only one of a file. -/
theorem others_of_fileCount {path index entry : Bytes} {first last : List Bytes}
    (hentries : entries index = first ++ entry :: last) (hpath : filePath entry = some path)
    (hcount : fileCount path index ≤ 1) {other : Bytes} (hother : other ∈ first ∨ other ∈ last) :
    other ∈ entries index ∧ filePath other ≠ some path := by
  rw [fileCount, hentries, List.countP_append,
    List.countP_cons_of_pos (namesFile_iff.mpr hpath)] at hcount
  have hzero : first.countP (namesFile path) = 0 ∧ last.countP (namesFile path) = 0 := by omega
  simp only [List.countP_eq_zero, namesFile_iff] at hzero
  rw [hentries]
  rcases hother with hfirst | hlast
  · exact ⟨List.mem_append_left _ hfirst, hzero.1 other hfirst⟩
  · exact ⟨List.mem_append_right _ (List.mem_cons_of_mem entry hlast), hzero.2 other hlast⟩

/-- Distinct paths are those of one entry each. -/
theorem fileCount_le_one {index : Bytes} (h : ((entries index).map entryPath).Nodup)
    (path : Bytes) : fileCount path index ≤ 1 := by
  have hcount := List.nodup_iff_count_le_one.mp h path
  rw [List.count, List.countP_map] at hcount
  refine le_trans (List.countP_mono_left fun entry _ hentry ↦ ?_) hcount
  obtain ⟨keys, rfl, hcolon⟩ := filePath_eq_some_iff.mp (namesFile_iff.mp hentry)
  simp [entryPath, cutEntry_append hcolon]

/-! ## What a request makes of an index -/

/-- A new entry without a colon is no file. -/
theorem filePath_of_mem_entries {entry piece : Bytes} (h : colon ∉ entry)
    (hpiece : piece ∈ entries entry) : filePath piece = none :=
  filePath_of_not_mem fun hcolon ↦ h (mem_of_mem_splitOn (mem_entries.mp hpiece).1 hcolon).1

/-- An entry replaced. -/
theorem entries_replace {index entry entry' : Bytes} {front rest : List Bytes}
    (hsplit : split index comma = front ++ entry :: rest) (hne : entry ≠ []) (hne' : entry' ≠ [])
    (hcomma : comma ∉ entry') :
    entries index = front.filter (· ≠ []) ++ entry :: rest.filter (· ≠ []) ∧
      entries (join (front ++ entry' :: rest) (lit ",")) =
        front.filter (· ≠ []) ++ entry' :: rest.filter (· ≠ []) := by
  have hkeep : ∀ entry, entry ≠ [] → ∀ rest : List Bytes,
      (entry :: rest).filter (· ≠ []) = entry :: rest.filter (· ≠ []) :=
    fun entry h rest ↦ List.filter_cons_of_pos (decide_eq_true h)
  constructor
  · rw [entries, hsplit, List.filter_append, hkeep entry hne]
  · rw [entries_join, List.filter_append, hkeep entry' hne']
    intro piece hpiece
    have hold : ∀ piece ∈ front ++ entry :: rest, comma ∉ piece := by
      rw [← hsplit]
      exact fun piece ↦ not_mem_of_mem_split
    rcases List.mem_append.mp hpiece with hfront | hback
    · exact hold piece (List.mem_append_left _ hfront)
    · rcases List.mem_cons.mp hback with rfl | hrest
      · exact hcomma
      · exact hold piece (List.mem_append_right _ (List.mem_cons_of_mem entry hrest))

/-- A move changes the first entry of its file, if there is one. -/
theorem moveFileEntry_cases (user fileToMove targetPath : Bytes) (paths : List Bytes) :
    (∀ path ∈ paths, filePath path ≠ some fileToMove) ∧
        moveFileEntry user fileToMove targetPath paths = .ret paths ∨
      ∃ front keys rest, paths = front ++ (fileToMove ++ colon :: keys) :: rest ∧
        colon ∉ fileToMove ∧ moveFileEntry user fileToMove targetPath paths = (do
          Prog.forEach (moveChunk (fileRow user fileToMove) (fileRow user targetPath))
            (split keys plus)
          return front ++ (targetPath ++ colon :: keys) :: rest) := by
  have hparts := List.takeWhile_append_dropWhile (p := fun path ↦ !namesFile fileToMove path)
    (l := paths)
  rw [moveFileEntry, List.span_eq_takeWhile_dropWhile]
  cases hrest : paths.dropWhile fun path ↦ !namesFile fileToMove path with
  | nil =>
    left
    rw [hrest, List.append_nil] at hparts
    refine ⟨fun path hpath hnamed ↦ ?_, by rw [hparts]⟩
    have hnot := List.dropWhile_eq_nil_iff.mp hrest path hpath
    rw [namesFile_iff.mpr hnamed] at hnot
    exact Bool.false_ne_true hnot
  | cons path rest =>
    right
    have hnamed := List.head_dropWhile_not (fun path ↦ !namesFile fileToMove path)
      (by rw [hrest]; exact List.cons_ne_nil path rest)
    simp only [hrest, List.head_cons, Bool.not_eq_false'] at hnamed
    obtain ⟨keys, rfl, hcolon⟩ := filePath_eq_some_iff.mp (namesFile_iff.mp hnamed)
    refine ⟨_, keys, rest, (hparts.symm.trans (by rw [hrest])), hcolon, ?_⟩
    have hkeys : (fileToMove ++ colon :: keys).drop (fileToMove.length + 1) = keys := by
      rw [← List.drop_drop, List.drop_left]
      rfl
    dsimp only
    rw [hkeys, List.drop_left]

/-- Entries left out. -/
theorem entries_leaveOut (index pathToRemove : Bytes) :
    entries (join ((split index comma).filter fun path ↦ ¬(path ≠ [] ∧ pathToRemove <+: path))
      (lit ",")) = (entries index).filter fun entry ↦ ¬pathToRemove <+: entry := by
  rw [entries_join fun piece hpiece ↦ not_mem_of_mem_split (List.mem_of_mem_filter hpiece), entries,
    List.filter_filter, List.filter_filter]
  apply List.filter_congr
  intro piece _
  by_cases hne : piece = []
  · simp [hne]
  · simp [hne]

end PennCloud.Frontend.FileEntries
