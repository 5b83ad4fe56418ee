import PennCloud.Frontend.FileEntries

/-!
# The paths of an index

An index is tidy when none of its pieces is empty and no two of its entries have the same path. It
stays tidy when an entry with a new path is added, when entries are left out, when a file goes to a
path that no entry begins with, and when all paths that begin with an old one are relocated to where
no other entry is.
-/

open PennCloud.Library.CppString PennCloud.Library.TextSearch
open PennCloud.KV.TabletCells PennCloud.Frontend.HttpText
open PennCloud.Frontend.Storage PennCloud.Frontend.StorageIndex PennCloud.Frontend.FileEntries

namespace PennCloud.Frontend.IndexPaths

/-- The part in front of the colon, of every entry. -/
def paths (index : Bytes) : List Bytes := (entries index).map entryPath

/-- No piece is empty, and no path is there twice. -/
structure Tidy (index : Bytes) : Prop where
  pieces : index ≠ [] → [] ∉ split index comma
  distinct : (paths index).Nodup

/-- Under the target instead of the old path. -/
def relocate (old target path : Bytes) : Bytes :=
  if old <+: path then target ++ path.drop old.length else path

/-- No path is relocated to one that stays. -/
def Vacant (old target : Bytes) (paths : List Bytes) : Prop :=
  ∀ path ∈ paths, ∀ other ∈ paths, old <+: path → ¬old <+: other →
    target ++ path.drop old.length ≠ other

instance (old target : Bytes) (paths : List Bytes) : Decidable (Vacant old target paths) :=
  inferInstanceAs (Decidable (∀ path ∈ paths, ∀ other ∈ paths, old <+: path → ¬old <+: other →
    target ++ path.drop old.length ≠ other))

/-! ## Paths of entries -/

theorem entryPath_of_not_mem {entry : Bytes} (h : colon ∉ entry) : entryPath entry = entry := by
  rw [entryPath, cutEntry_of_not_mem h]

theorem entryPath_append {path : Bytes} (h : colon ∉ path) (keys : Bytes) :
    entryPath (path ++ colon :: keys) = path := by
  rw [entryPath, cutEntry_append h]

/-- A path is that of a file, or the entry itself. -/
theorem filePath_or_eq (entry : Bytes) :
    filePath entry = some (entryPath entry) ∨ entryPath entry = entry := by
  by_cases hcolon : colon ∈ entry
  · obtain ⟨path, keys, rfl, hpath⟩ := List.eq_append_cons_of_mem hcolon
    left
    rw [filePath_append hpath, entryPath_append hpath]
  · exact .inr (entryPath_of_not_mem hcolon)

theorem entryPath_begins (entry : Bytes) : entryPath entry <+: entry := by
  by_cases hcolon : colon ∈ entry
  · obtain ⟨path, keys, rfl, hpath⟩ := List.eq_append_cons_of_mem hcolon
    rw [entryPath_append hpath]
    exact List.prefix_append path _
  · rw [entryPath_of_not_mem hcolon]

theorem entryPath_uploadEntry (body : Bytes) : entryPath (uploadEntry body) = lit "untitled" := by
  rw [uploadEntry_eq]
  exact entryPath_append (by decide) _

/-- `getline` leaves out nothing but an empty last piece. -/
theorem mem_getlines {index entry : Bytes} (h : entry ∈ entries index) :
    entry ∈ getlines index comma := by
  obtain ⟨hpiece, hne⟩ := mem_entries.mp h
  unfold getlines
  dsimp only
  split
  · next hlast =>
    have hpieces := List.dropLast_append_getLast? _ hlast
    rw [split, ← hpieces, List.mem_append, List.mem_singleton] at hpiece
    exact hpiece.resolve_right hne
  · exact hpiece

/-- A path that neither a file has nor an entry is. -/
theorem not_mem_paths {index path : Bytes} (hfile : fileCount path index = 0)
    (hentry : path ∉ entries index) : path ∉ paths index := by
  intro hmem
  obtain ⟨entry, hin, rfl⟩ := List.mem_map.mp hmem
  rcases filePath_or_eq entry with hnamed | hself
  · exact fileCount_eq_zero_iff.mp hfile entry hin hnamed
  · exact hentry (hself.symm ▸ hin)

/-- What has no colon is in front of the first one. -/
theorem prefix_entry_iff {old path : Bytes} (hold : colon ∉ old) (keys : Bytes) :
    old <+: path ++ colon :: keys ↔ old <+: path := prefix_append_cons_iff hold keys

section Relocate

variable {old target : Bytes}

theorem relocate_of_begins {path : Bytes} (h : old <+: path) :
    relocate old target path = target ++ path.drop old.length := if_pos h

theorem relocate_of_not_begins {path : Bytes} (h : ¬old <+: path) :
    relocate old target path = path := if_neg h

/-- A file's entry is relocated in front of its colon. -/
theorem relocate_append (hold : colon ∉ old) (path keys : Bytes) :
    relocate old target (path ++ colon :: keys) = relocate old target path ++ colon :: keys := by
  by_cases h : old <+: path
  · have hentry := (prefix_entry_iff hold keys).mpr h
    rw [relocate_of_begins h, relocate_of_begins hentry, List.drop_append_of_le_length h.length_le,
      List.append_assoc]
  · have hentry := mt (prefix_entry_iff hold keys).mp h
    rw [relocate_of_not_begins h, relocate_of_not_begins hentry]

theorem not_mem_relocate {b : UInt8} {path : Bytes} (htarget : b ∉ target) (hpath : b ∉ path) :
    b ∉ relocate old target path := by
  unfold relocate
  split
  · rw [List.mem_append, not_or]
    exact ⟨htarget, fun hmem ↦ hpath (List.mem_of_mem_drop hmem)⟩
  · exact hpath

theorem relocate_ne_nil {path : Bytes} (htarget : target ≠ []) (hpath : path ≠ []) :
    relocate old target path ≠ [] := by
  unfold relocate
  split
  · exact List.append_ne_nil_of_left_ne_nil htarget _
  · exact hpath

theorem entryPath_relocate (hold : colon ∉ old) (htarget : colon ∉ target) (entry : Bytes) :
    entryPath (relocate old target entry) = relocate old target (entryPath entry) := by
  by_cases hcolon : colon ∈ entry
  · obtain ⟨path, keys, rfl, hpath⟩ := List.eq_append_cons_of_mem hcolon
    rw [relocate_append hold, entryPath_append (not_mem_relocate htarget hpath),
      entryPath_append hpath]
  · rw [entryPath_of_not_mem (not_mem_relocate htarget hcolon), entryPath_of_not_mem hcolon]

theorem nodup_relocate {paths : List Bytes} (hnodup : paths.Nodup)
    (hvacant : Vacant old target paths) : (paths.map (relocate old target)).Nodup := by
  apply hnodup.map_on
  intro path hpath other hother heq
  by_cases hmoved : old <+: path
  · by_cases hmoved' : old <+: other
    · rw [relocate_of_begins hmoved, relocate_of_begins hmoved'] at heq
      have hrest := List.append_cancel_left heq
      rw [← List.prefix_iff_eq_append.mp hmoved, ← List.prefix_iff_eq_append.mp hmoved', hrest]
    · rw [relocate_of_begins hmoved, relocate_of_not_begins hmoved'] at heq
      exact absurd heq (hvacant path hpath other hother hmoved hmoved')
  · by_cases hmoved' : old <+: other
    · rw [relocate_of_not_begins hmoved, relocate_of_begins hmoved'] at heq
      exact absurd heq.symm (hvacant other hother path hpath hmoved' hmoved)
    · rwa [relocate_of_not_begins hmoved, relocate_of_not_begins hmoved'] at heq

end Relocate

/-! ## Tidy indexes -/

section Tidy

variable {index : Bytes}

theorem split_nil : split [] comma = [[]] := rfl

theorem split_append_comma (front rest : Bytes) :
    split (front ++ comma :: rest) comma = split front comma ++ split rest comma :=
  List.splitOn_append_cons_self front rest

theorem entries_eq_split (h : [] ∉ split index comma) : entries index = split index comma := by
  rw [entries, List.filter_eq_self]
  intro piece hpiece
  exact decide_eq_true fun hnil ↦ h (hnil ▸ hpiece)

theorem ne_nil_of_mem_split {piece : Bytes} (h : piece ∈ split index comma) (hne : piece ≠ []) :
    index ≠ [] := by
  rintro rfl
  rw [split_nil] at h
  exact hne (List.mem_singleton.mp h)

/-- A text without a comma is one entry or none. -/
theorem tidy_of_not_mem (h : comma ∉ index) : Tidy index := by
  have hsplit : split index comma = [index] := List.splitOn_eq_singleton h
  constructor
  · intro hne hmem
    rw [hsplit] at hmem
    exact hne (List.mem_singleton.mp hmem).symm
  · rw [paths, entries, hsplit]
    exact (List.nodup_singleton _).sublist (List.filter_sublist.map entryPath)

theorem tidy_nil : Tidy [] := tidy_of_not_mem List.not_mem_nil

theorem tidy_join {pieces : List Bytes} (hcomma : ∀ piece ∈ pieces, comma ∉ piece)
    (hnil : [] ∉ pieces) (hnodup : (pieces.map entryPath).Nodup) :
    Tidy (join pieces (lit ",")) := by
  cases pieces with
  | nil => exact tidy_nil
  | cons piece rest =>
    have hsplit : split (join (piece :: rest) (lit ",")) comma = piece :: rest :=
      List.splitOn_intercalate comma hcomma (List.cons_ne_nil piece rest)
    constructor
    · intro _
      rwa [hsplit]
    · rwa [paths, entries_eq_split (by rwa [hsplit]), hsplit]

/-- A new entry whose path is that of no other. -/
theorem Tidy.append (h : Tidy index) {entry : Bytes} (hne : entry ≠ []) (hcomma : comma ∉ entry)
    (hnew : entryPath entry ∉ paths index) : Tidy (appendEntry index entry) := by
  constructor
  · intro _
    unfold appendEntry
    have hentry : split entry comma = [entry] := List.splitOn_eq_singleton hcomma
    split
    · rw [hentry, List.mem_singleton]
      exact hne.symm
    · next hindex =>
      have hcut : index ++ lit "," ++ entry = index ++ comma :: entry := by
        rw [List.append_assoc]
        rfl
      rw [hcut, split_append_comma, hentry, List.mem_append, List.mem_singleton, not_or]
      exact ⟨h.pieces hindex, hne.symm⟩
  · rw [paths, entries_appendEntry, entries_of_not_mem hne hcomma, List.map_append, List.map_singleton]
    rw [← List.concat_eq_append]
    exact h.distinct.concat hnew

/-- Some pieces of an index that is not empty. -/
theorem Tidy.leaveOut (h : Tidy index) (hne : index ≠ []) {pieces : List Bytes}
    (hpieces : pieces.Sublist (split index comma)) : Tidy (join pieces (lit ",")) := by
  have hpaths := h.distinct
  rw [paths, entries_eq_split (h.pieces hne)] at hpaths
  apply tidy_join
  · exact fun piece hpiece ↦ not_mem_of_mem_split (hpieces.subset hpiece)
  · exact fun hnil ↦ h.pieces hne (hpieces.subset hnil)
  · exact hpaths.sublist (hpieces.map entryPath)

/-- A file moved to a path that begins no entry. -/
theorem Tidy.moveFile (h : Tidy index) {file target keys : Bytes} {front rest : List Bytes}
    (hsplit : split index comma = front ++ (file ++ colon :: keys) :: rest) (hfile : colon ∉ file)
    (hcomma : comma ∉ target) (hcolon : colon ∉ target)
    (hfree : ∀ piece ∈ split index comma, ¬target <+: piece) :
    Tidy (join (front ++ (target ++ colon :: keys) :: rest) (lit ",")) := by
  have hmoved : file ++ colon :: keys ∈ split index comma := by
    rw [hsplit]
    exact List.mem_append_right front List.mem_cons_self
  have hindex : index ≠ [] :=
    ne_nil_of_mem_split hmoved (List.append_ne_nil_of_right_ne_nil _ (List.cons_ne_nil _ _))
  have hpieces := h.pieces hindex
  have hpaths := h.distinct
  rw [paths, entries_eq_split hpieces, hsplit, List.map_append, List.map_cons,
    entryPath_append hfile, List.nodup_middle, List.nodup_cons, ← List.map_append] at hpaths
  have hothers : ∀ piece ∈ front ++ rest, piece ∈ split index comma := by
    rw [hsplit]
    intro piece hpiece
    rw [List.mem_append, List.mem_cons]
    exact (List.mem_append.mp hpiece).imp_right .inr
  have hcases : ∀ piece ∈ front ++ (target ++ colon :: keys) :: rest,
      piece = target ++ colon :: keys ∨ piece ∈ front ++ rest := by
    intro piece hpiece
    rwa [List.mem_append, List.mem_cons, or_left_comm, ← List.mem_append] at hpiece
  apply tidy_join
  · intro piece hpiece
    rcases hcases piece hpiece with rfl | hother
    · rw [List.mem_append, not_or]
      refine ⟨hcomma, fun hmem ↦ ?_⟩
      exact not_mem_of_mem_split hmoved (List.mem_append_right file hmem)
    · exact not_mem_of_mem_split (hothers piece hother)
  · intro hnil
    rcases hcases [] hnil with heq | hother
    · exact List.append_ne_nil_of_right_ne_nil _ (List.cons_ne_nil _ _) heq.symm
    · exact hpieces (hothers [] hother)
  · rw [List.map_append, List.map_cons, entryPath_append hcolon, List.nodup_middle, List.nodup_cons,
      ← List.map_append]
    refine ⟨fun hmem ↦ ?_, hpaths.2⟩
    obtain ⟨piece, hpiece, hpath⟩ := List.mem_map.mp hmem
    exact hfree piece (hothers piece hpiece) (hpath ▸ entryPath_begins piece)

/-- What relocating makes of an entry. -/
structure Relocated (old target entry entry' : Bytes) : Prop where
  path : entryPath entry' = relocate old target (entryPath entry)
  comma : comma ∉ entry → comma ∉ entry'
  nonempty : entry ≠ [] → entry' ≠ []

section Relocated

variable {old target : Bytes} (hold : colon ∉ old) (hcolon : colon ∉ target) (hcomma : comma ∉ target)
  (hne : target ≠ [])

include hold hcolon hcomma hne

theorem relocated_relocate (entry : Bytes) :
    Relocated old target entry (relocate old target entry) where
  path := entryPath_relocate hold hcolon entry
  comma := not_mem_relocate hcomma
  nonempty := relocate_ne_nil hne

omit hne in
/-- With the keys behind the colon twice. -/
theorem relocated_keys {entry path keys : Bytes} (hcut : cutEntry entry = some (path, keys)) :
    Relocated old target entry (relocate old target entry ++ colon :: keys) := by
  have hentry : entry = path ++ colon :: keys ∧ colon ∉ path := by
    have hpath : filePath entry = some path := by rw [filePath, hcut, Option.map_some]
    obtain ⟨keys', rfl, hpath'⟩ := filePath_eq_some_iff.mp hpath
    rw [cutEntry_append hpath'] at hcut
    obtain rfl := (Prod.mk.inj (Option.some.inj hcut)).2
    exact ⟨rfl, hpath'⟩
  obtain ⟨rfl, hpath⟩ := hentry
  constructor
  · rw [relocate_append hold, List.append_assoc, List.cons_append,
      entryPath_append (not_mem_relocate hcolon hpath), entryPath_append hpath]
  · intro hentry
    rw [List.mem_append, not_or]
    exact ⟨not_mem_relocate hcomma hentry, fun hmem ↦ hentry (List.mem_append_right path hmem)⟩
  · exact fun _ ↦ List.append_ne_nil_of_right_ne_nil _ (List.cons_ne_nil _ _)

end Relocated

theorem exists_left_of_forall₂ {R : Bytes → Bytes → Prop} {xs ys : List Bytes} {y : Bytes}
    (h : List.Forall₂ R xs ys) (hy : y ∈ ys) : ∃ x ∈ xs, R x y := by
  induction h with
  | nil => exact absurd hy List.not_mem_nil
  | cons hhead _ ih =>
    rcases List.mem_cons.mp hy with rfl | hrest
    · exact ⟨_, List.mem_cons_self, hhead⟩
    · obtain ⟨x, hx, hrelated⟩ := ih hrest
      exact ⟨x, List.mem_cons_of_mem _ hx, hrelated⟩

theorem Tidy.relocated (h : Tidy index) {old target : Bytes} {pieces : List Bytes}
    (hpieces : List.Forall₂ (Relocated old target) (split index comma) pieces)
    (hvacant : Vacant old target (paths index)) : Tidy (join pieces (lit ",")) := by
  have hcomma : ∀ piece ∈ pieces, comma ∉ piece := by
    intro piece hpiece
    obtain ⟨entry, hentry, hrelocated⟩ := exists_left_of_forall₂ hpieces hpiece
    exact hrelocated.comma (not_mem_of_mem_split hentry)
  by_cases hindex : index = []
  · subst hindex
    obtain ⟨piece, rfl⟩ := List.length_eq_one_iff.mp hpieces.length_eq.symm
    apply tidy_of_not_mem
    rw [join, List.intercalate_singleton]
    exact hcomma piece (List.mem_singleton_self piece)
  · have hnil := h.pieces hindex
    have hpaths := h.distinct
    rw [paths, entries_eq_split hnil] at hpaths hvacant
    apply tidy_join hcomma
    · intro hmem
      obtain ⟨entry, hentry, hrelocated⟩ := exists_left_of_forall₂ hpieces hmem
      exact hrelocated.nonempty (fun heq ↦ hnil (heq ▸ hentry)) rfl
    · have hmap : pieces.map entryPath =
          ((split index comma).map entryPath).map (relocate old target) := by
        rw [← List.forall₂_eq_eq_eq, List.map_map, List.forall₂_map_left_iff,
          List.forall₂_map_right_iff]
        exact hpieces.flip.imp fun _ _ hrelocated ↦ hrelocated.path
      rw [hmap]
      exact nodup_relocate hpaths hvacant

/-- Nothing is left to do for the deletion of empty pieces. -/
theorem Tidy.collapse (h : Tidy index) : trimCommas (collapseCommas index) = index := by
  rw [trim_collapse]
  by_cases hindex : index = []
  · rw [hindex]
    rfl
  · rw [entries_eq_split (h.pieces hindex), join_split]

end Tidy

end PennCloud.Frontend.IndexPaths
