import PennCloud.Frontend.FolderMoves

/-!
# Renaming

The handler compares a file's whole entry with the old path, and an entry has keys behind it: no file is
renamed. A folder's own entry has no colon, and the handler cuts every entry of the folder at the
position of the colon: the exception that this throws is not caught. So a rename never does what it
is for.
-/

open PennCloud.Library.CppString PennCloud.Library.TextSearch PennCloud.Library.Programs
open PennCloud.Library.CellMoves
open PennCloud.KV.TabletCells PennCloud.Frontend.KVClient PennCloud.Frontend.HttpText
open PennCloud.Frontend.Storage PennCloud.Frontend.StorageIndex PennCloud.Frontend.FileEntries
open PennCloud.Frontend.IndexPaths PennCloud.Frontend.IndexSharing PennCloud.Frontend.Uploads
open PennCloud.Frontend.Listings PennCloud.Frontend.DriveMoves PennCloud.Frontend.FolderMoves

namespace PennCloud.Frontend.Renames

def newName (rawRequest : Bytes) : Bytes := jsonParam rawRequest (lit "new_name")

/-- The request names a file or a folder of these items; what it asks for is a new path, and what becomes
of an item. -/
inductive AsksFor (rawRequest : Bytes) (items : List Item) : Bytes → (Item → Item) → Prop
  | file (keys : List Bytes) (htype : jsonParam rawRequest (lit "type") = lit "file")
      (hfile : .file (oldPath rawRequest) keys ∈ items) :
      AsksFor rawRequest items (parentPath (oldPath rawRequest) ++ dropSlash (newName rawRequest))
        (replacePath (oldPath rawRequest)
          (parentPath (oldPath rawRequest) ++ dropSlash (newName rawRequest)))
  | folder (htype : jsonParam rawRequest (lit "type") = lit "folder")
      (hfolder : .folder (oldPath rawRequest ++ lit "/") ∈ items) :
      AsksFor rawRequest items (parentPath (oldPath rawRequest) ++ addSlash (newName rawRequest))
        (relocateItem (oldPath rawRequest ++ lit "/")
          (parentPath (oldPath rawRequest) ++ addSlash (newName rawRequest)))

/-- The handler returns, the renamed items are listed under their new paths, and all items have the
content they had. -/
def Renamed (user rawRequest : Bytes) (renamed : Item → Item) (items : List Item)
    (before : Store) : Prop :=
  ∃ (passes : ℕ) (after : Store) (response : Response),
    runJob (execute ()) (handleRename user rawRequest) passes 0 before =
      some (after, .ok response) ∧
    indexOf user after = textOf (items.map renamed) ∧
    ∀ item ∈ items, chunksOf after user (renamed item) = chunksOf before user item

variable {user rawRequest : Bytes}

/-! ## The pass -/

/-- The folder branch. -/
def renameFolderPass (user oldPath newName fileListOld : Bytes) : KVProg (Pass Response) := do
  let targetPath := parentPath oldPath ++ addSlash newName
  if targetPath ∈ split fileListOld comma then
    return .done (corsOk (lit "Failed to rename folder: folder already exists!"))
  else
    let fileList ← Prog.mapEach (renameFolderEntry user (oldPath ++ lit "/") targetPath)
      (split fileListOld comma)
    cput user (lit "storage") fileListOld (join fileList (lit ","))
    return .done (corsOk (lit "Successfully renamed file"))

/-- The file branch. -/
def renameFilePass (user oldPath newName fileListOld : Bytes) : KVProg (Pass Response) := do
  let suffix := match find? [colon] oldPath with
    | some p => oldPath.drop p
    | none => []
  let targetPath := parentPath oldPath ++ dropSlash newName ++ suffix
  if targetPath ∈ split fileListOld comma then
    return .done (corsOk (lit "Failed to rename file: file already exists!"))
  else
    if colon ∉ oldPath ∧ oldPath ∈ split fileListOld comma then
      renameFileEntry user oldPath targetPath oldPath
    cput user (lit "storage") fileListOld (join (split fileListOld comma) (lit ","))
    return .done (corsOk (lit "Successfully renamed file"))

/-- The body of the try block. -/
def renamePass (user rawRequest : Bytes) : KVProg (Pass Response) := do
  let fileListOld ← getdefault user (lit "storage") []
  let _ ← back (newName rawRequest)
  if jsonParam rawRequest (lit "type") = lit "folder" then
    renameFolderPass user (oldPath rawRequest) (newName rawRequest) fileListOld
  else
    renameFilePass user (oldPath rawRequest) (newName rawRequest) fileListOld

theorem handleRename_eq (user rawRequest : Bytes) :
    handleRename user rawRequest = fun _ ↦ retry (renamePass user rawRequest) := rfl

/-- A pass that is the last one. -/
theorem run_retry {p : KVProg (Pass Response)} {store after : Store}
    {outcome : Except Thrown Response}
    (h : p.run (execute ()) store = (after, outcome.map Pass.done))
    (hne : outcome ≠ .error .kvNoMatch) (passes : ℕ) :
    runJob (execute ()) (fun _ ↦ retry p) (passes + 1) 0 store = some (after, outcome) := by
  rw [runJob, retry, catchKVNoMatch, Prog.run_handle, h]
  cases outcome with
  | ok response => rfl
  | error e =>
    have he : e ≠ .kvNoMatch := fun heq ↦ hne (congrArg Except.error heq)
    simp only [Except.map, if_neg he]
    rfl

/-- The pass is the last one, and if it returns it leaves the index as it is. -/
def LeavesIndex (user : Bytes) (store : Store) (p : KVProg (Pass Response)) : Prop :=
  ∃ (after : Store) (outcome : Except Thrown Response),
    p.run (execute ()) store = (after, outcome.map Pass.done) ∧
    outcome ≠ .error .kvNoMatch ∧
    ∀ response, outcome = .ok response → indexOf user after = indexOf user store

theorem leavesIndex_return {p : KVProg (Pass Response)} {store after : Store} {response : Response}
    (h : p.run (execute ()) store = (after, .ok (.done response)))
    (hindex : indexOf user after = indexOf user store) : LeavesIndex user store p := by
  refine ⟨after, .ok response, h, ?_, fun _ _ ↦ hindex⟩
  intro heq
  cases heq

theorem leavesIndex_raise {p : KVProg (Pass Response)} {store after : Store} {e : Thrown}
    (h : p.run (execute ()) store = (after, .error e)) (hne : e ≠ .kvNoMatch) :
    LeavesIndex user store p := by
  refine ⟨after, .error e, h, fun heq ↦ hne (Except.error.inj heq), ?_⟩
  intro response heq
  cases heq

section Drive

variable (drive : Drive user)

/-- No entry is the path of a file. -/
theorem not_mem_texts {path : Bytes} {keys : List Bytes}
    (hfile : .file path keys ∈ drive.listing.items) : path ∉ drive.listing.items.map Item.text := by
  intro hmem
  obtain ⟨item, hitem, htext⟩ := List.mem_map.mp hmem
  have hpath := entryPath_text (drive.listing.wellFormed item hitem)
  rw [htext, entryPath_of_not_mem (drive.listing.wellFormed _ hfile).2.1] at hpath
  obtain rfl := drive.listing.eq_of_path hitem hfile hpath.symm
  have hlength := congrArg List.length htext
  simp [Item.text] at hlength

theorem leavesIndex_file {oldPath : Bytes} {keys : List Bytes}
    (hfile : .file oldPath keys ∈ drive.listing.items) (newName : Bytes) :
    LeavesIndex user drive.store
      (renameFilePass user oldPath newName (textOf drive.listing.items)) := by
  have hsplit := split_textOf drive.listing.wellFormed (List.ne_nil_of_mem hfile)
  have hcolon := find?_singleton_of_not_mem (drive.listing.wellFormed _ hfile).2.1
  have hnot : ¬(colon ∉ oldPath ∧ oldPath ∈ split (textOf drive.listing.items) comma) := by
    rintro ⟨-, hmem⟩
    rw [hsplit] at hmem
    exact not_mem_texts drive hfile hmem
  unfold renameFilePass
  simp only [hcolon, if_neg hnot]
  split
  · exact leavesIndex_return rfl rfl
  · apply leavesIndex_return
    · rw [Prog.run_bind, join_split, run_setListing drive.index]
      rfl
    · rw [drive.index]
      exact (Drive.write user drive.listing drive.store).index

omit drive in
/-- A missing chunk is no failed comparison, and neither is a position out of range. -/
theorem ne_noMatch_of_error {old target path : Bytes} {store : Store} {e : Thrown}
    (h : ((renameFolderEntry user old target path).run (execute ()) store).2 = .error e) :
    e ≠ .kvNoMatch := by
  unfold renameFolderEntry at h
  split at h
  · dsimp only at h
    split at h
    · next subpath keys _ =>
      rw [run_thenReturn (run_moveChunks _ _ (split keys plus) store)] at h
      unfold answerOf at h
      split at h
      · cases h
      · obtain rfl := Except.error.inj h
        exact Thrown.noConfusion
    · obtain rfl := Except.error.inj h
      exact Thrown.noConfusion
  · cases h

omit drive in
/-- The folder's own entry has no colon. -/
theorem ne_ok_of_folder {old target : Bytes} (hcolon : colon ∉ old) (store : Store)
    (answer : Bytes) :
    ((renameFolderEntry user old target old).run (execute ()) store).2 ≠ .ok answer := by
  rw [renameFolderEntry, if_pos (List.prefix_refl old), cutEntry_of_not_mem hcolon]
  intro h
  cases h

theorem leavesIndex_folder {oldPath : Bytes}
    (hfolder : .folder (oldPath ++ lit "/") ∈ drive.listing.items) (newName : Bytes) :
    LeavesIndex user drive.store
      (renameFolderPass user oldPath newName (textOf drive.listing.items)) := by
  have hsplit := split_textOf drive.listing.wellFormed (List.ne_nil_of_mem hfolder)
  unfold renameFolderPass
  dsimp only
  split
  · exact leavesIndex_return rfl rfl
  · obtain ⟨after, e, hrun, hne⟩ : ∃ after e, (Prog.mapEach (renameFolderEntry user
        (oldPath ++ lit "/") (parentPath oldPath ++ addSlash newName))
        (split (textOf drive.listing.items) comma)).run (execute ()) drive.store =
          (after, .error e) ∧ e ≠ .kvNoMatch := by
      rw [hsplit]
      apply Prog.run_mapEach_error
      · exact fun _ _ _ _ ↦ ne_noMatch_of_error
      · have hcolon := (drive.listing.wellFormed _ hfolder).2.1
        exact ⟨_, List.mem_map_of_mem hfolder, ne_ok_of_folder hcolon⟩
    apply leavesIndex_raise _ hne
    · exact after
    · rw [Prog.run_bind, hrun]

theorem leavesIndex_rename {new : Bytes} {renamed : Item → Item}
    (h : AsksFor rawRequest drive.listing.items new renamed) :
    LeavesIndex user drive.store (renamePass user rawRequest) := by
  unfold LeavesIndex renamePass
  rw [run_bind_getIndex drive.index]
  by_cases hname : newName rawRequest = []
  · have hback : back (newName rawRequest) = .raise .undefined := by
      rw [hname]
      rfl
    rw [hback]
    exact leavesIndex_raise rfl Thrown.noConfusion
  · obtain ⟨b, hback⟩ := back_of_ne_nil hname
    rw [hback, Prog.ret_bind]
    cases h with
    | file keys htype hfile =>
      rw [if_neg]
      · exact leavesIndex_file drive hfile _
      · rw [htype]
        decide
    | folder htype hfolder =>
      rw [if_pos htype]
      exact leavesIndex_folder drive hfolder _

end Drive

/-! ## What was asked for -/

/-- An index tells whether one of its items has changed. -/
theorem text_eq_of_textOf {front back : List Item} {item other : Item}
    (h : textOf (front ++ item :: back) = textOf (front ++ other :: back)) :
    item.text = other.text := by
  have hflat : ∀ item : Item, comma :: textOf (front ++ item :: back) =
      front.flatMap (fun item ↦ comma :: item.text) ++
        comma :: (item.text ++ back.flatMap fun item ↦ comma :: item.text) := by
    intro item
    rw [textOf]
    cases front with
    | nil =>
      rw [List.nil_append, List.map_cons, cons_join]
      simp [List.flatMap_map]
    | cons first front =>
      rw [List.cons_append, List.map_cons, cons_join]
      simp [List.flatMap_map]
  have hboth := congrArg (comma :: ·) h
  simp only [hflat] at hboth
  exact List.append_cancel_right (List.cons.inj (List.append_cancel_left hboth)).2

/-- What the request asks for changes the index, if nothing is at the new path. -/
theorem textOf_renamed_ne (listing : Listing) {new : Bytes} {renamed : Item → Item}
    (h : AsksFor rawRequest listing.items new renamed)
    (hfree : ∀ item ∈ listing.items, ¬new <+: item.path) :
    textOf listing.items ≠ textOf (listing.items.map renamed) := by
  intro htext
  cases h with
  | file keys htype hfile =>
    obtain ⟨front, back, hitems⟩ := List.append_of_mem hfile
    have hdistinct := listing.distinct
    rw [hitems] at hdistinct
    have hreplace := map_replacePath hdistinct (parentPath (oldPath rawRequest) ++
      dropSlash (newName rawRequest))
    rw [hitems] at htext
    have hentry := text_eq_of_textOf (htext.trans (congrArg textOf hreplace))
    have hpath := List.append_cancel_right hentry
    exact hfree _ hfile (hpath ▸ List.prefix_refl _)
  | folder htype hfolder =>
    have hcolon := (listing.wellFormed _ hfolder).2.1
    have hsame := eq_of_textOf_relocate hcolon htext.symm ⟨_, hfolder, List.prefix_refl _⟩
    exact hfree _ hfolder (hsame ▸ List.prefix_refl _)

/-- A rename that does what it is for leaves the index as it is. -/
theorem textOf_eq_of_renamed (drive : Drive user) {new : Bytes} {renamed : Item → Item}
    (hasks : AsksFor rawRequest drive.listing.items new renamed)
    (h : Renamed user rawRequest renamed drive.listing.items drive.store) :
    textOf drive.listing.items = textOf (drive.listing.items.map renamed) := by
  obtain ⟨passes, after, response, hrun, hindex, -⟩ := h
  obtain ⟨after', outcome, hpass, hne, hkept⟩ := leavesIndex_rename drive hasks
  cases passes with
  | zero => cases hrun
  | succ passes =>
    rw [handleRename_eq, run_retry hpass hne] at hrun
    obtain ⟨rfl, rfl⟩ := Prod.mk.inj (Option.some.inj hrun)
    rw [← hindex, hkept response rfl, drive.index]

/-- No rename takes effect. -/
theorem rename_never (drive : Drive user) {new : Bytes} {renamed : Item → Item}
    (hasks : AsksFor rawRequest drive.listing.items new renamed)
    (hfree : ∀ item ∈ drive.listing.items, ¬new <+: item.path) :
    ¬Renamed user rawRequest renamed drive.listing.items drive.store :=
  fun h ↦ textOf_renamed_ne drive.listing hasks hfree (textOf_eq_of_renamed drive hasks h)

/-- A request to rename the file `a`. -/
def renameFile : Bytes :=
  lit "\r\n\r\n\x7b\"old_path\":\"a\",\"new_name\":\"b\",\"type\":\"file\"\x7d"

theorem asksFor_renameFile : AsksFor renameFile docs.listing.items (lit "b")
    (replacePath (lit "a") (lit "b")) := by
  have hold : oldPath renameFile = lit "a" := by decide +kernel
  have hnew : parentPath (oldPath renameFile) ++ dropSlash (newName renameFile) = lit "b" := by
    decide +kernel
  have htype : jsonParam renameFile (lit "type") = lit "file" := by decide +kernel
  have hfile : .file (oldPath renameFile) [lit "k0"] ∈ docs.listing.items := by
    rw [hold]
    exact List.mem_cons_of_mem _ (List.mem_singleton_self _)
  have hasks := AsksFor.file [lit "k0"] htype hfile
  rwa [hnew, hold] at hasks

theorem rename_never_docs : ¬Renamed (lit "u") renameFile (replacePath (lit "a") (lit "b"))
    docs.listing.items docs.store :=
  rename_never docs asksFor_renameFile (by decide +kernel)

/-- The file `a` keeps its name. -/
theorem rename_without_effect :
    ¬∀ (user rawRequest : Bytes) (drive : Drive user) (new : Bytes) (renamed : Item → Item),
      AsksFor rawRequest drive.listing.items new renamed →
      (∀ item ∈ drive.listing.items, plus ∉ item.path ∧ item.keys.Nodup) →
      Complete drive.store user drive.listing.items →
      (∀ b ∈ [comma, colon, plus, slash], b ∉ newName rawRequest) →
      (∀ item ∈ drive.listing.items, ¬new <+: item.path) →
      Renamed user rawRequest renamed drive.listing.items drive.store := by
  intro h
  have hrenamed := h (lit "u") renameFile docs _ _ asksFor_renameFile (by decide +kernel)
    (by decide +kernel) (by decide +kernel) (by decide +kernel)
  have htext := textOf_eq_of_renamed docs asksFor_renameFile hrenamed
  revert htext
  decide +kernel

end PennCloud.Frontend.Renames
