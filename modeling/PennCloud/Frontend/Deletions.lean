import PennCloud.Frontend.DriveMoves

/-!
# Deleting from a drive

The handler for files takes out every entry that begins with the path in the request, be it that of
the file or not. The handler for folders takes out none: it empties a copy of each entry, and the
keys it deletes are those of rows that no file has. So each does what it is for exactly
where nothing else begins with the path.
-/

open PennCloud.Library.CppString PennCloud.Library.Programs
open PennCloud.KV.TabletCells PennCloud.Frontend.KVClient PennCloud.Frontend.HttpText
open PennCloud.Frontend.Storage PennCloud.Frontend.StorageIndex PennCloud.Frontend.FileEntries
open PennCloud.Frontend.IndexPaths PennCloud.Frontend.Uploads
open PennCloud.Frontend.Listings PennCloud.Frontend.DriveMoves

namespace PennCloud.Frontend.Deletions

/-! ## Erasing cells -/

/-- The store without these cells. -/
def erase (store : Store) (cells : List (Bytes × Bytes)) : Store :=
  fun cell ↦ if cell ∈ cells then none else store cell

theorem erase_nil (store : Store) : erase store [] = store := by
  funext cell
  exact if_neg List.not_mem_nil

theorem erase_append (store : Store) (cells more : List (Bytes × Bytes)) :
    erase (erase store cells) more = erase store (cells ++ more) := by
  funext cell
  simp only [erase, List.mem_append]
  by_cases hmore : cell ∈ more
  · simp [hmore]
  · simp [hmore]

theorem erase_of_not_mem {cells : List (Bytes × Bytes)} {cell : Bytes × Bytes} (h : cell ∉ cells)
    (store : Store) : erase store cells cell = store cell := if_neg h

theorem erase_of_mem {cells : List (Bytes × Bytes)} {cell : Bytes × Bytes} (h : cell ∈ cells)
    (store : Store) : erase store cells cell = none := if_pos h

theorem foldl_erase {ξ : Type} (f : ξ → List (Bytes × Bytes)) (xs : List ξ) (store : Store) :
    xs.foldl (fun store x ↦ erase store (f x)) store = erase store (xs.flatMap f) := by
  induction xs generalizing store with
  | nil => exact (erase_nil store).symm
  | cons x xs ih => rw [List.foldl_cons, ih, erase_append, List.flatMap_cons]

theorem run_del (row key : Bytes) (store : Store) :
    (del row key).run (execute ()) store = (erase store [(row, key)], .ok ()) := by
  refine (Prog.run_perform _ _).trans ?_
  have herase : erase store [(row, key)] = Function.update store (row, key) none := by
    funext cell
    simp [erase, Function.update_apply]
  rw [herase]
  rfl

/-- A loop that only erases. -/
theorem run_erases {ξ : Type} {f : ξ → KVProg Unit} {cells : ξ → List (Bytes × Bytes)}
    {xs : List ξ}
    (h : ∀ x ∈ xs, ∀ store, (f x).run (execute ()) store = (erase store (cells x), .ok ()))
    (store : Store) :
    (Prog.forEach f xs).run (execute ()) store = (erase store (xs.flatMap cells), .ok ()) := by
  rw [Prog.run_forEach h, foldl_erase]

theorem run_dels (row : Bytes) (keys : List Bytes) (store : Store) :
    (Prog.forEach (del row) keys).run (execute ()) store =
      (erase store (keys.map (row, ·)), .ok ()) := by
  rw [run_erases fun key _ ↦ run_del row key, List.map_eq_flatMap]

/-- The index is no cell of a file. -/
theorem indexOf_erase {user : Bytes} {cells : List (Bytes × Bytes)}
    (h : ∀ cell ∈ cells, ∃ path, cell.1 = fileRow user path) (store : Store) :
    indexOf user (erase store cells) = indexOf user store := by
  rw [indexOf, indexOf, erase_of_not_mem]
  intro hmem
  obtain ⟨path, hpath⟩ := h _ hmem
  exact fileRow_ne_user user path hpath.symm

/-! ## Deleting a file -/

variable {user : Bytes}

/-- The item is a file at this path. -/
def IsFile (path : Bytes) : Item → Prop
  | .folder _ => False
  | .file filePath _ => filePath = path

instance (path : Bytes) : DecidablePred (IsFile path)
  | .folder _ => inferInstanceAs (Decidable False)
  | .file _ _ => inferInstanceAs (Decidable (_ = _))

/-- The file is neither listed nor stored any more, and nothing else has changed. -/
structure FileDeleted (path : Bytes) (before : Drive user) (after : Store) : Prop where
  index : indexOf user after = textOf (before.listing.items.filter fun item ↦ ¬IsFile path item)
  gone : ∀ item ∈ before.listing.items, IsFile path item → ∀ key ∈ item.keys,
    after (fileRow user path, key) = none
  others : ∀ item ∈ before.listing.items, ¬IsFile path item →
    chunksOf after user item = chunksOf before.store user item
  nothing : (∀ item ∈ before.listing.items, ¬IsFile path item) → after = before.store

/-- The cells that the loop erases for an item. An empty list of keys reads as one empty key. -/
def erasedCells (user pathToRemove : Bytes) (item : Item) : List (Bytes × Bytes) :=
  if pathToRemove <+: item.text then
    match item with
    | .folder _ => []
    | .file path keys => (split (join keys (lit "+")) plus).map (fileRow user path, ·)
  else []

theorem run_deleteFileEntry {item : Item} (h : item.WellFormed) (pathToRemove : Bytes)
    (store : Store) :
    (deleteFileEntry user pathToRemove item.text).run (execute ()) store =
      (erase store (erasedCells user pathToRemove item), .ok ()) := by
  unfold deleteFileEntry erasedCells
  by_cases hbegins : pathToRemove <+: item.text
  · rw [if_pos ⟨h.text_ne_nil, hbegins⟩, if_pos hbegins]
    cases item with
    | folder path =>
      rw [Item.text, cutEntry_of_not_mem h.2.1, erase_nil]
      rfl
    | file path keys =>
      rw [Item.text, cutEntry_append h.2.1]
      exact run_dels _ _ store
  · rw [if_neg fun hboth ↦ hbegins hboth.2, if_neg hbegins, erase_nil]
    rfl

theorem run_deleteFileEntries {items : List Item} (h : ∀ item ∈ items, item.WellFormed)
    (pathToRemove : Bytes) (store : Store) :
    (Prog.forEach (deleteFileEntry user pathToRemove) (items.map Item.text)).run (execute ()) store =
      (erase store (items.flatMap (erasedCells user pathToRemove)), .ok ()) := by
  rw [Prog.forEach_map]
  exact run_erases (fun item hitem ↦ run_deleteFileEntry (h item hitem) pathToRemove) store

/-- The loop over an index in which nothing begins with the path. -/
theorem run_deleteFileEntries_of_none {pathToRemove : Bytes} {paths : List Bytes}
    (h : ∀ path ∈ paths, ¬(path ≠ [] ∧ pathToRemove <+: path)) (store : Store) :
    (Prog.forEach (deleteFileEntry user pathToRemove) paths).run (execute ()) store =
      (store, .ok ()) := by
  have hnothing : ∀ path ∈ paths, ∀ store,
      (deleteFileEntry user pathToRemove path).run (execute ()) store =
        ((fun store _ ↦ store) store path, .ok ()) := by
    intro path hpath store
    rw [deleteFileEntry, if_neg (h path hpath)]
    rfl
  rw [Prog.run_forEach hnothing, List.foldl_fixed]

theorem mem_erasedCells {pathToRemove : Bytes} {item : Item} {cell : Bytes × Bytes}
    (h : cell ∈ erasedCells user pathToRemove item) :
    pathToRemove <+: item.text ∧ cell.1 = fileRow user item.path := by
  unfold erasedCells at h
  split at h
  · next hbegins =>
    cases item with
    | folder path => exact absurd h List.not_mem_nil
    | file path keys =>
      obtain ⟨key, -, rfl⟩ := List.mem_map.mp h
      exact ⟨hbegins, rfl⟩
  · exact absurd h List.not_mem_nil

section Run

variable (drive : Drive user) (pathToRemove : Bytes)

/-- What the handler leaves. -/
def storeDeleted : Store :=
  if ∃ item ∈ drive.listing.items, pathToRemove <+: item.text then
    Function.update
      (erase drive.store (drive.listing.items.flatMap (erasedCells user pathToRemove)))
      (indexCell user)
      (some (textOf (drive.listing.items.filter fun item ↦ ¬pathToRemove <+: item.text)))
  else drive.store

theorem run_deleteFilePass :
    (deleteFilePass user pathToRemove).run (execute ()) drive.store =
      (storeDeleted drive pathToRemove, .ok (.done (corsOk (lit "File deleted")))) := by
  rw [deleteFilePass, run_bind_getIndex drive.index]
  by_cases hany : ∃ item ∈ drive.listing.items, pathToRemove <+: item.text
  · have hpieces : ∃ path ∈ drive.listing.items.map Item.text, path ≠ [] ∧ pathToRemove <+: path := by
      obtain ⟨item, hitem, hbegins⟩ := hany
      exact ⟨_, List.mem_map_of_mem hitem, (drive.listing.wellFormed item hitem).text_ne_nil, hbegins⟩
    have hsplit : split (textOf drive.listing.items) comma = drive.listing.items.map Item.text := by
      obtain ⟨item, hitem, -⟩ := hany
      exact split_textOf drive.listing.wellFormed (List.ne_nil_of_mem hitem)
    have hindex : indexOf user (erase drive.store (drive.listing.items.flatMap
        (erasedCells user pathToRemove))) = textOf drive.listing.items := by
      rw [← drive.index]
      apply indexOf_erase
      intro cell hcell
      obtain ⟨item, -, hmem⟩ := List.mem_flatMap.mp hcell
      exact ⟨item.path, (mem_erasedCells hmem).2⟩
    have hkept : (drive.listing.items.map Item.text).filter
        (fun path ↦ ¬(path ≠ [] ∧ pathToRemove <+: path)) =
          (drive.listing.items.filter fun item ↦ ¬pathToRemove <+: item.text).map Item.text := by
      rw [List.filter_map]
      congr 1
      apply List.filter_congr
      intro item hitem
      simp [(drive.listing.wellFormed item hitem).text_ne_nil]
    rw [hsplit, Prog.run_bind, run_deleteFileEntries drive.listing.wellFormed, if_pos hpieces,
      storeDeleted, if_pos hany]
    dsimp only
    rw [Prog.run_bind, run_setIndex hindex, hkept]
    rfl
  · have hnone : ¬∃ path ∈ split (textOf drive.listing.items) comma,
        path ≠ [] ∧ pathToRemove <+: path := by
      rintro ⟨path, hpath, hne, hbegins⟩
      have hentry := mem_entries.mpr ⟨hpath, hne⟩
      rw [entries_textOf drive.listing.wellFormed] at hentry
      obtain ⟨item, hitem, rfl⟩ := List.mem_map.mp hentry
      exact hany ⟨item, hitem, hbegins⟩
    have hloop := @run_deleteFileEntries_of_none user pathToRemove
      (split (textOf drive.listing.items) comma) (fun path hpath hboth ↦ hnone ⟨path, hpath, hboth⟩)
      drive.store
    rw [Prog.run_bind, hloop, if_neg hnone, storeDeleted, if_neg hany]
    rfl

end Run

section FileDeleted

variable {drive : Drive user} {body : Bytes}

theorem begins_of_isFile {item : Item} (h : IsFile body item) : body <+: item.text := by
  cases item with
  | folder path => exact h.elim
  | file path keys =>
    obtain rfl : path = body := h
    exact List.prefix_append path _

theorem mem_erasedCells_of_isFile {item : Item} (hwell : item.WellFormed) (h : IsFile body item)
    {key : Bytes} (hkey : key ∈ item.keys) :
    (fileRow user body, key) ∈ erasedCells user body item := by
  unfold erasedCells
  rw [if_pos (begins_of_isFile h)]
  cases item with
  | folder path => exact h.elim
  | file path keys =>
    obtain rfl : path = body := h
    have hkeys : ∀ key ∈ keys, plus ∉ key := fun key hkey ↦ (hwell.2.2 key hkey).2.2
    dsimp only
    rw [split_join_keys hkeys (List.ne_nil_of_mem hkey)]
    exact List.mem_map_of_mem hkey

theorem indexOf_storeDeleted (hany : ∃ item ∈ drive.listing.items, body <+: item.text) :
    indexOf user (storeDeleted drive body) =
      textOf (drive.listing.items.filter fun item ↦ ¬body <+: item.text) := by
  rw [storeDeleted, if_pos hany]
  exact indexOf_update_index user _ _

/-- The cells of an item beside those that go with the entries. -/
theorem storeDeleted_file (drive : Drive user) (body path key : Bytes) :
    storeDeleted drive body (fileRow user path, key) =
      erase drive.store (drive.listing.items.flatMap (erasedCells user body))
        (fileRow user path, key) := by
  unfold storeDeleted
  split
  · exact Function.update_of_ne (fun heq ↦ fileRow_ne_user user path (Prod.mk.inj heq).1) _ _
  · next hnone =>
    rw [erase_of_not_mem]
    intro hmem
    obtain ⟨item, hitem, hcell⟩ := List.mem_flatMap.mp hmem
    exact hnone ⟨item, hitem, (mem_erasedCells hcell).1⟩

theorem wellFormed_filter (p : Item → Prop) [DecidablePred p] :
    ∀ item ∈ drive.listing.items.filter p, item.WellFormed :=
  fun item hitem ↦ drive.listing.wellFormed item (List.mem_of_mem_filter hitem)

theorem isFile_of_fileDeleted (h : FileDeleted body drive (storeDeleted drive body)) {item : Item}
    (hitem : item ∈ drive.listing.items) (hbegins : body <+: item.text) : IsFile body item := by
  by_contra hnot
  have htexts := h.index
  rw [indexOf_storeDeleted ⟨item, hitem, hbegins⟩] at htexts
  have hentries := congrArg entries htexts
  rw [entries_textOf (wellFormed_filter _), entries_textOf (wellFormed_filter _)] at hentries
  have hmem : item.text ∈ (drive.listing.items.filter fun item ↦ ¬IsFile body item).map Item.text :=
    List.mem_map_of_mem (List.mem_filter.mpr ⟨hitem, decide_eq_true hnot⟩)
  rw [← hentries] at hmem
  obtain ⟨other, hother, htext⟩ := List.mem_map.mp hmem
  have hkept := of_decide_eq_true (List.mem_filter.mp hother).2
  rw [htext] at hkept
  exact hkept hbegins

theorem fileDeleted_of_only
    (h : ∀ item ∈ drive.listing.items, body <+: item.text → IsFile body item) :
    FileDeleted body drive (storeDeleted drive body) := by
  have hsame : ∀ item ∈ drive.listing.items, body <+: item.text ↔ IsFile body item :=
    fun item hitem ↦ ⟨h item hitem, begins_of_isFile⟩
  have hfilter : drive.listing.items.filter (fun item ↦ ¬body <+: item.text) =
      drive.listing.items.filter fun item ↦ ¬IsFile body item := by
    apply List.filter_congr
    intro item hitem
    rw [decide_eq_decide, hsame item hitem]
  have hnothing : (∀ item ∈ drive.listing.items, ¬IsFile body item) →
      storeDeleted drive body = drive.store := by
    intro hnone
    apply if_neg
    rintro ⟨item, hitem, hbegins⟩
    exact hnone item hitem (h item hitem hbegins)
  constructor
  · rw [← hfilter]
    by_cases hany : ∃ item ∈ drive.listing.items, body <+: item.text
    · exact indexOf_storeDeleted hany
    · rw [storeDeleted, if_neg hany, drive.index, List.filter_eq_self.mpr]
      intro item hitem
      exact decide_eq_true fun hbegins ↦ hany ⟨item, hitem, hbegins⟩
  · intro item hitem hfile key hkey
    rw [storeDeleted_file, erase_of_mem]
    exact List.mem_flatMap.mpr ⟨item, hitem, mem_erasedCells_of_isFile
      (drive.listing.wellFormed item hitem) hfile hkey⟩
  · intro item hitem hfile
    rw [chunksOf_eq_iff rfl]
    intro key _
    rw [storeDeleted_file, erase_of_not_mem]
    intro hmem
    obtain ⟨other, hother, hcell⟩ := List.mem_flatMap.mp hmem
    obtain ⟨hbegins, hrow⟩ := mem_erasedCells hcell
    have hpath := fileRow_injective user hrow
    rw [drive.listing.eq_of_path hitem hother hpath] at hfile
    exact hfile (h other hother hbegins)
  · exact hnothing

end FileDeleted

/-- A deletion deletes its file only, exactly if no other entry begins with the path. -/
theorem deleteFile_only_iff (drive : Drive user) (rawRequest : Bytes) :
    ∃ (after : Store) (response : Response),
      runJob (execute ()) (handleDeleteFile user rawRequest) 1 0 drive.store =
        some (after, .ok response) ∧
      (FileDeleted (parseBody rawRequest).2 drive after ↔ ∀ item ∈ drive.listing.items,
        (parseBody rawRequest).2 <+: item.text → IsFile (parseBody rawRequest).2 item) := by
  generalize hbody : (parseBody rawRequest).2 = body
  have hjob : runJob (execute ()) (handleDeleteFile user rawRequest) 1 0 drive.store =
      some (storeDeleted drive body, .ok (corsOk (lit "File deleted"))) := by
    rw [runJob, handleDeleteFile, if_pos (by decide), catchKVError, Prog.run_handle, catchKVNoMatch,
      Prog.run_handle, hbody, run_deleteFilePass]
  refine ⟨_, _, hjob, fun hdeleted item hitem hbegins ↦ ?_, fileDeleted_of_only⟩
  exact isFile_of_fileDeleted hdeleted hitem hbegins

/-- Two files, one of whose names begins with the other's. -/
def abbreviated : Drive (lit "u") :=
  .write (lit "u") ⟨[.file (lit "a") [lit "k0"], .file (lit "ab") [lit "k0"]], by decide, by decide⟩
    (storeOf [((lit "u:a", lit "k0"), lit "1"), ((lit "u:ab", lit "k0"), lit "2")])

/-- The file `ab` goes with `a`. -/
theorem deleteFile_takes_another :
    ¬∀ (user rawRequest : Bytes) (drive : Drive user),
      Complete drive.store user drive.listing.items →
      (∃ item ∈ drive.listing.items, IsFile (parseBody rawRequest).2 item) →
      ∃ (after : Store) (response : Response),
        runJob (execute ()) (handleDeleteFile user rawRequest) 1 0 drive.store =
          some (after, .ok response) ∧ FileDeleted (parseBody rawRequest).2 drive after := by
  intro h
  have hrun : (runJob (execute ()) (handleDeleteFile (lit "u") (lit "\r\n\r\na")) 1 0
      abbreviated.store).map (fun outcome ↦ decide (indexOf (lit "u") outcome.1 = [])) =
        some true := by
    decide +kernel
  obtain ⟨after, response, hafter, hdeleted⟩ := h (lit "u") (lit "\r\n\r\na") abbreviated
    (by decide +kernel) (by decide +kernel)
  rw [hafter] at hrun
  have hindex : indexOf (lit "u") after = [] := of_decide_eq_true (Option.some.inj hrun)
  have hkept := hdeleted.index
  rw [hindex] at hkept
  revert hkept
  decide +kernel

/-! ## Deleting a folder -/

/-- The items of the folder are neither listed nor stored any more, and nothing else has changed. -/
structure SubtreeDeleted (folder : Bytes) (before : Drive user) (after : Store) : Prop where
  index : indexOf user after =
    textOf (before.listing.items.filter fun item ↦ ¬folder <+: item.path)
  gone : ∀ item ∈ before.listing.items, folder <+: item.path → ∀ key ∈ item.keys,
    after (fileRow user item.path, key) = none
  others : ∀ item ∈ before.listing.items, ¬folder <+: item.path →
    chunksOf after user item = chunksOf before.store user item

/-- The cells that the loop erases: their row has the whole entry in its name. -/
def strayCells (user folder : Bytes) (item : Item) : List (Bytes × Bytes) :=
  if folder <+: item.text then
    match item with
    | .folder _ => []
    | .file path keys =>
      (words ((join keys (lit "+")).map fun b ↦ if b = plus then 32 else b)).map
        (fileRow user (Item.file path keys).text, ·)
  else []

theorem run_deleteFolderEntry {item : Item} (h : item.WellFormed) (folder : Bytes) (store : Store) :
    (deleteFolderEntry user folder item.text).run (execute ()) store =
      (erase store (strayCells user folder item), .ok ()) := by
  unfold deleteFolderEntry strayCells
  by_cases hbegins : folder <+: item.text
  · rw [if_pos hbegins, if_pos hbegins]
    cases item with
    | folder path =>
      rw [Item.text, cutEntry_of_not_mem h.2.1, erase_nil]
      rfl
    | file path keys =>
      rw [Item.text, cutEntry_append h.2.1]
      exact run_dels _ _ store
  · rw [if_neg hbegins, if_neg hbegins, erase_nil]
    rfl

theorem mem_strayCells {folder : Bytes} {item : Item} {cell : Bytes × Bytes}
    (h : cell ∈ strayCells user folder item) :
    colon ∈ item.text ∧ cell.1 = fileRow user item.text := by
  unfold strayCells at h
  split at h
  · cases item with
    | folder path => exact absurd h List.not_mem_nil
    | file path keys =>
      obtain ⟨key, -, rfl⟩ := List.mem_map.mp h
      exact ⟨List.mem_append_right path List.mem_cons_self, rfl⟩
  · exact absurd h List.not_mem_nil

section Run

variable (drive : Drive user) (folder : Bytes)

/-- What the handler leaves. -/
def strayErased : Store := erase drive.store (drive.listing.items.flatMap (strayCells user folder))

theorem strayErased_file {item : Item} (hitem : item ∈ drive.listing.items) (key : Bytes) :
    strayErased drive folder (fileRow user item.path, key) =
      drive.store (fileRow user item.path, key) := by
  apply erase_of_not_mem
  intro hmem
  obtain ⟨other, -, hcell⟩ := List.mem_flatMap.mp hmem
  obtain ⟨hcolon, hrow⟩ := mem_strayCells hcell
  rw [← fileRow_injective user hrow] at hcolon
  exact (drive.listing.wellFormed item hitem).colon_not_mem hcolon

theorem indexOf_strayErased : indexOf user (strayErased drive folder) = textOf drive.listing.items := by
  rw [← drive.index]
  apply indexOf_erase
  intro cell hcell
  obtain ⟨item, -, hmem⟩ := List.mem_flatMap.mp hcell
  exact ⟨item.text, (mem_strayCells hmem).2⟩

theorem run_handleDeleteFolder (rawRequest : Bytes) :
    runJob (execute ()) (handleDeleteFolder user rawRequest) 1 0 drive.store =
      some ((Drive.write user drive.listing (strayErased drive (parseBody rawRequest).2)).store,
        .ok (corsOk (lit "Successfully deleted folder"))) := by
  have hloop : (Prog.forEach (deleteFolderEntry user (parseBody rawRequest).2)
      (getlines (textOf drive.listing.items) comma)).run (execute ()) drive.store =
        (strayErased drive (parseBody rawRequest).2, .ok ()) := by
    rw [getlines_textOf drive.listing.wellFormed, Prog.forEach_map]
    exact run_erases (fun item hitem ↦ run_deleteFolderEntry (drive.listing.wellFormed item hitem) _)
      drive.store
  rw [runJob, handleDeleteFolder, retry, catchKVNoMatch, Prog.run_handle,
    run_bind_getIndex drive.index, Prog.run_bind, hloop]
  dsimp only
  rw [join_split, drive.listing.tidy.collapse, Prog.run_bind,
    run_setListing (indexOf_strayErased drive _)]
  rfl

end Run

/-- A deletion deletes exactly the subtree if and only if there is nothing to delete. -/
theorem deleteFolder_subtree_iff (drive : Drive user) (rawRequest : Bytes) :
    ∃ (after : Store) (response : Response),
      runJob (execute ()) (handleDeleteFolder user rawRequest) 1 0 drive.store =
        some (after, .ok response) ∧
      (SubtreeDeleted (parseBody rawRequest).2 drive after ↔
        ∀ item ∈ drive.listing.items, ¬(parseBody rawRequest).2 <+: item.path) := by
  refine ⟨_, _, run_handleDeleteFolder drive rawRequest, ?_⟩
  constructor
  · intro hdeleted item hitem hbegins
    have htexts := congrArg entries (((Drive.write user drive.listing _).index).symm.trans
      hdeleted.index)
    rw [Drive.listing_write, entries_textOf drive.listing.wellFormed,
      entries_textOf (wellFormed_filter _)] at htexts
    have hlength := congrArg List.length htexts
    rw [List.length_map, List.length_map] at hlength
    have hall := List.length_filter_eq_length_iff.mp hlength.symm item hitem
    exact of_decide_eq_true hall hbegins
  · intro hnone
    constructor
    · rw [List.filter_eq_self.mpr fun item hitem ↦ decide_eq_true (hnone item hitem)]
      exact (Drive.write user drive.listing _).index
    · exact fun item hitem hbegins ↦ absurd hbegins (hnone item hitem)
    · intro item hitem _
      rw [chunksOf_eq_iff rfl]
      intro key _
      rw [Drive.store_write_file, strayErased_file drive _ hitem]

/-- The folder `docs/` stays in the index. -/
theorem deleteFolder_keeps_folder :
    ¬∀ (user rawRequest : Bytes) (drive : Drive user),
      Complete drive.store user drive.listing.items →
      (parseBody rawRequest).2.getLast? = some slash →
      ∃ (after : Store) (response : Response),
        runJob (execute ()) (handleDeleteFolder user rawRequest) 1 0 drive.store =
          some (after, .ok response) ∧ SubtreeDeleted (parseBody rawRequest).2 drive after := by
  intro h
  have hrun : (runJob (execute ()) (handleDeleteFolder (lit "u") (lit "\r\n\r\ndocs/")) 1 0
      docs.store).map (fun outcome ↦ decide (indexOf (lit "u") outcome.1 = lit "docs/,a:k0")) =
        some true := by
    decide +kernel
  obtain ⟨after, response, hafter, hdeleted⟩ := h (lit "u") (lit "\r\n\r\ndocs/") docs
    (by decide +kernel) (by decide +kernel)
  rw [hafter] at hrun
  have hindex : indexOf (lit "u") after = lit "docs/,a:k0" :=
    of_decide_eq_true (Option.some.inj hrun)
  have hgone := hdeleted.index
  rw [hindex] at hgone
  revert hgone
  decide +kernel

end PennCloud.Frontend.Deletions
