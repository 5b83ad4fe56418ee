import PennCloud.Library.CellMoves
import PennCloud.Frontend.IndexSharing
import PennCloud.Frontend.Listings
import PennCloud.Frontend.Uploads

/-!
# Moves in a drive

What the move of a file does to a drive when it runs alone. Its chunks are moved one by one, which the
loop of a handler does in the way of a transfer: it stops at a chunk that is missing. A file whose
chunks are stored gets to its new path with them, and every other file keeps its own.
-/

open PennCloud.Library.CppString PennCloud.Library.Programs PennCloud.Library.CellMoves
open PennCloud.KV.TabletCells PennCloud.Frontend.KVClient PennCloud.Frontend.HttpText
open PennCloud.Frontend.Storage PennCloud.Frontend.StorageIndex PennCloud.Frontend.FileEntries
open PennCloud.Frontend.IndexPaths PennCloud.Frontend.IndexSharing PennCloud.Frontend.Uploads
open PennCloud.Frontend.Listings

namespace PennCloud.Frontend.DriveMoves

/-! ## Passes -/

section Pass

variable {store after : Store} {content : Bytes} {p : KVProg (Pass Response)}

theorem run_retryOrBreak_of_done {response : Response}
    (h : p.run (execute ()) store = (after, .ok (.done response))) :
    runJob (execute ()) (fun _ ↦ retryOrBreak content p) 1 0 store =
      some (after, .ok response) := by
  have hpass : (retryOrBreak content p).run (execute ()) store =
      (after, .ok (.done response)) := by
    rw [retryOrBreak, catchKVError, Prog.run_handle, retry, catchKVNoMatch, Prog.run_handle, h]
  rw [runJob, hpass]

theorem run_retryOrBreak_of_notFound (h : p.run (execute ()) store = (after, .error .kvNotFound)) :
    runJob (execute ()) (fun _ ↦ retryOrBreak content p) 1 0 store =
      some (after, .ok (corsOk content)) := by
  have hpass : (retryOrBreak content p).run (execute ()) store =
      (after, .ok (.done (corsOk content))) := by
    rw [retryOrBreak, catchKVError, Prog.run_handle, retry, catchKVNoMatch, Prog.run_handle, h]
    rfl
  rw [runJob, hpass]

theorem run_bind_getIndex {user index : Bytes} {α : Type} (h : indexOf user store = index)
    (f : Bytes → KVProg α) :
    (getdefault user (lit "storage") [] >>= f).run (execute ()) store =
      (f index).run (execute ()) store := by
  rw [Prog.run_bind, run_getdefault]
  exact congrArg (fun index ↦ (f index).run (execute ()) store) h

theorem run_setIndex {user index : Bytes} (h : indexOf user store = index) (new : Bytes) :
    (cput user (lit "storage") index new).run (execute ()) store =
      (Function.update store (indexCell user) (some new), .ok ()) :=
  run_cput_of_matches user (lit "storage") store new (matches_iff.mpr h)

theorem run_setListing {user index : Bytes} (h : indexOf user store = index) (listing : Listing) :
    (cput user (lit "storage") index (textOf listing.items)).run (execute ()) store =
      ((Drive.write user listing store).store, .ok ()) := run_setIndex h _

theorem back_of_ne_nil {text : Bytes} (h : text ≠ []) : ∃ b, back text = .ret b := by
  rw [back, List.getLast?_eq_some_getLast h]
  exact ⟨_, rfl⟩

end Pass

/-! ## Chunks -/

/-- The move of a chunk to another row. -/
def chunkMove (oldRow newRow key : Bytes) : Move (Bytes × Bytes) where
  source := (oldRow, key)
  target := (newRow, key)

/-- What a loop answers that stops at a missing chunk. -/
def answerOf {α : Type} (all : Bool) (a : α) : Except Thrown α :=
  if all then .ok a else .error .kvNotFound

@[simp]
theorem answerOf_true {α : Type} (a : α) : answerOf true a = .ok a := rfl

/-- A loop, then a value. -/
theorem run_thenReturn {α : Type} {p : KVProg Unit} {store after : Store} {all : Bool}
    (h : p.run (execute ()) store = (after, answerOf all ())) (a : α) :
    (do
      p
      return a : KVProg α).run (execute ()) store = (after, answerOf all a) := by
  rw [Prog.run_bind, h]
  cases all with
  | true => rfl
  | false => rfl

theorem run_moveChunks (oldRow newRow : Bytes) (keys : List Bytes) (store : Store) :
    (Prog.forEach (moveChunk oldRow newRow) keys).run (execute ()) store =
      ((transfer store (keys.map (chunkMove oldRow newRow))).1,
        answerOf (transfer store (keys.map (chunkMove oldRow newRow))).2 ()) := by
  induction keys generalizing store with
  | nil => rfl
  | cons key keys ih =>
    rw [Prog.forEach, Prog.run_bind, List.map_cons, moveChunk, Prog.run_bind]
    cases hcell : store (oldRow, key) with
    | none =>
      rw [run_get_of_none hcell, transfer_cons_of_none (m := chunkMove oldRow newRow key) hcell]
      rfl
    | some value =>
      have hthere : store (chunkMove oldRow newRow key).source ≠ none := by
        rw [chunkMove, hcell]
        exact Option.some_ne_none value
      rw [run_get_of_some hcell, transfer_cons_of_some hthere, ← ih]
      have hmove : move store (chunkMove oldRow newRow key) = Function.update
          (Function.update store (newRow, key) (some value)) (oldRow, key) none := by
        rw [move, chunkMove, hcell]
      rw [hmove]
      rfl

theorem indexOf_transfer {user : Bytes} {store : Store} {moves : List (Move (Bytes × Bytes))}
    (h : ∀ m ∈ moves, ∃ old new key, m = chunkMove (fileRow user old) (fileRow user new) key) :
    indexOf user (transfer store moves).1 = indexOf user store := by
  rw [indexOf, indexOf, transfer_of_ne]
  intro m hm
  obtain ⟨old, new, key, rfl⟩ := h m hm
  constructor
  · exact fun heq ↦ fileRow_ne_user user old (Prod.mk.inj heq).1.symm
  · exact fun heq ↦ fileRow_ne_user user new (Prod.mk.inj heq).1.symm

/-! ## Moving a file -/

section MoveFile

/-- The item at the old path gets the new one. -/
def replacePath (old new : Bytes) (item : Item) : Item :=
  if item.path = old then item.withPath new else item

/-- The moves of a file's chunks. -/
def fileMoves (user old new : Bytes) (keys : List Bytes) : List (Move (Bytes × Bytes)) :=
  keys.map (chunkMove (fileRow user old) (fileRow user new))

/-- The file is at its new path, and nothing else has changed. -/
structure FileMoved {user : Bytes} (old new : Bytes) (before after : Drive user) : Prop where
  items : after.listing.items = before.listing.items.map (replacePath old new)
  content : ∀ item ∈ before.listing.items, item.path = old →
    chunksOf after.store user (item.withPath new) = chunksOf before.store user item
  gone : ∀ item ∈ before.listing.items, item.path = old → ∀ key ∈ item.keys,
    after.store (fileRow user old, key) = none
  others : ∀ item ∈ before.listing.items, item.path ≠ old →
    chunksOf after.store user item = chunksOf before.store user item
  cells : ∀ cell, cell ≠ indexCell user → cell.1 ≠ fileRow user old → cell.1 ≠ fileRow user new →
    after.store cell = before.store cell

variable {user old new : Bytes} {keys : List Bytes} {store : Store}

theorem mem_fileMoves {m : Move (Bytes × Bytes)} (h : m ∈ fileMoves user old new keys) :
    ∃ key ∈ keys, m = chunkMove (fileRow user old) (fileRow user new) key := by
  obtain ⟨key, hkey, rfl⟩ := List.mem_map.mp h
  exact ⟨key, hkey, rfl⟩

theorem mem_fileMoves_of_mem {key : Bytes} (h : key ∈ keys) :
    chunkMove (fileRow user old) (fileRow user new) key ∈ fileMoves user old new keys :=
  List.mem_map_of_mem h

theorem nodup_fileMoves (h : keys.Nodup) :
    ((fileMoves user old new keys).map Move.source).Nodup := by
  rw [fileMoves, List.map_map]
  exact h.map fun _ _ heq ↦ (Prod.mk.inj heq).2

theorem separate_fileMoves : Separate (fileMoves user old new keys) := by
  intro m hm n hn heq
  obtain ⟨key, -, rfl⟩ := mem_fileMoves hm
  obtain ⟨key', -, rfl⟩ := mem_fileMoves hn
  obtain rfl := (Prod.mk.inj heq).2
  rfl

theorem clear_fileMoves (hne : new ≠ old) (h : keys.Nodup) :
    Clear (fileMoves user old new keys) := by
  have hrows : ∀ m ∈ fileMoves user old new keys, ∀ n ∈ fileMoves user old new keys,
      m.target ≠ n.source := by
    intro m hm n hn heq
    obtain ⟨key, -, rfl⟩ := mem_fileMoves hm
    obtain ⟨key', -, rfl⟩ := mem_fileMoves hn
    exact hne (fileRow_injective user (Prod.mk.inj heq).1)
  refine ⟨nodup_fileMoves h, ?_, fun m hm ↦ hrows m hm m hm⟩
  exact List.pairwise_of_forall_mem_list fun m hm n hn ↦ hrows m hm n hn

/-- The only item of its path is replaced. -/
theorem map_replacePath {front back : List Item} {item : Item}
    (hdistinct : ((front ++ item :: back).map Item.path).Nodup) (new : Bytes) :
    (front ++ item :: back).map (replacePath item.path new) =
      front ++ item.withPath new :: back := by
  rw [List.map_append, List.map_cons, List.nodup_middle, List.nodup_cons, ← List.map_append]
    at hdistinct
  have hothers : ∀ other ∈ front ++ back, replacePath item.path new other = other := by
    intro other hother
    apply if_neg
    intro heq
    exact hdistinct.1 (heq ▸ List.mem_map_of_mem hother)
  have hfront : front.map (replacePath item.path new) = front.map id :=
    List.map_congr_left fun other hother ↦ hothers other (List.mem_append_left _ hother)
  have hback : back.map (replacePath item.path new) = back.map id :=
    List.map_congr_left fun other hother ↦ hothers other (List.mem_append_right _ hother)
  rw [List.map_append, List.map_cons, hfront, hback, List.map_id, List.map_id]
  exact congrArg (fun moved ↦ front ++ moved :: back) (if_pos rfl)

/-- The loop moves the chunks of the file and puts the new path into its entry. -/
theorem run_moveFileEntry (listing : Listing) (hfile : .file old keys ∈ listing.items)
    (hkeys : keys ≠ []) (store : Store) :
    (moveFileEntry user old new (listing.items.map Item.text)).run (execute ()) store =
      ((transfer store (fileMoves user old new keys)).1,
        answerOf (transfer store (fileMoves user old new keys)).2
          ((listing.items.map (replacePath old new)).map Item.text)) := by
  have hwell := listing.wellFormed _ hfile
  rcases moveFileEntry_cases user old new (listing.items.map Item.text) with
    ⟨hnone, -⟩ | ⟨front, keyText, rest, htexts, hcolon, hrun⟩
  · exact absurd (filePath_append hwell.2.1 _) (hnone _ (List.mem_map_of_mem hfile))
  · obtain ⟨firstItems, others, hitems, rfl, hothers⟩ := List.map_eq_append_iff.mp htexts
    obtain ⟨item, lastItems, rfl, hitem, rfl⟩ := List.map_eq_cons_iff.mp hothers
    have hmem : item ∈ listing.items := by
      rw [hitems]
      exact List.mem_append_right _ List.mem_cons_self
    have hpath : item.path = old := by
      rw [← entryPath_text (listing.wellFormed item hmem), hitem, entryPath_append hcolon]
    obtain rfl := listing.eq_of_path hmem hfile hpath
    have htext : keyText = join keys (lit "+") := by
      have hcut := List.append_cancel_left hitem
      exact (List.cons.inj hcut).2.symm
    have hsplit := split_join_keys (fun key hkey ↦ (hwell.2.2 key hkey).2.2) hkeys
    have hdistinct := listing.distinct
    rw [hitems] at hdistinct
    have hreplace := map_replacePath hdistinct new
    have hnew : firstItems.map Item.text ++ (new ++ colon :: keyText) :: lastItems.map Item.text =
        (listing.items.map (replacePath old new)).map Item.text := by
      refine Eq.symm ((congrArg (List.map Item.text) (hitems ▸ hreplace)).trans ?_)
      rw [List.map_append, List.map_cons, htext, Item.withPath, Item.text]
    rw [hrun, hnew, htext, hsplit]
    exact run_thenReturn (run_moveChunks _ _ keys store) _

/-- The listing with the file at its new path. -/
def replaceIn (listing : Listing) (old new : Bytes) (hcomma : comma ∉ new)
    (hcolon : colon ∉ new) (hfile : ∀ path, .folder path ∈ listing.items → path ≠ old)
    (hnew : ∀ item ∈ listing.items, item.path ≠ new) : Listing where
  items := listing.items.map (replacePath old new)
  wellFormed := by
    intro item hitem
    obtain ⟨before, hbefore, rfl⟩ := List.mem_map.mp hitem
    have hwell := listing.wellFormed before hbefore
    unfold replacePath
    split
    · next hpath =>
      cases before with
      | folder path => exact absurd hpath (hfile path hbefore)
      | file path keys => exact ⟨hcomma, hcolon, hwell.2.2⟩
    · exact hwell
  distinct := by
    have hpaths : (listing.items.map (replacePath old new)).map Item.path =
        (listing.items.map Item.path).map fun path ↦ if path = old then new else path := by
      rw [List.map_map, List.map_map]
      apply List.map_congr_left
      intro item _
      simp only [Function.comp_apply, replacePath]
      split
      · exact Item.path_withPath new item
      · rfl
    rw [hpaths]
    apply listing.distinct.map_on
    intro path hpath other hother heq
    have hne : ∀ path ∈ listing.items.map Item.path, path ≠ new := by
      intro path hpath
      obtain ⟨item, hitem, rfl⟩ := List.mem_map.mp hpath
      exact hnew item hitem
    split at heq
    · next hold =>
      split at heq
      · next hold' => rw [hold, hold']
      · exact absurd heq.symm (hne other hother)
    · split at heq
      · exact absurd heq (hne path hpath)
      · exact heq

/-- Moving a file whose chunks are stored. -/
theorem fileMoved_transfer (drive : Drive user) (hfile : .file old keys ∈ drive.listing.items)
    (hcomplete : Complete drive.store user drive.listing.items) (hkeys : keys.Nodup)
    (hcomma : comma ∉ new) (hcolon : colon ∉ new)
    (hfree : ∀ item ∈ drive.listing.items, ¬new <+: item.text) :
    (transfer drive.store (fileMoves user old new keys)).2 = true ∧
      ∃ listing : Listing, listing.items = drive.listing.items.map (replacePath old new) ∧
        FileMoved old new drive
          (.write user listing (transfer drive.store (fileMoves user old new keys)).1) := by
  have hpath : ∀ item ∈ drive.listing.items, item.path ≠ new := by
    rintro item hitem rfl
    apply hfree item hitem
    rw [← entryPath_text (drive.listing.wellFormed item hitem)]
    exact entryPath_begins item.text
  have hne : new ≠ old := (hpath _ hfile).symm
  have hthere : ∀ m ∈ fileMoves user old new keys, drive.store m.source ≠ none := by
    intro m hm
    obtain ⟨key, hkey, rfl⟩ := mem_fileMoves hm
    exact complete_iff.mp hcomplete _ hfile key hkey
  have hall := transfer_all (nodup_fileMoves hkeys) hthere
  have honly : ∀ item ∈ drive.listing.items, item.path = old → item = .file old keys :=
    fun item hitem hitemPath ↦ drive.listing.eq_of_path hitem hfile hitemPath
  have hfolder : ∀ path, .folder path ∈ drive.listing.items → path ≠ old := by
    intro path hmem hold
    cases honly _ hmem hold
  refine ⟨hall, replaceIn drive.listing old new hcomma hcolon hfolder hpath, rfl, rfl, ?_, ?_, ?_, ?_⟩
  · intro item hitem hitemPath
    obtain rfl := honly item hitem hitemPath
    rw [chunksOf_eq_iff (Item.keys_withPath new _), Item.path_withPath]
    intro key hkey
    rw [Drive.store_write_file]
    exact (clear_fileMoves hne hkeys).arrives separate_fileMoves hthere (mem_fileMoves_of_mem hkey)
  · intro item hitem hitemPath key hkey
    obtain rfl := honly item hitem hitemPath
    rw [Drive.store_write_file]
    refine transfer_source hall (mem_fileMoves_of_mem hkey) fun n hn heq ↦ ?_
    obtain ⟨key', -, rfl⟩ := mem_fileMoves hn
    exact hne (fileRow_injective user (Prod.mk.inj heq).1).symm
  · intro item hitem hitemPath
    rw [chunksOf_eq_iff rfl]
    intro key _
    rw [Drive.store_write_file, transfer_of_ne]
    intro m hm
    obtain ⟨key', -, rfl⟩ := mem_fileMoves hm
    constructor
    · exact fun heq ↦ hitemPath (fileRow_injective user (Prod.mk.inj heq).1)
    · exact fun heq ↦ hpath item hitem (fileRow_injective user (Prod.mk.inj heq).1)
  · intro cell hindex hold hnew
    rw [Drive.store_write_of_ne hindex, transfer_of_ne]
    intro m hm
    obtain ⟨key', -, rfl⟩ := mem_fileMoves hm
    exact ⟨fun heq ↦ hold (congrArg Prod.fst heq), fun heq ↦ hnew (congrArg Prod.fst heq)⟩

section Run

variable (drive : Drive user) {targetParam : Bytes} (hparam : targetParam ≠ [])

include hparam

theorem run_moveFilePass_of_duplicate (old : Bytes)
    (h : ∃ item ∈ drive.listing.items, dropSlash targetParam <+: item.text) :
    (moveFilePass user old targetParam).run (execute ()) drive.store =
      (drive.store, .ok (.done (corsOk (lit "Failed to move file: file already exists!")))) := by
  obtain ⟨item, hitem, hbegins⟩ := h
  obtain ⟨b, hback⟩ := back_of_ne_nil hparam
  have hsplit := split_textOf drive.listing.wellFormed (List.ne_nil_of_mem hitem)
  rw [moveFilePass, run_bind_getIndex drive.index, hsplit, hback, Prog.ret_bind, if_pos]
  · rfl
  · exact ⟨item.text, List.mem_map_of_mem hitem, hbegins⟩

theorem run_moveFilePass_of_free (hfile : .file old keys ∈ drive.listing.items) (hkeys : keys ≠ [])
    (hfree : ∀ item ∈ drive.listing.items, ¬dropSlash targetParam <+: item.text)
    (hall : (transfer drive.store (fileMoves user old (dropSlash targetParam) keys)).2 = true)
    {listing : Listing}
    (hitems : listing.items = drive.listing.items.map (replacePath old (dropSlash targetParam))) :
    (moveFilePass user old targetParam).run (execute ()) drive.store =
      ((Drive.write user listing
          (transfer drive.store (fileMoves user old (dropSlash targetParam) keys)).1).store,
        .ok (.done (corsOk (lit "Successfully moved file")))) := by
  obtain ⟨b, hback⟩ := back_of_ne_nil hparam
  have hsplit := split_textOf drive.listing.wellFormed (List.ne_nil_of_mem hfile)
  have hindex : indexOf user (transfer drive.store
      (fileMoves user old (dropSlash targetParam) keys)).1 = textOf drive.listing.items := by
    rw [← drive.index]
    apply indexOf_transfer
    intro m hm
    obtain ⟨key, -, rfl⟩ := mem_fileMoves hm
    exact ⟨old, dropSlash targetParam, key, rfl⟩
  rw [moveFilePass, run_bind_getIndex drive.index, hsplit, hback, Prog.ret_bind, if_neg,
    Prog.run_bind, run_moveFileEntry drive.listing hfile hkeys, hall]
  · rw [answerOf_true]
    dsimp only
    rw [← hitems, Prog.run_bind, ← textOf, run_setListing hindex]
    rfl
  · rintro ⟨path, hpath, hbegins⟩
    obtain ⟨item, hitem, rfl⟩ := List.mem_map.mp hpath
    exact hfree item hitem hbegins

end Run

/-- A file gets to a new path with its content, unless an entry begins with that path. -/
theorem moveFile_keeps_content {rawRequest : Bytes} (drive : Drive user)
    (hfile : .file (oldPath rawRequest) keys ∈ drive.listing.items)
    (hcomplete : Complete drive.store user drive.listing.items) (hkeys : keys ≠ [])
    (hnodup : keys.Nodup) (hne : targetPath rawRequest ≠ []) (hcomma : comma ∉ targetPath rawRequest)
    (hcolon : colon ∉ targetPath rawRequest) :
    ∃ (after : Drive user) (response : Response),
      runJob (execute ()) (handleMoveFile user rawRequest) 1 0 drive.store =
        some (after.store, .ok response) ∧
      if ∃ item ∈ drive.listing.items, targetPath rawRequest <+: item.text then after = drive
      else FileMoved (oldPath rawRequest) (targetPath rawRequest) drive after := by
  have hparam : jsonParam rawRequest (lit "target_path") ≠ [] := by
    intro hnil
    rw [targetPath, hnil] at hne
    exact hne rfl
  by_cases hduplicate : ∃ item ∈ drive.listing.items, targetPath rawRequest <+: item.text
  · have hrun := run_moveFilePass_of_duplicate drive hparam (oldPath rawRequest) hduplicate
    refine ⟨drive, _, run_retryOrBreak_of_done hrun, ?_⟩
    rw [if_pos hduplicate]
  · have hfree : ∀ item ∈ drive.listing.items, ¬targetPath rawRequest <+: item.text := by
      intro item hitem hbegins
      exact hduplicate ⟨item, hitem, hbegins⟩
    obtain ⟨hall, listing, hitems, hmoved⟩ :=
      fileMoved_transfer drive hfile hcomplete hnodup hcomma hcolon hfree
    have hrun := run_moveFilePass_of_free drive hparam hfile hkeys hfree hall hitems
    refine ⟨_, _, run_retryOrBreak_of_done hrun, ?_⟩
    rwa [if_neg hduplicate]

end MoveFile

/-- A folder and a file. -/
def docs : Drive (lit "u") :=
  .write (lit "u") ⟨[.folder (lit "docs/"), .file (lit "a") [lit "k0"]], by decide, by decide⟩
    (storeOf [((lit "u:a", lit "k0"), lit "x")])

def moveIntoDocs : Bytes := lit "\r\n\r\n\x7b\"old_path\":\"a\",\"target_path\":\"docs/b/\"\x7d"

theorem moveFile_keeps_content_docs : ∃ (after : Drive (lit "u")) (response : Response),
    runJob (execute ()) (handleMoveFile (lit "u") moveIntoDocs) 1 0 docs.store =
      some (after.store, .ok response) ∧ FileMoved (lit "a") (lit "docs/b") docs after := by
  have hold : oldPath moveIntoDocs = lit "a" := by decide +kernel
  have htarget : targetPath moveIntoDocs = lit "docs/b" := by decide +kernel
  have hfile : .file (oldPath moveIntoDocs) [lit "k0"] ∈ docs.listing.items := by
    rw [hold]
    exact List.mem_cons_of_mem _ (List.mem_singleton_self _)
  obtain ⟨after, response, hrun, hmoved⟩ := moveFile_keeps_content docs hfile (by decide +kernel)
    (by decide) (by decide) (by decide +kernel) (by decide +kernel) (by decide +kernel)
  rw [htarget, hold, if_neg (by decide +kernel)] at hmoved
  exact ⟨after, response, hrun, hmoved⟩

end PennCloud.Frontend.DriveMoves
