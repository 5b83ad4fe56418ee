import PennCloud.Frontend.FileSystem

/-!
# Moves in the file system

A move of a file or a folder on a store that shows a file system. An empty file stays where it is:
its entry reads as one chunk with an empty key, which is missing, and the handler ends the pass and
reports success. A folder is moved with all that begins with its path where nothing begins
with the path of the target.
-/

open PennCloud.Library.CppString PennCloud.Library.Programs PennCloud.Library.CellMoves
open PennCloud.KV.TabletCells PennCloud.Frontend.KVClient PennCloud.Frontend.HttpText
open PennCloud.Frontend.Storage PennCloud.Frontend.StorageIndex PennCloud.Frontend.FileEntries
open PennCloud.Frontend.IndexPaths PennCloud.Frontend.IndexSharing PennCloud.Frontend.Uploads
open PennCloud.Frontend.Listings PennCloud.Frontend.DriveMoves PennCloud.Frontend.Deletions
open PennCloud.Frontend.Downloads PennCloud.Frontend.FolderMoves

namespace PennCloud.Frontend.FileSystem

variable {user : Bytes} {store : Store} {files : List Node}

/-! ## Moving a file -/

theorem chunkCount_nil : chunkCount ([] : Bytes).length = 0 := by
  unfold chunkCount
  decide

theorem chunkCount_ne_zero {content : Bytes} (hfits : FitsInt content) (hne : content ≠ []) :
    chunkCount content.length ≠ 0 := by
  intro hzero
  apply hne
  rw [← flatten_segments hfits, hzero]
  rfl

/-- Nothing is moved but a file that is not empty. -/
theorem map_moveNode_of_empty {old : Bytes}
    (h : ∀ content, .file old content ∈ files → content = []) (target : Bytes) :
    files.map (moveNode old target) = files := by
  refine (List.map_congr_left fun node hnode ↦ ?_).trans (List.map_id files)
  cases node with
  | folder path => rfl
  | file path content =>
    refine if_neg fun hboth ↦ hboth.2 ?_
    exact h content (hboth.1 ▸ hnode)

theorem Shows.eq_file (h : Shows user store files) {old content : Bytes}
    (hfile : .file old content ∈ files) {node : Node} (hnode : node ∈ files)
    (hpath : node.path = old) : node = .file old content := h.eq_of_path hnode hfile hpath

/-- The loop at an empty file reads a chunk whose key is empty. -/
theorem Shows.run_moveFileEntry_of_empty (h : Shows user store files) {old : Bytes}
    (hfile : .file old [] ∈ files) (target : Bytes) :
    (moveFileEntry user old target ((files.map Node.item).map Item.text)).run (execute ()) store =
      (store, .error .kvNotFound) := by
  have hwell := h.proper _ hfile
  have hitem : (Node.file old []).item = .file old [] := by
    rw [Node.item, chunkCount_nil, List.range_zero, List.map_nil]
  rcases moveFileEntry_cases user old target ((files.map Node.item).map Item.text) with
    ⟨hnone, -⟩ | ⟨front, keyText, rest, htexts, hcolon, hrun⟩
  · apply absurd (filePath_append hwell.2.1 (join [] (lit "+"))) (hnone _ _)
    have hmem := List.mem_map_of_mem (f := Item.text) (List.mem_map_of_mem (f := Node.item) hfile)
    rwa [hitem] at hmem
  · have hmem : old ++ colon :: keyText ∈ (files.map Node.item).map Item.text := by
      rw [htexts]
      exact List.mem_append_right _ List.mem_cons_self
    obtain ⟨item, hitems, htext⟩ := List.mem_map.mp hmem
    obtain ⟨node, hnode, rfl⟩ := List.mem_map.mp hitems
    have hpath : node.path = old := by
      rw [← node.path_item, ← entryPath_text (h.proper node hnode).item, htext,
        entryPath_append hcolon]
    rw [h.eq_file hfile hnode hpath, hitem] at htext
    obtain rfl : [] = keyText := (List.cons.inj (List.append_cancel_left htext)).2
    have hget : (KVClient.get (fileRow user old) []).run (execute ()) store =
        (store, .error .kvNotFound) := run_get_of_none (h.unnamed old)
    rw [hrun, show split [] plus = [[]] from rfl, Prog.run_bind, Prog.forEach, Prog.run_bind,
      moveChunk, Prog.run_bind, hget]

/-- An index that is written as it was read. -/
theorem Shows.rewrite (h : Shows user store files) :
    Shows user (Function.update store (indexCell user) (some (textOf (files.map Node.item)))) files where
  proper := h.proper
  distinct := h.distinct
  index := indexOf_update_index user store _
  chunks := by
    intro node hnode
    rw [← h.chunks node hnode, chunksOf_eq_iff rfl]
    exact fun key _ ↦ update_index_file store _ _ key
  unnamed := fun path ↦ (update_index_file store _ path []).trans (h.unnamed path)

section MoveFile

variable {old targetParam : Bytes} (h : Shows user store files) (hparam : targetParam ≠ [])
  (hcolon : colon ∉ dropSlash targetParam) (hne : dropSlash targetParam ≠ [])
  (hfree : ∀ node ∈ files, ¬dropSlash targetParam <+: node.path)

include h hparam hcolon hne hfree

/-- The pass goes on to the loop. -/
theorem Shows.run_moveFilePass : (moveFilePass user old targetParam).run (execute ()) store =
    (do
      let paths ← moveFileEntry user old (dropSlash targetParam)
        (split (textOf (files.map Node.item)) comma)
      cput user (lit "storage") (textOf (files.map Node.item)) (join paths (lit ","))
      return .done (corsOk (lit "Successfully moved file")) : KVProg (Pass Response)).run
        (execute ()) store := by
  obtain ⟨b, hback⟩ := back_of_ne_nil hparam
  rw [moveFilePass, run_bind_getIndex h.index, hback, Prog.ret_bind, if_neg]
  rintro ⟨piece, hpiece, hbegins⟩
  have hpieceNe : piece ≠ [] := by
    rintro rfl
    exact hne (List.prefix_nil.mp hbegins)
  have hentry := mem_entries.mpr ⟨hpiece, hpieceNe⟩
  rw [entries_textOf h.wellFormed] at hentry
  obtain ⟨item, hitem, rfl⟩ := List.mem_map.mp hentry
  obtain ⟨node, hnode, rfl⟩ := List.mem_map.mp hitem
  apply hfree node hnode
  rw [← node.path_item]
  exact (begins_text_iff hcolon).mp hbegins

/-- Without a file at the old path the index is written back. -/
theorem Shows.run_moveFile_of_none (hnone : ∀ content, .file old content ∉ files) :
    (moveFilePass user old targetParam).run (execute ()) store =
      (Function.update store (indexCell user) (some (textOf (files.map Node.item))),
        .ok (.done (corsOk (lit "Successfully moved file")))) := by
  rw [h.run_moveFilePass hparam hcolon hne hfree]
  rcases moveFileEntry_cases user old (dropSlash targetParam)
      (split (textOf (files.map Node.item)) comma) with
    ⟨-, hrun⟩ | ⟨front, keyText, rest, hpieces, hold, -⟩
  · rw [hrun, Prog.ret_bind, join_split, Prog.run_bind, run_setIndex h.index]
    rfl
  · have hentry : old ++ colon :: keyText ∈ entries (textOf (files.map Node.item)) := by
      refine mem_entries.mpr ⟨?_, List.append_ne_nil_of_right_ne_nil _ (List.cons_ne_nil _ _)⟩
      rw [hpieces]
      exact List.mem_append_right _ List.mem_cons_self
    rw [entries_textOf h.wellFormed] at hentry
    obtain ⟨item, hitem, htext⟩ := List.mem_map.mp hentry
    obtain ⟨node, hnode, rfl⟩ := List.mem_map.mp hitem
    have hpath : node.path = old := by
      rw [← node.path_item, ← entryPath_text (h.proper node hnode).item, htext, entryPath_append hold]
    cases node with
    | folder path =>
      apply absurd _ (h.proper _ hnode).2.1
      have hcolonMem : colon ∈ (Node.folder path).item.text := by
        rw [htext]
        exact List.mem_append_right _ List.mem_cons_self
      exact hcolonMem
    | file path content =>
      obtain rfl : path = old := hpath
      exact absurd hnode (hnone content)

theorem Shows.run_moveFile_of_empty (hfile : .file old [] ∈ files) :
    (moveFilePass user old targetParam).run (execute ()) store = (store, .error .kvNotFound) := by
  have hsplit := split_textOf h.wellFormed
    (List.ne_nil_of_mem (List.mem_map_of_mem (f := Node.item) hfile))
  rw [h.run_moveFilePass hparam hcolon hne hfree, hsplit, Prog.run_bind,
    h.run_moveFileEntry_of_empty hfile]

end MoveFile

section Moved

variable (h : Shows user store files) {old target content : Bytes}
  (hfile : .file old content ∈ files) (hcontent : content ≠ [])

include h hfile hcontent

/-- A file that is not empty is moved. -/
theorem Shows.moveNode_eq {node : Node} (hnode : node ∈ files) :
    moveNode old target node = if node.path = old then node.withPath target else node := by
  split
  · next hpath =>
    rw [h.eq_file hfile hnode hpath, moveNode, if_pos ⟨rfl, hcontent⟩, Node.withPath]
  · next hpath =>
    cases node with
    | folder path => rfl
    | file path other => rw [moveNode, if_neg fun hboth ↦ hpath hboth.1]

theorem Shows.items_moveNode : (files.map (moveNode old target)).map Node.item =
    (files.map Node.item).map (replacePath old target) := by
  rw [List.map_map, List.map_map]
  apply List.map_congr_left
  intro node hnode
  simp only [Function.comp_apply, replacePath]
  rw [node.path_item, h.moveNode_eq hfile hcontent hnode]
  split
  · exact Node.item_withPath target node
  · rfl

theorem Shows.moved (hcomma : comma ∉ target) (hcolon : colon ∉ target) {listing : Listing}
    (hitems : listing.items = (files.map Node.item).map (replacePath old target))
    (hmoved : FileMoved old target h.drive (.write user listing
      (transfer store (fileMoves user old target (Node.file old content).item.keys)).1)) :
    Shows user (Drive.write user listing
      (transfer store (fileMoves user old target (Node.file old content).item.keys)).1).store
      (files.map (moveNode old target)) where
  proper := by
    intro node hnode
    obtain ⟨before, hbefore, rfl⟩ := List.mem_map.mp hnode
    have hproper := h.proper before hbefore
    rw [h.moveNode_eq hfile hcontent hbefore]
    split
    · next hpath =>
      rw [h.eq_file hfile hbefore hpath] at hproper ⊢
      exact ⟨hcomma, hcolon, hproper.2.2⟩
    · exact hproper
  distinct := by
    have hdistinct := listing.distinct
    rwa [hitems, ← h.items_moveNode hfile hcontent, List.map_map, Node.path_comp_item] at hdistinct
  index := by
    rw [h.items_moveNode hfile hcontent, ← hitems]
    exact (Drive.write user listing _).index
  chunks := by
    intro node hnode
    obtain ⟨before, hbefore, rfl⟩ := List.mem_map.mp hnode
    have hchunks := h.chunks before hbefore
    have hitem := List.mem_map_of_mem (f := Node.item) hbefore
    rw [h.moveNode_eq hfile hcontent hbefore]
    split
    · next hpath =>
      rw [Node.item_withPath, Node.chunks_withPath]
      exact (hmoved.content _ hitem (before.path_item.trans hpath)).trans hchunks
    · next hpath =>
      exact (hmoved.others _ hitem fun heq ↦ hpath (before.path_item.symm.trans heq)).trans hchunks
  unnamed := by
    intro path
    rw [Drive.store_write_file, transfer_of_ne]
    · exact h.unnamed path
    · intro m hm
      obtain ⟨key, hkey, rfl⟩ := mem_fileMoves hm
      constructor
      · rintro heq
        obtain ⟨-, rfl⟩ := Prod.mk.inj heq
        exact Node.nil_not_mem_keys _ hkey
      · rintro heq
        obtain ⟨-, rfl⟩ := Prod.mk.inj heq
        exact Node.nil_not_mem_keys _ hkey

end Moved

theorem Shows.moveFile (h : Shows user store files) {rawRequest : Bytes}
    (hallowed : DriveRequest.Allowed files (.moveFile rawRequest)) :
    ∃ after, runJob (execute ()) (handleMoveFile user rawRequest) 1 0 store =
        some (after, (respond files (.moveFile rawRequest)).2) ∧
      Shows user after (respond files (.moveFile rawRequest)).1 := by
  obtain ⟨hne, hcomma, hcolon⟩ := hallowed
  have hparam : jsonParam rawRequest (lit "target_path") ≠ [] := by
    intro hnil
    rw [targetPath, hnil] at hne
    exact hne rfl
  have hbegins : ∀ node : Node,
      targetPath rawRequest <+: node.item.text ↔ targetPath rawRequest <+: node.path := by
    intro node
    rw [begins_text_iff hcolon, node.path_item]
  rw [respond]
  by_cases hduplicate : ∃ node ∈ files, targetPath rawRequest <+: node.path
  · rw [if_pos hduplicate]
    obtain ⟨node, hnode, hpath⟩ := hduplicate
    have hrun := run_moveFilePass_of_duplicate h.drive hparam (oldPath rawRequest)
      ⟨node.item, List.mem_map_of_mem hnode, (hbegins node).mpr hpath⟩
    exact ⟨store, run_retryOrBreak_of_done hrun, h⟩
  · rw [if_neg hduplicate]
    have hfree : ∀ node ∈ files, ¬targetPath rawRequest <+: node.path :=
      fun node hnode hpath ↦ hduplicate ⟨node, hnode, hpath⟩
    by_cases hfile : ∃ content, .file (oldPath rawRequest) content ∈ files
    · obtain ⟨content, hfile⟩ := hfile
      by_cases hcontent : content = []
      · subst hcontent
        have hrun := h.run_moveFile_of_empty hparam hcolon hne hfree hfile
        refine ⟨store, run_retryOrBreak_of_notFound hrun, ?_⟩
        rw [map_moveNode_of_empty]
        · exact h
        · intro content hmem
          exact (Node.file.inj (h.eq_file hfile hmem rfl)).2
      · have hitem : .file (oldPath rawRequest) (Node.file (oldPath rawRequest) content).item.keys ∈
            h.drive.listing.items := by
          rw [← Node.item_file]
          exact List.mem_map_of_mem hfile
        have hkeys : (Node.file (oldPath rawRequest) content).item.keys ≠ [] := by
          rw [Node.keys_item_file]
          intro hnil
          exact chunkCount_ne_zero (h.proper _ hfile).2.2 hcontent
            (List.range_eq_nil.mp (List.map_eq_nil_iff.mp hnil))
        have hclear : ∀ item ∈ h.drive.listing.items, ¬targetPath rawRequest <+: item.text := by
          intro item hmem htext
          obtain ⟨node, hnode, rfl⟩ := List.mem_map.mp hmem
          exact hfree node hnode ((hbegins node).mp htext)
        obtain ⟨hall, listing, hitems, hmoved⟩ := fileMoved_transfer h.drive hitem h.complete
          (Node.keys_nodup _) hcomma hcolon hclear
        have hrun := run_moveFilePass_of_free h.drive hparam hitem hkeys hclear hall hitems
        exact ⟨_, run_retryOrBreak_of_done hrun,
          h.moved hfile hcontent hcomma hcolon hitems hmoved⟩
    · have hnone : ∀ content, .file (oldPath rawRequest) content ∉ files :=
        fun content hmem ↦ hfile ⟨content, hmem⟩
      have hrun := h.run_moveFile_of_none hparam hcolon hne hfree hnone
      refine ⟨_, run_retryOrBreak_of_done hrun, ?_⟩
      rw [map_moveNode_of_empty fun content hmem ↦ absurd hmem (hnone content)]
      exact h.rewrite

/-! ## Moving a folder -/

theorem getLast?_addSlash (path : Bytes) : (addSlash path).getLast? = some slash := by
  unfold addSlash
  split
  · next h => exact h
  · exact List.getLast?_concat

theorem item_relocateNode (old target : Bytes) (node : Node) :
    (relocateNode old target node).item = relocateItem old target node.item := by
  rw [relocateNode, Node.item_withPath, relocateItem, node.path_item]

theorem path_comp_relocateNode (old target : Bytes) :
    Node.path ∘ relocateNode old target = relocate old target ∘ Node.path :=
  funext fun node ↦ node.path_withPath _

section MoveFolder

variable {old target : Bytes} (hcolon : colon ∉ target) (hslash : target.getLast? = some slash)

include hcolon hslash

theorem Node.Proper.relocateNode {node : Node} (h : node.Proper) (hcomma : comma ∉ target) :
    (relocateNode old target node).Proper := by
  cases node with
  | folder path =>
    obtain ⟨hpathComma, hpathColon, hlast⟩ := h
    refine ⟨not_mem_relocate hcomma hpathComma, not_mem_relocate hcolon hpathColon, ?_⟩
    change (relocate old target path).getLast? = some slash
    by_cases hbegins : old <+: path
    · rw [relocate_of_begins hbegins, List.getLast?_append, List.getLast?_drop, hslash]
      split
      · rfl
      · rw [hlast]
        rfl
    · rwa [relocate_of_not_begins hbegins]
  | file path content =>
    exact ⟨not_mem_relocate hcomma h.1, not_mem_relocate hcolon h.2.1, h.2.2⟩

end MoveFolder

section Free

variable {old target : Bytes} (hfree : ∀ node ∈ files, ¬target <+: node.path)

include hfree

/-- What begins with the target is the path of no node. -/
theorem relocate_ne_path {node other : Node} (hother : other ∈ files) (hbegins : old <+: node.path) :
    other.path ≠ relocate old target node.path := by
  intro heq
  apply hfree other hother
  rw [heq, relocate_of_begins hbegins]
  exact List.prefix_append _ _

theorem vacant_of_free : Vacant old target (files.map Node.path) := by
  intro path hpath other hother hbegins _ heq
  obtain ⟨node, hnode, rfl⟩ := List.mem_map.mp hpath
  obtain ⟨later, hlater, rfl⟩ := List.mem_map.mp hother
  apply relocate_ne_path hfree hlater hbegins
  rw [relocate_of_begins hbegins, heq]

theorem movesApart_of_free (hcomma : comma ∉ target) (hcolon : colon ∉ target) :
    MovesApart old target (files.map Node.item) where
  plain := fun _ _ _ ↦ ⟨hcomma, hcolon⟩
  keys := by
    intro item hitem _
    obtain ⟨node, -, rfl⟩ := List.mem_map.mp hitem
    exact node.keys_nodup
  vacant := by
    rw [List.map_map, Node.path_comp_item]
    exact vacant_of_free hfree
  order := by
    apply List.pairwise_of_forall_mem_list
    rintro item hitem other hother ⟨hbegins, -, hpath, -⟩
    obtain ⟨node, -, rfl⟩ := List.mem_map.mp hitem
    obtain ⟨later, hlater, rfl⟩ := List.mem_map.mp hother
    rw [node.path_item] at hbegins
    rw [node.path_item, later.path_item] at hpath
    exact relocate_ne_path hfree hlater hbegins hpath
  apart := by
    rintro item hitem ⟨hbegins, -, hpath, -⟩
    obtain ⟨node, hnode, rfl⟩ := List.mem_map.mp hitem
    rw [node.path_item] at hbegins hpath
    exact relocate_ne_path hfree hnode hbegins hpath

end Free

section MoveFolder

variable (h : Shows user store files) {old targetParam : Bytes} (hold : colon ∉ old)
  (hcolon : colon ∉ addSlash targetParam)

include h hcolon

theorem Shows.run_moveFolder_of_exists (hparam : targetParam ≠ [])
    (hexists : .folder (addSlash targetParam) ∈ files) :
    (moveFolderPass user old targetParam).run (execute ()) store =
      (store, .ok (.done (corsOk (lit "Failed moved folder: folder existed!")))) := by
  obtain ⟨b, hback⟩ := back_of_ne_nil hparam
  rw [moveFolderPass, run_bind_getIndex h.index, hback, Prog.ret_bind, if_pos]
  · rfl
  · exact (h.mem_split_iff (addSlash_ne_nil _) hcolon).mpr hexists

include hold

theorem Shows.transfer_folderMoves (hcomma : comma ∉ addSlash targetParam)
    (hfree : ∀ node ∈ files, ¬addSlash targetParam <+: node.path) :
    (transfer store (folderMoves user old (addSlash targetParam) (files.map Node.item))).2 =
        true ∧
      FolderMoved user old (addSlash targetParam) (files.map Node.item) store
        (storeMoved user old (addSlash targetParam) (files.map Node.item) store) := by
  have hapart : MovesApart old (addSlash targetParam) (files.map Node.item) :=
    movesApart_of_free hfree hcomma hcolon
  have hclear := (clear_folderMoves_iff user h.drive.listing.distinct hapart.keys).mpr
    ⟨hapart.order, hapart.apart⟩
  refine ⟨transfer_all hclear.sources (sources_ne_none h.complete), ?_⟩
  exact folderMoved_of_apart hold (addSlash_ne_nil _) h.complete hapart

theorem Shows.run_moveFolder_of_free (hne : old ≠ []) (hparam : targetParam ≠ [])
    (hcomma : comma ∉ addSlash targetParam)
    (hfree : ∀ node ∈ files, ¬addSlash targetParam <+: node.path) :
    (moveFolderPass user old targetParam).run (execute ()) store =
      (storeMoved user old (addSlash targetParam) (files.map Node.item) store,
        .ok (.done (corsOk (lit "Successfully moved folder")))) := by
  obtain ⟨b, hback⟩ := back_of_ne_nil hparam
  obtain ⟨hall, -⟩ := h.transfer_folderMoves hold hcolon hcomma hfree
  obtain ⟨pieces, hjoin, hrun⟩ := run_splitEntries h.drive hold hne (addSlash targetParam)
  have hnot : .folder (addSlash targetParam) ∉ files :=
    fun hmem ↦ hfree _ hmem (List.prefix_refl _)
  have hloop : (Prog.mapEach (moveFolderEntry user old (addSlash targetParam))
      (split (textOf (files.map Node.item)) comma)).run (execute ()) store =
        ((transfer store (folderMoves user old (addSlash targetParam) (files.map Node.item))).1,
          answerOf true pieces) := by
    rw [← hall]
    exact hrun
  have hindex : indexOf user (transfer store (folderMoves user old (addSlash targetParam)
      (files.map Node.item))).1 = textOf (files.map Node.item) :=
    (indexOf_folderMoves store).trans h.index
  rw [moveFolderPass, run_bind_getIndex h.index, hback, Prog.ret_bind,
    if_neg (mt (h.mem_split_iff (addSlash_ne_nil _) hcolon).mp hnot), Prog.run_bind, hloop,
    answerOf_true, storeMoved, hall]
  dsimp only
  rw [Prog.run_bind, run_setIndex hindex, hjoin]
  rfl

theorem Shows.relocated (hcomma : comma ∉ addSlash targetParam)
    (hfree : ∀ node ∈ files, ¬addSlash targetParam <+: node.path) :
    Shows user (storeMoved user old (addSlash targetParam) (files.map Node.item) store)
      (files.map (relocateNode old (addSlash targetParam))) := by
  obtain ⟨hall, hmoved⟩ := h.transfer_folderMoves hold hcolon hcomma hfree
  constructor
  · intro node hnode
    obtain ⟨before, hbefore, rfl⟩ := List.mem_map.mp hnode
    exact (h.proper before hbefore).relocateNode hcolon (getLast?_addSlash _) hcomma
  · rw [List.map_map, path_comp_relocateNode, ← List.map_map]
    exact nodup_relocate h.distinct (vacant_of_free hfree)
  · have hitems : (files.map (relocateNode old (addSlash targetParam))).map Node.item =
        (files.map Node.item).map (relocateItem old (addSlash targetParam)) := by
      rw [List.map_map, List.map_map]
      exact List.map_congr_left fun node _ ↦ item_relocateNode old _ node
    rw [storeMoved, hall, hitems]
    exact indexOf_update_index user _ _
  · intro node hnode
    obtain ⟨before, hbefore, rfl⟩ := List.mem_map.mp hnode
    have hcontent := hmoved.content _ (List.mem_map_of_mem hbefore)
    rw [item_relocateNode, hcontent, h.chunks before hbefore, relocateNode, Node.chunks_withPath]
  · intro path
    rw [storeMoved_file, transfer_of_ne]
    · exact h.unnamed path
    · intro m hm
      obtain ⟨item, hitem, -, key, hkey, rfl⟩ := mem_folderMoves.mp hm
      obtain ⟨node, -, rfl⟩ := List.mem_map.mp hitem
      constructor
      · intro heq
        obtain ⟨-, rfl⟩ := Prod.mk.inj heq
        exact node.nil_not_mem_keys hkey
      · intro heq
        obtain ⟨-, rfl⟩ := Prod.mk.inj heq
        exact node.nil_not_mem_keys hkey

end MoveFolder

theorem Shows.moveFolder (h : Shows user store files) {rawRequest : Bytes}
    (hallowed : DriveRequest.Allowed files (.moveFolder rawRequest)) :
    ∃ after, runJob (execute ()) (handleMoveFolder user rawRequest) 1 0 store =
        some (after, (respond files (.moveFolder rawRequest)).2) ∧
      Shows user after (respond files (.moveFolder rawRequest)).1 := by
  obtain ⟨hne, hold, hparam, hcomma, hcolon, htarget⟩ := hallowed
  rw [handleMoveFolder_eq, respond]
  by_cases hexists : .folder (targetFolder rawRequest) ∈ files
  · rw [if_pos hexists]
    exact ⟨store, run_retryOrBreak_of_done (h.run_moveFolder_of_exists hcolon hparam hexists), h⟩
  · rw [if_neg hexists]
    have hfree := htarget.resolve_left hexists
    exact ⟨_, run_retryOrBreak_of_done
      (h.run_moveFolder_of_free hold hcolon hne hparam hcomma hfree),
      h.relocated hold hcolon hcomma hfree⟩

/-! ## Every request -/

/-- The step lemma: a request alone is answered by the file system. -/
theorem Shows.respond (h : Shows user store files) {request : DriveRequest}
    (hallowed : request.Allowed files) :
    ∃ after, runJob (execute ()) (request.job user) 1 0 store =
        some (after, (respond files request).2) ∧ Shows user after (respond files request).1 := by
  cases request with
  | viewFile => exact ⟨store, h.viewFile, h⟩
  | downloadFile url => exact ⟨store, h.downloadFile url, h⟩
  | uploadFile rawRequest => exact h.uploadFile hallowed
  | createFolder rawRequest => exact h.createFolder hallowed
  | moveFile rawRequest => exact h.moveFile hallowed
  | moveFolder rawRequest => exact h.moveFolder hallowed
  | deleteFile rawRequest => exact h.deleteFile hallowed
  | deleteFolder rawRequest => exact h.deleteFolder rawRequest

end PennCloud.Frontend.FileSystem
