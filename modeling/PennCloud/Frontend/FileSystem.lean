import PennCloud.Frontend.Deletions
import PennCloud.Frontend.Downloads
import PennCloud.Frontend.FolderMoves

/-!
# The drive as a file system

What the drive of a user is for: folders, and files with their contents, of pairwise distinct paths.
Every storage request but the renaming answers from these and changes them. A store shows a
file system if the index lists its nodes and the segments of all contents are where the index says;
a request that is handled alone keeps it so and gets the answer of the file system.
-/

open PennCloud.Library.CppString PennCloud.Library.Programs PennCloud.Library.CellMoves
open PennCloud.KV.TabletCells PennCloud.Frontend.KVClient PennCloud.Frontend.HttpText
open PennCloud.Frontend.Storage PennCloud.Frontend.StorageIndex PennCloud.Frontend.FileEntries
open PennCloud.Frontend.IndexPaths PennCloud.Frontend.IndexSharing PennCloud.Frontend.Uploads
open PennCloud.Frontend.Listings PennCloud.Frontend.DriveMoves PennCloud.Frontend.Deletions
open PennCloud.Frontend.Downloads PennCloud.Frontend.FolderMoves

namespace PennCloud.Frontend.FileSystem

inductive Node
  | folder (path : Bytes)
  | file (path content : Bytes)
  deriving DecidableEq

namespace Node

def path : Node → Bytes
  | folder path => path
  | file path _ => path

def withPath (path : Bytes) : Node → Node
  | folder _ => folder path
  | file _ content => file path content

/-- Nothing in the path is taken for a separator, a folder is known by its slash, and the size of a
content fits into an `int`. -/
def Proper : Node → Prop
  | folder path => comma ∉ path ∧ colon ∉ path ∧ path.getLast? = some slash
  | file path content => comma ∉ path ∧ colon ∉ path ∧ FitsInt content

/-- The item that stands for the node in the index. -/
def item : Node → Item
  | folder path => .folder path
  | file path content => .file path ((List.range (chunkCount content.length)).map chunkKey)

/-- What the chunks of the item have to be. -/
def chunks : Node → List (Option Bytes)
  | folder _ => []
  | file _ content => (List.range (chunkCount content.length)).map fun n ↦ some (segmentOf content n)

end Node

/-! ## Requests -/

inductive DriveRequest
  | viewFile
  | downloadFile (url : Bytes)
  | uploadFile (rawRequest : Bytes)
  | createFolder (rawRequest : Bytes)
  | moveFile (rawRequest : Bytes)
  | moveFolder (rawRequest : Bytes)
  | deleteFile (rawRequest : Bytes)
  | deleteFolder (rawRequest : Bytes)

def DriveRequest.job (user : Bytes) : DriveRequest → KVJob Response
  | viewFile => handleViewFile user
  | downloadFile url => handleDownloadFile user url
  | uploadFile rawRequest => handleUploadFile user rawRequest
  | createFolder rawRequest => handleCreateFolder user rawRequest
  | moveFile rawRequest => handleMoveFile user rawRequest
  | moveFolder rawRequest => handleMoveFolder user rawRequest
  | deleteFile rawRequest => handleDeleteFile user rawRequest
  | deleteFolder rawRequest => handleDeleteFolder user rawRequest

/-- The content of the file with this path; nothing if there is none. -/
def contentAt (files : List Node) (path : Bytes) : Bytes :=
  match files.find? (·.path = path) with
  | some (.file _ content) => content
  | _ => []

/-- The file at the old path gets the new one, unless it is empty. -/
def moveNode (old target : Bytes) : Node → Node
  | .folder path => .folder path
  | .file path content =>
    if path = old ∧ content ≠ [] then .file target content else .file path content

/-- The nodes of the folder are under the target. -/
def relocateNode (old target : Bytes) (node : Node) : Node :=
  node.withPath (relocate old target node.path)

/-- The file system after a request, and its answer. To delete a file takes all that begins with
its path, and to delete a folder takes nothing. -/
def respond (files : List Node) : DriveRequest → List Node × Except Thrown Response
  | .viewFile => (files, .ok (corsOk (join (files.map Node.path) (lit ","))))
  | .downloadFile url =>
    (files, match downloadPath url with
      | .ok path => .ok (corsOk (contentAt files path))
      | .error e => .error (.std e))
  | .uploadFile rawRequest =>
    (files ++ [.file (lit "untitled") (parseBody rawRequest).2],
      .ok (corsOk (lit "Successfully uploaded file")))
  | .createFolder rawRequest =>
    if .folder (newFolder rawRequest) ∈ files then
      (files, .ok (corsOk (lit "Folder existed")))
    else
      (files ++ [.folder (newFolder rawRequest)], .ok (corsOk (lit "Folder created")))
  | .moveFile rawRequest =>
    if ∃ node ∈ files, targetPath rawRequest <+: node.path then
      (files, .ok (corsOk (lit "Failed to move file: file already exists!")))
    else
      (files.map (moveNode (oldPath rawRequest) (targetPath rawRequest)),
        .ok (corsOk (lit "Successfully moved file")))
  | .moveFolder rawRequest =>
    if .folder (targetFolder rawRequest) ∈ files then
      (files, .ok (corsOk (lit "Failed moved folder: folder existed!")))
    else
      (files.map (relocateNode (oldPath rawRequest) (targetFolder rawRequest)),
        .ok (corsOk (lit "Successfully moved folder")))
  | .deleteFile rawRequest =>
    (files.filter fun node ↦ ¬(parseBody rawRequest).2 <+: node.path,
      .ok (corsOk (lit "File deleted")))
  | .deleteFolder _ => (files, .ok (corsOk (lit "Successfully deleted folder")))

/-- The paths in the request are without separators, an upload fits into an `int`, and no path that
is new is taken, as far as the handler does not see to it. -/
def DriveRequest.Allowed (files : List Node) : DriveRequest → Prop
  | viewFile => True
  | downloadFile _ => True
  | uploadFile rawRequest =>
    FitsInt (parseBody rawRequest).2 ∧ ∀ node ∈ files, node.path ≠ lit "untitled"
  | createFolder rawRequest =>
    comma ∉ newFolder rawRequest ∧ colon ∉ newFolder rawRequest ∧
      ∀ node ∈ files, node.path = newFolder rawRequest → node = .folder (newFolder rawRequest)
  | moveFile rawRequest =>
    targetPath rawRequest ≠ [] ∧ comma ∉ targetPath rawRequest ∧ colon ∉ targetPath rawRequest
  | moveFolder rawRequest =>
    oldPath rawRequest ≠ [] ∧ colon ∉ oldPath rawRequest ∧
      jsonParam rawRequest (lit "target_path") ≠ [] ∧ comma ∉ targetFolder rawRequest ∧
      colon ∉ targetFolder rawRequest ∧ (.folder (targetFolder rawRequest) ∈ files ∨
        ∀ node ∈ files, ¬targetFolder rawRequest <+: node.path)
  | deleteFile rawRequest => colon ∉ (parseBody rawRequest).2
  | deleteFolder _ => True

instance (files : List Node) : DecidablePred (DriveRequest.Allowed files)
  | .viewFile => inferInstanceAs (Decidable True)
  | .downloadFile _ => inferInstanceAs (Decidable True)
  | .uploadFile _ => inferInstanceAs (Decidable (_ + _ ≤ _ ∧ _))
  | .createFolder _ => inferInstanceAs (Decidable (_ ∧ _))
  | .moveFile _ => inferInstanceAs (Decidable (_ ∧ _))
  | .moveFolder _ => inferInstanceAs (Decidable (_ ∧ _))
  | .deleteFile _ => inferInstanceAs (Decidable (_ ∉ _))
  | .deleteFolder _ => inferInstanceAs (Decidable True)

/-- The store holds the file system of the user. -/
structure Shows (user : Bytes) (store : Store) (files : List Node) : Prop where
  proper : ∀ node ∈ files, node.Proper
  distinct : (files.map Node.path).Nodup
  index : indexOf user store = textOf (files.map Node.item)
  chunks : ∀ node ∈ files, chunksOf store user node.item = node.chunks
  unnamed : ∀ path, store (fileRow user path, []) = none

variable {user : Bytes} {store after : Store} {files : List Node}

/-! ## Nodes and items -/

namespace Node

@[simp]
theorem path_item (node : Node) : node.item.path = node.path := by
  cases node with
  | folder path => rfl
  | file path content => rfl

theorem path_comp_item : Item.path ∘ Node.item = Node.path := funext path_item

@[simp]
theorem path_withPath (path : Bytes) (node : Node) : (node.withPath path).path = path := by
  cases node with
  | folder _ => rfl
  | file _ content => rfl

theorem item_withPath (path : Bytes) (node : Node) :
    (node.withPath path).item = node.item.withPath path := by
  cases node with
  | folder _ => rfl
  | file _ content => simp only [withPath, item, Item.withPath]

theorem chunks_withPath (path : Bytes) (node : Node) :
    (node.withPath path).chunks = node.chunks := by
  cases node with
  | folder _ => rfl
  | file _ content => simp only [withPath, chunks]

theorem keys_item_file (path content : Bytes) : (file path content).item.keys =
    (List.range (chunkCount content.length)).map chunkKey := by
  rw [item, Item.keys]

theorem item_file (path content : Bytes) :
    (file path content).item = .file path (file path content).item.keys := by
  rw [keys_item_file, item]

theorem keys_nodup (node : Node) : node.item.keys.Nodup := by
  cases node with
  | folder _ => exact List.nodup_nil
  | file path content =>
    rw [keys_item_file]
    exact List.nodup_range.map fun _ _ ↦ chunkKey_injective

theorem nil_not_mem_keys (node : Node) : [] ∉ node.item.keys := by
  cases node with
  | folder _ => exact List.not_mem_nil
  | file path content =>
    rw [keys_item_file]
    intro hmem
    obtain ⟨n, -, hkey⟩ := List.mem_map.mp hmem
    exact chunkKey_ne_nil n hkey

theorem none_not_mem_chunks (node : Node) : none ∉ node.chunks := by
  cases node with
  | folder _ => exact List.not_mem_nil
  | file _ content =>
    intro hmem
    obtain ⟨n, -, hchunk⟩ := List.mem_map.mp hmem
    cases hchunk

theorem Proper.item {node : Node} (h : node.Proper) : node.item.WellFormed := by
  cases node with
  | folder path => exact h
  | file path content =>
    refine ⟨h.1, h.2.1, fun key hkey ↦ ?_⟩
    obtain ⟨n, -, rfl⟩ := List.mem_map.mp hkey
    exact ⟨chunkKey_ne_nil n, not_mem_chunkKey (by decide) (by decide) n,
      not_mem_chunkKey (by decide) (by decide) n⟩

/-- A text without a colon is the entry of a folder only. -/
theorem text_item_eq_iff {text : Bytes} (h : colon ∉ text) {node : Node} :
    node.item.text = text ↔ node = .folder text := by
  cases node with
  | folder path =>
    constructor
    · rintro rfl
      rfl
    · intro heq
      exact Node.folder.inj heq
  | file path content =>
    constructor
    · rintro rfl
      exact absurd (List.mem_append_right path List.mem_cons_self) h
    · intro heq
      cases heq

end Node

/-! ## Stores that show a file system -/

theorem Shows.wellFormed (h : Shows user store files) :
    ∀ item ∈ files.map Node.item, item.WellFormed := by
  intro item hitem
  obtain ⟨node, hnode, rfl⟩ := List.mem_map.mp hitem
  exact (h.proper node hnode).item

/-- The drive of the user. -/
def Shows.drive (h : Shows user store files) : Drive user where
  listing :=
    { items := files.map Node.item
      wellFormed := h.wellFormed
      distinct := by
        rw [List.map_map, Node.path_comp_item]
        exact h.distinct }
  store := store
  index := h.index

theorem Shows.complete (h : Shows user store files) :
    Complete h.drive.store user h.drive.listing.items := by
  intro item hitem
  obtain ⟨node, hnode, rfl⟩ := List.mem_map.mp hitem
  have hchunks : chunksOf h.drive.store user node.item = node.chunks := h.chunks node hnode
  rw [hchunks]
  exact node.none_not_mem_chunks

/-- Nodes are told apart by their paths. -/
theorem Shows.eq_of_path (h : Shows user store files) {node other : Node} (hnode : node ∈ files)
    (hother : other ∈ files) (hpath : node.path = other.path) : node = other :=
  List.inj_on_of_nodup_map h.distinct hnode hother hpath

/-- Only the user's own rows matter. -/
theorem Shows.congr (h : Shows user store files)
    (hsame : ∀ cell, cell.1 = user ∨ (∃ path, cell.1 = fileRow user path) →
      after cell = store cell) : Shows user after files where
  proper := h.proper
  distinct := h.distinct
  index := by
    rw [← h.index, indexOf, indexOf, hsame _ (.inl rfl)]
  chunks := by
    intro node hnode
    rw [← h.chunks node hnode, chunksOf_eq_iff rfl]
    exact fun key _ ↦ hsame _ (.inr ⟨node.item.path, rfl⟩)
  unnamed := by
    intro path
    rw [hsame _ (.inr ⟨path, rfl⟩)]
    exact h.unnamed path

/-! ## Reading -/

theorem run_readIndex (user : Bytes) (store : Store) :
    (catchKVError (KVClient.get user (lit "storage")) (.ret [])).run (execute ()) store =
      (store, .ok (indexOf user store)) := by
  rw [catchKVError, Prog.run_handle, indexOf, indexCell]
  cases hcell : store (user, lit "storage") with
  | none =>
    rw [run_get_of_none hcell]
    rfl
  | some index =>
    rw [run_get_of_some hcell]
    rfl

theorem Shows.viewFile (h : Shows user store files) :
    runJob (execute ()) (handleViewFile user) 1 0 store =
      some (store, .ok (corsOk (join (files.map Node.path) (lit ",")))) := by
  have hpaths : join ((split (textOf (files.map Node.item)) comma).map entryPath) (lit ",") =
      join (files.map Node.path) (lit ",") := by
    by_cases hnil : files = []
    · rw [hnil]
      rfl
    · rw [split_textOf h.wellFormed (by simpa using hnil), List.map_map, List.map_map]
      congr 1
      apply List.map_congr_left
      intro node hnode
      simp only [Function.comp_apply]
      rw [entryPath_text (h.proper node hnode).item, node.path_item]
  rw [handleViewFile, runJob_once, Prog.run_bind, run_readIndex, h.index]
  dsimp only
  rw [hpaths]
  rfl

/-- The keys in the entries of other paths. -/
theorem keysOf_texts_of_ne {nodes : List Node} (hproper : ∀ node ∈ nodes, node.Proper)
    {path : Bytes} (h : ∀ node ∈ nodes, node.path ≠ path) :
    keysOf (nodes.map fun node ↦ node.item.text) path = [] := by
  apply keysOf_of_not
  intro text htext heq
  obtain ⟨node, hnode, rfl⟩ := List.mem_map.mp htext
  obtain ⟨keys, hentry, hcolon⟩ := filePath_eq_some_iff.mp heq
  apply h node hnode
  rw [← node.path_item, ← entryPath_text (hproper node hnode).item, hentry, entryPath_append hcolon]

theorem keysOf_folder {path : Bytes} (h : colon ∉ path) : keysOf [path] path = [] := by
  apply keysOf_of_not
  intro text htext
  rw [List.mem_singleton.mp htext, filePath_of_not_mem h]
  exact (Option.some_ne_none path).symm

/-- An empty list of keys is read as one empty key. -/
theorem keysOf_file {path : Bytes} (h : colon ∉ path) (content : Bytes) :
    keysOf [(Node.file path content).item.text] path =
      if chunkCount content.length = 0 then [[]]
      else (List.range (chunkCount content.length)).map chunkKey := by
  have hcut := cutEntry_append h
    (join ((List.range (chunkCount content.length)).map chunkKey) (lit "+"))
  rw [keysOf, List.flatMap_singleton, Node.item, Item.text, hcut]
  dsimp only
  rw [if_pos rfl]
  split
  · next hzero =>
    rw [hzero]
    rfl
  · next hzero => exact split_chunkKeys fun hnil ↦ hzero (List.range_eq_nil.mp hnil)

/-- The segments make up the content. -/
theorem Shows.contentOf_file (h : Shows user store files) {path content : Bytes}
    (hfile : .file path content ∈ files) :
    contentOf store (fileRow user path) (keysOf [(Node.file path content).item.text] path) =
      content := by
  obtain ⟨-, hcolon, hfits⟩ := h.proper _ hfile
  have hflat := flatten_segments hfits
  rw [keysOf_file hcolon]
  split
  · next hzero =>
    rw [contentOf, h.unnamed, ← hflat, hzero]
    rfl
  · have hchunks := h.chunks _ hfile
    rw [chunksOf, Node.keys_item_file, List.map_map, Node.path_item, Node.path, Node.chunks] at hchunks
    rw [contentOf_of_some (List.map_inj_left.mp hchunks)]
    exact hflat

/-- A download reads the content of the file. -/
theorem Shows.downloadOf (h : Shows user store files) (path : Bytes) :
    downloadOf store user path = contentAt files path := by
  rw [Downloads.downloadOf, h.index, entries_textOf h.wellFormed, List.map_map]
  unfold contentAt
  cases hfind : files.find? (·.path = path) with
  | none =>
    have hne : ∀ node ∈ files, node.path ≠ path := by
      intro node hnode
      simpa using List.find?_eq_none.mp hfind node hnode
    have hkeys : keysOf (files.map (Item.text ∘ Node.item)) path = [] :=
      keysOf_texts_of_ne h.proper hne
    rw [hkeys]
    rfl
  | some node =>
    obtain ⟨hpath, front, back, rfl, hfront⟩ := List.find?_eq_some_iff_append.mp hfind
    obtain rfl : node.path = path := of_decide_eq_true hpath
    have hnode : node ∈ front ++ node :: back := List.mem_append_right _ List.mem_cons_self
    have hothers : ∀ other ∈ front ++ back, other.path ≠ node.path := by
      have hdistinct := h.distinct
      rw [List.map_append, List.map_cons, List.nodup_middle, List.nodup_cons,
        ← List.map_append] at hdistinct
      exact fun other hother heq ↦ hdistinct.1 (heq ▸ List.mem_map_of_mem hother)
    have hsides : ∀ nodes : List Node, (∀ other ∈ nodes, other ∈ front ++ back) →
        keysOf (nodes.map (Item.text ∘ Node.item)) node.path = [] := by
      intro nodes hnodes
      apply keysOf_texts_of_ne
      · intro other hother
        apply h.proper
        rcases List.mem_append.mp (hnodes other hother) with hmem | hmem
        · exact List.mem_append_left _ hmem
        · exact List.mem_append_right _ (List.mem_cons_of_mem _ hmem)
      · exact fun other hother ↦ hothers other (hnodes other hother)
    rw [List.map_append, List.map_cons, keysOf_append, ← List.singleton_append, keysOf_append,
      hsides front fun _ ↦ List.mem_append_left _, hsides back fun _ ↦ List.mem_append_right _,
      List.append_nil, List.nil_append]
    cases node with
    | folder path => exact congrArg (contentOf store _) (keysOf_folder (h.proper _ hnode).2.1)
    | file path content => exact h.contentOf_file hnode

theorem Shows.downloadFile (h : Shows user store files) (url : Bytes) :
    runJob (execute ()) (handleDownloadFile user url) 1 0 store =
      some (store, (respond files (.downloadFile url)).2) := by
  rw [run_handleDownloadFile, respond]
  cases downloadPath url with
  | error e => rfl
  | ok path =>
    dsimp only
    rw [h.downloadOf]

/-! ## Creating -/

theorem update_index_file (store : Store) (index : Option Bytes) (path key : Bytes) :
    Function.update store (indexCell user) index (fileRow user path, key) =
      store (fileRow user path, key) :=
  Function.update_of_ne (fun heq ↦ fileRow_ne_user user path (Prod.mk.inj heq).1) _ _

theorem appendEntry_textOf {items : List Item} (h : ∀ item ∈ items, item.WellFormed)
    (item : Item) : appendEntry (textOf items) item.text = textOf (items ++ [item]) := by
  induction items using List.reverseRecOn with
  | nil =>
    rw [appendEntry, textOf, textOf, List.map_nil, List.nil_append, List.map_singleton, join, join,
      List.intercalate_nil, if_pos rfl, List.intercalate_singleton]
  | append_singleton front last _ =>
    have hlast := (h last (List.mem_append_right _ (List.mem_singleton_self last))).text_ne_nil
    have hne : textOf (front ++ [last]) ≠ [] := by
      rw [textOf, List.map_append, List.map_singleton, join_concat]
      exact List.append_ne_nil_of_right_ne_nil _ hlast
    rw [appendEntry, if_neg hne, textOf, textOf, List.map_append, List.map_append,
      List.map_append, List.map_singleton, List.map_singleton, join_concat, join_concat,
      List.map_append, List.flatten_append, List.map_singleton, List.flatten_singleton,
      List.append_assoc _ last.text]

/-- One more node, whose chunks are there, and nothing else but the index has changed. -/
theorem Shows.append (h : Shows user store files) {node : Node} (hproper : node.Proper)
    (hnew : ∀ other ∈ files, other.path ≠ node.path)
    (hindex : indexOf user after = appendEntry (indexOf user store) node.item.text)
    (hchunks : chunksOf after user node.item = node.chunks)
    (hkept : ∀ path, path ≠ node.path → ∀ key,
      after (fileRow user path, key) = store (fileRow user path, key))
    (hunnamed : ∀ path, after (fileRow user path, []) = none) :
    Shows user after (files ++ [node]) where
  proper := by
    rw [List.forall_mem_append, List.forall_mem_singleton]
    exact ⟨h.proper, hproper⟩
  distinct := by
    rw [List.map_append, List.map_singleton, ← List.concat_eq_append, List.nodup_concat]
    refine ⟨fun hmem ↦ ?_, h.distinct⟩
    obtain ⟨other, hother, hpath⟩ := List.mem_map.mp hmem
    exact hnew other hother hpath
  index := by
    rw [hindex, h.index, appendEntry_textOf h.wellFormed, List.map_append, List.map_singleton]
  chunks := by
    rw [List.forall_mem_append, List.forall_mem_singleton]
    refine ⟨fun other hother ↦ ?_, hchunks⟩
    rw [← h.chunks other hother, chunksOf_eq_iff rfl]
    exact fun key _ ↦ hkept _ (other.path_item ▸ hnew other hother) key
  unnamed := hunnamed

/-- A text without a colon that is an entry is that of a folder. -/
theorem mem_texts_iff {text : Bytes} (h : colon ∉ text) :
    text ∈ (files.map Node.item).map Item.text ↔ .folder text ∈ files := by
  rw [List.map_map, List.mem_map]
  constructor
  · rintro ⟨node, hnode, htext⟩
    rwa [(Node.text_item_eq_iff h).mp htext] at hnode
  · exact fun hmem ↦ ⟨_, hmem, rfl⟩

theorem Shows.mem_split_iff (h : Shows user store files) {text : Bytes} (hne : text ≠ [])
    (hcolon : colon ∉ text) :
    text ∈ split (textOf (files.map Node.item)) comma ↔ .folder text ∈ files := by
  rw [← mem_texts_iff hcolon, ← entries_textOf h.wellFormed, mem_entries]
  exact (and_iff_left hne).symm

theorem Shows.uploadFile (h : Shows user store files) {rawRequest : Bytes}
    (hallowed : DriveRequest.Allowed files (.uploadFile rawRequest)) :
    ∃ after, runJob (execute ()) (handleUploadFile user rawRequest) 1 0 store =
        some (after, (respond files (.uploadFile rawRequest)).2) ∧
      Shows user after (respond files (.uploadFile rawRequest)).1 := by
  obtain ⟨hfits, hfree⟩ := hallowed
  have hnot : lit "untitled" ∉ split (indexOf user store) comma := by
    rw [h.index, h.mem_split_iff (by decide) (by decide)]
    exact fun hmem ↦ hfree _ hmem rfl
  refine ⟨_, run_handleUploadFile hfits hnot, h.append ⟨by decide, by decide, hfits⟩ hfree ?_ ?_ ?_ ?_⟩
  · rw [indexOf_storeUpload, uploadEntry_eq]
    rfl
  · rw [chunksOf, Node.keys_item_file, Node.chunks, List.map_map]
    apply List.map_congr_left
    intro n hn
    exact storeUpload_segment user store (List.mem_range.mp hn)
  · intro path hpath key
    apply storeUpload_of_ne
    · exact fun heq ↦ fileRow_ne_user user path (Prod.mk.inj heq).1
    · exact fun n _ heq ↦ hpath (fileRow_injective user (Prod.mk.inj heq).1)
  · intro path
    rw [storeUpload_of_ne]
    · exact h.unnamed path
    · exact fun heq ↦ fileRow_ne_user user path (Prod.mk.inj heq).1
    · exact fun n _ heq ↦ chunkKey_ne_nil n (Prod.mk.inj heq).2.symm

theorem newFolder_ne_nil (rawRequest : Bytes) : newFolder rawRequest ≠ [] :=
  List.append_ne_nil_of_right_ne_nil _ (by decide)

theorem Shows.createFolder (h : Shows user store files) {rawRequest : Bytes}
    (hallowed : DriveRequest.Allowed files (.createFolder rawRequest)) :
    ∃ after, runJob (execute ()) (handleCreateFolder user rawRequest) 1 0 store =
        some (after, (respond files (.createFolder rawRequest)).2) ∧
      Shows user after (respond files (.createFolder rawRequest)).1 := by
  obtain ⟨hcomma, hcolon, hfree⟩ := hallowed
  have hexists : newFolder rawRequest ∈
      (getlines (textOf (files.map Node.item)) comma).filter (· ≠ []) ↔
        .folder (newFolder rawRequest) ∈ files := by
    rw [getlines_textOf h.wellFormed, List.mem_filter, mem_texts_iff hcolon]
    exact and_iff_left (decide_eq_true (newFolder_ne_nil rawRequest))
  rw [runJob, handleCreateFolder, retry, catchKVNoMatch, Prog.run_handle, createFolderPass,
    run_bind_getIndex h.index, respond]
  by_cases hfolder : .folder (newFolder rawRequest) ∈ files
  · rw [if_pos (hexists.mpr hfolder), if_pos hfolder]
    exact ⟨store, rfl, h⟩
  · rw [if_neg (mt hexists.mp hfolder), if_neg hfolder, Prog.run_bind, run_setIndex h.index]
    refine ⟨_, rfl, h.append ⟨hcomma, hcolon, List.getLast?_concat⟩ ?_ ?_ rfl ?_ ?_⟩
    · intro other hother hpath
      exact hfolder (hfree other hother hpath ▸ hother)
    · rw [h.index]
      exact indexOf_update_index user store _
    · exact fun path _ key ↦ update_index_file store _ path key
    · exact fun path ↦ (update_index_file store _ path []).trans (h.unnamed path)

/-! ## Deleting -/

theorem erase_of_none {cells : List (Bytes × Bytes)} {cell : Bytes × Bytes}
    (h : store cell = none) : erase store cells cell = none := by
  by_cases hmem : cell ∈ cells
  · exact erase_of_mem hmem store
  · rw [erase_of_not_mem hmem, h]

theorem Shows.deleteFile (h : Shows user store files) {rawRequest : Bytes}
    (hallowed : DriveRequest.Allowed files (.deleteFile rawRequest)) :
    ∃ after, runJob (execute ()) (handleDeleteFile user rawRequest) 1 0 store =
        some (after, (respond files (.deleteFile rawRequest)).2) ∧
      Shows user after (respond files (.deleteFile rawRequest)).1 := by
  have hcolon : colon ∉ (parseBody rawRequest).2 := hallowed
  have hbegins : ∀ node : Node,
      (parseBody rawRequest).2 <+: node.item.text ↔ (parseBody rawRequest).2 <+: node.path := by
    intro node
    rw [begins_text_iff hcolon, node.path_item]
  have hrun : runJob (execute ()) (handleDeleteFile user rawRequest) 1 0 h.drive.store =
      some (storeDeleted h.drive (parseBody rawRequest).2, .ok (corsOk (lit "File deleted"))) := by
    rw [runJob, handleDeleteFile, if_pos (by decide), catchKVError, Prog.run_handle, catchKVNoMatch,
      Prog.run_handle, run_deleteFilePass]
  have hkept : (files.filter fun node ↦ ¬(parseBody rawRequest).2 <+: node.path).map Node.item =
      (files.map Node.item).filter fun item ↦ ¬(parseBody rawRequest).2 <+: item.text := by
    rw [List.filter_map]
    congr 1
    apply List.filter_congr
    intro node _
    rw [Function.comp_apply, decide_eq_decide, hbegins]
  refine ⟨_, hrun, ?_⟩
  constructor
  · exact fun node hnode ↦ h.proper node (List.mem_of_mem_filter hnode)
  · exact h.distinct.sublist (List.filter_sublist.map _)
  · rw [respond, hkept]
    by_cases hany : ∃ item ∈ h.drive.listing.items, (parseBody rawRequest).2 <+: item.text
    · exact indexOf_storeDeleted hany
    · rw [storeDeleted, if_neg hany, List.filter_eq_self.mpr]
      · exact h.index
      · exact fun item hitem ↦ decide_eq_true fun htext ↦ hany ⟨item, hitem, htext⟩
  · intro node hnode
    obtain ⟨hmem, hnot⟩ := List.mem_filter.mp hnode
    rw [← h.chunks node hmem, chunksOf_eq_iff rfl]
    intro key _
    rw [storeDeleted_file, erase_of_not_mem]
    · rfl
    · intro herased
      obtain ⟨item, hitem, hcell⟩ := List.mem_flatMap.mp herased
      obtain ⟨other, hother, rfl⟩ := List.mem_map.mp hitem
      obtain ⟨htext, hrow⟩ := mem_erasedCells hcell
      have hpath := fileRow_injective user hrow
      rw [node.path_item, other.path_item] at hpath
      obtain rfl := h.eq_of_path hmem hother hpath
      exact of_decide_eq_true hnot ((hbegins node).mp htext)
  · intro path
    rw [storeDeleted_file]
    exact erase_of_none (h.unnamed path)

theorem Shows.deleteFolder (h : Shows user store files) (rawRequest : Bytes) :
    ∃ after, runJob (execute ()) (handleDeleteFolder user rawRequest) 1 0 store =
        some (after, (respond files (.deleteFolder rawRequest)).2) ∧
      Shows user after (respond files (.deleteFolder rawRequest)).1 := by
  refine ⟨_, run_handleDeleteFolder h.drive rawRequest, h.proper, h.distinct, ?_, ?_, ?_⟩
  · exact (Drive.write user h.drive.listing _).index
  · intro node hnode
    rw [← h.chunks node hnode, chunksOf_eq_iff rfl]
    intro key _
    rw [Drive.store_write_file]
    exact strayErased_file h.drive _ (List.mem_map_of_mem hnode) key
  · intro path
    rw [Drive.store_write_file]
    exact erase_of_none (h.unnamed path)

end PennCloud.Frontend.FileSystem
