import PennCloud.KV.NamedColumns
import PennCloud.Frontend.IndexPaths
import PennCloud.Frontend.Uploads

/-!
# A download after an upload

The handler reads the keys of all entries of its path and appends what the cells hold up to the first
one that is missing. An upload under a path that no entry has adds one entry, whose keys are the columns
of the segments. An empty body leaves an entry with an empty list of keys, which is read
as one empty key; no server stores a cell with an empty column, so that the content is empty too.
-/

open PennCloud.Library.CppString PennCloud.Library.Programs PennCloud.KV.TabletCells
open PennCloud.KV.NamedColumns PennCloud.Frontend.KVClient PennCloud.Frontend.HttpText
open PennCloud.Frontend.Storage PennCloud.Frontend.StorageIndex PennCloud.Frontend.FileEntries
open PennCloud.Frontend.IndexPaths PennCloud.Frontend.Uploads

namespace PennCloud.Frontend.Downloads

/-! ## Reading the chunks -/

/-- The values under these columns of a row, up to the first that is missing. -/
def contentOf (store : Store) (row : Bytes) : List Bytes → Bytes
  | [] => []
  | key :: keys =>
    match store (row, key) with
    | some value => value ++ contentOf store row keys
    | none => []

theorem contentOf_congr {store store' : Store} {row : Bytes} {keys : List Bytes}
    (h : ∀ key ∈ keys, store (row, key) = store' (row, key)) :
    contentOf store row keys = contentOf store' row keys := by
  induction keys with
  | nil => rfl
  | cons key keys ih =>
    rw [List.forall_mem_cons] at h
    rw [contentOf, contentOf, h.1, ih h.2]

theorem contentOf_of_some {store : Store} {row : Bytes} {ξ : Type} {key value : ξ → Bytes}
    {xs : List ξ} (h : ∀ x ∈ xs, store (row, key x) = some (value x)) :
    contentOf store row (xs.map key) = (xs.map value).flatten := by
  induction xs with
  | nil => rfl
  | cons x xs ih =>
    rw [List.forall_mem_cons] at h
    rw [List.map_cons, contentOf, h.1, List.map_cons, List.flatten_cons, ih h.2]

theorem run_readChunks (store : Store) (row content : Bytes) (keys : List Bytes) :
    (readChunks row content keys).run (execute ()) store =
      (store, .ok (content ++ contentOf store row keys)) := by
  induction keys generalizing content with
  | nil => rw [contentOf, List.append_nil]; rfl
  | cons key keys ih =>
    rw [readChunks, catchKVError, Prog.run_handle, Prog.run_bind, contentOf]
    cases hcell : store (row, key) with
    | some value =>
      rw [run_get_of_some hcell]
      dsimp only
      rw [ih, List.append_assoc]
    | none =>
      rw [run_get_of_none hcell, List.append_nil]
      rfl

/-- What a download of this path returns. -/
def downloadOf (store : Store) (user path : Bytes) : Bytes :=
  contentOf store (fileRow user path) (keysOf (entries (indexOf user store)) path)

/-- Empty pieces of the index have no keys. -/
theorem keysOf_split (index path : Bytes) :
    keysOf (split index comma) path = keysOf (entries index) path := by
  unfold entries
  induction split index comma with
  | nil => rfl
  | cons piece pieces ih =>
    by_cases hempty : piece = []
    · subst hempty
      rw [List.filter_cons_of_neg (by simp), ← ih]
      rfl
    · rw [List.filter_cons_of_pos (by simpa using hempty)]
      exact congrArg (_ ++ ·) ih

theorem run_handleDownloadFile (store : Store) (user url : Bytes) :
    runJob (execute ()) (handleDownloadFile user url) 1 0 store =
      match downloadPath url with
      | .ok path => some (store, .ok (corsOk (downloadOf store user path)))
      | .error e => some (store, .error (.std e)) := by
  have hindex : (catchKVError (KVClient.get user (lit "storage")) (.ret [])).run (execute ()) store =
      (store, .ok (indexOf user store)) := by
    rw [catchKVError, Prog.run_handle, indexOf, indexCell]
    cases hcell : store (user, lit "storage") with
    | none =>
      rw [run_get_of_none hcell]
      rfl
    | some index =>
      rw [run_get_of_some hcell]
      rfl
  unfold handleDownloadFile
  rw [runJob_once, Prog.run_bind, hindex]
  dsimp only
  cases downloadPath url with
  | error e => rfl
  | ok path =>
    have hpath : ofStd (.ok path) = (.ret path : KVProg Bytes) := rfl
    rw [hpath, Prog.ret_bind, Prog.run_bind, run_readChunks, keysOf_split]
    rfl

/-! ## The keys of the new entry -/

theorem keysOf_append (files more : List Bytes) (path : Bytes) :
    keysOf (files ++ more) path = keysOf files path ++ keysOf more path := List.flatMap_append

theorem keysOf_of_not {files : List Bytes} {path : Bytes}
    (h : ∀ file ∈ files, filePath file ≠ some path) : keysOf files path = [] := by
  rw [keysOf, List.flatMap_eq_nil_iff]
  intro file hfile
  have hpath := h file hfile
  unfold filePath at hpath
  cases hcut : cutEntry file with
  | none => rfl
  | some entry =>
    rw [hcut] at hpath
    exact if_neg fun heq ↦ hpath (congrArg some heq)

/-- The keys that a download reads in the new entry. -/
theorem keysOf_uploadEntry (body : Bytes) : keysOf [uploadEntry body] (lit "untitled") =
    if chunkCount body.length = 0 then [[]]
    else (List.range (chunkCount body.length)).map chunkKey := by
  have hcolon : colon ∉ lit "untitled" := by decide
  have hcut := cutEntry_append hcolon
    (join ((List.range (chunkCount body.length)).map chunkKey) (lit "+"))
  rw [keysOf, List.flatMap_singleton, uploadEntry_eq, hcut]
  dsimp only
  rw [if_pos rfl]
  split
  · next hzero =>
    rw [hzero]
    rfl
  · next hzero =>
    exact split_chunkKeys fun hnil ↦ hzero (List.range_eq_nil.mp hnil)

/-! ## The cells after an upload -/

theorem storeUpload_of_ne {user body : Bytes} {cell : Bytes × Bytes} (hindex : cell ≠ indexCell user)
    (hchunk : ∀ n < chunkCount body.length, cell ≠ (fileRow user (lit "untitled"), chunkKey n))
    (store : Store) : storeUpload user body store cell = store cell := by
  unfold storeUpload
  refine (Function.update_of_ne hindex _ _).trans (storeSegments_of_ne (fun n hn ↦ ?_) store)
  exact hchunk n (List.mem_range.mp hn)

theorem indexOf_storeUpload (user body : Bytes) (store : Store) :
    indexOf user (storeUpload user body store) =
      appendEntry (indexOf user store) (uploadEntry body) :=
  indexOf_update_index user _ _

theorem entries_storeUpload (user body : Bytes) (store : Store) :
    entries (indexOf user (storeUpload user body store)) =
      entries (indexOf user store) ++ [uploadEntry body] := by
  rw [indexOf_storeUpload, entries_appendEntry, entries_uploadEntry]

theorem named_storeUpload {store : Store} (h : Named store) (user body : Bytes) :
    Named (storeUpload user body store) := by
  intro row
  rw [storeUpload_of_ne]
  · exact h row
  · intro heq
    cases (Prod.mk.inj heq).2
  · intro n _ heq
    exact chunkKey_ne_nil n (Prod.mk.inj heq).2.symm

/-- The new file is read back. -/
theorem downloadOf_storeUpload {body : Bytes} (h : FitsInt body) {user : Bytes} {store : Store}
    (hnamed : Named store)
    (hnew : ∀ entry ∈ entries (indexOf user store), filePath entry ≠ some (lit "untitled")) :
    downloadOf (storeUpload user body store) user (lit "untitled") = body := by
  rw [downloadOf, entries_storeUpload, keysOf_append, keysOf_of_not hnew, List.nil_append,
    keysOf_uploadEntry]
  split
  · next hzero =>
    have hempty := flatten_segments h
    rw [hzero] at hempty
    rw [contentOf, named_storeUpload hnamed]
    exact hempty
  · rw [contentOf_of_some fun n hn ↦ storeUpload_segment user store (List.mem_range.mp hn)]
    exact flatten_segments h

/-- Every other file is read as before. -/
theorem downloadOf_storeUpload_of_ne {user path : Bytes} (hpath : path ≠ lit "untitled")
    (body : Bytes) (store : Store) :
    downloadOf (storeUpload user body store) user path = downloadOf store user path := by
  have hother : keysOf [uploadEntry body] path = [] := by
    apply keysOf_of_not
    intro file hfile
    rw [List.mem_singleton.mp hfile, filePath_uploadEntry]
    exact fun heq ↦ hpath (Option.some.inj heq).symm
  rw [downloadOf, entries_storeUpload, keysOf_append, hother, List.append_nil, downloadOf]
  apply contentOf_congr
  intro key _
  apply storeUpload_of_ne
  · intro heq
    exact fileRow_ne_user user path (Prod.mk.inj heq).1
  · intro n _ heq
    exact hpath (fileRow_injective user (Prod.mk.inj heq).1)

/-! ## The requests -/

theorem run_handleUploadFile {user rawRequest : Bytes} (h : FitsInt (parseBody rawRequest).2)
    {store : Store}
    (hnew : lit "untitled" ∉ split ((store (user, lit "storage")).getD []) comma) :
    runJob (execute ()) (handleUploadFile user rawRequest) 1 0 store =
      some (storeUpload user (parseBody rawRequest).2 store,
        .ok (corsOk (lit "Successfully uploaded file"))) := by
  rw [handleUploadFile, runJob_once, catchKVError, Prog.run_handle, run_uploadFileTry h, if_neg hnew]

/-- What the servers can hold. -/
structure ServedStore where
  cells : Store
  named : Named cells

/-- The cells of a node that began with an empty tablet. -/
def servedBy {start node : KV.Handlers.KVNode} (hempty : start.tablet = ∅)
    {requests : List Handled} (h : requests.foldlM handle start = some node) : ServedStore where
  cells := KV.TabletCells.cells node.tablet
  named := handles_named (by rw [hempty]; exact named_empty) h

def downloadUrl : Bytes := lit "/downloadfile?path=untitled"

/-- The body comes back as the content of a new entry, and nothing else has changed. -/
structure ComesBack (user body : Bytes) (before after : Store) : Prop where
  content : runJob (execute ()) (handleDownloadFile user downloadUrl) 1 0 after =
    some (after, .ok (corsOk body))
  index : entries (indexOf user after) = entries (indexOf user before) ++ [uploadEntry body]
  path : entryPath (uploadEntry body) = lit "untitled"
  keys : fileKeys (uploadEntry body) = (List.range (chunkCount body.length)).map chunkKey
  distinct : (fileKeys (uploadEntry body)).Nodup
  files : ∀ url, downloadPath url ≠ .ok (lit "untitled") →
    (runJob (execute ()) (handleDownloadFile user url) 1 0 after).map Prod.snd =
      (runJob (execute ()) (handleDownloadFile user url) 1 0 before).map Prod.snd
  chunks : ∀ n < chunkCount body.length,
    after (fileRow user (lit "untitled"), chunkKey n) = some (segmentOf body n)
  others : ∀ cell, cell ≠ indexCell user →
    (∀ n < chunkCount body.length, cell ≠ (fileRow user (lit "untitled"), chunkKey n)) →
    after cell = before cell

/-- A download undoes an upload. -/
theorem download_undoes_upload (before : ServedStore) (user : Bytes) {rawRequest : Bytes}
    (hsize : (parseBody rawRequest).2.length < 2 ^ 31 - 2000000)
    (hnew : ∀ entry ∈ entries (indexOf user before.cells), entryPath entry ≠ lit "untitled") :
    ∃ after : ServedStore,
      runJob (execute ()) (handleUploadFile user rawRequest) 1 0 before.cells =
        some (after.cells, .ok (corsOk (lit "Successfully uploaded file"))) ∧
      ComesBack user (parseBody rawRequest).2 before.cells after.cells := by
  have hfits : FitsInt (parseBody rawRequest).2 := by
    unfold FitsInt segmentSize intMax
    omega
  have hfile : ∀ entry ∈ entries (indexOf user before.cells),
      filePath entry ≠ some (lit "untitled") := by
    intro entry hentry hpath
    obtain ⟨keys, rfl, hcolon⟩ := filePath_eq_some_iff.mp hpath
    exact hnew _ hentry (entryPath_append hcolon keys)
  have hnot : lit "untitled" ∉ split ((before.cells (user, lit "storage")).getD []) comma := by
    intro hmem
    exact hnew _ (mem_entries.mpr ⟨hmem, by decide⟩) (entryPath_of_not_mem (by decide))
  refine ⟨⟨_, named_storeUpload before.named user _⟩, run_handleUploadFile hfits hnot, ?_⟩
  constructor
  · have hurl : downloadPath downloadUrl = .ok (lit "untitled") := by decide
    rw [run_handleDownloadFile, hurl]
    dsimp only
    rw [downloadOf_storeUpload hfits before.named hfile]
  · exact entries_storeUpload user _ _
  · exact entryPath_uploadEntry _
  · exact fileKeys_uploadEntry _
  · rw [fileKeys_uploadEntry]
    exact List.nodup_range.map fun _ _ ↦ chunkKey_injective
  · intro url hurl
    rw [run_handleDownloadFile, run_handleDownloadFile]
    cases hpath : downloadPath url with
    | error e => rfl
    | ok path =>
      have hne : path ≠ lit "untitled" := by
        rintro rfl
        exact hurl hpath
      dsimp only
      rw [downloadOf_storeUpload_of_ne hne]
      rfl
  · exact fun n hn ↦ storeUpload_segment user _ hn
  · exact fun cell hindex hchunk ↦ storeUpload_of_ne hindex hchunk _

/-- A store with one folder of one user. -/
def oneFolder : ServedStore where
  cells := Function.update (fun _ ↦ none) (indexCell (lit "bob")) (some (lit "docs/"))
  named row := by
    rw [Function.update_of_ne]
    intro heq
    cases (Prod.mk.inj heq).2

theorem download_undoes_upload_oneFolder : ∃ after : ServedStore,
    runJob (execute ()) (handleUploadFile (lit "bob") (lit "POST /uploadfile\r\n\r\nhello")) 1 0
        oneFolder.cells =
      some (after.cells, .ok (corsOk (lit "Successfully uploaded file"))) ∧
    ComesBack (lit "bob") (lit "hello") oneFolder.cells after.cells := by
  have hbody : (parseBody (lit "POST /uploadfile\r\n\r\nhello")).2 = lit "hello" := by decide
  have hindex : indexOf (lit "bob") oneFolder.cells = lit "docs/" := indexOf_update_index _ _ _
  rw [← hbody]
  apply download_undoes_upload
  · rw [hbody]
    decide
  · rw [hindex]
    decide

end PennCloud.Frontend.Downloads
