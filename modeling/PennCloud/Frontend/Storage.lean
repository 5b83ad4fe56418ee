import PennCloud.Frontend.HttpText
import Mathlib.Data.List.DropRight

/-!
# Storage handlers

The storage index of a user is one string in the column `storage` of the user's row: the entries
between commas, a folder being a path that ends in a slash and a file a path, a colon and
the keys of its chunks between plus signs. The chunks are cells of the row `user:path`. The
handlers read the index, move or delete chunks, and compare and set the index; on a mismatch
most of them have another pass.
-/

open PennCloud.Library.CppString PennCloud.Library.TextSearch PennCloud.Library.Programs
open PennCloud.KV.TabletCells PennCloud.Frontend.KVClient PennCloud.Frontend.HttpText

namespace PennCloud.Frontend.Storage

/-! ## Entries -/

/-- The row of a file's chunks. -/
def fileRow (user path : Bytes) : Bytes := user ++ lit ":" ++ path

/-- `entry.substr(0, pos)` and `entry.substr(pos + 1)`, `pos` being the first colon. -/
def cutEntry (entry : Bytes) : Option (Bytes × Bytes) :=
  (find? [colon] entry).map fun p ↦ (entry.take p, entry.drop (p + 1))

/-- The path of an entry. -/
def entryPath (entry : Bytes) : Bytes :=
  match cutEntry entry with
  | some (path, _) => path
  | none => entry

/-- The index with one more entry. -/
def appendEntry (fileList entry : Bytes) : Bytes :=
  if fileList = [] then entry else fileList ++ lit "," ++ entry

/-- Get a chunk, put it under the new path and delete the old one. -/
def moveChunk (oldRow newRow key : Bytes) : KVProg Unit := do
  let value ← KVClient.get oldRow key
  put newRow key value
  del oldRow key

/-- `catch (KVNoMatch &) { continue; }`. -/
def retry (pass : KVProg (Pass Response)) : KVProg (Pass Response) :=
  catchKVNoMatch pass (.ret (.again 0))

/-- `catch (KVNoMatch &) { continue; } catch (KVError &) { break; }`. -/
def retryOrBreak (content : Bytes) (pass : KVProg (Pass Response)) : KVProg (Pass Response) :=
  catchKVError (retry pass) (.ret (.done (corsOk content)))

/-- `text.back()`; on an empty string its behaviour is undefined. -/
def back (text : Bytes) : KVProg UInt8 :=
  match text.getLast? with
  | some b => .ret b
  | none => .raise .undefined

/-! ## Reading -/

/-- Add the values of the keys; an error of the client ends the loop with what has been read. -/
def readChunks (row : Bytes) : Bytes → List Bytes → KVProg Bytes
  | content, [] => .ret content
  | content, key :: keys =>
    catchKVError
      (do
        let value ← KVClient.get row key
        readChunks row (content ++ value) keys)
      (.ret content)

/-- The keys of all entries with this path. -/
def keysOf (files : List Bytes) (path : Bytes) : List Bytes :=
  files.flatMap fun file ↦
    match cutEntry file with
    | some (filePath, keys) => if filePath = path then split keys plus else []
    | none => []

/-- Without `?path=` the position is `npos + 6`, which is 5. -/
def downloadPath (url : Bytes) : Except StdException Bytes :=
  match find? (lit "?path=") url with
  | some p => substrFrom url (p + 6)
  | none => substrFrom url 5

def handleDownloadFile (user url : Bytes) : KVJob Response :=
  once do
    let fileList ← catchKVError (KVClient.get user (lit "storage")) (.ret [])
    let fileToDownload ← ofStd (downloadPath url)
    let content ← readChunks (fileRow user fileToDownload) []
      (keysOf (split fileList comma) fileToDownload)
    return corsOk content

def handleViewFile (user : Bytes) : KVJob Response :=
  once do
    let filesAsString ← catchKVError (KVClient.get user (lit "storage")) (.ret [])
    return corsOk (join ((split filesAsString comma).map entryPath) (lit ","))

/-! ## Creating -/

def newFolder (rawRequest : Bytes) : Bytes :=
  (parseJson (parseBody rawRequest).2).at (lit "folderName") ++ lit "/"

/-- The body of the try block. -/
def createFolderPass (user rawRequest : Bytes) : KVProg (Pass Response) := do
  let fileListOld ← getdefault user (lit "storage") []
  if newFolder rawRequest ∈ (getlines fileListOld comma).filter (· ≠ []) then
    return .done (corsOk (lit "Folder existed"))
  else
    cput user (lit "storage") fileListOld (appendEntry fileListOld (newFolder rawRequest))
    return .done (corsOk (lit "Folder created"))

def handleCreateFolder (user rawRequest : Bytes) : KVJob Response := fun _ ↦
  retry (createFolderPass user rawRequest)

def segmentSize : ℤ := 2000000

/-- `INT_MAX`. -/
def intMax : ℤ := 2147483647

/-- The column of the segment with this number. -/
def chunkKey (n : ℕ) : Bytes := lit "k" ++ decimal (n * segmentSize.toNat)

-- Irreducible, or unification computes with the segment size in unary.
/-- How often `for (int offset = 0; offset < (int)size; offset += segment_size)` goes round. -/
@[irreducible]
def chunkCount (size : ℕ) : ℕ := ((sizeToInt size + segmentSize - 1) / segmentSize).toNat

/-- The `offset` of that round. -/
@[irreducible]
def chunkOffset (n : ℕ) : ℤ := n * segmentSize

/-- Store one segment; the sum of offset and segment size can overflow. -/
def uploadChunk (row body : Bytes) (n : ℕ) : KVProg Unit :=
  let offset := chunkOffset n
  let size := sizeToInt body.length
  if offset + segmentSize ≤ intMax then
    let length := if offset + segmentSize < size then segmentSize else size - offset
    put row (chunkKey n) ((body.drop offset.toNat).take length.toNat)
  else
    .raise .undefined

/-- The entry of an uploaded file. -/
def uploadEntry (body : Bytes) : Bytes :=
  lit "untitled:" ++ join ((List.range (chunkCount body.length)).map chunkKey) (lit "+")

/-- The body of the try block. -/
def uploadFileTry (user body : Bytes) : KVProg Response := do
  let existingFileList ← getdefault user (lit "storage") []
  if lit "untitled" ∈ split existingFileList comma then
    return corsOk (lit "Failed uploading file: file existed!")
  else
    Prog.forEach (uploadChunk (fileRow user (lit "untitled")) body)
      (List.range (chunkCount body.length))
    cput user (lit "storage") existingFileList (appendEntry existingFileList (uploadEntry body))
    return corsOk (lit "Successfully uploaded file")

def handleUploadFile (user rawRequest : Bytes) : KVJob Response :=
  once (catchKVError (uploadFileTry user (parseBody rawRequest).2)
    (.ret (corsOk (lit "Successfully uploaded file"))))

/-! ## Moving -/

/-- The target path with a slash at its end. -/
def addSlash (path : Bytes) : Bytes :=
  if path.getLast? = some slash then path else path ++ lit "/"

theorem addSlash_ne_nil (path : Bytes) : addSlash path ≠ [] := by
  unfold addSlash
  split
  · next h =>
    rintro rfl
    cases h
  · exact List.append_ne_nil_of_right_ne_nil path (by decide)

/-- The entry under its new path, and its chunks moved if it has any. -/
def moveFolderEntry (user oldPath targetPath path : Bytes) : KVProg Bytes :=
  if oldPath <+: path then do
    match cutEntry path with
    | some (baseFilePath, keyList) =>
      let rest ← ofStd (substrFrom baseFilePath oldPath.length)
      Prog.forEach (moveChunk (fileRow user baseFilePath) (fileRow user (targetPath ++ rest)))
        (getlines keyList plus)
    | none => pure ()
    return targetPath ++ path.drop oldPath.length
  else
    .ret path

def handleMoveFolder (user rawRequest : Bytes) : KVJob Response := fun _ ↦
  retryOrBreak (lit "Successfully moved folder") do
    let params := parseJson (parseBody rawRequest).2
    let fileListOld ← getdefault user (lit "storage") []
    let paths := split fileListOld comma
    let _ ← back (params.at (lit "target_path"))
    let targetPath := addSlash (params.at (lit "target_path"))
    if targetPath ∈ paths then
      return .done (corsOk (lit "Failed moved folder: folder existed!"))
    else
      let paths ← Prog.mapEach
        (moveFolderEntry user (params.at (lit "old_path")) targetPath) paths
      cput user (lit "storage") fileListOld (join paths (lit ","))
      return .done (corsOk (lit "Successfully moved folder"))

/-- This entry is a file with this path. -/
def namesFile (path entry : Bytes) : Bool := (cutEntry entry).map Prod.fst = some path

/-- Move the chunks of the first entry of the file; the entries afterwards. -/
def moveFileEntry (user fileToMove targetPath : Bytes) (paths : List Bytes) :
    KVProg (List Bytes) :=
  match paths.span fun path ↦ !namesFile fileToMove path with
  | (front, path :: rest) => do
    let keys := path.drop (fileToMove.length + 1)
    Prog.forEach (moveChunk (fileRow user fileToMove) (fileRow user targetPath)) (split keys plus)
    return front ++ (targetPath ++ path.drop fileToMove.length) :: rest
  | (front, []) => .ret front

/-- The target path without a slash at its end. -/
def dropSlash (path : Bytes) : Bytes := if path.getLast? = some slash then path.dropLast else path

/-- The body of the try block. -/
def moveFilePass (user fileToMove targetParam : Bytes) : KVProg (Pass Response) := do
  let fileListOld ← getdefault user (lit "storage") []
  let paths := split fileListOld comma
  let _ ← back targetParam
  if ∃ path ∈ paths, dropSlash targetParam <+: path then
    return .done (corsOk (lit "Failed to move file: file already exists!"))
  else
    let paths ← moveFileEntry user fileToMove (dropSlash targetParam) paths
    cput user (lit "storage") fileListOld (join paths (lit ","))
    return .done (corsOk (lit "Successfully moved file"))

/-- A field of the JSON body. -/
def jsonParam (rawRequest key : Bytes) : Bytes := (parseJson (parseBody rawRequest).2).at key

def handleMoveFile (user rawRequest : Bytes) : KVJob Response := fun _ ↦
  retryOrBreak (lit "Successfully moved file")
    (moveFilePass user (jsonParam rawRequest (lit "old_path"))
      (jsonParam rawRequest (lit "target_path")))

/-! ## Renaming -/

/-- `path.substr(0, path.find_last_of("/\\") + 1)`. -/
def parentPath (path : Bytes) : Bytes := path.rdropWhile fun b ↦ b ≠ slash ∧ b ≠ 92

/-- The new path keeps the keys behind the colon, and so do the row and the entry. -/
def renameFolderEntry (user oldPath targetPath path : Bytes) : KVProg Bytes :=
  if oldPath <+: path then do
    let newFilePath := targetPath ++ path.drop oldPath.length
    match cutEntry path with
    | some (subpath, keys) => do
      Prog.forEach (moveChunk (fileRow user subpath) (fileRow user newFilePath)) (split keys plus)
      return newFilePath ++ lit ":" ++ keys
    | none => .raise (.std .outOfRange)
  else
    .ret path

/-- Without a colon in the old path its whole entry is compared with it, and its position is `npos`;
with one, no entry equals it. -/
def renameFileEntry (user oldPath targetPath path : Bytes) : KVProg Unit := do
  Prog.forEach (moveChunk (fileRow user oldPath) (fileRow user targetPath)) (split path plus)
  .raise (.std .outOfRange)

def handleRename (user rawRequest : Bytes) : KVJob Response := fun _ ↦
  retry do
    let params := parseJson (parseBody rawRequest).2
    let fileListOld ← getdefault user (lit "storage") []
    let fileList := split fileListOld comma
    let oldPath := params.at (lit "old_path")
    let newName := params.at (lit "new_name")
    let _ ← back newName
    if params.at (lit "type") = lit "folder" then
      let targetPath := parentPath oldPath ++ addSlash newName
      if targetPath ∈ fileList then
        return .done (corsOk (lit "Failed to rename folder: folder already exists!"))
      else
        let fileList ← Prog.mapEach
          (renameFolderEntry user (oldPath ++ lit "/") targetPath) fileList
        cput user (lit "storage") fileListOld (join fileList (lit ","))
        return .done (corsOk (lit "Successfully renamed file"))
    else
      let suffix := match find? [colon] oldPath with
        | some p => oldPath.drop p
        | none => []
      let targetPath := parentPath oldPath ++ dropSlash newName ++ suffix
      if targetPath ∈ fileList then
        return .done (corsOk (lit "Failed to rename file: file already exists!"))
      else
        if colon ∉ oldPath ∧ oldPath ∈ fileList then
          renameFileEntry user oldPath targetPath oldPath
        cput user (lit "storage") fileListOld (join fileList (lit ","))
        return .done (corsOk (lit "Successfully renamed file"))

/-! ## Deleting -/

/-- The words that `stream >> key` reads. -/
def words (text : Bytes) : List Bytes := (text.splitOnP isSpace).filter (· ≠ [])

/-- Delete the keys of an entry in the row that the whole entry names. -/
def deleteFolderEntry (user folder filePath : Bytes) : KVProg Unit :=
  if folder <+: filePath then
    match cutEntry filePath with
    | some (_, keysStr) =>
      Prog.forEach (del (fileRow user filePath))
        (words (keysStr.map fun b ↦ if b = plus then 32 else b))
    | none => .ret ()
  else
    .ret ()

def handleDeleteFolder (user rawRequest : Bytes) : KVJob Response := fun _ ↦
  retry do
    let oldFileList ← getdefault user (lit "storage") []
    Prog.forEach (deleteFolderEntry user (parseBody rawRequest).2) (getlines oldFileList comma)
    let newFileList := join (split oldFileList comma) (lit ",")
    cput user (lit "storage") oldFileList (trimCommas (collapseCommas newFileList))
    return .done (corsOk (lit "Successfully deleted folder"))

def serverError (content : Bytes) : Response :=
  generateCorsResponse (lit "500 Internal Server Error") content

/-- Delete the chunks of an entry that begins with the path. -/
def deleteFileEntry (user pathToRemove path : Bytes) : KVProg Unit :=
  if path ≠ [] ∧ pathToRemove <+: path then
    match cutEntry path with
    | some (filePath, keyData) =>
      Prog.forEach (del (fileRow user filePath)) (split keyData plus)
    | none => .ret ()
  else
    .ret ()

/-- The body of the loop, before its catch clauses. -/
def deleteFilePass (user pathToRemove : Bytes) : KVProg (Pass Response) := do
  let fileListOld ← getdefault user (lit "storage") []
  let paths := split fileListOld comma
  Prog.forEach (deleteFileEntry user pathToRemove) paths
  if ∃ path ∈ paths, path ≠ [] ∧ pathToRemove <+: path then
    cput user (lit "storage") fileListOld
      (join (paths.filter fun path ↦ ¬(path ≠ [] ∧ pathToRemove <+: path)) (lit ","))
  return .done (corsOk (lit "File deleted"))

/-- The number of the pass is the number of retries. -/
def handleDeleteFile (user rawRequest : Bytes) : KVJob Response := fun retries ↦
  if retries < 100 then
    catchKVError
      (catchKVNoMatch (deleteFilePass user (parseBody rawRequest).2)
        (.ret (if retries + 1 < 100 then .again (retries + 1)
          else .done (serverError (lit "Conflict resolution failed after several attempts")))))
      (.ret (.done (serverError (lit "An error occurred"))))
  else
    .ret (.done (serverError (lit "Unexpected error")))

end PennCloud.Frontend.Storage
