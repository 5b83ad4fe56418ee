import PennCloud.Frontend.FileEntries
import PennCloud.Frontend.Routing
import PennCloud.Frontend.Uploads
import PennCloud.Library.Answers

/-!
# Requests where no index can be created

The index of a user, and the boxes of the mails, are written by comparing and setting only. Where the
store has none of these cells, and every `cput` of one fails, all handlers read an empty index: listings,
boxes and downloads are empty, no folder is ever reported, and every upload is reported as a success.
Nothing that they put makes the difference.
-/

open PennCloud.Library.Programs PennCloud.Library.CppString
open PennCloud.KV.TabletCells PennCloud.Frontend.KVClient PennCloud.Frontend.HttpText
open PennCloud.Frontend.Accounts PennCloud.Frontend.Mail PennCloud.Frontend.Storage
open PennCloud.Frontend.StorageIndex PennCloud.Frontend.FileEntries PennCloud.Frontend.Uploads
open PennCloud.Frontend.Routing

namespace PennCloud.Frontend.MissingIndex

/-- The columns that nothing but `cput` writes. -/
def indexColumns : List Bytes := [lit "storage", lit "inbox", lit "deleted", lit "sent"]

/-- What a store answers in which these columns are missing and cannot be created. -/
def Barren : (op : KVOp) → Except Thrown op.Answer → Prop
  | .get _ col, answer => col ∈ indexColumns → answer = .error .kvNotFound ∨ answer = .error .kvError
  | .put _ _ _, _ => True
  | .cput _ col _ _, answer => col ∈ indexColumns → answer = .error .kvError
  | .del _ _, _ => True

/-- The call puts nothing into them. -/
def Spares : KVOp → Prop
  | .put _ col _ => col ∉ indexColumns
  | _ => True

/-- A program that puts nothing into them. -/
abbrev Safe {α : Type} (p : KVProg α) : Prop := p.Given Barren Spares fun _ ↦ True

/-- What is answered, if anything. -/
def Says (Q : Response → Prop) (outcome : Except Thrown (Pass Response)) : Prop :=
  ∀ response, outcome = .ok (.done response) → Q response

/-- The answers of the handlers; nothing is said of those left out. -/
def Fruitless : Handler → Response → Prop
  | .getWebmail box, response => box ∈ indexColumns → response = corsOk []
  | .viewFile, response => response = corsOk []
  | .downloadFile, response => response = corsOk []
  | .uploadFile, response => response = corsOk (lit "Successfully uploaded file")
  | .createFolder, _ => False
  | .deleteFolder, _ => False
  | .deleteWebmail, _ => False
  | _, _ => True

/-! ## Programs -/

section Programs

variable {user col : Bytes} {α β : Type}

theorem storage_mem : lit "storage" ∈ indexColumns := by decide

theorem Safe.bind {p : KVProg α} {f : α → KVProg β} (hp : Safe p) (hf : ∀ a, Safe (f a)) :
    Safe (p >>= f) :=
  Prog.Given.bind hp (fun a _ ↦ hf a) fun _ _ ↦ trivial

theorem safe_catch {caught : Thrown → Prop} [DecidablePred caught] {p f : KVProg α} (hp : Safe p)
    (hf : Safe f) : Safe (p.handle fun e ↦ if caught e then f else .raise e) := by
  refine Prog.Given.handle hp (fun _ _ ↦ trivial) fun e _ ↦ ?_
  split
  · exact hf
  · exact trivial

theorem safe_ite {c : Prop} [Decidable c] {p q : KVProg α} (hp : Safe p) (hq : Safe q) :
    Safe (if c then p else q) := by
  split
  · exact hp
  · exact hq

theorem safe_get (row col : Bytes) : Safe (KVClient.get row col) :=
  Prog.given_perform (KVOp.get row col) trivial fun _ _ ↦ trivial

theorem safe_put (row data : Bytes) (h : col ∉ indexColumns) : Safe (put row col data) :=
  Prog.given_perform (KVOp.put row col data) h fun _ _ ↦ trivial

theorem safe_cput (row col v1 v2 : Bytes) : Safe (cput row col v1 v2) :=
  Prog.given_perform (KVOp.cput row col v1 v2) trivial fun _ _ ↦ trivial

theorem safe_del (row col : Bytes) : Safe (del row col) :=
  Prog.given_perform (KVOp.del row col) trivial fun _ _ ↦ trivial

theorem safe_ofStd (x : Except StdException α) : Safe (ofStd x) := Prog.given_ofExcept trivial

theorem safe_back (text : Bytes) : Safe (back text) := by
  unfold back
  split
  · exact trivial
  · exact trivial

theorem given_get (hcol : col ∈ indexColumns) : (KVClient.get user col).Given Barren Spares
    fun outcome ↦ outcome = .error .kvNotFound ∨ outcome = .error .kvError :=
  Prog.given_perform (KVOp.get user col) trivial fun _ hanswer ↦ hanswer hcol

/-- What is caught is read as empty. -/
theorem given_catchNothing {p : KVProg Bytes} (hp : p.Given Barren Spares
    fun outcome ↦ outcome = .error .kvNotFound ∨ outcome = .error .kvError) :
    (catchKVError p (.ret [])).Given Barren Spares (· = .ok []) := by
  refine hp.handle (fun a h ↦ ?_) fun e h ↦ ?_
  · rcases h with h | h
    · cases h
    · cases h
  · have hkv : e.isKVError = true := by
      rcases h with h | h
      · cases h
        rfl
      · cases h
        rfl
    rw [if_pos hkv]
    exact rfl

theorem given_readIndex (hcol : col ∈ indexColumns) :
    (catchKVError (KVClient.get user col) (.ret [])).Given Barren Spares (· = .ok []) :=
  given_catchNothing (given_get hcol)

/-- The index is read as empty, or the client gives up. -/
theorem given_getIndex (hcol : col ∈ indexColumns) :
    (getdefault user col []).Given Barren Spares
      fun outcome ↦ outcome = .ok [] ∨ outcome = .error .kvError := by
  refine (given_get hcol).handle (fun a h ↦ ?_) fun e h ↦ ?_
  · rcases h with h | h
    · cases h
    · cases h
  · rcases h with h | h
    · cases h
      exact .inl rfl
    · cases h
      exact .inr rfl

theorem given_setIndex (hcol : col ∈ indexColumns) (v1 v2 : Bytes) :
    (cput user col v1 v2).Given Barren Spares (· = .error .kvError) :=
  Prog.given_perform (KVOp.cput user col v1 v2) trivial fun _ hanswer ↦ hanswer hcol

/-- Whatever follows a reading of the index finds it empty. -/
theorem given_withIndex (hcol : col ∈ indexColumns) {f : Bytes → KVProg α} {Q : Except Thrown α → Prop}
    (hf : (f []).Given Barren Spares Q) (herror : Q (.error .kvError)) :
    (getdefault user col [] >>= f).Given Barren Spares Q := by
  refine (given_getIndex hcol).bind (fun index h ↦ ?_) fun e h ↦ ?_
  · rcases h with h | h
    · cases h
      exact hf
    · cases h
  · rcases h with h | h
    · cases h
    · cases h
      exact herror

/-- Setting the index ends the program. -/
theorem given_thenSet (hcol : col ∈ indexColumns) (v1 v2 : Bytes) (p : KVProg α) :
    (cput user col v1 v2 >>= fun _ ↦ p).Given Barren Spares (· = .error .kvError) := by
  refine (given_setIndex hcol v1 v2).bind (fun _ h ↦ ?_) fun e h ↦ ?_
  · cases h
  · cases h
    rfl

/-- An error other than a mismatch leaves the loop of a handler without an answer. -/
theorem given_retry {p : KVProg (Pass Response)} (hp : p.Given Barren Spares (· = .error .kvError))
    (Q : Response → Prop) : (retry p).Given Barren Spares (Says Q) := by
  refine Prog.Given.handle hp (fun a h ↦ ?_) fun e h ↦ ?_
  · cases h
  · cases h
    intro response hdone
    cases hdone

theorem given_once {p : KVProg Response} {Q : Response → Prop} (n : ℕ)
    (hp : p.Given Barren Spares fun outcome ↦ ∀ response, outcome = .ok response → Q response) :
    (once p n).Given Barren Spares (Says Q) := by
  refine hp.bind (fun response h ↦ ?_) fun e _ ↦ ?_
  · intro response' hdone
    cases hdone
    exact h response rfl
  · intro response hdone
    cases hdone

theorem Safe.restrict {p : KVProg (Pass Response)} (hp : Safe p) {Q : Response → Prop} (hQ : ∀ r, Q r) :
    p.Given Barren Spares (Says Q) :=
  Prog.Given.mono hp fun _ _ response _ ↦ hQ response

end Programs

/-! ## Handlers -/

section Handlers

variable {user : Bytes}

theorem safe_readMails (mailContent : Bytes) (uids : List Bytes) :
    Safe (readMails user mailContent uids) := by
  induction uids generalizing mailContent with
  | nil => exact trivial
  | cons uid uids ih => exact safe_catch ((safe_get user uid).bind fun mail ↦ ih _) trivial

theorem given_getWebmail (box : Bytes) (n : ℕ) : (handleGetWebmail user box n).Given Barren Spares
    (Says fun response ↦ box ∈ indexColumns → response = corsOk []) := by
  apply given_once
  by_cases hbox : box ∈ indexColumns
  · have hread : (catchKVError (KVClient.get user box >>= fun uids ↦
        readMails user [] (split uids comma)) (.ret [])).Given Barren Spares (· = .ok []) := by
      have hnothing : (KVClient.get user box >>= fun uids ↦
          readMails user [] (split uids comma)).Given Barren Spares
          fun outcome ↦ outcome = .error .kvNotFound ∨ outcome = .error .kvError := by
        refine (given_get hbox).bind (fun uids h ↦ ?_) fun e h ↦ ?_
        · rcases h with h | h
          · cases h
          · cases h
        · rcases h with h | h
          · cases h
            exact .inl rfl
          · cases h
            exact .inr rfl
      exact given_catchNothing hnothing
    refine hread.bind (fun content h ↦ ?_) fun e h ↦ ?_
    · cases h
      intro response hdone _
      cases hdone
      rfl
    · cases h
  · have hsafe : Safe (catchKVError (KVClient.get user box >>= fun uids ↦
        readMails user [] (split uids comma)) (.ret [])) :=
      safe_catch ((safe_get user box).bind fun uids ↦ safe_readMails _ _) trivial
    refine Prog.Given.bind hsafe (fun content _ response _ hin ↦ ?_) fun e _ response hdone ↦ ?_
    · exact absurd hin hbox
    · cases hdone

theorem given_viewFile (n : ℕ) :
    (handleViewFile user n).Given Barren Spares (Says fun response ↦ response = corsOk []) := by
  apply given_once
  refine (given_readIndex storage_mem).bind (fun index h ↦ ?_) fun e h ↦ ?_
  · cases h
    intro response hdone
    cases hdone
    rfl
  · cases h

theorem given_downloadFile (url : Bytes) (n : ℕ) : (handleDownloadFile user url n).Given Barren Spares
    (Says fun response ↦ response = corsOk []) := by
  apply given_once
  refine (given_readIndex storage_mem).bind (fun index h ↦ ?_) fun e h ↦ ?_
  · cases h
    refine Prog.Given.bind (safe_ofStd _) (fun path _ ↦ ?_) fun e _ response hdone ↦ ?_
    · intro response hdone
      cases hdone
      rfl
    · cases hdone
  · cases h

theorem given_deleteWebmail (rawRequest : Bytes) (n : ℕ) :
    (handleDeleteWebmail user rawRequest n).Given Barren Spares (Says fun _ ↦ False) := by
  have hinbox : lit "inbox" ∈ indexColumns := by decide
  have hdeleted : lit "deleted" ∈ indexColumns := by decide
  cases n with
  | zero =>
    refine Prog.Given.handle (given_withIndex hinbox (given_thenSet hinbox _ _ _) rfl)
      (fun pass h ↦ ?_) fun e h ↦ ?_
    · cases h
    · cases h
      intro response hdone
      cases hdone
  | succ n =>
    refine Prog.Given.handle (given_withIndex hdeleted (given_thenSet hdeleted _ _ _) rfl)
      (fun pass h ↦ ?_) fun e h ↦ ?_
    · cases h
    · cases h
      intro response hdone
      cases hdone

theorem safe_uploadChunk (row body : Bytes) (n : ℕ) : Safe (uploadChunk row body n) := by
  have hcolumns : ∀ col ∈ indexColumns, ∃ b ∈ col, b ≠ 107 ∧ ¬(48 ≤ b ∧ b ≤ 57) := by decide
  have hkey : chunkKey n ∉ indexColumns := by
    intro hmem
    obtain ⟨b, hb, hk, hdigit⟩ := hcolumns _ hmem
    exact not_mem_chunkKey hk hdigit n hb
  unfold uploadChunk
  exact safe_ite (safe_put row _ hkey) trivial

/-- The segments are stored, and the entry is not. -/
theorem given_uploadFile (rawRequest : Bytes) (n : ℕ) :
    (handleUploadFile user rawRequest n).Given Barren Spares
      (Says fun response ↦ response = corsOk (lit "Successfully uploaded file")) := by
  have hnew : lit "untitled" ∉ split [] comma := by decide
  have htry : (uploadFileTry user (parseBody rawRequest).2).Given Barren Spares
      fun outcome ↦ ∀ response, outcome ≠ .ok response := by
    refine given_withIndex storage_mem ?_ fun _ h ↦ ?_
    · rw [if_neg hnew]
      have hchunks : Safe (Prog.forEach
          (uploadChunk (fileRow user (lit "untitled")) (parseBody rawRequest).2)
          (List.range (chunkCount (parseBody rawRequest).2.length))) :=
        Prog.given_forEach trivial fun n _ ↦ safe_uploadChunk _ _ n
      refine Prog.Given.bind hchunks (fun _ _ ↦ ?_) fun e _ response h ↦ ?_
      · refine (given_thenSet storage_mem _ _ _).mono fun outcome h response hok ↦ ?_
        cases h.symm.trans hok
      · cases h
    · cases h
  apply given_once
  refine htry.handle (fun response h ↦ absurd rfl (h response)) fun e _ ↦ ?_
  split
  · intro response hdone
    cases hdone
    rfl
  · intro response hdone
    cases hdone

theorem given_createFolder (rawRequest : Bytes) (n : ℕ) :
    (handleCreateFolder user rawRequest n).Given Barren Spares (Says fun _ ↦ False) := by
  refine given_retry (given_withIndex storage_mem ?_ rfl) _
  have hnew : newFolder rawRequest ∉ (getlines [] comma).filter (· ≠ []) :=
    List.not_mem_nil
  rw [if_neg hnew]
  exact given_thenSet storage_mem _ _ _

/-- No entry of an empty index names a file. -/
theorem moveFileEntry_nil (fileToMove targetPath : Bytes) :
    moveFileEntry user fileToMove targetPath (split [] comma) = .ret [[]] := rfl

theorem safe_moveFile (rawRequest : Bytes) (n : ℕ) : Safe (handleMoveFile user rawRequest n) := by
  refine safe_catch (safe_catch ?_ trivial) trivial
  refine given_withIndex storage_mem ((safe_back _).bind fun _ ↦ ?_) trivial
  rw [moveFileEntry_nil]
  exact safe_ite trivial ((safe_cput _ _ _ _).bind fun _ ↦ trivial)

/-- The only piece of an empty index begins with an empty path only, and it has no keys. -/
theorem safe_moveFolderEntry (oldPath targetPath : Bytes) :
    Safe (moveFolderEntry user oldPath targetPath []) := by
  unfold moveFolderEntry
  split
  · exact trivial
  · exact trivial

theorem safe_moveFolder (rawRequest : Bytes) (n : ℕ) : Safe (handleMoveFolder user rawRequest n) := by
  refine safe_catch (safe_catch ?_ trivial) trivial
  refine given_withIndex storage_mem ((safe_back _).bind fun _ ↦ safe_ite trivial ?_) trivial
  refine Safe.bind (Prog.given_mapEach (fun _ ↦ trivial) fun path hpath ↦ ?_) fun paths ↦
    (safe_cput _ _ _ _).bind fun _ ↦ trivial
  obtain rfl := List.mem_singleton.mp hpath
  exact (safe_moveFolderEntry _ _).mono fun _ _ _ _ ↦ trivial

theorem safe_renameFolderEntry (oldPath targetPath : Bytes) :
    Safe (renameFolderEntry user (oldPath ++ lit "/") targetPath []) := by
  have hnot : ¬oldPath ++ lit "/" <+: [] := by
    intro hprefix
    exact List.append_ne_nil_of_right_ne_nil oldPath (by decide) (List.prefix_nil.mp hprefix)
  rw [renameFolderEntry, if_neg hnot]
  exact trivial

/-- With an empty key nothing is put. -/
theorem safe_moveChunk (oldRow newRow : Bytes) : Safe (moveChunk oldRow newRow []) := by
  have hkey : [] ∉ indexColumns := by decide
  exact (safe_get _ _).bind fun value ↦ (safe_put _ _ hkey).bind fun _ ↦ safe_del _ _

theorem safe_renameFileEntry (oldPath targetPath : Bytes) :
    Safe (renameFileEntry user oldPath targetPath []) := by
  refine Safe.bind (Prog.given_forEach trivial fun key hkey ↦ ?_) fun _ ↦ trivial
  obtain rfl := List.mem_singleton.mp hkey
  exact safe_moveChunk _ _

theorem safe_rename (rawRequest : Bytes) (n : ℕ) : Safe (handleRename user rawRequest n) := by
  refine safe_catch (given_withIndex storage_mem ((safe_back _).bind fun _ ↦ ?_) trivial) trivial
  refine safe_ite (safe_ite trivial ?_) (safe_ite trivial ?_)
  · refine Safe.bind (Prog.given_mapEach (fun _ ↦ trivial) fun path hpath ↦ ?_) fun paths ↦
      (safe_cput _ _ _ _).bind fun _ ↦ trivial
    obtain rfl := List.mem_singleton.mp hpath
    exact (safe_renameFolderEntry _ _).mono fun _ _ _ _ ↦ trivial
  · split
    · next hpath =>
      rw [List.mem_singleton.mp hpath.2]
      exact (safe_renameFileEntry _ _).bind fun _ ↦ (safe_cput _ _ _ _).bind fun _ ↦ trivial
    · exact (safe_cput _ _ _ _).bind fun _ ↦ trivial

theorem given_deleteFolder (rawRequest : Bytes) (n : ℕ) :
    (handleDeleteFolder user rawRequest n).Given Barren Spares (Says fun _ ↦ False) :=
  given_retry (given_withIndex storage_mem (given_thenSet storage_mem _ _ _) rfl) _

theorem safe_deleteFile (rawRequest : Bytes) (n : ℕ) : Safe (handleDeleteFile user rawRequest n) := by
  refine safe_ite (safe_catch (safe_catch ?_ trivial) trivial) trivial
  refine given_withIndex storage_mem ?_ trivial
  refine Safe.bind (Prog.given_forEach trivial fun path hpath ↦ ?_) fun _ ↦ ?_
  · obtain rfl := List.mem_singleton.mp hpath
    rw [deleteFileEntry, if_neg fun h ↦ h.1 rfl]
    exact trivial
  · split
    · exact (safe_cput _ _ _ _).bind fun _ ↦ trivial
    · exact trivial

/-- Where the index is missing and stays so, the handlers put nothing in its place and answer as if
nothing were ever stored. -/
theorem handler_given (handler : Handler) (user rawRequest url : Bytes) (n : ℕ) :
    (handler.job user rawRequest url n).Given Barren Spares (Says (Fruitless handler)) := by
  cases handler with
  | getWebmail box => exact given_getWebmail box n
  | viewFile => exact given_viewFile n
  | downloadFile => exact given_downloadFile url n
  | postWebmail => exact given_once n fun _ _ ↦ trivial
  | deleteWebmail => exact given_deleteWebmail rawRequest n
  | uploadFile => exact given_uploadFile rawRequest n
  | createFolder => exact given_createFolder rawRequest n
  | moveFile => exact (safe_moveFile rawRequest n).restrict fun _ ↦ trivial
  | moveFolder => exact (safe_moveFolder rawRequest n).restrict fun _ ↦ trivial
  | rename => exact (safe_rename rawRequest n).restrict fun _ ↦ trivial
  | deleteFolder => exact given_deleteFolder rawRequest n
  | deleteFile => exact (safe_deleteFile rawRequest n).restrict fun _ ↦ trivial

end Handlers

/-! ## Requests -/

section Requests

variable {fe : Server} {job : KVJob Answered}

theorem safe_handled (handler : Handler) (user rawRequest url : Bytes) (n : ℕ) :
    Safe (handled fe (handler.job user rawRequest url) n) := by
  refine Prog.Given.bind (handler_given handler user rawRequest url n) (fun pass _ ↦ ?_) fun _ _ ↦
    trivial
  cases pass with
  | again m => exact trivial
  | done response => exact trivial

/-- The answer of a handled request is the one of the handler. -/
theorem given_handled (handler : Handler) (user rawRequest url : Bytes) (n : ℕ) :
    (handled fe (handler.job user rawRequest url) n).Given Barren Spares
      fun outcome ↦ ∀ answered, outcome = .ok (.done answered) → Fruitless handler answered.2 := by
  refine (handler_given handler user rawRequest url n).bind (fun pass h ↦ ?_) fun e _ answered hdone ↦ ?_
  · cases pass with
    | again m =>
      intro answered hdone
      cases hdone
    | done response =>
      intro answered hdone
      cases hdone
      exact h response rfl
  · cases hdone

theorem safe_accounts (drawn : Bytes) (sessions : Sessions) (rawRequest url : Bytes) :
    Safe (handlePostAccounts drawn sessions rawRequest url) := by
  have hpassword : lit "password" ∉ indexColumns := by decide
  refine (safe_ofStd _).bind fun headers ↦ ?_
  refine safe_ite (safe_catch ((safe_get _ _).bind fun _ ↦ safe_ite trivial trivial) trivial) ?_
  refine safe_ite (safe_catch ((safe_put _ _ hpassword).bind fun _ ↦ trivial) trivial) ?_
  refine safe_ite (safe_catch ((safe_cput _ _ _ _).bind fun _ ↦ trivial) trivial) trivial

/-- In every pass. -/
def SafeJob (job : KVJob Answered) : Prop := ∀ n, Safe (job n)

theorem safeJob_answer (response : Response) : SafeJob (answer fe response) := fun _ ↦ trivial

theorem safeJob_once {p : KVProg Answered} (hp : Safe p) : SafeJob (once p) := fun _ ↦
  Prog.Given.bind hp (fun _ _ ↦ trivial) fun _ _ ↦ trivial

theorem safeJob_image (x : Except StdException Response) :
    SafeJob (once (ofStd x >>= fun response ↦ .ret (fe, response))) :=
  safeJob_once (Prog.Given.bind (safe_ofStd x) (fun _ _ ↦ trivial) fun _ _ ↦ trivial)

theorem safeJob_ite {c : Prop} [Decidable c] {p q : KVJob Answered} (hp : SafeJob p)
    (hq : SafeJob q) : SafeJob (if c then p else q) := by
  split
  · exact hp
  · exact hq

theorem safeJob_get (disk : Disk) (url workingDir rawRequest : Bytes) (headers : StringMap) :
    SafeJob (handleGetRequests disk fe url workingDir rawRequest headers) := by
  have hpage (name : Bytes) : SafeJob (answer fe (webpage disk workingDir name)) := safeJob_answer _
  have hrun (handler : Handler) (user : Bytes) :
      SafeJob (handled fe (handler.job user rawRequest url)) := safe_handled handler _ _ _
  unfold handleGetRequests
  apply safeJob_ite (hpage _)
  apply safeJob_ite (safeJob_image _)
  apply safeJob_ite (safeJob_ite (safeJob_answer _) (safeJob_answer _))
  apply safeJob_ite (safeJob_answer _)
  apply safeJob_ite (hpage _)
  apply safeJob_ite (safeJob_answer _)
  apply safeJob_ite (hpage _)
  apply safeJob_ite (hpage _)
  apply safeJob_ite (safeJob_ite (hpage _) (hpage _))
  apply safeJob_ite (safeJob_answer _)
  apply safeJob_ite (safeJob_answer _)
  apply safeJob_ite (safeJob_answer _)
  apply safeJob_ite (hrun _ _)
  apply safeJob_ite (hrun _ _)
  apply safeJob_ite (hrun _ _)
  apply safeJob_ite (hrun _ _)
  apply safeJob_ite (hrun _ _)
  exact safeJob_answer _

theorem safeJob_post (drawn url rawRequest : Bytes) (headers : StringMap) :
    SafeJob (handlePostRequests drawn fe url rawRequest headers) := by
  unfold handlePostRequests
  cases postTarget fe.sessions url headers with
  | unavailable => exact safeJob_answer _
  | accounts =>
    refine safeJob_once (Prog.Given.bind (safe_accounts drawn _ _ _) (fun _ _ ↦ ?_) fun _ _ ↦ trivial)
    exact trivial
  | unauthorized => exact safeJob_answer _
  | handler handler => exact safe_handled handler _ _ _
  | notFound => exact safeJob_answer _

theorem safeJob_shutdown (method url : Bytes) : SafeJob (handleShutdownRequests fe method url) := by
  unfold handleShutdownRequests
  apply safeJob_ite
  · apply safeJob_ite (safeJob_answer _)
    apply safeJob_ite (safeJob_answer _)
    exact fun _ ↦ trivial
  · exact fun _ ↦ trivial

/-- No request puts anything in the place of an index. -/
theorem safeJob_request (disk : Disk) (currentDir drawn : Bytes) (fe : Server) (rawRequest : Bytes) :
    SafeJob (handleRequest disk currentDir drawn fe rawRequest) := by
  unfold handleRequest
  cases parseRequest currentDir rawRequest with
  | error e => exact fun _ ↦ trivial
  | ok request =>
    apply safeJob_ite (safeJob_shutdown _ _)
    apply safeJob_ite (safeJob_get _ _ _ _ _)
    apply safeJob_ite (safeJob_post _ _ _ _)
    apply safeJob_ite (safeJob_answer _)
    exact safeJob_answer _

end Requests

end PennCloud.Frontend.MissingIndex
