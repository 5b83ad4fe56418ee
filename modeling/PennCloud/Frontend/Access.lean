import PennCloud.Frontend.Routing

/-!
# Whose rows a request touches

A request under a user's session calls the store on the user's own row and on rows that begin with
the user's name and a colon; without a session it calls nothing. The rows of two users are apart
unless one name continues the other behind a colon.
-/

open PennCloud.Library.CppString PennCloud.Library.Programs PennCloud.Library.Runs
open PennCloud.KV.TabletCells PennCloud.Frontend.KVClient PennCloud.Frontend.HttpText
open PennCloud.Frontend.Accounts PennCloud.Frontend.Mail PennCloud.Frontend.Storage
open PennCloud.Frontend.Routing

namespace PennCloud.Frontend.Access

/-- The user's row, and the rows of the user's files. -/
def OwnRow (user row : Bytes) : Prop := row = user ∨ user ++ lit ":" <+: row

/-- The call is on such a row. -/
def Own (user : Bytes) (op : KVOp) : Prop := OwnRow user op.row

theorem ownRow_self (user : Bytes) : OwnRow user user := .inl rfl

theorem ownRow_fileRow (user path : Bytes) : OwnRow user (fileRow user path) :=
  .inr (List.prefix_append _ _)

/-! ## Handlers -/

section Handlers

variable {user : Bytes} {α : Type}

theorem only_get {row : Bytes} (h : OwnRow user row) (col : Bytes) :
    (KVClient.get row col).Only (Own user) := Prog.only_perform (P := Own user) h

theorem only_put {row : Bytes} (h : OwnRow user row) (col data : Bytes) :
    (put row col data).Only (Own user) := Prog.only_perform (P := Own user) h

theorem only_cput {row : Bytes} (h : OwnRow user row) (col v1 v2 : Bytes) :
    (cput row col v1 v2).Only (Own user) := Prog.only_perform (P := Own user) h

theorem only_del {row : Bytes} (h : OwnRow user row) (col : Bytes) :
    (del row col).Only (Own user) := Prog.only_perform (P := Own user) h

theorem only_ofStd (x : Except StdException α) : (ofStd x).Only (Own user) := Prog.only_ofExcept _

theorem only_back (text : Bytes) : (back text).Only (Own user) := by
  unfold back
  split
  · exact trivial
  · exact trivial

theorem only_moveChunk (oldPath newPath key : Bytes) :
    (moveChunk (fileRow user oldPath) (fileRow user newPath) key).Only (Own user) := by
  apply (only_get (ownRow_fileRow user oldPath) key).bind
  intro value
  apply (only_put (ownRow_fileRow user newPath) key value).bind
  exact fun _ ↦ only_del (ownRow_fileRow user oldPath) key

theorem only_index (col : Bytes) : (getdefault user col []).Only (Own user) :=
  only_catch (only_get (ownRow_self user) col) trivial

theorem only_update (col v1 v2 : Bytes) (a : α) :
    (cput user col v1 v2 >>= fun _ ↦ .ret a : KVProg α).Only (Own user) :=
  (only_cput (ownRow_self user) col v1 v2).bind fun _ ↦ trivial

theorem only_retry {pass : KVProg (Pass Response)} (h : pass.Only (Own user)) :
    (retry pass).Only (Own user) := only_catch h trivial

theorem only_retryOrBreak {pass : KVProg (Pass Response)} (content : Bytes)
    (h : pass.Only (Own user)) : (retryOrBreak content pass).Only (Own user) :=
  only_catch (only_retry h) trivial

theorem only_readMails (mailContent : Bytes) (uids : List Bytes) :
    (readMails user mailContent uids).Only (Own user) := by
  induction uids generalizing mailContent with
  | nil => exact trivial
  | cons uid uids ih =>
    apply only_catch
    · apply (only_get (ownRow_self user) _).bind
      exact fun mail ↦ ih _
    · exact trivial

theorem only_readChunks (path content : Bytes) (keys : List Bytes) :
    (readChunks (fileRow user path) content keys).Only (Own user) := by
  induction keys generalizing content with
  | nil => exact trivial
  | cons key keys ih =>
    apply only_catch
    · apply (only_get (ownRow_fileRow user path) _).bind
      exact fun value ↦ ih _
    · exact trivial

theorem only_getWebmail (box : Bytes) (n : ℕ) : (handleGetWebmail user box n).Only (Own user) := by
  refine Prog.Only.bind (Prog.Only.bind (only_catch ?_ trivial) fun _ ↦ trivial) fun _ ↦ trivial
  apply (only_get (ownRow_self user) _).bind
  exact fun uids ↦ only_readMails _ _

theorem only_viewFile (n : ℕ) : (handleViewFile user n).Only (Own user) := by
  refine Prog.Only.bind ?_ fun _ ↦ trivial
  refine Prog.Only.bind (only_catch ?_ trivial) fun _ ↦ trivial
  exact only_get (ownRow_self user) _

theorem only_downloadFile (url : Bytes) (n : ℕ) : (handleDownloadFile user url n).Only (Own user) := by
  refine Prog.Only.bind (Prog.Only.bind (only_catch ?_ trivial) fun fileList ↦ ?_) fun _ ↦ trivial
  · exact only_get (ownRow_self user) _
  apply (only_ofStd _).bind
  intro fileToDownload
  exact (only_readChunks _ _ _).bind fun _ ↦ trivial

theorem only_deleteWebmail (rawRequest : Bytes) (n : ℕ) :
    (handleDeleteWebmail user rawRequest n).Only (Own user) := by
  cases n with
  | zero =>
    apply only_catch
    · apply (only_index _).bind
      intro uidListOld
      exact only_update _ _ _ _
    · exact trivial
  | succ n =>
    apply only_catch
    · apply (only_index _).bind
      intro uidListOld
      exact only_update _ _ _ _
    · exact trivial

theorem only_uploadChunk (path body : Bytes) (n : ℕ) :
    (uploadChunk (fileRow user path) body n).Only (Own user) := by
  rw [uploadChunk]
  exact Prog.only_ite (only_put (ownRow_fileRow user path) _ _) trivial

theorem only_uploadFile (rawRequest : Bytes) (n : ℕ) :
    (handleUploadFile user rawRequest n).Only (Own user) := by
  refine Prog.Only.bind (only_catch ?_ trivial) fun _ ↦ trivial
  apply (only_index _).bind
  intro existingFileList
  apply Prog.only_ite
  · exact trivial
  · apply (Prog.only_forEach fun n _ ↦ only_uploadChunk (lit "untitled") _ n).bind
    exact fun _ ↦ only_update _ _ _ _

theorem only_createFolder (rawRequest : Bytes) (n : ℕ) :
    (handleCreateFolder user rawRequest n).Only (Own user) := by
  apply only_retry
  apply (only_index _).bind
  intro fileListOld
  apply Prog.only_ite
  · exact trivial
  · exact only_update _ _ _ _

theorem only_moveFileEntry (fileToMove targetPath : Bytes) (paths : List Bytes) :
    (moveFileEntry user fileToMove targetPath paths).Only (Own user) := by
  unfold moveFileEntry
  split
  · exact (Prog.only_forEach fun key _ ↦ only_moveChunk _ _ key).bind fun _ ↦ trivial
  · exact trivial

theorem only_moveFile (rawRequest : Bytes) (n : ℕ) :
    (handleMoveFile user rawRequest n).Only (Own user) := by
  apply only_retryOrBreak
  apply (only_index _).bind
  intro fileListOld
  apply (only_back _).bind
  intro _
  apply Prog.only_ite
  · exact trivial
  · apply (only_moveFileEntry _ _ _).bind
    exact fun paths ↦ only_update _ _ _ _

theorem only_moveFolderEntry (oldPath targetPath path : Bytes) :
    (moveFolderEntry user oldPath targetPath path).Only (Own user) := by
  apply Prog.only_ite
  · split
    · apply (only_ofStd _).bind
      intro rest
      exact (Prog.only_forEach fun key _ ↦ only_moveChunk _ _ key).bind fun _ ↦ trivial
    · exact trivial
  · exact trivial

theorem only_moveFolder (rawRequest : Bytes) (n : ℕ) :
    (handleMoveFolder user rawRequest n).Only (Own user) := by
  apply only_retryOrBreak
  apply (only_index _).bind
  intro fileListOld
  apply (only_back _).bind
  intro _
  apply Prog.only_ite
  · exact trivial
  · apply (Prog.only_mapEach fun path _ ↦ only_moveFolderEntry _ _ path).bind
    exact fun paths ↦ only_update _ _ _ _

theorem only_renameFolderEntry (oldPath targetPath path : Bytes) :
    (renameFolderEntry user oldPath targetPath path).Only (Own user) := by
  apply Prog.only_ite
  · split
    · exact (Prog.only_forEach fun key _ ↦ only_moveChunk _ _ key).bind fun _ ↦ trivial
    · exact trivial
  · exact trivial

theorem only_rename (rawRequest : Bytes) (n : ℕ) :
    (handleRename user rawRequest n).Only (Own user) := by
  apply only_retry
  apply (only_index _).bind
  intro fileListOld
  apply (only_back _).bind
  intro _
  apply Prog.only_ite
  · apply Prog.only_ite
    · exact trivial
    · apply (Prog.only_mapEach fun path _ ↦ only_renameFolderEntry _ _ path).bind
      exact fun fileList ↦ only_update _ _ _ _
  · apply Prog.only_ite
    · exact trivial
    · apply Prog.only_ite
      · have hchunks (target path : Bytes) :
            (renameFileEntry user path target path).Only (Own user) :=
          (Prog.only_forEach fun key _ ↦ only_moveChunk _ _ key).bind fun _ ↦ trivial
        apply (hchunks _ _).bind
        exact fun _ ↦ only_update _ _ _ _
      · exact only_update _ _ _ _

theorem only_deleteFolderEntry (folder filePath : Bytes) :
    (deleteFolderEntry user folder filePath).Only (Own user) := by
  apply Prog.only_ite
  · split
    · exact Prog.only_forEach fun key _ ↦ only_del (ownRow_fileRow user _) key
    · exact trivial
  · exact trivial

theorem only_deleteFolder (rawRequest : Bytes) (n : ℕ) :
    (handleDeleteFolder user rawRequest n).Only (Own user) := by
  apply only_retry
  apply (only_index _).bind
  intro oldFileList
  apply (Prog.only_forEach fun filePath _ ↦ only_deleteFolderEntry _ filePath).bind
  exact fun _ ↦ only_update _ _ _ _

theorem only_deleteFileEntry (pathToRemove path : Bytes) :
    (deleteFileEntry user pathToRemove path).Only (Own user) := by
  apply Prog.only_ite
  · split
    · exact Prog.only_forEach fun key _ ↦ only_del (ownRow_fileRow user _) key
    · exact trivial
  · exact trivial

theorem only_deleteFile (rawRequest : Bytes) (n : ℕ) :
    (handleDeleteFile user rawRequest n).Only (Own user) := by
  refine Prog.only_ite (only_catch (only_catch ?_ trivial) trivial) trivial
  apply (only_index _).bind
  intro fileListOld
  apply (Prog.only_forEach fun path _ ↦ only_deleteFileEntry _ path).bind
  intro _
  apply Prog.only_ite
  · exact only_update _ _ _ _
  · exact trivial

/-- Every mail and storage handler keeps to the rows of its user. -/
theorem handler_only (handler : Handler) (user rawRequest url : Bytes) (n : ℕ) :
    (handler.job user rawRequest url n).Only (Own user) := by
  cases handler with
  | getWebmail box => exact only_getWebmail box n
  | viewFile => exact only_viewFile n
  | downloadFile => exact only_downloadFile url n
  | postWebmail => exact trivial
  | deleteWebmail => exact only_deleteWebmail rawRequest n
  | uploadFile => exact only_uploadFile rawRequest n
  | createFolder => exact only_createFolder rawRequest n
  | moveFile => exact only_moveFile rawRequest n
  | moveFolder => exact only_moveFolder rawRequest n
  | rename => exact only_rename rawRequest n
  | deleteFolder => exact only_deleteFolder rawRequest n
  | deleteFile => exact only_deleteFile rawRequest n

end Handlers

/-! ## Routes -/

inductive Method
  | get
  | post
  deriving DecidableEq

/-- What `handle_request` passes on; `drawn` is what a new session would be called. -/
structure Incoming where
  method : Method
  url : Bytes
  workingDir : Bytes := []
  rawRequest : Bytes := []
  headers : StringMap := ∅
  drawn : Bytes := []

namespace Incoming

def job (disk : Disk) (fe : Server) (r : Incoming) : KVJob Answered :=
  match r.method with
  | .get => handleGetRequests disk fe r.url r.workingDir r.rawRequest r.headers
  | .post => handlePostRequests r.drawn fe r.url r.rawRequest r.headers

def sid (r : Incoming) : Bytes := getCookieFromHeader r.headers

def live (r : Incoming) (fe : Server) : Bool := sessionCheck fe.sessions r.sid

def user (r : Incoming) (fe : Server) : Bytes := usernameOf fe.sessions r.sid

def ReachesAccounts (r : Incoming) (fe : Server) : Prop :=
  r.method = .post ∧ postTarget fe.sessions r.url r.headers = .accounts

end Incoming

/-- The request is answered at once, whatever is stored, and keeps the sessions. -/
def AnsweredAtOnce (fe : Server) (job : KVJob Answered) : Prop :=
  ∃ outcome : Except Thrown Answered,
    (∀ n, job n = Prog.ofExcept (outcome.map Pass.done)) ∧
      ∀ a, outcome = .ok a → a.1.sessions = fe.sessions

theorem answeredAtOnce_answer {fe fe' : Server} (h : fe'.sessions = fe.sessions)
    (response : Response) : AnsweredAtOnce fe (answer fe' response) := by
  refine ⟨.ok (fe', response), fun _ ↦ rfl, fun a ha ↦ ?_⟩
  obtain rfl := Except.ok.inj ha
  exact h

theorem answeredAtOnce_image (fe : Server) (x : Except StdException Response) :
    AnsweredAtOnce fe (once (ofStd x >>= fun response ↦ .ret (fe, response))) := by
  cases x with
  | ok response => exact answeredAtOnce_answer rfl response
  | error e => exact ⟨.error (.std e), fun _ ↦ rfl, fun a ha ↦ nomatch ha⟩

/-- At most the request's own session is gone. -/
def KeepsSessions (r : Incoming) (fe : Server) (pass : Pass Answered) : Prop :=
  ∀ a, pass = .done a →
    a.1.sessions = fe.sessions ∨ a.1.sessions = deleteSession fe.sessions r.sid

/-- The calls and the answer of a request under a session. -/
def UnderSession (r : Incoming) (fe : Server) (job : KVJob Answered) : Prop :=
  ∀ n, (job n).Only (Own (r.user fe)) ∧ (job n).Returns (KeepsSessions r fe)

theorem underSession_of_answeredAtOnce {fe : Server} {job : KVJob Answered}
    (h : AnsweredAtOnce fe job) (r : Incoming) : UnderSession r fe job := by
  obtain ⟨outcome, hjob, hsessions⟩ := h
  intro n
  rw [hjob n]
  cases outcome with
  | error e => exact ⟨trivial, trivial⟩
  | ok a =>
    refine ⟨trivial, fun b hb ↦ ?_⟩
    obtain rfl := Pass.done.inj hb
    exact .inl (hsessions a rfl)

theorem underSession_logout (r : Incoming) (fe : Server) (live : Bool) (response : Response) :
    UnderSession r fe
      (answer { fe with
        sessions := if live then deleteSession fe.sessions r.sid else fe.sessions } response) := by
  intro n
  refine ⟨trivial, fun a ha ↦ ?_⟩
  obtain rfl := Pass.done.inj ha
  cases live with
  | false => exact .inl rfl
  | true => exact .inr rfl

theorem underSession_handled (r : Incoming) (fe : Server) (handler : Handler) :
    UnderSession r fe (handled fe (handler.job (r.user fe) r.rawRequest r.url)) := by
  intro n
  constructor
  · apply (handler_only handler _ _ _ n).bind
    intro pass
    cases pass with
    | again m => exact trivial
    | done response => exact trivial
  · apply Prog.returns_bind
    intro pass
    cases pass with
    | again m => exact fun a ha ↦ nomatch ha
    | done response =>
      intro a ha
      obtain rfl := Pass.done.inj ha
      exact .inl rfl

/-- Without a session the request is answered at once, and with one it keeps to it. -/
def Guarded (r : Incoming) (fe : Server) (job : KVJob Answered) : Prop :=
  (r.live fe = false → AnsweredAtOnce fe job) ∧ (r.live fe = true → UnderSession r fe job)

section Guarded

variable {r : Incoming} {fe : Server} {p q : KVJob Answered}

theorem guarded_of_answeredAtOnce (h : AnsweredAtOnce fe p) : Guarded r fe p :=
  ⟨fun _ ↦ h, fun _ ↦ underSession_of_answeredAtOnce h r⟩

theorem guarded_answer (response : Response) : Guarded r fe (answer fe response) :=
  guarded_of_answeredAtOnce (answeredAtOnce_answer rfl response)

theorem guarded_ite {c : Prop} [Decidable c] (hp : Guarded r fe p) (hq : Guarded r fe q) :
    Guarded r fe (if c then p else q) := by
  split
  · exact hp
  · exact hq

/-- Behind the session check. -/
theorem guarded_check (hp : Guarded r fe p) (hq : r.live fe = true → Guarded r fe q) :
    Guarded r fe (if ¬r.live fe = true then p else q) := by
  split
  · exact hp
  · next hlive => exact hq (not_not.mp hlive)

theorem guarded_handled (hlive : r.live fe = true) (handler : Handler) :
    Guarded r fe (handled fe (handler.job (r.user fe) r.rawRequest r.url)) :=
  ⟨fun h ↦ absurd (hlive.symm.trans h) Bool.noConfusion, fun _ ↦ underSession_handled r fe handler⟩

theorem guarded_logout (response : Response) :
    Guarded r fe
      (answer { fe with
        sessions := if r.live fe then deleteSession fe.sessions r.sid else fe.sessions } response) := by
  constructor
  · intro hlive
    rw [hlive]
    exact answeredAtOnce_answer rfl response
  · exact fun _ ↦ underSession_logout r fe _ response

theorem guarded_get (disk : Disk) (hmethod : r.method = .get) : Guarded r fe (r.job disk fe) := by
  have hpage (name : Bytes) : Guarded r fe (answer fe (webpage disk r.workingDir name)) :=
    guarded_answer _
  rw [Incoming.job, hmethod]
  unfold handleGetRequests
  apply guarded_ite (hpage _)
  apply guarded_ite (guarded_of_answeredAtOnce (answeredAtOnce_image fe _))
  apply guarded_ite (guarded_ite (guarded_answer _) (guarded_answer _))
  apply guarded_ite (guarded_answer _)
  apply guarded_ite (hpage _)
  apply guarded_ite (guarded_logout _)
  apply guarded_ite (hpage _)
  apply guarded_ite (hpage _)
  apply guarded_ite (guarded_ite (hpage _) (hpage _))
  refine guarded_ite (guarded_of_answeredAtOnce ?_) ?_
  · exact answeredAtOnce_answer (by rfl) unavailable
  apply guarded_ite (guarded_answer _)
  apply guarded_check (guarded_answer _)
  intro hlive
  apply guarded_ite (guarded_handled hlive _)
  apply guarded_ite (guarded_handled hlive _)
  apply guarded_ite (guarded_handled hlive _)
  apply guarded_ite (guarded_handled hlive _)
  apply guarded_ite (guarded_handled hlive _)
  exact guarded_answer _

/-- The POST chain looks at the session before it takes a handler. -/
theorem live_of_postTarget {handler : Handler}
    (h : postTarget fe.sessions r.url r.headers = .handler handler) : r.live fe = true := by
  unfold postTarget at h
  split at h
  · cases h
  · split at h
    · cases h
    · split at h
      · cases h
      · next hlive => exact not_not.mp hlive

theorem guarded_post (disk : Disk) (hmethod : r.method = .post)
    (hroute : ¬r.ReachesAccounts fe) : Guarded r fe (r.job disk fe) := by
  rw [Incoming.job, hmethod]
  unfold handlePostRequests
  dsimp only
  cases htarget : postTarget fe.sessions r.url r.headers with
  | unavailable => exact guarded_answer _
  | accounts => exact absurd ⟨hmethod, htarget⟩ hroute
  | unauthorized => exact guarded_answer _
  | handler handler => exact guarded_handled (live_of_postTarget htarget) handler
  | notFound => exact guarded_answer _

theorem guarded_job (disk : Disk) (hroute : ¬r.ReachesAccounts fe) :
    Guarded r fe (r.job disk fe) := by
  cases hmethod : r.method with
  | get => exact guarded_get disk hmethod
  | post => exact guarded_post disk hmethod hroute

end Guarded

/-! ## Requests in any surroundings -/

section Runs

variable {ι σ χ : Type} [DecidableEq ι]

/-- The calls of a request that does not go to the accounts handler. -/
def MayCall (fe : Server) (r : Incoming) (op : KVOp) : Prop :=
  r.ReachesAccounts fe ∨ r.live fe = true ∧ Own (r.user fe) op

theorem only_mayCall (disk : Disk) (fe : Server) (r : Incoming) (n : ℕ) :
    (r.job disk fe n).Only (MayCall fe r) := by
  by_cases hroute : r.ReachesAccounts fe
  · exact Prog.only_of_forall (fun _ ↦ .inl hroute) _
  obtain ⟨hdead, hunder⟩ := guarded_job disk hroute
  cases hlive : r.live fe with
  | false =>
    obtain ⟨outcome, hjob, _⟩ := hdead hlive
    rw [hjob n]
    exact Prog.only_ofExcept _
  | true => exact (hunder hlive n).1.mono fun _ hop ↦ .inr ⟨hlive, hop⟩

/-- Access control, for any number of requests at any frontends and any service behind them. -/
theorem access_control (disk : ι → Disk) (fe : ι → Server) (request : ι → Incoming) (i : ι)
    (hroute : ¬(request i).ReachesAccounts (fe i)) :
    ((request i).live (fe i) = false →
      ∃ outcome : Except Thrown Answered,
        (∀ a, outcome = .ok a → a.1.sessions = (fe i).sessions) ∧
        ∀ (exec : χ → (op : KVOp) → σ → σ × Except Thrown op.Answer) (store : σ)
          (s : Shared ι KVOp KVOp.Answer Thrown Answered σ),
          Reaches (machine exec fun j ↦ (request j).job (disk j) (fe j)) anyStep
            (Shared.start (fun j ↦ (request j).job (disk j) (fe j)) store) s →
          s.now i = Prog.ofExcept (outcome.map Pass.done) ∧ ∀ call ∈ s.past, call.caller ≠ i) ∧
    ((request i).live (fe i) = true →
      ∀ (exec : χ → (op : KVOp) → σ → σ × Except Thrown op.Answer) (store : σ)
        (s : Shared ι KVOp KVOp.Answer Thrown Answered σ),
        Reaches (machine exec fun j ↦ (request j).job (disk j) (fe j)) anyStep
          (Shared.start (fun j ↦ (request j).job (disk j) (fe j)) store) s →
        (∀ call ∈ s.past, call.caller = i → OwnRow ((request i).user (fe i)) call.op.row) ∧
        ∀ a, s.Returned i a → a.1.sessions = (fe i).sessions ∨
          a.1.sessions = deleteSession (fe i).sessions (request i).sid) := by
  obtain ⟨hdead, hunder⟩ := guarded_job (disk i) hroute
  have hcalls := fun j n ↦ only_mayCall (disk j) (fe j) (request j) n
  constructor
  · intro hlive
    obtain ⟨outcome, hjob, hsessions⟩ := hdead hlive
    refine ⟨outcome, hsessions, fun exec store s hreach ↦ ⟨?_, ?_⟩⟩
    · refine reaches_now_eq (i := i) ?_ (Prog.only_ofExcept _) hreach
      exact hjob
    · rintro call hcall rfl
      have hconfined := reaches_confined (Q := fun _ _ ↦ True) hcalls
        (fun j n ↦ Prog.returns_of_forall (fun _ ↦ trivial) _) hreach
      rcases hconfined.past call hcall with haccounts | ⟨hother, _⟩
      · exact hroute haccounts
      · exact Bool.false_ne_true (hlive.symm.trans hother)
  · intro hlive exec store s hreach
    constructor
    · rintro call hcall rfl
      have hconfined := reaches_confined (Q := fun _ _ ↦ True) hcalls
        (fun j n ↦ Prog.returns_of_forall (fun _ ↦ trivial) _) hreach
      rcases hconfined.past call hcall with haccounts | ⟨_, hown⟩
      · exact absurd haccounts hroute
      · exact hown
    · intro a hreturned
      have hconfined := reaches_confined
        (Q := fun j pass ↦ j = i → KeepsSessions (request i) (fe i) pass) hcalls
        (fun j n ↦ by
          by_cases hj : j = i
          · subst hj
            exact (hunder hlive n).2.mono fun _ h _ ↦ h
          · exact Prog.returns_of_forall (fun _ h ↦ absurd h hj) _) hreach
      exact hconfined.returned hreturned rfl a rfl

/-- The user `a` has a session. -/
def signedIn : Server := { sessions := createSession ∅ (lit "s") (lit "a") }

def listing : Incoming where
  method := .get
  url := lit "/files"
  headers := (∅ : StringMap).insert (lit "Cookie") (lit "session_id=s")

/-- A listing of files under a session. -/
theorem access_control_listing :
    ∃ s : Shared Unit KVOp KVOp.Answer Thrown Answered Store,
      s.past.length = 1 ∧ ∀ call ∈ s.past, OwnRow (lit "a") call.op.row := by
  have hrun : (run (machine execute fun _ : Unit ↦ listing.job (fun _ ↦ none) signedIn)
      (Shared.start (fun _ ↦ listing.job (fun _ ↦ none) signedIn) fun _ ↦ none) [((), ())]).map
      (fun s ↦ decide (s.past.length = 1)) = some true := by decide +kernel
  obtain ⟨s, hreach, hlength⟩ := reaches_of_run_check hrun
  have hroute : ¬listing.ReachesAccounts signedIn := fun h ↦ Method.noConfusion h.1
  have hcontrol := access_control (σ := Store) (χ := Unit) (fun _ : Unit ↦ fun _ ↦ none)
    (fun _ ↦ signedIn) (fun _ ↦ listing) () hroute
  have howned := (hcontrol.2 (by decide) execute _ s hreach).1
  exact ⟨s, of_decide_eq_true hlength, fun call hcall ↦ howned call hcall rfl⟩

/-! ## Two users -/

/-- A mail or storage request under a session, or a call of the accounts handler. -/
inductive Asked
  | request (user : Bytes) (handler : Handler) (rawRequest url : Bytes)
  | account (drawn : Bytes) (sessions : Sessions) (rawRequest url : Bytes)

def Asked.user : Asked → Bytes
  | request user _ _ _ => user
  | account _ _ rawRequest _ => (accountParams rawRequest).at (lit "username")

def Asked.job : Asked → KVJob Response
  | request user handler rawRequest url => handler.job user rawRequest url
  | account drawn sessions rawRequest url =>
    once do
      let (_, response) ← handlePostAccounts drawn sessions rawRequest url
      return response

theorem only_account (drawn : Bytes) (sessions : Sessions) (rawRequest url : Bytes) :
    (handlePostAccounts drawn sessions rawRequest url).Only
      (Own ((accountParams rawRequest).at (lit "username"))) := by
  apply (only_ofStd _).bind
  intro headers
  apply Prog.only_ite
  · apply only_catch
    · apply (only_get (ownRow_self _) _).bind
      exact fun _ ↦ Prog.only_ite trivial trivial
    · exact trivial
  apply Prog.only_ite
  · exact only_catch ((only_put (ownRow_self _) _ _).bind fun _ ↦ trivial) trivial
  apply Prog.only_ite
  · exact only_catch (only_update _ _ _ _) trivial
  · exact trivial

theorem asked_only (asked : Asked) (n : ℕ) : (asked.job n).Only (Own asked.user) := by
  cases asked with
  | request user handler rawRequest url => exact handler_only handler user rawRequest url n
  | account drawn sessions rawRequest url =>
    refine Prog.Only.bind ?_ fun _ ↦ trivial
    exact Prog.Only.bind (only_account drawn sessions rawRequest url) fun _ ↦ trivial

/-- Two names, neither of which continues the other behind a colon. -/
def Apart (u v : Bytes) : Prop := u ≠ v ∧ ¬u ++ lit ":" <+: v ∧ ¬v ++ lit ":" <+: u

theorem not_ownRow_of_apart {u v row : Bytes} (h : Apart u v) (hu : OwnRow u row) :
    ¬OwnRow v row := by
  obtain ⟨hne, huv, hvu⟩ := h
  -- Of two names in front of the same colon one would continue the other.
  have hshorter {x y : Bytes} (hx : x ++ lit ":" <+: row) (hy : y ++ lit ":" <+: row)
      (hle : x.length ≤ y.length) : x = y ∨ x ++ lit ":" <+: y := by
    have hbegins : x ++ lit ":" <+: y ++ lit ":" :=
      List.prefix_of_prefix_length_le hx hy (by simpa using hle)
    rcases Nat.lt_or_eq_of_le hle with hlt | heq
    · right
      refine List.prefix_of_prefix_length_le hbegins (List.prefix_append _ _) ?_
      rw [List.length_append]
      exact hlt
    · left
      have hxy : x <+: y ++ lit ":" := (List.prefix_append _ _).trans hbegins
      exact (List.prefix_of_prefix_length_le hxy (List.prefix_append _ _) hle).eq_of_length heq
  intro hv
  rcases hu with rfl | hu
  · rcases hv with rfl | hv
    · exact hne rfl
    · exact hvu hv
  · rcases hv with rfl | hv
    · exact huv hu
    · rcases Nat.le_total u.length v.length with hle | hle
      · rcases hshorter hu hv hle with heq | hbegins
        · exact hne heq
        · exact huv hbegins
      · rcases hshorter hv hu hle with heq | hbegins
        · exact hne heq.symm
        · exact hvu hbegins

/-- However the requests of two such users interleave, their rows are apart. -/
theorem users_isolated (asked : ι → Asked) {u v : Bytes} (hapart : Apart u v)
    {exec : χ → (op : KVOp) → σ → σ × Except Thrown op.Answer} {store : σ}
    {s : Shared ι KVOp KVOp.Answer Thrown Response σ}
    (h : Reaches (machine exec fun i ↦ (asked i).job) anyStep
      (Shared.start (fun i ↦ (asked i).job) store) s) :
    ∀ call ∈ s.past, ∀ call' ∈ s.past, (asked call.caller).user = u →
      (asked call'.caller).user = v → call.op.row ≠ call'.op.row := by
  have hconfined := reaches_confined (P := fun i ↦ Own (asked i).user) (Q := fun _ _ ↦ True)
    (fun i n ↦ asked_only (asked i) n) (fun i n ↦ Prog.returns_of_forall (fun _ ↦ trivial) _) h
  intro call hcall call' hcall' hu hv heq
  have hown := hconfined.past call hcall
  have hown' := hconfined.past call' hcall'
  rw [hu] at hown
  rw [hv, Own, ← heq] at hown'
  exact not_ownRow_of_apart hapart hown hown'

end Runs

/-- A raw request with this body. -/
def withBody (body : Bytes) : Bytes := lit "POST / HTTP/1.1\r\n\r\n" ++ body

def listingAndLogin : Bool → Asked
  | true => .request (lit "a") .viewFile [] []
  | false => .account [] ∅ (withBody (lit "username=b&password=x")) (lit "/login")

/-- A listing by `a` and a login of `b`. -/
theorem users_isolated_listing_login :
    ∃ s : Shared Bool KVOp KVOp.Answer Thrown Response Store, s.past.length = 2 ∧
      ∀ call ∈ s.past, ∀ call' ∈ s.past,
        call.caller = true → call'.caller = false → call.op.row ≠ call'.op.row := by
  have hrun : (run (machine execute fun i ↦ (listingAndLogin i).job)
      (Shared.start (fun i ↦ (listingAndLogin i).job) fun _ ↦ none) [(true, ()), (false, ())]).map
      (fun s ↦ decide (s.past.length = 2)) = some true := by decide +kernel
  obtain ⟨s, hreach, hlength⟩ := reaches_of_run_check hrun
  have hisolated := users_isolated listingAndLogin (u := lit "a") (v := lit "b")
    ⟨by decide, by decide, by decide⟩ hreach
  have huser : (listingAndLogin true).user = lit "a" := rfl
  have huser' : (listingAndLogin false).user = lit "b" := by decide
  refine ⟨s, of_decide_eq_true hlength, fun call hcall call' hcall' h h' ↦ ?_⟩
  exact hisolated call hcall call' hcall' (h ▸ huser) (h' ▸ huser')

def uploadMoveLogin : ℕ → Asked
  | 0 => .request (lit "a") .uploadFile (withBody (lit "x")) []
  | 1 => .request (lit "a") .moveFile
      (withBody (lit "\x7b\"old_path\":\"untitled\",\"target_path\":\"b\"\x7d")) []
  | _ => .account [] ∅ (withBody (lit "username=a:b&password=x")) (lit "/login")

/-- `a` moves an upload to `b`, and `a:b` logs in. -/
theorem rows_meet :
    ∃ (asked : ℕ → Asked) (s : Shared ℕ KVOp KVOp.Answer Thrown Response Store),
      Reaches (machine execute fun i ↦ (asked i).job) anyStep
        (Shared.start (fun i ↦ (asked i).job) fun _ ↦ none) s ∧
      ∃ call ∈ s.past, ∃ call' ∈ s.past, (asked call.caller).user = lit "a" ∧
        (asked call'.caller).user = lit "a:b" ∧ call.op.row = call'.op.row := by
  have hrun : (run (machine execute fun i ↦ (uploadMoveLogin i).job)
      (Shared.start (fun i ↦ (uploadMoveLogin i).job) fun _ ↦ none)
      ([0, 0, 0, 1, 1, 1, 1, 1, 2].map fun i ↦ (i, ()))).map
      (fun s ↦ decide (∃ call ∈ s.past, ∃ call' ∈ s.past,
        (uploadMoveLogin call.caller).user = lit "a" ∧
        (uploadMoveLogin call'.caller).user = lit "a:b" ∧ call.op.row = call'.op.row)) =
      some true := by
    decide +kernel
  obtain ⟨s, hreach, hmeet⟩ := reaches_of_run_check hrun
  exact ⟨uploadMoveLogin, s, hreach, of_decide_eq_true hmeet⟩

end PennCloud.Frontend.Access
