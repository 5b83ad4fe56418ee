import PennCloud.Frontend.StorageIndex

/-!
# Concurrent additions to an index

Uploads and new folders of one user, each at its own frontend, add entries to the same index. A
folder is tried again when another request has changed the index meanwhile; an upload gives up
and still reports success. No entry is ever lost, and every reported one is there, in the
runs in which that does not happen to an upload.
-/

open PennCloud.Library.Programs PennCloud.Library.Runs PennCloud.Library.RelyGuarantee
open PennCloud.KV.TabletCells PennCloud.Frontend.KVClient PennCloud.Frontend.HttpText
open PennCloud.Frontend.Storage PennCloud.Frontend.StorageIndex

namespace PennCloud.Frontend.IndexUpdates

inductive Addition
  | uploadFile (rawRequest : Bytes)
  | createFolder (rawRequest : Bytes)

namespace Addition

def job (user : Bytes) : Addition → KVJob Response
  | uploadFile rawRequest => handleUploadFile user rawRequest
  | createFolder rawRequest => handleCreateFolder user rawRequest

/-- The entry that the request adds. -/
def entry : Addition → Bytes
  | uploadFile rawRequest => uploadEntry (parseBody rawRequest).2
  | createFolder rawRequest => newFolder rawRequest

/-- The content that reports it. -/
def report : Addition → Bytes
  | uploadFile _ => lit "Successfully uploaded file"
  | createFolder _ => lit "Folder created"

end Addition

variable {ι : Type} {user : Bytes}

/-- No entry is lost. -/
def Grows (user : Bytes) (w v : KVWorld ι) : Prop :=
  ∀ e ∈ entries (indexOf user w.store), e ∈ entries (indexOf user v.store)

theorem grows_of_eq {w v : KVWorld ι} (h : indexOf user v.store = indexOf user w.store) :
    Grows user w v := by
  intro e he
  rwa [h]

/-- An upload compares the index it has read with the present one, or its entry is already there. -/
def FreshUpload (user : Bytes) (request : Addition) (op : KVOp) (w : KVWorld ι) : Prop :=
  ∀ rawRequest v1 v2, request = .uploadFile rawRequest → op = .cput user (lit "storage") v1 v2 →
    indexOf user w.store = v1 ∨ request.entry ∈ entries (indexOf user w.store)

/-- All requests rely on what each of them guarantees. -/
def contract (ι : Type) (user : Bytes) (request : Addition) :
    Contract ι KVOp KVOp.Answer Thrown Store where
  allowed := FreshUpload user request
  rely := Grows user
  guarantee := Grows user
  rely_refl := fun _ _ he ↦ he
  rely_trans := fun huv hvw e he ↦ hvw e (huv e he)

/-- What is reported is in the index. -/
def Reported (user : Bytes) (request : Addition) (response : Response) (w : KVWorld ι) : Prop :=
  response.content = request.report → request.entry ∈ entries (indexOf user w.store)

/-- At the end of a pass. -/
def PassReported (user : Bytes) (request : Addition) : Pass Response → KVWorld ι → Prop
  | .done response, w => Reported user request response w
  | .again _, _ => True

section Requests

variable [DecidableEq ι] {request : Addition} {i : ι} {w : KVWorld ι}
  {E : Thrown → KVWorld ι → Prop}

/-- An entry stays. -/
theorem lasting_mem {e : Bytes} (h : e ∈ entries (indexOf user w.store)) :
    Lasting (contract ι user request) i (fun v ↦ e ∈ entries (indexOf user v.store)) w :=
  fun _ hv ↦ hv.1 e h

/-- Reading the index, of which nothing is asked here. -/
theorem meets_read : Meets execute (contract ι user request) i (fun _ _ ↦ True) E
    (getdefault user (lit "storage") []) w :=
  meets_getIndex fun v _ _ ↦ ⟨grows_of_eq (congrArg (indexOf user)
    (execute_get_store user (lit "storage") v.store)), fun _ _ ↦ trivial⟩

/-- Adding the entry; a mismatch that the contract allows an upload leaves it there too. -/
theorem meets_add (user : Bytes) (request : Addition)
    (hentry : entries request.entry = [request.entry]) (index : Bytes) :
    Meets execute (contract ι user request) i
      (fun _ v ↦ request.entry ∈ entries (indexOf user v.store))
      (fun _ v ↦ ∀ rawRequest, request = .uploadFile rawRequest →
        request.entry ∈ entries (indexOf user v.store))
      (cput user (lit "storage") index (appendEntry index request.entry)) w := by
  apply meets_cputIndex
  intro v _ hallowed
  by_cases hmatches : Matches (v.store (indexCell user)) index
  · have hafter : entries (indexOf user (v.answer execute i ()
        (.cput user (lit "storage") index (appendEntry index request.entry))).store) =
        entries (indexOf user v.store) ++ [request.entry] := by
      rw [World.answer, indexOf_cput _ hmatches, entries_appendEntry, hentry,
        matches_iff.mp hmatches]
    rw [if_pos hmatches]
    constructor
    · intro e he
      rw [hafter]
      exact List.mem_append_left _ he
    · apply lasting_mem
      rw [hafter]
      exact List.mem_append_right _ (List.mem_singleton_self _)
  · have hafter : indexOf user (v.answer execute i ()
        (.cput user (lit "storage") index (appendEntry index request.entry))).store =
        indexOf user v.store := by
      rw [World.answer, store_cput_of_not _ hmatches]
    rw [if_neg hmatches]
    refine ⟨grows_of_eq hafter, fun u hu rawRequest hupload ↦ ?_⟩
    rcases hallowed rawRequest _ _ hupload rfl with hindex | hthere
    · exact absurd (matches_iff.mpr hindex) hmatches
    · apply hu.1
      rwa [hafter]

theorem meets_createFolderPass (rawRequest : Bytes) (hname : comma ∉ newFolder rawRequest) :
    Meets execute (contract ι user (.createFolder rawRequest)) i
      (PassReported user (.createFolder rawRequest)) (fun _ _ ↦ True)
      (createFolderPass user rawRequest) w := by
  have hentry : entries (newFolder rawRequest) = [newFolder rawRequest] :=
    entries_of_not_mem (List.append_ne_nil_of_right_ne_nil _ (by decide)) hname
  have hexisted : (corsOk (lit "Folder existed")).content ≠ lit "Folder created" := by decide
  refine Meets.bind meets_read fun index v _ ↦ ?_
  split
  · exact fun u _ hreport ↦ absurd hreport hexisted
  · have hadd := meets_add (i := i) (w := v) user (.createFolder rawRequest) hentry index
    refine Meets.bind (hadd.mono (fun _ _ h ↦ h) fun _ _ _ ↦ trivial) fun _ u hu ↦ ?_
    exact fun x hx _ ↦ hu x hx

theorem meets_createFolder (rawRequest : Bytes) (hname : comma ∉ newFolder rawRequest) (n : ℕ) :
    Meets execute (contract ι user (.createFolder rawRequest)) i
      (PassReported user (.createFolder rawRequest)) (fun _ _ ↦ True)
      (handleCreateFolder user rawRequest n) w :=
  meets_catch (meets_createFolderPass rawRequest hname) (fun _ _ _ _ _ _ ↦ trivial)
    fun _ _ _ _ ↦ trivial

/-- Storing a chunk does not touch the index, and only undefined behaviour stops it. -/
theorem meets_uploadChunk (body : Bytes) (n : ℕ) (hundefined : ∀ v : KVWorld ι, E .undefined v) :
    Meets execute (contract ι user request) i (fun _ _ ↦ True) E
      (uploadChunk (fileRow user (lit "untitled")) body n) w := by
  rw [uploadChunk]
  dsimp only
  split
  · apply meets_perform
    intro v _ _ _
    refine ⟨grows_of_eq ?_, fun _ _ ↦ trivial⟩
    exact indexOf_update_of_ne (fileRow_ne_user user _) v.store _ _
  · exact fun v _ ↦ hundefined v

/-- What the catch clause of an upload takes for a success is one. -/
theorem meets_uploadFileTry (user rawRequest : Bytes) :
    Meets execute (contract ι user (.uploadFile rawRequest)) i
      (Reported user (.uploadFile rawRequest))
      (fun e v ↦ e.isKVError = true →
        uploadEntry (parseBody rawRequest).2 ∈ entries (indexOf user v.store))
      (uploadFileTry user (parseBody rawRequest).2) w := by
  have hfailed : (corsOk (lit "Failed uploading file: file existed!")).content ≠
      lit "Successfully uploaded file" := by decide
  refine Meets.bind meets_read fun index v _ ↦ ?_
  split
  · exact fun u _ hreport ↦ absurd hreport hfailed
  · refine Meets.bind (meets_forEach (I := fun _ _ ↦ True) (fun _ _ ↦ trivial)
      fun n _ v _ ↦ meets_uploadChunk _ n fun _ h ↦ absurd h Bool.false_ne_true) fun _ u _ ↦ ?_
    have hadd := meets_add (i := i) (w := u) user (.uploadFile rawRequest) (entries_uploadEntry _)
      index
    refine Meets.bind (hadd.mono (fun _ _ h ↦ h) fun _ _ h _ ↦ h rawRequest rfl) fun _ x hx ↦ ?_
    exact fun y hy _ ↦ hx y hy

theorem meets_uploadFile (rawRequest : Bytes) (n : ℕ) :
    Meets execute (contract ι user (.uploadFile rawRequest)) i
      (PassReported user (.uploadFile rawRequest)) (fun _ _ ↦ True)
      (handleUploadFile user rawRequest n) w := by
  have htry := meets_uploadFileTry (i := i) (w := w) user rawRequest
  refine Meets.bind (meets_catch htry (fun e v he hv u hu _ ↦ ?_) fun _ _ _ _ ↦ trivial)
    fun _ _ hv ↦ hv
  exact hv u hu he

end Requests

/-! ## All requests together -/

/-- No upload compares an index that has changed since it was read, unless its entry is there. -/
def FreshUploads {σ : Type} (user : Bytes) (requests : ι → Addition)
    (s : Shared ι KVOp KVOp.Answer Thrown Response Store) (event : ι × σ) : Prop :=
  ∀ op next, s.now event.1 = .call op next → FreshUpload user (requests event.1) op s.toWorld

/-- In such a run no acknowledged addition is lost. -/
theorem additions_kept [DecidableEq ι] (requests : ι → Addition)
    (hnames : ∀ i rawRequest, requests i = .createFolder rawRequest → comma ∉ newFolder rawRequest)
    {store : Store} {s : Shared ι KVOp KVOp.Answer Thrown Response Store}
    (h : Reaches (machine execute fun i ↦ (requests i).job user) (FreshUploads user requests)
      (Shared.start (fun i ↦ (requests i).job user) store) s) :
    (∀ e ∈ entries (indexOf user store), e ∈ entries (indexOf user s.store)) ∧
      ∀ i response, s.Returned i response → response.content = (requests i).report →
        (requests i).entry ∈ entries (indexOf user s.store) := by
  have hmeets : ∀ t : Shared ι KVOp KVOp.Answer Thrown Response Store,
      Reaches (machine execute fun i ↦ (requests i).job user)
        (AllowedStep fun i ↦ contract ι user (requests i))
        (Shared.start (fun i ↦ (requests i).job user) store) t →
      ∀ i, Meets execute (contract ι user (requests i)) i (PassReported user (requests i))
        (fun _ _ ↦ True) (t.now i) t.toWorld := by
    intro t ht
    apply reaches_meets (fun i v _ ↦ trivial) ?_ (fun _ _ _ _ _ h ↦ h) ht
    intro i n w _
    cases hrequest : requests i with
    | uploadFile rawRequest => exact meets_uploadFile rawRequest n
    | createFolder rawRequest => exact meets_createFolder rawRequest (hnames i _ hrequest) n
  constructor
  · exact reaches_guarantee (T := Grows user) (fun _ _ he ↦ he)
      (fun _ _ _ huv hvw e he ↦ hvw e (huv e he)) (fun _ _ _ h ↦ h) hmeets h
  · intro i response hreturned
    exact post_of_returned (C := fun i ↦ contract ι user (requests i))
      (P := fun i ↦ PassReported user (requests i)) (E := fun _ _ _ ↦ True) (hmeets s h i) hreturned

/-! ## A new folder and an upload -/

/-- The user `a` makes the folder `f` and uploads one byte. -/
def folderAndUpload : Bool → Addition
  | false => .createFolder (lit "\r\n\r\n\x7b\"folderName\":\"f\"\x7d")
  | true => .uploadFile (lit "\r\n\r\nx")

theorem freshUploads_of_comparesPresent
    (s : Shared Bool KVOp KVOp.Answer Thrown Response Store) (event : Bool × Unit)
    (h : comparesPresent (lit "a") true s event = true) :
    FreshUploads (lit "a") folderAndUpload s event := by
  rintro op next hnow rawRequest v1 v2 hrequest rfl
  simp only [comparesPresent, hnow, decide_eq_true_eq] at h
  cases hi : event.1 with
  | false =>
    rw [hi] at hrequest
    cases hrequest
  | true => exact .inl (h.resolve_left fun hne ↦ hne hi)

/-- The folder's request has read the index before the upload, so that its first comparison fails. -/
theorem additions_kept_interleaved :
    ∃ s : Shared Bool KVOp KVOp.Answer Thrown Response Store,
      (∃ response, s.Returned true response ∧
        response.content = lit "Successfully uploaded file") ∧
      lit "untitled:k0" ∈ entries (indexOf (lit "a") s.store) := by
  have hrun : (run ((machine execute fun i ↦ (folderAndUpload i).job (lit "a")).restrict
      (comparesPresent (lit "a") true)) (Shared.start (fun i ↦ (folderAndUpload i).job (lit "a"))
      fun _ ↦ none) [(false, ()), (true, ()), (true, ()), (true, ()), (false, ()), (false, ()),
        (false, ()), (false, ())]).map
      (fun s ↦ decide (answered s =
        some (lit "Folder created", lit "Successfully uploaded file"))) = some true := by
    decide +kernel
  obtain ⟨s, hreach, hanswered⟩ := reaches_of_run_restrict freshUploads_of_comparesPresent hrun
  obtain ⟨-, response, hreturned, hcontent⟩ := returned_of_answered (of_decide_eq_true hanswered)
  have hnames : ∀ i rawRequest, folderAndUpload i = .createFolder rawRequest →
      comma ∉ newFolder rawRequest := by
    intro i rawRequest hrequest
    cases i with
    | false =>
      obtain rfl := Addition.createFolder.inj hrequest
      decide
    | true => cases hrequest
  have hkept := additions_kept folderAndUpload hnames hreach
  have hentry : (folderAndUpload true).entry = lit "untitled:k0" := by decide +kernel
  refine ⟨s, ⟨response, hreturned, hcontent⟩, ?_⟩
  rw [← hentry]
  exact hkept.2 true response hreturned hcontent

/-- The folder is made between the upload's reading and its compare-and-set. -/
theorem upload_lost :
    ¬∀ (user : Bytes) (requests : Bool → Addition) (store : Store)
      (s : Shared Bool KVOp KVOp.Answer Thrown Response Store),
      Reaches (machine execute fun i ↦ (requests i).job user) anyStep
        (Shared.start (fun i ↦ (requests i).job user) store) s →
      (∀ i, ∃ response, s.Returned i response) →
      ∀ i response, s.Returned i response → response.content = (requests i).report →
        (requests i).entry ∈ entries (indexOf user s.store) := by
  intro h
  have hrun : (run (machine execute fun i ↦ (folderAndUpload i).job (lit "a"))
      (Shared.start (fun i ↦ (folderAndUpload i).job (lit "a")) fun _ ↦ none)
      [(true, ()), (false, ()), (false, ()), (true, ()), (true, ())]).map
      (fun s ↦ decide (answered s =
        some (lit "Folder created", lit "Successfully uploaded file") ∧
        (folderAndUpload true).entry ∉ entries (indexOf (lit "a") s.store))) = some true := by
    decide +kernel
  obtain ⟨s, hreach, hcheck⟩ := reaches_of_run_check hrun
  obtain ⟨hanswered, hlost⟩ := of_decide_eq_true hcheck
  have hreturned := exists_returned_of_answered hanswered
  obtain ⟨-, uploaded, huploaded, hcontent⟩ := returned_of_answered hanswered
  apply hlost
  exact h (lit "a") folderAndUpload _ s hreach hreturned true uploaded huploaded hcontent

end PennCloud.Frontend.IndexUpdates
