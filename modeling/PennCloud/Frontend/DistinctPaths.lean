import PennCloud.Frontend.IndexPaths

/-!
# Requests of one user, one at a time

The storage requests of a user, each handled before the next one comes, on an index that is empty
at first. A request alone with the store ends in its first pass: what it does with chunks leaves the
index, and the comparison with what it has read holds. The paths of the index stay distinct as
long as no file has the path of a new upload or folder, and no path is relocated to one that stays.
-/

open PennCloud.Library.CppString PennCloud.Library.Programs PennCloud.Library.Runs
open PennCloud.Library.RelyGuarantee PennCloud.KV.TabletCells
open PennCloud.Frontend.KVClient PennCloud.Frontend.HttpText PennCloud.Frontend.Storage
open PennCloud.Frontend.StorageIndex PennCloud.Frontend.FileEntries PennCloud.Frontend.IndexPaths

namespace PennCloud.Frontend.DistinctPaths

inductive StorageRequest
  | uploadFile (rawRequest : Bytes)
  | createFolder (rawRequest : Bytes)
  | moveFile (rawRequest : Bytes)
  | moveFolder (rawRequest : Bytes)
  | deleteFile (rawRequest : Bytes)
  | deleteFolder (rawRequest : Bytes)
  | rename (rawRequest : Bytes)

/-- The folder is refused, or no path goes to one that stays. -/
def Relocates (old target index : Bytes) : Prop :=
  target ∈ split index comma ∨ Vacant old target (paths index)

instance (old target index : Bytes) : Decidable (Relocates old target index) :=
  inferInstanceAs (Decidable (_ ∨ _))

namespace StorageRequest

def job (user : Bytes) : StorageRequest → KVJob Response
  | uploadFile rawRequest => handleUploadFile user rawRequest
  | createFolder rawRequest => handleCreateFolder user rawRequest
  | moveFile rawRequest => handleMoveFile user rawRequest
  | moveFolder rawRequest => handleMoveFolder user rawRequest
  | deleteFile rawRequest => handleDeleteFile user rawRequest
  | deleteFolder rawRequest => handleDeleteFolder user rawRequest
  | rename rawRequest => handleRename user rawRequest

/-- The paths and names in the request. -/
def names : StorageRequest → List Bytes
  | uploadFile _ => []
  | createFolder rawRequest => [jsonParam rawRequest (lit "folderName")]
  | moveFile rawRequest =>
    [jsonParam rawRequest (lit "old_path"), jsonParam rawRequest (lit "target_path")]
  | moveFolder rawRequest =>
    [jsonParam rawRequest (lit "old_path"), jsonParam rawRequest (lit "target_path")]
  | deleteFile rawRequest => [(parseBody rawRequest).2]
  | deleteFolder rawRequest => [(parseBody rawRequest).2]
  | rename rawRequest =>
    [jsonParam rawRequest (lit "old_path"), jsonParam rawRequest (lit "new_name")]

/-- None of them has a character that an index is cut at. -/
def Plain (request : StorageRequest) : Prop :=
  ∀ name ∈ request.names, comma ∉ name ∧ colon ∉ name ∧ plus ∉ name

instance (request : StorageRequest) : Decidable request.Plain :=
  inferInstanceAs (Decidable (∀ name ∈ request.names, comma ∉ name ∧ colon ∉ name ∧ plus ∉ name))

/-- What the tests of the handlers leave out. A rename fails at an entry without a colon. -/
def Clear (index : Bytes) : StorageRequest → Prop
  | uploadFile _ => fileCount (lit "untitled") index = 0
  | createFolder rawRequest => fileCount (newFolder rawRequest) index = 0
  | moveFolder rawRequest =>
    Relocates (jsonParam rawRequest (lit "old_path"))
      (addSlash (jsonParam rawRequest (lit "target_path"))) index
  | rename rawRequest =>
    let oldPath := jsonParam rawRequest (lit "old_path")
    jsonParam rawRequest (lit "type") = lit "folder" →
      (∃ entry ∈ split index comma, oldPath ++ lit "/" <+: entry ∧ colon ∉ entry) ∨
        Relocates (oldPath ++ lit "/")
          (parentPath oldPath ++ addSlash (jsonParam rawRequest (lit "new_name"))) index
  | moveFile _ => True
  | deleteFile _ => True
  | deleteFolder _ => True

instance (index : Bytes) (request : StorageRequest) : Decidable (request.Clear index) :=
  match request with
  | uploadFile _ => inferInstanceAs (Decidable (_ = _))
  | createFolder _ => inferInstanceAs (Decidable (_ = _))
  | moveFolder _ => inferInstanceAs (Decidable (Relocates _ _ _))
  | rename rawRequest => inferInstanceAs (Decidable
      (jsonParam rawRequest (lit "type") = lit "folder" →
        (∃ entry ∈ split index comma, _ <+: entry ∧ colon ∉ entry) ∨ Relocates _ _ _))
  | moveFile _ => inferInstanceAs (Decidable True)
  | deleteFile _ => inferInstanceAs (Decidable True)
  | deleteFolder _ => inferInstanceAs (Decidable True)

end StorageRequest

/-- The requests of a user, each with the number of passes that it may take. -/
def machine (user : Bytes) : Machine Store (StorageRequest × ℕ) where
  step store event :=
    (runJob (execute ()) (event.1.job user) event.2 0 store).map Prod.fst

/-! ## Alone with the store -/

section Alone

variable {user index : Bytes} {α β : Type}

/-- What is thrown is no mismatch, and the index is as it was. -/
def Kept (user index : Bytes) (e : Thrown) (w : KVWorld Unit) : Prop :=
  e ≠ .kvNoMatch ∧ indexOf user w.store = index

/-- The program leaves the index and returns only such values. -/
def Steady (user index : Bytes) (Q : α → Prop) (p : KVProg α) : Prop :=
  ∀ w : KVWorld Unit, indexOf user w.store = index →
    Meets execute alone () (fun a v ↦ Q a ∧ indexOf user v.store = index) (Kept user index) p w

/-- The program returns only such values and a tidy index, or throws before it has changed it. -/
def Tidies (user index : Bytes) (Q : α → Prop) (p : KVProg α) : Prop :=
  ∀ w : KVWorld Unit, indexOf user w.store = index →
    Meets execute alone () (fun a v ↦ Q a ∧ Tidy (indexOf user v.store)) (Kept user index) p w

/-- The program leaves a tidy index in any case. -/
def Settles (user index : Bytes) (Q : α → Prop) (p : KVProg α) : Prop :=
  ∀ w : KVWorld Unit, indexOf user w.store = index →
    Meets execute alone () (fun a v ↦ Q a ∧ Tidy (indexOf user v.store))
      (fun _ v ↦ Tidy (indexOf user v.store)) p w

/-- No other pass is asked for. -/
def Last (pass : Pass Response) : Prop := ∃ response, pass = .done response

variable {Q : α → Prop} {R : β → Prop}

theorem steady_ret {a : α} (h : Q a) : Steady user index Q (.ret a) :=
  fun _ hw ↦ lasting_alone ⟨h, hw⟩

theorem steady_raise {e : Thrown} (h : e ≠ .kvNoMatch) : Steady user index Q (.raise e) :=
  fun _ hw ↦ lasting_alone ⟨h, hw⟩

theorem Steady.bind {p : KVProg α} {f : α → KVProg β} (hp : Steady user index Q p)
    (hf : ∀ a, Q a → Steady user index R (f a)) : Steady user index R (p >>= f) := by
  intro w hw
  refine (hp w hw).bind fun a v hv ↦ ?_
  exact hf a hv.now.1 v hv.now.2

theorem Steady.tidies {p : KVProg α} {f : α → KVProg β} (hp : Steady user index Q p)
    (hf : ∀ a, Q a → Tidies user index R (f a)) : Tidies user index R (p >>= f) := by
  intro w hw
  refine (hp w hw).bind fun a v hv ↦ ?_
  exact hf a hv.now.1 v hv.now.2

theorem steady_forEach {ξ : Type} {f : ξ → KVProg Unit} {xs : List ξ}
    (h : ∀ x, Steady user index (fun _ ↦ True) (f x)) :
    Steady user index (fun _ ↦ True) (Prog.forEach f xs) := by
  intro w hw
  refine meets_forEach (I := fun _ v ↦ True ∧ indexOf user v.store = index)
    (lasting_alone ⟨trivial, hw⟩) fun x xs v hv ↦ ?_
  exact h x v hv.now.2

theorem steady_mapEach {ξ : Type} {f : ξ → KVProg β} {S : ξ → β → Prop} {xs : List ξ}
    (h : ∀ x ∈ xs, Steady user index (S x) (f x)) :
    Steady user index (List.Forall₂ S xs) (Prog.mapEach f xs) := by
  intro w hw
  refine meets_mapEach (I := fun v ↦ indexOf user v.store = index) (lasting_alone hw) ?_
  exact fun x hx v hv ↦ h x hx v hv.now

/-- A call on another row that is no comparison. -/
theorem steady_perform {op : KVOp} (hrow : op.row ≠ user)
    (hcput : ∀ row col v1 v2, op ≠ .cput row col v1 v2) :
    Steady user index (fun _ ↦ True) (Prog.perform op) := by
  intro w hw
  apply meets_perform
  rintro v ⟨rfl, -⟩ - -
  refine ⟨trivial, lasting_alone ?_⟩
  cases op with
  | get row col =>
    have hstore : indexOf user (execute () (.get row col) w.store).1 = index := by
      rw [execute_get_store, hw]
    cases hcell : w.store (row, col) with
    | some value =>
      simp only [execute, hcell]
      exact ⟨trivial, hstore⟩
    | none =>
      simp only [execute, hcell]
      exact ⟨Thrown.noConfusion, hstore⟩
  | put row col data => exact ⟨trivial, (indexOf_update_of_ne hrow _ _ _).trans hw⟩
  | cput row col v1 v2 => exact absurd rfl (hcput row col v1 v2)
  | del row col => exact ⟨trivial, (indexOf_update_of_ne hrow _ _ _).trans hw⟩

theorem steady_ofStd (x : Except StdException α) : Steady user index (fun _ ↦ True) (ofStd x) := by
  cases x with
  | ok a => exact steady_ret trivial
  | error e => exact steady_raise Thrown.noConfusion

theorem steady_back (text : Bytes) : Steady user index (fun _ ↦ True) (back text) := by
  unfold back
  split
  · exact steady_ret trivial
  · exact steady_raise Thrown.noConfusion

theorem steady_moveChunk (oldPath newPath key : Bytes) :
    Steady user index (fun _ ↦ True) (moveChunk (fileRow user oldPath) (fileRow user newPath) key) := by
  refine Steady.bind (steady_perform (fileRow_ne_user user _) fun _ _ _ _ ↦ KVOp.noConfusion)
    fun value _ ↦ ?_
  refine Steady.bind (steady_perform (fileRow_ne_user user _) fun _ _ _ _ ↦ KVOp.noConfusion)
    fun _ _ ↦ ?_
  exact steady_perform (fileRow_ne_user user _) fun _ _ _ _ ↦ KVOp.noConfusion

/-- Reading the index. -/
theorem steady_index : Steady user index (· = index) (getdefault user (lit "storage") []) := by
  intro w hw
  apply meets_getIndex
  rintro v ⟨rfl, -⟩ -
  refine ⟨trivial, lasting_alone ⟨hw, ?_⟩⟩
  exact (congrArg (indexOf user) (execute_get_store user (lit "storage") w.store)).trans hw

theorem tidies_ret {a : α} (h : Tidy index) (ha : Q a) : Tidies user index Q (.ret a) := by
  intro w hw
  exact lasting_alone ⟨ha, hw ▸ h⟩

/-- Replacing the index. -/
theorem tidies_cput {v2 : Bytes} {a : α} (h : Tidy v2) (ha : Q a) :
    Tidies user index Q (cput user (lit "storage") index v2 >>= fun _ ↦ .ret a) := by
  intro w hw
  have hcput : Meets execute alone () (fun _ v ↦ indexOf user v.store = v2) (Kept user index)
      (cput user (lit "storage") index v2) w := by
    apply meets_cputIndex
    rintro v ⟨rfl, -⟩ -
    have hmatches := matches_iff.mpr hw
    rw [if_pos hmatches]
    exact ⟨trivial, lasting_alone (indexOf_cput v2 hmatches)⟩
  refine hcput.bind fun _ v hv ↦ lasting_alone ⟨ha, ?_⟩
  rwa [hv.now]

theorem tidies_ite {c : Prop} [Decidable c] {p q : KVProg α} (hp : c → Tidies user index Q p)
    (hq : ¬c → Tidies user index Q q) : Tidies user index Q (if c then p else q) := by
  split
  · next hc => exact hp hc
  · next hc => exact hq hc

/-- Another pass after a mismatch is not needed. -/
theorem Tidies.catchKVNoMatch {p f : KVProg α} (h : Tidies user index Q p) (htidy : Tidy index) :
    Settles user index Q (catchKVNoMatch p f) := by
  intro w hw
  apply meets_catch (h w hw)
  · exact fun e v he hv ↦ absurd he hv.now.1
  · rintro e v - ⟨-, hindex⟩
    rwa [hindex]

theorem Tidies.settles {p : KVProg α} (h : Tidies user index Q p) (htidy : Tidy index) :
    Settles user index Q p := by
  intro w hw
  refine (h w hw).mono (fun _ _ hv ↦ hv) ?_
  rintro e v ⟨-, hindex⟩
  rwa [hindex]

theorem Settles.catchKVError {p : KVProg α} {a : α} (h : Settles user index Q p) (ha : Q a) :
    Settles user index Q (catchKVError p (.ret a)) := by
  intro w hw
  apply meets_catch (h w hw)
  · exact fun e v _ hv ↦ lasting_alone ⟨ha, hv.now⟩
  · exact fun e v _ hv ↦ hv

end Alone

/-! ## Names -/

section Names

variable {b : UInt8} {path : Bytes}

theorem not_mem_addSlash (hslash : b ≠ slash) (h : b ∉ path) : b ∉ addSlash path := by
  unfold addSlash
  split
  · exact h
  · rw [List.mem_append, not_or]
    exact ⟨h, fun hmem ↦ hslash (List.mem_singleton.mp hmem)⟩

theorem not_mem_dropSlash (h : b ∉ path) : b ∉ dropSlash path := by
  unfold dropSlash
  split
  · exact fun hmem ↦ h (List.mem_of_mem_dropLast hmem)
  · exact h

theorem not_mem_newFolder {rawRequest : Bytes} (hslash : b ≠ slash)
    (h : b ∉ jsonParam rawRequest (lit "folderName")) : b ∉ newFolder rawRequest := by
  rw [newFolder, List.mem_append, not_or]
  exact ⟨h, fun hmem ↦ hslash (List.mem_singleton.mp hmem)⟩

theorem not_mem_parentPath (h : b ∉ path) : b ∉ parentPath path :=
  fun hmem ↦ h ((List.rdropWhile_prefix _ _).subset hmem)

end Names

/-! ## The handlers -/

section Entries

variable (user index : Bytes) {old target : Bytes} (hold : colon ∉ old) (hcolon : colon ∉ target)
  (hcomma : comma ∉ target) (hne : target ≠ [])

include hold hcolon hcomma hne

theorem steady_moveFolderEntry (path : Bytes) :
    Steady user index (Relocated old target path) (moveFolderEntry user old target path) := by
  have hrelocated := relocated_relocate hold hcolon hcomma hne path
  unfold moveFolderEntry
  split
  · next hbegins =>
    rw [relocate_of_begins hbegins] at hrelocated
    split
    · refine (steady_ofStd _).bind fun rest _ ↦ ?_
      exact (steady_forEach fun key ↦ steady_moveChunk _ _ key).bind fun _ _ ↦ steady_ret hrelocated
    · exact steady_ret hrelocated
  · next hstays =>
    rw [relocate_of_not_begins hstays] at hrelocated
    exact steady_ret hrelocated

/-- It returns at entries with a colon only. -/
theorem steady_renameFolderEntry (path : Bytes) :
    Steady user index (fun path' ↦ Relocated old target path path' ∧ (old <+: path → colon ∈ path))
      (renameFolderEntry user old target path) := by
  unfold renameFolderEntry
  split
  · next hbegins =>
    dsimp only
    split
    · next subpath keys hcut =>
      have hrelocated := relocated_keys hold hcolon hcomma hcut
      rw [relocate_of_begins hbegins] at hrelocated
      have hmem : colon ∈ path := by
        by_contra hnot
        rw [cutEntry_of_not_mem hnot] at hcut
        cases hcut
      refine (steady_forEach fun key ↦ steady_moveChunk _ _ key).bind fun _ _ ↦ ?_
      refine steady_ret ⟨?_, fun _ ↦ hmem⟩
      rw [List.append_assoc]
      exact hrelocated
    · exact steady_raise Thrown.noConfusion
  · next hstays =>
    have hrelocated := relocated_relocate hold hcolon hcomma hne path
    rw [relocate_of_not_begins hstays] at hrelocated
    exact steady_ret ⟨hrelocated, fun hbegins ↦ absurd hbegins hstays⟩

end Entries

section Handlers

variable {user index : Bytes} (htidy : Tidy index)

include htidy

theorem settles_uploadFile (rawRequest : Bytes) (hclear : fileCount (lit "untitled") index = 0)
    (n : ℕ) : Settles user index Last (handleUploadFile user rawRequest n) := by
  have htry : Tidies user index (fun _ ↦ True) (uploadFileTry user (parseBody rawRequest).2) := by
    refine steady_index.tidies fun index' hindex ↦ ?_
    obtain rfl := hindex
    refine tidies_ite (fun _ ↦ tidies_ret htidy trivial) fun hfree ↦ ?_
    refine Steady.tidies (steady_forEach fun m ↦ ?_) fun _ _ ↦ ?_
    · rw [uploadChunk]
      dsimp only
      split
      · exact steady_perform (fileRow_ne_user user _) fun _ _ _ _ ↦ KVOp.noConfusion
      · exact steady_raise Thrown.noConfusion
    · refine tidies_cput (htidy.append ?_ (comma_not_mem_uploadEntry _) ?_) trivial
      · exact List.append_ne_nil_of_left_ne_nil (by decide) _
      · rw [entryPath_uploadEntry]
        exact not_mem_paths hclear fun hentry ↦ hfree (mem_entries.mp hentry).1
  intro w hw
  refine Meets.bind ((htry.settles htidy).catchKVError trivial w hw) fun response v hv ↦ ?_
  exact lasting_alone ⟨⟨response, rfl⟩, hv.now.2⟩

theorem settles_createFolder (rawRequest : Bytes)
    (hname : comma ∉ newFolder rawRequest ∧ colon ∉ newFolder rawRequest)
    (hclear : fileCount (newFolder rawRequest) index = 0) (n : ℕ) :
    Settles user index Last (handleCreateFolder user rawRequest n) := by
  refine Tidies.catchKVNoMatch ?_ htidy
  refine steady_index.tidies fun index' hindex ↦ ?_
  obtain rfl := hindex
  refine tidies_ite (fun _ ↦ tidies_ret htidy ⟨_, rfl⟩) fun hfree ↦ ?_
  have hne : newFolder rawRequest ≠ [] := List.append_ne_nil_of_right_ne_nil _ (by decide)
  refine tidies_cput (htidy.append hne hname.1 ?_) ⟨_, rfl⟩
  rw [entryPath_of_not_mem hname.2]
  refine not_mem_paths hclear fun hentry ↦ hfree ?_
  exact List.mem_filter.mpr ⟨mem_getlines hentry, decide_eq_true hne⟩

theorem settles_moveFile (rawRequest : Bytes)
    (hcomma : comma ∉ jsonParam rawRequest (lit "target_path"))
    (hcolon : colon ∉ jsonParam rawRequest (lit "target_path")) (n : ℕ) :
    Settles user index Last (handleMoveFile user rawRequest n) := by
  refine (Tidies.catchKVNoMatch ?_ htidy).catchKVError ⟨_, rfl⟩
  refine steady_index.tidies fun index' hindex ↦ ?_
  obtain rfl := hindex
  refine (steady_back _).tidies fun _ _ ↦ ?_
  refine tidies_ite (fun _ ↦ tidies_ret htidy ⟨_, rfl⟩) fun hfree ↦ ?_
  rcases moveFileEntry_cases user (jsonParam rawRequest (lit "old_path"))
    (dropSlash (jsonParam rawRequest (lit "target_path"))) (split index' comma) with
    ⟨-, hmove⟩ | ⟨front, keys, rest, hsplit, hfile, hmove⟩
  · rw [hmove, Prog.ret_bind, join_split]
    exact tidies_cput htidy ⟨_, rfl⟩
  · rw [hmove]
    have hchunks : Steady user index' (· = front ++
        (dropSlash (jsonParam rawRequest (lit "target_path")) ++ colon :: keys) :: rest) (do
        Prog.forEach (moveChunk (fileRow user (jsonParam rawRequest (lit "old_path")))
          (fileRow user (dropSlash (jsonParam rawRequest (lit "target_path"))))) (split keys plus)
        return front ++
          (dropSlash (jsonParam rawRequest (lit "target_path")) ++ colon :: keys) :: rest) :=
      (steady_forEach fun key ↦ steady_moveChunk _ _ key).bind fun _ _ ↦ steady_ret rfl
    refine hchunks.tidies fun paths hpaths ↦ ?_
    obtain rfl := hpaths
    refine tidies_cput (htidy.moveFile hsplit hfile ?_ ?_ fun piece hpiece hbegins ↦ ?_) ⟨_, rfl⟩
    · exact not_mem_dropSlash hcomma
    · exact not_mem_dropSlash hcolon
    · exact hfree ⟨piece, hpiece, hbegins⟩

theorem settles_moveFolder (rawRequest : Bytes)
    (hold : colon ∉ jsonParam rawRequest (lit "old_path"))
    (hcomma : comma ∉ jsonParam rawRequest (lit "target_path"))
    (hcolon : colon ∉ jsonParam rawRequest (lit "target_path"))
    (hclear : Relocates (jsonParam rawRequest (lit "old_path"))
      (addSlash (jsonParam rawRequest (lit "target_path"))) index) (n : ℕ) :
    Settles user index Last (handleMoveFolder user rawRequest n) := by
  refine (Tidies.catchKVNoMatch ?_ htidy).catchKVError ⟨_, rfl⟩
  refine steady_index.tidies fun index' hindex ↦ ?_
  obtain rfl := hindex
  refine (steady_back _).tidies fun _ _ ↦ ?_
  refine tidies_ite (fun _ ↦ tidies_ret htidy ⟨_, rfl⟩) fun hfree ↦ ?_
  have hentry (path : Bytes) : Steady user index'
      (Relocated (jsonParam rawRequest (lit "old_path"))
        (addSlash (jsonParam rawRequest (lit "target_path"))) path)
      (moveFolderEntry user (jsonParam rawRequest (lit "old_path"))
        (addSlash (jsonParam rawRequest (lit "target_path"))) path) :=
    steady_moveFolderEntry user index' hold (not_mem_addSlash (by decide) hcolon)
      (not_mem_addSlash (by decide) hcomma) (addSlash_ne_nil _) path
  refine (steady_mapEach fun path _ ↦ hentry path).tidies fun pieces hpieces ↦ ?_
  exact tidies_cput (htidy.relocated hpieces (hclear.resolve_left hfree)) ⟨_, rfl⟩

theorem settles_deleteFile (rawRequest : Bytes) (n : ℕ) :
    Settles user index Last (handleDeleteFile user rawRequest n) := by
  have hpass : Tidies user index Last (deleteFilePass user (parseBody rawRequest).2) := by
    refine steady_index.tidies fun index' hindex ↦ ?_
    obtain rfl := hindex
    refine Steady.tidies (steady_forEach fun path ↦ ?_) fun _ _ ↦ ?_
    · unfold deleteFileEntry
      split
      · split
        · exact steady_forEach fun key ↦
            steady_perform (fileRow_ne_user user _) fun _ _ _ _ ↦ KVOp.noConfusion
        · exact steady_ret trivial
      · exact steady_ret trivial
    · refine tidies_ite (fun hsome ↦ ?_) fun _ ↦ tidies_ret htidy ⟨_, rfl⟩
      obtain ⟨path, hpath, hne, -⟩ := hsome
      have hindex := ne_nil_of_mem_split hpath hne
      exact tidies_cput (htidy.leaveOut hindex List.filter_sublist) ⟨_, rfl⟩
  unfold handleDeleteFile
  split
  · exact (hpass.catchKVNoMatch htidy).catchKVError ⟨_, rfl⟩
  · exact (tidies_ret htidy ⟨_, rfl⟩).settles htidy

theorem settles_deleteFolder (rawRequest : Bytes) (n : ℕ) :
    Settles user index Last (handleDeleteFolder user rawRequest n) := by
  refine Tidies.catchKVNoMatch ?_ htidy
  refine steady_index.tidies fun index' hindex ↦ ?_
  obtain rfl := hindex
  refine Steady.tidies (steady_forEach fun filePath ↦ ?_) fun _ _ ↦ ?_
  · unfold deleteFolderEntry
    split
    · split
      · exact steady_forEach fun key ↦
          steady_perform (fileRow_ne_user user _) fun _ _ _ _ ↦ KVOp.noConfusion
      · exact steady_ret trivial
    · exact steady_ret trivial
  · dsimp only
    rw [join_split, htidy.collapse]
    exact tidies_cput htidy ⟨_, rfl⟩

theorem settles_rename (rawRequest : Bytes)
    (hold : colon ∉ jsonParam rawRequest (lit "old_path"))
    (hcomma : comma ∉ parentPath (jsonParam rawRequest (lit "old_path")) ++
      addSlash (jsonParam rawRequest (lit "new_name")))
    (hcolon : colon ∉ parentPath (jsonParam rawRequest (lit "old_path")) ++
      addSlash (jsonParam rawRequest (lit "new_name")))
    (hclear : (StorageRequest.rename rawRequest).Clear index) (n : ℕ) :
    Settles user index Last (handleRename user rawRequest n) := by
  refine Tidies.catchKVNoMatch ?_ htidy
  refine steady_index.tidies fun index' hindex ↦ ?_
  obtain rfl := hindex
  refine (steady_back _).tidies fun _ _ ↦ ?_
  refine tidies_ite (fun hfolder ↦ ?_) fun _ ↦ ?_
  · refine tidies_ite (fun _ ↦ tidies_ret htidy ⟨_, rfl⟩) fun hfree ↦ ?_
    have hold' : colon ∉ jsonParam rawRequest (lit "old_path") ++ lit "/" := by
      rw [List.mem_append, not_or]
      exact ⟨hold, by decide⟩
    have hne : parentPath (jsonParam rawRequest (lit "old_path")) ++
        addSlash (jsonParam rawRequest (lit "new_name")) ≠ [] :=
      List.append_ne_nil_of_right_ne_nil _ (addSlash_ne_nil _)
    have hentry (path : Bytes) := steady_renameFolderEntry user index' hold' hcolon hcomma hne path
    refine (steady_mapEach fun path _ ↦ hentry path).tidies fun pieces hpieces ↦ ?_
    rcases hclear hfolder with ⟨entry, hmem, hbegins, hnocolon⟩ | hrelocates
    · obtain ⟨entry', -, hentry'⟩ := exists_left_of_forall₂ hpieces.flip hmem
      exact absurd (hentry'.2 hbegins) hnocolon
    · refine tidies_cput (htidy.relocated (hpieces.imp fun _ _ h ↦ h.1) ?_) ⟨_, rfl⟩
      exact hrelocates.resolve_left hfree
  · refine tidies_ite (fun _ ↦ tidies_ret htidy ⟨_, rfl⟩) fun hfree ↦ ?_
    rw [join_split]
    refine tidies_ite (fun _ ↦ ?_) fun _ ↦ tidies_cput htidy ⟨_, rfl⟩
    refine Steady.tidies (Q := fun _ ↦ True) ?_ fun _ _ ↦ tidies_cput htidy ⟨_, rfl⟩
    refine (steady_forEach fun key ↦ steady_moveChunk _ _ key).bind fun _ _ ↦ ?_
    exact steady_raise Thrown.noConfusion

end Handlers

theorem settles_job {user index : Bytes} (htidy : Tidy index) {request : StorageRequest}
    (hplain : request.Plain) (hclear : request.Clear index) (n : ℕ) :
    Settles user index Last (request.job user n) := by
  cases request with
  | uploadFile rawRequest => exact settles_uploadFile htidy rawRequest hclear n
  | createFolder rawRequest =>
    have hname := hplain _ List.mem_cons_self
    refine settles_createFolder htidy rawRequest ?_ hclear n
    exact ⟨not_mem_newFolder (by decide) hname.1, not_mem_newFolder (by decide) hname.2.1⟩
  | moveFile rawRequest =>
    have htarget := hplain _ (List.mem_cons_of_mem _ List.mem_cons_self)
    exact settles_moveFile htidy rawRequest htarget.1 htarget.2.1 n
  | moveFolder rawRequest =>
    have hold := hplain _ List.mem_cons_self
    have htarget := hplain _ (List.mem_cons_of_mem _ List.mem_cons_self)
    exact settles_moveFolder htidy rawRequest hold.2.1 htarget.1 htarget.2.1 hclear n
  | deleteFile rawRequest => exact settles_deleteFile htidy rawRequest n
  | deleteFolder rawRequest => exact settles_deleteFolder htidy rawRequest n
  | rename rawRequest =>
    have hold := hplain _ List.mem_cons_self
    have hname := hplain _ (List.mem_cons_of_mem _ List.mem_cons_self)
    have htarget {b : UInt8} (hslash : b ≠ slash)
        (h : b ∉ jsonParam rawRequest (lit "old_path"))
        (h' : b ∉ jsonParam rawRequest (lit "new_name")) :
        b ∉ parentPath (jsonParam rawRequest (lit "old_path")) ++
          addSlash (jsonParam rawRequest (lit "new_name")) := by
      rw [List.mem_append, not_or]
      exact ⟨not_mem_parentPath h, not_mem_addSlash hslash h'⟩
    exact settles_rename htidy rawRequest hold.2.1 (htarget (by decide) hold.1 hname.1)
      (htarget (by decide) hold.2.1 hname.2.1) hclear n

/-! ## Runs -/

section Runs

variable {user : Bytes} {store : Store}

/-- One pass is enough, and it leaves a tidy index. -/
theorem request_handled (htidy : Tidy (indexOf user store)) {request : StorageRequest}
    (hplain : request.Plain) (hclear : request.Clear (indexOf user store)) (passes : ℕ) :
    ∃ t, (machine user).step store (request, passes + 1) = some t ∧ Tidy (indexOf user t) := by
  obtain ⟨v, hstore, hends⟩ :=
    (settles_job htidy hplain hclear 0 { store := store } rfl).run (p := request.job user 0) ()
  dsimp only at hstore hends
  dsimp only [machine, runJob]
  cases hrun : (request.job user 0).run (execute ()) store with
  | mk t outcome =>
    rw [hrun] at hstore hends
    dsimp only at hstore hends
    cases outcome with
    | ok pass =>
      obtain ⟨⟨response, rfl⟩, hafter⟩ := hends
      exact ⟨t, rfl, hstore ▸ hafter⟩
    | error e => exact ⟨t, rfl, hstore ▸ hends⟩

/-- A request that is allowed where it comes. -/
def Allowed (user : Bytes) (store : Store) (event : StorageRequest × ℕ) : Prop :=
  event.1.Plain ∧ event.1.Clear (indexOf user store)

instance (user : Bytes) (store : Store) (event : StorageRequest × ℕ) :
    Decidable (Allowed user store event) := inferInstanceAs (Decidable (_ ∧ _))

theorem reaches_tidy {s : Store} (htidy : Tidy (indexOf user store))
    (h : Reaches (machine user) (Allowed user) store s) : Tidy (indexOf user s) := by
  apply h.invariant htidy
  intro t event u ht hallowed hstep
  obtain ⟨request, passes⟩ := event
  cases passes with
  | zero => cases hstep
  | succ passes =>
    obtain ⟨u', hstep', hafter⟩ := request_handled ht hallowed.1 hallowed.2 passes
    obtain rfl := Option.some.inj (hstep.symm.trans hstep')
    exact hafter

/-- From an empty index no path is ever there twice, and every request is handled. -/
theorem paths_distinct {s : Store} (hempty : indexOf user store = [])
    (h : Reaches (machine user) (Allowed user) store s) :
    (paths (indexOf user s)).Nodup ∧ ∀ request : StorageRequest, request.Plain →
      request.Clear (indexOf user s) → ∃ t, (machine user).step s (request, 1) = some t := by
  have htidy := reaches_tidy (hempty ▸ tidy_nil) h
  refine ⟨htidy.distinct, fun request hplain hclear ↦ ?_⟩
  obtain ⟨t, hstep, -⟩ := request_handled htidy hplain hclear 0
  exact ⟨t, hstep⟩

end Runs

/-! ## A day in the drive -/

/-- A raw request with this body. -/
def requestWith (body : String) : Bytes := lit "POST / HTTP/1.1\r\n\r\n" ++ lit body

/-- An upload becomes the file `f/g`, whose folder is renamed to `h`; a new folder `e` is moved to `d`,
beside a second upload that is deleted. -/
def visit : List (StorageRequest × ℕ) := [
  (.uploadFile (requestWith "x"), 1),
  (.moveFile (requestWith "\x7b\"old_path\":\"untitled\",\"target_path\":\"f/g\"\x7d"), 1),
  (.rename (requestWith "\x7b\"old_path\":\"f\",\"new_name\":\"h\",\"type\":\"folder\"\x7d"), 1),
  (.createFolder (requestWith "\x7b\"folderName\":\"e\"\x7d"), 1),
  (.uploadFile (requestWith "y"), 1),
  (.moveFolder (requestWith "\x7b\"old_path\":\"e/\",\"target_path\":\"d\"\x7d"), 1),
  (.deleteFile (requestWith "untitled"), 1),
  (.deleteFolder (requestWith "d/"), 1)]

theorem paths_distinct_visit : ∃ s, Reaches (machine (lit "a")) (Allowed (lit "a")) (fun _ ↦ none) s ∧
    paths (indexOf (lit "a") s) = [lit "h/g", lit "d/"] ∧ (paths (indexOf (lit "a") s)).Nodup := by
  have hrun : (run ((machine (lit "a")).restrict fun s event ↦ decide (Allowed (lit "a") s event))
      (fun _ ↦ none) visit).map
      (fun s ↦ decide (paths (indexOf (lit "a") s) = [lit "h/g", lit "d/"])) = some true := by
    decide +kernel
  have hallowed : ∀ s event, decide (Allowed (lit "a") s event) = true → Allowed (lit "a") s event :=
    fun _ _ ↦ of_decide_eq_true
  obtain ⟨s, hreach, hpaths⟩ := reaches_of_run_restrict hallowed hrun
  exact ⟨s, hreach, of_decide_eq_true hpaths, (paths_distinct rfl hreach).1⟩

/-- Two uploads. -/
theorem uploads_share_path :
    ¬∀ (user : Bytes) (store s : Store), indexOf user store = [] →
      Reaches (machine user) (fun _ event ↦ event.1.Plain) store s →
      (paths (indexOf user s)).Nodup := by
  intro h
  have hrun : (run ((machine (lit "a")).restrict fun _ event ↦ decide event.1.Plain) (fun _ ↦ none)
      [(.uploadFile (requestWith "x"), 1), (.uploadFile (requestWith "y"), 1)]).map
      (fun s ↦ decide (¬(paths (indexOf (lit "a") s)).Nodup)) = some true := by
    decide +kernel
  obtain ⟨s, hreach, htwice⟩ := reaches_of_run_restrict (fun _ _ h ↦ of_decide_eq_true h) hrun
  exact of_decide_eq_true htwice (h (lit "a") _ s rfl hreach)

end PennCloud.Frontend.DistinctPaths
