import PennCloud.Library.Sessions
import PennCloud.Library.Transducer
import PennCloud.Frontend.Access
import PennCloud.Frontend.FileSystemMoves

/-!
# Users and their drives

Every user has one request after the other handled, and the requests of different users interleave
call by call. A user who asks only for the drive gets the answers of a file system, whatever mail,
storage and account requests the others send in the meantime: what they call is in other rows.
-/

open PennCloud.Library.CppString PennCloud.Library.Programs PennCloud.Library.Runs
open PennCloud.Library.Sessions
open PennCloud.KV.TabletCells PennCloud.Frontend.KVClient PennCloud.Frontend.HttpText
open PennCloud.Frontend.Storage PennCloud.Frontend.Access PennCloud.Frontend.FileSystem

namespace PennCloud.Frontend.DriveSessions

/-! ## Calls on other rows -/

/-- The cell that a call is about. -/
def cellOf : KVOp → Bytes × Bytes
  | .get row col => (row, col)
  | .put row col _ => (row, col)
  | .cput row col _ _ => (row, col)
  | .del row col => (row, col)

theorem row_cellOf (op : KVOp) : (cellOf op).1 = op.row := by
  cases op with
  | get row col => rfl
  | put row col data => rfl
  | cput row col v1 v2 => rfl
  | del row col => rfl

theorem execute_of_ne (op : KVOp) (store : Store) {cell : Bytes × Bytes} (h : cell ≠ cellOf op) :
    (execute () op store).1 cell = store cell := by
  cases op with
  | get row col =>
    simp only [execute]
    split
    · rfl
    · rfl
  | put row col data => exact Function.update_of_ne h _ _
  | cput row col v1 v2 =>
    simp only [execute]
    split
    · split
      · exact Function.update_of_ne h _ _
      · rfl
    · split
      · exact Function.update_of_ne h _ _
      · rfl
  | del row col => exact Function.update_of_ne h _ _

theorem update_cell (s t : Store) (cell : Bytes × Bytes) (value : Option Bytes) :
    Function.update t cell value cell = Function.update s cell value cell := by
  rw [Function.update_self, Function.update_self]

/-- A call depends on its cell only. -/
theorem execute_congr (op : KVOp) {s t : Store} (h : t (cellOf op) = s (cellOf op)) :
    (execute () op t).1 (cellOf op) = (execute () op s).1 (cellOf op) ∧
      (execute () op t).2 = (execute () op s).2 := by
  cases op with
  | get row col =>
    replace h : t (row, col) = s (row, col) := h
    cases hcell : s (row, col) with
    | none => simp only [execute, cellOf, h, hcell, and_self]
    | some value => simp only [execute, cellOf, h, hcell, and_self]
  | put row col data => exact ⟨update_cell s t _ _, rfl⟩
  | cput row col v1 v2 =>
    replace h : t (row, col) = s (row, col) := h
    by_cases hmatches : Matches (s (row, col)) v1
    · rw [execute_cput_of_matches v2 hmatches, execute_cput_of_matches v2 (h ▸ hmatches)]
      exact ⟨update_cell s t _ _, rfl⟩
    · rw [execute_cput_of_not_matches v2 hmatches, execute_cput_of_not_matches v2 (h ▸ hmatches), h]
      exact ⟨h, rfl⟩
  | del row col => exact ⟨update_cell s t _ _, rfl⟩

/-- The user's own rows hold the same. -/
def Same (user : Bytes) (s t : Store) : Prop := ∀ cell, OwnRow user cell.1 → t cell = s cell

/-- Users whose rows are apart. -/
theorem apart_users {ι : Type} {user : ι → Bytes}
    (h : ∀ i j, i ≠ j → Access.Apart (user i) (user j)) :
    Library.Sessions.Apart (execute ()) (fun i ↦ Own (user i)) fun i ↦ Same (user i) where
  refl := fun _ _ _ _ ↦ rfl
  trans := fun _ _ _ _ hst htu cell hcell ↦ (htu cell hcell).trans (hst cell hcell)
  own := by
    intro i op s t hown hsame
    have hcell := hsame (cellOf op) (by rwa [row_cellOf])
    obtain ⟨hstore, hanswer⟩ := execute_congr op hcell
    refine ⟨fun cell howned ↦ ?_, hanswer.symm⟩
    by_cases hc : cell = cellOf op
    · rw [hc, hstore]
    · rw [execute_of_ne op t hc, execute_of_ne op s hc]
      exact hsame cell howned
  others := by
    intro i j op s hne hown cell howned
    apply execute_of_ne
    rintro rfl
    rw [row_cellOf] at howned
    exact not_ownRow_of_apart (h j i hne) hown howned

/-! ## Requests for a drive -/

/-- The request as the frontend passes it on. -/
def asked (user : Bytes) : DriveRequest → Asked
  | .viewFile => .request user .viewFile [] []
  | .downloadFile url => .request user .downloadFile [] url
  | .uploadFile rawRequest => .request user .uploadFile rawRequest []
  | .createFolder rawRequest => .request user .createFolder rawRequest []
  | .moveFile rawRequest => .request user .moveFile rawRequest []
  | .moveFolder rawRequest => .request user .moveFolder rawRequest []
  | .deleteFile rawRequest => .request user .deleteFile rawRequest []
  | .deleteFolder rawRequest => .request user .deleteFolder rawRequest []

theorem job_asked (user : Bytes) (request : DriveRequest) :
    (asked user request).job = request.job user := by
  cases request with
  | viewFile => rfl
  | downloadFile url => rfl
  | uploadFile rawRequest => rfl
  | createFolder rawRequest => rfl
  | moveFile rawRequest => rfl
  | moveFolder rawRequest => rfl
  | deleteFile rawRequest => rfl
  | deleteFolder rawRequest => rfl

/-- Every request is one that the file system allows when its turn comes. -/
def Permitted : List Node → List DriveRequest → Prop
  | _, [] => True
  | files, request :: rest => request.Allowed files ∧ Permitted (respond files request).1 rest

instance decidablePermitted : (files : List Node) → (requests : List DriveRequest) →
    Decidable (Permitted files requests)
  | _, [] => inferInstanceAs (Decidable True)
  | files, request :: rest =>
    have := decidablePermitted (respond files request).1 rest
    inferInstanceAs (Decidable (_ ∧ _))

/-- The run lemma: a user alone gets the answers of the file system. -/
theorem serve_asked {user : Bytes} {store : Store} {files : List Node} {requests : List DriveRequest}
    (h : Shows user store files) (hpermitted : Permitted files requests) :
    ∃ after, serve (execute ()) Asked.job 1 (requests.map (asked user)) store =
        some (after, (Library.Transducer.run respond files requests).2) ∧
      Shows user after (Library.Transducer.run respond files requests).1 := by
  induction requests generalizing store files with
  | nil => exact ⟨store, rfl, h⟩
  | cons request rest ih =>
    obtain ⟨hallowed, hrest⟩ := hpermitted
    obtain ⟨t, hjob, hshows⟩ := h.respond hallowed
    obtain ⟨after, hserve, hafter⟩ := ih hshows hrest
    refine ⟨after, ?_, hafter⟩
    rw [List.map_cons, serve, job_asked, hjob]
    simp only [Option.bind_eq_bind, Option.bind_some, hserve]
    rfl

/-- What the rows of others hold does not matter. -/
theorem shows_of_same {user : Bytes} {s t : Store} {files : List Node} (h : Shows user s files)
    (hsame : Same user s t) : Shows user t files := by
  apply h.congr
  rintro cell (hrow | ⟨path, hrow⟩)
  · exact hsame cell (hrow ▸ ownRow_self user)
  · exact hsame cell (hrow ▸ ownRow_fileRow user path)

/-- In every interleaving a user has got the first of the answers that the file system gives, can go
on until a fixed number of own steps is done, and has then got all of them. -/
theorem drive_is_file_system {ι : Type} [DecidableEq ι] {user : ι → Bytes}
    (hapart : ∀ i j, i ≠ j → Access.Apart (user i) (user j)) {sessions : ι → List Asked}
    (hown : ∀ i, ∀ request ∈ sessions i, request.user = user i) {i : ι} {requests : List DriveRequest}
    (hdrive : sessions i = requests.map (asked (user i))) {store : Store} {files : List Node}
    (hshows : Shows (user i) store files) (hpermitted : Permitted files requests) :
    ∃ n, ∀ events s, run (together (execute ()) Asked.job) (.start sessions store) events = some s →
      (s.clients i).answers <+: (Library.Transducer.run respond files requests).2 ∧
      events.count i ≤ n ∧
      (events.count i < n → ((together (execute ()) Asked.job).step s i).isSome) ∧
      (events.count i = n →
        (s.clients i).answers = (Library.Transducer.run respond files requests).2 ∧
        Shows (user i) s.store (Library.Transducer.run respond files requests).1) := by
  obtain ⟨after, hserve, hafter⟩ := serve_asked hshows hpermitted
  rw [← hdrive] at hserve
  have hjobs : ∀ j, ∀ request ∈ sessions j, ∀ n, (request.job n).Only (Own (user j)) := by
    intro j request hmem n
    rw [← hown j request hmem]
    exact asked_only request n
  obtain ⟨n, hn⟩ := answers_alone (apart_users hapart) hjobs hserve
  refine ⟨n, fun events s hrun ↦ ?_⟩
  obtain ⟨hfirst, hle, hgoes, hall⟩ := hn events s hrun
  refine ⟨hfirst, hle, hgoes, fun heq ↦ ?_⟩
  obtain ⟨hanswers, hsame⟩ := hall heq
  exact ⟨hanswers, shows_of_same hafter hsame⟩

/-! ## Two users -/

/-- An upload becomes a file of a folder, which is moved with it, read and deleted. -/
def visit : List DriveRequest := [
  .uploadFile (withBody (lit "hello")),
  .createFolder (withBody (lit "\x7b\"folderName\":\"docs\"\x7d")),
  .moveFile (withBody (lit "\x7b\"old_path\":\"untitled\",\"target_path\":\"docs/x\"\x7d")),
  .moveFolder (withBody (lit "\x7b\"old_path\":\"docs/\",\"target_path\":\"d\"\x7d")),
  .downloadFile (lit "/downloadfile?path=d/x"),
  .deleteFile (withBody (lit "d/x")),
  .viewFile]

/-- The contents of the answers. -/
def contents (answers : List (Except Thrown Response)) : List (Option Bytes) :=
  answers.map fun answer ↦ answer.toOption.map Response.content

def visitContents : List (Option Bytes) :=
  ["Successfully uploaded file", "Folder created", "Successfully moved file",
    "Successfully moved folder", "hello", "File deleted", "d/"].map fun text ↦ some (lit text)

def userOf : Bool → Bytes
  | true => lit "a"
  | false => lit "b"

/-- The other user logs in and looks at an inbox. -/
def visitors : Bool → List Asked
  | true => visit.map (asked (lit "a"))
  | false => [.account [] ∅ (withBody (lit "username=b&password=x")) (lit "/login"),
      .request (lit "b") (.getWebmail (lit "inbox")) [] []]

theorem drive_is_file_system_visit : ∃ n, ∀ events s,
    run (together (execute ()) Asked.job) (.start visitors fun _ ↦ none) events = some s →
      contents (s.clients true).answers <+: visitContents ∧
      (events.count true = n → contents (s.clients true).answers = visitContents) := by
  have hapart : ∀ i j, i ≠ j → Access.Apart (userOf i) (userOf j) := by
    have hab : Access.Apart (lit "a") (lit "b") := ⟨by decide, by decide, by decide⟩
    have hba : Access.Apart (lit "b") (lit "a") := ⟨by decide, by decide, by decide⟩
    intro i j hne
    cases i with
    | true => cases j with
      | true => exact absurd rfl hne
      | false => exact hab
    | false => cases j with
      | true => exact hba
      | false => exact absurd rfl hne
  have hown : ∀ i, ∀ request ∈ visitors i, request.user = userOf i := by decide +kernel
  have hempty : Shows (userOf true) (fun _ ↦ none) [] :=
    ⟨List.forall_mem_nil _, List.nodup_nil, rfl, List.forall_mem_nil _, fun _ ↦ rfl⟩
  have hpermitted : Permitted [] visit := by decide +kernel
  have hanswers : contents (Library.Transducer.run respond [] visit).2 = visitContents := by
    decide +kernel
  obtain ⟨n, hn⟩ := drive_is_file_system hapart hown rfl hempty hpermitted
  refine ⟨n, fun events s hrun ↦ ?_⟩
  obtain ⟨hfirst, -, -, hall⟩ := hn events s hrun
  rw [← hanswers]
  exact ⟨hfirst.map _, fun heq ↦ congrArg contents (hall heq).1⟩

end PennCloud.Frontend.DriveSessions
