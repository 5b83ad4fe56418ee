import PennCloud.Frontend.FileEntries

/-!
# Two requests that share an index

A file's move and one other request that updates the same index. What a request may be doing
with chunks follows from the index it has read last; the invariant says that every file of the
present index has its chunks, or is one that a request is moving or deleting. A turn is
one call together with what the caller has to know for it; every turn keeps the invariant.
-/

open PennCloud.Library.Programs PennCloud.Library.RelyGuarantee PennCloud.KV.TabletCells
open PennCloud.Frontend.KVClient PennCloud.Frontend.HttpText PennCloud.Frontend.Storage
open PennCloud.Frontend.StorageIndex PennCloud.Frontend.FileEntries

namespace PennCloud.Frontend.IndexSharing

inductive Update
  | createFolder (rawRequest : Bytes)
  | uploadFile (rawRequest : Bytes)
  | moveFile (rawRequest : Bytes)
  | deleteFile (rawRequest : Bytes)

def oldPath (rawRequest : Bytes) : Bytes := jsonParam rawRequest (lit "old_path")

def targetPath (rawRequest : Bytes) : Bytes := dropSlash (jsonParam rawRequest (lit "target_path"))

namespace Update

def job (user : Bytes) : Update → KVJob Response
  | createFolder rawRequest => handleCreateFolder user rawRequest
  | uploadFile rawRequest => handleUploadFile user rawRequest
  | moveFile rawRequest => handleMoveFile user rawRequest
  | deleteFile rawRequest => handleDeleteFile user rawRequest

/-- The path that the request is about. -/
def path : Update → Bytes
  | createFolder rawRequest => newFolder rawRequest
  | uploadFile _ => lit "untitled"
  | moveFile rawRequest => oldPath rawRequest
  | deleteFile rawRequest => (parseBody rawRequest).2

/-- Having read this index, the request moves or deletes the chunks of the entry. -/
def Takes (request : Update) (index entry : Bytes) : Prop :=
  entry ∈ entries index ∧
    match request with
    | createFolder _ => False
    | uploadFile _ => False
    | moveFile rawRequest => filePath entry = some (oldPath rawRequest) ∧
        ∀ other ∈ split index comma, ¬targetPath rawRequest <+: other
    | deleteFile rawRequest => filePath entry ≠ none ∧ (parseBody rawRequest).2 <+: entry

end Update

/-- A move and another request, of different paths. -/
structure MoveAndOther (requests : Bool → Update) : Prop where
  move : ∃ rawRequest, requests false = .moveFile rawRequest
  different : (requests false).path ≠ (requests true).path

/-- An upload adds an entry whether or not there is one. -/
def Single (requests : Bool → Update) (path : Bytes) : Prop :=
  ∀ i rawRequest, requests i = .uploadFile rawRequest → path ≠ lit "untitled"

/-- No file that is to be moved has a key twice. -/
def DistinctKeys (requests : Bool → Update) (index : Bytes) : Prop :=
  ∀ i rawRequest, requests i = .moveFile rawRequest → ∀ entry ∈ entries index,
    filePath entry = some (oldPath rawRequest) → (fileKeys entry).Nodup

/-! ## What a request has read and replaced -/

section History

variable (user : Bytes)

/-- The last value of the index that a request has read, until it replaces it or gives up. -/
def know (known : Option Bytes) : Call Bool KVOp KVOp.Answer Thrown → Option Bytes
  | ⟨_, .get row col, .ok value⟩ => if (row, col) = indexCell user then some value else known
  | ⟨_, .get row col, .error _⟩ => if (row, col) = indexCell user then some [] else none
  | ⟨_, .cput _ _ _ _, .ok _⟩ => none
  | _ => known

def known (w : KVWorld Bool) (i : Bool) : Option Bytes := (w.calls i).foldl (know user) none

def replaces : Call Bool KVOp KVOp.Answer Thrown → Bool
  | ⟨_, .cput _ _ v1 v2, .ok _⟩ => v1 ≠ v2
  | _ => false

/-- The request has changed the index. -/
def Changed (w : KVWorld Bool) (i : Bool) : Prop := ∃ call ∈ w.calls i, replaces call = true

variable {user} {w : KVWorld Bool} {i : Bool}

/-- The call as it is recorded. -/
abbrev record (w : KVWorld Bool) (i : Bool) (op : KVOp) : Call Bool KVOp KVOp.Answer Thrown where
  caller := i
  op := op
  answer := (execute () op w.store).2

theorem known_answer (op : KVOp) :
    known user (w.answer execute i () op) i = know user (known user w i) (record w i op) := by
  rw [known, World.calls_answer, List.foldl_append]
  rfl

theorem changed_answer (op : KVOp) :
    Changed (w.answer execute i () op) i ↔ Changed w i ∨ replaces (record w i op) = true := by
  unfold Changed
  rw [World.calls_answer]
  simp only [List.mem_append, List.mem_singleton, or_and_right, exists_or, exists_eq_left]

theorem known_answer_of_ne {j : Bool} (h : j ≠ i) (op : KVOp) :
    known user (w.answer execute i () op) j = known user w j := by
  rw [known, World.calls_answer_of_ne execute w h.symm]
  rfl

theorem changed_answer_of_ne {j : Bool} (h : j ≠ i) (op : KVOp) :
    Changed (w.answer execute i () op) j ↔ Changed w j := by
  rw [Changed, World.calls_answer_of_ne execute w h.symm]
  rfl

end History

/-! ## The calls of a handler -/

section Calls

variable {user : Bytes} {w : KVWorld Bool} {i : Bool}

/-- What a call that is neither a reading nor a replacement leaves as it was. -/
theorem known_quiet {op : KVOp} (h : know user (known user w i) (record w i op) = known user w i)
    (j : Bool) : known user (w.answer execute i () op) j = known user w j := by
  by_cases hj : j = i
  · subst hj
    rw [known_answer, h]
  · exact known_answer_of_ne hj op

theorem changed_quiet {op : KVOp} (h : replaces (record w i op) = false) (j : Bool) :
    Changed (w.answer execute i () op) j ↔ Changed w j := by
  by_cases hj : j = i
  · subst hj
    rw [changed_answer, h]
    simp
  · exact changed_answer_of_ne hj op

theorem changed_mono {j : Bool} (op : KVOp) (h : Changed w j) :
    Changed (w.answer execute i () op) j := by
  by_cases hj : j = i
  · subst hj
    exact (changed_answer op).mpr (.inl h)
  · exact (changed_answer_of_ne hj op).mpr h

theorem known_look :
    known user (w.answer execute i () (.get user (lit "storage"))) i =
      some (indexOf user w.store) := by
  rw [known_answer]
  cases hcell : w.store (user, lit "storage") with
  | some index => simp [record, know, execute, hcell, indexOf, indexCell]
  | none => simp [record, know, execute, hcell, indexOf, indexCell]

theorem known_fetch (user path key : Bytes) :
    known user (w.answer execute i () (.get (fileRow user path) key)) i =
      if w.store (fileRow user path, key) = none then none else known user w i := by
  have hne : (fileRow user path, key) ≠ indexCell user :=
    fun h ↦ fileRow_ne_user user path (Prod.mk.inj h).1
  rw [known_answer]
  cases hcell : w.store (fileRow user path, key) with
  | some value => simp [record, know, execute, hcell, hne]
  | none => simp [record, know, execute, hcell, hne]

theorem changed_get (row col : Bytes) (j : Bool) :
    Changed (w.answer execute i () (.get row col)) j ↔ Changed w j := changed_quiet rfl j

theorem known_put (user path key value : Bytes) (j : Bool) :
    known user (w.answer execute i () (.put (fileRow user path) key value)) j = known user w j :=
  known_quiet rfl j

theorem changed_put (path key value : Bytes) (j : Bool) :
    Changed (w.answer execute i () (.put (fileRow user path) key value)) j ↔ Changed w j :=
  changed_quiet rfl j

theorem known_del (user path key : Bytes) (j : Bool) :
    known user (w.answer execute i () (.del (fileRow user path) key)) j = known user w j :=
  known_quiet rfl j

theorem changed_del (path key : Bytes) (j : Bool) :
    Changed (w.answer execute i () (.del (fileRow user path) key)) j ↔ Changed w j :=
  changed_quiet rfl j

section CompareAndSet

variable {v1 : Bytes} (v2 : Bytes)

theorem known_cput_of_eq (h : indexOf user w.store = v1) :
    known user (w.answer execute i () (.cput user (lit "storage") v1 v2)) i = none := by
  have hexecute := execute_cput_of_matches v2 (matches_iff.mpr h)
  rw [known_answer, record, hexecute]
  rfl

theorem known_cput_of_ne (h : indexOf user w.store ≠ v1) (j : Bool) :
    known user (w.answer execute i () (.cput user (lit "storage") v1 v2)) j = known user w j := by
  apply known_quiet
  have hexecute := execute_cput_of_not_matches v2 fun hmatches ↦ h (matches_iff.mp hmatches)
  rw [record, hexecute]
  rfl

theorem changed_cput_of_eq (h : indexOf user w.store = v1) :
    Changed (w.answer execute i () (.cput user (lit "storage") v1 v2)) i ↔
      Changed w i ∨ v1 ≠ v2 := by
  have hexecute := execute_cput_of_matches v2 (matches_iff.mpr h)
  rw [changed_answer, record, hexecute]
  simp [replaces]

theorem changed_cput_of_ne (h : indexOf user w.store ≠ v1) (j : Bool) :
    Changed (w.answer execute i () (.cput user (lit "storage") v1 v2)) j ↔ Changed w j := by
  apply changed_quiet
  have hexecute := execute_cput_of_not_matches v2 fun hmatches ↦ h (matches_iff.mp hmatches)
  rw [record, hexecute]
  rfl

end CompareAndSet

theorem store_get (row col : Bytes) :
    (w.answer execute i () (.get row col)).store = w.store := execute_get_store row col w.store

/-- A cell of a file's row is not that of the index. -/
theorem indexCell_update (path key : Bytes) (value : Option Bytes) (store : Store) :
    Function.update store (fileRow user path, key) value (indexCell user) =
      store (indexCell user) :=
  Function.update_of_ne (fun h ↦ fileRow_ne_user user path (Prod.mk.inj h).1.symm) _ _

end Calls

/-! ## The invariant -/

section Sharing

variable (user : Bytes) (requests : Bool → Update)

/-- The chunks of the entry may be in the hands of this request. -/
def Holds (w : KVWorld Bool) (i : Bool) (entry : Bytes) : Prop :=
  ∃ index, known user w i = some index ∧ (requests i).Takes index entry

structure Inv (w : KVWorld Bool) : Prop where
  stored : ∀ entry ∈ entries (indexOf user w.store),
    Stored user w.store entry ∨ ∃ i, Holds user requests w i entry
  unique : ∀ i entry other path, Holds user requests w i entry →
    other ∈ entries (indexOf user w.store) → filePath entry = some path →
    filePath other = some path → other = entry
  count : ∀ path, Single requests path → fileCount path (indexOf user w.store) ≤ 1
  keys : DistinctKeys requests (indexOf user w.store)
  fresh : ∀ i index, known user w i = some index →
    indexOf user w.store = index ∨ Changed w (!i)
  pending : ∀ i index, known user w i = some index → ¬Changed w i
  present : ∀ i index, known user w i = some index → index ≠ [] →
    w.store (indexCell user) ≠ none

/-- What a request may make of the index. -/
structure Replaces (i : Bool) (store : Store) (v1 v2 : Bytes) : Prop where
  sound : ∀ entry ∈ entries v2, entry ∈ entries v1 ∧ ¬(requests i).Takes v1 entry ∨
    Stored user store entry ∧ ∀ path, filePath entry = some path → Single requests path →
      fileCount path v1 = 0
  count : ∀ path, Single requests path → fileCount path v1 ≤ 1 → fileCount path v2 ≤ 1
  keys : DistinctKeys requests v1 → DistinctKeys requests v2

/-- One call of a request, with what it has to know. -/
inductive Turn (i : Bool) (w : KVWorld Bool) : KVWorld Bool → Prop
  | look (hunchanged : ¬Changed w i)
      (hkept : ∀ entry ∈ entries (indexOf user w.store), Holds user requests w i entry →
        (requests i).Takes (indexOf user w.store) entry) :
      Turn i w (w.answer execute i () (.get user (lit "storage")))
  | fetch (path key : Bytes) (hmove : ∃ rawRequest, requests i = .moveFile rawRequest)
      (hlost : w.store (fileRow user path, key) = none →
        ∀ entry ∈ entries (indexOf user w.store), Holds user requests w i entry →
          Stored user w.store entry ∨ Holds user requests w (!i) entry) :
      Turn i w (w.answer execute i () (.get (fileRow user path) key))
  | put (path key value : Bytes) :
      Turn i w (w.answer execute i () (.put (fileRow user path) key value))
  | erase (entry path key : Bytes) (hholds : Holds user requests w i entry)
      (hpath : filePath entry = some path) :
      Turn i w (w.answer execute i () (.del (fileRow user path) key))
  | replace (v1 v2 : Bytes) (hknown : known user w i = some v1)
      (hreplaces : indexOf user w.store = v1 → Replaces user requests i w.store v1 v2) :
      Turn i w (w.answer execute i () (.cput user (lit "storage") v1 v2))

variable {user requests} {w v : KVWorld Bool} {i : Bool}

theorem MoveAndOther.path_ne (hpair : MoveAndOther requests) {j : Bool} (h : j ≠ i) :
    (requests j).path ≠ (requests i).path := by
  cases i with
  | false =>
    obtain rfl := Bool.eq_true_of_not_eq_false h
    exact hpair.different.symm
  | true =>
    obtain rfl := Bool.eq_false_of_not_eq_true h
    exact hpair.different

/-- The other request is not about the file that this one moves. -/
theorem oldPath_ne (hpair : MoveAndOther requests) {rawRequest rawRequest' : Bytes}
    (h : requests i = .moveFile rawRequest) (h' : requests (!i) = .moveFile rawRequest') :
    oldPath rawRequest' ≠ oldPath rawRequest := by
  have hne := hpair.path_ne (Bool.not_ne_self i)
  rwa [h, h'] at hne

theorem single_oldPath (hpair : MoveAndOther requests) {rawRequest : Bytes}
    (h : requests i = .moveFile rawRequest) : Single requests (oldPath rawRequest) := by
  intro j rawRequest' hupload huntitled
  have hne : i ≠ j := by
    rintro rfl
    cases h.symm.trans hupload
  apply hpair.path_ne hne
  rw [h, hupload]
  exact huntitled

theorem single_of_takes (hpair : MoveAndOther requests) {index entry path : Bytes}
    (h : (requests i).Takes index entry) (hpath : filePath entry = some path) :
    Single requests path := by
  obtain ⟨-, htakes⟩ := h
  cases hrequest : requests i with
  | createFolder rawRequest =>
    rw [hrequest] at htakes
    exact htakes.elim
  | uploadFile rawRequest =>
    rw [hrequest] at htakes
    exact htakes.elim
  | moveFile rawRequest =>
    rw [hrequest] at htakes
    obtain rfl := Option.some.inj (htakes.1.symm.trans hpath)
    exact single_oldPath hpair hrequest
  | deleteFile rawRequest =>
    -- The other request is the move.
    intro j rawRequest' hupload _
    obtain ⟨moved, hmove⟩ := hpair.move
    cases i with
    | false => cases hrequest.symm.trans hmove
    | true =>
      cases j with
      | false => cases hupload.symm.trans hmove
      | true => cases hupload.symm.trans hrequest

theorem filePath_of_takes {rawRequest index entry : Bytes}
    (hrequest : requests i = .moveFile rawRequest) (h : (requests i).Takes index entry) :
    filePath entry = some (oldPath rawRequest) := by
  obtain ⟨-, htakes⟩ := h
  rw [hrequest] at htakes
  exact htakes.1

/-- A turn that leaves the index alone; a request may have read it. -/
theorem Inv.of_same_index (hpair : MoveAndOther requests) (h : Inv user requests w)
    (hcell : v.store (indexCell user) = w.store (indexCell user))
    (hchanged : ∀ j, Changed v j ↔ Changed w j)
    (hknown : ∀ j index, known user v j = some index →
      known user w j = some index ∨ index = indexOf user w.store ∧ ¬Changed w j)
    (hstored : ∀ entry ∈ entries (indexOf user w.store),
      Stored user v.store entry ∨ ∃ j, Holds user requests v j entry) : Inv user requests v := by
  have hindex : indexOf user v.store = indexOf user w.store := by rw [indexOf, indexOf, hcell]
  refine ⟨?_, ?_, ?_, ?_, ?_, ?_, ?_⟩
  · rwa [hindex]
  · rintro j entry other path ⟨index, hread, htakes⟩ hother hpath hpath'
    rw [hindex] at hother
    rcases hknown j index hread with hold | ⟨rfl, -⟩
    · exact h.unique j entry other path ⟨index, hold, htakes⟩ hother hpath hpath'
    · exact eq_of_fileCount (h.count path (single_of_takes hpair htakes hpath)) htakes.1 hother
        hpath hpath'
  · rw [hindex]
    exact h.count
  · rw [hindex]
    exact h.keys
  · intro j index hread
    rw [hindex, hchanged]
    rcases hknown j index hread with hold | ⟨rfl, -⟩
    · exact h.fresh j index hold
    · exact .inl rfl
  · intro j index hread
    rw [hchanged]
    rcases hknown j index hread with hold | ⟨-, hunchanged⟩
    · exact h.pending j index hold
    · exact hunchanged
  · intro j index hread hne
    rw [hcell]
    rcases hknown j index hread with hold | ⟨rfl, -⟩
    · exact h.present j index hold hne
    · intro hnone
      apply hne
      rw [indexOf, hnone]
      rfl

/-- What is read by a request whose index has not been replaced is the present one. -/
theorem Inv.known_eq (h : Inv user requests w) {index : Bytes} (hknown : known user w i = some index)
    (hunchanged : ¬Changed w (!i)) : indexOf user w.store = index :=
  (h.fresh i index hknown).resolve_right hunchanged

/-- Two requests that have both read the index have read the same. -/
theorem Inv.same_known (h : Inv user requests w) {index index' : Bytes}
    (hknown : known user w i = some index) (hknown' : known user w (!i) = some index') :
    indexOf user w.store = index ∧ index' = index := by
  have hindex := h.known_eq hknown (h.pending (!i) index' hknown')
  have hindex' := h.known_eq hknown' (by rw [Bool.not_not]; exact h.pending i index hknown)
  exact ⟨hindex, hindex'.symm.trans hindex⟩

theorem stored_congr {store store' : Store}
    (h : ∀ path key, store' (fileRow user path, key) = store (fileRow user path, key))
    {entry : Bytes} (hstored : Stored user store entry) : Stored user store' entry := by
  intro path key hpath hkey
  rw [h]
  exact hstored path key hpath hkey

theorem store_cput_fileRow (store : Store) (v1 v2 path key : Bytes) :
    (execute () (.cput user (lit "storage") v1 v2) store).1 (fileRow user path, key) =
      store (fileRow user path, key) := by
  have hne : (fileRow user path, key) ≠ (user, lit "storage") :=
    fun h ↦ fileRow_ne_user user path (Prod.mk.inj h).1
  by_cases hmatches : Matches (store (user, lit "storage")) v1
  · have hexecute := execute_cput_of_matches v2 hmatches
    rw [hexecute]
    exact Function.update_of_ne hne _ _
  · have hexecute := execute_cput_of_not_matches v2 hmatches
    rw [hexecute]

theorem Inv.replace (hpair : MoveAndOther requests) (h : Inv user requests w) {v2 : Bytes}
    (hknown : known user w i = some (indexOf user w.store))
    (hreplaces : Replaces user requests i w.store (indexOf user w.store) v2) :
    Inv user requests
      (w.answer execute i () (.cput user (lit "storage") (indexOf user w.store) v2)) := by
  have hmatches : Matches (w.store (indexCell user)) (indexOf user w.store) := matches_iff.mpr rfl
  have hchanged := changed_cput_of_eq (i := i) v2 (Eq.refl (indexOf user w.store))
  have hindex : indexOf user (w.answer execute i ()
      (.cput user (lit "storage") (indexOf user w.store) v2)).store = v2 := indexOf_cput v2 hmatches
  -- Only the other request can still know an index, and it is the one that is replaced.
  have hother : ∀ j index, known user (w.answer execute i ()
      (.cput user (lit "storage") (indexOf user w.store) v2)) j = some index →
      j = !i ∧ known user w j = some index ∧ index = indexOf user w.store := by
    intro j index hread
    by_cases hj : j = i
    · subst hj
      rw [known_cput_of_eq v2 rfl] at hread
      cases hread
    · obtain rfl := Bool.eq_not.mpr hj
      rw [known_answer_of_ne hj] at hread
      exact ⟨rfl, hread, (h.same_known hknown hread).2⟩
  refine ⟨?_, ?_, ?_, ?_, ?_, ?_, ?_⟩
  · rw [hindex]
    intro entry hentry
    have hkeep : ∀ e, Stored user w.store e → Stored user (w.answer execute i ()
        (.cput user (lit "storage") (indexOf user w.store) v2)).store e :=
      fun e ↦ stored_congr fun path key ↦ store_cput_fileRow _ _ _ path key
    rcases hreplaces.sound entry hentry with ⟨hold, hnot⟩ | ⟨hnew, -⟩
    · rcases h.stored entry hold with hstored | ⟨j, index, hread, htakes⟩
      · exact .inl (hkeep entry hstored)
      · by_cases hj : j = i
        · subst hj
          obtain rfl := Option.some.inj (hread.symm.trans hknown)
          exact absurd htakes hnot
        · exact .inr ⟨j, index, (known_answer_of_ne hj _).trans hread, htakes⟩
    · exact .inl (hkeep entry hnew)
  · rintro j entry other path ⟨index, hread, htakes⟩ hin hpath hpath'
    obtain ⟨-, hread, rfl⟩ := hother j index hread
    rw [hindex] at hin
    rcases hreplaces.sound other hin with ⟨hold, -⟩ | ⟨-, hnew⟩
    · exact h.unique j entry other path ⟨_, hread, htakes⟩ hold hpath hpath'
    · have hzero := hnew path hpath' (single_of_takes hpair htakes hpath)
      exact absurd hpath (fileCount_eq_zero_iff.mp hzero entry htakes.1)
  · rw [hindex]
    exact fun path hsingle ↦ hreplaces.count path hsingle (h.count path hsingle)
  · rw [hindex]
    exact hreplaces.keys h.keys
  · intro j index hread
    obtain ⟨rfl, -, rfl⟩ := hother j index hread
    rw [hindex, Bool.not_not, hchanged]
    by_cases heq : indexOf user w.store = v2
    · exact .inl heq.symm
    · exact .inr (.inr heq)
  · intro j index hread
    obtain ⟨rfl, hread, -⟩ := hother j index hread
    rw [changed_answer_of_ne (Bool.not_ne_self i)]
    exact h.pending _ index hread
  · intro j index hread _ hnone
    have hexecute := execute_cput_of_matches v2 hmatches
    rw [World.answer, hexecute] at hnone
    simp [indexCell] at hnone

theorem update_some_ne_none {store : Store} {cell cell' : Bytes × Bytes} (value : Bytes)
    (h : cell ≠ cell' → store cell ≠ none) :
    Function.update store cell' (some value) cell ≠ none := by
  by_cases heq : cell = cell'
  · rw [heq, Function.update_self]
    exact Option.some_ne_none value
  · rw [Function.update_of_ne heq]
    exact h heq

theorem stored_put {store : Store} {entry : Bytes} (h : Stored user store entry)
    (path key value : Bytes) :
    Stored user (Function.update store (fileRow user path, key) (some value)) entry := by
  intro path' key' hpath hkey
  exact update_some_ne_none value fun _ ↦ h path' key' hpath hkey

/-- Only the files of a row lose a chunk in it. -/
theorem stored_del {store : Store} {entry path : Bytes} (h : Stored user store entry)
    (hpath : filePath entry ≠ some path) (key : Bytes) :
    Stored user (Function.update store (fileRow user path, key) none) entry := by
  intro path' key' hpath' hkey
  rw [Function.update_of_ne]
  · exact h path' key' hpath' hkey
  · intro heq
    obtain rfl := fileRow_injective user (Prod.mk.inj heq).1
    exact hpath hpath'

theorem Holds.of_known {j : Bool} {entry : Bytes} (h : Holds user requests w j entry)
    (hknown : known user v j = known user w j) : Holds user requests v j entry := by
  obtain ⟨index, hread, htakes⟩ := h
  exact ⟨index, hknown.trans hread, htakes⟩

/-- Every turn keeps the invariant. -/
theorem Inv.turn (hpair : MoveAndOther requests) (h : Inv user requests w)
    (hturn : Turn user requests i w v) : Inv user requests v := by
  cases hturn with
  | look hunchanged hkept =>
    have hstore := store_get (w := w) (i := i) user (lit "storage")
    apply h.of_same_index hpair (congrFun hstore _) (changed_get user _)
    · intro j index hread
      by_cases hj : j = i
      · subst hj
        rw [known_look] at hread
        exact .inr ⟨(Option.some.inj hread).symm, hunchanged⟩
      · rw [known_answer_of_ne hj] at hread
        exact .inl hread
    · intro entry hentry
      rw [hstore]
      rcases h.stored entry hentry with hstored | ⟨j, hholds⟩
      · exact .inl hstored
      · by_cases hj : j = i
        · subst hj
          exact .inr ⟨j, _, known_look, hkept entry hentry hholds⟩
        · exact .inr ⟨j, hholds.of_known (known_answer_of_ne hj _)⟩
  | fetch path key hmove hlost =>
    have hstore := store_get (w := w) (i := i) (fileRow user path) key
    have hself := known_fetch (w := w) (i := i) user path key
    apply h.of_same_index hpair (congrFun hstore _) (changed_get _ key)
    · intro j index hread
      by_cases hj : j = i
      · subst hj
        rw [hself] at hread
        split at hread
        · cases hread
        · exact .inl hread
      · rw [known_answer_of_ne hj] at hread
        exact .inl hread
    · intro entry hentry
      rw [hstore]
      rcases h.stored entry hentry with hstored | ⟨j, hholds⟩
      · exact .inl hstored
      · by_cases hj : j = i
        · subst hj
          by_cases hnone : w.store (fileRow user path, key) = none
          · rcases hlost hnone entry hentry hholds with hstored | hother
            · exact .inl hstored
            · exact .inr ⟨!j, hother.of_known (known_answer_of_ne (Bool.not_ne_self j) _)⟩
          · rw [if_neg hnone] at hself
            exact .inr ⟨j, hholds.of_known hself⟩
        · exact .inr ⟨j, hholds.of_known (known_answer_of_ne hj _)⟩
  | put path key value =>
    have hknown := known_put (w := w) (i := i) user path key value
    apply h.of_same_index hpair (indexCell_update path key _ w.store) (changed_put path key value)
    · exact fun j index hread ↦ .inl ((hknown j).symm.trans hread)
    · intro entry hentry
      rcases h.stored entry hentry with hstored | ⟨j, hholds⟩
      · exact .inl (stored_put hstored path key value)
      · exact .inr ⟨j, hholds.of_known (hknown j)⟩
  | erase held path key hholds hpath =>
    have hknown := known_del (w := w) (i := i) user path key
    apply h.of_same_index hpair (indexCell_update path key none w.store) (changed_del path key)
    · exact fun j index hread ↦ .inl ((hknown j).symm.trans hread)
    · intro entry hentry
      rcases h.stored entry hentry with hstored | ⟨j, hother⟩
      · by_cases hsame : filePath entry = some path
        · obtain rfl := h.unique i held entry path hholds hentry hpath hsame
          exact .inr ⟨i, hholds.of_known (hknown i)⟩
        · exact .inl (stored_del hstored hsame key)
      · exact .inr ⟨j, hother.of_known (hknown j)⟩
  | replace v1 v2 hknown hreplaces =>
    by_cases heq : indexOf user w.store = v1
    · subst heq
      exact h.replace hpair hknown (hreplaces rfl)
    · have hstore := store_cput_of_not v2 fun hmatches ↦ heq (matches_iff.mp hmatches)
      have hsame := known_cput_of_ne (i := i) v2 heq
      apply h.of_same_index hpair (congrFun hstore _) (changed_cput_of_ne v2 heq)
      · exact fun j index hread ↦ .inl ((hsame j).symm.trans hread)
      · intro entry hentry
        rw [World.answer, hstore]
        rcases h.stored entry hentry with hstored | ⟨j, hholds⟩
        · exact .inl hstored
        · exact .inr ⟨j, hholds.of_known (hsame j)⟩

/-! ## What a turn leaves to the other request -/

theorem Turn.exists_op (h : Turn user requests i w v) :
    ∃ op, v = w.answer execute i () op := by
  cases h with
  | look => exact ⟨_, rfl⟩
  | fetch => exact ⟨_, rfl⟩
  | put => exact ⟨_, rfl⟩
  | erase => exact ⟨_, rfl⟩
  | replace => exact ⟨_, rfl⟩

theorem Turn.known_of_ne (h : Turn user requests i w v) {j : Bool} (hj : j ≠ i) :
    known user v j = known user w j := by
  obtain ⟨op, rfl⟩ := h.exists_op
  exact known_answer_of_ne hj op

theorem Turn.changed_of_ne (h : Turn user requests i w v) {j : Bool} (hj : j ≠ i) :
    Changed v j ↔ Changed w j := by
  obtain ⟨op, rfl⟩ := h.exists_op
  exact changed_answer_of_ne hj op

theorem Turn.changed_mono (h : Turn user requests i w v) {j : Bool} (hchanged : Changed w j) :
    Changed v j := by
  obtain ⟨op, rfl⟩ := h.exists_op
  exact IndexSharing.changed_mono op hchanged

/-- A request changes the index once. -/
theorem Turn.index_of_changed (hinv : Inv user requests w) (h : Turn user requests i w v)
    (hchanged : Changed w i) : indexOf user v.store = indexOf user w.store := by
  cases h with
  | look => rw [store_get]
  | fetch path key => rw [store_get]
  | put path key value => exact indexOf_update_of_ne (fileRow_ne_user user path) _ key _
  | erase _ path key => exact indexOf_update_of_ne (fileRow_ne_user user path) _ key none
  | replace v1 v2 hknown => exact absurd hchanged (hinv.pending i v1 hknown)

/-- A chunk disappears from the row of a file that the request holds. -/
theorem Turn.cell_of_ne_none (h : Turn user requests i w v) {path key : Bytes}
    (hcell : w.store (fileRow user path, key) ≠ none) :
    v.store (fileRow user path, key) ≠ none ∨ ∃ entry, filePath entry = some path ∧
      Holds user requests w i entry ∧ Holds user requests v i entry := by
  cases h with
  | look => exact .inl (by rwa [store_get])
  | fetch path' key' => exact .inl (by rwa [store_get])
  | put path' key' value => exact .inl (update_some_ne_none value fun _ ↦ hcell)
  | erase entry path' key' hholds hpath =>
    by_cases hsame : path = path'
    · subst hsame
      exact .inr ⟨entry, hpath, hholds, hholds.of_known (known_del user path key' i)⟩
    · left
      have hne : (fileRow user path, key) ≠ (fileRow user path', key') :=
        fun heq ↦ hsame (fileRow_injective user (Prod.mk.inj heq).1)
      intro hnone
      exact hcell ((Function.update_of_ne hne _ _).symm.trans hnone)
  | replace v1 v2 =>
    left
    intro hnone
    exact hcell ((store_cput_fileRow _ v1 v2 path key).symm.trans hnone)

/-- A file that a request is deleting stays in its hands until the index names it no more. -/
theorem Turn.holds_or_gone (hpair : MoveAndOther requests) (hinv : Inv user requests w)
    (h : Turn user requests i w v) {entry path : Bytes} (hholds : Holds user requests w i entry)
    (hin : entry ∈ entries (indexOf user w.store)) (hpath : filePath entry = some path)
    (hnot : ∀ rawRequest, requests i = .moveFile rawRequest → oldPath rawRequest ≠ path) :
    Holds user requests v i entry ∨
      Changed v i ∧ fileCount path (indexOf user v.store) = 0 := by
  obtain ⟨index, hread, htakes⟩ := hholds
  cases h with
  | look _ hkept => exact .inl ⟨_, known_look, hkept entry hin ⟨index, hread, htakes⟩⟩
  | fetch path' key hmove =>
    obtain ⟨rawRequest, hmove⟩ := hmove
    have hold := (filePath_of_takes hmove htakes).symm.trans hpath
    exact absurd (Option.some.inj hold) (hnot rawRequest hmove)
  | put path' key value => exact .inl ⟨index, (known_put user path' key value i).trans hread, htakes⟩
  | erase _ path' key => exact .inl ⟨index, (known_del user path' key i).trans hread, htakes⟩
  | replace v1 v2 hknown hreplaces =>
    obtain rfl := Option.some.inj (hread.symm.trans hknown)
    by_cases heq : indexOf user w.store = index
    · have hreplaces := hreplaces heq
      rw [heq] at hin
      have hgone : fileCount path v2 = 0 := by
        rw [fileCount_eq_zero_iff]
        intro other hother hpath'
        rcases hreplaces.sound other hother with ⟨hold, hkept⟩ | ⟨-, hnew⟩
        · rw [← heq] at hold
          obtain rfl := hinv.unique i entry other path ⟨index, hread, htakes⟩ hold hpath hpath'
          exact hkept htakes
        · have hzero := hnew path hpath' (single_of_takes hpair htakes hpath)
          exact fileCount_eq_zero_iff.mp hzero entry hin hpath
      have hne : index ≠ v2 := by
        rintro rfl
        exact fileCount_eq_zero_iff.mp hgone entry hin hpath
      right
      rw [changed_cput_of_eq v2 heq, World.answer, indexOf_cput v2 (matches_iff.mpr heq)]
      exact ⟨.inr hne, hgone⟩
    · exact .inl ⟨index, (known_cput_of_ne v2 heq i).trans hread, htakes⟩

end Sharing

end PennCloud.Frontend.IndexSharing
