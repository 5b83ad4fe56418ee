import PennCloud.Frontend.IndexSharing

/-!
# The turns of a request

New folders, uploads and deletions of files call nothing but turns, and where a pass ends no chunk is
in their hands, or there is another pass after a change of the index by the other request. The
calls of all requests are under one condition, which is about folders and moves.
-/

open PennCloud.Library.Programs PennCloud.Library.RelyGuarantee
open PennCloud.KV.TabletCells PennCloud.Frontend.KVClient PennCloud.Frontend.HttpText
open PennCloud.Frontend.Storage PennCloud.Frontend.StorageIndex PennCloud.Frontend.FileEntries
open PennCloud.Frontend.IndexSharing

namespace PennCloud.Frontend.IndexRequests

/-- Where a compare-and-set of the request may be called. A move that has compared an index with its
file finds that index, and the target is a plain path, or the file is no longer there. -/
def Careful (user : Bytes) (request : Update) (op : KVOp) (w : KVWorld Bool) : Prop :=
  ∀ v1 v2, op = .cput user (lit "storage") v1 v2 →
    match request with
    | .createFolder rawRequest => indexOf user w.store = v1 → colon ∉ newFolder rawRequest
    | .moveFile rawRequest => fileCount (oldPath rawRequest) v1 ≠ 0 →
        if indexOf user w.store = v1 then
          comma ∉ targetPath rawRequest ∧ colon ∉ targetPath rawRequest
        else
          fileCount (oldPath rawRequest) (indexOf user w.store) = 0
    | .uploadFile _ => True
    | .deleteFile _ => True

section Requests

variable (user : Bytes) (requests : Bool → Update)

abbrev contract (i : Bool) : Contract Bool KVOp KVOp.Answer Thrown Store :=
  turns (Careful user (requests i)) (Turn user requests) i

/-- No chunk is in the hands of the request. -/
structure Released (i : Bool) (w : KVWorld Bool) : Prop where
  inv : Inv user requests w
  holds : ∀ entry, ¬Holds user requests w i entry

/-- Before a pass; a file that a failed pass has moved is not in the index. -/
structure Ready (i : Bool) (w : KVWorld Bool) : Prop where
  inv : Inv user requests w
  unchanged : ¬Changed w i
  gone : ∀ rawRequest, requests i = .moveFile rawRequest → ∀ entry, Holds user requests w i entry →
    Changed w (!i) ∧ fileCount (oldPath rawRequest) (indexOf user w.store) = 0

/-- The index has been read; after a change by the other request it does not change again. -/
structure Seen (late : Prop) (i : Bool) (index : Bytes) (w : KVWorld Bool) : Prop where
  inv : Inv user requests w
  known : known user w i = some index
  settled : late → Changed w (!i) ∧ indexOf user w.store = index

/-- What can end a pass: a mismatch after a change by the other request, or another error. -/
def Failed (late : Prop) (i : Bool) (e : Thrown) (w : KVWorld Bool) : Prop :=
  if e = .kvNoMatch then ¬late ∧ Ready user requests i w ∧ Changed w (!i)
  else e.isKVError = true → Released user requests i w

/-- At the end of a pass. -/
def AtEnd (i : Bool) : Pass Response → KVWorld Bool → Prop
  | .again n, w => Ready user requests i w ∧ (n ≠ 0 → Changed w (!i)) ∧ n ≤ 1
  | .done _, w => Released user requests i w

variable {user requests} (hpair : MoveAndOther requests) {i : Bool} {w : KVWorld Bool}
  {late : Prop} {index : Bytes}

include hpair

omit hpair in
/-- A request that takes no entry holds none. -/
theorem released_of_not_takes (hinv : Inv user requests w)
    (hnothing : ∀ index entry, ¬(requests i).Takes index entry) : Released user requests i w :=
  ⟨hinv, fun entry ⟨index, _, htakes⟩ ↦ hnothing index entry htakes⟩

omit hpair in
theorem failed_of_not_isKVError {e : Thrown} (h : e.isKVError = false) :
    Failed user requests late i e w := by
  have hne : e ≠ .kvNoMatch := by
    rintro rfl
    exact Bool.noConfusion h
  rw [Failed, if_neg hne]
  exact fun hkv ↦ absurd (h.symm.trans hkv) Bool.false_ne_true

theorem lasting_released (h : Released user requests i w) :
    Lasting (contract user requests i) i (Released user requests i) w := by
  apply lasting_turns ?_ h
  intro j w v hj hturn h
  refine ⟨h.inv.turn hpair hturn, fun entry hholds ↦ ?_⟩
  exact h.holds entry (hholds.of_known (hturn.known_of_ne hj.symm).symm)

theorem lasting_ready (h : Ready user requests i w) :
    Lasting (contract user requests i) i (Ready user requests i) w := by
  apply lasting_turns ?_ h
  intro j w v hj hturn h
  refine ⟨h.inv.turn hpair hturn, ?_, ?_⟩
  · rw [hturn.changed_of_ne hj.symm]
    exact h.unchanged
  · intro rawRequest hmove entry hholds
    obtain ⟨hchanged, hgone⟩ :=
      h.gone rawRequest hmove entry (hholds.of_known (hturn.known_of_ne hj.symm).symm)
    obtain rfl := Bool.eq_not.mpr hj
    refine ⟨hturn.changed_mono hchanged, ?_⟩
    rw [hturn.index_of_changed h.inv hchanged]
    exact hgone

theorem Seen.turn {j : Bool} {v : KVWorld Bool} (h : Seen user requests late i index w)
    (hj : j ≠ i) (hturn : Turn user requests j w v) : Seen user requests late i index v := by
  refine ⟨h.inv.turn hpair hturn, (hturn.known_of_ne hj.symm).trans h.known, fun hlate ↦ ?_⟩
  obtain ⟨hchanged, hindex⟩ := h.settled hlate
  obtain rfl := Bool.eq_not.mpr hj
  exact ⟨hturn.changed_mono hchanged, (hturn.index_of_changed h.inv hchanged).trans hindex⟩

theorem lasting_seen (h : Seen user requests late i index w) :
    Lasting (contract user requests i) i (Seen user requests late i index) w :=
  lasting_turns (fun _ _ _ hj hturn h ↦ Seen.turn hpair h hj hturn) h

/-- A call of the request itself that does not touch the index. -/
theorem Seen.own {op : KVOp} (h : Seen user requests late i index w)
    (hturn : Turn user requests i w (w.answer execute i () op))
    (hknown : IndexSharing.known user (w.answer execute i () op) i = IndexSharing.known user w i)
    (hindex : indexOf user (w.answer execute i () op).store = indexOf user w.store) :
    Seen user requests late i index (w.answer execute i () op) := by
  refine ⟨h.inv.turn hpair hturn, hknown.trans h.known, fun hlate ↦ ?_⟩
  obtain ⟨hchanged, hsettled⟩ := h.settled hlate
  exact ⟨changed_mono op hchanged, hindex.trans hsettled⟩

theorem lasting_failed {e : Thrown} (h : Failed user requests late i e w) :
    Lasting (contract user requests i) i (Failed user requests late i e) w := by
  unfold Failed at h
  split at h
  · next he =>
    have hready := lasting_ready hpair h.2.1
    have hchanged : Lasting (contract user requests i) i (fun v ↦ Changed v (!i)) w :=
      lasting_turns (fun _ _ _ _ hturn ↦ hturn.changed_mono) h.2.2
    intro v hv
    rw [Failed, if_pos he]
    exact ⟨h.1, hready v hv, hchanged v hv⟩
  · next he =>
    intro v hv
    rw [Failed, if_neg he]
    exact fun hkv ↦ lasting_released hpair (h hkv) v hv

/-! ## Reading and replacing the index -/

omit hpair in
theorem Ready.look (h : Ready user requests i w) :
    Turn user requests i w (w.answer execute i () (.get user (lit "storage"))) := by
  apply Turn.look h.unchanged
  intro entry hentry hholds
  have hholds' := hholds
  obtain ⟨index, hknown, -, htakes⟩ := hholds
  refine ⟨hentry, ?_⟩
  cases hrequest : requests i with
  | createFolder rawRequest =>
    rw [hrequest] at htakes
    exact htakes
  | uploadFile rawRequest =>
    rw [hrequest] at htakes
    exact htakes
  | moveFile rawRequest =>
    rw [hrequest] at htakes
    have hgone := (h.gone rawRequest hrequest entry hholds').2
    exact absurd htakes.1 (fileCount_eq_zero_iff.mp hgone entry hentry)
  | deleteFile rawRequest =>
    rw [hrequest] at htakes
    exact htakes

theorem Ready.seen (h : Ready user requests i w) (hlate : late → Changed w (!i)) :
    Seen user requests late i (indexOf user w.store)
      (w.answer execute i () (.get user (lit "storage"))) := by
  refine ⟨h.inv.turn hpair h.look, known_look, fun hl ↦ ⟨changed_mono _ (hlate hl), ?_⟩⟩
  rw [store_get]

theorem meets_look {E : Thrown → KVWorld Bool → Prop}
    (h : Lasting (contract user requests i) i
      (fun v ↦ Ready user requests i v ∧ (late → Changed v (!i))) w) :
    Meets execute (contract user requests i) i (Seen user requests late i) E
      (getdefault user (lit "storage") []) w := by
  apply meets_getIndex
  intro v hv _
  obtain ⟨hready, hlate⟩ := h v hv
  exact ⟨hready.look, lasting_seen hpair (hready.seen hpair hlate)⟩

omit hpair in
/-- A comparison fails after a change by the other request only. -/
theorem ready_of_mismatch (h : Seen user requests late i index w) {v2 : Bytes}
    (hcareful : Careful user (requests i) (.cput user (lit "storage") index v2) w)
    (hne : indexOf user w.store ≠ index) :
    ¬late ∧ Ready user requests i w ∧ Changed w (!i) := by
  have hchanged := (h.inv.fresh i index h.known).resolve_left hne
  refine ⟨fun hlate ↦ hne (h.settled hlate).2, ⟨h.inv, h.inv.pending i index h.known, ?_⟩, hchanged⟩
  rintro rawRequest hmove entry ⟨index', hknown, htakes⟩
  obtain rfl := Option.some.inj (hknown.symm.trans h.known)
  have hcase := hcareful index' v2 rfl
  obtain ⟨hentry, hpath⟩ := htakes
  simp only [hmove] at hcase hpath
  refine ⟨hchanged, ?_⟩
  have hnamed : fileCount (oldPath rawRequest) index' ≠ 0 :=
    fun hzero ↦ fileCount_eq_zero_iff.mp hzero entry hentry hpath.1
  simpa only [if_neg hne] using hcase hnamed

theorem meets_replace {v2 : Bytes}
    (hseen : Lasting (contract user requests i) i (Seen user requests late i index) w)
    (hreplaces : ∀ v, (contract user requests i).Others i w v →
      Careful user (requests i) (.cput user (lit "storage") index v2) v →
      indexOf user v.store = index → Replaces user requests i v.store index v2) :
    Meets execute (contract user requests i) i (fun _ ↦ Released user requests i)
      (Failed user requests late i) (cput user (lit "storage") index v2) w := by
  apply meets_cputIndex
  intro v hv hcareful
  have hnow := hseen v hv
  have hturn : Turn user requests i v
      (v.answer execute i () (.cput user (lit "storage") index v2)) :=
    .replace index v2 hnow.known (hreplaces v hv hcareful)
  have hinv := hnow.inv.turn hpair hturn
  refine ⟨hturn, ?_⟩
  by_cases heq : indexOf user v.store = index
  · rw [if_pos (matches_iff.mpr heq)]
    apply lasting_released hpair
    refine ⟨hinv, fun entry hholds ↦ ?_⟩
    obtain ⟨index', hknown, -⟩ := hholds
    rw [known_cput_of_eq v2 heq] at hknown
    cases hknown
  · rw [if_neg fun hmatches ↦ heq (matches_iff.mp hmatches)]
    apply lasting_failed hpair
    -- The cell exists, since the value that has been read is not that of a missing one.
    have hthere : v.store (indexCell user) ≠ none := by
      intro hnone
      apply heq
      have hempty : indexOf user v.store = [] := by
        rw [indexOf, hnone]
        rfl
      by_contra hne
      exact hnow.inv.present i index hnow.known (fun hnil ↦ hne (hempty.trans hnil.symm)) hnone
    have hthrown : mismatch (v.store (indexCell user)) = .kvNoMatch := by
      rw [mismatch, if_pos (Option.isSome_iff_ne_none.mpr hthere)]
    rw [hthrown, Failed, if_pos rfl]
    have hstore : (v.answer execute i () (.cput user (lit "storage") index v2)).store = v.store :=
      store_cput_of_not v2 fun hmatches ↦ heq (matches_iff.mp hmatches)
    have hseen' : Seen user requests late i index
        (v.answer execute i () (.cput user (lit "storage") index v2)) := by
      refine ⟨hinv, (known_cput_of_ne v2 heq i).trans hnow.known, fun hlate ↦ ?_⟩
      exact absurd (hnow.settled hlate).2 heq
    have hsame : Careful user (requests i) (.cput user (lit "storage") index v2) v := hcareful
    have hcareful' : Careful user (requests i) (.cput user (lit "storage") index v2)
        (v.answer execute i () (.cput user (lit "storage") index v2)) := by
      unfold Careful at hsame ⊢
      rwa [hstore]
    exact ready_of_mismatch hseen' hcareful' (by rwa [hstore])

/-! ## Creating a folder -/

omit hpair in
theorem takes_createFolder {rawRequest : Bytes} (hrequest : requests i = .createFolder rawRequest)
    {entry : Bytes} : ¬(requests i).Takes index entry := by
  rw [hrequest]
  exact fun h ↦ h.2

theorem replaces_append (hnothing : ∀ entry, ¬(requests i).Takes index entry) {store : Store}
    {entry : Bytes}
    (hnew : ∀ piece ∈ entries entry, Stored user store piece ∧
      ∀ path, filePath piece = some path → ¬Single requests path) :
    Replaces user requests i store index (appendEntry index entry) := by
  refine ⟨?_, ?_, ?_⟩
  · rw [entries_appendEntry]
    intro piece hpiece
    rcases List.mem_append.mp hpiece with hold | hin
    · exact .inl ⟨hold, hnothing piece⟩
    · refine .inr ⟨(hnew piece hin).1, fun path hpath hsingle ↦ ?_⟩
      exact absurd hsingle ((hnew piece hin).2 path hpath)
  · intro path hsingle hcount
    have hzero : (entries entry).countP (namesFile path) = 0 := by
      rw [List.countP_eq_zero]
      exact fun piece hin hnames ↦ (hnew piece hin).2 path (namesFile_iff.mp hnames) hsingle
    rwa [fileCount, entries_appendEntry, List.countP_append, hzero]
  · intro hdistinct j rawRequest hmove piece hpiece hpath
    rw [entries_appendEntry] at hpiece
    rcases List.mem_append.mp hpiece with hold | hin
    · exact hdistinct j rawRequest hmove piece hold hpath
    · exact absurd (single_oldPath hpair hmove) ((hnew piece hin).2 _ hpath)

theorem meets_createFolderPass {rawRequest : Bytes}
    (hrequest : requests i = .createFolder rawRequest)
    (h : Lasting (contract user requests i) i
      (fun v ↦ Ready user requests i v ∧ (late → Changed v (!i))) w) :
    Meets execute (contract user requests i) i (AtEnd user requests i)
      (Failed user requests late i) (createFolderPass user rawRequest) w := by
  have hnothing : ∀ index entry, ¬(requests i).Takes index entry :=
    fun _ _ ↦ takes_createFolder hrequest
  refine Meets.bind (meets_look hpair h) fun index v hseen ↦ ?_
  split
  · apply lasting_released hpair
    exact released_of_not_takes hseen.now.inv hnothing
  · refine Meets.bind (meets_replace hpair hseen fun u _ hcareful heq ↦ ?_) fun _ u hu ↦ hu
    apply replaces_append hpair (hnothing index)
    intro piece hpiece
    have hcolon := hcareful _ _ rfl
    simp only [hrequest] at hcolon
    have hfolder := filePath_of_mem_entries (hcolon heq) hpiece
    refine ⟨stored_of_filePath hfolder _, fun path hpath ↦ ?_⟩
    rw [hfolder] at hpath
    cases hpath

omit hpair in
theorem meets_retry {pass : KVProg (Pass Response)}
    (h : Meets execute (contract user requests i) i (AtEnd user requests i)
      (Failed user requests late i) pass w) :
    Meets execute (contract user requests i) i (AtEnd user requests i)
      (fun e v ↦ e.isKVError = true → Released user requests i v) (retry pass) w := by
  apply meets_catch h
  · rintro e v rfl hv u hu
    have hfailed := hv u hu
    rw [Failed, if_pos rfl] at hfailed
    exact ⟨hfailed.2.1, fun hzero ↦ absurd rfl hzero, Nat.zero_le 1⟩
  · intro e v he hv
    rwa [Failed, if_neg he] at hv

theorem meets_createFolder {rawRequest : Bytes} (hrequest : requests i = .createFolder rawRequest)
    (h : Lasting (contract user requests i) i
      (fun v ↦ Ready user requests i v ∧ (False → Changed v (!i))) w) (n : ℕ) :
    Meets execute (contract user requests i) i (AtEnd user requests i) (fun _ _ ↦ True)
      (handleCreateFolder user rawRequest n) w :=
  (meets_retry (meets_createFolderPass hpair hrequest h)).mono (fun _ _ h ↦ h)
    fun _ _ _ ↦ trivial

/-! ## Uploading a file -/

omit hpair in
theorem takes_uploadFile {rawRequest : Bytes} (hrequest : requests i = .uploadFile rawRequest)
    {entry : Bytes} : ¬(requests i).Takes index entry := by
  rw [hrequest]
  exact fun h ↦ h.2

/-- The segments that are not left to do are stored. -/
structure Uploading (user : Bytes) (requests : Bool → Update) (i : Bool) (index : Bytes)
    (count : ℕ) (todo : List ℕ) (w : KVWorld Bool) : Prop where
  seen : Seen user requests False i index w
  stored : ∀ n ∈ List.range count, n ∉ todo →
    w.store (fileRow user (lit "untitled"), chunkKey n) ≠ none

theorem lasting_uploading {rawRequest : Bytes} (hrequest : requests i = .uploadFile rawRequest)
    {count : ℕ} {todo : List ℕ} (h : Uploading user requests i index count todo w) :
    Lasting (contract user requests i) i (Uploading user requests i index count todo) w := by
  apply lasting_turns ?_ h
  intro j w v hj hturn h
  refine ⟨Seen.turn hpair h.seen hj hturn, fun n hn hdone ↦ ?_⟩
  rcases hturn.cell_of_ne_none (h.stored n hn hdone) with hthere | ⟨entry, hpath, hholds, -⟩
  · exact hthere
  · obtain ⟨index', -, htakes⟩ := hholds
    exact absurd rfl (single_of_takes hpair htakes hpath i rawRequest hrequest)

theorem meets_putChunk {rawRequest : Bytes} (hrequest : requests i = .uploadFile rawRequest)
    {count n : ℕ} {todo : List ℕ} (value : Bytes)
    (h : Lasting (contract user requests i) i
      (Uploading user requests i index count (n :: todo)) w) :
    Meets execute (contract user requests i) i
      (fun _ ↦ Uploading user requests i index count todo) (Failed user requests False i)
      (put (fileRow user (lit "untitled")) (chunkKey n) value) w := by
  apply meets_perform
  intro v hv _ _
  have hnow := h v hv
  have hturn : Turn user requests i v (v.answer execute i ()
      (.put (fileRow user (lit "untitled")) (chunkKey n) value)) := .put _ _ value
  refine ⟨hturn, lasting_uploading hpair hrequest ⟨?_, ?_⟩⟩
  · exact Seen.own hpair hnow.seen hturn (known_put user _ _ value i)
      (indexOf_update_of_ne (fileRow_ne_user user _) _ _ _)
  · intro m hm hdone
    have hstore : (v.answer execute i ()
        (.put (fileRow user (lit "untitled")) (chunkKey n) value)).store =
        Function.update v.store (fileRow user (lit "untitled"), chunkKey n) (some value) := rfl
    rw [hstore]
    apply update_some_ne_none value
    intro hne
    apply hnow.stored m hm
    rw [List.mem_cons, not_or]
    exact ⟨fun heq ↦ hne (by rw [heq]), hdone⟩

theorem meets_uploadChunk {rawRequest : Bytes} (hrequest : requests i = .uploadFile rawRequest)
    {count n : ℕ} {todo : List ℕ} (body : Bytes)
    (h : Lasting (contract user requests i) i
      (Uploading user requests i index count (n :: todo)) w) :
    Meets execute (contract user requests i) i
      (fun _ ↦ Uploading user requests i index count todo) (Failed user requests False i)
      (uploadChunk (fileRow user (lit "untitled")) body n) w := by
  rw [uploadChunk]
  dsimp only
  split
  · exact meets_putChunk hpair hrequest _ h
  · exact fun v _ ↦ failed_of_not_isKVError rfl

theorem meets_uploadFileTry {rawRequest : Bytes} (hrequest : requests i = .uploadFile rawRequest)
    (h : Lasting (contract user requests i) i
      (fun v ↦ Ready user requests i v ∧ (False → Changed v (!i))) w) :
    Meets execute (contract user requests i) i (fun _ ↦ Released user requests i)
      (Failed user requests False i) (uploadFileTry user (parseBody rawRequest).2) w := by
  have hnothing : ∀ index entry, ¬(requests i).Takes index entry :=
    fun _ _ ↦ takes_uploadFile hrequest
  refine Meets.bind (meets_look hpair h) fun index v hseen ↦ ?_
  split
  · apply lasting_released hpair
    exact released_of_not_takes hseen.now.inv hnothing
  · refine Meets.bind (meets_forEach (I := fun todo ↦ Uploading user requests i index
      (chunkCount (parseBody rawRequest).2.length) todo) ?_ ?_) fun _ v hstored ↦ ?_
    · exact lasting_uploading hpair hrequest ⟨hseen.now, fun n hn hdone ↦ absurd hn hdone⟩
    · exact fun n todo v hv ↦ meets_uploadChunk hpair hrequest _ hv
    · have hseen' : Lasting (contract user requests i) i (Seen user requests False i index) v :=
        fun u hu ↦ (hstored u hu).seen
      refine Meets.bind (meets_replace hpair hseen' fun u hu _ _ ↦ ?_) fun _ u hu ↦ hu
      apply replaces_append hpair (hnothing index)
      rw [entries_uploadEntry]
      intro piece hpiece
      obtain rfl := List.mem_singleton.mp hpiece
      have hpath := filePath_uploadEntry (parseBody rawRequest).2
      constructor
      · intro path key hpath' hkey
        obtain rfl := Option.some.inj (hpath.symm.trans hpath')
        rw [fileKeys_uploadEntry] at hkey
        obtain ⟨n, hn, rfl⟩ := List.mem_map.mp hkey
        exact (hstored u hu).stored n hn List.not_mem_nil
      · intro path hpath' hsingle
        obtain rfl := Option.some.inj (hpath.symm.trans hpath')
        exact hsingle i rawRequest hrequest rfl

theorem meets_uploadFile {rawRequest : Bytes} (hrequest : requests i = .uploadFile rawRequest)
    (h : Lasting (contract user requests i) i
      (fun v ↦ Ready user requests i v ∧ (False → Changed v (!i))) w) (n : ℕ) :
    Meets execute (contract user requests i) i (AtEnd user requests i) (fun _ _ ↦ True)
      (handleUploadFile user rawRequest n) w := by
  refine Meets.bind (meets_catch (meets_uploadFileTry hpair hrequest h) (fun e v he hv ↦ ?_)
    fun _ _ _ _ ↦ trivial) fun _ _ hv ↦ hv
  apply lasting_released hpair
  have hfailed := hv.now
  unfold Failed at hfailed
  split at hfailed
  · exact released_of_not_takes hfailed.2.1.inv fun _ _ ↦ takes_uploadFile hrequest
  · exact hfailed he

/-! ## Deleting a file -/

theorem meets_deleteFileEntry {rawRequest : Bytes} (hrequest : requests i = .deleteFile rawRequest)
    {path : Bytes} (hmem : path ∈ split index comma)
    (h : Lasting (contract user requests i) i (Seen user requests late i index) w) :
    Meets execute (contract user requests i) i (fun _ ↦ Seen user requests late i index)
      (Failed user requests late i) (deleteFileEntry user (parseBody rawRequest).2 path) w := by
  rw [deleteFileEntry]
  split
  · next hremove =>
    cases hcut : cutEntry path with
    | none => exact h
    | some file =>
      obtain ⟨name, keyData⟩ := file
      have hpath : filePath path = some name := by rw [filePath, hcut, Option.map_some]
      apply meets_forEach (I := fun _ ↦ Seen user requests late i index) h
      intro key _ v hv
      apply meets_perform
      intro u hu _ _
      have hnow := hv u hu
      have hholds : Holds user requests u i path := by
        refine ⟨index, hnow.known, mem_entries.mpr ⟨hmem, hremove.1⟩, ?_⟩
        rw [hrequest]
        exact ⟨by rw [hpath]; exact Option.some_ne_none name, hremove.2⟩
      have hturn : Turn user requests i u (u.answer execute i () (.del (fileRow user name) key)) :=
        .erase path name key hholds hpath
      exact ⟨hturn, lasting_seen hpair (Seen.own hpair hnow hturn (known_del user name key i)
        (indexOf_update_of_ne (fileRow_ne_user user name) _ key none))⟩
  · exact h

omit hpair in
theorem replaces_leaveOut {rawRequest : Bytes} (hrequest : requests i = .deleteFile rawRequest)
    (store : Store) :
    Replaces user requests i store index (join ((split index comma).filter fun path ↦
      ¬(path ≠ [] ∧ (parseBody rawRequest).2 <+: path)) (lit ",")) := by
  have hentries := entries_leaveOut index (parseBody rawRequest).2
  refine ⟨?_, ?_, ?_⟩
  · rw [hentries]
    intro entry hentry
    obtain ⟨hold, hkept⟩ := List.mem_filter.mp hentry
    refine .inl ⟨hold, fun htakes ↦ ?_⟩
    obtain ⟨-, htakes⟩ := htakes
    rw [hrequest] at htakes
    exact of_decide_eq_true hkept htakes.2
  · intro path _ hcount
    rw [fileCount, hentries]
    exact le_trans List.filter_sublist.countP_le hcount
  · intro hdistinct j rawRequest' hmove entry hentry hpath
    rw [hentries] at hentry
    exact hdistinct j rawRequest' hmove entry (List.mem_of_mem_filter hentry) hpath

theorem meets_deleteFilePass {rawRequest : Bytes} (hrequest : requests i = .deleteFile rawRequest)
    (h : Lasting (contract user requests i) i
      (fun v ↦ Ready user requests i v ∧ (late → Changed v (!i))) w) :
    Meets execute (contract user requests i) i (AtEnd user requests i)
      (Failed user requests late i) (deleteFilePass user (parseBody rawRequest).2) w := by
  refine Meets.bind (meets_look hpair h) fun index v hseen ↦ ?_
  have hloop : Meets execute (contract user requests i) i
      (fun _ ↦ Seen user requests late i index) (Failed user requests late i)
      (Prog.forEach (deleteFileEntry user (parseBody rawRequest).2) (split index comma)) v := by
    have hlist : Lasting (contract user requests i) i (fun u ↦ Seen user requests late i index u ∧
        ∀ path ∈ split index comma, path ∈ split index comma) v :=
      fun u hu ↦ ⟨hseen u hu, fun _ hmem ↦ hmem⟩
    refine (meets_forEach (I := fun paths u ↦ Seen user requests late i index u ∧
      ∀ path ∈ paths, path ∈ split index comma) hlist ?_).mono (fun _ _ h ↦ h.1) fun _ _ h ↦ h
    intro path paths u hu
    have hmem := hu.now.2
    apply (meets_deleteFileEntry hpair hrequest (hmem path List.mem_cons_self)
      fun x hx ↦ (hu x hx).1).mono ?_ fun _ _ h ↦ h
    exact fun _ x hx ↦ ⟨hx, fun other hother ↦ hmem other (List.mem_cons_of_mem path hother)⟩
  refine Meets.bind hloop fun _ u hu ↦ ?_
  dsimp only
  split
  · exact Meets.bind (meets_replace hpair hu fun x _ _ _ ↦ replaces_leaveOut hrequest x.store)
      fun _ x hx ↦ hx
  · next hnone =>
    apply lasting_released hpair
    refine ⟨hu.now.inv, fun entry hholds ↦ hnone ?_⟩
    obtain ⟨index', hknown, hentry, htakes⟩ := hholds
    obtain rfl := Option.some.inj (hknown.symm.trans hu.now.known)
    rw [hrequest] at htakes
    obtain ⟨hmem, hne⟩ := mem_entries.mp hentry
    exact ⟨entry, hmem, hne, htakes.2⟩

/-- The other request changes the index once, so there is a second pass but no third. -/
theorem meets_deleteFile {rawRequest : Bytes} (hrequest : requests i = .deleteFile rawRequest)
    {n : ℕ} (h : Lasting (contract user requests i) i (AtEnd user requests i (.again n)) w) :
    Meets execute (contract user requests i) i (AtEnd user requests i) (fun _ _ ↦ True)
      (handleDeleteFile user rawRequest n) w := by
  obtain ⟨-, -, hn⟩ := h.now
  rw [handleDeleteFile, if_pos (by omega)]
  have hpass : Meets execute (contract user requests i) i (AtEnd user requests i)
      (Failed user requests (n ≠ 0) i) (deleteFilePass user (parseBody rawRequest).2) w :=
    meets_deleteFilePass hpair hrequest fun v hv ↦ ⟨(h v hv).1, (h v hv).2.1⟩
  have hretry : Meets execute (contract user requests i) i (AtEnd user requests i)
      (fun e v ↦ e.isKVError = true → Released user requests i v)
      (catchKVNoMatch (deleteFilePass user (parseBody rawRequest).2)
        (.ret (if n + 1 < 100 then .again (n + 1)
          else .done (serverError (lit "Conflict resolution failed after several attempts"))))) w := by
    apply meets_catch hpass
    · rintro e v rfl hv u hu
      have hfailed := hv u hu
      rw [Failed, if_pos rfl, not_not] at hfailed
      obtain ⟨rfl, hready, hchanged⟩ := hfailed
      exact ⟨hready, fun _ ↦ hchanged, Nat.le_refl 1⟩
    · intro e v he hv
      rwa [Failed, if_neg he] at hv
  apply meets_catch hretry
  · exact fun e v he hv u hu ↦ hv u hu he
  · exact fun _ _ _ _ ↦ trivial

end Requests

end PennCloud.Frontend.IndexRequests
