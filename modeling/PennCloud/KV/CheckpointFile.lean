import PennCloud.KV.DiskRecord

/-!
# The checkpoint file

`tbl_saving` writes one `DATA` entry for each cell, in the iteration order of the two nested
maps, and empties the log at the end. `tbl_lding` reads the file back at start-up. The first
token of every line is compared with `DATA` and the process exits where they differ; since
`get_token` returns the empty string, the first line of any file ends the process. Loading
is the inverse of saving exactly for a tablet without cells.
-/

open PennCloud.Library.CppString PennCloud.Library.FileStream PennCloud.Library.PrefixCode
open PennCloud.Library.WriteLog
open PennCloud.Common.Token PennCloud.KV.TabletCells PennCloud.KV.DiskRecord

namespace PennCloud.KV.CheckpointFile

/-- The cells in the order in which the loops of `tbl_saving` visit them. -/
def tabletEntries (tablet : Tablet) : List (Bytes × Bytes × Bytes) :=
  tablet.entries.flatMap fun row ↦ row.2.entries.map fun col ↦ (row.1, col.1, col.2)

/-- `DATA {0} {1} {2}\n{3}\n{4}\n`. -/
def getFmtData (a b c : Bytes) : Bytes :=
  lit "DATA " ++ decimal a.length ++ lit " " ++ decimal b.length ++ lit " " ++ decimal c.length ++
    lit "\n" ++ a ++ lit "\n" ++ b ++ lit "\n"

/-- The body of the inner loop; the second component is false where it returns `-1`. -/
def saveEntry (file rk ck ddt : Bytes) (result : ℕ → WriteResult) : Bytes × Bool :=
  let dataAll := getFmtData rk ck ddt
  let (file, lenWrttn) := writeFile file dataAll (result 0)
  if lenWrttn ≠ dataAll.length then
    (file, false)
  else
    let (file, lenWrttn') := writeFile file ddt (result 1)
    if lenWrttn' ≠ ddt.length then
      (file, false)
    else
      let (file, newLine) := writeFile file (lit "\n") (result 2)
      (file, newLine = 1)

/-- Both loops, with the results of the calls of `write` in order. -/
def saveEntries (file : Bytes) (result : ℕ → WriteResult) :
    List (Bytes × Bytes × Bytes) → Bytes × Bool
  | [] => (file, true)
  | (rk, ck, ddt) :: entries =>
    match saveEntry file rk ck ddt result with
    | (file, false) => (file, false)
    | (file, true) => saveEntries file (fun i ↦ result (i + 3)) entries

/-- What the system calls of one `tbl_saving` return. -/
structure SaveCalls where
  opened : Bool
  written : ℕ → WriteResult
  truncated : Bool

/-- Checkpoint file, log file and return value of one `tbl_saving`. -/
structure SaveResult where
  file : Bytes
  log : Bytes
  output : ℤ

/-- `open` truncates the file; a failed `ftruncate` of the log is only reported. -/
def tblSaving (tablet : Tablet) (oldFile log : Bytes) (calls : SaveCalls) : SaveResult :=
  if calls.opened then
    match saveEntries [] calls.written (tabletEntries tablet) with
    | (file, false) => { file := file, log := log, output := -1 }
    | (file, true) =>
      { file := file, log := if calls.truncated then [] else log, output := 0 }
  else
    { file := oldFile, log := log, output := -1 }

/-- The loop of `tbl_lding`. -/
def loadLoop (file : InStream) (tablet : Tablet) : Except Abort Tablet :=
  match hline : file.getline with
  | (_, none) => .ok tablet
  | (file', some lThis) =>
    have _hlt : file'.rest.length < file.rest.length := InStream.getline_rest_lt hline
    match getToken lThis 0 with
    | .error e => .error (.thrown e)
    | .ok (thisInt, gap) =>
      if thisInt ≠ lit "DATA" then
        .error (.exit 1)
      else
        match hput : readPut lThis gap file' with
        | .error e => .error e
        | .ok (file'', rk, ck, ddt) =>
          have _hle := readPut_rest_le hput
          loadLoop file'' (conductP tablet rk ck ddt).1
termination_by file.rest.length

/-- `tbl_lding`; `none` is a checkpoint file that cannot be opened. -/
def tblLding (file : Option Bytes) (tablet : Tablet) : Except Abort Tablet :=
  match file with
  | none => .ok tablet
  | some content => loadLoop { rest := content } tablet

/-! ## Saving -/

/-- The bytes of a completely written entry. -/
def entryBytes (entry : Bytes × Bytes × Bytes) : Bytes :=
  getFmtData entry.1 entry.2.1 entry.2.2 ++ entry.2.2 ++ lit "\n"

theorem entryBytes_ne_nil (entry : Bytes × Bytes × Bytes) : entryBytes entry ≠ [] := by
  have hhead : lit "DATA " ≠ [] := by decide
  simp only [entryBytes, getFmtData, List.append_assoc, ne_eq, List.append_eq_nil_iff, hhead,
    false_and, not_false_eq_true]

/-- What is written for an entry. -/
def entryBuffers (entry : Bytes × Bytes × Bytes) : List Bytes :=
  [getFmtData entry.1 entry.2.1 entry.2.2, entry.2.2] ++ [lit "\n"]

theorem entryBuffers_flatten (entry : Bytes × Bytes × Bytes) :
    (entryBuffers entry).flatten = entryBytes entry := by
  simp only [entryBuffers, entryBytes, List.cons_append, List.nil_append, List.flatten_cons,
    List.flatten_nil, List.append_nil, List.append_assoc]

theorem saveEntry_eq (file rk ck ddt : Bytes) (result : ℕ → WriteResult) :
    saveEntry file rk ck ddt result = writeAll file result (entryBuffers (rk, ck, ddt)) := by
  have hnewline : ((lit "\n").length : ℤ) = 1 := rfl
  simp only [saveEntry, entryBuffers, List.cons_append, List.nil_append, writeAll, ne_eq, ite_not,
    hnewline, zero_add, Nat.reduceAdd]
  split_ifs with hheader hvalue hlast
  · rw [decide_eq_true hlast]
  · rw [decide_eq_false hlast]
  · rfl
  · rfl

theorem saveEntry_of_true {file rk ck ddt : Bytes} {result : ℕ → WriteResult}
    (h : (saveEntry file rk ck ddt result).2 = true) :
    (saveEntry file rk ck ddt result).1 = file ++ entryBytes (rk, ck, ddt) := by
  rw [saveEntry_eq] at h ⊢
  rw [writeAll_of_true h, entryBuffers_flatten]

/-- An entry that was given up is on disk in part. -/
theorem saveEntry_of_false {file rk ck ddt : Bytes} {result : ℕ → WriteResult}
    (h : (saveEntry file rk ck ddt result).2 = false) :
    ∃ part, (saveEntry file rk ck ddt result).1 = file ++ part ∧
      Cut part (entryBytes (rk, ck, ddt)) := by
  have hnewline : lit "\n" ≠ [] := by decide
  rw [saveEntry_eq] at h ⊢
  rw [← entryBuffers_flatten]
  exact writeAll_of_false hnewline h

/-- A save that reports success has written every entry. -/
theorem saveEntries_of_true {file : Bytes} {result : ℕ → WriteResult}
    {entries : List (Bytes × Bytes × Bytes)} (h : (saveEntries file result entries).2 = true) :
    (saveEntries file result entries).1 = file ++ entries.flatMap entryBytes := by
  induction entries generalizing file result with
  | nil => simp [saveEntries]
  | cons entry entries ih =>
    obtain ⟨rk, ck, ddt⟩ := entry
    simp only [saveEntries] at h ⊢
    split at h
    · cases h
    · next file' hentry =>
      have hfile : file' = file ++ entryBytes (rk, ck, ddt) := by
        simpa only [hentry] using saveEntry_of_true (congrArg Prod.snd hentry)
      rw [ih h, hfile, List.flatMap_cons, List.append_assoc]

/-- Calls that take every buffer write every entry. -/
theorem saveEntries_of_complete (file : Bytes) {entries : List (Bytes × Bytes × Bytes)} {taken : ℕ}
    (h : ∀ entry ∈ entries, (entryBytes entry).length ≤ taken) :
    saveEntries file (fun _ ↦ some taken) entries = (file ++ entries.flatMap entryBytes, true) := by
  induction entries generalizing file with
  | nil => simp [saveEntries]
  | cons entry entries ih =>
    obtain ⟨rk, ck, ddt⟩ := entry
    have hle := h (rk, ck, ddt) List.mem_cons_self
    have hcomplete : WritesComplete (fun _ ↦ some taken) (entryBuffers (rk, ck, ddt)) := by
      intro i hi
      refine ⟨taken, rfl, le_trans ?_ hle⟩
      rw [← entryBuffers_flatten]
      exact (List.sublist_flatten_of_mem (List.getElem_mem hi)).length_le
    have hentry : saveEntry file rk ck ddt (fun _ ↦ some taken) =
        (file ++ entryBytes (rk, ck, ddt), true) := by
      have hwritten : (saveEntry file rk ck ddt fun _ ↦ some taken).2 = true := by
        rw [saveEntry_eq]
        exact (writeAll_snd _ _ _).mpr hcomplete
      exact Prod.ext (saveEntry_of_true hwritten) hwritten
    simp only [saveEntries, hentry]
    rw [ih _ fun entry hentry ↦ h entry (List.mem_cons_of_mem _ hentry), List.flatMap_cons,
      List.append_assoc]

theorem tblSaving_file {tablet : Tablet} {oldFile log : Bytes} {calls : SaveCalls}
    (h : (tblSaving tablet oldFile log calls).output = 0) :
    (tblSaving tablet oldFile log calls).file = (tabletEntries tablet).flatMap entryBytes := by
  unfold tblSaving at h ⊢
  split at h
  · next hopen =>
    rw [if_pos hopen]
    split at h
    · cases h
    · next file hsave =>
      have hfile := saveEntries_of_true (congrArg Prod.snd hsave)
      rw [hsave] at hfile
      simpa only [List.nil_append] using hfile
  · cases h

/-! ## The entries of a tablet -/

/-- The entries are the cells. -/
theorem mem_tabletEntries_iff (tablet : Tablet) (rk ck ddt : Bytes) :
    (rk, ck, ddt) ∈ tabletEntries tablet ↔ cells tablet (rk, ck) = some ddt := by
  simp only [tabletEntries, List.mem_flatMap, List.mem_map, Prod.mk.injEq, cells,
    Option.bind_eq_some_iff]
  constructor
  · rintro ⟨row, hrow, col, hcol, rfl, rfl, rfl⟩
    exact ⟨row.2, AList.mem_lookup_iff.mpr hrow, AList.mem_lookup_iff.mpr hcol⟩
  · rintro ⟨row, hrow, hcol⟩
    exact ⟨⟨rk, row⟩, AList.mem_lookup_iff.mp hrow, ⟨ck, ddt⟩, AList.mem_lookup_iff.mp hcol,
      rfl, rfl, rfl⟩

/-- The loops visit a cell once. -/
theorem tabletEntries_nodup (tablet : Tablet) :
    ((tabletEntries tablet).map fun entry ↦ (entry.1, entry.2.1)).Nodup := by
  have hkeys : ∀ rows : List (Sigma fun _ : Bytes ↦ Row), rows.NodupKeys →
      ((rows.flatMap fun row ↦ row.2.entries.map fun col ↦ (row.1, col.1, col.2)).map
        fun entry : Bytes × Bytes × Bytes ↦ (entry.1, entry.2.1)).Nodup := by
    intro rows hrows
    simp only [List.map_flatMap, List.map_map]
    rw [List.nodup_flatMap]
    constructor
    · intro row _
      have hcols : (row.2.entries.map Sigma.fst).Nodup := row.2.nodupKeys
      have hpair := hcols.map (f := fun ck ↦ (row.1, ck)) (fun ck ck' h ↦ (Prod.mk.inj h).2)
      rwa [List.map_map] at hpair
    · refine (List.nodupKeys_iff_pairwise.mp hrows).imp ?_
      intro row row' hne key hkey hkey'
      simp only [List.mem_map, Function.comp_apply] at hkey hkey'
      obtain ⟨col, -, rfl⟩ := hkey
      obtain ⟨col', -, heq⟩ := hkey'
      exact hne (Prod.mk.inj heq).1.symm
  exact hkeys tablet.entries tablet.nodupKeys

/-- The loops visit an entry exactly where a cell is stored. -/
theorem tabletEntries_eq_nil_iff (tablet : Tablet) :
    tabletEntries tablet = [] ↔ ∀ key, cells tablet key = none := by
  rw [List.eq_nil_iff_forall_not_mem]
  constructor
  · intro hentries key
    rw [Option.eq_none_iff_forall_not_mem]
    intro ddt hddt
    exact hentries (key.1, key.2, ddt) ((mem_tabletEntries_iff tablet _ _ _).mpr hddt)
  · intro hcells entry hentry
    have hcell := (mem_tabletEntries_iff tablet entry.1 entry.2.1 entry.2.2).mp hentry
    rw [hcells] at hcell
    cases hcell

/-- An entry as a record. -/
def entryRecord (entry : Bytes × Bytes × Bytes) : LogRecord := .put entry.1 entry.2.1 entry.2.2

theorem foldl_conductP_cells (tablet : Tablet) (entries : List (Bytes × Bytes × Bytes)) :
    cells (entries.foldl (fun tablet entry ↦ (conductP tablet entry.1 entry.2.1 entry.2.2).1) tablet) =
      replay (cells tablet) (entries.map entryRecord) := by
  rw [← foldl_conduct_cells, List.foldl_map]
  rfl

/-- Entries of a tablet agree with its cells, so storing some of them gives the cells they are
about. -/
theorem replay_entries_of_mem {tablet : Tablet} (s : Bytes × Bytes → Option Bytes)
    {part : List (Bytes × Bytes × Bytes)} (hpart : part ⊆ tabletEntries tablet)
    {key : Bytes × Bytes} (h : ∃ entry ∈ part, (entry.1, entry.2.1) = key) :
    replay s (part.map entryRecord) key = cells tablet key := by
  apply replay_of_agree
  · intro record hrecord
    obtain ⟨entry, hentry, rfl⟩ := List.mem_map.mp hrecord
    exact ((mem_tabletEntries_iff tablet _ _ _).mp (hpart hentry)).symm
  · obtain ⟨entry, hentry, hkey⟩ := h
    exact ⟨entryRecord entry, List.mem_map_of_mem hentry, hkey⟩

theorem replay_entries_of_not_mem (s : Bytes × Bytes → Option Bytes)
    {part : List (Bytes × Bytes × Bytes)} {key : Bytes × Bytes}
    (h : ¬∃ entry ∈ part, (entry.1, entry.2.1) = key) :
    replay s (part.map entryRecord) key = s key := by
  apply replay_of_not_mem
  intro record hrecord hkey
  obtain ⟨entry, hentry, rfl⟩ := List.mem_map.mp hrecord
  exact h ⟨entry, hentry, hkey⟩

/-! ## Loading -/

theorem loadLoop_nil (tablet : Tablet) : loadLoop { rest := [] } tablet = .ok tablet := by
  unfold loadLoop
  rfl

/-- Any first line ends the process. -/
theorem loadLoop_cons (b : UInt8) (bs : Bytes) (tablet : Tablet) :
    loadLoop { rest := b :: bs } tablet = .error (.exit 1) := by
  obtain ⟨file, line, hline⟩ := InStream.getline_cons b bs
  have hdata : ([] : Bytes) ≠ lit "DATA" := by decide
  unfold loadLoop
  split
  · next h =>
    rw [hline] at h
    cases h
  · rw [getToken_eq]
    exact if_pos hdata

/-- Loading the file into an empty tablet ends normally with the saved cells. -/
def LoadUndoesSave (tablet : Tablet) (file : Bytes) : Prop :=
  ∃ loaded, tblLding (some file) ∅ = .ok loaded ∧ SameCells loaded tablet

theorem load_undoes_save_iff (tablet : Tablet) (oldFile log : Bytes) (calls : SaveCalls)
    (hsaved : (tblSaving tablet oldFile log calls).output = 0) :
    LoadUndoesSave tablet (tblSaving tablet oldFile log calls).file ↔
      ∀ key, cells tablet key = none := by
  rw [← tabletEntries_eq_nil_iff, tblSaving_file hsaved]
  cases hentries : tabletEntries tablet with
  | nil =>
    have hcells := (tabletEntries_eq_nil_iff tablet).mp hentries
    refine iff_of_true ⟨∅, loadLoop_nil ∅, ?_⟩ rfl
    funext key
    rw [cells_empty, hcells key]
  | cons entry entries =>
    refine iff_of_false ?_ (List.cons_ne_nil _ _)
    rintro ⟨loaded, hload, -⟩
    obtain ⟨b, bs, hbytes⟩ := List.exists_cons_of_ne_nil (entryBytes_ne_nil entry)
    rw [List.flatMap_cons, hbytes, List.cons_append, tblLding, loadLoop_cons] at hload
    cases hload

/-- A tablet with one cell, and system calls that all succeed. -/
def oneCell : Tablet := (conductP ∅ (lit "row") (lit "col") (lit "value")).1

def allComplete : SaveCalls where
  opened := true
  written := fun _ ↦ some 100
  truncated := true

theorem load_undoes_save_iff_oneCell :
    (tblSaving oneCell [] [] allComplete).output = 0 ∧
      (LoadUndoesSave oneCell (tblSaving oneCell [] [] allComplete).file ↔
        ∀ key, cells oneCell key = none) :=
  ⟨by decide, load_undoes_save_iff oneCell [] [] allComplete (by decide)⟩

/-- The saved cell ends the next start of the process. -/
theorem load_exits_on_oneCell :
    (tblSaving oneCell [] [] allComplete).output = 0 ∧
      ¬LoadUndoesSave oneCell (tblSaving oneCell [] [] allComplete).file := by
  refine ⟨by decide, ?_⟩
  rintro ⟨loaded, hload, -⟩
  have hfile : ∃ b bs, (tblSaving oneCell [] [] allComplete).file = b :: bs := ⟨_, _, rfl⟩
  obtain ⟨b, bs, hfile⟩ := hfile
  rw [hfile, tblLding, loadLoop_cons] at hload
  cases hload

end PennCloud.KV.CheckpointFile
