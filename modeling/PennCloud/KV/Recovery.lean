import PennCloud.KV.DiskCalls
import PennCloud.KV.RecordCodes

/-!
# What a failed checkpoint leaves behind

`tbl_saving` truncates the checkpoint file when it opens it and writes the entries afterwards, so
from then on until the last entry is written the disk holds the log and some of the entries only.
The log begins at the last checkpoint: a cell that was last written before it has no record there,
and if its entry is not yet back in the file, the cell is on disk nowhere. A checkpoint that
fails, or a process that dies during one, loses exactly these cells.
-/

open PennCloud.Library.PrefixCode PennCloud.Library.SystemCalls PennCloud.Library.WriteLog
open PennCloud.KV.TabletCells PennCloud.KV.DiskRecord PennCloud.KV.CheckpointFile
open PennCloud.KV.RecordCodes PennCloud.KV.DiskCalls

namespace PennCloud.KV.Recovery

/-! ## Entries on disk -/

/-- After any failure the file holds the entries whose calls all went well, and perhaps a part of
the next one. -/
theorem run_entries_file (disk : Disk) (result : ℕ → WriteResult)
    (entries : List (Bytes × Bytes × Bytes)) :
    ∃ m part,
      (device.run disk result (entries.flatMap entryCalls)).1.file =
        disk.file ++ entryCode.encodeAll (entries.take m) ++ part ∧
      entryCode.decodeAll part = [] ∧
      ∀ j < entries.length,
        j < m ↔ device.AllOk result ((entries.take (j + 1)).flatMap entryCalls) := by
  induction entries generalizing disk result with
  | nil =>
    refine ⟨0, [], ?_, entryCode.decodeAll_nil, fun j hj ↦ absurd hj (Nat.not_lt_zero j)⟩
    simp [Device.run, Code.encodeAll]
  | cons entry entries ih =>
    have hsnd := device.run_snd disk result (entryCalls entry)
    rw [List.flatMap_cons, Device.run_append]
    rw [run_entryCalls] at hsnd ⊢
    dsimp only at hsnd ⊢
    cases hcomplete : (saveEntry disk.file entry.1 entry.2.1 entry.2.2 result).2 with
    | false =>
      obtain ⟨part, hfile, hcut⟩ := saveEntry_of_false hcomplete
      have hfailed : ¬device.AllOk result (entryCalls entry) := by
        rw [← hsnd, hcomplete]
        exact Bool.false_ne_true
      rw [if_neg Bool.false_ne_true]
      refine ⟨0, part, ?_, entryCode.decodeAll_of_cut hcut, ?_⟩
      · rw [hfile, List.take_zero, Code.encodeAll, List.flatMap_nil, List.append_nil]
      · intro j _
        refine iff_of_false (Nat.not_lt_zero j) fun hall ↦ hfailed ?_
        rw [List.take_succ_cons, List.flatMap_cons, Device.allOk_append] at hall
        exact hall.1
    | true =>
      have hfile := saveEntry_of_true hcomplete
      obtain ⟨m, part, hrest, hpart, hcount⟩ :=
        ih { disk with file := disk.file ++ entryBytes entry }
          fun i ↦ result (i + (entryCalls entry).length)
      rw [if_pos rfl]
      refine ⟨m + 1, part, ?_, hpart, ?_⟩
      · rw [hfile, hrest, List.take_succ_cons, Code.encodeAll, Code.encodeAll, List.flatMap_cons]
        simp only [List.append_assoc]
        rfl
      · intro j hj
        rw [List.take_succ_cons, List.flatMap_cons, Device.allOk_append,
          and_iff_right (hsnd.mp hcomplete)]
        cases j with
        | zero =>
          rw [List.take_zero, List.flatMap_nil]
          exact iff_of_true (Nat.succ_pos m) (device.allOk_nil _)
        | succ j =>
          rw [Nat.add_lt_add_iff_right]
          exact hcount j (Nat.lt_of_succ_lt_succ hj)

/-! ## Reading the disk back -/

/-- The records of the log applied in order to the cells of the complete entries. -/
def readBack (disk : Disk) : Tablet :=
  (recordCode.decodeAll disk.log).foldl conduct
    ((entryCode.decodeAll disk.file).foldl
      (fun tablet entry ↦ (conductP tablet entry.1 entry.2.1 entry.2.2).1) ∅)

/-- The disk determines these cells. -/
def Recovers (disk : Disk) (tablet : Tablet) : Prop := SameCells (readBack disk) tablet

theorem readBack_cells (disk : Disk) :
    cells (readBack disk) =
      replay (replay (cells ∅) ((entryCode.decodeAll disk.file).map entryRecord))
        (recordCode.decodeAll disk.log) := by
  rw [readBack, foldl_conduct_cells, foldl_conductP_cells]

/-- The disk after the process has made this many of the calls of `tbl_saving`; where the last
of them is a short write, the process died or gave up during it. -/
def diskAfter (tablet : Tablet) (disk : Disk) (result : ℕ → WriteResult) (made : ℕ) : Disk :=
  (device.run disk result ((savingCalls tablet).take made)).1

/-- The calls from `open` to the newline of the entry with this number. -/
def callsThrough (tablet : Tablet) (j : ℕ) : List SysCall :=
  .openFile :: ((tabletEntries tablet).take (j + 1)).flatMap entryCalls

/-- The entry with this number is complete on disk. -/
def EntryWritten (tablet : Tablet) (result : ℕ → WriteResult) (made j : ℕ) : Prop :=
  (callsThrough tablet j).length ≤ made ∧ device.AllOk result (callsThrough tablet j)

/-- The checkpoint file was opened, and so truncated. -/
def Opened (result : ℕ → WriteResult) (made : ℕ) : Prop := 0 < made ∧ (result 0).isSome

variable (tablet : Tablet) (disk : Disk) (result : ℕ → WriteResult) (made : ℕ)

theorem diskAfter_of_not_opened (h : ¬Opened result made) :
    diskAfter tablet disk result made = disk := by
  unfold diskAfter
  cases made with
  | zero => rfl
  | succ made =>
    have hfailed : result 0 = none := by
      rw [← Option.not_isSome_iff_eq_none]
      exact fun hopen ↦ h ⟨Nat.succ_pos made, hopen⟩
    have hok : ¬device.ok .openFile none = true := Bool.false_ne_true
    rw [savingCalls, List.take_succ_cons, Device.run, hfailed, if_neg hok]
    rfl

theorem ok_of_mem_callsThrough {j : ℕ} {call : SysCall} (h : call ∈ callsThrough tablet j) :
    device.ok call none = false := by
  have hwrite : ∀ buffer : Bytes, decide ((-1 : ℤ) = buffer.length) = false := by
    intro buffer
    rw [decide_eq_false_iff_not]
    omega
  rw [callsThrough, List.mem_cons, List.mem_flatMap] at h
  rcases h with rfl | ⟨entry, -, hcall⟩
  · rfl
  · obtain ⟨buffer, -, rfl⟩ := List.mem_map.mp hcall
    exact hwrite buffer

theorem run_truncateLog (disk : Disk) (result : ℕ → WriteResult) :
    (device.run disk result [.truncateLog]).1.file = disk.file ∧
      ((device.run disk result [.truncateLog]).1.log = disk.log ∨
        (device.run disk result [.truncateLog]).1.log = []) := by
  have hok : device.ok .truncateLog (result 0) = true := rfl
  rw [Device.run, if_pos hok, Device.run]
  cases result 0 with
  | none => exact ⟨rfl, .inl rfl⟩
  | some _ => exact ⟨rfl, .inr rfl⟩

/-- Once the file was opened it holds the written entries only; the log is there until all are. -/
theorem diskAfter_of_opened (h : Opened result made) :
    ∃ m part,
      (diskAfter tablet disk result made).file =
        entryCode.encodeAll ((tabletEntries tablet).take m) ++ part ∧
      entryCode.decodeAll part = [] ∧
      (∀ j < (tabletEntries tablet).length, j < m ↔ EntryWritten tablet result made j) ∧
      ((diskAfter tablet disk result made).log = disk.log ∨
        (tabletEntries tablet).length ≤ m ∧ (diskAfter tablet disk result made).log = []) := by
  obtain ⟨hmade, hopen⟩ := h
  unfold diskAfter
  rw [device.run_take idle]
  generalize hcut : (fun i ↦ if i < made then result i else none) = cut
  have hfirst : cut 0 = result 0 := by
    rw [← hcut]
    exact if_pos hmade
  have hopened : device.ok .openFile (cut 0) = true := by
    rw [hfirst]
    exact hopen
  have hemptied : device.effect disk .openFile (cut 0) = { disk with file := [] } := by
    obtain ⟨descriptor, hdescriptor⟩ := Option.isSome_iff_exists.mp hopened
    rw [hdescriptor]
    rfl
  obtain ⟨m, part, hfile, hpart, hcount⟩ :=
    run_entries_file { disk with file := [] } (fun i ↦ cut (i + 1)) (tabletEntries tablet)
  have hcount' : ∀ j < (tabletEntries tablet).length,
      j < m ↔ EntryWritten tablet result made j := by
    intro j hj
    rw [hcount j hj, EntryWritten, ← device.allOk_cut result
      (fun call hcall ↦ ok_of_mem_callsThrough tablet hcall) made, hcut, callsThrough,
      Device.allOk_cons, and_iff_right hopened]
  have hlog : (device.run { disk with file := [] } (fun i ↦ cut (i + 1))
      ((tabletEntries tablet).flatMap entryCalls)).1.log = disk.log := by
    rw [run_entries]
  rw [savingCalls, Device.run, if_pos hopened, hemptied, Device.run_append]
  cases hall : (device.run { disk with file := [] } (fun i ↦ cut (i + 1))
      ((tabletEntries tablet).flatMap entryCalls)).2 with
  | false =>
    rw [if_neg Bool.false_ne_true]
    exact ⟨m, part, hfile, hpart, hcount', .inl hlog⟩
  | true =>
    have hwritten : (tabletEntries tablet).length ≤ m := by
      cases hlength : (tabletEntries tablet).length with
      | zero => exact Nat.zero_le m
      | succ n =>
        rw [Nat.succ_le_iff, hcount n (by omega), ← hlength, List.take_length]
        exact (device.run_snd _ _ _).mp hall
    rw [if_pos rfl]
    obtain ⟨hsame, hlog'⟩ := run_truncateLog (device.run { disk with file := [] }
      (fun i ↦ cut (i + 1)) ((tabletEntries tablet).flatMap entryCalls)).1
      (fun i ↦ cut (i + ((tabletEntries tablet).flatMap entryCalls).length + 1))
    refine ⟨m, part, hsame.trans hfile, hpart, hcount', hlog'.imp (fun h ↦ h.trans hlog) fun h ↦ ?_⟩
    exact ⟨hwritten, h⟩

/-! ## What is lost -/

omit disk result made

/-- A cell's entry is among the first ones exactly if its number is small. -/
theorem mem_take_iff {j m : ℕ} {entry : Bytes × Bytes × Bytes}
    (h : (tabletEntries tablet)[j]? = some entry) :
    (∃ entry' ∈ (tabletEntries tablet).take m, (entry'.1, entry'.2.1) = (entry.1, entry.2.1)) ↔
      j < m := by
  constructor
  · rintro ⟨entry', hentry', hkey⟩
    obtain ⟨i, hi, hget⟩ := List.getElem_of_mem hentry'
    have him : i < m := hi.trans_le (List.length_take_le _ _)
    have hi' : (tabletEntries tablet)[i]? = some entry' := by
      rw [← List.getElem?_take_of_lt him, List.getElem?_eq_getElem hi, hget]
    have hsame : ((tabletEntries tablet).map fun entry ↦ (entry.1, entry.2.1))[i]? =
        ((tabletEntries tablet).map fun entry ↦ (entry.1, entry.2.1))[j]? := by
      rw [List.getElem?_map, List.getElem?_map, hi', h, Option.map_some, Option.map_some, hkey]
    have hlength : i < ((tabletEntries tablet).map fun entry ↦ (entry.1, entry.2.1)).length := by
      rw [List.length_map]
      exact hi.trans_le (List.length_take_le' _ _)
    rwa [← (List.getElem?_inj hlength (tabletEntries_nodup tablet)).mp hsame]
  · intro hlt
    exact ⟨entry, List.mem_of_getElem? (by rwa [List.getElem?_take_of_lt hlt]), rfl⟩

/-- A cell whose entry is among those read back has its content. -/
theorem replay_entries_of_written {m : ℕ} {key : Bytes × Bytes}
    (h : ∀ j entry, (tabletEntries tablet)[j]? = some entry → (entry.1, entry.2.1) = key → j < m) :
    replay (cells ∅) (((tabletEntries tablet).take m).map entryRecord) key = cells tablet key := by
  by_cases hmem : ∃ entry ∈ (tabletEntries tablet).take m, (entry.1, entry.2.1) = key
  · exact replay_entries_of_mem _ (List.take_subset _ _) hmem
  · rw [replay_entries_of_not_mem _ hmem, cells_empty]
    cases hcell : cells tablet key with
    | none => rfl
    | some ddt =>
      have hentry := (mem_tabletEntries_iff tablet key.1 key.2 ddt).mpr hcell
      obtain ⟨j, hget⟩ := List.mem_iff_getElem?.mp hentry
      exact absurd ((mem_take_iff tablet hget).mpr (h j _ hget rfl)) hmem

/-- The log has a record of this cell. -/
def Logged (disk : Disk) (key : Bytes × Bytes) : Prop :=
  ∃ record ∈ recordCode.decodeAll disk.log, record.cell = key

section ReadBack

variable {disk disk' : Disk} {m : ℕ}
  (hread : entryCode.decodeAll disk'.file = (tabletEntries tablet).take m)
include hread

/-- A cell that has neither its entry nor a record is gone. -/
theorem readBack_loses {j : ℕ} {entry : Bytes × Bytes × Bytes}
    (hget : (tabletEntries tablet)[j]? = some entry) (hentry : ¬j < m)
    (hrecord : ¬Logged disk' (entry.1, entry.2.1)) : ¬Recovers disk' tablet := by
  intro hrecovers
  have hcell : cells tablet (entry.1, entry.2.1) = some entry.2.2 :=
    (mem_tabletEntries_iff tablet _ _ _).mp (List.mem_of_getElem? hget)
  have hnone := congrFun hrecovers (entry.1, entry.2.1)
  rw [readBack_cells, hread, replay_of_not_mem _ fun record hmem hkey ↦ hrecord ⟨record, hmem, hkey⟩,
    replay_entries_of_not_mem _ fun hmem ↦ hentry ((mem_take_iff tablet hget).mp hmem), cells_empty,
    hcell] at hnone
  cases hnone

/-- With the log still there, an entry or a record of every cell is enough. -/
theorem readBack_keeps (h : Recovers disk tablet) (hlog : disk'.log = disk.log)
    (hcovered : ∀ j entry, (tabletEntries tablet)[j]? = some entry →
      j < m ∨ Logged disk (entry.1, entry.2.1)) : Recovers disk' tablet := by
  funext key
  rw [readBack_cells, hread, hlog]
  by_cases hlogged : Logged disk key
  · rw [← congrFun h key, readBack_cells]
    exact replay_of_mem _ _ hlogged
  · rw [replay_of_not_mem _ fun record hrecord hkey ↦ hlogged ⟨record, hrecord, hkey⟩]
    apply replay_entries_of_written
    intro j entry hget hkey
    exact (hcovered j entry hget).resolve_right fun hlogged' ↦ hlogged (hkey ▸ hlogged')

/-- With all entries written the log is not needed. -/
theorem readBack_complete (hall : (tabletEntries tablet).length ≤ m) (hlog : disk'.log = []) :
    Recovers disk' tablet := by
  funext key
  rw [readBack_cells, hread, hlog, Code.decodeAll_nil]
  exact replay_entries_of_written tablet fun j entry hget _ ↦
    (List.getElem?_eq_some_iff.mp hget).1.trans_le hall

end ReadBack

/-- A failed checkpoint loses nothing exactly if it failed to open the file, or every cell without a
record in the log was written before the failure. -/
theorem recovers_after_failure_iff (disk : Disk) (result : ℕ → WriteResult) (made : ℕ)
    (h : Recovers disk tablet) :
    Recovers (diskAfter tablet disk result made) tablet ↔
      (Opened result made → ∀ j entry, (tabletEntries tablet)[j]? = some entry →
        EntryWritten tablet result made j ∨ Logged disk (entry.1, entry.2.1)) := by
  by_cases hopened : Opened result made
  · obtain ⟨m, part, hfile, hpart, hcount, hlog⟩ :=
      diskAfter_of_opened tablet disk result made hopened
    have hread : entryCode.decodeAll (diskAfter tablet disk result made).file =
        (tabletEntries tablet).take m := by
      rw [hfile, Code.decodeAll_append, hpart, List.append_nil]
    have hwritten : ∀ {j entry}, (tabletEntries tablet)[j]? = some entry →
        (j < m ↔ EntryWritten tablet result made j) :=
      fun hget ↦ hcount _ (List.getElem?_eq_some_iff.mp hget).1
    constructor
    · intro hrecovers _ j entry hget
      by_contra hlost
      rw [not_or, ← hwritten hget] at hlost
      refine readBack_loses tablet hread hget hlost.1 ?_ hrecovers
      rintro ⟨record, hrecord, hkey⟩
      rcases hlog with hsame | ⟨-, hempty⟩
      · exact hlost.2 ⟨record, hsame ▸ hrecord, hkey⟩
      · rw [hempty, Code.decodeAll_nil] at hrecord
        cases hrecord
    · intro hcovered
      rcases hlog with hsame | ⟨hall, hempty⟩
      · apply readBack_keeps tablet hread h hsame
        intro j entry hget
        rw [hwritten hget]
        exact hcovered hopened j entry hget
      · exact readBack_complete tablet hread hall hempty
  · rw [diskAfter_of_not_opened tablet disk result made hopened]
    exact iff_of_true h fun hopened' ↦ absurd hopened' hopened

/-- The disk after a complete checkpoint of a tablet with one cell. -/
def savedDisk : Disk where
  file := saveHistory (tabletEntries oneCell)
  log := []

/-- `open` works, the first `write` fails. -/
def firstWriteFails (i : ℕ) : WriteResult := if i = 0 then some 3 else none

theorem savedDisk_recovers : Recovers savedDisk oneCell := by
  funext key
  have hread : entryCode.decodeAll savedDisk.file =
      (tabletEntries oneCell).take (tabletEntries oneCell).length := by
    rw [savedDisk, saveHistory_eq, Code.decodeAll_encodeAll, List.take_length]
  have hlog : recordCode.decodeAll savedDisk.log = [] := Code.decodeAll_nil _
  rw [readBack_cells, hread, hlog]
  exact replay_entries_of_written oneCell fun j _ hget _ ↦ (List.getElem?_eq_some_iff.mp hget).1

theorem recovers_after_failure_iff_firstWriteFails :
    Recovers savedDisk oneCell ∧
      (Recovers (diskAfter oneCell savedDisk firstWriteFails 2) oneCell ↔
        (Opened firstWriteFails 2 → ∀ j entry, (tabletEntries oneCell)[j]? = some entry →
          EntryWritten oneCell firstWriteFails 2 j ∨ Logged savedDisk (entry.1, entry.2.1))) :=
  ⟨savedDisk_recovers,
    recovers_after_failure_iff oneCell savedDisk firstWriteFails 2 savedDisk_recovers⟩

/-- The checkpoint that fails has emptied the file and stored nothing: the cell is gone. -/
theorem failed_checkpoint_loses_cell :
    Recovers savedDisk oneCell ∧
      ¬Recovers (diskAfter oneCell savedDisk firstWriteFails 2) oneCell := by
  refine ⟨savedDisk_recovers, fun hrecovers ↦ ?_⟩
  have hdisk : diskAfter oneCell savedDisk firstWriteFails 2 = { file := [], log := [] } := rfl
  have hcell : cells oneCell (lit "row", lit "col") = some (lit "value") := by decide
  have hkey := congrFun hrecovers (lit "row", lit "col")
  have hfile : entryCode.decodeAll [] = [] := entryCode.decodeAll_nil
  have hlog : recordCode.decodeAll [] = [] := recordCode.decodeAll_nil
  rw [readBack_cells, hdisk, hfile, hlog, hcell] at hkey
  cases hkey

end PennCloud.KV.Recovery
