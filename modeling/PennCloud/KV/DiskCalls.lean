import PennCloud.KV.LogFile
import PennCloud.KV.CheckpointFile
import PennCloud.Library.SystemCalls

/-!
# The two files of a node

The system calls that `tbl_saving`, `checkpt_log_p` and `del_log` make, one by one, on the
checkpoint file and the log. Any of them can fail or, if it is a `write`, fall short; the caller
stops there. A process that dies is a run of the first calls only.
-/

open PennCloud.Library.SystemCalls
open PennCloud.KV.TabletCells PennCloud.KV.DiskRecord PennCloud.KV.LogFile
open PennCloud.KV.CheckpointFile

namespace PennCloud.KV.DiskCalls

@[ext]
structure Disk where
  file : Bytes
  log : Bytes
  deriving DecidableEq

/-- `open` with `O_TRUNC`, `write` to either file, `ftruncate` of the log. -/
inductive SysCall
  | openFile
  | writeFile (buffer : Bytes)
  | writeLog (buffer : Bytes)
  | truncateLog
  deriving DecidableEq

def SysCall.effect (disk : Disk) : SysCall → WriteResult → Disk
  | .openFile, some _ => { disk with file := [] }
  | .openFile, none => disk
  | .writeFile buffer, result => { disk with file := (DiskRecord.writeFile disk.file buffer result).1 }
  | .writeLog buffer, result => { disk with log := (DiskRecord.writeFile disk.log buffer result).1 }
  | .truncateLog, some _ => { disk with log := [] }
  | .truncateLog, none => disk

/-- Whether the caller goes on: a `write` has to take the whole buffer, a failed `ftruncate`
is only reported. -/
def SysCall.ok : SysCall → WriteResult → Bool
  | .openFile, result => result.isSome
  | .writeFile buffer, result => (DiskRecord.writeFile [] buffer result).2 = buffer.length
  | .writeLog buffer, result => (DiskRecord.writeFile [] buffer result).2 = buffer.length
  | .truncateLog, _ => true

def device : Device Disk SysCall WriteResult where
  effect := SysCall.effect
  ok := SysCall.ok

theorem idle : device.Idle none := by
  intro disk call
  cases call with
  | openFile => rfl
  | writeFile buffer => rfl
  | writeLog buffer => rfl
  | truncateLog => rfl

/-- The result of a `write` does not depend on the file. -/
theorem writeFile_snd (file buffer : Bytes) (result : WriteResult) :
    (DiskRecord.writeFile file buffer result).2 = (DiskRecord.writeFile [] buffer result).2 := by
  cases result with
  | none => rfl
  | some taken => rfl

/-! ## Appending a record -/

theorem run_writeLog (disk : Disk) (result : ℕ → WriteResult) (buffers : List Bytes) :
    device.run disk result (buffers.map .writeLog) =
      ({ disk with log := (writeAll disk.log result buffers).1 },
        (writeAll disk.log result buffers).2) := by
  induction buffers generalizing disk result with
  | nil => rfl
  | cons buffer buffers ih =>
    simp only [List.map_cons, Device.run, device, SysCall.ok, SysCall.effect, writeAll,
      writeFile_snd disk.log, decide_eq_true_eq] at ih ⊢
    split
    · rw [ih]
    · rfl

/-- The calls of `checkpt_log_p` and `del_log`. -/
def recordCalls (record : LogRecord) : List SysCall := (recordBuffers record).map .writeLog

theorem run_recordCalls (disk : Disk) (result : ℕ → WriteResult) (record : LogRecord) :
    (device.run disk result (recordCalls record)).1 =
      { disk with log := (appendRecord disk.log result record).1 } := by
  rw [recordCalls, run_writeLog, appendRecord_eq]

/-! ## Saving the tablet -/

theorem run_writeFile (disk : Disk) (result : ℕ → WriteResult) (buffers : List Bytes) :
    device.run disk result (buffers.map .writeFile) =
      ({ disk with file := (writeAll disk.file result buffers).1 },
        (writeAll disk.file result buffers).2) := by
  induction buffers generalizing disk result with
  | nil => rfl
  | cons buffer buffers ih =>
    simp only [List.map_cons, Device.run, device, SysCall.ok, SysCall.effect, writeAll,
      writeFile_snd disk.file, decide_eq_true_eq] at ih ⊢
    split
    · rw [ih]
    · rfl

/-- The calls for one entry. -/
def entryCalls (entry : Bytes × Bytes × Bytes) : List SysCall :=
  (entryBuffers entry).map .writeFile

theorem entryCalls_length (entry : Bytes × Bytes × Bytes) : (entryCalls entry).length = 3 := rfl

/-- The calls of `tbl_saving`. -/
def savingCalls (tablet : Tablet) : List SysCall :=
  .openFile :: ((tabletEntries tablet).flatMap entryCalls ++ [.truncateLog])

theorem run_entryCalls (disk : Disk) (result : ℕ → WriteResult) (entry : Bytes × Bytes × Bytes) :
    device.run disk result (entryCalls entry) =
      ({ disk with file := (saveEntry disk.file entry.1 entry.2.1 entry.2.2 result).1 },
        (saveEntry disk.file entry.1 entry.2.1 entry.2.2 result).2) := by
  rw [entryCalls, run_writeFile, saveEntry_eq]

/-- The two loops make the calls of the entries. -/
theorem run_entries (disk : Disk) (result : ℕ → WriteResult)
    (entries : List (Bytes × Bytes × Bytes)) :
    device.run disk result (entries.flatMap entryCalls) =
      ({ disk with file := (saveEntries disk.file result entries).1 },
        (saveEntries disk.file result entries).2) := by
  induction entries generalizing disk result with
  | nil => rfl
  | cons entry entries ih =>
    rw [List.flatMap_cons, Device.run_append, run_entryCalls, ih]
    cases hentry : saveEntry disk.file entry.1 entry.2.1 entry.2.2 result with
    | mk file complete =>
      cases complete with
      | false => simp only [saveEntries, hentry, Bool.false_eq_true, if_false]
      | true => simp only [saveEntries, hentry, if_true, entryCalls_length]

/-- The results as `tbl_saving` meets them. -/
def saveCalls (tablet : Tablet) (result : ℕ → WriteResult) : SaveCalls where
  opened := (result 0).isSome
  written i := result (i + 1)
  truncated := (result (3 * (tabletEntries tablet).length + 1)).isSome

theorem run_savingCalls (tablet : Tablet) (disk : Disk) (result : ℕ → WriteResult) :
    (device.run disk result (savingCalls tablet)).1 =
      { file := (tblSaving tablet disk.file disk.log (saveCalls tablet result)).file
        log := (tblSaving tablet disk.file disk.log (saveCalls tablet result)).log } := by
  have hlength : ((tabletEntries tablet).flatMap entryCalls).length =
      3 * (tabletEntries tablet).length := by
    rw [List.length_flatMap]
    simp [entryCalls_length, mul_comm]
  rw [savingCalls, Device.run]
  cases hopen : result 0 with
  | none => simp only [device, SysCall.ok, SysCall.effect, tblSaving, saveCalls, hopen,
      Option.isSome_none, Bool.false_eq_true, if_false]
  | some descriptor =>
    have hok : device.ok .openFile (some descriptor) = true := rfl
    have hemptied : device.effect disk .openFile (some descriptor) = { disk with file := [] } := rfl
    have hwritten : (saveCalls tablet result).written = fun i ↦ result (i + 1) := rfl
    have hopened : (saveCalls tablet result).opened = true := by
      simp only [saveCalls, hopen, Option.isSome_some]
    rw [if_pos hok, hemptied, Device.run_append, run_entries, hlength, tblSaving, if_pos hopened,
      hwritten]
    cases hsave : saveEntries [] (fun i ↦ result (i + 1)) (tabletEntries tablet) with
    | mk file complete =>
      cases complete with
      | false => rfl
      | true =>
        cases htruncate : result (3 * (tabletEntries tablet).length + 1) with
        | none => simp [Device.run, device, SysCall.ok, SysCall.effect, saveCalls, htruncate]
        | some _ => simp [Device.run, device, SysCall.ok, SysCall.effect, saveCalls, htruncate]

end PennCloud.KV.DiskCalls
