import PennCloud.KV.LogFile
import PennCloud.KV.CheckpointFile
import PennCloud.Library.PrefixCode

/-!
# What the files on disk determine

The records of the log and the entries of the checkpoint file carry the sizes of their
payloads in front, so both are prefix codes: a payload may hold any bytes, also text that looks
like a record. Two different histories leave different logs, two different sequences of cells
different checkpoint files. The readers here are not those of the program, which recognises
no record; they say what could be read.
-/

open PennCloud.Library.CppString PennCloud.Library.PrefixCode
open PennCloud.KV.TabletCells PennCloud.KV.DiskRecord PennCloud.KV.LogFile
open PennCloud.KV.CheckpointFile

namespace PennCloud.KV.RecordCodes

/-! ## Sizes and payloads -/

/-- A number and the byte after it. -/
def readSize (text : Bytes) : ℕ × Bytes :=
  (digitsValue (text.takeWhile isDigit), (text.dropWhile isDigit).drop 1)

/-- A payload of this size and the byte after it. -/
def readField (size : ℕ) (text : Bytes) : Bytes × Bytes := (text.take size, text.drop (size + 1))

theorem readSize_append (n : ℕ) {sep : UInt8} (hsep : isDigit sep = false) (rest : Bytes) :
    readSize (decimal n ++ sep :: rest) = (n, rest) := by
  have hdigits : ∀ b ∈ decimal n, isDigit b = true := by
    intro b hb
    simpa only [isDigit, Bool.and_eq_true, decide_eq_true_eq] using isDigit_of_mem_decimal hb
  have hstop : ¬isDigit sep = true := by rw [hsep]; exact Bool.false_ne_true
  unfold readSize
  rw [List.takeWhile_append_of_pos hdigits, List.dropWhile_append_of_pos hdigits,
    List.takeWhile_cons_of_neg hstop, List.dropWhile_cons_of_neg hstop, List.append_nil,
    digitsValue_decimal, List.drop_succ_cons, List.drop_zero]

theorem readField_append (field : Bytes) (sep : UInt8) (rest : Bytes) :
    readField field.length (field ++ sep :: rest) = (field, rest) := by
  unfold readField
  rw [List.take_left, ← List.drop_drop, List.drop_left, List.drop_succ_cons, List.drop_zero]

/-- Row and column of a record after its name. -/
def readKeyFields (text : Bytes) : Bytes × Bytes :=
  let (rb, text) := readSize text
  let (cb, text) := readSize text
  let (rk, text) := readField rb text
  let (ck, _) := readField cb text
  (rk, ck)

/-- Row, column and value of a record after its name. -/
def readCellFields (text : Bytes) : Bytes × Bytes × Bytes :=
  let (rb, text) := readSize text
  let (cb, text) := readSize text
  let (db, text) := readSize text
  let (rk, text) := readField rb text
  let (ck, text) := readField cb text
  let (ddt, _) := readField db text
  (rk, ck, ddt)

variable {p q r : UInt8} (hp : isDigit p = false) (hq : isDigit q = false) (s t u : UInt8)
include hp hq

theorem readKeyFields_append (rk ck rest : Bytes) :
    readKeyFields (decimal rk.length ++ p :: (decimal ck.length ++ q ::
      (rk ++ s :: (ck ++ t :: rest)))) = (rk, ck) := by
  simp only [readKeyFields, readSize_append _ hp, readSize_append _ hq, readField_append]

theorem readCellFields_append (hr : isDigit r = false) (rk ck ddt rest : Bytes) :
    readCellFields (decimal rk.length ++ p :: (decimal ck.length ++ q :: (decimal ddt.length ++ r ::
      (rk ++ s :: (ck ++ t :: (ddt ++ u :: rest)))))) = (rk, ck, ddt) := by
  simp only [readCellFields, readSize_append _ hp, readSize_append _ hq, readSize_append _ hr,
    readField_append]

omit hp hq

/-! ## The codes -/

/-- The record at the front of a log; the two kinds differ in their first letter. -/
def guessRecord (text : Bytes) : LogRecord :=
  if text.head? = some 80 then
    let (rk, ck, ddt) := readCellFields (text.drop 4)
    .put rk ck ddt
  else
    let (rk, ck) := readKeyFields (text.drop 7)
    .delete rk ck

theorem guessRecord_append (record : LogRecord) (rest : Bytes) :
    guessRecord (recordBytes record ++ rest) = record := by
  have hname : lit "PUT " = [80, 85, 84, 32] := rfl
  have hname' : lit "DELETE " = [68, 69, 76, 69, 84, 69, 32] := rfl
  have hspace : lit " " = [32] := rfl
  have hnewline : lit "\n" = [10] := rfl
  cases record with
  | put rk ck ddt =>
    have hread := readCellFields_append (p := 32) (q := 32) (r := 32) rfl rfl 32 10 10 rfl
      rk ck ddt rest
    simp only [recordBytes, getFmtPut, hname, hspace, hnewline, List.append_assoc, List.cons_append,
      List.nil_append, guessRecord, List.head?_cons, if_true, List.drop_succ_cons, List.drop_zero,
      hread]
  | delete rk ck =>
    have hread := readKeyFields_append (p := 32) (q := 10) rfl rfl 10 10 rk ck rest
    have hletter : ¬(some 68 : Option UInt8) = some 80 := by decide
    simp only [recordBytes, getFmtDel, hname', hspace, hnewline, List.append_assoc,
      List.cons_append, List.nil_append, guessRecord, List.head?_cons, if_neg hletter,
      List.drop_succ_cons, List.drop_zero, hread]

theorem recordBytes_ne_nil (record : LogRecord) : recordBytes record ≠ [] := by
  have hname : lit "PUT " ≠ [] := by decide
  have hname' : lit "DELETE " ≠ [] := by decide
  cases record with
  | put rk ck ddt =>
    simp only [recordBytes, getFmtPut, List.append_assoc, ne_eq, List.append_eq_nil_iff, hname,
      false_and, not_false_eq_true]
  | delete rk ck =>
    simp only [recordBytes, getFmtDel, List.append_assoc, ne_eq, List.append_eq_nil_iff, hname',
      false_and, not_false_eq_true]

/-- The code of the log. -/
def recordCode : Code LogRecord UInt8 :=
  ofGuess recordBytes guessRecord guessRecord_append recordBytes_ne_nil

theorem guessEntry_append (entry : Bytes × Bytes × Bytes) (rest : Bytes) :
    readCellFields ((entryBytes entry ++ rest).drop 5) = entry := by
  have hname : lit "DATA " = [68, 65, 84, 65, 32] := rfl
  have hspace : lit " " = [32] := rfl
  have hnewline : lit "\n" = [10] := rfl
  have hread := readCellFields_append (p := 32) (q := 32) (r := 10) rfl rfl 10 10 10 rfl
    entry.1 entry.2.1 entry.2.2 rest
  simp only [entryBytes, getFmtData, hname, hspace, hnewline, List.append_assoc, List.cons_append,
    List.nil_append, List.drop_succ_cons, List.drop_zero, hread]

/-- The code of the checkpoint file. -/
def entryCode : Code (Bytes × Bytes × Bytes) UInt8 :=
  ofGuess entryBytes (fun text ↦ readCellFields (text.drop 5)) guessEntry_append entryBytes_ne_nil

/-! ## Histories -/

/-- The log after one more record whose writes are complete. -/
def appendComplete (log : Bytes) (record : LogRecord) : Bytes :=
  (appendRecord log (fun _ ↦ some (recordBytes record).length) record).1

/-- The log after a sequence of records. -/
def appendHistory (log : Bytes) (records : List LogRecord) : Bytes :=
  records.foldl appendComplete log

theorem appendHistory_eq (log : Bytes) (records : List LogRecord) :
    appendHistory log records = log ++ recordCode.encodeAll records := by
  induction records generalizing log with
  | nil => exact (List.append_nil log).symm
  | cons record records ih =>
    have hfirst : appendComplete log record = log ++ recordBytes record :=
      appendRecord_of_complete log record _ fun _ ↦ ⟨_, rfl, le_rfl⟩
    have hrest := ih (appendComplete log record)
    rw [appendHistory, List.foldl_cons, ← appendHistory, hrest, hfirst, List.append_assoc]
    rfl

/-- The checkpoint file with these entries, all writes being complete. -/
def saveHistory (entries : List (Bytes × Bytes × Bytes)) : Bytes :=
  (saveEntries [] (fun _ ↦ some (entries.flatMap entryBytes).length) entries).1

theorem saveHistory_eq (entries : List (Bytes × Bytes × Bytes)) :
    saveHistory entries = entryCode.encodeAll entries := by
  have htaken : ∀ entry ∈ entries,
      (entryBytes entry).length ≤ (entries.flatMap entryBytes).length := by
    intro entry hentry
    exact (List.sublist_flatten_of_mem (List.mem_map_of_mem hentry)).length_le
  rw [saveHistory, saveEntries_of_complete [] htaken]
  rfl

/-- No two histories leave the same bytes on disk. -/
theorem histories_distinguishable :
    (∀ log, Function.Injective (appendHistory log)) ∧ Function.Injective saveHistory := by
  constructor
  · intro log records records' h
    rw [appendHistory_eq, appendHistory_eq] at h
    exact recordCode.encodeAll_injective (List.append_cancel_left h)
  · intro entries entries' h
    rw [saveHistory_eq, saveHistory_eq] at h
    exact entryCode.encodeAll_injective h

end PennCloud.KV.RecordCodes
