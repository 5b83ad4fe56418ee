import PennCloud.KV.DiskRecord

/-!
# The operation log

`checkpt_log_p` and `del_log` append a record to the log, `log_operation` replays the log at
start-up. The reader selects the kind of a record by its first token, and `get_token` always
returns the empty string, so no record is ever recognised: every log is read as a list of
invalid lines, the tablet stays as it is and the count is zero. Replay is the inverse of
logging exactly for the empty log.
-/

open PennCloud.Library.CppString PennCloud.Library.FileStream PennCloud.Library.PrefixCode
open PennCloud.Library.WriteLog
open PennCloud.Common.Token PennCloud.KV.TabletCells PennCloud.KV.DiskRecord

namespace PennCloud.KV.LogFile

/-- `PUT {0} {1} {2} {3} {4}\n`: sizes, then row and column on the same line. -/
def getFmtPut (a b c : Bytes) : Bytes :=
  lit "PUT " ++ decimal a.length ++ lit " " ++ decimal b.length ++ lit " " ++ decimal c.length ++
    lit " " ++ a ++ lit " " ++ b ++ lit "\n"

/-- `DELETE {0} {1}\n{2}\n{3}\n`. -/
def getFmtDel (rk ck : Bytes) : Bytes :=
  lit "DELETE " ++ decimal rk.length ++ lit " " ++ decimal ck.length ++ lit "\n" ++ rk ++
    lit "\n" ++ ck ++ lit "\n"

/-- Three writes; the first one that is not complete ends the call with `-1`. -/
def checkptLogP (log rk ck ddt : Bytes) (result : ℕ → WriteResult) : Bytes × ℤ :=
  let putStr := getFmtPut rk ck ddt
  let (log, lenWrttn) := writeFile log putStr (result 0)
  if lenWrttn ≠ putStr.length then
    (log, -1)
  else
    let (log, lenWrttn2) := writeFile log ddt (result 1)
    if lenWrttn2 ≠ ddt.length then
      (log, -1)
    else
      let (log, newLine) := writeFile log (lit "\n") (result 2)
      if newLine ≠ 1 then
        (log, -1)
      else
        (log, Int.bmod (lenWrttn2 + lenWrttn + 1) (2 ^ 32))

/-- One write. -/
def delLog (log rk ck : Bytes) (result : ℕ → WriteResult) : Bytes × ℤ :=
  let strThis := getFmtDel rk ck
  let (log, lenWrttn) := writeFile log strThis (result 0)
  if lenWrttn ≠ strThis.length then (log, -1) else (log, Int.bmod lenWrttn (2 ^ 32))

/-- Append one record. -/
def appendRecord (log : Bytes) (result : ℕ → WriteResult) : LogRecord → Bytes × ℤ
  | .put rk ck ddt => checkptLogP log rk ck ddt result
  | .delete rk ck => delLog log rk ck result

/-- What a record looks like on disk once all its writes are complete. -/
def recordBytes : LogRecord → Bytes
  | .put rk ck ddt => getFmtPut rk ck ddt ++ ddt ++ lit "\n"
  | .delete rk ck => getFmtDel rk ck

/-- What is written for a record. -/
def recordBuffers : LogRecord → List Bytes
  | .put rk ck ddt => [getFmtPut rk ck ddt, ddt] ++ [lit "\n"]
  | .delete rk ck => [] ++ [getFmtDel rk ck]

theorem recordBuffers_flatten (record : LogRecord) :
    (recordBuffers record).flatten = recordBytes record := by
  cases record with
  | put rk ck ddt =>
    simp only [recordBuffers, recordBytes, List.cons_append, List.nil_append, List.flatten_cons,
      List.flatten_nil, List.append_nil, List.append_assoc]
  | delete rk ck => exact List.flatten_singleton

theorem appendRecord_eq (log : Bytes) (record : LogRecord) (result : ℕ → WriteResult) :
    (appendRecord log result record).1 = (writeAll log result (recordBuffers record)).1 := by
  have hnewline : ((lit "\n").length : ℤ) = 1 := rfl
  cases record with
  | put rk ck ddt =>
    simp only [appendRecord, checkptLogP, recordBuffers, List.cons_append, List.nil_append,
      writeAll, ne_eq, ite_not, hnewline, zero_add, Nat.reduceAdd]
    split_ifs with hheader hvalue hlast
    · rfl
    · rfl
    · rfl
    · rfl
  | delete rk ck =>
    simp only [appendRecord, delLog, recordBuffers, List.nil_append, writeAll, ne_eq, ite_not]
    split_ifs with hrecord
    · rfl
    · rfl

theorem appendRecord_of_writesComplete (log : Bytes) {record : LogRecord}
    {result : ℕ → WriteResult} (h : WritesComplete result (recordBuffers record)) :
    (appendRecord log result record).1 = log ++ recordBytes record := by
  rw [appendRecord_eq, writeAll_of_true ((writeAll_snd _ _ _).mpr h), recordBuffers_flatten]

/-- A record whose writes are not all complete is in the log in part. -/
theorem appendRecord_of_not_writesComplete (log : Bytes) {record : LogRecord}
    {result : ℕ → WriteResult} (h : ¬WritesComplete result (recordBuffers record)) :
    ∃ part, (appendRecord log result record).1 = log ++ part ∧ Cut part (recordBytes record) := by
  have hfailed : (writeAll log result (recordBuffers record)).2 = false := by
    rw [← Bool.not_eq_true, writeAll_snd]
    exact h
  rw [appendRecord_eq, ← recordBuffers_flatten]
  cases record with
  | put rk ck ddt =>
    have hnewline : lit "\n" ≠ [] := by decide
    exact writeAll_of_false hnewline hfailed
  | delete rk ck =>
    have hname : lit "DELETE " ≠ [] := by decide
    have hrecord : getFmtDel rk ck ≠ [] := by
      simp only [getFmtDel, List.append_assoc, ne_eq, List.append_eq_nil_iff, hname, false_and,
        not_false_eq_true]
    exact writeAll_of_false hrecord hfailed

/-- Appending with complete writes adds exactly the bytes of the record. -/
theorem appendRecord_of_complete (log : Bytes) (record : LogRecord) (result : ℕ → WriteResult)
    (hcomplete : ∀ i, ∃ taken, result i = some taken ∧ (recordBytes record).length ≤ taken) :
    (appendRecord log result record).1 = log ++ recordBytes record := by
  apply appendRecord_of_writesComplete
  intro i hi
  obtain ⟨taken, htaken, hle⟩ := hcomplete i
  refine ⟨taken, htaken, le_trans ?_ hle⟩
  rw [← recordBuffers_flatten]
  exact (List.sublist_flatten_of_mem (List.getElem_mem hi)).length_le

/-- The log file after a sequence of appends whose writes all complete. -/
def logFile (records : List LogRecord) : Bytes := records.flatMap recordBytes

/-- The loop of `log_operation`. -/
def logLoop (file : InStream) (tablet : Tablet) (output : ℤ) : Except Abort (Tablet × ℤ) :=
  match hline : file.getline with
  | (_, none) => .ok (tablet, output)
  | (file', some lThis) =>
    have _hlt : file'.rest.length < file.rest.length := InStream.getline_rest_lt hline
    let output := output + 1
    match getToken lThis 0 with
    | .error e => .error (.thrown e)
    | .ok (tkn, gap) =>
      if tkn = lit "PUT" then
        match hput : readPut lThis gap file' with
        | .error e => .error e
        | .ok (file'', rk, ck, ddt) =>
          have _hle := readPut_rest_le hput
          logLoop file'' (conductP tablet rk ck ddt).1 output
      else if tkn = lit "DELETE" then
        match hdel : readDelete lThis gap file' with
        | .error e => .error e
        | .ok (file'', rk, ck) =>
          have _hle := (InStream.skip_rest_le file'' 1).trans (readDelete_rest_le hdel)
          logLoop (file''.skip 1) (conductD tablet rk ck).1 output
      else
        logLoop file' tablet (output - 1)
termination_by file.rest.length

/-- `log_operation`: the tablet afterwards and the returned count. `none` is a log file that
cannot be opened. -/
def logOperation (file : Option Bytes) (tablet : Tablet) : Except Abort (Tablet × ℤ) :=
  match file with
  | none => .ok (tablet, -1)
  | some content => logLoop { rest := content } tablet 0

/-! ## What the replay does -/

/-- No line selects a branch that touches the tablet or keeps the count. -/
theorem logLoop_eq (file : InStream) (tablet : Tablet) (output : ℤ) :
    logLoop file tablet output = .ok (tablet, output) := by
  have hput : lit "PUT" ≠ [] := by decide
  have hdelete : lit "DELETE" ≠ [] := by decide
  fun_induction logLoop file tablet output with
  | case1 => rfl
  | case2 _ _ _ _ _ _ _ _ htoken => cases htoken
  | case3 _ _ _ _ _ _ _ gap _ _ htoken => exact absurd htoken (getToken_ne_ok 0 gap hput)
  | case4 _ _ _ _ _ _ _ _ gap _ _ _ _ _ _ htoken => exact absurd htoken (getToken_ne_ok 0 gap hput)
  | case5 _ _ _ _ _ _ _ gap _ _ htoken => exact absurd htoken (getToken_ne_ok 0 gap hdelete)
  | case6 _ _ _ _ _ _ _ _ gap _ _ _ _ _ htoken => exact absurd htoken (getToken_ne_ok 0 gap hdelete)
  | case7 file tablet output _ _ _ _ output' _ _ _ _ _ ih =>
    rw [ih]
    simp only [output', add_sub_cancel_right]

theorem logOperation_some (content : Bytes) (tablet : Tablet) :
    logOperation (some content) tablet = .ok (tablet, 0) :=
  logLoop_eq _ tablet 0

/-- Replaying the log of these records leaves the tablet they produce and counts them. -/
def ReplayUndoesLogging (tablet : Tablet) (records : List LogRecord) : Prop :=
  logOperation (some (logFile records)) tablet = .ok (records.foldl conduct tablet, records.length)

theorem replay_undoes_logging_iff (tablet : Tablet) (records : List LogRecord) :
    ReplayUndoesLogging tablet records ↔ records = [] := by
  unfold ReplayUndoesLogging
  rw [logOperation_some]
  constructor
  · intro h
    simp only [Except.ok.injEq, Prod.mk.injEq] at h
    have hlength : records.length = 0 := by exact_mod_cast h.2.symm
    exact List.length_eq_zero_iff.mp hlength
  · rintro rfl
    rfl

/-- One stored value is lost: the replay reports no record and leaves the tablet empty. -/
theorem replay_loses_put :
    ¬ReplayUndoesLogging ∅ [.put (lit "row") (lit "col") (lit "value")] := by
  intro h
  rw [ReplayUndoesLogging, logOperation_some] at h
  simp at h

end PennCloud.KV.LogFile
