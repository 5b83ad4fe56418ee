import PennCloud.Common.Token
import PennCloud.Library.FileStream
import PennCloud.Library.PrefixCode

/-!
# Reading and writing length-prefixed records

What the log and the checkpoint file share. On the writing side this is `write(2)`, which may
write less than it was given or fail. On the reading side it is the parser of an entry: sizes
are taken from the header line with `get_token` and `stoi`, then each payload is read and one
separator byte is skipped. A reader may end the process, either by `exit` or by an exception
that nothing catches.
-/

open PennCloud.Library.CppString PennCloud.Library.FileStream PennCloud.Library.PrefixCode
open PennCloud.Common.Token PennCloud.KV.TabletCells

namespace PennCloud.KV.DiskRecord

/-- How a reader can end the process. -/
inductive Abort
  | exit (status : ℕ)
  | thrown (exception : StdException)
  deriving DecidableEq, Repr

/-- The result of one `write(2)`: `none` is `-1`, otherwise the number of bytes taken. -/
abbrev WriteResult := Option ℕ

/-- The file after the call, and its result. The callers store it in a `size_t` and compare it
with the size of the buffer, which `-1` never equals: no string is that long. -/
def writeFile (file buffer : Bytes) : WriteResult → Bytes × ℤ
  | none => (file, -1)
  | some taken => (file ++ buffer.take taken, min taken buffer.length)

/-- A call whose result is the size of the buffer has written all of it. -/
theorem writeFile_of_complete {file buffer : Bytes} {result : WriteResult}
    (h : (writeFile file buffer result).2 = buffer.length) :
    (writeFile file buffer result).1 = file ++ buffer := by
  cases result with
  | none =>
    simp only [writeFile] at h
    omega
  | some taken =>
    simp only [writeFile] at h ⊢
    rw [List.take_of_length_le (by omega)]

/-- A call with any other result has written less of it. -/
theorem writeFile_of_incomplete {file buffer : Bytes} {result : WriteResult}
    (h : (writeFile file buffer result).2 ≠ buffer.length) :
    ∃ part, (writeFile file buffer result).1 = file ++ part ∧ part <+: buffer ∧
      (buffer ≠ [] → part ≠ buffer) := by
  cases result with
  | none => exact ⟨[], (List.append_nil file).symm, List.nil_prefix, Ne.symm⟩
  | some taken =>
    refine ⟨buffer.take taken, rfl, List.take_prefix _ _, fun _ hwhole ↦ h ?_⟩
    have hlength := congrArg List.length hwhole
    rw [List.length_take] at hlength
    rw [writeFile, ← Nat.cast_min, hlength]

/-- Buffers written one after the other, up to the first call that does not take its whole
buffer; the second component is false if there is one. -/
def writeAll (file : Bytes) (result : ℕ → WriteResult) : List Bytes → Bytes × Bool
  | [] => (file, true)
  | buffer :: buffers =>
    if (writeFile file buffer (result 0)).2 = buffer.length then
      writeAll (writeFile file buffer (result 0)).1 (fun i ↦ result (i + 1)) buffers
    else
      ((writeFile file buffer (result 0)).1, false)

/-- Each call takes its whole buffer. -/
def WritesComplete (result : ℕ → WriteResult) (buffers : List Bytes) : Prop :=
  ∀ i, (h : i < buffers.length) → ∃ taken, result i = some taken ∧ buffers[i].length ≤ taken

theorem writeFile_complete_iff (file buffer : Bytes) (result : WriteResult) :
    (writeFile file buffer result).2 = buffer.length ↔
      ∃ taken, result = some taken ∧ buffer.length ≤ taken := by
  cases result with
  | none =>
    simp only [writeFile, reduceCtorEq, false_and, exists_false]
  | some taken =>
    simp only [writeFile, ← Nat.cast_min, Nat.cast_inj, Option.some.injEq, exists_eq_left']
    exact min_eq_right_iff

theorem writeAll_snd (file : Bytes) (result : ℕ → WriteResult) (buffers : List Bytes) :
    (writeAll file result buffers).2 = true ↔ WritesComplete result buffers := by
  induction buffers generalizing file result with
  | nil => exact iff_of_true rfl fun i hi ↦ absurd hi (Nat.not_lt_zero i)
  | cons buffer buffers ih =>
    have hcons : WritesComplete result (buffer :: buffers) ↔
        (∃ taken, result 0 = some taken ∧ buffer.length ≤ taken) ∧
          WritesComplete (fun i ↦ result (i + 1)) buffers := by
      constructor
      · intro h
        exact ⟨h 0 (Nat.succ_pos _), fun i hi ↦ h (i + 1) (Nat.succ_lt_succ hi)⟩
      · intro h i hi
        cases i with
        | zero => exact h.1
        | succ i => exact h.2 i (Nat.lt_of_succ_lt_succ hi)
    rw [hcons, ← writeFile_complete_iff file, writeAll]
    split
    · next hfirst => rw [ih, and_iff_right hfirst]
    · next hfirst => exact iff_of_false Bool.false_ne_true fun h ↦ hfirst h.1

theorem writeAll_of_true {file : Bytes} {result : ℕ → WriteResult} {buffers : List Bytes}
    (h : (writeAll file result buffers).2 = true) :
    (writeAll file result buffers).1 = file ++ buffers.flatten := by
  induction buffers generalizing file result with
  | nil => exact (List.append_nil file).symm
  | cons buffer buffers ih =>
    rw [writeAll] at h ⊢
    split at h
    · next hfirst =>
      rw [if_pos hfirst, ih h, writeFile_of_complete hfirst, List.flatten_cons, List.append_assoc]
    · cases h

/-- If the last buffer is not empty, calls that are not all complete write less than everything. -/
theorem writeAll_of_false {file : Bytes} {result : ℕ → WriteResult} {buffers : List Bytes}
    {last : Bytes} (hlast : last ≠ [])
    (h : (writeAll file result (buffers ++ [last])).2 = false) :
    ∃ part, (writeAll file result (buffers ++ [last])).1 = file ++ part ∧
      Cut part (buffers ++ [last]).flatten := by
  induction buffers generalizing file result with
  | nil =>
    rw [List.nil_append, writeAll] at h ⊢
    split at h
    · cases h
    · next hfirst =>
      obtain ⟨part, hfile, hpart, hne⟩ := writeFile_of_incomplete hfirst
      rw [if_neg hfirst, List.flatten_singleton]
      exact ⟨part, hfile, hpart, hne hlast⟩
  | cons buffer buffers ih =>
    have hrest : (buffers ++ [last]).flatten ≠ [] := by
      rw [List.flatten_append, List.flatten_singleton]
      exact List.append_ne_nil_of_right_ne_nil _ hlast
    rw [List.cons_append, writeAll] at h ⊢
    rw [List.flatten_cons]
    split at h
    · next hfirst =>
      obtain ⟨part, hfile, hcut⟩ := ih h
      rw [if_pos hfirst, hfile, writeFile_of_complete hfirst]
      exact ⟨buffer ++ part, List.append_assoc _ _ _, hcut.append_left buffer⟩
    · next hfirst =>
      obtain ⟨part, hfile, hpart, -⟩ := writeFile_of_incomplete hfirst
      rw [if_neg hfirst]
      exact ⟨part, hfile, Cut.append_right hpart hrest⟩

/-- `stoi(get_token(line, 1 + gap, &gap))`. -/
def intToken (line : Bytes) (gap : ℤ) : Except Abort (ℤ × ℤ) :=
  match getToken line (intToSize (1 + gap)) with
  | .error e => .error (.thrown e)
  | .ok (token, gap) =>
    match stoi token with
    | .error e => .error (.thrown e)
    | .ok value => .ok (value, gap)

/-- `string payload(size, 0); file.read(payload.data(), size); file.seekg(1, ios_base::cur);` -/
def readPayload (file : InStream) (size : ℤ) : Except Abort (InStream × Bytes) :=
  if size < 0 then
    .error (.thrown .lengthError)
  else
    let (file, payload) := file.read size.toNat
    .ok (file.skip 1, payload)

/-- Row and column of an entry whose sizes have been parsed. -/
def readKeys (file : InStream) (rb cb : ℤ) : Except Abort (InStream × Bytes × Bytes) := do
  let (file, rk) ← readPayload file rb
  let (file, ck) ← readPayload file cb
  return (file, rk, ck)

/-- The body of an entry with row, column and value. -/
def readPut (line : Bytes) (gap : ℤ) (file : InStream) :
    Except Abort (InStream × Bytes × Bytes × Bytes) := do
  let (rb, gap) ← intToken line gap
  let (cb, gap) ← intToken line gap
  let (db, _) ← intToken line gap
  let (file, rk, ck) ← readKeys file rb cb
  let (file, ddt) ← readPayload file db
  return (file, rk, ck, ddt)

/-- The body of an entry with row and column. -/
def readDelete (line : Bytes) (gap : ℤ) (file : InStream) :
    Except Abort (InStream × Bytes × Bytes) := do
  let (rb, gap) ← intToken line gap
  let (cb, _) ← intToken line gap
  readKeys file rb cb

/-! ## Readers do not move backwards -/

theorem readPayload_rest_le {file file' : InStream} {size : ℤ} {payload : Bytes}
    (h : readPayload file size = .ok (file', payload)) :
    file'.rest.length ≤ file.rest.length := by
  unfold readPayload at h
  split at h
  · cases h
  · cases h
    exact (InStream.skip_rest_le _ _).trans (InStream.read_rest_le _ _)

theorem readKeys_rest_le {file file' : InStream} {rb cb : ℤ} {rk ck : Bytes}
    (h : readKeys file rb cb = .ok (file', rk, ck)) :
    file'.rest.length ≤ file.rest.length := by
  simp only [readKeys, bind, Except.bind] at h
  split at h
  · cases h
  · next p hrow =>
    split at h
    · cases h
    · next q hcol =>
      cases h
      exact (readPayload_rest_le hcol).trans (readPayload_rest_le hrow)

theorem readPut_rest_le {line : Bytes} {gap : ℤ} {file file' : InStream} {rk ck ddt : Bytes}
    (h : readPut line gap file = .ok (file', rk, ck, ddt)) :
    file'.rest.length ≤ file.rest.length := by
  simp only [readPut, bind, Except.bind] at h
  split at h
  · cases h
  split at h
  · cases h
  split at h
  · cases h
  split at h
  · cases h
  · next p hkeys =>
    split at h
    · cases h
    · next q hval =>
      cases h
      exact (readPayload_rest_le hval).trans (readKeys_rest_le hkeys)

theorem readDelete_rest_le {line : Bytes} {gap : ℤ} {file file' : InStream} {rk ck : Bytes}
    (h : readDelete line gap file = .ok (file', rk, ck)) :
    file'.rest.length ≤ file.rest.length := by
  simp only [readDelete, bind, Except.bind] at h
  split at h
  · cases h
  split at h
  · cases h
  · exact readKeys_rest_le h

end PennCloud.KV.DiskRecord
