import PennCloud.Library.WriteLog
import Mathlib.Data.List.AList

/-!
# Tablets

A tablet is the protobuf message `Tablet`: a map from row keys to rows, each a map from column
keys to values. Every write of the server goes through `conductP` or `conductD`, which copy
a whole row out of the map, change the copy and store it back. Read as a function from
(row, column) to an optional value, the two are single-cell writes; the empty rows that
deletion and `operator[]` leave behind are invisible there.

The entries of an `AList` stand in the order in which the map is iterated, so a statement
about every tablet is also one about every iteration order.
-/

open PennCloud.Library.WriteLog

namespace PennCloud.KV.TabletCells

/-- A C++ `std::string`. -/
abbrev Bytes := List UInt8

instance : LawfulBEq Bytes := inferInstance

/-- The bytes of an ASCII literal. -/
def lit (s : String) : Bytes := s.toList.map fun c ↦ UInt8.ofNat c.toNat

/-- `Tablet.Row`: column keys to values. -/
abbrev Row := AList fun _ : Bytes ↦ Bytes

/-- `Tablet`: row keys to rows. -/
abbrev Tablet := AList fun _ : Bytes ↦ Row

/-- `(*tablet.mutable_rows())[rk]`: a missing row is created empty. -/
def mutableRow (tablet : Tablet) (rk : Bytes) : Tablet × Row :=
  match tablet.lookup rk with
  | some row => (tablet, row)
  | none => (tablet.insert rk ∅, ∅)

/-- Store a value; the result is its size as an `unsigned`. -/
def conductP (tablet : Tablet) (rk ck ddt : Bytes) : Tablet × UInt32 :=
  let (tablet, thisR) := mutableRow tablet rk
  let thisR := thisR.insert ck ddt
  (tablet.insert rk thisR, UInt32.ofNat ddt.length)

/-- Erase a value; the result counts the erased cells. -/
def conductD (tablet : Tablet) (rk ck : Bytes) : Tablet × UInt32 :=
  match tablet.lookup rk with
  | none => (tablet, 0)
  | some thisR =>
    match thisR.lookup ck with
    | none => (tablet, 0)
    | some _ => (tablet.insert rk (thisR.erase ck), 1)

/-! ## Cells -/

/-- The flat reading of a tablet. -/
def cells (tablet : Tablet) (key : Bytes × Bytes) : Option Bytes :=
  (tablet.lookup key.1).bind fun row ↦ row.lookup key.2

/-- Two tablets store the same cells; rows without columns do not count. -/
def SameCells (tablet tablet' : Tablet) : Prop := cells tablet = cells tablet'

theorem cells_empty (key : Bytes × Bytes) : cells ∅ key = none := by
  simp [cells]

theorem cells_insert_row (tablet : Tablet) (rk : Bytes) (row : Row) (key : Bytes × Bytes) :
    cells (tablet.insert rk row) key =
      if key.1 = rk then row.lookup key.2 else cells tablet key := by
  unfold cells
  split
  · next h =>
    rw [h, AList.lookup_insert]
    rfl
  · next h => rw [AList.lookup_insert_ne h]

/-- Creating a missing row shows no new cell. -/
theorem mutableRow_cells (tablet : Tablet) (rk : Bytes) :
    cells (mutableRow tablet rk).1 = cells tablet := by
  funext ⟨rk', ck'⟩
  unfold mutableRow
  split
  · rfl
  · next h =>
    rw [cells_insert_row]
    split
    · next hrow =>
      subst hrow
      simp [cells, h]
    · rfl

theorem mutableRow_lookup (tablet : Tablet) (rk ck : Bytes) :
    (mutableRow tablet rk).2.lookup ck = cells tablet (rk, ck) := by
  unfold mutableRow cells
  split
  · next h => simp [h]
  · next h => simp [h]

theorem conductP_cells (tablet : Tablet) (rk ck ddt : Bytes) :
    cells (conductP tablet rk ck ddt).1 = Function.update (cells tablet) (rk, ck) (some ddt) := by
  funext ⟨rk', ck'⟩
  simp only [conductP, cells_insert_row, Function.update_apply, Prod.mk.injEq]
  by_cases hr : rk' = rk
  · subst hr
    by_cases hc : ck' = ck
    · subst hc
      simp
    · simp only [if_true, AList.lookup_insert_ne hc, mutableRow_lookup, true_and, if_neg hc]
  · simp only [mutableRow_cells, hr, false_and, if_false]

theorem conductP_size (tablet : Tablet) (rk ck ddt : Bytes) :
    (conductP tablet rk ck ddt).2 = UInt32.ofNat ddt.length := rfl

/-- `conductD` stores the shortened row even where this leaves it empty. -/
theorem conductD_cells (tablet : Tablet) (rk ck : Bytes) :
    cells (conductD tablet rk ck).1 = Function.update (cells tablet) (rk, ck) none := by
  have habsent : cells tablet (rk, ck) = none →
      Function.update (cells tablet) (rk, ck) none = cells tablet := by
    intro h
    rw [← h, Function.update_eq_self]
  unfold conductD
  split
  · next h =>
    exact (habsent (by simp [cells, h])).symm
  · next row h =>
    split
    · next hc => exact (habsent (by simp [cells, h, hc])).symm
    · next hc =>
      funext ⟨rk', ck'⟩
      simp only [cells_insert_row, Function.update_apply, Prod.mk.injEq]
      by_cases hr : rk' = rk
      · subst hr
        by_cases hck : ck' = ck
        · subst hck
          simp
        · simp only [if_true, AList.lookup_erase_ne hck, true_and, if_neg hck, cells, h,
            Option.bind_some]
      · simp only [hr, if_false, false_and]

theorem conductD_count (tablet : Tablet) (rk ck : Bytes) :
    (conductD tablet rk ck).2 = if (cells tablet (rk, ck)).isSome then 1 else 0 := by
  unfold conductD cells
  split
  · next h => simp [h]
  · next row h =>
    split
    · next hc => simp [h, hc]
    · next hc => simp [h, hc]

/-! ## Log records -/

/-- The two kinds of record the log holds, with the payload of each. -/
inductive LogRecord
  | put (rk ck ddt : Bytes)
  | delete (rk ck : Bytes)
  deriving DecidableEq, Repr

/-- The cell a record is about. -/
def LogRecord.cell : LogRecord → Bytes × Bytes
  | .put rk ck _ => (rk, ck)
  | .delete rk ck => (rk, ck)

/-- The row whose lock guards the record. -/
def LogRecord.row (record : LogRecord) : Bytes := record.cell.1

/-- The content of the cell after the record has been applied. -/
def LogRecord.outcome : LogRecord → Option Bytes
  | .put _ _ ddt => some ddt
  | .delete _ _ => none

instance : Write LogRecord (Bytes × Bytes) (Option Bytes) where
  key := LogRecord.cell
  val := LogRecord.outcome

/-- What the server does to its tablet for a record. -/
def conduct (tablet : Tablet) : LogRecord → Tablet
  | .put rk ck ddt => (conductP tablet rk ck ddt).1
  | .delete rk ck => (conductD tablet rk ck).1

/-- The `unsigned` that the operation returns: bytes stored or cells erased. -/
def conductSize (tablet : Tablet) : LogRecord → UInt32
  | .put rk ck ddt => (conductP tablet rk ck ddt).2
  | .delete rk ck => (conductD tablet rk ck).2

/-- Both operations are writes of one cell. -/
@[simp]
theorem conduct_cells (tablet : Tablet) (record : LogRecord) :
    cells (conduct tablet record) = write (cells tablet) record := by
  cases record with
  | put rk ck ddt => exact conductP_cells tablet rk ck ddt
  | delete rk ck => exact conductD_cells tablet rk ck

/-- Applying records in order replays them on the cells. -/
theorem foldl_conduct_cells (tablet : Tablet) (log : List LogRecord) :
    cells (log.foldl conduct tablet) = replay (cells tablet) log := by
  induction log using List.reverseRecOn with
  | nil => rfl
  | append_singleton log record ih =>
    rw [List.foldl_append, List.foldl_cons, List.foldl_nil, conduct_cells, ih, replay_concat]

/-! ## Rows -/

/-- A row as a function of its columns; `none` where the tablet has no such row. -/
def rowView (tablet : Tablet) (rk : Bytes) : Option (Bytes → Option Bytes) :=
  (tablet.lookup rk).map fun row ck ↦ row.lookup ck

/-- The tablets have the same rows, empty ones included, with the same cells. -/
def SameRows (tablet tablet' : Tablet) : Prop := ∀ rk, rowView tablet rk = rowView tablet' rk

/-- What a record does to its row. -/
def LogRecord.onRow (record : LogRecord) (row : Option (Bytes → Option Bytes)) :
    Option (Bytes → Option Bytes) :=
  match record with
  | .put _ ck ddt => some (Function.update (row.getD fun _ ↦ none) ck (some ddt))
  | .delete _ ck => row.map fun cols ↦ Function.update cols ck none

theorem rowView_insert (tablet : Tablet) (rk : Bytes) (row : Row) (rk' : Bytes) :
    rowView (tablet.insert rk row) rk' =
      if rk = rk' then some fun ck ↦ row.lookup ck else rowView tablet rk' := by
  unfold rowView
  by_cases h : rk = rk'
  · subst h
    rw [AList.lookup_insert, if_pos rfl, Option.map_some]
  · have hne : rk' ≠ rk := fun heq ↦ h heq.symm
    rw [AList.lookup_insert_ne hne, if_neg h]

theorem lookup_insert_eq_update (row : Row) (ck ddt : Bytes) :
    (fun ck' ↦ (row.insert ck ddt).lookup ck') =
      Function.update (fun ck' ↦ row.lookup ck') ck (some ddt) := by
  funext ck'
  by_cases h : ck' = ck
  · subst h
    rw [AList.lookup_insert, Function.update_self]
  · rw [AList.lookup_insert_ne h, Function.update_of_ne h]

theorem lookup_erase_eq_update (row : Row) (ck : Bytes) :
    (fun ck' ↦ (row.erase ck).lookup ck') =
      Function.update (fun ck' ↦ row.lookup ck') ck none := by
  funext ck'
  by_cases h : ck' = ck
  · subst h
    rw [AList.lookup_erase, Function.update_self]
  · rw [AList.lookup_erase_ne h, Function.update_of_ne h]

theorem conductP_rowView (tablet : Tablet) (rk ck ddt rk' : Bytes) :
    rowView (conductP tablet rk ck ddt).1 rk' =
      if rk = rk' then
        some (Function.update ((rowView tablet rk').getD fun _ ↦ none) ck (some ddt))
      else rowView tablet rk' := by
  unfold conductP mutableRow
  cases hrow : tablet.lookup rk with
  | some row =>
    simp only [rowView_insert, lookup_insert_eq_update]
    split
    · next h =>
      subst h
      simp only [rowView, hrow, Option.map_some, Option.getD_some]
    · rfl
  | none =>
    simp only [rowView_insert, lookup_insert_eq_update]
    split
    · next h =>
      subst h
      simp only [rowView, hrow, Option.map_none, Option.getD_none, AList.lookup_empty]
    · rfl

theorem conductD_rowView (tablet : Tablet) (rk ck rk' : Bytes) :
    rowView (conductD tablet rk ck).1 rk' =
      if rk = rk' then
        (rowView tablet rk').map fun cols ↦ Function.update cols ck none
      else rowView tablet rk' := by
  by_cases h : rk = rk'
  · subst h
    rw [if_pos rfl]
    unfold conductD
    cases hrow : tablet.lookup rk with
    | none => simp only [rowView, hrow, Option.map_none]
    | some row =>
      cases hcol : row.lookup ck with
      | none =>
        have hsame : Function.update (fun ck' ↦ row.lookup ck') ck none =
            fun ck' ↦ row.lookup ck' := by
          rw [← hcol]
          exact Function.update_eq_self _ _
        simp only [rowView, hrow, hcol, Option.map_some, hsame]
      | some value =>
        simp only [hcol, rowView_insert, if_true, lookup_erase_eq_update]
        simp only [rowView, hrow, Option.map_some]
  · rw [if_neg h]
    unfold conductD
    split
    · rfl
    · split
      · rfl
      · rw [rowView_insert, if_neg h]

/-- A record changes its own row only, by a function of that row. -/
theorem conduct_rowView (tablet : Tablet) (record : LogRecord) (rk' : Bytes) :
    rowView (conduct tablet record) rk' =
      if record.row = rk' then record.onRow (rowView tablet rk') else rowView tablet rk' := by
  cases record with
  | put rk ck ddt => exact conductP_rowView tablet rk ck ddt rk'
  | delete rk ck => exact conductD_rowView tablet rk ck rk'

/-- Applying records in order changes a row by the records of that row. -/
theorem foldl_conduct_rowView (tablet : Tablet) (log : List LogRecord) (rk : Bytes) :
    rowView (log.foldl conduct tablet) rk =
      (log.filter fun record ↦ record.row = rk).foldl (fun row record ↦ record.onRow row)
        (rowView tablet rk) :=
  foldl_part rowView conduct LogRecord.row (fun row record ↦ record.onRow row) conduct_rowView
    tablet log rk

end PennCloud.KV.TabletCells
