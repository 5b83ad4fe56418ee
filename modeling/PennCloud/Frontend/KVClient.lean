import PennCloud.Library.Programs
import PennCloud.Library.CppString
import PennCloud.KV.Handlers

/-!
# The storage client as an atomic map

The handlers of a frontend see the store through the calls of `KVStorageClient`. Here each call is one
atomic step on the map of cells. `cput` compares and sets: a missing cell can be created with
an empty comparison value, which is the rule that `CPut` at the primary is written for.
-/

open PennCloud.Library.Programs PennCloud.Library.CppString
open PennCloud.KV.TabletCells
open PennCloud.KV.Handlers (cPutCheck cPutCheck_of_some cPutCheck_of_none)

namespace PennCloud.Frontend.KVClient

/-- What can end a handler before it returns; `undefined` stands for undefined behaviour. -/
inductive Thrown
  | kvError
  | kvNoMatch
  | kvNotFound
  | std (e : StdException)
  | undefined
  deriving DecidableEq, Repr

/-- `KVNoMatch` and `KVNotFound` derive from `KVError`. -/
def Thrown.isKVError : Thrown → Bool
  | .kvError => true
  | .kvNoMatch => true
  | .kvNotFound => true
  | .std _ => false
  | .undefined => false

inductive KVOp
  | get (row col : Bytes)
  | put (row col data : Bytes)
  | cput (row col v1 v2 : Bytes)
  | del (row col : Bytes)
  deriving DecidableEq, Repr

def KVOp.row : KVOp → Bytes
  | .get row _ => row
  | .put row _ _ => row
  | .cput row _ _ _ => row
  | .del row _ => row

/-- Only the answer of a `get` is used. -/
def KVOp.Answer : KVOp → Type
  | .get _ _ => Bytes
  | .put _ _ _ => Unit
  | .cput _ _ _ _ => Unit
  | .del _ _ => Unit

abbrev KVProg (α : Type) := Prog KVOp KVOp.Answer Thrown α

abbrev KVJob (α : Type) := Job KVOp KVOp.Answer Thrown α

/-- The content of every cell. -/
abbrev Store := Bytes × Bytes → Option Bytes

/-- The atomic map. -/
def execute (_ : Unit) : (op : KVOp) → Store → Store × Except Thrown op.Answer
  | .get row col, store =>
    match store (row, col) with
    | some value => (store, .ok value)
    | none => (store, .error .kvNotFound)
  | .put row col data, store => (Function.update store (row, col) (some data), .ok ())
  | .cput row col v1 v2, store =>
    match store (row, col) with
    | some value =>
      if value = v1 then (Function.update store (row, col) (some v2), .ok ())
      else (store, .error .kvNoMatch)
    | none =>
      if v1 = [] then (Function.update store (row, col) (some v2), .ok ())
      else (store, .error .kvNotFound)
  | .del row col, store => (Function.update store (row, col) none, .ok ())

def get (row col : Bytes) : KVProg Bytes := Prog.perform (KVOp.get row col)

def put (row col data : Bytes) : KVProg Unit := Prog.perform (KVOp.put row col data)

def cput (row col v1 v2 : Bytes) : KVProg Unit := Prog.perform (KVOp.cput row col v1 v2)

def del (row col : Bytes) : KVProg Unit := Prog.perform (KVOp.del row col)

/-- `try { p } catch (KVNotFound &) { f }`. -/
def catchKVNotFound {α : Type} (p f : KVProg α) : KVProg α :=
  p.handle fun e ↦ if e = .kvNotFound then f else .raise e

/-- `try { p } catch (KVError &) { f }`. -/
def catchKVError {α : Type} (p f : KVProg α) : KVProg α :=
  p.handle fun e ↦ if e.isKVError then f else .raise e

/-- `try { p } catch (KVNoMatch &) { f }`. -/
def catchKVNoMatch {α : Type} (p f : KVProg α) : KVProg α :=
  p.handle fun e ↦ if e = .kvNoMatch then f else .raise e

def getdefault (r c v : Bytes) : KVProg Bytes := catchKVNotFound (get r c) (.ret v)

/-- A call into the standard library. -/
def ofStd {α : Type} (x : Except StdException α) : KVProg α :=
  Prog.ofExcept (x.mapError Thrown.std)

/-! ## The map and the server -/

/-- What `CPut` decides on the cells of a tablet, the map answers too; only where the process
of the server aborts does the map create the cell. -/
theorem execute_cput (tablet : Tablet) (row col v1 v2 : Bytes) :
    match (cPutCheck tablet row col v1).2 with
    | .accept => execute () (.cput row col v1 v2) (cells tablet) =
        (Function.update (cells tablet) (row, col) (some v2), .ok ())
    | .refuse status => execute () (.cput row col v1 v2) (cells tablet) =
        (cells tablet, .error (if status.code = .notFound then .kvNotFound else .kvNoMatch))
    | .abort => cells tablet (row, col) = none ∧ v1 = [] := by
  cases hcell : cells tablet (row, col) with
  | some value =>
    have hcheck := cPutCheck_of_some hcell v1
    by_cases hv : value = v1
    · rw [if_pos hv] at hcheck
      simp [hcheck, execute, hcell, hv]
    · rw [if_neg hv] at hcheck
      simp [hcheck, execute, hcell, hv]
  | none =>
    have hcheck := cPutCheck_of_none hcell v1
    by_cases hv : v1 = []
    · rw [if_pos hv] at hcheck
      rw [hcheck]
      exact ⟨rfl, hv⟩
    · rw [if_neg hv] at hcheck
      obtain ⟨message, hcheck⟩ := hcheck
      simp [hcheck, execute, hcell, hv]

/-! ## Compare and set -/

/-- The comparison of `cput`, the rule for a missing cell included. -/
def Matches (present : Option Bytes) (v1 : Bytes) : Prop :=
  present = some v1 ∨ present = none ∧ v1 = []

instance (present : Option Bytes) (v1 : Bytes) : Decidable (Matches present v1) :=
  inferInstanceAs (Decidable (_ ∨ _))

/-- What a failed comparison throws. -/
def mismatch (present : Option Bytes) : Thrown :=
  if present.isSome then .kvNoMatch else .kvNotFound

theorem isKVError_mismatch (present : Option Bytes) : (mismatch present).isKVError = true := by
  cases present with
  | none => rfl
  | some value => rfl

section CompareAndSet

variable {row col : Bytes} {store : Store} {v1 : Bytes} (v2 : Bytes)

theorem execute_cput_of_matches (h : Matches (store (row, col)) v1) :
    execute () (.cput row col v1 v2) store =
      (Function.update store (row, col) (some v2), .ok ()) := by
  rcases h with h | ⟨h, hempty⟩
  · simp only [execute, h, if_pos]
  · simp only [execute, h, if_pos hempty]

theorem execute_cput_of_not_matches (h : ¬Matches (store (row, col)) v1) :
    execute () (.cput row col v1 v2) store =
      (store, .error (mismatch (store (row, col)))) := by
  cases hcell : store (row, col) with
  | some value =>
    have hne : value ≠ v1 := fun heq ↦ h (.inl (hcell.trans (congrArg some heq)))
    simp only [execute, hcell, if_neg hne, mismatch, Option.isSome_some, if_true]
  | none =>
    have hne : v1 ≠ [] := fun heq ↦ h (.inr ⟨hcell, heq⟩)
    simp only [execute, hcell, if_neg hne, mismatch, Option.isSome_none, Bool.false_eq_true, if_false]

end CompareAndSet

/-! ## One client alone -/

section Run

variable (row col : Bytes) (store : Store)

variable {row col store} in
theorem run_get_of_some {value : Bytes} (h : store (row, col) = some value) :
    (get row col).run (execute ()) store = (store, .ok value) := by
  refine (Prog.run_perform (KVOp.get row col) store).trans ?_
  simp only [execute, h]
  rfl

variable {row col store} in
theorem run_get_of_none (h : store (row, col) = none) :
    (get row col).run (execute ()) store = (store, .error .kvNotFound) := by
  refine (Prog.run_perform (KVOp.get row col) store).trans ?_
  simp only [execute, h]
  rfl

theorem run_cput_of_matches {v1 : Bytes} (v2 : Bytes) (h : Matches (store (row, col)) v1) :
    (cput row col v1 v2).run (execute ()) store =
      (Function.update store (row, col) (some v2), .ok ()) :=
  (Prog.run_perform (KVOp.cput row col v1 v2) store).trans (execute_cput_of_matches v2 h)

theorem run_cput_of_not_matches {v1 : Bytes} (v2 : Bytes) (h : ¬Matches (store (row, col)) v1) :
    (cput row col v1 v2).run (execute ()) store = (store, .error (mismatch (store (row, col)))) :=
  (Prog.run_perform (KVOp.cput row col v1 v2) store).trans (execute_cput_of_not_matches v2 h)

end Run

/-! ## Calls of the handlers -/

section Only

variable {P : KVOp → Prop} {α : Type}

theorem only_catch {p f : KVProg α} {caught : Thrown → Prop} [DecidablePred caught]
    (hp : p.Only P) (hf : f.Only P) :
    (p.handle fun e ↦ if caught e then f else .raise e).Only P := by
  apply hp.handle
  intro e
  split
  · exact hf
  · exact trivial

end Only

end PennCloud.Frontend.KVClient
