import Mathlib.Data.List.Basic

/-!
# Sequences of system calls

A routine that makes one call after the other and gives up at the first that fails. A call may
change the state also where it fails, as a short write does. What a call returns is data, so a
statement about every sequence of results is one about every pattern of failures, and a process
that dies is a sequence of calls that was cut.
-/

namespace PennCloud.Library.SystemCalls

/-- What a call with some result does to the state, and whether the caller goes on after it. -/
structure Device (σ κ ρ : Type*) where
  effect : σ → κ → ρ → σ
  ok : κ → ρ → Bool

namespace Device

variable {σ κ ρ : Type*} (device : Device σ κ ρ)

/-- The state after the calls, and whether none failed. -/
def run (s : σ) (result : ℕ → ρ) : List κ → σ × Bool
  | [] => (s, true)
  | call :: calls =>
    if device.ok call (result 0) then
      run (device.effect s call (result 0)) (fun i ↦ result (i + 1)) calls
    else
      (device.effect s call (result 0), false)

/-- Every call goes well. -/
def AllOk (result : ℕ → ρ) (calls : List κ) : Prop :=
  ∀ i, (h : i < calls.length) → device.ok calls[i] (result i) = true

theorem allOk_nil (result : ℕ → ρ) : device.AllOk result [] :=
  fun i hi ↦ absurd hi (Nat.not_lt_zero i)

theorem allOk_cons (result : ℕ → ρ) (call : κ) (calls : List κ) :
    device.AllOk result (call :: calls) ↔
      device.ok call (result 0) = true ∧ device.AllOk (fun i ↦ result (i + 1)) calls := by
  constructor
  · intro h
    exact ⟨h 0 (Nat.succ_pos _), fun i hi ↦ h (i + 1) (Nat.succ_lt_succ hi)⟩
  · intro h i hi
    cases i with
    | zero => exact h.1
    | succ i => exact h.2 i (Nat.lt_of_succ_lt_succ hi)

theorem allOk_append (result : ℕ → ρ) (calls calls' : List κ) :
    device.AllOk result (calls ++ calls') ↔
      device.AllOk result calls ∧ device.AllOk (fun i ↦ result (i + calls.length)) calls' := by
  induction calls generalizing result with
  | nil => exact (and_iff_right (device.allOk_nil result)).symm
  | cons call calls ih =>
    simp only [List.cons_append, allOk_cons, ih, List.length_cons, Nat.add_assoc, and_assoc]

theorem run_snd (s : σ) (result : ℕ → ρ) (calls : List κ) :
    (device.run s result calls).2 = true ↔ device.AllOk result calls := by
  induction calls generalizing s result with
  | nil => exact iff_of_true rfl (device.allOk_nil result)
  | cons call calls ih =>
    rw [allOk_cons, run]
    by_cases hok : device.ok call (result 0) = true
    · rw [if_pos hok, ih]
      exact (and_iff_right hok).symm
    · rw [if_neg hok]
      exact iff_of_false Bool.false_ne_true fun h ↦ hok h.1

theorem run_append (s : σ) (result : ℕ → ρ) (calls calls' : List κ) :
    device.run s result (calls ++ calls') =
      if (device.run s result calls).2 = true then
        device.run (device.run s result calls).1 (fun i ↦ result (i + calls.length)) calls'
      else device.run s result calls := by
  induction calls generalizing s result with
  | nil => rfl
  | cons call calls ih =>
    rw [List.cons_append, run, run]
    by_cases hok : device.ok call (result 0) = true
    · simp only [if_pos hok, ih, List.length_cons, Nat.add_assoc]
    · simp only [if_neg hok, Bool.false_eq_true, if_false]

/-- A call with this result is one that was not made. -/
def Idle (lost : ρ) : Prop := ∀ s call, device.effect s call lost = s

variable {lost : ρ} (hidle : device.Idle lost)
include hidle

theorem run_idle (s : σ) (calls : List κ) : (device.run s (fun _ ↦ lost) calls).1 = s := by
  induction calls generalizing s with
  | nil => rfl
  | cons call calls ih =>
    rw [run, hidle]
    split
    · exact ih s
    · rfl

/-- Calls that were cut leave the state as if the missing ones had failed without effect. -/
theorem run_take (s : σ) (result : ℕ → ρ) (calls : List κ) (k : ℕ) :
    (device.run s result (calls.take k)).1 =
      (device.run s (fun i ↦ if i < k then result i else lost) calls).1 := by
  induction calls generalizing s result k with
  | nil => rw [List.take_nil]; rfl
  | cons call calls ih =>
    cases k with
    | zero =>
      simp only [Nat.not_lt_zero, if_false]
      exact (device.run_idle hidle s (call :: calls)).symm
    | succ k =>
      rw [List.take_succ_cons, run, run, if_pos (Nat.succ_pos k)]
      split
      · simp only [ih, Nat.add_lt_add_iff_right]
      · rfl

omit hidle

/-- Of calls that were cut, those that went well are the first ones. -/
theorem allOk_cut (result : ℕ → ρ) {calls : List κ}
    (hlost : ∀ call ∈ calls, device.ok call lost = false) (k : ℕ) :
    device.AllOk (fun i ↦ if i < k then result i else lost) calls ↔
      calls.length ≤ k ∧ device.AllOk result calls := by
  constructor
  · intro h
    have hmade : ∀ i, i < calls.length → i < k := by
      intro i hi
      by_contra hk
      have hok := h i hi
      simp only [if_neg hk, hlost _ (List.getElem_mem hi), Bool.false_eq_true] at hok
    constructor
    · by_contra hlength
      exact Nat.lt_irrefl k (hmade k (Nat.not_le.mp hlength))
    · intro i hi
      simpa only [if_pos (hmade i hi)] using h i hi
  · intro h i hi
    simpa only [if_pos (Nat.lt_of_lt_of_le hi h.1)] using h.2 i hi

end Device

end PennCloud.Library.SystemCalls
