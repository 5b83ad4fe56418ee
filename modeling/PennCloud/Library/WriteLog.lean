import Mathlib.Logic.Function.Basic
import Mathlib.Data.List.Induction

/-!
# Logs of register writes

A store is a function from keys to contents and a write replaces the content of one key.
Replaying a log therefore depends, at each key, only on the writes to that key and on
their order, and the last of them decides. More generally, where a state has parts that the
operations change one at a time, a log changes each part by the operations on it alone.
-/

namespace PennCloud.Library.WriteLog

/-- A type of write operations: the key that is written and the content it gets. -/
class Write (ω : Type*) (κ β : outParam (Type*)) where
  key : ω → κ
  val : ω → β

variable {ω κ β ρ : Type*} [DecidableEq κ] [Write ω κ β]

/-- One write. -/
def write (s : κ → β) (o : ω) : κ → β := Function.update s (Write.key o) (Write.val o)

/-- Apply the writes of a log in order. -/
def replay (s : κ → β) (log : List ω) : κ → β := log.foldl write s

@[simp]
theorem replay_concat (s : κ → β) (log : List ω) (o : ω) :
    replay s (log ++ [o]) = write (replay s log) o := by
  simp only [replay, List.foldl_append, List.foldl_cons, List.foldl_nil]

theorem write_self (s : κ → β) (o : ω) : write s o (Write.key o) = Write.val o :=
  Function.update_self _ _ _

theorem write_of_ne {s : κ → β} {o : ω} {k : κ} (h : k ≠ Write.key o) : write s o k = s k :=
  Function.update_of_ne h _ _

/-- Dropping writes to other keys does not change what is replayed at a key. -/
theorem replay_filter (s : κ → β) (log : List ω) (k : κ) (p : ω → Bool)
    (hp : ∀ o : ω, Write.key o = k → p o = true) : replay s (log.filter p) k = replay s log k := by
  induction log using List.reverseRecOn with
  | nil => rfl
  | append_singleton log o ih =>
    rw [List.filter_append, replay_concat]
    by_cases hk : k = Write.key o
    · simp only [List.filter_cons, hp o hk.symm, if_true, List.filter_nil, replay_concat]
      subst hk
      simp only [write_self]
    · rw [write_of_ne hk, ← ih]
      by_cases hpo : p o
      · simp only [List.filter_cons, hpo, if_true, List.filter_nil, replay_concat]
        exact write_of_ne hk
      · simp only [List.filter_cons, hpo, Bool.false_eq_true, if_false, List.filter_nil,
          List.append_nil]

/-- Where every write is to one key, the last one decides. -/
theorem replay_getLast? (s : κ → β) {log : List ω} {k : κ} (h : ∀ o ∈ log, Write.key o = k) :
    replay s log k = (log.getLast?.map Write.val).getD (s k) := by
  induction log using List.reverseRecOn with
  | nil => rfl
  | append_singleton log o _ =>
    have hkey : Write.key o = k := h o (by simp)
    rw [replay_concat, List.getLast?_concat, ← hkey]
    exact write_self _ o

/-- A key without a write keeps its content. -/
theorem replay_of_not_mem (s : κ → β) {log : List ω} {k : κ} (h : ∀ o ∈ log, Write.key o ≠ k) :
    replay s log k = s k := by
  induction log using List.reverseRecOn with
  | nil => rfl
  | append_singleton log o ih =>
    have hlast : k ≠ Write.key o := (h o (by simp)).symm
    rw [replay_concat, write_of_ne hlast]
    exact ih fun o' ho' ↦ h o' (List.mem_append_left _ ho')

/-- At a key with a write it does not matter what was there before. -/
theorem replay_of_mem (s s' : κ → β) {log : List ω} {k : κ} (h : ∃ o ∈ log, Write.key o = k) :
    replay s log k = replay s' log k := by
  induction log using List.reverseRecOn with
  | nil =>
    obtain ⟨o, ho, -⟩ := h
    cases ho
  | append_singleton log o ih =>
    rw [replay_concat, replay_concat]
    by_cases hlast : k = Write.key o
    · rw [hlast, write_self, write_self]
    · rw [write_of_ne hlast, write_of_ne hlast]
      obtain ⟨o', ho', hkey⟩ := h
      rw [List.mem_append, List.mem_singleton] at ho'
      cases ho' with
      | inl hearlier => exact ih ⟨o', hearlier, hkey⟩
      | inr heq => exact absurd hkey.symm (heq ▸ hlast)

/-- Writes that all agree with one content leave that content where they write. -/
theorem replay_of_agree (s c : κ → β) {log : List ω} {k : κ}
    (hagree : ∀ o ∈ log, Write.val o = c (Write.key o)) (h : ∃ o ∈ log, Write.key o = k) :
    replay s log k = c k := by
  have hkeep : replay c log = c := by
    clear h
    induction log using List.reverseRecOn with
    | nil => rfl
    | append_singleton log o ih =>
      rw [replay_concat, ih fun o' ho' ↦ hagree o' (List.mem_append_left _ ho'), write,
        hagree o (by simp), Function.update_eq_self]
  rw [replay_of_mem s c h, hkeep]

/-! ## Independent parts -/

/-- Where every operation changes one part of a state, by a function of that part, a log
changes a part by the operations on it alone. -/
theorem foldl_part {σ τ : Type*} [DecidableEq ρ] (view : σ → ρ → τ) (act : σ → ω → σ)
    (part : ω → ρ) (step : τ → ω → τ)
    (hact : ∀ s o r, view (act s o) r = if part o = r then step (view s r) o else view s r)
    (s : σ) (log : List ω) (r : ρ) :
    view (log.foldl act s) r = (log.filter fun o ↦ part o = r).foldl step (view s r) := by
  induction log generalizing s with
  | nil => rfl
  | cons o log ih =>
    rw [List.foldl_cons, ih, hact, List.filter_cons]
    by_cases hpart : part o = r
    · simp only [hpart, if_true, decide_true, List.foldl_cons]
    · simp only [hpart, if_false, decide_false, Bool.false_eq_true]

end PennCloud.Library.WriteLog
