import Mathlib.Logic.Function.Basic

/-!
# Lock tables

One lock for each key, and the party that holds it. The invariant relates the table to what the
parties themselves say about the keys they are inside of; it gives mutual exclusion per key, and
it is kept by acquiring a free lock, by releasing an own one, and by steps that leave both.
-/

namespace PennCloud.Library.Locks

variable {κ ι : Type*} [DecidableEq κ]

/-- The holder of the lock of each key. -/
abbrev LockTable (κ ι : Type*) := κ → Option ι

def acquire (lk : LockTable κ ι) (k : κ) (t : ι) : LockTable κ ι := Function.update lk k (some t)

def release (lk : LockTable κ ι) (k : κ) : LockTable κ ι := Function.update lk k none

/-- The table names exactly the parties that are inside. -/
def Guards (lk : LockTable κ ι) (inside : ι → κ → Prop) : Prop :=
  ∀ k t, lk k = some t ↔ inside t k

variable {lk : LockTable κ ι} {inside inside' : ι → κ → Prop}

omit [DecidableEq κ] in
/-- Mutual exclusion. -/
theorem Guards.unique (h : Guards lk inside) {k : κ} {t u : ι} (ht : inside t k)
    (hu : inside u k) : t = u := by
  have hlt := (h k t).mpr ht
  have hlu := (h k u).mpr hu
  exact Option.some.inj (hlt.symm.trans hlu)

omit [DecidableEq κ] in
theorem Guards.congr (h : Guards lk inside) (hsame : ∀ t k, inside' t k ↔ inside t k) :
    Guards lk inside' :=
  fun k t ↦ (h k t).trans (hsame t k).symm

theorem Guards.acquire (h : Guards lk inside) {k : κ} {t : ι} (hfree : lk k = none)
    (hinside : ∀ u l, inside' u l ↔ inside u l ∨ (u = t ∧ l = k)) :
    Guards (acquire lk k t) inside' := by
  intro l u
  rw [hinside]
  by_cases hl : l = k
  · subst hl
    have hnot : ¬inside u l := by
      intro hin
      have hheld := (h l u).mpr hin
      rw [hfree] at hheld
      cases hheld
    simp only [Locks.acquire, Function.update_self, Option.some.injEq, hnot, false_or, and_true]
    exact eq_comm
  · simp only [Locks.acquire, Function.update_of_ne hl, hl, and_false, or_false]
    exact h l u

theorem Guards.release (h : Guards lk inside) {k : κ} {t : ι} (hin : inside t k)
    (hinside : ∀ u l, inside' u l ↔ inside u l ∧ ¬(u = t ∧ l = k)) :
    Guards (release lk k) inside' := by
  intro l u
  rw [hinside]
  by_cases hl : l = k
  · subst hl
    simp only [Locks.release, Function.update_self, reduceCtorEq, false_iff, not_and, not_not,
      and_true]
    exact fun hu ↦ h.unique hu hin
  · simp only [Locks.release, Function.update_of_ne hl, hl, and_false, not_false_eq_true,
      and_true]
    exact h l u

end PennCloud.Library.Locks
