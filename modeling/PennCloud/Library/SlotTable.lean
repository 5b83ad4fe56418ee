import Mathlib.Data.List.Basic
import Mathlib.Data.List.Perm.Basic

/-!
# Tables of slots

A table is a list of slots in which one value marks a free slot. A value is entered into the first
free slot, and removed from the first slot that holds it, whoever entered it there. So the table
is known only up to the order of its entries, as a multiset.
-/

namespace PennCloud.Library.SlotTable

variable {α : Type*} [DecidableEq α] {free x : α} {slots : List α}

/-- The entries of the table. -/
def occupied (free : α) (slots : List α) : List α := slots.filter (· ≠ free)

/-- A table of free slots has no entry. -/
theorem occupied_replicate (n : ℕ) : occupied free (List.replicate n free) = [] :=
  List.filter_replicate_of_neg (by simp)

/-- What the first slot with this value is replaced by. -/
theorem exists_replace {a : α} (h : a ∈ slots) :
    ∃ front back, slots = front ++ a :: back ∧ ∀ b, slots.replace a b = front ++ b :: back := by
  induction slots with
  | nil => exact absurd h List.not_mem_nil
  | cons c slots ih =>
    by_cases hc : c = a
    · subst hc
      exact ⟨[], slots, rfl, fun b ↦ List.replace_cons_self⟩
    · have hrest : a ∈ slots := by
        rcases List.mem_cons.mp h with heq | hmem
        · exact absurd heq.symm hc
        · exact hmem
      obtain ⟨front, back, hsplit, hreplace⟩ := ih hrest
      refine ⟨c :: front, back, by rw [hsplit, List.cons_append], fun b ↦ ?_⟩
      have hne : (a == c) = false := by simpa using Ne.symm hc
      rw [List.replace_cons, hne, hreplace]
      rfl

theorem occupied_append_cons_of_ne (h : x ≠ free) (front back : List α) :
    (occupied free (front ++ x :: back)).Perm (x :: occupied free (front ++ back)) := by
  unfold occupied
  rw [List.filter_append, List.filter_append, List.filter_cons_of_pos (by simpa using h)]
  exact List.perm_middle

theorem occupied_append_cons_free (front back : List α) :
    occupied free (front ++ free :: back) = occupied free (front ++ back) := by
  unfold occupied
  rw [List.filter_append, List.filter_append, List.filter_cons_of_neg (by simp)]

/-- Entering a value adds it to the entries. -/
theorem occupied_enter (h : free ∈ slots) (hx : x ≠ free) :
    (occupied free (slots.replace free x)).Perm (x :: occupied free slots) := by
  obtain ⟨front, back, hsplit, hreplace⟩ := exists_replace h
  rw [hreplace, hsplit, occupied_append_cons_free]
  exact occupied_append_cons_of_ne hx front back

/-- Removing a value takes it from the entries once. -/
theorem occupied_remove (h : x ∈ slots) (hx : x ≠ free) :
    (occupied free slots).Perm (x :: occupied free (slots.replace x free)) := by
  obtain ⟨front, back, hsplit, hreplace⟩ := exists_replace h
  rw [hreplace, hsplit, occupied_append_cons_free]
  exact occupied_append_cons_of_ne hx front back

theorem length_occupied_le (free : α) (slots : List α) :
    (occupied free slots).length ≤ slots.length :=
  List.length_filter_le _ _

/-- A table with fewer entries than slots has a free slot. -/
theorem free_mem_of_lt (h : (occupied free slots).length < slots.length) : free ∈ slots := by
  by_contra hfull
  have hall : occupied free slots = slots := by
    refine List.filter_eq_self.mpr fun a ha ↦ ?_
    simp only [ne_eq, decide_not, Bool.not_eq_true', decide_eq_false_iff_not]
    rintro rfl
    exact hfull ha
  rw [hall] at h
  exact Nat.lt_irrefl _ h

/-- One element of a list changes; the others contribute the same. -/
theorem exists_filterMap_set {β γ : Type*} {f : β → Option γ} {xs : List β} {i : ℕ} {a : β}
    (h : xs[i]? = some a) :
    ∃ others, (xs.filterMap f).Perm ((f a).toList ++ others) ∧
      ∀ b, ((xs.set i b).filterMap f).Perm ((f b).toList ++ others) := by
  obtain ⟨hlt, hget⟩ := List.getElem?_eq_some_iff.mp h
  have hsplit : ∀ b, ((xs.take i ++ b :: xs.drop (i + 1)).filterMap f).Perm
      ((f b).toList ++ (xs.take i ++ xs.drop (i + 1)).filterMap f) := by
    intro b
    rw [List.filterMap_append, List.filterMap_append]
    cases hb : f b with
    | none => simp [hb]
    | some c =>
      rw [List.filterMap_cons_some hb]
      exact List.perm_middle
  refine ⟨(xs.take i ++ xs.drop (i + 1)).filterMap f, ?_, fun b ↦ ?_⟩
  · have hself : xs = xs.take i ++ a :: xs.drop (i + 1) := by
      rw [← hget, ← List.drop_eq_getElem_cons hlt, List.take_append_drop]
    conv_lhs => rw [hself]
    exact hsplit a
  · rw [List.set_eq_take_append_cons_drop, if_pos hlt]
    exact hsplit b

end PennCloud.Library.SlotTable
