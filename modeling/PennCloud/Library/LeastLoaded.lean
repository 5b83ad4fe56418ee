import Mathlib.Algebra.BigOperators.Group.List.Basic
import Mathlib.Algebra.Order.Ring.Int
import Mathlib.Data.List.Nodup

/-!
# Selecting the least loaded entry of a table

A table lists keys with counts. The search runs through it once and keeps the first candidate with
the least count; the selected count goes up by one. Where the same candidates are searched every
time, their counts stay within one of each other.
-/

namespace PennCloud.Library.LeastLoaded

variable {κ : Type*} {candidate : κ → Bool}

/-- Keep the better of the best entry so far and the next one. -/
def leastStep (candidate : κ → Bool) (best entry : κ × ℤ) : κ × ℤ :=
  if candidate entry.1 && entry.2 < best.2 then entry else best

/-- The search, from a first bound. -/
def least (candidate : κ → Bool) (best : κ × ℤ) (table : List (κ × ℤ)) : κ × ℤ :=
  table.foldl (leastStep candidate) best

/-- The entry is a candidate, strictly below the candidates before it and not above those after it. -/
structure FirstLeast (candidate : κ → Bool) (table front : List (κ × ℤ)) (entry : κ × ℤ)
    (back : List (κ × ℤ)) : Prop where
  split : table = front ++ entry :: back
  chosen : candidate entry.1
  before : ∀ x ∈ front, candidate x.1 → entry.2 < x.2
  after : ∀ x ∈ back, candidate x.1 → entry.2 ≤ x.2

/-- Either nothing is below the bound, or the search finds the first of the least candidates. -/
theorem least_cases (best : κ × ℤ) (table : List (κ × ℤ)) :
    (least candidate best table = best ∧ ∀ x ∈ table, candidate x.1 → best.2 ≤ x.2) ∨
      ∃ front back, FirstLeast candidate table front (least candidate best table) back ∧
        (least candidate best table).2 < best.2 := by
  induction table generalizing best with
  | nil => exact .inl ⟨rfl, fun x hx ↦ absurd hx List.not_mem_nil⟩
  | cons entry table ih =>
    have hfold : least candidate best (entry :: table) =
        least candidate (leastStep candidate best entry) table := rfl
    by_cases hbetter : candidate entry.1 = true ∧ entry.2 < best.2
    · have hstep : leastStep candidate best entry = entry := by simp [leastStep, hbetter]
      rw [hfold, hstep]
      right
      rcases ih entry with ⟨hkeep, hall⟩ | ⟨front, back, hfirst, hlt⟩
      · rw [hkeep]
        exact ⟨[], table, ⟨rfl, hbetter.1, fun x hx ↦ absurd hx List.not_mem_nil, hall⟩, hbetter.2⟩
      · refine ⟨entry :: front, back, ⟨?_, hfirst.chosen, ?_, hfirst.after⟩, hlt.trans hbetter.2⟩
        · rw [List.cons_append, ← hfirst.split]
        · intro x hx hcandidate
          rcases List.mem_cons.mp hx with rfl | hx
          · exact hlt
          · exact hfirst.before x hx hcandidate
    · have hstep : leastStep candidate best entry = best := by
        rw [leastStep, if_neg]
        simpa using hbetter
      have hentry : candidate entry.1 → best.2 ≤ entry.2 := by
        intro hcandidate
        exact not_lt.mp fun hlt ↦ hbetter ⟨hcandidate, hlt⟩
      rw [hfold, hstep]
      rcases ih best with ⟨hkeep, hall⟩ | ⟨front, back, hfirst, hlt⟩
      · left
        refine ⟨hkeep, fun x hx hcandidate ↦ ?_⟩
        rcases List.mem_cons.mp hx with rfl | hx
        · exact hentry hcandidate
        · exact hall x hx hcandidate
      · right
        refine ⟨entry :: front, back, ⟨?_, hfirst.chosen, ?_, hfirst.after⟩, hlt⟩
        · rw [List.cons_append, ← hfirst.split]
        · intro x hx hcandidate
          rcases List.mem_cons.mp hx with rfl | hx
          · exact hlt.trans_le (hentry hcandidate)
          · exact hfirst.before x hx hcandidate

theorem FirstLeast.mem {table front back : List (κ × ℤ)} {entry : κ × ℤ}
    (h : FirstLeast candidate table front entry back) : entry ∈ table := by
  rw [h.split]
  exact List.mem_append_right _ List.mem_cons_self

/-- No candidate has a smaller count. -/
theorem FirstLeast.le {table front back : List (κ × ℤ)} {entry : κ × ℤ}
    (h : FirstLeast candidate table front entry back) :
    ∀ x ∈ table, candidate x.1 → entry.2 ≤ x.2 := by
  intro x hx hcandidate
  rw [h.split, List.mem_append, List.mem_cons] at hx
  rcases hx with hx | rfl | hx
  · exact (h.before x hx hcandidate).le
  · exact le_rfl
  · exact h.after x hx hcandidate

/-- In a table with ascending keys the smallest key wins a tie. -/
theorem FirstLeast.key_lt [LT κ] {table front back : List (κ × ℤ)} {entry : κ × ℤ}
    (h : FirstLeast candidate table front entry back)
    (hsorted : table.Pairwise fun x y ↦ x.1 < y.1) :
    ∀ x ∈ table, candidate x.1 → x.2 = entry.2 → x = entry ∨ entry.1 < x.1 := by
  intro x hx hcandidate htie
  rw [h.split, List.pairwise_append, List.pairwise_cons] at hsorted
  rw [h.split, List.mem_append, List.mem_cons] at hx
  rcases hx with hx | rfl | hx
  · exact absurd htie (h.before x hx hcandidate).ne'
  · exact .inl rfl
  · exact .inr (hsorted.2.1.1 x hx)

/-! ## Counting the selections -/

section Increment

variable [DecidableEq κ] {table : List (κ × ℤ)} {key : κ}

/-- `table[key]++`. -/
def increment (table : List (κ × ℤ)) (key : κ) : List (κ × ℤ) :=
  table.map fun entry ↦ if entry.1 = key then (entry.1, entry.2 + 1) else entry

@[simp]
theorem increment_keys : (increment table key).map Prod.fst = table.map Prod.fst := by
  unfold increment
  rw [List.map_map]
  apply List.map_congr_left
  intro entry _
  dsimp only [Function.comp_apply]
  split
  · rfl
  · rfl

/-- The sum of the counts. -/
def total (table : List (κ × ℤ)) : ℤ := (table.map Prod.snd).sum

theorem increment_of_not_mem (h : key ∉ table.map Prod.fst) : increment table key = table := by
  refine (List.map_congr_left fun entry hentry ↦ if_neg ?_).trans (List.map_id _)
  rintro rfl
  exact h (List.mem_map_of_mem hentry)

theorem total_increment (hnodup : (table.map Prod.fst).Nodup) (h : key ∈ table.map Prod.fst) :
    total (increment table key) = total table + 1 := by
  induction table with
  | nil => exact absurd h List.not_mem_nil
  | cons entry table ih =>
    have hcons : increment (entry :: table) key =
        (if entry.1 = key then (entry.1, entry.2 + 1) else entry) :: increment table key := rfl
    rw [List.map_cons, List.nodup_cons] at hnodup
    rw [hcons]
    by_cases hkey : entry.1 = key
    · subst hkey
      rw [if_pos rfl, increment_of_not_mem hnodup.1]
      simp only [total, List.map_cons, List.sum_cons]
      omega
    · have hrest : key ∈ table.map Prod.fst := by
        rcases List.mem_cons.mp h with heq | hmem
        · exact absurd heq.symm hkey
        · exact hmem
      have hsum := ih hnodup.2 hrest
      simp only [total] at hsum
      rw [if_neg hkey]
      simp only [total, List.map_cons, List.sum_cons, hsum]
      omega

/-- Two candidates differ by at most one; nothing else has been selected. -/
structure Balanced (candidate : κ → Bool) (table : List (κ × ℤ)) : Prop where
  near : ∀ x ∈ table, ∀ y ∈ table, candidate x.1 → candidate y.1 → x.2 ≤ y.2 + 1
  others : ∀ x ∈ table, ¬candidate x.1 → x.2 = 0

omit [DecidableEq κ] in
theorem balanced_of_zero (h : ∀ x ∈ table, x.2 = 0) : Balanced candidate table where
  near x hx y hy _ _ := by
    rw [h x hx, h y hy]
    decide
  others x hx _ := h x hx

/-- What an entry of the table was before the increment. -/
theorem mem_increment {x : κ × ℤ} (h : x ∈ increment table key) :
    ∃ y ∈ table, x.1 = y.1 ∧ (y.1 = key ∧ x.2 = y.2 + 1 ∨ y.1 ≠ key ∧ x.2 = y.2) := by
  obtain ⟨y, hy, rfl⟩ := List.mem_map.mp h
  refine ⟨y, hy, ?_⟩
  split
  · next hkey => exact ⟨rfl, .inl ⟨hkey, rfl⟩⟩
  · next hkey => exact ⟨rfl, .inr ⟨hkey, rfl⟩⟩

/-- Selecting a least candidate keeps the balance. -/
theorem Balanced.increment {entry : κ × ℤ} (h : Balanced candidate table)
    (hnodup : (table.map Prod.fst).Nodup) (hmem : entry ∈ table) (hchosen : candidate entry.1)
    (hle : ∀ x ∈ table, candidate x.1 → entry.2 ≤ x.2) :
    Balanced candidate (increment table entry.1) where
  near x hx y hy hcx hcy := by
    obtain ⟨x', hx', hxkey, hxcount⟩ := mem_increment hx
    obtain ⟨y', hy', hykey, hycount⟩ := mem_increment hy
    rw [hxkey] at hcx
    rw [hykey] at hcy
    have hnear := h.near x' hx' y' hy' hcx hcy
    rcases hxcount with ⟨hsame, hxcount⟩ | ⟨-, hxcount⟩
    · obtain rfl : x' = entry := List.inj_on_of_nodup_map hnodup hx' hmem hsame
      have hleast := hle y' hy' hcy
      omega
    · omega
  others x hx hcx := by
    obtain ⟨x', hx', hxkey, hxcount⟩ := mem_increment hx
    rw [hxkey] at hcx
    rcases hxcount with ⟨hsame, -⟩ | ⟨-, hxcount⟩
    · rw [hsame] at hcx
      exact absurd hchosen hcx
    · rw [hxcount]
      exact h.others x' hx' hcx

end Increment

end PennCloud.Library.LeastLoaded
