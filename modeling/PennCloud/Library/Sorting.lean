import Mathlib.Data.List.Nodup

/-!
# Sorting by distinct keys

`std::sort` puts a sequence into an order in which no element comes after one it has to precede.
Where the elements differ in the key they are compared by, there is only one such order, and it
depends on nothing but which elements there are.
-/

namespace PennCloud.Library.Sorting

variable {α κ : Type*}

/-- `std::sort` with the comparison `comp`. -/
def stdSort (comp : α → α → Bool) (xs : List α) : List α := xs.mergeSort fun x y ↦ !comp y x

theorem stdSort_perm (comp : α → α → Bool) (xs : List α) : (stdSort comp xs).Perm xs :=
  List.mergeSort_perm xs _

theorem mem_stdSort (comp : α → α → Bool) (xs : List α) (x : α) : x ∈ stdSort comp xs ↔ x ∈ xs :=
  (stdSort_perm comp xs).mem_iff

variable [LE κ] [LT κ] [Std.IsLinearOrder κ] [Std.LawfulOrderLT κ] [DecidableLT κ]

/-- Elements with distinct keys come out strictly increasing. -/
theorem pairwise_stdSort (key : α → κ) {xs : List α} (h : (xs.map key).Nodup) :
    (stdSort (fun x y ↦ key x < key y) xs).Pairwise fun x y ↦ key x < key y := by
  have hsorted : (stdSort (fun x y ↦ key x < key y) xs).Pairwise fun x y ↦ key x ≤ key y := by
    have hle : ∀ x y : α, (!decide (key y < key x)) = true ↔ key x ≤ key y := by
      intro x y
      rw [Bool.not_eq_true', decide_eq_false_iff_not, Std.not_lt]
    refine (List.pairwise_mergeSort ?_ ?_ xs).imp fun {x y} hxy ↦ (hle x y).mp hxy
    · intro x y z hxy hyz
      rw [hle] at hxy hyz ⊢
      exact Std.le_trans hxy hyz
    · intro x y
      rw [Bool.or_eq_true, hle, hle]
      exact Std.le_total
  have hdistinct : (stdSort (fun x y ↦ key x < key y) xs).Pairwise fun x y ↦ key x ≠ key y := by
    rw [← List.pairwise_map (f := key) (R := (· ≠ ·))]
    exact ((stdSort_perm _ xs).map key).nodup_iff.mpr h
  exact hsorted.imp₂ (fun x y hle hne ↦ Std.lt_of_le_of_ne hle hne) hdistinct

/-- A strictly increasing list is determined by its elements. -/
theorem eq_of_pairwise_of_mem_iff {lt : α → α → Prop} (hasymm : ∀ x y, lt x y → ¬lt y x)
    {xs ys : List α} (hxs : xs.Pairwise lt) (hys : ys.Pairwise lt) (h : ∀ x, x ∈ xs ↔ x ∈ ys) :
    xs = ys := by
  have hnodup : ∀ {zs : List α}, zs.Pairwise lt → zs.Nodup := by
    intro zs hzs
    refine hzs.imp ?_
    rintro x _ hlt rfl
    exact hasymm x x hlt hlt
  have hperm := (List.perm_ext_iff_of_nodup (hnodup hxs) (hnodup hys)).mpr h
  exact hperm.eq_of_pairwise (fun x y _ _ hlt hgt ↦ absurd hgt (hasymm x y hlt)) hxs hys

end PennCloud.Library.Sorting
