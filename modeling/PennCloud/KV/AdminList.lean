import PennCloud.KV.CheckpointFile
import PennCloud.KV.PrimaryView
import PennCloud.Library.Sorting

/-!
# The administrator's listing

`AdminList` answers with the position of every cell. The two maps of a tablet have no order, so the
columns of each row are sorted, then the rows by their keys, and the result is flattened. It is
strictly increasing and complete, so it depends on the cells alone.
-/

open PennCloud.Library.Sorting
open PennCloud.KV.TabletCells PennCloud.KV.CheckpointFile PennCloud.KV.PrimaryView

namespace PennCloud.KV.AdminList

/-- The rows in the order of iteration, each with its sorted columns. -/
def allRs (tablet : Tablet) : List (Bytes × List Bytes) :=
  tablet.entries.map fun row ↦
    (row.1, stdSort (fun x y ↦ x < y) (row.2.entries.map Sigma.fst))

/-- `AdminList`: the keys of the response and its status. -/
def adminList (tablet : Tablet) : List (Bytes × Bytes) × Status :=
  ((stdSort (fun X Y ↦ X.1 < Y.1) (allRs tablet)).flatMap fun row ↦
    row.2.map fun ck ↦ (row.1, ck), { code := .ok })

/-- The order of pairs, row before column. -/
def KeyLt (x y : Bytes × Bytes) : Prop := x.1 < y.1 ∨ x.1 = y.1 ∧ x.2 < y.2

theorem keyLt_asymm (x y : Bytes × Bytes) (h : KeyLt x y) : ¬KeyLt y x := by
  intro h'
  rcases h with hrow | ⟨hrow, hcol⟩
  · rcases h' with hrow' | ⟨hrow', -⟩
    · exact Std.lt_irrefl (Std.lt_trans hrow hrow')
    · rw [hrow'] at hrow
      exact Std.lt_irrefl hrow
  · rcases h' with hrow' | ⟨-, hcol'⟩
    · rw [hrow] at hrow'
      exact Std.lt_irrefl hrow'
    · exact Std.lt_irrefl (Std.lt_trans hcol hcol')

theorem adminList_increasing (tablet : Tablet) : (adminList tablet).1.Pairwise KeyLt := by
  have hrows : ((allRs tablet).map Prod.fst).Nodup := by
    rw [allRs, List.map_map]
    exact tablet.nodupKeys
  rw [adminList, List.pairwise_flatMap]
  constructor
  · intro row hrow
    rw [mem_stdSort, allRs, List.mem_map] at hrow
    obtain ⟨entry, -, rfl⟩ := hrow
    have hcols : ((entry.2.entries.map Sigma.fst).map fun ck ↦ ck).Nodup := by
      rw [List.map_id']
      exact entry.2.nodupKeys
    rw [List.pairwise_map]
    exact (pairwise_stdSort (fun ck : Bytes ↦ ck) hcols).imp fun hlt ↦ .inr ⟨rfl, hlt⟩
  · refine (pairwise_stdSort Prod.fst hrows).imp fun {row row'} hlt x hx y hy ↦ .inl ?_
    obtain ⟨ck, -, rfl⟩ := List.mem_map.mp hx
    obtain ⟨ck', -, rfl⟩ := List.mem_map.mp hy
    exact hlt

/-- A pair is listed exactly if the tablet stores a cell there. -/
theorem mem_adminList_iff (tablet : Tablet) (key : Bytes × Bytes) :
    key ∈ (adminList tablet).1 ↔ (cells tablet key).isSome := by
  obtain ⟨rk, ck⟩ := key
  simp only [adminList, List.mem_flatMap, mem_stdSort, allRs, List.mem_map, Option.isSome_iff_exists,
    ← mem_tabletEntries_iff, tabletEntries, Prod.mk.injEq]
  constructor
  · rintro ⟨_, ⟨row, hrow, rfl⟩, _, hck, rfl, rfl⟩
    rw [mem_stdSort, List.mem_map] at hck
    obtain ⟨col, hcol, rfl⟩ := hck
    exact ⟨col.2, row, hrow, col, hcol, rfl, rfl, rfl⟩
  · rintro ⟨_, row, hrow, col, hcol, rfl, rfl, rfl⟩
    refine ⟨_, ⟨row, hrow, rfl⟩, col.1, ?_, rfl, rfl⟩
    rw [mem_stdSort]
    exact List.mem_map_of_mem hcol

/-- The listing is strictly increasing and complete, and no order of iteration shows in it. -/
theorem adminList_exact (tablet : Tablet) :
    (adminList tablet).1.Pairwise KeyLt ∧
      (∀ key, key ∈ (adminList tablet).1 ↔ (cells tablet key).isSome) ∧
      ∀ tablet', SameCells tablet' tablet → adminList tablet' = adminList tablet := by
  refine ⟨adminList_increasing tablet, mem_adminList_iff tablet, fun tablet' hsame ↦ ?_⟩
  have hkeys : (adminList tablet').1 = (adminList tablet).1 := by
    refine eq_of_pairwise_of_mem_iff keyLt_asymm (adminList_increasing tablet')
      (adminList_increasing tablet) fun key ↦ ?_
    rw [mem_adminList_iff, mem_adminList_iff, hsame]
  exact Prod.ext hkeys rfl

end PennCloud.KV.AdminList
