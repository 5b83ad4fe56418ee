import PennCloud.KV.FlatStore

/-!
# Compare and set

`CPut` is meant as an atomic compare-and-set on one cell: a value `v1` asks for a cell that holds it,
an empty `v1` also for a cell that is absent. The front end creates its index cells in the second way.
Under the row lock the primary tests the cell and writes it, so that the law is about one call.
-/

open PennCloud.KV.TabletCells PennCloud.KV.PrimaryView PennCloud.KV.Handlers PennCloud.KV.FlatStore

namespace PennCloud.KV.CompareAndSet

/-- The content of the cell is what the request expects. -/
def Expected (v1 : Bytes) : Option Bytes → Prop
  | none => v1 = []
  | some value => value = v1

/-- The cell is set, and no other cell changes. -/
structure Sets (node : KVNode) (prq : CPutRequest) (outcome : Outcome) : Prop where
  code : outcome.reply.status.code = .ok
  cells : cells outcome.node.tablet =
    Function.update (cells node.tablet) (prq.row, prq.col) (some prq.v2)

/-- The request is refused without an effect. -/
structure Refuses (node : KVNode) (outcome : Outcome) : Prop where
  code : outcome.reply.status.code = .notFound ∨ outcome.reply.status.code = .failedPrecondition
  cells : cells outcome.node.tablet = cells node.tablet
  log : outcome.node.log = node.log

/-- The process survives the request, which sets the cell where its content is as expected and is
refused everywhere else. -/
def IsCompareAndSet (node : KVNode) (prq : CPutRequest) (result : Option Outcome) : Prop :=
  ∃ outcome, result = some outcome ∧
    (Expected prq.v1 (cells node.tablet (prq.row, prq.col)) → Sets node prq outcome) ∧
    (¬Expected prq.v1 (cells node.tablet (prq.row, prq.col)) → Refuses node outcome)

/-- At a serving primary the verdict on the cell decides. -/
theorem cPut_primary {node : KVNode} (around : Surroundings) {prq : CPutRequest}
    (hserving : node.statusServ = true) (hprimary : ActsAsPrimary node) (hrow : prq.row ≠ [])
    (hcol : prq.col ≠ []) :
    cPut node around prq =
      match cPutCheck node.tablet prq.row prq.col prq.v1 with
      | (_, .abort) => none
      | (tablet, .refuse status) =>
        some { node := { node with tablet := tablet }, reply := { status := status } }
      | (tablet, .accept) =>
        some (executePrimary { node with tablet := tablet } (.put prq.row prq.col prq.v2)) := by
  have hkeys : (prq.row.isEmpty || prq.col.isEmpty) = false := by
    simp [hrow, hcol]
  unfold cPut cPutRoute
  rw [routeWrite_primary hprimary, hserving, hkeys]
  simp only [Bool.and_false, Bool.false_eq_true, if_false, if_true]
  obtain ⟨tablet, verdict⟩ := cPutCheck node.tablet prq.row prq.col prq.v1
  cases verdict with
  | abort => rfl
  | refuse status => rfl
  | accept => rfl

theorem sets_executePrimary {node : KVNode} {prq : CPutRequest} {tablet : Tablet}
    (h : cells tablet = cells node.tablet) :
    Sets node prq
      (executePrimary { node with tablet := tablet } (.put prq.row prq.col prq.v2)) where
  code := rfl
  cells := by
    rw [← h]
    exact conductP_cells tablet prq.row prq.col prq.v2

/-- `CPut` is a compare-and-set unless it is asked to create an absent cell; then the lookup of the
missing column aborts the process. -/
theorem cPut_isCompareAndSet_iff {node : KVNode} (around : Surroundings) {prq : CPutRequest}
    (hserving : node.statusServ = true) (hprimary : ActsAsPrimary node) (hrow : prq.row ≠ [])
    (hcol : prq.col ≠ []) :
    IsCompareAndSet node prq (cPut node around prq) ↔
      (cells node.tablet (prq.row, prq.col)).isSome ∨ prq.v1 ≠ [] := by
  have hsame := cPutCheck_cells node.tablet prq.row prq.col prq.v1
  rw [cPut_primary around hserving hprimary hrow hcol]
  generalize hcheck : cPutCheck node.tablet prq.row prq.col prq.v1 = checked at hsame
  obtain ⟨tablet, verdict⟩ := checked
  cases hcell : cells node.tablet (prq.row, prq.col) with
  | some value =>
    have hverdict := cPutCheck_of_some hcell prq.v1
    rw [hcheck] at hverdict
    refine iff_of_true ?_ (.inl rfl)
    unfold IsCompareAndSet
    rw [hcell]
    by_cases hmatch : value = prq.v1
    · obtain rfl : verdict = .accept := by simpa [hmatch] using hverdict
      exact ⟨_, rfl, fun _ ↦ sets_executePrimary hsame, fun hne ↦ absurd hmatch hne⟩
    · simp only [if_neg hmatch] at hverdict
      subst hverdict
      exact ⟨_, rfl, fun heq ↦ absurd heq hmatch, fun _ ↦ ⟨.inr rfl, hsame, rfl⟩⟩
  | none =>
    have hverdict := cPutCheck_of_none hcell prq.v1
    rw [hcheck] at hverdict
    by_cases hv1 : prq.v1 = []
    · simp only [if_pos hv1] at hverdict
      subst hverdict
      refine iff_of_false ?_ (by simp [hv1])
      rintro ⟨outcome, hnone, -⟩
      cases hnone
    · simp only [if_neg hv1] at hverdict
      obtain ⟨message, rfl⟩ := hverdict
      refine iff_of_true ?_ (.inr hv1)
      unfold IsCompareAndSet
      rw [hcell]
      exact ⟨_, rfl, fun heq ↦ absurd heq hv1, fun _ ↦ ⟨.inl rfl, hsame, rfl⟩⟩

/-- A value compared with a cell that a `Put` has written. -/
theorem cPut_isCompareAndSet_solo :
    let node := (pPut soloPrimary ⟨lit "r", lit "c", lit "v"⟩).1
    IsCompareAndSet node ⟨lit "r", lit "c", lit "v", lit "w"⟩
        (cPut node ⟨none, { status := { code := .ok } }⟩ ⟨lit "r", lit "c", lit "v", lit "w"⟩) ↔
      (cells node.tablet (lit "r", lit "c")).isSome ∨ lit "v" ≠ [] :=
  cPut_isCompareAndSet_iff _ rfl rfl (by decide) (by decide)

/-- Creating a cell in an empty tablet aborts the process. -/
theorem cPut_create_aborts :
    let prq : CPutRequest := ⟨lit "user", lit "filenames", [], lit "a.txt"⟩
    let result := cPut soloPrimary ⟨none, { status := { code := .ok } }⟩ prq
    result = none ∧ ¬IsCompareAndSet soloPrimary prq result := by
  have habort : cPut soloPrimary ⟨none, { status := { code := .ok } }⟩
      ⟨lit "user", lit "filenames", [], lit "a.txt"⟩ = none := rfl
  refine ⟨habort, ?_⟩
  rintro ⟨outcome, hsome, -⟩
  rw [habort] at hsome
  cases hsome

end PennCloud.KV.CompareAndSet
