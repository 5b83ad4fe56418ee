import PennCloud.KV.Handlers

/-!
# Columns with a name

`Put` and `CPut` reject an empty column before they look at the partition, so no record that a node
executes or multicasts puts one. Starting with empty tablets, no cell of any node ever gets an empty
column.
-/

open PennCloud.KV.TabletCells PennCloud.KV.PrimaryView PennCloud.KV.Handlers

namespace PennCloud.KV.NamedColumns

/-- No cell has an empty column. -/
def Named (store : Bytes × Bytes → Option Bytes) : Prop := ∀ row, store (row, []) = none

/-- The record does not put an empty column. -/
def PutsNamed : LogRecord → Prop
  | .put _ ck _ => ck ≠ []
  | .delete _ _ => True

theorem named_empty : Named (cells ∅) := fun row ↦ cells_empty (row, [])

theorem Named.update {store : Bytes × Bytes → Option Bytes} (h : Named store) {row col : Bytes}
    (hcol : col ≠ []) (value : Option Bytes) : Named (Function.update store (row, col) value) := by
  intro row'
  rw [Function.update_of_ne]
  · exact h row'
  · intro heq
    exact hcol (Prod.mk.inj heq).2.symm

theorem Named.erase {store : Bytes × Bytes → Option Bytes} (h : Named store)
    (key : Bytes × Bytes) : Named (Function.update store key none) := by
  intro row
  by_cases hkey : (row, []) = key
  · rw [hkey, Function.update_self]
  · rw [Function.update_of_ne hkey]
    exact h row

/-! ## Handlers -/

theorem logAndConduct_named {node : KVNode} {record : LogRecord} (h : Named (cells node.tablet))
    (hrecord : PutsNamed record) : Named (cells (logAndConduct node record).tablet) := by
  cases record with
  | put rk ck ddt =>
    have hcells := conductP_cells node.tablet rk ck ddt
    intro row
    exact (congrFun hcells (row, [])).trans (h.update hrecord (some ddt) row)
  | delete rk ck =>
    have hcells := conductD_cells node.tablet rk ck
    intro row
    exact (congrFun hcells (row, [])).trans (h.erase (rk, ck) row)

/-- A request that gets to the primary's branch has passed the test of its keys. -/
theorem routeWrite_keys {terminated : String} {view : NodeView} {pmAddr : Option Bytes}
    {rk ck : Bytes} (h : (routeWrite terminated true view pmAddr rk ck).2 = .primary) :
    ck ≠ [] := by
  rintro rfl
  unfold routeWrite at h
  split at h
  · cases h
  · rw [if_pos (by simp)] at h
    cases h

/-- Whatever the surroundings answer, the node's tablet and the multicast record are named. -/
structure Serves (outcome : Outcome) : Prop where
  tablet : Named (cells outcome.node.tablet)
  multicast : ∀ record ∈ outcome.multicast, PutsNamed record

theorem followRoute_serves {node : KVNode} (h : Named (cells node.tablet)) (around : Surroundings)
    (routed : NodeView × Route) {record : LogRecord}
    (hrecord : routed.2 = .primary → PutsNamed record) :
    Serves (followRoute node around routed fun node ↦ executePrimary node record) := by
  unfold followRoute
  dsimp only
  split
  · exact ⟨h, fun record hmem ↦ absurd hmem (Option.not_mem_none record)⟩
  · exact ⟨h, fun record hmem ↦ absurd hmem (Option.not_mem_none record)⟩
  · next hroute =>
    refine ⟨logAndConduct_named h (hrecord hroute), fun record' hmem ↦ ?_⟩
    obtain rfl := Option.mem_some_iff.mp hmem
    exact hrecord hroute

theorem put_serves {node : KVNode} (h : Named (cells node.tablet)) (around : Surroundings)
    (prq : PutRequest) : Serves (put node around prq) :=
  followRoute_serves h around _ routeWrite_keys

theorem delete_serves {node : KVNode} (h : Named (cells node.tablet)) (around : Surroundings)
    (prq : DeleteRequest) : Serves (delete node around prq) :=
  followRoute_serves h around _ fun _ ↦ trivial

theorem cPut_serves {node : KVNode} (h : Named (cells node.tablet)) {around : Surroundings}
    {prq : CPutRequest} {outcome : Outcome} (hcput : cPut node around prq = some outcome) :
    Serves outcome := by
  unfold cPut at hcput
  dsimp only at hcput
  have hcheck : Named (cells (cPutCheck node.tablet prq.row prq.col prq.v1).1) := by
    rwa [cPutCheck_cells]
  split at hcput
  · obtain rfl := Option.some.inj hcput
    exact ⟨h, fun record hmem ↦ absurd hmem (Option.not_mem_none record)⟩
  · obtain rfl := Option.some.inj hcput
    exact ⟨h, fun record hmem ↦ absurd hmem (Option.not_mem_none record)⟩
  · next hroute =>
    split at hcput
    · cases hcput
    · obtain rfl := Option.some.inj hcput
      exact ⟨hcheck, fun record hmem ↦ absurd hmem (Option.not_mem_none record)⟩
    · obtain rfl := Option.some.inj hcput
      have hrecord : PutsNamed (.put prq.row prq.col prq.v2) := routeWrite_keys hroute
      refine ⟨logAndConduct_named hcheck hrecord, fun record hmem ↦ ?_⟩
      obtain rfl := Option.mem_some_iff.mp hmem
      exact hrecord

theorem executePeer_named {node : KVNode} (h : Named (cells node.tablet)) {record : LogRecord}
    (hrecord : PutsNamed record) : Named (cells (executePeer node record).1.tablet) := by
  unfold executePeer
  split
  · exact h
  · exact logAndConduct_named h hrecord

/-! ## Runs -/

/-- A request that a node handles: one of a client, or a record that a primary multicast. -/
inductive Handled
  | put (around : Surroundings) (prq : PutRequest)
  | cPut (around : Surroundings) (prq : CPutRequest)
  | delete (around : Surroundings) (prq : DeleteRequest)
  | peer (record : LogRecord) (hrecord : PutsNamed record)

/-- The node after the request; `none` is an aborted process. -/
def handle (node : KVNode) : Handled → Option KVNode
  | .put around prq => some (Handlers.put node around prq).node
  | .cPut around prq => (Handlers.cPut node around prq).map Outcome.node
  | .delete around prq => some (Handlers.delete node around prq).node
  | .peer record _ => some (executePeer node record).1

theorem handle_named {node node' : KVNode} (h : Named (cells node.tablet)) {request : Handled}
    (hhandle : handle node request = some node') : Named (cells node'.tablet) := by
  cases request with
  | put around prq =>
    obtain rfl := Option.some.inj hhandle
    exact (put_serves h around prq).tablet
  | cPut around prq =>
    obtain ⟨outcome, hcput, rfl⟩ := Option.map_eq_some_iff.mp hhandle
    exact (cPut_serves h hcput).tablet
  | delete around prq =>
    obtain rfl := Option.some.inj hhandle
    exact (delete_serves h around prq).tablet
  | peer record hrecord =>
    obtain rfl := Option.some.inj hhandle
    exact executePeer_named h hrecord

/-- Whatever a node handles, it never gets a cell with an empty column. -/
theorem handles_named {node node' : KVNode} (h : Named (cells node.tablet))
    {requests : List Handled} (hhandles : requests.foldlM handle node = some node') :
    Named (cells node'.tablet) := by
  induction requests generalizing node with
  | nil =>
    obtain rfl := Option.some.inj hhandles
    exact h
  | cons request requests ih =>
    rw [List.foldlM_cons] at hhandles
    obtain ⟨between, hhandle, hrest⟩ := Option.bind_eq_some_iff.mp hhandles
    exact ih (handle_named h hhandle) hrest

end PennCloud.KV.NamedColumns
