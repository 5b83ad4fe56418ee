import PennCloud.KV.Handlers
import PennCloud.Library.Transducer
import Mathlib.Algebra.Group.Nat.Defs

/-!
# A node as a flat map

The purpose of a storage node, stated without rows, logs and views: one map from (row, column)
to bytes that answers while an admin switch is on. The handlers of a node acting as primary,
run one after another, refine this machine. Copying a row out and storing it back, empty rows,
rejected requests and shut-down periods are invisible in the answers and in the cells.
-/

open PennCloud.KV.TabletCells PennCloud.KV.PrimaryView PennCloud.KV.Handlers
open PennCloud.Library

namespace PennCloud.KV.FlatStore

/-- The requests of the law. A request that would be forwarded carries what the surroundings
answer; a primary does not look at it. -/
inductive Request
  | put (around : Surroundings) (prq : PutRequest)
  | delete (around : Surroundings) (prq : DeleteRequest)
  | pPut (req : PutRequest)
  | pDelete (req : DeleteRequest)
  | get (prq : GetRequest)
  | adminShutdown
  | adminStartup

/-- Values whose size fits the 32 bits of `bytes_written`. -/
def Request.Short : Request → Prop
  | .put _ prq => prq.value.length < 2 ^ 32
  | .pPut req => req.value.length < 2 ^ 32
  | _ => True

/-- One request at a node. -/
def nodeStep (node : KVNode) : Request → KVNode × Reply
  | .put around prq => ((put node around prq).node, (put node around prq).reply)
  | .delete around prq => ((delete node around prq).node, (delete node around prq).reply)
  | .pPut req => pPut node req
  | .pDelete req => pDelete node req
  | .get prq => (node, get node prq)
  | .adminShutdown =>
    ({ node with toNodeView := adminShutdown node.toNodeView }, { status := { code := .ok } })
  | .adminStartup =>
    ({ node with toNodeView := adminStartup node.toNodeView }, { status := { code := .ok } })

/-! ## The abstract machine -/

structure Store where
  cells : Bytes × Bytes → Option Bytes
  serving : Bool

/-- The observable part of a reply: code, `bytes_written` or `keys_deleted`, and the value. -/
structure FlatReply where
  code : StatusCode
  number : ℕ := 0
  value : Option Bytes := none

/-- Store a value under a key. -/
def storeFlat (store : Store) (row col value : Bytes) : Store × FlatReply :=
  if store.serving then
    ({ store with cells := Function.update store.cells (row, col) (some value) },
      { code := .ok, number := value.length })
  else
    (store, { code := .unavailable })

/-- Remove a key and report whether it was there. -/
def eraseFlat (store : Store) (row col : Bytes) : Store × FlatReply :=
  if store.serving then
    ({ store with cells := Function.update store.cells (row, col) none },
      { code := .ok, number := if (store.cells (row, col)).isSome then 1 else 0 })
  else
    (store, { code := .unavailable })

def lookupFlat (store : Store) (row col : Bytes) : FlatReply :=
  if store.serving then
    match store.cells (row, col) with
    | some value => { code := .ok, value := some value }
    | none => { code := .notFound }
  else
    { code := .unavailable }

def flatStep (store : Store) : Request → Store × FlatReply
  | .put _ prq =>
    if store.serving && (prq.row.isEmpty || prq.col.isEmpty) then
      (store, { code := .invalidArgument })
    else
      storeFlat store prq.row prq.col prq.value
  | .delete _ prq => eraseFlat store prq.row prq.col
  | .pPut req => storeFlat store req.row req.col req.value
  | .pDelete req => eraseFlat store req.row req.col
  | .get prq => (store, lookupFlat store prq.row prq.col)
  | .adminShutdown => ({ store with serving := false }, { code := .ok })
  | .adminStartup => ({ store with serving := true }, { code := .ok })

/-! ## The refinement -/

/-- The map a node implements. -/
def flatOf (node : KVNode) : Store where
  cells := cells node.tablet
  serving := node.statusServ

def observe (reply : Reply) : FlatReply where
  code := reply.status.code
  number := reply.size.toNat
  value := reply.data.map KeyValue.value

/-- The node's view names the node itself. -/
def ActsAsPrimary (node : KVNode) : Prop := node.primaryIdx = mStatus

theorem conductSize_toNat_put (tablet : Tablet) (rk ck : Bytes) {ddt : Bytes}
    (h : ddt.length < 2 ^ 32) :
    (conductSize tablet (.put rk ck ddt)).toNat = ddt.length := by
  rw [conductSize, conductP_size, UInt32.toNat_ofNat']
  exact Nat.mod_eq_of_lt h

theorem conductSize_toNat_delete (tablet : Tablet) (rk ck : Bytes) :
    (conductSize tablet (.delete rk ck)).toNat =
      if (cells tablet (rk, ck)).isSome then 1 else 0 := by
  rw [conductSize, conductD_count]
  split
  · rfl
  · rfl

/-- At a primary every admitted write is executed and a shut-down node refuses it. -/
theorem routeWrite_primary {view : NodeView} (hprimary : view.primaryIdx = mStatus)
    (terminated : String) (checkKeys : Bool) (pmAddr : Option Bytes) (rk ck : Bytes) :
    routeWrite terminated checkKeys view pmAddr rk ck = (view,
      if view.statusServ then
        if checkKeys && (rk.isEmpty || ck.isEmpty) then
          .reply { code := .invalidArgument, message := "Empty row and/or column!" }
        else .primary
      else .reply { code := .unavailable, message := terminated }) := by
  have hknown : view.primaryIdx ≠ ukStatus := by
    rw [hprimary]
    decide
  unfold routeWrite
  rw [recoverPartition_known hknown]
  cases view.statusServ with
  | false => rfl
  | true =>
    simp only [not_true_eq_false, if_false, hprimary, ne_eq, if_true]
    split
    · rfl
    · rfl

theorem executePeer_put (node : KVNode) (rk ck : Bytes) {ddt : Bytes} (h : ddt.length < 2 ^ 32) :
    (flatOf (executePeer node (.put rk ck ddt)).1, observe (executePeer node (.put rk ck ddt)).2) =
      storeFlat (flatOf node) rk ck ddt := by
  have hcells := logAndConduct_cells node (.put rk ck ddt)
  have hsize := conductSize_toNat_put node.tablet rk ck h
  unfold executePeer storeFlat flatOf observe
  cases hserving : node.statusServ with
  | false => simp [hserving]
  | true => simpa [hserving, okReply, hsize] using ⟨hcells, hserving⟩

theorem executePeer_delete (node : KVNode) (rk ck : Bytes) :
    (flatOf (executePeer node (.delete rk ck)).1, observe (executePeer node (.delete rk ck)).2) =
      eraseFlat (flatOf node) rk ck := by
  have hcells := logAndConduct_cells node (.delete rk ck)
  have hsize := conductSize_toNat_delete node.tablet rk ck
  unfold executePeer eraseFlat flatOf observe
  cases hserving : node.statusServ with
  | false => simp [hserving]
  | true => simpa [hserving, okReply, hsize] using ⟨hcells, hserving⟩

/-- As the primary, `Put` rejects empty keys and otherwise acts like `PPut`. -/
theorem put_refines {node : KVNode} (hprimary : ActsAsPrimary node) (around : Surroundings)
    {prq : PutRequest} (h : prq.value.length < 2 ^ 32) :
    (flatOf (put node around prq).node, observe (put node around prq).reply) =
      flatStep (flatOf node) (.put around prq) := by
  have hpeer := executePeer_put node prq.row prq.col h
  unfold put followRoute putRoute flatStep
  rw [routeWrite_primary hprimary]
  unfold executePeer at hpeer
  cases hserving : node.statusServ with
  | false => simpa [hserving, flatOf, observe] using hpeer
  | true =>
    cases hkeys : prq.row.isEmpty || prq.col.isEmpty with
    | true => simp [hkeys, hserving, flatOf, observe]
    | false => simpa [hkeys, hserving, flatOf, executePrimary] using hpeer

theorem delete_refines {node : KVNode} (hprimary : ActsAsPrimary node) (around : Surroundings)
    (prq : DeleteRequest) :
    (flatOf (delete node around prq).node, observe (delete node around prq).reply) =
      flatStep (flatOf node) (.delete around prq) := by
  have hpeer := executePeer_delete node prq.row prq.col
  unfold delete followRoute deleteRoute flatStep
  rw [routeWrite_primary hprimary]
  unfold executePeer at hpeer
  cases hserving : node.statusServ with
  | false => simpa [hserving, flatOf, observe] using hpeer
  | true => simpa [hserving, flatOf, executePrimary] using hpeer

theorem get_refines (node : KVNode) (prq : GetRequest) :
    observe (get node prq) = lookupFlat (flatOf node) prq.row prq.col := by
  unfold observe lookupFlat flatOf
  rw [get_code, get_data, get_size]
  cases node.statusServ with
  | false => rfl
  | true =>
    cases hcell : cells node.tablet (prq.row, prq.col) with
    | none => simp [hcell]
    | some value => simp [hcell]

/-- No request of the law moves the primary. -/
theorem nodeStep_primary {node : KVNode} (hprimary : ActsAsPrimary node) (request : Request) :
    ActsAsPrimary (nodeStep node request).1 := by
  have hpeer : ∀ record, (executePeer node record).1.toNodeView = node.toNodeView := by
    intro record
    unfold executePeer
    split
    · rfl
    · rfl
  have hroute : ∀ terminated checkKeys pmAddr rk ck,
      (routeWrite terminated checkKeys node.toNodeView pmAddr rk ck).1 = node.toNodeView := by
    intro terminated checkKeys pmAddr rk ck
    rw [routeWrite_primary hprimary]
  have hview : ∀ {view : NodeView}, view = node.toNodeView → view.primaryIdx = mStatus := by
    rintro _ rfl
    exact hprimary
  cases request with
  | put around prq =>
    exact hview ((followRoute_view node around _ fun _ ↦ rfl).trans (hroute _ _ _ _ _))
  | delete around prq =>
    exact hview ((followRoute_view node around _ fun _ ↦ rfl).trans (hroute _ _ _ _ _))
  | pPut req => exact hview (hpeer _)
  | pDelete req => exact hview (hpeer _)
  | get prq => exact hprimary
  | adminShutdown => exact hprimary
  | adminStartup => exact hprimary

/-- One request: the state and the answer are those of the map. -/
theorem nodeStep_refines {node : KVNode} (hprimary : ActsAsPrimary node) {request : Request}
    (hshort : request.Short) :
    (flatOf (nodeStep node request).1, observe (nodeStep node request).2) =
      flatStep (flatOf node) request := by
  cases request with
  | put around prq => exact put_refines hprimary around hshort
  | delete around prq => exact delete_refines hprimary around prq
  | pPut req => exact executePeer_put node req.row req.col hshort
  | pDelete req => exact executePeer_delete node req.row req.col
  | get prq => exact congrArg (Prod.mk (flatOf node)) (get_refines node prq)
  | adminShutdown => rfl
  | adminStartup => rfl

theorem nodeStep_stepRefines :
    Transducer.StepRefines nodeStep flatStep flatOf observe ActsAsPrimary Request.Short where
  preserves _ request hprimary _ := nodeStep_primary hprimary request
  state _ _ hprimary hshort := congrArg Prod.fst (nodeStep_refines hprimary hshort)
  answer _ _ hprimary hshort := congrArg Prod.snd (nodeStep_refines hprimary hshort)

/-- From an empty tablet, any sequence of requests gets the answers of one finite map, and the
cells are those of the map. -/
theorem node_refines_flatStore (node : KVNode) (requests : List Request)
    (hprimary : ActsAsPrimary node) (hempty : node.tablet = ∅)
    (hshort : ∀ request ∈ requests, request.Short) :
    let served := Transducer.run nodeStep node requests
    let flat := Transducer.run flatStep
      { cells := fun _ ↦ none, serving := node.statusServ } requests
    served.2.map observe = flat.2 ∧ cells served.1.tablet = flat.1.cells ∧
      served.1.statusServ = flat.1.serving := by
  have hstart : flatOf node = { cells := fun _ ↦ none, serving := node.statusServ } := by
    simp only [flatOf, hempty, Store.mk.injEq, and_true]
    funext key
    exact cells_empty key
  have hrun := nodeStep_stepRefines.run hprimary hshort
  rw [hstart] at hrun
  exact ⟨hrun.2, congrArg Store.cells hrun.1, congrArg Store.serving hrun.1⟩

/-- A primary serving alone. -/
def soloPrimary : KVNode where
  addr := lit "127.0.0.1:6000"
  peerAddrs := []
  primaryIdx := mStatus

theorem node_refines_flatStore_solo :
    let requests : List Request :=
      [.pPut ⟨lit "r", lit "c", lit "v"⟩, .get ⟨lit "r", lit "c"⟩, .adminShutdown,
        .pDelete ⟨lit "r", lit "c"⟩]
    let served := Transducer.run nodeStep soloPrimary requests
    let flat := Transducer.run flatStep { cells := fun _ ↦ none, serving := true } requests
    served.2.map observe = flat.2 ∧ cells served.1.tablet = flat.1.cells ∧
      served.1.statusServ = flat.1.serving := by
  refine node_refines_flatStore soloPrimary _ rfl rfl ?_
  simp [Request.Short, lit]

end PennCloud.KV.FlatStore
