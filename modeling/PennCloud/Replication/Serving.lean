import PennCloud.Coordinator.Forwarding
import PennCloud.KV.Handlers

/-!
# Serving a write in a replicated partition

The nodes of one partition with their tablets, under the coordinator of the modules before. A
write request is handled at the node it was sent to, forwarded along the nodes' views, and
executed by a node that takes itself for the primary: the record goes to all other nodes, of
which those that are shut down reject it, and the outcome is reported whatever they answered.
A request is taken as one step. A `CPut` that aborts leaves a dead process: it serves nothing, and
no admin command reaches it.
-/

open PennCloud.KV.TabletCells PennCloud.KV.PrimaryView PennCloud.KV.Handlers
open PennCloud.Coordinator.Election PennCloud.Coordinator.Views
open PennCloud.Coordinator.Forwarding PennCloud.Library.Runs PennCloud.Library.WriteLog

namespace PennCloud.Replication.Serving

/-! ## Requests -/

inductive WriteRequest
  | put (prq : PutRequest)
  | cPut (prq : CPutRequest)
  | delete (prq : DeleteRequest)
  deriving DecidableEq

/-- The record that a request appends where it is accepted. -/
def WriteRequest.record : WriteRequest → LogRecord
  | .put prq => .put prq.row prq.col prq.value
  | .cPut prq => .put prq.row prq.col prq.v2
  | .delete prq => .delete prq.row prq.col

/-- The cell that a request writes. -/
def WriteRequest.cell (req : WriteRequest) : Bytes × Bytes := Write.key req.record

/-- What the cell holds after the request. -/
def WriteRequest.outcome (req : WriteRequest) : Option Bytes := Write.val req.record

def WriteRequest.route (req : WriteRequest) (view : NodeView) (pmAddr : Option Bytes) :
    NodeView × Route :=
  match req with
  | .put prq => putRoute view pmAddr prq.row prq.col
  | .cPut prq => cPutRoute view pmAddr prq.row prq.col
  | .delete prq => deleteRoute view pmAddr prq.row prq.col

/-- The handler of a request; `none` is an aborted process. -/
def WriteRequest.handle (req : WriteRequest) (node : KVNode) (around : Surroundings) :
    Option Outcome :=
  match req with
  | .put prq => some (KV.Handlers.put node around prq)
  | .cPut prq => KV.Handlers.cPut node around prq
  | .delete prq => some (KV.Handlers.delete node around prq)

/-! ## The partition -/

structure Replicas where
  master : MasterPartitionView
  nodes : List KVNode
  dead : List ℕ := []

/-- The views, without the data. -/
def Replicas.control (s : Replicas) : Partition where
  master := s.master
  nodes := s.nodes.map KVNode.toNodeView

/-- Give the nodes these views. -/
def Replicas.withControl (s : Replicas) (p : Partition) : Replicas :=
  { s with
    master := p.master
    nodes := s.nodes.zipWith (fun node view ↦ { node with toNodeView := view }) p.nodes }

/-- The reply of a node that cannot be reached. -/
def unreachable : Reply where
  status := { code := .unavailable, message := "failed to connect to all addresses" }

def Replicas.modify (s : Replicas) (i : ℕ) (f : NodeView → NodeView) : Replicas :=
  { s with nodes := s.nodes.modify i fun node ↦ { node with toNodeView := f node.toNodeView } }

/-- The process of node `i` ends. -/
def Replicas.kill (s : Replicas) (i : ℕ) : Replicas :=
  { s.modify i adminShutdown with dead := i :: s.dead }

/-- Store what a handler left at node `i` and send its record to the other nodes. -/
def Replicas.commit (s : Replicas) (i : ℕ) (outcome : Outcome) : Replicas :=
  { s with
    nodes := s.nodes.mapIdx fun j node ↦
      if j = i then outcome.node
      else
        match outcome.multicast with
        | some record => (executePeer node record).1
        | none => node }

/-- The node behind the stub that a view names. -/
def Replicas.target (s : Replicas) (view : NodeView) : Option ℕ :=
  (peerAddr? view).bind fun addr ↦ s.nodes.findIdx? (·.addr = addr)

/-- A write request sent to node `i`, with its reply. There is no limit on the number of hops in
the source; `none` is a request that is still under way after `fuel` of them. -/
def Replicas.serve : ℕ → Replicas → ℕ → WriteRequest → Option (Replicas × Reply)
  | 0, _, _, _ => none
  | fuel + 1, s, i, req =>
    match s.nodes[i]? with
    | none => some (s, unreachable)
    | some node =>
      if i ∈ s.dead then some (s, unreachable)
      else
        let pmAddr := some (primaryResponse s.master).addr
        match req.route node.toNodeView pmAddr with
        | (view, .forward _) =>
          match s.target view with
          | some j => Replicas.serve fuel (s.modify i fun _ ↦ view) j req
          | none => some (s.modify i fun _ ↦ view, unreachable)
        | _ =>
          match req.handle node { pmAddr := pmAddr, peerReply := unreachable } with
          | some outcome => some (s.commit i outcome, outcome.reply)
          | none => some (s.kill i, unreachable)

/-! ## One handler -/

theorem recoverPartition_some (view : NodeView) (addr : Bytes) :
    recoverPartition view (some addr) =
      some (refreshView addr view, decide ((refreshView addr view).primaryIdx ≠ ukStatus)) := by
  rw [refreshView_eq, recoverPartition]
  by_cases hunknown : view.primaryIdx = ukStatus
  · simp only [hunknown, if_true, Option.map_some]
  · simp only [hunknown, if_false, ne_eq, not_false_eq_true, decide_true]

/-- What the head of a write handler can decide. -/
inductive Routed (addr : Bytes) (view : NodeView) : NodeView × Route → Prop
  | rejected (status : Status) (hcode : status.code ≠ .ok) : Routed addr view (view, .reply status)
  | unknown (status : Status) (hcode : status.code ≠ .ok) :
      Routed addr view (refreshView addr view, .reply status)
  | forward (hserving : view.statusServ = true)
      (hknown : (refreshView addr view).primaryIdx ≠ ukStatus)
      (hother : (refreshView addr view).primaryIdx ≠ mStatus) :
      Routed addr view
        (refreshView addr view, .forward (refreshView addr view).primaryIdx)
  | primary (hserving : view.statusServ = true)
      (hself : (refreshView addr view).primaryIdx = mStatus) :
      Routed addr view (refreshView addr view, .primary)

theorem routeWrite_routed (terminated : String) (checkKeys : Bool) (view : NodeView) (addr : Bytes)
    (rk ck : Bytes) : Routed addr view (routeWrite terminated checkKeys view (some addr) rk ck) := by
  unfold routeWrite
  rw [recoverPartition_some]
  cases hserving : view.statusServ with
  | false => exact .rejected _ (by simp)
  | true =>
    simp only [not_true_eq_false, if_false]
    split
    · exact .rejected _ (by simp)
    · by_cases hknown : (refreshView addr view).primaryIdx = ukStatus
      · simp only [hknown, ne_eq, not_true_eq_false, decide_false]
        exact .unknown _ (by simp)
      · simp only [hknown, ne_eq, not_false_eq_true, decide_true]
        split
        · next hother => exact .forward hserving hknown hother
        · next hself => exact .primary hserving (not_not.mp hself)

theorem WriteRequest.route_routed (req : WriteRequest) (view : NodeView) (addr : Bytes) :
    Routed addr view (req.route view (some addr)) := by
  cases req with
  | put prq => exact routeWrite_routed _ _ _ _ _ _
  | cPut prq => exact routeWrite_routed _ _ _ _ _ _
  | delete prq => exact routeWrite_routed _ _ _ _ _ _

/-- What a handler does that does not forward. -/
inductive Handled (req : WriteRequest) (node : KVNode) (view : NodeView) : Outcome → Prop
  | executed (outcome : Outcome) (hserving : node.statusServ = true)
      (hview : outcome.node.toNodeView = view) (hmulticast : outcome.multicast = some req.record)
      (hcode : outcome.reply.status.code = .ok)
      (hcells : cells outcome.node.tablet = write (cells node.tablet) req.record) :
      Handled req node view outcome
  | refused (outcome : Outcome) (hview : outcome.node.toNodeView = view)
      (hmulticast : outcome.multicast = none) (hcode : outcome.reply.status.code ≠ .ok)
      (hcells : cells outcome.node.tablet = cells node.tablet) :
      Handled req node view outcome

theorem executePrimary_handled {req : WriteRequest} {node : KVNode} {view : NodeView}
    (hserving : node.statusServ = true) (node' : KVNode) (hview : node'.toNodeView = view)
    (hcells : cells node'.tablet = cells node.tablet) :
    Handled req node view (executePrimary node' req.record) := by
  refine .executed _ hserving hview rfl rfl ?_
  rw [← hcells]
  exact logAndConduct_cells node' req.record

theorem followRoute_handled {req : WriteRequest} {node : KVNode} {around : Surroundings}
    {addr : Bytes} {routed : NodeView × Route} (h : Routed addr node.toNodeView routed)
    (hstay : ∀ peer, routed.2 ≠ .forward peer) :
    Handled req node routed.1
      (followRoute node around routed fun node ↦ executePrimary node req.record) := by
  cases h with
  | rejected status hcode => exact .refused _ rfl rfl hcode rfl
  | unknown status hcode => exact .refused _ rfl rfl hcode rfl
  | forward => exact absurd rfl (hstay _)
  | primary hserving hself => exact executePrimary_handled hserving _ rfl rfl

theorem cPutCheck_refuse {tablet : Tablet} {rk ck v1 : Bytes} {status : Status}
    (h : (cPutCheck tablet rk ck v1).2 = .refuse status) : status.code ≠ .ok := by
  unfold cPutCheck at h
  dsimp only at h
  split at h
  · cases h
    decide
  · split at h
    · cases h
      decide
    · split at h
      · cases h
      · split at h
        · cases h
        · cases h
          decide

theorem WriteRequest.handle_handled {req : WriteRequest} {node : KVNode} {addr : Bytes}
    {peerReply : Reply} {outcome : Outcome}
    (hstay : ∀ peer, (req.route node.toNodeView (some addr)).2 ≠ .forward peer)
    (h : req.handle node { pmAddr := some addr, peerReply := peerReply } = some outcome) :
    Handled req node (req.route node.toNodeView (some addr)).1 outcome := by
  have hrouted := req.route_routed node.toNodeView addr
  cases req with
  | put prq =>
    obtain rfl := Option.some.inj h
    exact followRoute_handled hrouted hstay
  | delete prq =>
    obtain rfl := Option.some.inj h
    exact followRoute_handled hrouted hstay
  | cPut prq =>
    simp only [WriteRequest.handle, KV.Handlers.cPut, WriteRequest.route] at h hrouted hstay ⊢
    cases hr : cPutRoute node.toNodeView (some addr) prq.row prq.col with
    | mk view route =>
      rw [hr] at h hrouted hstay
      cases hrouted with
      | rejected status hcode =>
        obtain rfl := Option.some.inj h
        exact .refused _ rfl rfl hcode rfl
      | unknown status hcode =>
        obtain rfl := Option.some.inj h
        exact .refused _ rfl rfl hcode rfl
      | forward => exact absurd rfl (hstay _)
      | primary hserving hself =>
        have hcells := cPutCheck_cells node.tablet prq.row prq.col prq.v1
        dsimp only at h
        cases hverdict : (cPutCheck node.tablet prq.row prq.col prq.v1).2 with
        | abort =>
          rw [hverdict] at h
          cases h
        | refuse status =>
          rw [hverdict] at h
          obtain rfl := Option.some.inj h
          exact .refused _ rfl rfl (cPutCheck_refuse hverdict) hcells
        | accept =>
          rw [hverdict] at h
          obtain rfl := Option.some.inj h
          exact executePrimary_handled hserving _ rfl hcells

/-! ## One request -/

/-- What a request does to one node. -/
structure NodeEffect (req : WriteRequest) (reply : Reply) (node node' : KVNode) : Prop where
  serving : node'.statusServ = true → node.statusServ = true
  frame : ∀ cell ≠ req.cell, cells node'.tablet cell = cells node.tablet cell
  ok : reply.status.code = .ok → node'.statusServ = node.statusServ ∧
    (node.statusServ = true → cells node'.tablet req.cell = req.outcome)

/-- What a request does to the partition. -/
structure ServeEffect (pId : ℕ) (req : WriteRequest) (reply : Reply) (s s' : Replicas) : Prop where
  control : Reaches (partitionMachine pId) anyStep s.control s'.control
  node : ∀ (j : ℕ) node', s'.nodes[j]? = some node' →
    ∃ node, s.nodes[j]? = some node ∧ NodeEffect req reply node node'

theorem NodeEffect.of_cells_eq {req : WriteRequest} {reply : Reply} {node node' : KVNode}
    (hserving : node'.statusServ = true → node.statusServ = true)
    (hcells : cells node'.tablet = cells node.tablet) (hcode : reply.status.code ≠ .ok) :
    NodeEffect req reply node node' where
  serving := hserving
  frame := fun cell _ ↦ congrFun hcells cell
  ok := fun h ↦ absurd h hcode

/-- A node whose cells take the write. -/
theorem NodeEffect.of_write {req : WriteRequest} {reply : Reply} {node node' : KVNode}
    (hserving : node'.statusServ = node.statusServ)
    (hcells : node.statusServ = true → cells node'.tablet = write (cells node.tablet) req.record)
    (hdown : node.statusServ = false → node' = node) : NodeEffect req reply node node' where
  serving := fun h ↦ hserving.symm.trans h
  frame := by
    intro cell hne
    cases hup : node.statusServ with
    | true => rw [hcells hup, write_of_ne hne]
    | false => rw [hdown hup]
  ok := by
    refine fun _ ↦ ⟨hserving, fun hup ↦ ?_⟩
    rw [hcells hup]
    exact write_self _ _

theorem Replicas.modify_getElem? (s : Replicas) (i j : ℕ) (f : NodeView → NodeView) :
    (s.modify i f).nodes[j]? =
      if i = j then s.nodes[j]?.map fun node ↦ { node with toNodeView := f node.toNodeView }
      else s.nodes[j]? := by
  simp only [Replicas.modify, List.getElem?_modify]
  split
  · rfl
  · simp

theorem Replicas.control_getElem? (s : Replicas) (i : ℕ) :
    s.control.nodes[i]? = s.nodes[i]?.map KVNode.toNodeView :=
  List.getElem?_map

theorem Replicas.modify_control (s : Replicas) (i : ℕ) (f : NodeView → NodeView) :
    (s.modify i f).control = s.control.modify i f := by
  have hnodes : (s.modify i f).control.nodes = (s.control.modify i f).nodes := by
    apply List.ext_getElem?
    intro j
    rw [Partition.modify_getElem?, Replicas.control_getElem?, Replicas.control_getElem?,
      Replicas.modify_getElem?]
    split
    · rw [Option.map_map, Option.map_map]
      rfl
    · rfl
  calc
    (s.modify i f).control = ⟨s.master, (s.modify i f).control.nodes⟩ := rfl
    _ = ⟨s.master, (s.control.modify i f).nodes⟩ := by rw [hnodes]

/-- Taking over a routed view is a refresh of the node, or nothing. -/
theorem reaches_routed {s : Replicas} {i : ℕ} {node : KVNode} (hnode : s.nodes[i]? = some node)
    {routed : NodeView × Route} (h : Routed (primaryResponse s.master).addr node.toNodeView routed)
    (pId : ℕ) :
    Reaches (partitionMachine pId) anyStep s.control (s.control.modify i fun _ ↦ routed.1) := by
  have hview : ∀ view, s.control.nodes[i]? = some view → node.toNodeView = view := by
    intro view hview
    rw [Replicas.control_getElem?, hnode, Option.map_some, Option.some.injEq] at hview
    exact hview
  have hrefresh : s.control.modify i (fun _ ↦
      refreshView (primaryResponse s.master).addr node.toNodeView) =
        s.control.step pId (.refresh i) := by
    apply Partition.modify_congr
    intro view hget
    rw [hview view hget]
    rfl
  cases h with
  | rejected =>
    rw [Partition.modify_id hview]
    exact Reaches.refl
  | unknown =>
    rw [hrefresh]
    exact Reaches.single trivial rfl
  | forward =>
    rw [hrefresh]
    exact Reaches.single trivial rfl
  | primary =>
    rw [hrefresh]
    exact Reaches.single trivial rfl

theorem Routed.statusServ {addr : Bytes} {view : NodeView} {routed : NodeView × Route}
    (h : Routed addr view routed) : routed.1.statusServ = view.statusServ := by
  cases h with
  | rejected => rfl
  | unknown => exact refreshView_statusServ addr view
  | forward => exact refreshView_statusServ addr view
  | primary => exact refreshView_statusServ addr view

theorem ServeEffect.trans {pId : ℕ} {req : WriteRequest} {reply : Reply} {s t u : Replicas}
    (hcontrol : Reaches (partitionMachine pId) anyStep s.control t.control)
    (hnode : ∀ (j : ℕ) node', t.nodes[j]? = some node' → ∃ node, s.nodes[j]? = some node ∧
      node'.statusServ = node.statusServ ∧ node'.tablet = node.tablet)
    (h : ServeEffect pId req reply t u) : ServeEffect pId req reply s u where
  control := hcontrol.trans h.control
  node := by
    intro j node'' hnode''
    obtain ⟨node', hget', heffect⟩ := h.node j node'' hnode''
    obtain ⟨node, hget, hserving, htablet⟩ := hnode j node' hget'
    refine ⟨node, hget, ?_⟩
    constructor
    · exact fun hup ↦ hserving.symm.trans (heffect.serving hup)
    · intro cell hne
      rw [← htablet]
      exact heffect.frame cell hne
    · rw [← hserving]
      exact heffect.ok

/-- The routing decision for a request at a node of the partition. -/
def Replicas.routed (s : Replicas) (node : KVNode) (req : WriteRequest) : NodeView × Route :=
  req.route node.toNodeView (some (primaryResponse s.master).addr)

/-- The view a request leaves at the node it came to. -/
def Replicas.adopt (s : Replicas) (i : ℕ) (node : KVNode) (req : WriteRequest) : Replicas :=
  s.modify i fun _ ↦ (s.routed node req).1

/-- The ways in which a request is served. -/
inductive Served (fuel : ℕ) (s : Replicas) (i : ℕ) (req : WriteRequest) :
    Replicas × Reply → Prop
  | lost : Served fuel s i req (s, unreachable)
  | forwarded (node : KVNode) (peer : ℤ) (j : ℕ) (r : Replicas × Reply)
      (hnode : s.nodes[i]? = some node) (hroute : (s.routed node req).2 = .forward peer)
      (htarget : s.target (s.routed node req).1 = some j)
      (hrest : (s.adopt i node req).serve fuel j req = some r) : Served fuel s i req r
  | stuck (node : KVNode) (hnode : s.nodes[i]? = some node) :
      Served fuel s i req (s.adopt i node req, unreachable)
  | done (node : KVNode) (outcome : Outcome) (hnode : s.nodes[i]? = some node)
      (h : Handled req node (s.routed node req).1 outcome) :
      Served fuel s i req (s.commit i outcome, outcome.reply)
  | aborted (node : KVNode) (hnode : s.nodes[i]? = some node) :
      Served fuel s i req (s.kill i, unreachable)

theorem served_of_serve {fuel : ℕ} {s : Replicas} {i : ℕ} {req : WriteRequest}
    {r : Replicas × Reply} (h : s.serve (fuel + 1) i req = some r) : Served fuel s i req r := by
  unfold Replicas.serve at h
  split at h
  · cases h
    exact .lost
  · next node hnode =>
    split at h
    · cases h
      exact .lost
    · dsimp only at h
      split at h
      · next view peer hroute =>
        have hview : (s.routed node req).1 = view := congrArg Prod.fst hroute
        split at h
        · next j htarget =>
          rw [← hview] at h htarget
          exact .forwarded node peer j r hnode (congrArg Prod.snd hroute) htarget h
        · rw [← hview] at h
          cases h
          exact .stuck node hnode
      · next hstay =>
        split at h
        · next outcome houtcome =>
          cases h
          refine .done node outcome hnode (WriteRequest.handle_handled ?_ houtcome)
          intro peer hpeer
          exact hstay _ peer (Prod.ext rfl hpeer)
        · cases h
          exact .aborted node hnode

theorem Replicas.commit_getElem? (s : Replicas) (i j : ℕ) (outcome : Outcome) :
    (s.commit i outcome).nodes[j]? = s.nodes[j]?.map fun node ↦
      if j = i then outcome.node
      else
        match outcome.multicast with
        | some record => (executePeer node record).1
        | none => node :=
  List.getElem?_mapIdx

theorem executePeer_view (node : KVNode) (record : LogRecord) :
    (executePeer node record).1.toNodeView = node.toNodeView := by
  unfold executePeer
  split
  · rfl
  · rfl

theorem executePeer_effect (req : WriteRequest) (reply : Reply) (node : KVNode) :
    NodeEffect req reply node (executePeer node req.record).1 := by
  refine .of_write ?_ ?_ ?_
  · exact congrArg NodeView.statusServ (executePeer_view node req.record)
  · intro hup
    have hexec : (executePeer node req.record).1 = logAndConduct node req.record := by
      simp only [executePeer, hup, not_true_eq_false, if_false]
    rw [hexec]
    exact logAndConduct_cells node req.record
  · intro hdown
    simp only [executePeer, hdown, Bool.false_eq_true, not_false_eq_true, if_true]

/-- A handler that does not forward changes the views like the routing decision. -/
theorem Replicas.commit_control {s : Replicas} {i : ℕ} {outcome : Outcome} {view : NodeView}
    (h : outcome.node.toNodeView = view) :
    (s.commit i outcome).control = s.control.modify i fun _ ↦ view := by
  have hnodes : (s.commit i outcome).control.nodes = (s.control.modify i fun _ ↦ view).nodes := by
    apply List.ext_getElem?
    intro j
    rw [Partition.modify_getElem?, Replicas.control_getElem?, Replicas.control_getElem?,
      Replicas.commit_getElem?, Option.map_map]
    by_cases hij : i = j
    · simp only [hij, if_true, Function.comp_def, Option.map_map, h]
    · have hji : ¬j = i := fun heq ↦ hij heq.symm
      simp only [hij, hji, if_false]
      congr 1
      funext node
      simp only [Function.comp_apply]
      split
      · exact executePeer_view node _
      · rfl
  calc
    (s.commit i outcome).control = ⟨s.master, (s.commit i outcome).control.nodes⟩ := rfl
    _ = ⟨s.master, (s.control.modify i fun _ ↦ view).nodes⟩ := by rw [hnodes]

theorem ServeEffect.of_commit {pId : ℕ} {s : Replicas} {i : ℕ} {req : WriteRequest}
    {node : KVNode} {outcome : Outcome} {view : NodeView} (hnode : s.nodes[i]? = some node)
    (hview : outcome.node.toNodeView = view)
    (hreach : Reaches (partitionMachine pId) anyStep s.control (s.control.modify i fun _ ↦ view))
    (hself : NodeEffect req outcome.reply node outcome.node)
    (hothers : ∀ old, NodeEffect req outcome.reply old
      (match outcome.multicast with
      | some record => (executePeer old record).1
      | none => old)) :
    ServeEffect pId req outcome.reply s (s.commit i outcome) where
  control := by
    rw [Replicas.commit_control hview]
    exact hreach
  node := by
    intro j node' hnode'
    rw [Replicas.commit_getElem?, Option.map_eq_some_iff] at hnode'
    obtain ⟨old, hold, rfl⟩ := hnode'
    refine ⟨old, hold, ?_⟩
    split
    · next hji =>
      subst hji
      obtain rfl : node = old := Option.some.inj (hnode.symm.trans hold)
      exact hself
    · exact hothers old

theorem commit_effect {pId : ℕ} {s : Replicas} {i : ℕ} {req : WriteRequest} {node : KVNode}
    {outcome : Outcome} (hnode : s.nodes[i]? = some node)
    (h : Handled req node (s.routed node req).1 outcome) :
    ServeEffect pId req outcome.reply s (s.commit i outcome) := by
  have hrouted := req.route_routed node.toNodeView (primaryResponse s.master).addr
  have hreach := reaches_routed hnode hrouted pId
  have hserving : outcome.node.toNodeView = (s.routed node req).1 →
      outcome.node.statusServ = node.statusServ :=
    fun hview ↦ (congrArg NodeView.statusServ hview).trans hrouted.statusServ
  cases h with
  | executed hup hview hmulticast hcode hcells =>
    refine .of_commit hnode hview hreach ?_ fun old ↦ ?_
    · refine .of_write (hserving hview) (fun _ ↦ hcells) fun hdown ↦ ?_
      rw [hup] at hdown
      cases hdown
    · rw [hmulticast]
      exact executePeer_effect req _ old
  | refused hview hmulticast hcode hcells =>
    refine .of_commit hnode hview hreach ?_ fun old ↦ ?_
    · refine .of_cells_eq (fun hup ↦ ?_) hcells hcode
      rw [← hup]
      exact (hserving hview).symm
    · rw [hmulticast]
      exact .of_cells_eq id rfl hcode

theorem unreachable_ne_ok : unreachable.status.code ≠ .ok := by decide

theorem unchanged_effect (pId : ℕ) (req : WriteRequest) (s : Replicas) :
    ServeEffect pId req unreachable s s where
  control := Reaches.refl
  node := fun _ node' hnode' ↦ ⟨node', hnode', .of_cells_eq id rfl unreachable_ne_ok⟩

theorem adopt_effect (pId : ℕ) {s : Replicas} {i : ℕ} {node : KVNode} (req : WriteRequest)
    (hnode : s.nodes[i]? = some node) {reply : Reply} {u : Replicas}
    (h : ServeEffect pId req reply (s.adopt i node req) u) : ServeEffect pId req reply s u := by
  have hrouted := req.route_routed node.toNodeView (primaryResponse s.master).addr
  refine ServeEffect.trans ?_ ?_ h
  · rw [Replicas.adopt, Replicas.modify_control]
    exact reaches_routed hnode hrouted pId
  · intro j node' hnode'
    rw [Replicas.adopt, Replicas.modify_getElem?] at hnode'
    split at hnode'
    · next hij =>
      subst hij
      obtain ⟨old, hold, rfl⟩ := Option.map_eq_some_iff.mp hnode'
      obtain rfl : node = old := Option.some.inj (hnode.symm.trans hold)
      exact ⟨node, hold, hrouted.statusServ, rfl⟩
    · exact ⟨node', hnode', rfl, rfl⟩

theorem kill_effect (pId : ℕ) (req : WriteRequest) (s : Replicas) (i : ℕ) :
    ServeEffect pId req unreachable s (s.kill i) where
  control := by
    have hcontrol : (s.kill i).control = s.control.step pId (.shutdown i) :=
      Replicas.modify_control s i adminShutdown
    rw [hcontrol]
    exact Reaches.single trivial rfl
  node := by
    intro j node' hnode'
    have hget : (s.modify i adminShutdown).nodes[j]? = some node' := hnode'
    rw [Replicas.modify_getElem?] at hget
    split at hget
    · obtain ⟨old, hold, rfl⟩ := Option.map_eq_some_iff.mp hget
      exact ⟨old, hold, .of_cells_eq (fun hup ↦ nomatch hup) rfl unreachable_ne_ok⟩
    · exact ⟨node', hget, .of_cells_eq id rfl unreachable_ne_ok⟩

/-- What serving a request does, by induction on the hops. -/
theorem serve_effect (pId : ℕ) {fuel : ℕ} {s : Replicas} {i : ℕ} {req : WriteRequest}
    {r : Replicas × Reply} (h : s.serve fuel i req = some r) :
    ServeEffect pId req r.2 s r.1 := by
  induction fuel generalizing s i with
  | zero => cases h
  | succ fuel ih =>
    cases served_of_serve h with
    | lost => exact unchanged_effect pId req s
    | forwarded node peer j _ hnode _ _ hrest => exact adopt_effect pId req hnode (ih hrest)
    | stuck node hnode => exact adopt_effect pId req hnode (unchanged_effect pId req _)
    | done node outcome hnode hhandled => exact commit_effect hnode hhandled
    | aborted node hnode => exact kill_effect pId req s i

/-! ## Every request is answered -/

theorem serve_none {fuel : ℕ} {s : Replicas} {i : ℕ} {req : WriteRequest}
    (h : s.serve (fuel + 1) i req = none) :
    ∃ node peer j, s.nodes[i]? = some node ∧ (s.routed node req).2 = .forward peer ∧
      s.target (s.routed node req).1 = some j ∧ (s.adopt i node req).serve fuel j req = none := by
  unfold Replicas.serve at h
  split at h
  · cases h
  · next node hnode =>
    split at h
    · cases h
    · dsimp only at h
      split at h
      · next view peer hroute =>
        have hview : (s.routed node req).1 = view := congrArg Prod.fst hroute
        split at h
        · next j htarget =>
          rw [← hview] at h htarget
          exact ⟨node, peer, j, hnode, congrArg Prod.snd hroute, htarget, h⟩
        · cases h
      · split at h
        · cases h
        · cases h

theorem Replicas.target_eq (s : Replicas) (view : NodeView) :
    s.target view =
      (peerAddr? view).bind fun addr ↦ s.control.nodes.findIdx? (·.addr = addr) := by
  simp only [Replicas.target, Replicas.control, List.findIdx?_map, Function.comp_def]

theorem Routed.of_forward {addr : Bytes} {view : NodeView} {routed : NodeView × Route}
    (h : Routed addr view routed) {peer : ℤ} (hroute : routed.2 = .forward peer) :
    view.statusServ = true ∧ routed.1 = refreshView addr view ∧
      routed.1.primaryIdx ≠ ukStatus ∧ routed.1.primaryIdx ≠ mStatus := by
  cases h with
  | rejected => cases hroute
  | unknown => cases hroute
  | forward hserving hknown hother => exact ⟨hserving, rfl, hknown, hother⟩
  | primary => cases hroute

/-- The primary does not forward. -/
theorem serve_at_primary {s : Replicas} {i : ℕ} {node : KVNode} (hnode : s.nodes[i]? = some node)
    (hself : node.primaryIdx = mStatus) (fuel : ℕ) (req : WriteRequest) :
    s.serve (fuel + 1) i req ≠ none := by
  intro h
  obtain ⟨node', peer, -, hnode', hroute, -, -⟩ := serve_none h
  obtain rfl : node = node' := Option.some.inj (hnode.symm.trans hnode')
  have hrouted := req.route_routed node.toNodeView (primaryResponse s.master).addr
  obtain ⟨-, hview, -, hother⟩ := hrouted.of_forward hroute
  have hknown : node.toNodeView.primaryIdx ≠ ukStatus := by
    rw [hself]
    decide
  rw [hview, refreshView_eq, if_neg hknown] at hother
  exact hother hself

theorem Replicas.modify_id {s : Replicas} {i : ℕ} {f : NodeView → NodeView}
    (h : ∀ node, s.nodes[i]? = some node → f node.toNodeView = node.toNodeView) :
    s.modify i f = s := by
  have hnodes : (s.modify i f).nodes = s.nodes := by
    apply List.ext_getElem?
    intro j
    rw [Replicas.modify_getElem?]
    split
    · next hij =>
      cases hj : s.nodes[j]? with
      | none => rfl
      | some node => rw [Option.map_some, h node (hij ▸ hj)]
    · rfl
  calc
    s.modify i f = ⟨s.master, (s.modify i f).nodes, s.dead⟩ := rfl
    _ = s := by rw [hnodes]

section Progress

variable {addrs : List Bytes} {s : Replicas} {rank : ℕ → ℕ} {last : ℕ}

/-- The nodes that come after node `i` in the order of the views. -/
def above (s : Replicas) (rank : ℕ → ℕ) (i : ℕ) : Finset ℕ :=
  (Finset.range s.nodes.length).filter fun j ↦
    2 * rank i + (believesSelf s.control i).toNat < 2 * rank j + (believesSelf s.control j).toNat

theorem above_card_lt {i j : ℕ} (hj : j < s.nodes.length)
    (h : 2 * rank i + (believesSelf s.control i).toNat <
      2 * rank j + (believesSelf s.control j).toNat) :
    (above s rank j).card < (above s rank i).card := by
  apply Finset.card_lt_card
  apply Finset.ssubset_iff_subset_ne.mpr
  constructor
  · intro k hk
    obtain ⟨hlt, hjk⟩ := Finset.mem_filter.mp hk
    exact Finset.mem_filter.mpr ⟨hlt, h.trans hjk⟩
  · intro heq
    have hmem : j ∈ above s rank j := by
      rw [heq]
      exact Finset.mem_filter.mpr ⟨Finset.mem_range.mpr hj, h⟩
    exact lt_irrefl _ (Finset.mem_filter.mp hmem).2

/-- The node a request is forwarded to carries the address it was forwarded to. -/
theorem target_addr (hp : Configured addrs s.control) {view : NodeView} {addr : Bytes} {j : ℕ}
    (hpeer : peerAddr? view = some addr) (h : s.target view = some j) :
    addrs[j]? = some addr ∧ j < s.nodes.length := by
  rw [Replicas.target_eq, hpeer, Option.bind_some] at h
  obtain ⟨hj, hfound, -⟩ := List.findIdx?_eq_some_iff_getElem.mp h
  have hnode := (hp.node j _ (List.getElem?_eq_getElem hj)).1
  rw [of_decide_eq_true hfound] at hnode
  refine ⟨hnode, ?_⟩
  simpa only [Replicas.control, List.length_map] using hj

/-- A request that finds no primary at node `i` asks the coordinator and is forwarded to the
recorded primary. -/
theorem serve_after_refresh (hdistinct : addrs.Nodup) (hnamed : [] ∉ addrs)
    (hp : Configured addrs s.control) (h : Ranked addrs rank last s.control) {i j : ℕ}
    {node : KVNode} {req : WriteRequest} {peer : ℤ} (hnode : s.nodes[i]? = some node)
    (hunknown : node.primaryIdx = ukStatus) (hroute : (s.routed node req).2 = .forward peer)
    (htarget : s.target (s.routed node req).1 = some j) (fuel : ℕ) :
    j ∈ above s rank i ∧ (s.adopt i node req).serve (fuel + 1) j req ≠ none := by
  have hrouted := req.route_routed node.toNodeView (primaryResponse s.master).addr
  obtain ⟨-, hview, hknown, -⟩ := hrouted.of_forward hroute
  have hisNode : IsNode addrs i node.toNodeView := by
    apply hp.node i
    rw [Replicas.control_getElem?, hnode, Option.map_some]
  have hrenewed : (s.routed node req).1 =
      renewIdxForPm node.toNodeView (primaryResponse s.master).addr := by
    rw [Replicas.routed, hview, refreshView_eq, if_pos hunknown]
  rcases primaryResponse_addr hp with ⟨-, hnone⟩ | ⟨k, hk, haddr⟩
  · have hself : [] ≠ node.toNodeView.addr := by
      intro heq
      exact hnamed (heq ▸ List.mem_of_getElem? hisNode.1)
    have hpeer : [] ∉ node.toNodeView.peerAddrs := by
      rw [hisNode.2]
      exact fun hmem ↦ hnamed (List.mem_of_mem_eraseIdx hmem)
    have haddr : (primaryResponse s.master).addr = [] := hnone
    refine absurd ?_ hknown
    have hroutedView : (req.route node.toNodeView (some (primaryResponse s.master).addr)).1 = _ :=
      hrenewed
    rw [hroutedView, haddr]
    exact renewIdxForPm_unknown hself hpeer
  · obtain ⟨hrank, primary, hprimary, hself⟩ := h.recorded k hk
    have hne : i ≠ k := by
      rintro rfl
      rw [Replicas.control_getElem?, hnode, Option.map_some, Option.some.injEq] at hprimary
      rw [← hprimary, hunknown] at hself
      exact absurd hself (by decide)
    have hpoints := renewIdxForPm_pointsTo hdistinct hisNode haddr hne
    rw [hrenewed] at htarget
    obtain ⟨hj, hjlt⟩ := target_addr hp hpoints.2 htarget
    obtain rfl : j = k := eq_of_same_addr hdistinct hj haddr
    have hi : believesSelf s.control i = false := by
      have hother : node.primaryIdx ≠ mStatus := by
        rw [hunknown]
        decide
      simpa [believesSelf, Replicas.control_getElem?, hnode] using hother
    have hj' : believesSelf s.control j = true := by
      simpa [believesSelf, hprimary] using hself
    constructor
    · refine Finset.mem_filter.mpr ⟨Finset.mem_range.mpr hjlt, ?_⟩
      have hbound := h.bound i
      rw [hi, hj', hrank, Bool.toNat_false, Bool.toNat_true]
      omega
    · rw [Replicas.control_getElem?] at hprimary
      obtain ⟨old, hold, rfl⟩ := Option.map_eq_some_iff.mp hprimary
      have hkept : (s.adopt i node req).nodes[j]? = some old := by
        rw [Replicas.adopt, Replicas.modify_getElem?, if_neg hne, hold]
      exact serve_at_primary hkept hself fuel req

/-- With a hop for every node above the present one a request gets its reply. -/
theorem serve_ne_none (hdistinct : addrs.Nodup) (hnamed : [] ∉ addrs)
    (hp : Configured addrs s.control) (h : Ranked addrs rank last s.control) (req : WriteRequest)
    {fuel i : ℕ} (hfuel : (above s rank i).card < fuel) : s.serve fuel i req ≠ none := by
  induction fuel generalizing i with
  | zero => omega
  | succ fuel ih =>
    intro hnone
    obtain ⟨node, peer, j, hnode, hroute, htarget, hrest⟩ := serve_none hnone
    by_cases hunknown : node.primaryIdx = ukStatus
    · have hafter := serve_after_refresh hdistinct hnamed hp h hnode hunknown hroute htarget
      have hpos : 0 < (above s rank i).card := Finset.card_pos.mpr ⟨j, (hafter 0).1⟩
      cases fuel with
      | zero => omega
      | succ fuel => exact (hafter fuel).2 hrest
    · have hrouted := req.route_routed node.toNodeView (primaryResponse s.master).addr
      obtain ⟨hserving, hview, -, hother⟩ := hrouted.of_forward hroute
      rw [refreshView_eq, if_neg hunknown] at hview
      have hsame : (s.routed node req).1 = node.toNodeView := hview
      have hadopt : s.adopt i node req = s := by
        apply Replicas.modify_id
        intro old hold
        obtain rfl : node = old := Option.some.inj (hnode.symm.trans hold)
        exact hsame
      have hhop : nextHop s.control i = some j := by
        rw [hview] at hother
        rw [hsame, Replicas.target_eq] at htarget
        rw [nextHop, Replicas.control_getElem?, hnode, Option.map_some, Option.bind_some,
          forwardAddr, if_pos ⟨hserving, hunknown, hother⟩]
        exact htarget
      have hlt := nextHop_lt hp h hhop
      have hj : j < s.nodes.length := by
        obtain ⟨-, addr, -, -, hj⟩ := nextHop_eq_some hp hhop
        have hlength : s.nodes.length = addrs.length := by
          simpa only [Replicas.control, List.length_map] using hp.length_eq
        rw [hlength]
        exact (List.getElem?_eq_some_iff.mp hj).1
      have hcard := above_card_lt hj hlt
      rw [hadopt] at hrest
      exact ih (by omega) hrest

/-- A request is answered within one hop for every node and one more. -/
theorem serve_isSome (hdistinct : addrs.Nodup) (hnamed : [] ∉ addrs)
    (h : ForwardInv addrs s.control) (i : ℕ) (req : WriteRequest) :
    (s.serve (s.nodes.length + 1) i req).isSome := by
  obtain ⟨rank, last, hranked⟩ := h.ranked
  rw [Option.isSome_iff_ne_none]
  apply serve_ne_none hdistinct hnamed h.toConfigured hranked
  calc
    (above s rank i).card ≤ (Finset.range s.nodes.length).card :=
      Finset.card_le_card (Finset.filter_subset _ _)
    _ = s.nodes.length := Finset.card_range _
    _ < s.nodes.length + 1 := Nat.lt_succ_self _

end Progress

end PennCloud.Replication.Serving
