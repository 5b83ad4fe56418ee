import PennCloud.Coordinator.Election
import PennCloud.KV.PrimaryView
import PennCloud.Library.Runs
import Mathlib.Data.List.Nodup

/-!
# The coordinator and the nodes' views

Who believes whom to be the primary. The state is what the coordinator records of every
partition together with the view of every node. It changes in rounds (a health check of all
nodes, the election, and the delivery of `PrimaryUpdate`, which a shut-down node rejects), by the
admin commands, and when a node without a primary asks the coordinator for one. Partitions do
not interact: every run of the cluster is, at each partition, a run of that partition alone.
-/

open PennCloud.KV.TabletCells PennCloud.KV.PrimaryView PennCloud.Coordinator.Election
open PennCloud.Library.Runs

namespace PennCloud.Coordinator.Views

/-! ## The coordinator's answer to a node -/

structure GetPrimaryResponse where
  addr : Bytes := []
  nodes : List MasterNodeView := []

/-- The answer for one partition: the nodes are listed only where there is a primary. -/
def primaryResponse (partition : MasterPartitionView) : GetPrimaryResponse :=
  if partition.primaryIdx ≠ -1 then
    { addr := (partition.nodes[partition.primaryIdx.toNat]?.map MasterNodeView.addr).getD []
      nodes := partition.nodes }
  else
    { addr := [] }

def getPartitionPrimary (partitions : List MasterPartitionView) (pId : ℕ) :
    Status × GetPrimaryResponse :=
  match partitions[pId]? with
  | some partition => ({ code := .ok }, primaryResponse partition)
  | none => ({ code := .invalidArgument, message := "Out of bound partition nodes!\n" }, {})

/-! ## Nodes -/

/-- `HealthCheck` at node `j` succeeds. -/
def serving (nodes : List NodeView) (j : ℕ) : Bool :=
  match nodes[j]? with
  | some view => (healthCheck view).code = .ok
  | none => false

/-- One `PrimaryUpdate` reaches its node. -/
def deliver (nodes : List NodeView) (call : PrimaryCall) : List NodeView :=
  nodes.modify call.node fun view ↦ (primaryUpdate view call.addr).1

/-- `recover_partition` with an answer of the coordinator. -/
def refreshView (addr : Bytes) (view : NodeView) : NodeView :=
  match recoverPartition view (some addr) with
  | some (view, _) => view
  | none => view

/-- A storage node starts serving without a primary; its peers are the other nodes of its
partition. -/
def startNodes (addrs : List Bytes) : List NodeView :=
  addrs.mapIdx fun i addr ↦ { addr := addr, peerAddrs := addrs.eraseIdx i }

/-! ## One partition -/

structure Partition where
  master : MasterPartitionView
  nodes : List NodeView

def startPartition (addrs : List Bytes) : Partition where
  master := initialPartition addrs
  nodes := startNodes addrs

inductive Event
  | round (garbage : Bool)
  | shutdown (node : ℕ)
  | startup (node : ℕ)
  | refresh (node : ℕ)

def Partition.round (pId : ℕ) (p : Partition) (garbage : Bool) : Partition :=
  let renewed := renewPartition pId (checkNodes p.master (serving p.nodes)) garbage
  { master := renewed.1, nodes := renewed.2.foldl deliver p.nodes }

def Partition.modify (p : Partition) (i : ℕ) (f : NodeView → NodeView) : Partition :=
  { p with nodes := p.nodes.modify i f }

def Partition.step (pId : ℕ) (p : Partition) : Event → Partition
  | .round garbage => p.round pId garbage
  | .shutdown i => p.modify i adminShutdown
  | .startup i => p.modify i adminStartup
  | .refresh i => p.modify i (refreshView (primaryResponse p.master).addr)

def partitionMachine (pId : ℕ) : Machine Partition Event where
  step p e := some (p.step pId e)

/-! ## The whole cluster -/

/-- A configuration whose addresses each name one node. -/
structure ClusterConfig extends Config where
  distinct : ∀ addrs ∈ partitions, addrs.Nodup
  named : ∀ addrs ∈ partitions, [] ∉ addrs

structure Cluster where
  masters : List MasterPartitionView
  nodes : List (List NodeView)

def start (config : ClusterConfig) : Cluster where
  masters := initial config.toConfig
  nodes := config.partitions.map startNodes

inductive ClusterEvent
  | round (garbage : ℕ → Bool)
  | shutdown (pId node : ℕ)
  | startup (pId node : ℕ)
  | refresh (pId node : ℕ)

def Cluster.modify (c : Cluster) (pId i : ℕ) (f : NodeView → NodeView) : Cluster :=
  { c with nodes := c.nodes.modify pId fun nodes ↦ nodes.modify i f }

/-- What the health checks of a round find. -/
def Cluster.healthy (c : Cluster) (pId j : ℕ) : Bool :=
  match c.nodes[pId]? with
  | some nodes => serving nodes j
  | none => false

/-- A `PrimaryUpdate` reaches its node in its partition. -/
def deliverAt (nodes : List (List NodeView)) (call : PrimaryCall) : List (List NodeView) :=
  nodes.modify call.partition fun nodes ↦ deliver nodes call

/-- A round with all its deliveries. -/
def Cluster.round (c : Cluster) (garbage : ℕ → Bool) : Cluster :=
  let checked := doHealthcheck c.masters { healthy := c.healthy, garbage := garbage }
  { masters := checked.1, nodes := checked.2.foldl deliverAt c.nodes }

def Cluster.step (c : Cluster) : ClusterEvent → Cluster
  | .round garbage => c.round garbage
  | .shutdown pId i => c.modify pId i adminShutdown
  | .startup pId i => c.modify pId i adminStartup
  | .refresh pId i =>
    c.modify pId i (refreshView (getPartitionPrimary c.masters pId).2.addr)

def clusterMachine : Machine Cluster ClusterEvent where
  step c e := some (c.step e)

/-- The cluster holds this partition under the index `pId`. -/
def Cluster.Holds (c : Cluster) (pId : ℕ) (p : Partition) : Prop :=
  c.masters[pId]? = some p.master ∧ c.nodes[pId]? = some p.nodes

/-! ## A run of the cluster is a run of each partition -/

theorem deliverAt_getElem? (calls : List PrimaryCall) (nodes : List (List NodeView)) (pId : ℕ) :
    (calls.foldl deliverAt nodes)[pId]? =
      nodes[pId]?.map fun here ↦ (calls.filter fun call ↦ call.partition = pId).foldl deliver here := by
  induction calls generalizing nodes with
  | nil => simp
  | cons call calls ih =>
    rw [List.foldl_cons, ih, deliverAt, List.getElem?_modify, List.filter_cons]
    by_cases hcall : call.partition = pId
    · simp only [hcall, if_true, decide_true, Option.map_eq_map, Option.map_map,
        Function.comp_def, List.foldl_cons]
    · simp only [hcall, if_false, decide_false, Option.map_eq_map, Option.map_id_fun',
        Bool.false_eq_true, id]

/-- A round of the cluster is a round of every partition. -/
theorem Cluster.round_holds {c : Cluster} {pId : ℕ} {p : Partition} (h : c.Holds pId p)
    (garbage : ℕ → Bool) : (c.round garbage).Holds pId (p.round pId (garbage pId)) := by
  obtain ⟨hmaster, hnodes⟩ := h
  have hhealthy : c.healthy pId = serving p.nodes := by
    funext j
    simp only [Cluster.healthy, hnodes]
  have hround : roundPartition { healthy := c.healthy, garbage := garbage } pId p.master =
      renewPartition pId (checkNodes p.master (serving p.nodes)) (garbage pId) := by
    simp only [roundPartition, hhealthy]
  constructor
  · simp only [Cluster.round, doHealthcheck_getElem?, hmaster, Option.map_some, hround,
      Partition.round]
  · simp only [Cluster.round, deliverAt_getElem?, hnodes, Option.map_some,
      doHealthcheck_calls _ hmaster, hround, Partition.round]

theorem Cluster.modify_holds {c : Cluster} {pId : ℕ} {p : Partition} (h : c.Holds pId p) (i : ℕ)
    (f : NodeView → NodeView) : (c.modify pId i f).Holds pId (p.modify i f) := by
  refine ⟨h.1, ?_⟩
  simp only [Cluster.modify, List.getElem?_modify, if_true, h.2, Option.map_eq_map,
    Option.map_some, Partition.modify]

theorem Cluster.modify_holds_of_ne {c : Cluster} {pId k : ℕ} {p : Partition} (h : c.Holds pId p)
    (hk : k ≠ pId) (i : ℕ) (f : NodeView → NodeView) : (c.modify k i f).Holds pId p := by
  refine ⟨h.1, ?_⟩
  simp only [Cluster.modify, List.getElem?_modify, hk, if_false, h.2, Option.map_eq_map,
    Option.map_some]

/-- The event of a partition within an event of the cluster. -/
def ClusterEvent.at (pId : ℕ) : ClusterEvent → Option Event
  | .round garbage => some (.round (garbage pId))
  | .shutdown k i => if k = pId then some (.shutdown i) else none
  | .startup k i => if k = pId then some (.startup i) else none
  | .refresh k i => if k = pId then some (.refresh i) else none

/-- Each step of the cluster is, at every partition, a step of the partition or none. -/
theorem Cluster.step_holds {c : Cluster} {pId : ℕ} {p : Partition} (h : c.Holds pId p)
    (e : ClusterEvent) : (c.step e).Holds pId ((e.at pId).elim p (p.step pId)) := by
  cases e with
  | round garbage => exact c.round_holds h garbage
  | shutdown k i =>
    by_cases hk : k = pId
    · rw [ClusterEvent.at, if_pos hk, hk]
      exact c.modify_holds h i _
    · rw [ClusterEvent.at, if_neg hk]
      exact c.modify_holds_of_ne h hk i _
  | startup k i =>
    by_cases hk : k = pId
    · rw [ClusterEvent.at, if_pos hk, hk]
      exact c.modify_holds h i _
    · rw [ClusterEvent.at, if_neg hk]
      exact c.modify_holds_of_ne h hk i _
  | refresh k i =>
    by_cases hk : k = pId
    · have hanswer : getPartitionPrimary c.masters pId = ({ code := .ok }, primaryResponse p.master) := by
        simp only [getPartitionPrimary, h.1]
      have hmodify := c.modify_holds h i (refreshView (primaryResponse p.master).addr)
      rw [ClusterEvent.at, if_pos hk, hk, Cluster.step, hanswer]
      exact hmodify
    · rw [ClusterEvent.at, if_neg hk]
      exact c.modify_holds_of_ne h hk i _

theorem start_holds {config : ClusterConfig} {pId : ℕ} {addrs : List Bytes}
    (h : config.partitions[pId]? = some addrs) :
    (start config).Holds pId (startPartition addrs) := by
  constructor
  · simp only [start, initial, List.getElem?_map, h, Option.map_some, startPartition]
  · simp only [start, List.getElem?_map, h, Option.map_some, startPartition]

theorem Cluster.Holds.unique {c : Cluster} {pId : ℕ} {p q : Partition} (hp : c.Holds pId p)
    (hq : c.Holds pId q) : p = q := by
  have hmaster : p.master = q.master := Option.some.inj (hp.1.symm.trans hq.1)
  have hnodes : p.nodes = q.nodes := Option.some.inj (hp.2.symm.trans hq.2)
  calc
    p = ⟨p.master, p.nodes⟩ := rfl
    _ = ⟨q.master, q.nodes⟩ := by rw [hmaster, hnodes]

/-- A condition on the steps of a partition, required at every partition. -/
def everywhere (ok : Partition → Event → Prop) (c : Cluster) (e : ClusterEvent) : Prop :=
  ∀ pId p, c.Holds pId p → ∀ here, e.at pId = some here → ok p here

theorem reaches_partition {ok : Partition → Event → Prop} {config : ClusterConfig} {c : Cluster}
    (h : Reaches clusterMachine (everywhere ok) (start config) c)
    (pId : Fin config.partitions.length) :
    ∃ p, c.Holds pId p ∧
      Reaches (partitionMachine pId) ok (startPartition (config.partitions.get pId)) p := by
  have hstart : (start config).Holds pId (startPartition (config.partitions.get pId)) :=
    start_holds (List.getElem?_eq_getElem pId.isLt)
  refine h.simulate (fun c p ↦ c.Holds pId p) hstart ?_
  rintro a e b p hholds hok hstep
  cases hstep
  have hnext := a.step_holds hholds e
  cases he : e.at pId with
  | none =>
    rw [he] at hnext
    exact ⟨p, hnext, .inl rfl⟩
  | some here =>
    rw [he] at hnext
    exact ⟨p.step pId here, hnext, .inr ⟨here, hok pId p hholds here he, rfl⟩⟩

/-! ## What the steps do to a node -/

/-- The node at this position of the partition, with its own address and its peers. -/
def IsNode (addrs : List Bytes) (i : ℕ) (view : NodeView) : Prop :=
  addrs[i]? = some view.addr ∧ view.peerAddrs = addrs.eraseIdx i

/-- The view names a peer of this address as the primary. -/
def PointsTo (view : NodeView) (addr : Bytes) : Prop :=
  0 ≤ view.primaryIdx ∧ peerAddr? view = some addr

theorem renewIdxForPm_isNode {addrs : List Bytes} {i : ℕ} {view : NodeView}
    (h : IsNode addrs i view) (addr : Bytes) : IsNode addrs i (renewIdxForPm view addr) := by
  unfold IsNode
  rw [renewIdxForPm_addr, renewIdxForPm_peerAddrs]
  exact h

/-- A node that is told the address of another node points to it. -/
theorem renewIdxForPm_pointsTo {addrs : List Bytes} (hdistinct : addrs.Nodup) {i j : ℕ}
    {view : NodeView} (h : IsNode addrs i view) {addr : Bytes} (hj : addrs[j]? = some addr)
    (hne : i ≠ j) : PointsTo (renewIdxForPm view addr) addr := by
  have hself : addr ≠ view.addr := by
    intro heq
    have hij : addrs[i]? = addrs[j]? := by rw [h.1, hj, heq]
    have hi := (List.getElem?_eq_some_iff.mp h.1).1
    exact hne ((List.getElem?_inj hi hdistinct).mp hij)
  have hpeer : addr ∈ view.peerAddrs := by
    rw [h.2, List.mem_eraseIdx_iff_getElem?]
    exact ⟨j, fun heq ↦ hne heq.symm, hj⟩
  exact (renewIdxForPm_peerAddr hself hpeer).symm

theorem primaryUpdate_isNode {addrs : List Bytes} {i : ℕ} {view : NodeView}
    (h : IsNode addrs i view) (addr : Bytes) : IsNode addrs i (primaryUpdate view addr).1 := by
  unfold primaryUpdate
  split
  · exact renewIdxForPm_isNode h addr
  · exact h

theorem primaryUpdate_serving {view : NodeView} (h : view.statusServ = true) (addr : Bytes) :
    (primaryUpdate view addr).1 = renewIdxForPm view addr := by
  simp only [primaryUpdate, h, if_true]

theorem primaryUpdate_down {view : NodeView} (h : view.statusServ = false) (addr : Bytes) :
    (primaryUpdate view addr).1 = view := by
  simp only [primaryUpdate, h, Bool.false_eq_true, if_false]

@[simp]
theorem primaryUpdate_statusServ (view : NodeView) (addr : Bytes) :
    (primaryUpdate view addr).1.statusServ = view.statusServ := by
  unfold primaryUpdate
  split
  · exact renewIdxForPm_statusServ view addr
  · rfl

/-- A node that knows its primary does not ask, the others take over the answer. -/
theorem refreshView_eq (addr : Bytes) (view : NodeView) :
    refreshView addr view =
      if view.primaryIdx = ukStatus then renewIdxForPm view addr else view := by
  unfold refreshView recoverPartition
  split
  · next h =>
    split at h
    · next hu =>
      rw [if_pos hu]
      cases h
      rfl
    · next hu =>
      rw [if_neg hu]
      cases h
      rfl
  · next h =>
    split at h
    · cases h
    · cases h

theorem refreshView_isNode {addrs : List Bytes} {i : ℕ} {view : NodeView}
    (h : IsNode addrs i view) (addr : Bytes) : IsNode addrs i (refreshView addr view) := by
  rw [refreshView_eq]
  split
  · exact renewIdxForPm_isNode h addr
  · exact h

@[simp]
theorem refreshView_statusServ (addr : Bytes) (view : NodeView) :
    (refreshView addr view).statusServ = view.statusServ := by
  rw [refreshView_eq]
  split
  · exact renewIdxForPm_statusServ view addr
  · rfl

theorem serving_eq_true_iff {nodes : List NodeView} {i : ℕ} {view : NodeView}
    (h : nodes[i]? = some view) : serving nodes i = true ↔ view.statusServ = true := by
  simp only [serving, h, healthCheck]
  split
  · next hserv => simp [hserv]
  · next hserv => simp [hserv]

/-! ## What a round does to a partition -/

/-- A partition whose parts agree with the configuration. -/
structure Configured (addrs : List Bytes) (p : Partition) : Prop where
  master : WellFormed addrs p.master
  length_eq : p.nodes.length = addrs.length
  node : ∀ i view, p.nodes[i]? = some view → IsNode addrs i view

theorem startPartition_configured (addrs : List Bytes) :
    Configured addrs (startPartition addrs) where
  master := initialPartition_wellFormed addrs
  length_eq := by simp [startPartition, startNodes]
  node := by
    intro i view hview
    simp only [startPartition, startNodes, List.getElem?_mapIdx, Option.map_eq_some_iff] at hview
    obtain ⟨addr, haddr, rfl⟩ := hview
    exact ⟨haddr, rfl⟩

/-- An announcement reaches all nodes it is sent to. -/
theorem foldl_deliver_getElem? {α : Type*} (targets : List α) (pId : ℕ) (addr : Bytes)
    (nodes : List NodeView) (i : ℕ) :
    ((targets.mapIdx fun j _ ↦ PrimaryCall.mk pId j addr).foldl deliver nodes)[i]? =
      if i < targets.length then nodes[i]?.map fun view ↦ (primaryUpdate view addr).1
      else nodes[i]? := by
  induction targets using List.reverseRecOn with
  | nil => simp
  | append_singleton targets last ih =>
    rw [List.mapIdx_concat, List.foldl_append, List.foldl_cons, List.foldl_nil, deliver,
      List.getElem?_modify, ih, List.length_append, List.length_singleton]
    rcases lt_trichotomy i targets.length with hlt | heq | hgt
    · have hne : targets.length ≠ i := by omega
      rw [if_pos hlt, if_pos (by omega)]
      simp [hne]
    · rw [if_neg (by omega), if_pos (by omega)]
      simp [heq]
    · have hne : targets.length ≠ i := by omega
      rw [if_neg (by omega), if_neg (by omega)]
      simp [hne]

/-- The three outcomes of a round. -/
theorem Partition.round_cases {addrs : List Bytes} {p : Partition} (h : Configured addrs p)
    (pId : ℕ) (garbage : Bool) :
    (PrimaryStays p.master (serving p.nodes) ∧
      (p.round pId garbage).master.primaryIdx = p.master.primaryIdx ∧
      (p.round pId garbage).nodes = p.nodes) ∨
    ((∀ i, serving p.nodes i = false) ∧ (p.round pId garbage).master.primaryIdx = -1 ∧
      (p.round pId garbage).nodes = p.nodes) ∨
    (¬PrimaryStays p.master (serving p.nodes) ∧ ∃ (ii : ℕ) (addr : Bytes),
      addrs[ii]? = some addr ∧ serving p.nodes ii = true ∧
      (p.round pId garbage).master.primaryIdx = ii ∧
      ∀ i : ℕ, (p.round pId garbage).nodes[i]? =
        p.nodes[i]?.map fun view ↦ (primaryUpdate view addr).1) := by
  have hlength : p.master.nodes.length = p.nodes.length := by
    rw [h.master.length_eq, h.length_eq]
  have hstays := primaryAlive_checkNodes_iff h.master.valid (serving p.nodes)
  unfold Partition.round
  rcases renewPartition_cases pId (checkNodes_validIdx (serving p.nodes) h.master.valid) garbage
    with ⟨hprimary, heq⟩ | ⟨-, hdead, heq⟩ | ⟨hgone, ii, primary, hfirst, heq⟩
  · rw [heq]
    exact .inl ⟨hstays.mp hprimary, rfl, rfl⟩
  · rw [heq]
    refine .inr (.inl ⟨fun i ↦ ?_, rfl, rfl⟩)
    rcases lt_or_ge i p.nodes.length with hlt | hge
    · obtain ⟨node, hnode, hflag, -⟩ := checkNodes_node (serving p.nodes) (hlength ▸ hlt)
      rw [← hflag]
      exact hdead node (List.mem_of_getElem? hnode)
    · simp only [serving, List.getElem?_eq_none hge]
  · rw [heq]
    obtain ⟨hprimary, halive, -⟩ := hfirst
    have hii : ii < p.master.nodes.length := by
      simpa using (List.getElem?_eq_some_iff.mp hprimary).1
    obtain ⟨node, hnode, hflag, haddr⟩ := checkNodes_node (serving p.nodes) hii
    rw [hprimary, Option.some.injEq] at hnode
    subst hnode
    refine .inr (.inr ⟨mt hstays.mpr hgone, ii, primary.addr, ?_, by rw [← hflag, halive], rfl,
      fun i ↦ ?_⟩)
    · rw [← h.master.addrs_eq, List.getElem?_map]
      exact haddr
    · rw [foldl_deliver_getElem?, checkNodes_length, hlength]
      split
      · rfl
      · next hge =>
        rw [List.getElem?_eq_none (by omega), Option.map_none]

theorem foldl_deliver_statusServ (calls : List PrimaryCall) (nodes : List NodeView) (i : ℕ) :
    (calls.foldl deliver nodes)[i]?.map NodeView.statusServ =
      nodes[i]?.map NodeView.statusServ := by
  induction calls generalizing nodes with
  | nil => rfl
  | cons call calls ih =>
    rw [List.foldl_cons, ih, deliver, List.getElem?_modify]
    cases nodes[i]? with
    | none => rfl
    | some view =>
      simp only [Option.map_eq_map, Option.map_some, Option.some.injEq]
      split
      · exact primaryUpdate_statusServ view call.addr
      · rfl

/-- A round starts and stops no node. -/
theorem Partition.round_statusServ (p : Partition) (pId : ℕ) (garbage : Bool) (i : ℕ) :
    (p.round pId garbage).nodes[i]?.map NodeView.statusServ =
      p.nodes[i]?.map NodeView.statusServ :=
  foldl_deliver_statusServ _ _ _

theorem Partition.modify_getElem? (p : Partition) (i j : ℕ) (f : NodeView → NodeView) :
    (p.modify i f).nodes[j]? = if i = j then p.nodes[j]?.map f else p.nodes[j]? := by
  simp only [Partition.modify, List.getElem?_modify]
  split
  · rfl
  · simp

/-- Only the view at the position matters. -/
theorem Partition.modify_congr {p : Partition} {i : ℕ} {f g : NodeView → NodeView}
    (h : ∀ view, p.nodes[i]? = some view → f view = g view) : p.modify i f = p.modify i g := by
  have hnodes : p.nodes.modify i f = p.nodes.modify i g := by
    apply List.ext_getElem?
    intro j
    rw [List.getElem?_modify, List.getElem?_modify]
    cases hj : p.nodes[j]? with
    | none => rfl
    | some view =>
      by_cases hij : i = j
      · simp only [hij, if_true, Option.map_eq_map, Option.map_some, h view (hij ▸ hj)]
      · simp only [hij, if_false]
  simp only [Partition.modify, hnodes]

theorem Partition.modify_id {p : Partition} {i : ℕ} {f : NodeView → NodeView}
    (h : ∀ view, p.nodes[i]? = some view → f view = view) : p.modify i f = p := by
  have hid : p.modify i f = p.modify i id := Partition.modify_congr h
  rw [hid, Partition.modify, List.modify_id]

theorem Partition.modify_configured {addrs : List Bytes} {p : Partition} (h : Configured addrs p)
    {i : ℕ} {f : NodeView → NodeView} (hf : ∀ view, IsNode addrs i view → IsNode addrs i (f view)) :
    Configured addrs (p.modify i f) where
  master := h.master
  length_eq := by
    simp only [Partition.modify, List.length_modify]
    exact h.length_eq
  node := by
    intro j view hview
    rw [Partition.modify_getElem?] at hview
    split at hview
    · next hij =>
      obtain ⟨old, hold, rfl⟩ := Option.map_eq_some_iff.mp hview
      subst hij
      exact hf old (h.node i old hold)
    · exact h.node j view hview

theorem Partition.round_configured {addrs : List Bytes} {p : Partition} (h : Configured addrs p)
    (pId : ℕ) (garbage : Bool) : Configured addrs (p.round pId garbage) := by
  have hmaster : WellFormed addrs (p.round pId garbage).master :=
    roundPartition_wellFormed
      { healthy := fun _ ↦ serving p.nodes, garbage := fun _ ↦ garbage } pId h.master
  rcases p.round_cases h pId garbage with ⟨-, -, hnodes⟩ | ⟨-, -, hnodes⟩ |
    ⟨-, ii, addr, -, -, -, hnodes⟩
  · exact ⟨hmaster, by rw [hnodes, h.length_eq], by rw [hnodes]; exact h.node⟩
  · exact ⟨hmaster, by rw [hnodes, h.length_eq], by rw [hnodes]; exact h.node⟩
  · refine ⟨hmaster, ?_, ?_⟩
    · rw [← h.length_eq]
      have hall : (p.round pId garbage).nodes =
          p.nodes.map fun view ↦ (primaryUpdate view addr).1 := by
        apply List.ext_getElem?
        intro i
        rw [hnodes, List.getElem?_map]
      rw [hall, List.length_map]
    · intro i view hview
      rw [hnodes, Option.map_eq_some_iff] at hview
      obtain ⟨old, hold, rfl⟩ := hview
      exact primaryUpdate_isNode (h.node i old hold) addr

theorem Partition.step_configured {addrs : List Bytes} {p : Partition} (h : Configured addrs p)
    (pId : ℕ) (e : Event) : Configured addrs (p.step pId e) := by
  cases e with
  | round garbage => exact p.round_configured h pId garbage
  | shutdown i => exact p.modify_configured h fun view hview ↦ hview
  | startup i => exact p.modify_configured h fun view hview ↦ hview
  | refresh i => exact p.modify_configured h fun view hview ↦ refreshView_isNode hview _

theorem reaches_configured {ok : Partition → Event → Prop} {addrs : List Bytes} {pId : ℕ}
    {p : Partition} (h : Reaches (partitionMachine pId) ok (startPartition addrs) p) :
    Configured addrs p := by
  refine h.invariant (startPartition_configured addrs) ?_
  rintro q e r hq - hstep
  cases hstep
  exact q.step_configured hq pId e

/-- The address a node receives when it asks. -/
theorem primaryResponse_addr {addrs : List Bytes} {p : Partition} (h : Configured addrs p) :
    (p.master.primaryIdx = -1 ∧ (primaryResponse p.master).addr = []) ∨
    ∃ j : ℕ, p.master.primaryIdx = j ∧ addrs[j]? = some (primaryResponse p.master).addr := by
  rcases h.master.valid with hnone | ⟨hnonneg, hlt⟩
  · exact .inl ⟨hnone, by simp [primaryResponse, hnone]⟩
  · have hne : p.master.primaryIdx ≠ -1 := by omega
    refine .inr ⟨p.master.primaryIdx.toNat, by omega, ?_⟩
    simp only [← h.master.addrs_eq, primaryResponse, if_pos hne, List.getElem?_map,
      List.getElem?_eq_getElem hlt, Option.map_some, Option.getD_some]

end PennCloud.Coordinator.Views
