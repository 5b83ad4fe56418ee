import PennCloud.Cluster.OneMap
import PennCloud.Coordinator.ClientChannels
import PennCloud.KV.FlatStore
import PennCloud.Replication.Agreement

/-!
# Programs on an agreed cluster

The handlers of a frontend are written for one atomic map. As long as all nodes serve and each partition
agrees on its primary, which the first round of the coordinator brings about, the cluster is that map
for them: the first attempt of every call succeeds, at whatever node it arrives. It can arrive at the
nodes that the client's channel lists, and a partition of one node has none. What the
map does and the cluster does not is left to the program to avoid: a value under an empty key, a
comparison that fails, and one with a missing cell.
-/

open PennCloud.Library PennCloud.Library.Programs PennCloud.Library.CppString
open PennCloud.Library.WriteLog (write)
open PennCloud.KV.TabletCells PennCloud.KV.PrimaryView PennCloud.KV.Handlers
open PennCloud.KV.FlatStore (routeWrite_primary)
open PennCloud.Coordinator.Views PennCloud.Coordinator.Forwarding
open PennCloud.Coordinator.Configuration (Node comma)
open PennCloud.Coordinator.ClientChannels (Listed listed_iff)
open PennCloud.Replication PennCloud.Replication.Serving PennCloud.Replication.Agreement
open PennCloud.Frontend.KVClient (Thrown Store KVOp KVProg)
open PennCloud.Cluster.StorageClient PennCloud.Cluster.OneMap

namespace PennCloud.Cluster.AgreedCluster

/-! ## One partition -/

/-- Every process runs, and the views are those of an agreed partition. -/
structure Agreed (s : Replicas) : Prop where
  views : ∃ a : AgreedPartition, s.control = a.partition
  alive : s.dead = []

/-- The keys pass the test that `Put` and `CPut` make of them. -/
theorem route_of_accepts {req : WriteRequest} {m : Store} (h : Accepts m req) {view : NodeView}
    (hserving : view.statusServ = true) (pmAddr : Option Bytes) :
    (view.primaryIdx = mStatus → req.route view pmAddr = (view, .primary)) ∧
      (view.primaryIdx ≠ mStatus → view.primaryIdx ≠ ukStatus →
        req.route view pmAddr = (view, .forward view.primaryIdx)) := by
  have hroute : ∀ terminated checkKeys rk ck, (checkKeys && (rk.isEmpty || ck.isEmpty)) = false →
      (view.primaryIdx = mStatus →
        routeWrite terminated checkKeys view pmAddr rk ck = (view, .primary)) ∧
      (view.primaryIdx ≠ mStatus → view.primaryIdx ≠ ukStatus →
        routeWrite terminated checkKeys view pmAddr rk ck = (view, .forward view.primaryIdx)) := by
    intro terminated checkKeys rk ck hkeys
    constructor
    · intro hprimary
      rw [routeWrite_primary hprimary, if_pos hserving, hkeys]
      rfl
    · exact fun hother hknown ↦ (routeWrite_forward pmAddr hknown hkeys).mpr ⟨hserving, hother⟩
  have hkeys : ∀ rk ck : Bytes, rk ≠ [] → ck ≠ [] → (true && (rk.isEmpty || ck.isEmpty)) = false := by
    intro rk ck hrk hck
    simp [hrk, hck]
  cases req with
  | put prq => exact hroute _ _ _ _ (hkeys _ _ h.1 h.2)
  | cPut prq => exact hroute _ _ _ _ (hkeys _ _ h.1 h.2.1)
  | delete prq => exact hroute _ _ _ _ rfl

/-- The primary executes what it accepts. -/
theorem handle_primary {req : WriteRequest} {node : KVNode} (h : Accepts (cells node.tablet) req)
    (hserving : node.statusServ = true) (hprimary : node.primaryIdx = mStatus)
    (around : Surroundings) :
    ∃ outcome, req.handle node around = some outcome ∧ outcome.reply.status.code = .ok ∧
      outcome.node.toNodeView = node.toNodeView := by
  have hroute := (route_of_accepts h hserving around.pmAddr).1 hprimary
  cases req with
  | put prq =>
    have hput : putRoute node.toNodeView around.pmAddr prq.row prq.col = (node.toNodeView, .primary) :=
      hroute
    refine ⟨_, rfl, ?_⟩
    rw [KV.Handlers.put, hput]
    exact ⟨rfl, rfl⟩
  | delete prq =>
    have hdelete : deleteRoute node.toNodeView around.pmAddr prq.row prq.col =
        (node.toNodeView, .primary) := hroute
    refine ⟨_, rfl, ?_⟩
    rw [KV.Handlers.delete, hdelete]
    exact ⟨rfl, rfl⟩
  | cPut prq =>
    have hcput : cPutRoute node.toNodeView around.pmAddr prq.row prq.col =
        (node.toNodeView, .primary) := hroute
    have hcheck := cPutCheck_of_some h.2.2 prq.v1
    rw [if_pos rfl] at hcheck
    simp only [WriteRequest.handle, KV.Handlers.cPut, hcput, hcheck]
    exact ⟨_, rfl, rfl, rfl⟩

section Partition

variable {s : Replicas} {m : Store}

theorem Agreed.serving (h : Agreed s) {i : ℕ} {node : KVNode} (hnode : s.nodes[i]? = some node) :
    node.statusServ = true := by
  obtain ⟨a, ha⟩ := h.views
  apply a.serves node.toNodeView
  rw [← ha]
  exact List.mem_of_getElem? (by rw [Replicas.control_getElem?, hnode, Option.map_some])

/-- A write at the primary. -/
theorem serve_at_pm (h : Agreed s) (hm : Agrees s m) {k : ℕ} {node : KVNode}
    (hnode : s.nodes[k]? = some node) (hprimary : node.primaryIdx = mStatus) {req : WriteRequest}
    (haccepts : Accepts m req) (fuel : ℕ) :
    ∃ t reply, s.serve (fuel + 1) k req = some (t, reply) ∧ reply.status.code = .ok ∧
      t.control = s.control ∧ t.dead = s.dead := by
  have hserving := h.serving hnode
  have hcells := hm k node hnode hserving
  rw [← hcells] at haccepts
  obtain ⟨outcome, houtcome, hok, hview⟩ := handle_primary haccepts hserving hprimary
    { pmAddr := some (primaryResponse s.master).addr, peerReply := unreachable }
  have hroute := (route_of_accepts haccepts hserving (some (primaryResponse s.master).addr)).1 hprimary
  refine ⟨s.commit k outcome, outcome.reply, ?_, hok, ?_, rfl⟩
  · unfold Replicas.serve
    simp only [hnode, h.alive, List.not_mem_nil, if_false, hroute, houtcome]
  · rw [Replicas.commit_control hview]
    apply Partition.modify_id
    intro view hget
    rw [Replicas.control_getElem?, hnode, Option.map_some] at hget
    exact Option.some.inj hget

/-- A write at any node is executed at once or after one hop. -/
theorem Agreed.serve (h : Agreed s) (hm : Agrees s m) {i : ℕ} (hi : i < s.nodes.length)
    {req : WriteRequest} (haccepts : Accepts m req) :
    ∃ t reply, s.serve (s.nodes.length + 1) i req = some (t, reply) ∧ reply.status.code = .ok ∧
      Agreed t := by
  obtain ⟨a, ha⟩ := h.views
  have hnode : s.nodes[i]? = some s.nodes[i] := List.getElem?_eq_getElem hi
  have hself : ∃ node, s.nodes[a.pm]? = some node ∧ node.primaryIdx = mStatus := by
    have hprimary := a.primary
    rw [← ha, believesSelf, Replicas.control_getElem?] at hprimary
    cases hget : s.nodes[a.pm]? with
    | none =>
      rw [hget] at hprimary
      cases hprimary
    | some node =>
      rw [hget] at hprimary
      exact ⟨node, rfl, of_decide_eq_true hprimary⟩
  obtain ⟨primary, hpm, hprimary⟩ := hself
  have hdone : ∀ {t : Replicas}, t.control = s.control → t.dead = s.dead → Agreed t :=
    fun hcontrol hdead ↦ ⟨⟨a, hcontrol.trans ha⟩, hdead.trans h.alive⟩
  by_cases hipm : i = a.pm
  · subst hipm
    obtain ⟨t, reply, hserve, hok, hcontrol, hdead⟩ :=
      serve_at_pm h hm hpm hprimary haccepts s.nodes.length
    exact ⟨t, reply, hserve, hok, hdone hcontrol hdead⟩
  · obtain ⟨fuel, hfuel⟩ : ∃ fuel, s.nodes.length = fuel + 1 := ⟨s.nodes.length - 1, by omega⟩
    have hlength : i < a.partition.nodes.length := by
      rw [← ha, Replicas.control, List.length_map]
      exact hi
    have hhop := a.agreed i hlength hipm
    have hview : a.partition.nodes[i]? = some s.nodes[i].toNodeView := by
      rw [← ha, Replicas.control_getElem?, hnode, Option.map_some]
    obtain ⟨view, addr, hget, hpoints, -⟩ := nextHop_eq_some a.configured hhop
    obtain rfl : s.nodes[i].toNodeView = view := Option.some.inj (hview.symm.trans hget)
    obtain ⟨hother, hknown⟩ := pointsTo_ne hpoints
    have hserving := h.serving hnode
    have hroute := (route_of_accepts haccepts hserving
      (some (primaryResponse s.master).addr)).2 hother hknown
    have htarget : s.target s.nodes[i].toNodeView = some a.pm := by
      rw [nextHop, hview, Option.bind_some, forwardAddr, if_pos ⟨hserving, hknown, hother⟩] at hhop
      rw [Replicas.target_eq, ha]
      exact hhop
    have hsame : (s.modify i fun _ ↦ s.nodes[i].toNodeView) = s := by
      apply Replicas.modify_id
      intro node hn
      rw [Option.some.inj (hnode.symm.trans hn)]
    obtain ⟨t, reply, hserve, hok, hcontrol, hdead⟩ := serve_at_pm h hm hpm hprimary haccepts fuel
    refine ⟨t, reply, ?_, hok, hdone hcontrol hdead⟩
    rw [hfuel]
    unfold Replicas.serve
    simp only [hnode, h.alive, List.not_mem_nil, if_false, hroute, htarget, hsame]
    exact hserve

end Partition

/-! ## The calls of a program -/

/-- A call that the cluster executes like the map. -/
def Servable (m : Store) : KVOp → Prop
  | .get _ _ => True
  | .put row col _ => row ≠ [] ∧ col ≠ []
  | .cput row col v1 _ => row ≠ [] ∧ col ≠ [] ∧ m (row, col) = some v1
  | .del _ _ => True

/-- A partition as the client gets it from the coordinator. -/
def clientNodes (addrs : List Bytes) : List Node := addrs.map fun addr ↦ { addr, alive := true }

/-- The cluster holds the map, every partition is agreed, and so it stays: nothing happens between
requests, and each of them goes to a node that the channel lists. -/
structure Steady (client : Client) (config : ClusterConfig) (backend : Backend) (m : Store) :
    Prop where
  sharded : Sharded client config m backend.partitions
  agreed : ∀ (p : ℕ) s, backend.partitions[p]? = some s → Agreed s
  calm : ∀ n, (backend.turns n).incidents = []
  node : ∀ n (p : ℕ) addrs, config.partitions[p]? = some addrs →
    Listed (clientNodes addrs) ((backend.turns n).node p)

section Calls

variable {client : Client} {config : ClusterConfig} {backend : Backend} {m : Store} {p : ℕ}

theorem Steady.current (h : Steady client config backend m) : backend.current = backend.partitions := by
  rw [Backend.current, h.calm 0, List.foldl_nil]

theorem Steady.exists_node (h : Steady client config backend m) (hp : p < config.partitions.length) :
    ∃ s, backend.partitions[p]? = some s ∧ (backend.turns 0).node p < s.nodes.length := by
  have hlt : p < backend.partitions.length := by rwa [h.sharded.length]
  have hs := List.getElem?_eq_getElem hlt
  have haddrs := List.getElem?_eq_getElem hp
  have hlength := (h.sharded.control p _ _ hs haddrs).length_eq
  rw [Replicas.control, List.length_map] at hlength
  have hlisted := (h.node 0 p _ haddrs).lt_length
  rw [clientNodes, List.length_map, ← hlength] at hlisted
  exact ⟨_, hs, hlisted⟩

/-- The partitions change and the turns go on. -/
theorem Steady.next (h : Steady client config backend m) {partitions : List Replicas} {m' : Store}
    (hsharded : Sharded client config m' partitions)
    (hagreed : ∀ (p : ℕ) s, partitions[p]? = some s → Agreed s) :
    Steady client config { partitions, turns := fun n ↦ backend.turns (n + 1) } m' where
  sharded := hsharded
  agreed := hagreed
  calm := fun n ↦ h.calm (n + 1)
  node := fun n ↦ h.node (n + 1)

theorem agreed_set (h : ∀ (q : ℕ) s, backend.partitions[q]? = some s → Agreed s) {t : Replicas}
    (ht : Agreed t) (q : ℕ) (s : Replicas) (hs : (backend.partitions.set p t)[q]? = some s) :
    Agreed s := by
  rw [List.getElem?_set] at hs
  split at hs
  · split at hs
    · obtain rfl := Option.some.inj hs
      exact ht
    · cases hs
  · exact h q s hs

/-- The first attempt of a `get` finds the cell, or finds that it is missing. -/
theorem Steady.get (h : Steady client config backend m) (hp : p < config.partitions.length)
    (grq : GetRequest) (hrow : client.rowPartition grq.row = some p) (n : ℕ) :
    ∃ backend', Steady client config backend' m ∧
      (getLoop p grq (n + 1)).run execute backend =
        (backend', match m (grq.row, grq.col) with
          | some value => .ok value
          | none => .error .kvNotFound) := by
  obtain ⟨s, hs, hnode⟩ := h.exists_node hp
  have hview := List.getElem?_eq_getElem hnode
  have hagreed := h.agreed p s hs
  have hserving := hagreed.serving hview
  have hcells := h.sharded.agrees p s hs _ _ hview hserving
  have hexecute : execute { partition := p, rpc := .get grq } backend =
      ({ partitions := backend.partitions, turns := fun n ↦ backend.turns (n + 1) },
        .ok (KV.Handlers.get s.nodes[(backend.turns 0).node p] grq)) := by
    unfold execute
    simp only [h.current, hs, Option.bind_some, receive, hview, hagreed.alive, List.not_mem_nil,
      if_false]
    obtain ⟨hlt, rfl⟩ := List.getElem?_eq_some_iff.mp hs
    rw [List.set_getElem_self]
  refine ⟨_, h.next h.sharded h.agreed, ?_⟩
  have hcode := get_code s.nodes[(backend.turns 0).node p] grq
  have hdata := get_data s.nodes[(backend.turns 0).node p] grq
  rw [hserving, if_pos rfl, hcells, part_self hrow] at hcode hdata
  rw [run_getLoop, hexecute]
  dsimp only
  cases hcell : m (grq.row, grq.col) with
  | none =>
    rw [hcell] at hcode
    have hcode' : (KV.Handlers.get s.nodes[(backend.turns 0).node p] grq).status.code = .notFound := hcode
    rw [hcode', if_neg (by decide), if_pos rfl]
    rfl
  | some value =>
    rw [hcell] at hcode hdata
    have hcode' : (KV.Handlers.get s.nodes[(backend.turns 0).node p] grq).status.code = .ok := hcode
    rw [if_pos hcode', dataValue, hdata]
    rfl

/-- The first attempt of an acceptable write is executed. -/
theorem Steady.write (h : Steady client config backend m) (hp : p < config.partitions.length)
    (req : WriteRequest) (hrow : client.rowPartition req.record.cell.1 = some p)
    (haccepts : Accepts (part client p m) req) (n : ℕ) :
    ∃ backend', Steady client config backend' (write m req.record) ∧
      (writeLoop p req (n + 1)).run execute backend =
        (backend', .ok (replySize (part client p m) req).toInt32) := by
  obtain ⟨s, hs, hnode⟩ := h.exists_node hp
  have hagrees := h.sharded.agrees p s hs
  obtain ⟨t, reply, hserve, hok, hagreed⟩ := (h.agreed p s hs).serve hagrees hnode haccepts
  have hexecute : execute { partition := p, rpc := .write req } backend =
      ({ partitions := backend.partitions.set p t, turns := fun n ↦ backend.turns (n + 1) },
        .ok reply) := by
    unfold execute
    simp only [h.current, hs, Option.bind_some, receive, hserve]
  have hends : Ends client config m p (.write req)
      (execute { partition := p, rpc := .write req } backend) := execute_ends h.sharded hp hrow
  rw [hexecute] at hends
  rw [run_writeLoop, hexecute]
  dsimp only
  cases hends with
  | failed _ _ _ hne => exact absurd hok hne
  | executed _ _ _ _ _ hsize hsharded =>
    rw [if_pos hok, hsize]
    exact ⟨_, h.next hsharded (agreed_set h.agreed hagreed), rfl⟩

/-- A servable call is answered as by the map. -/
theorem Steady.call (hsize : client.partitions = config.partitions.length)
    (hint : sizeToInt client.partitions ≠ 0) (op : KVOp) (h : Steady client config backend m)
    (hop : Servable m op) :
    Steady client config ((client.call op).run execute backend).1
        (Frontend.KVClient.execute () op m).1 ∧
      ((client.call op).run execute backend).2 = (Frontend.KVClient.execute () op m).2 := by
  have hignored : ∀ {prog : ClientProg Int32} {backend' : Backend} {number : Int32},
      prog.run execute backend = (backend', .ok number) →
      (prog >>= fun _ ↦ pure ()).run execute backend = (backend', .ok ()) := by
    intro prog backend' number hrun
    rw [Prog.run_bind_pure prog (fun _ ↦ ()), hrun]
    rfl
  cases op with
  | get row col =>
    obtain ⟨p, hrow, hp⟩ := exists_rowPartition hsize hint row
    obtain ⟨backend', hsteady, hrun⟩ := h.get hp (GetRequest.mk row col) hrow 4
    have hcall : (client.call (.get row col)).run execute backend = _ :=
      (congrArg (fun prog : ClientProg Bytes ↦ prog.run execute backend) (get_eq hrow col)).trans hrun
    rw [hcall, Frontend.KVClient.execute]
    cases m (row, col) with
    | none => exact ⟨hsteady, rfl⟩
    | some value => exact ⟨hsteady, rfl⟩
  | put row col data =>
    obtain ⟨p, hrow, hp⟩ := exists_rowPartition hsize hint row
    obtain ⟨backend', hsteady, hrun⟩ := h.write hp
      (.put { row := row, col := col, value := data }) hrow hop 4
    rw [← put_eq hrow] at hrun
    have hcall : (client.call (.put row col data)).run execute backend = (backend', .ok ()) :=
      hignored hrun
    rw [hcall]
    exact ⟨hsteady, rfl⟩
  | cput row col v1 v2 =>
    obtain ⟨p, hrow, hp⟩ := exists_rowPartition hsize hint row
    obtain ⟨hr, hc, hcell⟩ := hop
    obtain ⟨backend', hsteady, hrun⟩ := h.write hp
      (.cPut { row := row, col := col, v1 := v1, v2 := v2 }) hrow
      ⟨hr, hc, (part_self hrow m col).trans hcell⟩ 4
    rw [← cput_eq hrow] at hrun
    have hcall : (client.call (.cput row col v1 v2)).run execute backend = (backend', .ok ()) :=
      hignored hrun
    rw [hcall, Frontend.KVClient.execute_cput_of_matches v2 (.inl hcell)]
    exact ⟨hsteady, rfl⟩
  | del row col =>
    obtain ⟨p, hrow, hp⟩ := exists_rowPartition hsize hint row
    obtain ⟨backend', hsteady, hrun⟩ := h.write hp
      (.delete { row := row, col := col }) hrow trivial 4
    rw [← del_eq hrow] at hrun
    have hcall : (client.call (.del row col)).run execute backend = (backend', .ok ()) :=
      hignored hrun
    rw [hcall]
    exact ⟨hsteady, rfl⟩

end Calls

/-! ## From the first round on -/

/-- The nodes start up with empty tablets and the coordinator makes its first round. -/
def elected (config : ClusterConfig) (garbage : ℕ → Bool) (turns : ℕ → Turn) : Backend where
  partitions := config.partitions.mapIdx fun p addrs ↦
    (Incident.round (garbage p)).happen p (Visibility.start addrs fun _ ↦ ∅).replicas
  turns := turns

theorem elected_control {addrs : List Bytes} (hne : addrs ≠ []) (hdistinct : addrs.Nodup) (p : ℕ)
    (garbage : Bool) :
    ((Incident.round garbage).happen p (Visibility.start addrs fun _ ↦ ∅).replicas).control =
      (AgreedPartition.elected hne hdistinct p garbage).partition := by
  have hstart := Visibility.start_control addrs fun _ ↦ ∅
  have hlength : ((startPartition addrs).round p garbage).nodes.length =
      (Visibility.start addrs fun _ ↦ ∅).replicas.nodes.length := by
    rw [(Partition.round_configured (startPartition_configured addrs) p garbage).length_eq]
    simp only [Visibility.start, List.length_mapIdx, startNodes]
  rw [← hstart] at hlength
  refine (Visibility.withControl_control hlength).trans ?_
  rw [hstart]
  rfl

section Elected

variable {config : ClusterConfig} {garbage : ℕ → Bool} {turns : ℕ → Turn}

theorem elected_agreed {p : ℕ} {s : Replicas}
    (hs : (elected config garbage turns).partitions[p]? = some s) : Agreed s := by
  rw [elected, List.getElem?_mapIdx, Option.map_eq_some_iff] at hs
  obtain ⟨addrs, haddrs, rfl⟩ := hs
  have hmem := List.mem_of_getElem? haddrs
  exact {
    views := ⟨_, elected_control (config.nodes_ne addrs hmem) (config.distinct addrs hmem) p _⟩
    alive := rfl }

theorem elected_sharded (client : Client) :
    Sharded client config (fun _ ↦ none) (elected config garbage turns).partitions where
  length := List.length_mapIdx
  control := by
    intro p s addrs hs haddrs
    rw [elected, List.getElem?_mapIdx, haddrs, Option.map_some] at hs
    obtain rfl := Option.some.inj hs
    have hmem := List.mem_of_getElem? haddrs
    exact happen_forwardInv (config.distinct addrs hmem) (config.named addrs hmem)
      ((start_sharded client config turns).control p _ addrs
        (by rw [OneMap.start, List.getElem?_map, haddrs, Option.map_some]) haddrs) p _
  agrees := by
    intro p s hs
    rw [elected, List.getElem?_mapIdx, Option.map_eq_some_iff] at hs
    obtain ⟨addrs, haddrs, rfl⟩ := hs
    exact ((start_sharded client config turns).agrees p _
      (by rw [OneMap.start, List.getElem?_map, haddrs, Option.map_some])).happen p _

theorem elected_steady (client : Client) (hcalm : ∀ n, (turns n).incidents = [])
    (hnode : ∀ n (p : ℕ) addrs, config.partitions[p]? = some addrs →
      Listed (clientNodes addrs) ((turns n).node p)) :
    Steady client config (elected config garbage turns) fun _ ↦ none where
  sharded := elected_sharded client
  agreed := fun _ _ hs ↦ elected_agreed hs
  calm := hcalm
  node := hnode

end Elected

/-- The second partition has its requests answered in turns by its two nodes on the channel. -/
def alternating (n : ℕ) : Turn where
  incidents := []
  node := fun p ↦ if p = 1 then n % 2 else 0

theorem alternating_node_lt (n : ℕ) {p : ℕ} {addrs : List Bytes}
    (h : sevenNodes.partitions[p]? = some addrs) : (alternating n).node p + 1 < addrs.length := by
  have htwo : ∀ addrs ∈ sevenNodes.partitions, 1 < addrs.length := by decide
  dsimp only [alternating]
  split
  · next hp =>
    rw [hp] at h
    obtain rfl := Option.some.inj h
    exact Nat.succ_lt_succ (Nat.mod_lt n (by decide))
  · exact htwo addrs (List.mem_of_getElem? h)

/-- A cell is stored, exchanged and read. -/
def exchange : KVProg Bytes := do
  Frontend.KVClient.put (lit "row") (lit "col") (lit "x")
  Frontend.KVClient.cput (lit "row") (lit "col") (lit "x") (lit "y")
  Frontend.KVClient.get (lit "row") (lit "col")

theorem exchange_along :
    exchange.Along (Frontend.KVClient.execute ()) Servable fun _ ↦ none := by
  refine ⟨⟨by decide, by decide⟩, ⟨by decide, by decide, ?_⟩, trivial, trivial⟩
  exact Function.update_self (lit "row", lit "col") (some (lit "x")) fun _ ↦ none

end PennCloud.Cluster.AgreedCluster
